import GompUlt.Team.Placement

/-! # Scheduling keeps the tasks in their queues

The starts, suspensions and resumptions of tasks and the releases of locks, each seen as a
move of one task between the zones of its queues followed by the wake-ups of waiting tasks.
-/
namespace GompUlt.Team
open Queue TeamState

/-- Every task is where its fields put it, the watched queues have seen only calls that fit them, and the ready
count agrees with the team queues. -/
structure Placed (w : Watch) (s : TeamState) : Prop where
  shaped : Shaped s
  placed : ∀ t, s.PlacedAt t
  flags : Flags w s
  drift : s.drift = 0
  family : w.children → Family s
  regrouped : w.taskgroup → Regrouped s

namespace Placed
variable {w : Watch} {s s' : TeamState} {t u : ℕ}

theorem waiters (h : Placed w s) : WaitersPlaced w s := ⟨h.shaped,fun u _ => h.placed u,h.family,h.regrouped⟩

theorem nudged (h : Placed w s) (hr : Nudged w s s') : Placed w s' where
  shaped := hr.shaped h.shaped
  placed u := hr.placed u (h.placed u)
  flags := hr.flags h.flags
  drift := hr.drift.trans h.drift
  family hw := family_nudged (h.family hw) hr
  regrouped hw := regrouped_nudged (h.regrouped hw) hr

/-- One task is moved. -/
theorem of_move (h : Placed w s) (ht : t < s.numTasks) (htask : ∀ u, u ≠ t → s'.task u = s.task u)
    (hstatus : ∀ u, u ≠ t → ∀ q, s'.status q u = s.status q u) (hnum : s'.numTasks = s.numTasks)
    (hult : s'.ultVar = s.ultVar) (hfreed : (s'.task t).freed = (s.task t).freed)
    (hshape : TaskShape s.ultVar t (s'.task t)) (hplaced : s'.PlacedAt t) (hflags : Flags w s') (hdrift : s'.drift = 0)
    (hlisted : (s'.task t).isHeap → (s.task t).isHeap ∧ (s'.task t).parent = (s.task t).parent)
    (hgroup : w.taskgroup → (s'.task t).isListed → (s'.task t).kind = .waiting →
      (s'.task t).taskgroup = (s'.task t).createdIn) : Placed w s' := by
  have hfr : ∀ p, (s'.task p).freed = (s.task p).freed := by
    intro p
    by_cases e : p = t
    · rw [e,hfreed]
    · rw [htask p e]
  constructor
  case shaped =>
    constructor
    · intro u
      rw [hult]
      by_cases e : u = t
      · rw [e]
        exact hshape
      · rw [htask u e]
        exact h.shaped.task u
    · intro u hu
      rw [hnum] at hu
      rw [htask u (by omega)]
      exact h.shaped.fresh u hu
  case placed =>
    intro u
    by_cases e : u = t
    · rw [e]
      exact hplaced
    · exact (h.placed u).congr (htask u e) hfr (hstatus u e)
  case flags => exact hflags
  case drift => exact hdrift
  case family =>
    intro hw u p hl hp
    rw [hfr]
    by_cases e : u = t
    · subst e
      obtain ⟨hl',hp'⟩ := hlisted hl
      exact h.family hw u p hl' (hp' ▸ hp)
    · rw [htask u e] at hl hp
      exact h.family hw u p hl hp
  case regrouped =>
    intro hw u hl hk
    by_cases e : u = t
    · subst e
      exact hgroup hw hl hk
    · rw [htask u e] at hl hk ⊢
      exact h.regrouped hw u hl hk

/-- The fields that say in which queues a task belongs are the same. -/
def SamePlace (x x' : Task) : Prop :=
  { x' with
    taskgroup := x.taskgroup, kind := x.kind, isBlocked := x.isBlocked, parentDependsOn := x.parentDependsOn,
    undeferredAncestor := x.undeferredAncestor, taskwait := x.taskwait, hasDepend := x.hasDepend,
    numDependees := x.numDependees, dependers := x.dependers, untiedBlockVar := x.untiedBlockVar,
    isTarget := x.isTarget, dependees := x.dependees, busy := x.busy } = x

theorem SamePlace.fields {x x' : Task} (h : SamePlace x x') : x'.freed = x.freed ∧ x'.parent = x.parent ∧
    x'.type = x.type ∧ x'.createdIn = x.createdIn ∧ x'.suspendingThread = x.suspendingThread ∧
    x'.lockedTasks = x.lockedTasks ∧ x'.isHeap = x.isHeap := by
  unfold SamePlace at h
  exact ⟨(congrArg Task.freed h :),(congrArg Task.parent h :),(congrArg Task.type h :),
    (congrArg Task.createdIn h :),(congrArg Task.suspendingThread h :),(congrArg Task.lockedTasks h :),
    (congrArg Task.isHeap h :)⟩

/-- A change of fields that moves the task nowhere. -/
theorem modify {f : Task → Task} (h : Placed w s) (ht : t < s.numTasks)
    (hshape : TaskShape s.ultVar t (f (s.task t))) (hsame : SamePlace (s.task t) (f (s.task t)))
    (hview : (f (s.task t)).view = (s.task t).view)
    (hgroup : w.taskgroup → (f (s.task t)).isListed → (f (s.task t)).kind = .waiting →
      (f (s.task t)).taskgroup = (f (s.task t)).createdIn) : Placed w (s.modify t f) := by
  have hself : (s.modify t f).task t = f (s.task t) := by simp
  obtain ⟨hfr,hpar,hty,hcr,hth,hlo,hheap⟩ := hsame.fields
  have hfreed : ∀ p, ((s.modify t f).task p).freed = (s.task p).freed := by
    intro p
    rw [modify_task]
    split
    · next e => rw [e,hfr]
    · rfl
  refine h.of_move ht (fun u e => by simp [e]) (fun u _ q => rfl) rfl rfl (hfreed t) ?_ ?_ h.flags ?_ ?_ ?_
  · rw [hself]
    exact hshape
  · intro q
    simp only [address, liveParent, hself, hfreed, hpar, hty, hcr, hth, hlo, hview]
    exact h.placed t q
  · exact h.drift
  · rw [hself,hheap]
    exact fun hl => ⟨hl,hpar⟩
  · rw [hself]
    exact hgroup

end Placed

namespace TeamState
variable {w : Watch} {s s' : TeamState} {t u : ℕ}

/-- A task that can be taken from a queue is not blocked. -/
theorem selectable_facts (h : Placed w s) {src : QRef} (hs : s.isSelectable t src = true) :
    (s.task t).isBlocked = false ∧ ((s.task t).home = .listed ∨ (s.task t).home = .stack) := by
  obtain ⟨-,hfreed,hlocked,hst,hk⟩ := isSelectable_iff.mp hs
  have hsh := h.shaped.task t
  have hlate : (s.task t).home ≠ .late := by
    intro e
    have := hsh.late e
    rw [this] at hk
    simp at hk
  have hready : ∀ x : Task, x.waitZone = .ready → x.isBlocked = false := by
    intro x hx
    cases hb : x.isBlocked <;> simp [Task.waitZone, zoneOf, hb] at hx ⊢
  have hzone : (s.task t).zone = .ready → (s.task t).isBlocked = false := by
    intro hz
    unfold Task.zone at hz
    split at hz
    · exact hready _ hz
    · cases hz
  rw [h.placed t src] at hst
  cases src with
  | children type p =>
    simp only [expect, Task.view, Option.ite_none_right_eq_some, Option.some.injEq] at hst
    obtain ⟨-,hl,hz⟩ := hst
    simp only [Task.isListed, hlate, Bool.and_eq_true, List.mem_cons, List.not_mem_nil, or_false, decide_eq_true_eq] at hl
    exact ⟨hzone hz,Or.inl hl.2⟩
  | taskgroup type g =>
    simp only [expect, Task.view, Option.ite_none_right_eq_some, Option.some.injEq] at hst
    obtain ⟨-,hl,hz⟩ := hst
    simp only [Task.isListed, hlate, Bool.and_eq_true, List.mem_cons, List.not_mem_nil, or_false, decide_eq_true_eq] at hl
    split at hz
    · exact ⟨hzone hz,Or.inl hl.2⟩
    · cases hz
  | team type =>
    simp only [expect, Task.view, Option.ite_none_right_eq_some, Option.some.injEq] at hst
    obtain ⟨-,hl,hz⟩ := hst
    refine ⟨hready _ hz,?_⟩
    simp [Task.isQueued, hlate] at hl
    exact hl.2.2
  | suspended type thr =>
    simp only [expect, Task.view, Option.ite_none_right_eq_some, Option.some.injEq] at hst
    obtain ⟨-,hl,hz⟩ := hst
    refine ⟨hready _ hz,?_⟩
    simp [Task.isSuspended] at hl
    exact hl.1.2
  | locked l => cases hlocked

theorem runKind_ne (x : Task) : x.runKind ≠ .waiting ∧ x.runKind ≠ .tiedSuspended := by
  unfold Task.runKind
  split <;> simp

theorem result_remove (b plain : Bool) : (Call.remove b).result plain (some (zoneOf b)) = none := by
  cases b <;> cases plain <;> decide

theorem exact_remove (b : Bool) : (Call.remove b).exact true (some (zoneOf b)) = true := by
  cases b <;> decide

/-- The view of a running task after a change of the kind alone. -/
theorem view_setRunning (hf : (s.task t).freed = false) (hh : (s.task t).home = .listed ∨ (s.task t).home = .stack) :
    { s.task t with kind := (s.task t).runKind }.view = (s.task t).runView :=
  Task.view_running (x := { s.task t with kind := (s.task t).runKind }) hf (runKind_ne _).1 (runKind_ne _).2 hh

/-- The last part of a resumption: the task leaves the last of its queues and runs. -/
theorem setRunning_placed {s₁ : TeamState} (h : Placed w s) (ht : t < s.numTasks)
    (hk : (s.task t).kind = .waiting ∨ (s.task t).kind = .tiedSuspended)
    (hh : (s.task t).home = .listed ∨ (s.task t).home = .stack) (htask : s₁.task = s.task)
    (hnum : s₁.numTasks = s.numTasks) (hult : s₁.ultVar = s.ultVar)
    (hothers : ∀ u, u ≠ t → ∀ q, s₁.status q u = s.status q u)
    (hat : s₁.At t (s.address t) (s.task t).runView) (hflags : Flags w s₁) {d : ℤ} (hdrift : s₁.drift + d = 0) : Placed w ((s₁.setRunning t).addQueued d) := by
  have hsh := h.shaped.task t
  have hfreed := not_freed_of_waits hsh hk
  refine h.of_move ht ?_ ?_ ?_ ?_ ?_ ?_ ?_ ?_ ?_ ?_ ?_
  · intro u e
    simp [setRunning, e, htask]
  · intro u e q
    simp [setRunning, hothers u e]
  · simp [setRunning, hnum]
  · simp [setRunning, hult]
  · simp [setRunning, htask]
  · simpa [setRunning, htask] using hsh.running hk hh
  · have haddr : ((s₁.setRunning t).addQueued d).address t = s.address t := by
      simp only [address, liveParent, setRunning, addQueued_task, modify_task, htask, if_true]
      congr 2
      funext p
      split
      · next e => rw [e]
      · rfl
    have hview : (((s₁.setRunning t).addQueued d).task t).view = (s.task t).runView := by
      simp only [setRunning, addQueued_task, modify_task, htask, if_true]
      exact view_setRunning hfreed hh
    unfold PlacedAt
    rw [haddr,hview]
    exact hat.modify.addQueued d
  · exact hflags.of_queue_eq rfl
  · simpa [setRunning] using hdrift
  · simp [setRunning, Task.isHeap, htask]
  · intro _ _ hk'
    simp [setRunning, htask, (runKind_ne (s.task t)).1] at hk'

theorem addQueued_zero : s.addQueued 0 = s := by
  simp [addQueued]

/-- gomp_task_run_pre for a TIED task that has been suspended. -/
theorem runPreTied_placed (h : Placed w s) (ht : t < s.numTasks) (hk : (s.task t).kind = .tiedSuspended)
    (hb : (s.task t).isBlocked = false) (p : Option ℕ) : Placed w (s.gompTaskRunPre t p) := by
  have hsh := h.shaped.task t
  obtain ⟨hty,-,hhome⟩ := hsh.tiedSuspended hk
  have hfreed := not_freed_of_waits hsh (Or.inr hk)
  have hat := h.placed t
  unfold PlacedAt at hat
  rw [Task.view_tiedSuspended hfreed hty hk hhome.symm,Task.waitZone,hb] at hat
  have hleft : (s.callSuspended .tied (s.task t).suspendingThread (.remove false) t).At t (s.address t)
      (s.task t).runView := by
    refine (hat.callThread hty rfl).view_eq ?_
    simp [result_remove, Task.runView]
  have hflags := Flags.callThread h.flags hat (c := .remove false) hty rfl fun _ => exact_remove false
  have hrun := setRunning_placed (d := 0) h ht (Or.inr hk) hhome.symm (by simp) (by simp) (by simp)
    (fun u e q => callSuspended_status_ne e) hleft hflags (by simp [h.drift])
  rw [addQueued_zero] at hrun
  unfold gompTaskRunPre
  rw [if_pos hk,hb]
  exact hrun

theorem exact_downgrade : Call.downgrade.exact false (some (zoneOf false)) = true := by decide

/-- The view of any task that waits and is not blocked, inside a taskgroup of its own or not. -/
theorem view_waiting (hsh : TaskShape s.ultVar t (s.task t)) (hk : (s.task t).kind = .waiting)
    (hb : (s.task t).isBlocked = false) (hh : (s.task t).home = .listed ∨ (s.task t).home = .stack) :
    (s.task t).view =
      { family := if (s.task t).home = .listed then some .ready else none,
        group := if (s.task t).home = .listed then
          some (if (s.task t).taskgroup = (s.task t).createdIn then .ready else .running) else none,
        team := some .ready,
        thread := if (s.task t).type = .untied then some .ready else none } := by
  have hfreed := not_freed_of_waits hsh (Or.inl hk)
  cases hty : (s.task t).type with
  | tied =>
    obtain ⟨hsusp,-,hnot⟩ := hsh.tiedWaiting hk hty
    have hlisted : (s.task t).home = .listed := hh.resolve_right hnot
    rw [Task.view_tiedWaiting hfreed hty hk (hsh.unopened hsusp (Or.inl hk)) hlisted]
    simp [Task.waitZone, zoneOf, hb, hlisted, hsh.unopened hsusp (Or.inl hk)]
  | untied =>
    rw [Task.view_untiedWaiting hfreed hty hk hh]
    simp [Task.untiedView, zoneOf, hb]

section LeaveQueues
variable (h : Placed w s) (hk : (s.task t).kind = .waiting) (hb : (s.task t).isBlocked = false)
  (hh : (s.task t).home = .listed ∨ (s.task t).home = .stack)
include h hk hb hh

/-- First it becomes a running task among its siblings. -/
theorem leaveFamily_at :
    (if (s.task t).undeferredAncestor = none then
      s.callFamily (s.task t).type (s.task t).parent (s.task t).taskgroup .downgrade t else s).At t (s.address t)
      { (s.task t).runView with
        team := some .ready
        thread := if (s.task t).type = .untied then some .ready else none } ∧
    Flags w (if (s.task t).undeferredAncestor = none then
      s.callFamily (s.task t).type (s.task t).parent (s.task t).taskgroup .downgrade t else s) := by
  have hsh := h.shaped.task t
  have hfreed := not_freed_of_waits hsh (Or.inl hk)
  have hlisted := listed_iff_of_waiting hsh hk hh
  have hat := h.placed t
  unfold PlacedAt at hat
  rw [view_waiting hsh hk hb hh] at hat
  split
  case isTrue ha =>
    have hl := hlisted.mpr ha
    have hisl : (s.task t).isListed = true := by simp [Task.isListed, hfreed, hl]
    simp only [hl, if_true] at hat
    constructor
    · refine (hat.callFamily rfl (s.task t).taskgroup (address_group s t) (by decide) (parent_or_none s t)).view_eq ?_
      ext1 <;> simp only [Task.runView, hl, if_true]
      · decide
      · split
        · decide
        · rfl
    · refine Flags.callFamily h.flags hat rfl (fun hw _ => ⟨parent_eq_of_family (h.family hw) hisl,exact_downgrade⟩)
        fun hw _ => ?_
      have hg := h.regrouped hw t hisl hk
      refine ⟨hg,?_⟩
      rw [if_pos hg]
      exact exact_downgrade
  case isFalse ha =>
    refine ⟨hat.view_eq ?_,h.flags⟩
    have hl : (s.task t).home ≠ .listed := fun e => ha (hlisted.mp e)
    simp [Task.runView, hl]

/-- gomp_task_run_pre takes a task that waits out of its queues. -/
theorem leaveQueues_at :
    (s.leaveQueues t (s.task t).parent).At t (s.address t) (s.task t).runView ∧
    Flags w (s.leaveQueues t (s.task t).parent) := by
  obtain ⟨hfam,hflags⟩ := leaveFamily_at h hk hb hh
  unfold leaveQueues
  simp only [hb]
  cases hty : (s.task t).type with
  | tied =>
    rw [hty] at hfam hflags
    simp only [reduceCtorEq, if_false] at hfam ⊢
    refine ⟨(hfam.callTeam hty).view_eq ?_,Flags.callTeam hflags hfam hty (exact_remove false)⟩
    simp [Task.runView]
    decide
  | untied =>
    rw [hty] at hfam hflags
    simp only [if_true] at hfam ⊢
    have hthr := hfam.callThread (c := .remove false) hty rfl
    have hfl := Flags.callThread hflags hfam (c := .remove false) hty rfl (fun _ => exact_remove false)
    refine ⟨(hthr.callTeam hty).view_eq ?_,Flags.callTeam hfl hthr hty (exact_remove false)⟩
    simp [Task.runView]
    decide

end LeaveQueues

theorem leaveQueues_frame (s : TeamState) (t : ℕ) (p : Option ℕ) : (s.leaveQueues t p).task = s.task ∧
    (s.leaveQueues t p).numTasks = s.numTasks ∧ (s.leaveQueues t p).ultVar = s.ultVar ∧
    ∀ u, u ≠ t → ∀ q, (s.leaveQueues t p).status q u = s.status q u := by
  unfold leaveQueues
  by_cases ha : (s.task t).undeferredAncestor = none <;> by_cases hty : (s.task t).type = .untied <;>
    simp only [ha, hty, if_true, if_false] <;> refine ⟨by simp,by simp,by simp,fun u e q => ?_⟩ <;>
    simp only [call_status_ne e, callSuspended_status_ne e, callFamily_status_ne e]

theorem leaveQueues_drift (hb : (s.task t).isBlocked = false) (p : Option ℕ) :
    (s.leaveQueues t p).drift = s.drift + 1 := by
  unfold leaveQueues
  by_cases ha : (s.task t).undeferredAncestor = none <;> by_cases hty : (s.task t).type = .untied <;>
    simp [ha, hty, hb, Call.waiting]

/-- gomp_task_run_pre, for any task that can be taken from a queue. -/
theorem gompTaskRunPre_placed (h : Placed w s) {src : QRef} (hs : s.isSelectable t src = true) :
    Placed w (s.gompTaskRunPre t (s.task t).parent) := by
  obtain ⟨hb,hh⟩ := selectable_facts h hs
  obtain ⟨ht,-,-,-,hk | ⟨hk,-⟩⟩ := isSelectable_iff.mp hs
  · obtain ⟨hat,hflags⟩ := leaveQueues_at h hk hb hh
    obtain ⟨h1,h2,h3,h4⟩ := leaveQueues_frame s t (s.task t).parent
    have hdrift := leaveQueues_drift hb (s.task t).parent
    have hrun := setRunning_placed (d := -1) h ht (Or.inl hk) hh h1 h2 h3 h4 hat hflags (by rw [hdrift,h.drift]; rfl)
    unfold gompTaskRunPre
    simp only [hk, reduceCtorEq, if_false]
    split
    · exact hrun.nudged (handleParent_nudged hrun.waiters _)
    · exact hrun
  · exact runPreTied_placed h ht hk hb _

/-! ## Suspension -/

theorem result_insert (b plain : Bool) : (Call.insert b).result plain none = some (zoneOf b) := by
  cases b <;> cases plain <;> decide

theorem exact_insert (b plain : Bool) : (Call.insert b).exact plain none = true := by
  cases b <;> cases plain <;> decide

/-- The call that takes a running task to one of the other zones. -/
theorem result_suspend (b : Bool) :
    (if b then Call.block .tied else .adjust).result false (some .running) = some (zoneOf b) := by
  cases b <;> decide

theorem exact_suspend (b : Bool) : (if b then Call.block .tied else .adjust).exact false (some .running) = true := by
  cases b <;> decide

/-- What is needed of a task that is suspended. -/
structure Suspendable (s : TeamState) (t : ℕ) (lock : Option ℕ) : Prop where
  lt : t < s.numTasks
  ult : s.ultVar = true
  freed : (s.task t).freed = false
  busy : (s.task t).busy = false
  target : (s.task t).isTarget = false
  kind : (s.task t).kind = .tied ∨ (s.task t).kind = .undeferred
  home : (s.task t).home = .listed ∨ (s.task t).home = .stack
  lock : lock = none ∨ (s.task t).taskwait = none

/-- The address of a task once it is suspended. -/
def suspendAddress (s : TeamState) (t thr : ℕ) (lock : Option ℕ) : Address :=
  { s.address t with thread := some thr, lock := lock }

theorem enterLocked_frame (s : TeamState) (t : ℕ) (enter : Bool) (lock : Option ℕ) :
    (s.enterLocked t enter lock).task = s.task ∧ (s.enterLocked t enter lock).numTasks = s.numTasks ∧
    (s.enterLocked t enter lock).ultVar = s.ultVar ∧ (s.enterLocked t enter lock).drift = s.drift ∧
    ∀ u, u ≠ t → ∀ q, (s.enterLocked t enter lock).status q u = s.status q u := by
  unfold enterLocked
  cases enter <;> cases lock <;> simp [callOpt]
  intro u e q
  exact call_status_ne e

theorem enterQueues_frame (s : TeamState) (thr t : ℕ) (b : Bool) :
    (s.enterQueues thr t b).task = s.task ∧ (s.enterQueues thr t b).numTasks = s.numTasks ∧
    (s.enterQueues thr t b).ultVar = s.ultVar ∧ (s.enterQueues thr t b).drift = s.drift - (if b then 0 else 1) ∧
    ∀ u, u ≠ t → ∀ q, (s.enterQueues thr t b).status q u = s.status q u := by
  unfold enterQueues
  by_cases hk : (s.task t).kind = .undeferred <;> cases b <;>
    simp only [hk, ne_eq, not_true_eq_false, not_false_eq_true, if_true, if_false] <;>
    refine ⟨by simp,by simp,by simp,by simp [Call.waiting],fun u e q => ?_⟩ <;>
    simp only [call_status_ne e, callFamily_status_ne e]

section Suspend
variable {lock : Option ℕ} (h : Placed w s) (hs : Suspendable s t lock) (thr : ℕ)
include h hs

theorem suspendable_at : s.At t (s.suspendAddress t thr lock) (s.task t).runView := by
  have hat := h.placed t
  have hk : (s.task t).kind ≠ .waiting ∧ (s.task t).kind ≠ .tiedSuspended := by
    rcases hs.kind with e | e <;> simp [e]
  unfold PlacedAt at hat
  rw [Task.view_running hs.freed hk.1 hk.2 hs.home] at hat
  exact hat.readdress rfl (Or.inl rfl) (Or.inl rfl) (Or.inr rfl) (Or.inr rfl)

/-- The lock's queue gets the task unless its own children block it. -/
theorem enterLocked_at (blocked : Bool) (hb : blocked = true → (s.task t).taskwait ≠ none) :
    (s.enterLocked t (!blocked) lock).At t (s.suspendAddress t thr lock)
      { (s.task t).runView with
        lock := if (blocked || lock.isSome) ∧ (s.task t).taskwait = none then some .ready else none } ∧
    Flags w (s.enterLocked t (!blocked) lock) := by
  have hat := suspendable_at h hs thr
  unfold enterLocked
  cases blocked with
  | true =>
    refine ⟨hat.view_eq ?_,h.flags⟩
    simp [hb rfl, Task.runView]
  | false =>
    simp only [Bool.not_false, if_true, Bool.false_or]
    cases lock with
    | none =>
      refine ⟨hat.view_eq ?_,h.flags⟩
      simp [Task.runView]
    | some l =>
      have hw := hs.lock.resolve_left (by simp)
      refine ⟨(hat.callLock rfl).view_eq ?_,Flags.callLock h.flags hat rfl fun _ _ => exact_insert false true⟩
      simp [hw, Task.runView]
      decide

/-- The last part of a suspension: the task is in its queues, and its fields say so. -/
theorem setSuspended_placed {s₁ : TeamState} (b : Bool) (kind : TaskKind) (htask : s₁.task = s.task)
    (hnum : s₁.numTasks = s.numTasks) (hult : s₁.ultVar = s.ultVar)
    (hothers : ∀ u, u ≠ t → ∀ q, s₁.status q u = s.status q u)
    (hshape : TaskShape s.ultVar t
      { s.task t with isBlocked := b, suspendingThread := some thr, kind, lockedTasks := lock })
    (hat : s₁.At t (s.suspendAddress t thr lock)
      { s.task t with isBlocked := b, suspendingThread := some thr, kind, lockedTasks := lock }.view)
    (hflags : Flags w s₁) {d : ℤ} (hdrift : s₁.drift + d = 0)
    (hgroup : w.taskgroup → kind = .waiting → (s.task t).home = .listed →
      (s.task t).taskgroup = (s.task t).createdIn) :
    Placed w ((s₁.setSuspended thr t b kind lock).addQueued d) := by
  refine h.of_move hs.lt ?_ ?_ ?_ ?_ ?_ ?_ ?_ ?_ ?_ ?_ ?_
  · intro u e
    simp [setSuspended, e, htask]
  · intro u e q
    simp [setSuspended, hothers u e]
  · simp [setSuspended, hnum]
  · simp [setSuspended, hult]
  · simp [setSuspended, htask]
  · simpa [setSuspended, htask] using hshape
  · have haddr : ((s₁.setSuspended thr t b kind lock).addQueued d).address t = s.suspendAddress t thr lock := by
      simp only [address, suspendAddress, liveParent, setSuspended, addQueued_task, modify_task, htask, if_true]
      congr 2
      funext p
      split
      · next e => rw [e]
      · rfl
    unfold PlacedAt
    rw [haddr]
    simp only [setSuspended, addQueued_task, modify_task, htask, if_true]
    exact hat.modify.addQueued d
  · exact hflags.of_queue_eq rfl
  · simpa [setSuspended] using hdrift
  · simp [setSuspended, Task.isHeap, htask]
  · intro hw hl hk
    simp only [setSuspended, addQueued_task, modify_task, htask, if_true] at hl hk ⊢
    simp only [Task.isListed, Bool.and_eq_true, List.mem_cons, List.not_mem_nil, or_false, decide_eq_true_eq] at hl
    rcases hl.2 with hl | hl
    · exact hgroup hw hk hl
    · rcases hs.home with e | e <;> rw [e] at hl <;> cases hl

/-- gomp_suspend_tied_task_for_successor. -/
theorem gompSuspendTied_placed (hty : (s.task t).type = .tied) :
    Placed w (s.gompSuspendTiedTaskForSuccessor thr t lock) := by
  have hsh := h.shaped.task t
  have himp : (s.task t).kind ≠ .implicit := by
    rcases hs.kind with e | e <;> simp [e]
  unfold gompSuspendTiedTaskForSuccessor
  simp only [himp, if_false]
  generalize hbl : ((s.task t).inTaskwait && s.isBlockedTied t) = blocked
  have hb : blocked = true → (s.task t).taskwait ≠ none := by
    intro e
    rw [e] at hbl
    exact inTaskwait_taskwait (Bool.and_eq_true_iff.mp hbl).1
  obtain ⟨hat,hflags⟩ := enterLocked_at h hs thr blocked hb
  obtain ⟨h1,h2,h3,h4,h5⟩ := enterLocked_frame s t (!blocked) lock
  have hthr := hat.callThread (c := .insert (blocked || lock.isSome)) hty rfl
  have hfl := Flags.callThread hflags hat (c := .insert (blocked || lock.isSome)) hty rfl fun _ => exact_insert _ true
  have hend := setSuspended_placed (d := 0) h hs thr (blocked || lock.isSome) .tiedSuspended (by simp [h1])
    (by simp [h2]) (by simp [h3]) (fun u e q => by rw [callSuspended_status_ne e,h5 u e])
    (hsh.suspendTied hty hs.home hs.busy hs.target hs.freed hs.ult _ _ _) (hthr.view_eq ?_) hfl
    (by simp [h4, h.drift]) (fun _ e => by cases e)
  · rw [addQueued_zero] at hend
    exact hend
  · rw [Task.view_tiedSuspended (x := { s.task t with
      isBlocked := blocked || lock.isSome, suspendingThread := some thr, kind := .tiedSuspended, lockedTasks := lock })
      hs.freed hty rfl hs.home]
    simp [Task.runView, Task.waitZone, result_insert]

/-- An UNTIED task runs under the kind of its home. -/
theorem untied_kind_iff (hty : (s.task t).type = .untied) :
    (s.task t).kind ≠ .undeferred ↔ (s.task t).home = .listed := by
  have hsh := h.shaped.task t
  rcases hs.home with e | e
  · refine ⟨fun _ => e,fun _ hk => ?_⟩
    have ha := (hsh.listed e).1 hk
    rcases hsh.ancestor (by rw [e]; decide) with h' | h'
    · exact ha h'
    · rw [hty] at h'
      cases h'.2
  · refine ⟨fun hk => ?_,fun hl => ?_⟩
    · rcases (hsh.stack e).1 with h' | ⟨h',-⟩
      · exact absurd h' hk
      · rcases hs.kind with e' | e' <;> rw [e'] at h' <;> simp at h'
    · rw [hl] at e
      cases e

/-- The queues of an UNTIED task that is suspended. -/
theorem enterQueues_at {s₁ : TeamState} {l : Option Zone} (b : Bool) (hty : (s.task t).type = .untied)
    (htask : s₁.task = s.task)
    (hat : s₁.At t (s.suspendAddress t thr lock) { (s.task t).runView with lock := l }) (hflags : Flags w s₁)
    (hgroup : w.taskgroup → (s.task t).home = .listed → (s.task t).taskgroup = (s.task t).createdIn) :
    (s₁.enterQueues thr t b).At t (s.suspendAddress t thr lock) ((s.task t).untiedView b l) ∧
    Flags w (s₁.enterQueues thr t b) := by
  have hlisted := untied_kind_iff h hs hty
  have hty' : (s.suspendAddress t thr lock).type = .untied := hty
  unfold enterQueues
  rw [htask]
  dsimp only
  split
  case isTrue hk =>
    have hl := hlisted.mp hk
    have hkind : (s.task t).kind = .tied := hs.kind.resolve_right hk
    have hisl : (s.task t).isListed = true := by simp [Task.isListed, hs.freed, hl]
    rw [hkind]
    simp only [Task.runView, Task.untiedView, hl, if_true] at hat ⊢
    have hfam := hat.callFamily (c := if b then .block .tied else .adjust) hty' (s.task t).taskgroup (address_group s t)
      (by cases b <;> decide) (parent_or_none s t)
    have hfl := Flags.callFamily hflags hat hty' (c := if b then .block .tied else .adjust)
      (fun hw _ => ⟨parent_eq_of_family (h.family hw) hisl,exact_suspend b⟩)
      (fun hw _ => ⟨hgroup hw hl,exact_suspend b⟩)
    simp only [result_suspend] at hfam
    have hthr := hfam.callOnThread (c := .insert b) hty' rfl
    have hfl' := Flags.callOnThread hfl hfam (c := .insert b) hty' rfl (exact_insert b true)
    refine ⟨(hthr.callTeam hty').view_eq ?_,Flags.callTeam hfl' hthr hty' (exact_insert b true)⟩
    simp only [result_insert]
    ext1 <;> simp only
    split <;> rfl
  case isFalse hk =>
    have hl : (s.task t).home ≠ .listed := fun e => hk (hlisted.mpr e)
    simp only [Task.runView, Task.untiedView, hl, if_false] at hat ⊢
    have hthr := hat.callOnThread (c := .insert b) hty' rfl
    have hfl' := Flags.callOnThread hflags hat (c := .insert b) hty' rfl (exact_insert b true)
    refine ⟨(hthr.callTeam hty').view_eq ?_,Flags.callTeam hfl' hthr hty' (exact_insert b true)⟩
    simp only [result_insert]

/-- gomp_suspend_untied_task_for_successor. -/
theorem gompSuspendUntied_placed (hty : (s.task t).type = .untied)
    (hgroup : w.taskgroup → (s.task t).home = .listed → (s.task t).taskgroup = (s.task t).createdIn) :
    Placed w (s.gompSuspendUntiedTaskForSuccessor thr t lock) := by
  have hsh := h.shaped.task t
  unfold gompSuspendUntiedTaskForSuccessor
  dsimp only
  generalize hbl : ((s.task t).inTaskwait && s.isBlockedUntied t) = blocked
  have hb : blocked = true → (s.task t).taskwait ≠ none := by
    intro e
    rw [e] at hbl
    exact inTaskwait_taskwait (Bool.and_eq_true_iff.mp hbl).1
  obtain ⟨hat,hflags⟩ := enterLocked_at h hs thr blocked hb
  obtain ⟨h1,h2,h3,h4,h5⟩ := enterLocked_frame s t (!blocked) lock
  obtain ⟨hat',hflags'⟩ := enterQueues_at h hs thr (blocked || lock.isSome) hty h1 hat hflags hgroup
  obtain ⟨h6,h7,h8,h9,h10⟩ := enterQueues_frame (s.enterLocked t (!blocked) lock) thr t (blocked || lock.isSome)
  generalize hbb : (blocked || lock.isSome) = b at *
  have hend := fun d hd => setSuspended_placed (d := d) h hs thr b .waiting (by rw [h6,h1]) (by rw [h7,h2])
    (by rw [h8,h3]) (fun u e q => by rw [h10 u e,h5 u e])
    (hsh.suspendUntied hs.kind hty hs.home hs.busy hs.target hs.freed hs.ult b thr lock) (hat'.view_eq (by
      rw [Task.view_untiedWaiting (x := { s.task t with
        isBlocked := b, suspendingThread := some thr, kind := .waiting, lockedTasks := lock }) hs.freed hty rfl hs.home]
      simp [Task.untiedView])) hflags' hd fun hw _ hl => hgroup hw hl
  rw [h9,h4,h.drift] at hend
  cases b with
  | true =>
    have hres := hend 0 (by simp)
    rw [addQueued_zero] at hres
    exact hres
  | false =>
    have hres := hend 1 (by simp)
    exact hres.nudged (handleParent_nudged hres.waiters _)

end Suspend

/-! ## Resumption by the end of a successor, and release of a lock -/

/-- What a suspended TIED task does when the task it was suspended for has ended. -/
theorem resumeContext_placed (h : Placed w s) (ht : t < s.numTasks)
    (hlock : w.locked → (s.task t).kind = .tiedSuspended → ∀ l, (s.task t).lockedTasks = some l →
      s.status (.locked l) t = some .ready) : Placed w (s.resumeContext t) := by
  unfold resumeContext
  dsimp only
  split
  case isFalse => exact h
  case isTrue hk =>
    have hsh := h.shaped.task t
    obtain ⟨hty,-,hhome⟩ := hsh.tiedSuspended hk
    have hfreed := not_freed_of_waits hsh (Or.inr hk)
    have hat := h.placed t
    unfold PlacedAt at hat
    rw [Task.view_tiedSuspended hfreed hty hk hhome.symm,Task.waitZone] at hat
    have hlocked : (s.callOpt ((s.task t).lockedTasks.map .locked) (.remove false) t).At t (s.address t)
        { (s.task t).runView with thread := some (zoneOf (s.task t).isBlocked) } := by
      refine (hat.callLock rfl).view_eq ?_
      ext1 <;> simp only [Task.runView]
      split <;> decide
    have hfl : Flags w (s.callOpt ((s.task t).lockedTasks.map .locked) (.remove false) t) := by
      refine Flags.callLock h.flags hat rfl fun hw hne => ?_
      obtain ⟨l,hl⟩ := Option.ne_none_iff_exists'.mp hne
      have hst := hlock hw hk l hl
      rw [hat (.locked l)] at hst
      simp only [expect, address, hl, if_true] at hst
      simp only [hst]
      decide
    have hleft : ((s.callOpt ((s.task t).lockedTasks.map .locked) (.remove false) t).callSuspended .tied
        (s.task t).suspendingThread (.remove (s.task t).isBlocked) t).At t (s.address t) (s.task t).runView := by
      refine (hlocked.callThread hty rfl).view_eq ?_
      simp [result_remove, Task.runView]
    have hflags := Flags.callThread hfl hlocked (c := .remove (s.task t).isBlocked) hty rfl fun _ => exact_remove _
    have hrun := setRunning_placed (d := 0) h ht (Or.inr hk) hhome.symm (by simp) (by simp) (by simp)
      (fun u e q => by rw [callSuspended_status_ne e,callOpt_status_ne e]) hleft hflags ?_
    · rw [addQueued_zero] at hrun
      exact hrun
    · cases (s.task t).lockedTasks <;> simp [callOpt, h.drift]

/-- A task in the queue of a lock is suspended there. -/
theorem locked_facts (h : Placed w s) {lock : ℕ} (hs : s.status (.locked lock) t = some .ready) :
    (s.task t).lockedTasks = some lock ∧ (s.task t).isSuspended = true ∧ (s.task t).isBlocked = true ∧
    (s.task t).taskwait = none := by
  rw [h.placed t] at hs
  simp only [expect, Task.view] at hs
  split at hs
  case isTrue hl =>
    split at hs
    case isTrue hw => exact ⟨hl,hw⟩
    case isFalse => cases hs
  case isFalse => cases hs

theorem suspended_kind (x : Task) (hs : x.isSuspended = true) : x.freed = false ∧
    (x.home = .listed ∨ x.home = .stack) ∧ (x.type = .tied → x.kind = .tiedSuspended) ∧
    (x.type = .untied → x.kind = .waiting) := by
  simp only [Task.isSuspended, Bool.and_eq_true, Bool.not_eq_true', decide_eq_true_eq, List.mem_cons,
    List.not_mem_nil, or_false] at hs
  obtain ⟨⟨hf,hh⟩,hk⟩ := hs
  refine ⟨hf,hh,fun e => ?_,fun e => ?_⟩
  · rw [e] at hk
    exact hk
  · rw [e] at hk
    exact hk

/-- A task that has left the queue of its lock is no longer blocked. -/
theorem unblocked_placed (h : Placed w s) (ht : t < s.numTasks)
    (htask : ∀ u, s'.task u = if u = t then { s.task t with isBlocked := false } else s.task u)
    (hnum : s'.numTasks = s.numTasks) (hult : s'.ultVar = s.ultVar)
    (hothers : ∀ u, u ≠ t → ∀ q, s'.status q u = s.status q u)
    (hat : s'.At t (s.address t) { s.task t with isBlocked := false }.view) (hflags : Flags w s')
    (hdrift : s'.drift = 0) : Placed w s' := by
  have hself : s'.task t = { s.task t with isBlocked := false } := by simp [htask]
  have hfreed : ∀ p, (s'.task p).freed = (s.task p).freed := by
    intro p
    rw [htask]
    split
    · next e => rw [e]
    · rfl
  refine h.of_move ht (fun u e => by simp [htask, e]) hothers hnum hult (hfreed t) ?_ ?_ hflags hdrift ?_ ?_
  · rw [hself]
    exact (h.shaped.task t).unblock
  · exact PlacedAt.of_at hat hself hfreed rfl
  · rw [hself]
    exact fun hl => ⟨hl,rfl⟩
  · intro hw hl hk
    rw [hself] at hl hk ⊢
    exact h.regrouped hw t hl hk

/-- gomp_task_handle_locking. -/
theorem gompTaskHandleLocking_placed (h : Placed w s) {lock : ℕ} (hs : s.status (.locked lock) t = some .ready) :
    Placed w (s.gompTaskHandleLocking lock t) := by
  obtain ⟨hl,hsusp,hb,hw⟩ := locked_facts h hs
  obtain ⟨hfreed,hhome,hktied,hkuntied⟩ := suspended_kind _ hsusp
  have hsh := h.shaped.task t
  have ht : t < s.numTasks := h.shaped.lt_of_home (by rcases hhome with e | e <;> rw [e] <;> decide)
  have hat := h.placed t
  unfold PlacedAt at hat
  have haddr : (s.address t).lock = some lock := hl
  have hflags : Flags w (s.call (.locked lock) (.remove false) t) := by
    refine h.flags.call fun _ => ?_
    rw [hs]
    exact exact_remove false
  unfold gompTaskHandleLocking
  dsimp only
  cases hty : (s.task t).type with
  | tied =>
    have hk := hktied hty
    rw [Task.view_tiedSuspended hfreed hty hk hhome,Task.waitZone,hb] at hat
    have hpop : (s.call (.locked lock) (.remove false) t).At t (s.address t) _ := hat.callLock haddr
    simp only [hw, and_self, if_true] at hpop
    refine unblocked_placed h ht (fun u => by simp [setBlockedTied_task]) (by simp [setBlockedTied])
      (by simp [setBlockedTied]) (fun u e q => ?_) ((setBlockedTied_at (b := false) hpop hty rfl).view_eq ?_)
      (setBlockedTied_flags (b := false) hpop hty rfl hk hflags) (by simp [setBlockedTied, h.drift])
    · rw [setBlockedTied_status_ne e,call_status_ne e]
    · rw [Task.view_tiedSuspended (x := { s.task t with isBlocked := false }) hfreed hty hk hhome]
      simp [Task.waitZone, Task.runView]
      decide
  | untied =>
    have hk := hkuntied hty
    rw [Task.view_untiedWaiting hfreed hty hk hhome,hb] at hat
    have hpop : (s.call (.locked lock) (.remove false) t).At t (s.address t) _ := hat.callLock haddr
    have hpop' : (s.call (.locked lock) (.remove false) t).At t (s.address t) ((s.task t).untiedView true none) := by
      refine hpop.view_eq ?_
      simp [Task.untiedView, hw]
      decide
    obtain ⟨hmoved,hfl⟩ := setBlockedUntied_moves (s := s.call (.locked lock) (.remove false) t) (w := w)
      (b := false) hsh hty hk hhome hpop'
    have hend := unblocked_placed h ht (fun u => by simp [setBlockedUntied_task]) ?_ ?_ (fun u e q => ?_)
      (hmoved.view_eq ?_) (hfl hflags h.family h.regrouped) ?_
    · exact hend.nudged (handleParent_nudged hend.waiters _)
    · exact (setBlockedUntied_sameTree t false).numTasks
    · exact (setBlockedUntied_sameTree t false).ultVar
    · rw [setBlockedUntied_status_ne e,call_status_ne e]
    · rw [Task.view_untiedWaiting (x := { s.task t with isBlocked := false }) hfreed hty hk hhome]
      simp only [Bool.false_eq_true, false_and, if_false]
      rfl
    · rw [setBlockedUntied_drift (s := s.call (.locked lock) (.remove false) t) hk,callLocked_drift,h.drift]

end TeamState

end GompUlt.Team
