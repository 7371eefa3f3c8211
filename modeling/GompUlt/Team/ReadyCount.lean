import GompUlt.Team.Counters
import GompUlt.Team.Steady

/-! # The ready count and the blocked flags

In a team whose program uses no depend clauses, no target tasks and no cancellation, whose
TIED tasks wait for no lock and whose UNTIED tasks open no taskgroup, task_queued_count is the
number of ready tasks in the two team queues, and the flag of a suspended UNTIED task is the
ring that holds it in all its queues.
-/
namespace GompUlt.Team
open Queue TeamState Run

namespace TeamState
variable {w : Watch} {s s' : TeamState} {t u p c thr : ℕ} {lock : Option ℕ} {e : Event}

theorem gompSuspendTaskForSuccessor_plain (h : Plain s) (hl : (s.task t).type = .tied → lock = none) (thr : ℕ) :
    Plain (s.gompSuspendTaskForSuccessor thr t lock) := by
  have hlocked : ∀ b, Steady s (s.enterLocked t b lock) := fun b => .ite .callOpt (.refl s)
  unfold gompSuspendTaskForSuccessor
  cases hty : (s.task t).type with
  | tied =>
    dsimp only
    unfold gompSuspendTiedTaskForSuccessor
    split
    · exact h
    · have hin := (hlocked (!((s.task t).inTaskwait && s.isBlockedTied t))).trans (.call (q := .suspended .tied thr)
        (k := .insert ((s.task t).inTaskwait && s.isBlockedTied t || lock.isSome)) (t := t))
      refine (h.steady hin).setSuspended (fun _ => hl hty) thr _ _
  | untied =>
    dsimp only
    unfold gompSuspendUntiedTaskForSuccessor
    dsimp only
    generalize ((s.task t).inTaskwait && s.isBlockedUntied t) = blocked
    have hin : Steady s ((s.enterLocked t (!blocked) lock).enterQueues thr t (blocked || lock.isSome)) := by
      refine (hlocked (!blocked)).trans ?_
      unfold enterQueues
      dsimp only
      refine Steady.trans ?_ .call
      refine Steady.trans ?_ .call
      exact .ite .callFamily (.refl _)
    generalize (s.enterLocked t (!blocked) lock).enterQueues thr t (blocked || lock.isSome) = s₁ at *
    have hnot : (s₁.task t).type = .tied → lock = none := by
      intro ht
      rw [(static_fields (hin.task t)).1,hty] at ht
      cases ht
    have hset := (h.steady hin).setSuspended hnot thr (blocked || lock.isSome) .waiting
    split
    · exact hset
    · exact hset.steady ((Steady.addQueued 1).trans (handleParent_steady _))

/-- A change of the taskgroup of a TIED task, with or without a new taskgroup. -/
theorem Plain.setTaskgroup (h : Plain s) (ht : (s.task t).type = .tied) (g : Option ℕ) :
    Plain (s.modify t fun x => { x with taskgroup := g }) := by
  have htype : ∀ u, ((s.modify t fun x => { x with taskgroup := g }).task u).type = (s.task u).type := by
    intro u
    rw [modify_task]
    split
    · next e => rw [e]
    · rfl
  constructor
  · intro u
    rw [modify_task]
    split
    · exact h.noDepend t
    · exact h.noDepend u
  · intro u
    rw [modify_task]
    split
    · exact h.noTarget t
    · exact h.noTarget u
  · intro u hu
    rw [htype] at hu
    have e : u ≠ t := by
      rintro rfl
      rw [ht] at hu
      cases hu
    unfold outsideGroups
    rw [modify_task,if_neg e]
    exact h.outside u hu
  · intro u hu
    rw [htype] at hu
    rw [modify_task]
    split
    · exact h.unlocked t ht
    · exact h.unlocked u hu
  · intro n hn
    rw [htype]
    exact h.owner n hn

theorem gompTaskgroupStart_plain (h : Plain s) (hlt : t < s.numTasks) (ht : (s.task t).type = .tied) :
    Plain (s.gompTaskgroupStart t) := by
  have hopen : Plain { s with
      group := Function.update s.group s.numGroups { prev := (s.task t).taskgroup, numChildren := 0, owner := t }
      numGroups := s.numGroups + 1 } := by
    refine ⟨h.noDepend,h.noTarget,h.outside,h.unlocked,fun g hg => ?_⟩
    by_cases e : g = s.numGroups
    · simp [e, hlt, ht]
    · have hlt' : g < s.numGroups := by
        have : g < s.numGroups + 1 := hg
        omega
      simpa [e] using h.owner g hlt'
  exact hopen.setTaskgroup ht _

section Create
variable (h : Plain s) {ds : List ℕ} {x : Task} {type : TaskType} {g : Option ℕ}
  (hd : s.numTasks ∉ ds) (hx : x.static = (type,g,false,false,g,none))
include h hd hx

theorem createTask_plain : Plain (s.createTask x ds) := by
  have howner : ∀ (s₁ : TeamState) (og : Option ℕ), (∀ g, ((s₁.addChild og).group g).owner = (s₁.group g).owner) ∧
      (s₁.addChild og).numGroups = s₁.numGroups := by
    intro s₁ og
    cases og with
    | none => exact ⟨fun _ => rfl,rfl⟩
    | some n =>
      refine ⟨fun g => ?_,rfl⟩
      by_cases e : g = n <;> simp [addChild, e]
  refine h.create type g (fun u e => ?_) ?_ ?_ ?_ (createTask_frame s x ds).2.1
  · rw [createTask_task hd,if_neg e]
    split <;> rfl
  · rw [createTask_task hd,if_pos rfl]
    exact hx
  · exact (howner (s.addTask x) x.taskgroup).1
  · exact (howner (s.addTask x) x.taskgroup).2

end Create

theorem newTask_static (s : TeamState) (p : ℕ) (type : TaskType) (kind : TaskKind) :
    (s.newTask p type kind false).static = (type,(s.task p).taskgroup,false,false,(s.task p).taskgroup,none) := rfl

theorem insertRunning_steady (t : ℕ) (kind : TaskKind) : Steady s (s.insertRunning t kind) := by
  unfold insertRunning
  exact Steady.callFamily.trans (.modify t fun _ => rfl)

theorem insertReady_steady (type : TaskType) (p g : Option ℕ) (t : ℕ) : Steady s (s.insertReady type p g t) :=
  Steady.callFamily.trans .call

/-- One event of a plain program. -/
theorem step_plain (h : Plain s) (hi : InOrder w s) (hp : PlainEvent s e) (hs : s.step e = some s') : Plain s' := by
  unfold step at hs
  split at hs
  case isFalse => cases hs
  case isTrue he =>
    obtain rfl := Option.some.inj hs
    cases e with
    | create p type d ds =>
      obtain rfl : d = false := hp
      simp only [enabled, Bool.and_eq_true] at he
      have hnew := createTask_plain h (siblings_of he.1.2).not_mem (newTask_static s p type .waiting)
      simp only [exec, gompTask]
      split
      · exact hnew
      · refine hnew.steady (Steady.trans ?_ (.addQueued 1))
        refine Steady.trans ?_ (.addCount 1)
        exact (insertReady_steady _ _ _ _).trans (.modify _ fun _ => rfl)
    | createWorkFirst thr p type d =>
      obtain rfl : d = false := hp
      simp only [enabled, Bool.and_eq_true, decide_eq_true_eq] at he
      have hlt : p < s.numTasks := (isRunning_iff.mp (isActive_iff.mp he.1.2).1).1
      have hnew := createTask_plain h (siblings_nil s p).not_mem (newTask_static s p type .waiting)
      have hrun := hnew.steady ((insertRunning_steady s.numTasks .tied).trans (.addCount 1))
      have hty : ((((s.createTask (s.newTask p type .waiting false) []).insertRunning s.numTasks .tied).addCount
          1).task p).type = .untied := by
        have hne : p ≠ s.numTasks := by omega
        simp [insertRunning, hne, createTask_task, he.2]
      have hend : Plain (gompSuspendTaskForSuccessor _ thr p none) :=
        gompSuspendTaskForSuccessor_plain hrun (fun _ => rfl) thr
      unfold gompSuspendTaskForSuccessor at hend
      rw [hty] at hend
      exact hend
    | createUndeferred p type =>
      simp only [enabled, Bool.and_eq_true] at he
      have hlt : p < s.numTasks := (isRunning_iff.mp (isActive_iff.mp he.1.1).1).1
      have hne : p ≠ s.numTasks := by omega
      refine h.create type (s.task p).taskgroup (fun u e => ?_) ?_ (fun _ => rfl) rfl rfl
      · simp only [exec, gompTaskUndeferred, modify_task]
        split
        · next hu => simp [addTask, hu, hne, Task.static]
        · simp [addTask, e]
      · simp [exec, gompTaskUndeferred, addTask, hne.symm, newTask, Task.static]
    | createForImplicit p d ds =>
      obtain rfl : d = false := hp
      simp only [enabled, Bool.and_eq_true] at he
      have hnew := createTask_plain h (siblings_of he.1.2).not_mem
        (x := { s.newTask p .tied .undeferred false with undeferredAncestor := some s.numTasks })
        (newTask_static s p .tied .undeferred)
      simp only [exec, gompSuspendImplicitForUndeferred]
      split
      · exact hnew
      · exact hnew.steady (insertRunning_steady _ _)
    | createTarget p d ds atOnce => exact hp.elim
    | start site cur next src => exact h.steady (gompTaskRunPre_steady _ _)
    | switch site thr cur next src lock =>
      rw [switch_eq]
      have h₁ := (gompTaskRunPre_steady (s := s) next (s.parentArg site cur next)).trans (markWait_steady site cur)
      refine gompSuspendTaskForSuccessor_plain (h.steady h₁) (fun hty => ?_) thr
      rw [(static_fields (h₁.task cur)).1] at hty
      by_contra hne
      have := hp hne
      rw [hty] at this
      cases this
    | cancelled site cur next src => exact hp.elim
    | finish site x c =>
      simp only [exec]
      split
      · exact h.steady ((resumeContext_steady x).trans (gompTerminateTaskPre_steady site x c))
      · exact h.steady (gompTerminateTaskPre_steady site x c)
    | finishUndeferred t => exact h.steady (gompEndTask_steady t)
    | targetAsync t =>
      simp only [enabled, Bool.and_eq_true] at he
      have := he.1.2
      rw [h.noTarget t] at this
      cases this
    | targetCompletion t =>
      simp only [enabled, Bool.and_eq_true, decide_eq_true_eq] at he
      have := (hi.placed.shaped.task t).async he.2
      rw [h.noTarget t] at this
      cases this
    | taskwaitBlock t => exact h.steady (markTaskwait_steady t)
    | taskwaitReturn t =>
      have hret : Steady s (s.returnFromWait t) := .modify t fun _ => rfl
      exact h.steady (.ite hret (.refl s))
    | dependWaitBegin t ms => exact h.steady (beginDependWait_steady t ms)
    | dependWaitBlock t => exact h.steady (.modifyWait t _)
    | dependWaitReturn t =>
      have hret : Steady s (s.returnFromWait t) := .modify t fun _ => rfl
      exact h.steady hret
    | taskgroupStart t => exact gompTaskgroupStart_plain h (isRunning_iff.mp (isActive_iff.mp he).1).1 hp
    | taskgroupEnd t g =>
      simp only [enabled, Bool.and_eq_true, decide_eq_true_eq] at he
      have hty := (h.owner g he.2).2
      rw [he.1.1.2] at hty
      exact h.setTaskgroup hty _
    | unlock lock t => exact h.steady (gompTaskHandleLocking_steady lock t)
    | setUntiedBlock t value =>
      have hset : Steady s (s.modify t fun x => { x with untiedBlockVar := value }) := .modify t fun _ => rfl
      exact h.steady hset

/-- All queues, with their counters. -/
def allQueues : Watch := ⟨true,true,true,true⟩

/-- A plain program meets every condition on the events. -/
theorem good_of_plain (h : Plain s) (hi : InOrder w s) (hp : PlainEvent s e) (he : s.enabled e = true) :
    Good w s e := by
  have hnone : ∀ c, (s.task c).dependers = [] := by
    intro c
    by_contra hne
    have := hi.linked.hasDepend c hne
    rw [h.noDepend c] at this
    cases this
  have hmet : ∀ u, (s.task u).home ≠ .unmet := by
    intro u hu
    obtain ⟨c,hc⟩ := List.exists_mem_of_ne_nil _ ((hi.linked.unmet u).mp hu)
    rw [← hi.linked.mem,hnone] at hc
    cases hc
  have hchildren : ∀ c, s.childrenMet c := fun c u _ hu => absurd hu (hmet u)
  have hcomplete : ∀ c, MayComplete w s c := by
    refine fun c => ⟨fun u hu => ?_,fun _ u hu => ?_,fun _ => hchildren c⟩
    all_goals
      rw [hnone] at hu
      cases hu
  cases e with
  | createWorkFirst thr p type d =>
    simp only [enabled, Bool.and_eq_true, decide_eq_true_eq] at he
    exact fun _ _ => h.outside p he.2
  | switch site thr cur next src lock => exact fun _ hty _ => h.outside cur hty
  | cancelled site cur next src => exact hp.elim
  | finish site x c =>
    refine ⟨hcomplete c,fun _ _ hk l hl => ?_⟩
    rw [h.unlocked x ((hi.placed.shaped.task x).tiedSuspended hk).1] at hl
    cases hl
  | finishUndeferred t => exact fun _ => hchildren t
  | targetCompletion t =>
    simp only [enabled, Bool.and_eq_true, decide_eq_true_eq] at he
    have := (hi.placed.shaped.task t).async he.2
    rw [h.noTarget t] at this
    cases this
  | _ => trivial

/-- Every run of a plain program keeps the tasks in their queues. -/
theorem plainRun_inOrder {ult : Bool} {n : ℕ} {es : List Event}
    (hp : Along step PlainEvent (TeamState.init ult n) es) (hr : run step (TeamState.init ult n) es = some s) :
    InOrder allQueues s ∧ Plain s := by
  have hstep : ∀ (s : TeamState) e s', InOrder allQueues s ∧ Plain s → PlainEvent s e → s.step e = some s' →
      InOrder allQueues s' ∧ Plain s' := by
    intro s e s' ⟨hi,h⟩ hev hs
    have he : s.enabled e = true := by
      unfold step at hs
      split at hs
      · assumption
      · cases hs
    exact ⟨step_inOrder hi (good_of_plain h hi hev he) hs,step_plain h hi hev hs⟩
  exact run_invariant hstep ⟨init_inOrder allQueues ult n,.init ult n⟩ hp hr

/-- The members of a team queue that are not blocked. -/
def unblockedIn (s : TeamState) (type : TaskType) : Finset ℕ :=
  (s.queue (.team type)).members.filter fun t => (s.task t).isBlocked = false

/-- An UNTIED task that a switch has suspended. -/
structure SuspendedUntied (s : TeamState) (t thr : ℕ) : Prop where
  type : (s.task t).type = .untied
  kind : (s.task t).kind = .waiting
  freed : (s.task t).freed = false
  thread : (s.task t).suspendingThread = some thr

/-- The queues a suspended UNTIED task is in, each in the ring of its flag. -/
structure FlagAgrees (s : TeamState) (t thr : ℕ) : Prop where
  team : s.status (.team .untied) t = some (zoneOf (s.task t).isBlocked)
  suspended : s.status (.suspended .untied thr) t = some (zoneOf (s.task t).isBlocked)
  children : ∀ p, (s.task t).undeferredAncestor = none → (s.task t).parent = some p →
    s.status (.children .untied p) t = some (zoneOf (s.task t).isBlocked)
  taskgroup : ∀ g, (s.task t).undeferredAncestor = none → (s.task t).taskgroup = some g →
    s.status (.taskgroup .untied g) t = some (zoneOf (s.task t).isBlocked)
  member : ∀ q, q.isLocked = false → s.status q t ≠ none → s.status q t = some (zoneOf (s.task t).isBlocked)

theorem flagAgrees (h : Placed w s) (hw : w.children = true) (hp : Plain s) (ht : SuspendedUntied s t thr) :
    FlagAgrees s t thr := by
  have hsh := h.shaped.task t
  have hout : (s.task t).taskgroup = (s.task t).createdIn := hp.outside t ht.type
  have hhome : (s.task t).home = .listed ∨ (s.task t).home = .stack := by
    cases e : (s.task t).home with
    | implicit =>
      have := hsh.implicitTied e
      rw [ht.type] at this
      cases this
    | stack => exact Or.inr rfl
    | unmet =>
      have := (hsh.unmet (Or.inl e)).1
      rw [ht.thread] at this
      cases this
    | listed => exact Or.inl rfl
    | late =>
      have := (hsh.unmet (Or.inr e)).1
      rw [ht.thread] at this
      cases this
  have hlisted := listed_iff_of_waiting hsh ht.kind hhome
  have hat := h.placed t
  unfold PlacedAt at hat
  rw [Task.view_untiedWaiting ht.freed ht.type ht.kind hhome] at hat
  have hty : (s.address t).type = .untied := ht.type
  have hthr : (s.address t).thread = some thr := ht.thread
  constructor
  · rw [hat]
    simp [expect, hty, Task.untiedView]
  · rw [hat]
    simp [expect, hty, hthr, Task.untiedView]
  · intro p ha hpar
    have hl := hlisted.mpr ha
    have haddr : (s.address t).parent = some p := by
      rw [← parent_eq_of_family (h.family hw) (by simp [Task.isListed, ht.freed, hl]),hpar]
    rw [hat]
    simp [expect, hty, haddr, Task.untiedView, hl]
  · intro g ha hg
    have hgr : (s.address t).group = some g := by
      rw [address_group,← hout,hg]
    rw [hat]
    simp [expect, hty, hgr, Task.untiedView, hlisted.mpr ha, hout]
  · intro q hq hst
    rw [hat] at hst ⊢
    cases q with
    | locked l => cases hq
    | _ =>
      simp only [expect, Task.untiedView, hout, if_true] at hst ⊢
      split_ifs at hst ⊢ <;> first | rfl | exact absurd rfl hst

/-- An UNTIED task in a taskwait is suspended for its child, which waits for a lock and is given it. -/
def lockedChild : List Event :=
  [.create 0 .untied false [],.start .barrier 0 2 (.team .untied),.create 2 .untied false [],
   .create 2 .tied false [],.switch .taskwait 0 2 3 (.children .untied 2) none,
   .switch .context 0 3 4 (.team .tied) (some 0),.unlock 0 3]

end TeamState

end GompUlt.Team
