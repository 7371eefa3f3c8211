import GompUlt.Team.PlacementSteps

/-! # A released task goes to its queues

A task that is being created, released or completed is between two places while waiting tasks
are woken up, so the steps are taken with that one task set aside.  A task whose dependences
are met is the first of them.
-/
namespace GompUlt.Team
open Queue TeamState

/-- Every task but one that is in no wait is where its fields put it. -/
structure PlacedBut (w : Watch) (t : ℕ) (d : ℤ) (s : TeamState) : Prop where
  shaped : Shaped s
  placed : ∀ u, u ≠ t → s.PlacedAt u
  idle : (s.task t).taskwait = none
  flags : Flags w s
  drift : s.drift = d
  family : w.children → Family s
  regrouped : w.taskgroup → Regrouped s

theorem Placed.but {w : Watch} {s : TeamState} {t : ℕ} (h : Placed w s) (hw : (s.task t).taskwait = none) :
    PlacedBut w t 0 s := ⟨h.shaped,fun u _ => h.placed u,hw,h.flags,h.drift,h.family,h.regrouped⟩

namespace PlacedBut
variable {w : Watch} {s s' : TeamState} {t u : ℕ} {d : ℤ} {c : Call} {q : QRef} {f : Task → Task}

theorem done (h : PlacedBut w t 0 s) (ht : s.PlacedAt t) : Placed w s where
  shaped := h.shaped
  placed u := by
    by_cases e : u = t
    · rw [e]
      exact ht
    · exact h.placed u e
  flags := h.flags
  drift := h.drift
  family := h.family
  regrouped := h.regrouped

theorem waiters (h : PlacedBut w t d s) : WaitersPlaced w s where
  shaped := h.shaped
  placed u hu := by
    refine h.placed u ?_
    rintro rfl
    exact hu h.idle
  family := h.family
  regrouped := h.regrouped

theorem nudged (h : PlacedBut w t d s) (hr : Nudged w s s') : PlacedBut w t d s' where
  shaped := hr.shaped h.shaped
  placed u hu := hr.placed u (h.placed u hu)
  idle := (hr.task t).2.1.mpr h.idle
  flags := hr.flags h.flags
  drift := hr.drift.trans h.drift
  family hw := family_nudged (h.family hw) hr
  regrouped hw := regrouped_nudged (h.regrouped hw) hr

/-- A wake-up does not touch the task set aside. -/
theorem nudged_at (h : PlacedBut w t d s) (hr : Nudged w s s') : s'.task t = s.task t ∧ s'.address t = s.address t ∧
    ∀ a v, s.At t a v → s'.At t a v := by
  have htask : s'.task t = s.task t := (hr.task t).2.2 h.idle
  refine ⟨htask,?_,fun a v hat => hat.of_status (hr.still t h.idle)⟩
  simp only [address, liveParent, htask, hr.freed]

/-- A call for the task set aside. -/
theorem call (h : PlacedBut w t d s) (hf : Flags w (s.call q c t)) (hq : ∀ type, q ≠ .team type) :
    PlacedBut w t d (s.call q c t) where
  shaped := h.shaped.of_task_eq rfl rfl rfl
  placed u hu := (h.placed u hu).congr rfl (fun _ => rfl) fun q => call_status_ne hu
  idle := h.idle
  flags := hf
  drift := by rw [call_drift hq,h.drift]
  family := h.family
  regrouped := h.regrouped

theorem callOpt {oq : Option QRef} (h : PlacedBut w t d s) (hf : Flags w (s.callOpt oq c t))
    (hq : ∀ q type, oq = some q → q ≠ .team type) : PlacedBut w t d (s.callOpt oq c t) := by
  cases oq with
  | none => exact h
  | some q => exact h.call hf fun type => hq q type rfl

theorem callFamily {type : TaskType} {p g : Option ℕ} (h : PlacedBut w t d s)
    (hf : Flags w (s.callFamily type p g c t)) : PlacedBut w t d (s.callFamily type p g c t) where
  shaped := h.shaped.of_task_eq (by simp) (by simp) (by simp)
  placed u hu := (h.placed u hu).congr (by simp) (fun _ => by simp) fun q => callFamily_status_ne hu
  idle := by simpa using h.idle
  flags := hf
  drift := by rw [callFamily_drift,h.drift]
  family hw := by
    intro t p hl hp
    simp only [callFamily_task] at hl hp ⊢
    exact h.family hw t p hl hp
  regrouped hw := by
    intro t hl hk
    simp only [callFamily_task] at hl hk ⊢
    exact h.regrouped hw t hl hk

/-- A call on a team queue, which the ready count follows. -/
theorem callTeam {type : TaskType} (h : PlacedBut w t d s) (hf : Flags w (s.call (.team type) c t)) :
    PlacedBut w t (d - c.waiting true) (s.call (.team type) c t) where
  shaped := h.shaped.of_task_eq rfl rfl rfl
  placed u hu := (h.placed u hu).congr rfl (fun _ => rfl) fun q => call_status_ne hu
  idle := h.idle
  flags := hf
  drift := by rw [callTeam_drift,h.drift]
  family := h.family
  regrouped := h.regrouped

theorem addQueued (h : PlacedBut w t d s) (e : ℤ) : PlacedBut w t (d + e) (s.addQueued e) where
  shaped := h.shaped.of_task_eq rfl rfl rfl
  placed u hu := (h.placed u hu).congr rfl (fun _ => rfl) fun _ => rfl
  idle := h.idle
  flags := h.flags.of_queue_eq rfl
  drift := by rw [addQueued_drift,h.drift]
  family := h.family
  regrouped := h.regrouped

theorem addCount (h : PlacedBut w t d s) (e : ℤ) : PlacedBut w t d (s.addCount e) where
  shaped := h.shaped.of_task_eq rfl rfl rfl
  placed u hu := (h.placed u hu).congr rfl (fun _ => rfl) fun _ => rfl
  idle := h.idle
  flags := h.flags.of_queue_eq rfl
  drift := h.drift
  family := h.family
  regrouped := h.regrouped

/-- A change of the fields of the task set aside. -/
theorem modify (h : PlacedBut w t d s) (ht : t < s.numTasks) (hshape : TaskShape s.ultVar t (f (s.task t)))
    (hfreed : (f (s.task t)).freed = (s.task t).freed) (hidle : (f (s.task t)).taskwait = none)
    (hfamily : w.children → (f (s.task t)).isHeap → ∀ p, (f (s.task t)).parent = some p → (s.task p).freed = false)
    (hgroup : w.taskgroup → (f (s.task t)).isListed → (f (s.task t)).kind = .waiting →
      (f (s.task t)).taskgroup = (f (s.task t)).createdIn) : PlacedBut w t d (s.modify t f) := by
  have hfr : ∀ p, ((s.modify t f).task p).freed = (s.task p).freed := by
    intro p
    rw [modify_task]
    split
    · next e => rw [e,hfreed]
    · rfl
  constructor
  case shaped => exact h.shaped.modify ht hshape
  case placed => exact fun u hu => (h.placed u hu).congr (by simp [hu]) hfr fun _ => rfl
  case idle => simpa using hidle
  case flags => exact h.flags
  case drift => rw [modify_drift,h.drift]
  case family =>
    intro hw u p hl hp
    rw [hfr]
    rw [modify_task] at hl hp
    split at hl
    · next e =>
      rw [if_pos e] at hp
      exact hfamily hw hl p hp
    · next e =>
      rw [if_neg e] at hp
      exact h.family hw u p hl hp
  case regrouped =>
    intro hw u hl hk
    rw [modify_task] at hl hk ⊢
    split at hl
    · next e =>
      rw [if_pos e] at hk ⊢
      exact hgroup hw hl hk
    · next e =>
      rw [if_neg e] at hk ⊢
      exact h.regrouped hw u hl hk

end PlacedBut

/-! ## The release of a depender -/

namespace TeamState
variable {w : Watch} {s s' : TeamState} {t u c : ℕ}

/-- The parent of a depender that becomes ready is that of the task it waited for, or has been freed. -/
def ReleaseParent (s : TeamState) (c u : ℕ) : Prop :=
  ((s.task u).parent = (s.task c).parent ∧ ∀ p, (s.task c).parent = some p → (s.task p).freed = false) ∨
  ((s.task c).parent = none ∧ ∃ p, (s.task u).parent = some p ∧ (s.task p).freed = true)

theorem ReleaseParent.address (h : ReleaseParent s c u) : (s.address u).parent = (s.task c).parent := by
  simp only [TeamState.address, liveParent]
  rcases h with ⟨he,hf⟩ | ⟨hn,p,hp,hf⟩
  · rw [he]
    cases hp : (s.task c).parent with
    | none => rfl
    | some p => simp [Option.filter, hf p hp]
  · rw [hn,hp]
    simp [Option.filter, hf]

/-- The first part of the calls for a depender. -/
def releaseToParent (s : TeamState) (c u : ℕ) : TeamState :=
  match (s.task c).parent with
  | none => s
  | some parent => (s.call (.children (s.task c).type parent) (.insert false) u).notifyParent parent

theorem callsForDepender_eq (s : TeamState) (c u : ℕ) : s.callsForDepender c u =
    ((s.releaseToParent c u).callOpt (((s.releaseToParent c u).task u).taskgroup.map (.taskgroup (s.task c).type))
      (.insert false) u).call (.team (s.task c).type) (.insert false) u := by
  unfold callsForDepender releaseToParent
  cases (s.task c).parent <;> rfl

section Release
variable (h : Placed w s) (hh : (s.task u).home = .unmet) (hty : (s.task u).type = (s.task c).type)
  (hp : ReleaseParent s c u)
include h hh

theorem unmet_at : PlacedBut w u 0 s ∧ s.At u (s.address u) {} := by
  have hsh := h.shaped.task u
  refine ⟨h.but (hsh.unmet (Or.inl hh)).2.2.1,?_⟩
  have hat := h.placed u
  unfold PlacedAt at hat
  rw [Task.view_unmet (Or.inl hh)] at hat
  exact hat

include hty hp

/-- A task that waited for its dependences comes to the children of its parent, who may be waiting for it. -/
theorem releaseToParent_placed : PlacedBut w u 0 (s.releaseToParent c u) ∧
    (s.releaseToParent c u).task u = s.task u ∧ (s.releaseToParent c u).address u = s.address u ∧
    (s.releaseToParent c u).At u (s.address u) { family := some .ready } := by
  obtain ⟨hbut,hat⟩ := unmet_at h hh
  have haddr := hp.address
  have hin := hat.callParent (c := .insert false) hty haddr
  have hfl := Flags.callParent h.flags hat (c := .insert false) hty haddr fun _ _ => exact_insert false false
  unfold releaseToParent
  cases hpar : (s.task c).parent with
  | none =>
    rw [hpar] at hin
    exact ⟨hbut,rfl,rfl,hin⟩
  | some p =>
    rw [hpar] at hin hfl
    have hb := hbut.call (q := .children (s.task c).type p) hfl fun _ => QRef.noConfusion
    have hn := notifyParent_nudged hb.waiters p
    obtain ⟨h1,h2,h3⟩ := hb.nudged_at hn
    exact ⟨hb.nudged hn,h1,h2,h3 _ _ hin⟩

/-- Then it is inserted in the queues of its taskgroup and the team. -/
theorem callsForDepender_placed : PlacedBut w u (-1) (s.callsForDepender c u) ∧
    (s.callsForDepender c u).task u = s.task u ∧ (s.callsForDepender c u).address u = s.address u ∧
    (s.callsForDepender c u).At u (s.address u) { family := some .ready, group := some .ready, team := some .ready } := by
  have hsh := h.shaped.task u
  obtain ⟨hb,htask,haddr,hat⟩ := releaseToParent_placed h hh hty hp
  rw [callsForDepender_eq,htask]
  have hgroup : (s.address u).group = (s.task u).taskgroup :=
    (hsh.unopened (hsh.unmet (Or.inl hh)).1 (Or.inr (Or.inl hh))).symm
  have hin := hat.callGroup (c := .insert false) hty hgroup
  have hfl := Flags.callGroup hb.flags hat (c := .insert false) hty hgroup fun _ _ => exact_insert false false
  have hb₂ := hb.callOpt hfl (by
    intro q type hq
    obtain ⟨n,-,rfl⟩ := Option.map_eq_some_iff.mp hq
    exact QRef.noConfusion)
  have hfl₃ := Flags.callTeam hfl hin hty (c := .insert false) (exact_insert false true)
  refine ⟨hb₂.callTeam hfl₃,?_,?_,(hin.callTeam hty).view_eq (by simp [result_insert, zoneOf])⟩
  · simp [htask]
  · simp only [address, liveParent, call_task, callOpt_task] at haddr ⊢
    exact haddr

end Release

theorem not_freed_of_unmet {x : Task} {ult : Bool} {n : ℕ} (hsh : TaskShape ult n x) (hh : x.home = .unmet) :
    x.freed = false := by
  cases e : x.freed with
  | false => rfl
  | true => rcases (hsh.gone e).2 with h | h <;> rw [h] at hh <;> cases hh

/-- A released task waits in its queues; no thread has suspended it. -/
theorem view_released {x : Task} {ult : Bool} {n : ℕ} (hsh : TaskShape ult n x) (hh : x.home = .unmet) :
    ∃ thread, ({ x with home := if x.kind = .undeferred then .late else .listed } : Task).view =
      { family := some .ready, group := some .ready, team := some .ready, thread } := by
  obtain ⟨hsusp,hb,hw,hk⟩ := hsh.unmet (Or.inl hh)
  have hg := hsh.unopened hsusp (Or.inr (Or.inl hh))
  have hf := not_freed_of_unmet hsh hh
  refine ⟨_,View.ext ?_ ?_ ?_ rfl ?_⟩ <;> rcases hk with ⟨hk,-⟩ | ⟨hk,-⟩ <;>
    simp [Task.view, Task.isListed, Task.zone, Task.waitZone, zoneOf, Task.isQueued, hf, hb, hg, hk]

/-- A task that has come to its three queues is where it belongs, once its fields and the counts say so. -/
theorem enqueued_placed (hb : PlacedBut w u (-1) s) (hh : (s.task u).home = .unmet)
    (hat : s.At u (s.address u) { family := some .ready, group := some .ready, team := some .ready }) :
    Placed w (((s.modify u fun x => { x with home := if x.kind = .undeferred then .late else .listed }).addCount
      1).addQueued 1) := by
  have hsh := hb.shaped.task u
  have ht : u < s.numTasks := hb.shaped.lt_of_home (by rw [hh]; decide)
  obtain ⟨hsusp,-,hw,-⟩ := hsh.unmet (Or.inl hh)
  obtain ⟨thread,hview⟩ := view_released hsh hh
  have hfreed := not_freed_of_unmet hsh hh
  have hmod : PlacedBut w u (-1) (s.modify u fun x => { x with home := if x.kind = .undeferred then .late else .listed }) := by
    refine hb.modify ht (hsh.enqueue hh) rfl hw (fun hwc hheap p hpar => ?_) fun _ _ _ => ?_
    · exact hb.family hwc u p (by simp [Task.isHeap, hfreed, hh]) hpar
    · exact hsh.unopened hsusp (Or.inr (Or.inl hh))
  refine ((hmod.addCount 1).addQueued 1).done ?_
  have haddr : (((s.modify u fun x => { x with home := if x.kind = .undeferred then .late else .listed }).addCount
      1).addQueued 1).address u = s.address u := by
    simp only [address, liveParent, addQueued_task, addCount_task, modify_task, if_true]
    congr 2
    funext p
    split
    · next e => rw [e]
    · rfl
  unfold PlacedAt
  rw [haddr]
  simp only [addQueued_task, addCount_task, modify_task, if_true, hview]
  refine TeamState.At.addQueued (TeamState.At.of_status (s := s) ?_ fun _ => rfl) 1
  exact hat.setThread hsusp thread

/-- A depender that has become ready is where it belongs. -/
theorem enqueueDepender_placed (h : Placed w s) (hh : (s.task u).home = .unmet)
    (hty : (s.task u).type = (s.task c).type) (hp : ReleaseParent s c u) : Placed w (s.enqueueDepender c u) := by
  obtain ⟨hb,htask,haddr,hat⟩ := callsForDepender_placed h hh hty hp
  refine enqueued_placed hb ?_ ?_
  · rw [htask,hh]
  · rw [haddr]
    exact hat

/-- The other tasks while a depender becomes ready: only waiting tasks are woken up. -/
theorem enqueueDepender_frame (h : Placed w s) (hh : (s.task u).home = .unmet)
    (hty : (s.task u).type = (s.task c).type) (hp : ReleaseParent s c u) :
    (∀ v, v ≠ u → Nudges (s.task v) ((s.enqueueDepender c u).task v)) ∧
    (s.enqueueDepender c u).task u =
      { s.task u with home := if (s.task u).kind = .undeferred then .late else .listed } ∧
    (s.enqueueDepender c u).numTasks = s.numTasks ∧ (s.enqueueDepender c u).ultVar = s.ultVar ∧
    (s.enqueueDepender c u).group = s.group ∧ (s.enqueueDepender c u).numGroups = s.numGroups := by
  obtain ⟨-,htask,-,-⟩ := callsForDepender_placed h hh hty hp
  obtain ⟨hbut,hat⟩ := unmet_at h hh
  have hrel : (∀ v, Nudges (s.task v) ((s.releaseToParent c u).task v)) ∧
      (s.releaseToParent c u).numTasks = s.numTasks ∧ (s.releaseToParent c u).ultVar = s.ultVar ∧
      (s.releaseToParent c u).group = s.group ∧ (s.releaseToParent c u).numGroups = s.numGroups := by
    unfold releaseToParent
    cases hpar : (s.task c).parent with
    | none => exact ⟨fun v => .refl _,rfl,rfl,rfl,rfl⟩
    | some p =>
      have hfl := Flags.callParent h.flags hat (c := .insert false) hty hp.address fun _ _ => exact_insert false false
      rw [hpar] at hfl
      have hb := hbut.call (q := .children (s.task c).type p) hfl fun _ => QRef.noConfusion
      have hn := notifyParent_nudged hb.waiters p
      exact ⟨hn.task,hn.numTasks,hn.ultVar,hn.group,hn.numGroups⟩
  obtain ⟨h1,h2,h3,h4,h5⟩ := hrel
  have hcalls : (s.callsForDepender c u).task = (s.releaseToParent c u).task ∧
      (s.callsForDepender c u).numTasks = (s.releaseToParent c u).numTasks ∧
      (s.callsForDepender c u).ultVar = (s.releaseToParent c u).ultVar ∧
      (s.callsForDepender c u).group = (s.releaseToParent c u).group ∧
      (s.callsForDepender c u).numGroups = (s.releaseToParent c u).numGroups := by
    rw [callsForDepender_eq]
    simp
  obtain ⟨g1,g2,g3,g4,g5⟩ := hcalls
  unfold enqueueDepender
  refine ⟨fun v e => ?_,?_,?_,?_,?_,?_⟩
  · simp only [addQueued_task, addCount_task, modify_task, if_neg e, g1]
    exact h1 v
  · simp only [addQueued_task, addCount_task, modify_task, if_true, htask]
  · exact g2.trans h2
  · exact g3.trans h3
  · exact g4.trans h4
  · exact g5.trans h5

/-- The record of a depender after the task it waited for has ended. -/
def released (c : ℕ) (x : Task) : Task :=
  let x := { x with numDependees := x.numDependees - 1, dependees := x.dependees.erase c }
  if x.numDependees ≠ 0 then x else { x with home := if x.kind = .undeferred then .late else .listed }

/-- What can be said of a depender before it is released. -/
structure Releasable (s : TeamState) (c u : ℕ) : Prop where
  unmet : (s.task u).home = .unmet
  ready : (s.task u).numDependees - 1 = 0 → (s.task u).type = (s.task c).type ∧ ReleaseParent s c u

/-- The two records differ at most in the links to other tasks and in flags of no account here. -/
def Inert (x x' : Task) : Prop :=
  { x' with
    parentDependsOn := x.parentDependsOn, hasDepend := x.hasDepend, numDependees := x.numDependees,
    dependers := x.dependers, untiedBlockVar := x.untiedBlockVar, dependees := x.dependees } = x

theorem placed_inert (h : Placed w s) (htask : ∀ u, Inert (s.task u) (s'.task u)) (hq : s'.queue = s.queue)
    (hcount : s'.taskQueuedCount = s.taskQueuedCount) (hnum : s'.numTasks = s.numTasks) (hult : s'.ultVar = s.ultVar)
    (hfresh : ∀ u, s.numTasks ≤ u → s'.task u = {}) : Placed w s' := by
  have hpar : ∀ u, (s'.task u).parent = (s.task u).parent := fun u => by rw [← htask u]
  have hty : ∀ u, (s'.task u).type = (s.task u).type := fun u => by rw [← htask u]
  have hfr : ∀ u, (s'.task u).freed = (s.task u).freed := fun u => by rw [← htask u]
  have hcr : ∀ u, (s'.task u).createdIn = (s.task u).createdIn := fun u => by rw [← htask u]
  have hgr : ∀ u, (s'.task u).taskgroup = (s.task u).taskgroup := fun u => by rw [← htask u]
  have hk : ∀ u, (s'.task u).kind = (s.task u).kind := fun u => by rw [← htask u]
  have hsu : ∀ u, (s'.task u).suspendingThread = (s.task u).suspendingThread := fun u => by rw [← htask u]
  have hlo : ∀ u, (s'.task u).lockedTasks = (s.task u).lockedTasks := fun u => by rw [← htask u]
  have hview : ∀ u, (s'.task u).view = (s.task u).view := fun u => by
    rw [← htask u]
    rfl
  have hl : ∀ u, (s'.task u).isListed = (s.task u).isListed := fun u => by
    rw [← htask u]
    rfl
  have hh : ∀ u, (s'.task u).isHeap = (s.task u).isHeap := fun u => by
    rw [← htask u]
    rfl
  constructor
  case shaped =>
    constructor
    · intro u
      rw [hult]
      refine (h.shaped.task u).congr ?_
      conv_rhs => rw [← htask u]
      simp only [hpar, hlo]
    · rw [hnum]
      exact hfresh
  case placed =>
    intro u q
    simp only [address, liveParent, hty, hpar, hfr, hcr, hsu, hlo, hview, status, hq]
    exact h.placed u q
  case flags => exact h.flags.of_queue_eq hq
  case drift =>
    unfold drift
    rw [hq,hcount]
    exact h.drift
  case family =>
    intro hw u p hheap hp
    rw [hh] at hheap
    rw [hpar] at hp
    rw [hfr]
    exact h.family hw u p hheap hp
  case regrouped =>
    intro hw u hlist hkind
    rw [hl] at hlist
    rw [hk] at hkind
    rw [hgr,hcr]
    exact h.regrouped hw u hlist hkind

theorem modifyInert_placed {f : Task → Task} (h : Placed w s) (ht : t < s.numTasks)
    (hf : Inert (s.task t) (f (s.task t))) : Placed w (s.modify t f) := by
  refine placed_inert h (fun u => ?_) rfl rfl rfl rfl fun u hu => ?_
  · by_cases e : u = t
    · rw [e,modify_task,if_pos rfl]
      exact hf
    · rw [modify_task,if_neg e]
      exact rfl
  · rw [modify_task,if_neg (by omega)]
    exact h.shaped.fresh u hu

/-- Some dependers of a task have been released, and the state is in order. -/
structure Releases (w : Watch) (c : ℕ) (ds : List ℕ) (s s' : TeamState) : Prop where
  placed : Placed w s'
  released : ∀ u ∈ ds, s'.task u = TeamState.released c (s.task u)
  others : ∀ u, u ∉ ds → Nudges (s.task u) (s'.task u)
  numTasks : s'.numTasks = s.numTasks
  ultVar : s'.ultVar = s.ultVar
  group : s'.group = s.group
  numGroups : s'.numGroups = s.numGroups

/-- The record of a depender that waits for one task less. -/
def unlinked (c : ℕ) (x : Task) : Task :=
  { x with numDependees := x.numDependees - 1, dependees := x.dependees.erase c }

theorem releaseDepender_eq (c : ℕ) (s : TeamState) (u : ℕ) : releaseDepender c s u =
    if ((s.modify u (unlinked c)).task u).numDependees ≠ 0 then s.modify u (unlinked c)
    else (s.modify u (unlinked c)).enqueueDepender c u := rfl

theorem releaseDepender_releases (h : Placed w s) (hr : Releasable s c u) (hcu : c ≠ u) :
    Releases w c [u] s (releaseDepender c s u) := by
  have ht : u < s.numTasks := h.shaped.lt_of_home (by rw [hr.unmet]; decide)
  have hmod : Placed w (s.modify u (unlinked c)) := modifyInert_placed h ht rfl
  have hself : (s.modify u (unlinked c)).task u = unlinked c (s.task u) := by
    rw [modify_task,if_pos rfl]
  have hother : ∀ v, v ≠ u → (s.modify u (unlinked c)).task v = s.task v := by
    intro v e
    rw [modify_task,if_neg e]
  rw [releaseDepender_eq,hself]
  split
  case isTrue hn =>
    refine ⟨hmod,fun v hv => ?_,fun v hv => ?_,rfl,rfl,rfl,rfl⟩
    · obtain rfl := List.mem_singleton.mp hv
      rw [hself]
      exact (if_pos hn).symm
    · rw [hother v (by simpa using hv)]
      exact .refl _
  case isFalse hn =>
    obtain ⟨hty,hp⟩ := hr.ready (not_not.mp hn)
    have hfreed : ∀ p, ((s.modify u (unlinked c)).task p).freed = (s.task p).freed := by
      intro p
      by_cases e : p = u
      · rw [e,hself]
        rfl
      · rw [hother p e]
    have hp' : ReleaseParent (s.modify u (unlinked c)) c u := by
      unfold ReleaseParent
      simp only [hself, hother c hcu, hfreed]
      exact hp
    have hh' : ((s.modify u (unlinked c)).task u).home = .unmet := by
      rw [hself]
      exact hr.unmet
    have hty' : ((s.modify u (unlinked c)).task u).type = ((s.modify u (unlinked c)).task c).type := by
      rw [hself,hother c hcu]
      exact hty
    obtain ⟨h1,h2,h3,h4,h5,h6⟩ := enqueueDepender_frame hmod hh' hty' hp'
    refine ⟨enqueueDepender_placed hmod hh' hty' hp',fun v hv => ?_,fun v hv => ?_,h3,h4,h5,h6⟩
    · obtain rfl := List.mem_singleton.mp hv
      rw [h2,hself]
      exact (if_neg hn).symm
    · have e : v ≠ u := by simpa using hv
      have hnu := h1 v e
      rw [hother v e] at hnu
      exact hnu

/-- Releasing one depender leaves the others as they were. -/
theorem Releases.releasable {ds : List ℕ} (h : Releases w c ds s s') {v : ℕ} (hv : v ∉ ds) (hc : c ∉ ds)
    (hcw : (s.task c).taskwait = none) (hs : Shaped s) (hr : Releasable s c v) : Releasable s' c v := by
  have hself : s'.task v = s.task v := (h.others v hv).2.2 ((hs.task v).unmet (Or.inl hr.unmet)).2.2.1
  have hcs : s'.task c = s.task c := (h.others c hc).2.2 hcw
  have hfreed : ∀ p, (s'.task p).freed = (s.task p).freed := by
    intro p
    by_cases e : p ∈ ds
    · rw [h.released p e]
      simp only [TeamState.released]
      split <;> rfl
    · rw [(h.others p e).1]
  constructor
  · rw [hself]
    exact hr.unmet
  · rw [hself,hcs]
    intro hn
    obtain ⟨hty,hp⟩ := hr.ready hn
    refine ⟨hty,?_⟩
    unfold ReleaseParent
    simp only [hself, hcs, hfreed]
    exact hp

/-- The whole loop of gomp_task_run_post_handle_dependers. -/
theorem releaseDependers_releases {ds : List ℕ} (h : Placed w s) (hnd : ds.Nodup) (hc : c ∉ ds)
    (hcw : (s.task c).taskwait = none) (hr : ∀ u ∈ ds, Releasable s c u) :
    Releases w c ds s (ds.foldl (releaseDepender c) s) := by
  induction ds generalizing s with
  | nil => exact ⟨h,by simp,fun u _ => .refl _,rfl,rfl,rfl,rfl⟩
  | cons u ds ih =>
    obtain ⟨hnot,hnd⟩ := List.nodup_cons.mp hnd
    obtain ⟨hcu,hc⟩ := List.ne_and_not_mem_of_not_mem_cons hc
    have h1 := releaseDepender_releases h (hr u List.mem_cons_self) hcu
    have hcs : (releaseDepender c s u).task c = s.task c := (h1.others c (by simpa using hcu)).2.2 hcw
    have h2 := ih h1.placed hnd hc (by rw [hcs,hcw]) fun v hv =>
      h1.releasable (by rintro hvu; exact hnot (List.mem_singleton.mp hvu ▸ hv)) (by simpa using hcu) hcw h.shaped
        (hr v (List.mem_cons_of_mem u hv))
    refine ⟨h2.placed,fun v hv => ?_,fun v hv => ?_,h2.numTasks.trans h1.numTasks,h2.ultVar.trans h1.ultVar,
      h2.group.trans h1.group,h2.numGroups.trans h1.numGroups⟩
    · rcases List.mem_cons.mp hv with rfl | hv'
      · have hw : ((releaseDepender c s v).task v).taskwait = none := by
          rw [h1.released v (List.mem_singleton_self v)]
          have := ((h.shaped.task v).unmet (Or.inl (hr v List.mem_cons_self).unmet)).2.2.1
          simp only [TeamState.released]
          split <;> exact this
        rw [List.foldl_cons,(h2.others v hnot).2.2 hw]
        exact h1.released v (List.mem_singleton_self v)
      · have e : v ≠ u := by
          rintro rfl
          exact hnot hv'
        have hself : (releaseDepender c s u).task v = s.task v :=
          (h1.others v (by simpa using e)).2.2 ((h.shaped.task v).unmet (Or.inl (hr v hv).unmet)).2.2.1
        rw [List.foldl_cons,h2.released v hv',hself]
    · obtain ⟨e,hv⟩ := List.ne_and_not_mem_of_not_mem_cons hv
      rw [List.foldl_cons]
      exact (h1.others v (by simpa using e)).trans (h2.others v hv)

end TeamState

end GompUlt.Team
