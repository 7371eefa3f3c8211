import GompUlt.Team.TeamRuns
import Mathlib

/-! # Fields that are set once

The type of a task, its depend clauses and the taskgroup it was created in never change; the
taskgroup it is in and the lock it waits for change only where the program says so.  A team
whose program uses no depend clauses, no target tasks, no cancellation, and taskgroups and locks
only in one type of task each keeps to that in every record.
-/
namespace GompUlt.Team
open Queue TeamState Run

/-- The fields that neither scheduling nor completion changes. -/
def Task.static (x : Task) : TaskType × Option ℕ × Bool × Bool × Option ℕ × Option ℕ :=
  (x.type,x.createdIn,x.hasDepend,x.isTarget,x.taskgroup,x.lockedTasks)

namespace TeamState
variable {w : Watch} {s s' s'' : TeamState} {t u p c thr : ℕ} {f : Task → Task} {q : QRef} {k : Call} {lock : Option ℕ}

/-- The static fields of all tasks and the owners of all taskgroups are the same. -/
structure Steady (s s' : TeamState) : Prop where
  task : ∀ t, (s'.task t).static = (s.task t).static
  owner : ∀ g, (s'.group g).owner = (s.group g).owner
  numGroups : s'.numGroups = s.numGroups
  numTasks : s'.numTasks = s.numTasks

namespace Steady

theorem refl (s : TeamState) : Steady s s := ⟨fun _ => rfl,fun _ => rfl,rfl,rfl⟩

theorem trans (h : Steady s s') (h' : Steady s' s'') : Steady s s'' where
  task t := (h'.task t).trans (h.task t)
  owner g := (h'.owner g).trans (h.owner g)
  numGroups := h'.numGroups.trans h.numGroups
  numTasks := h'.numTasks.trans h.numTasks

theorem ite {P : Prop} [Decidable P] (h : Steady s s') (h' : Steady s s'') : Steady s (if P then s' else s'') := by
  split
  · exact h
  · exact h'

theorem modify (t : ℕ) (hf : ∀ x, (f x).static = x.static) : Steady s (s.modify t f) where
  task u := by
    rw [modify_task]
    split
    · next e => rw [e,hf]
    · rfl
  owner _ := rfl
  numGroups := rfl
  numTasks := rfl

theorem call : Steady s (s.call q k t) := ⟨fun _ => rfl,fun _ => rfl,rfl,rfl⟩

theorem callOpt {oq : Option QRef} : Steady s (s.callOpt oq k t) := by
  cases oq with
  | none => exact refl s
  | some q => exact call

theorem callFamily {type : TaskType} {p g : Option ℕ} : Steady s (s.callFamily type p g k t) := callOpt.trans callOpt

theorem callSuspended {type : TaskType} {thread : Option ℕ} : Steady s (s.callSuspended type thread k t) := callOpt

theorem addCount (d : ℤ) : Steady s (s.addCount d) := ⟨fun _ => rfl,fun _ => rfl,rfl,rfl⟩

theorem addQueued (d : ℤ) : Steady s (s.addQueued d) := ⟨fun _ => rfl,fun _ => rfl,rfl,rfl⟩

theorem modifyWait (t : ℕ) (g : Taskwait → Taskwait) : Steady s (s.modifyWait t g) := modify t fun _ => rfl

end Steady

theorem Reblocked.steady (h : Reblocked s s') : Steady s s' where
  task t := by
    rw [(h.task t).1]
    rfl
  owner g := by rw [h.group]
  numGroups := h.numGroups
  numTasks := h.numTasks

section Wakeups

theorem handleParent_steady (p : Option ℕ) : Steady s (s.handleParent p) := (handleParent_reblocked p).steady

theorem notifyParent_steady (p : ℕ) : Steady s (s.notifyParent p) := by
  unfold notifyParent
  split
  · next h => exact .ite (gompTaskHandleBlocking_reblocked (inTaskwait_taskwait h)).steady (.modifyWait _ _)
  · split
    · next h => exact .ite (gompTaskHandleBlocking_reblocked (inDependWait_taskwait h)).steady (.modifyWait _ _)
    · exact .refl s

theorem decrementDepend_steady (p c : ℕ) : Steady s (s.decrementDepend p c) := by
  unfold decrementDepend
  dsimp only
  refine .ite ?_ (.refl s)
  have h₁ : Steady s (s.modifyWait p fun x => { x with nDepend := x.nDepend - 1 }) := .modifyWait p _
  split
  · next hw =>
    have hne : ((s.modifyWait p fun x => { x with nDepend := x.nDepend - 1 }).task p).taskwait ≠ none := by
      intro e
      rw [e] at hw
      cases hw
    exact .ite (h₁.trans (gompTaskHandleBlocking_reblocked hne).steady) (h₁.trans (.modifyWait p _))
  · exact h₁

end Wakeups

section Scheduling

theorem leaveQueues_steady (t : ℕ) (p : Option ℕ) : Steady s (s.leaveQueues t p) := by
  unfold leaveQueues
  dsimp only
  refine Steady.trans ?_ .call
  refine Steady.trans ?_ (.ite .callSuspended (.refl _))
  exact .ite .callFamily (.refl s)

theorem setRunning_steady (t : ℕ) : Steady s (s.setRunning t) := .modify t fun _ => rfl

theorem gompTaskRunPre_steady (t : ℕ) (p : Option ℕ) : Steady s (s.gompTaskRunPre t p) := by
  unfold gompTaskRunPre
  dsimp only
  have hrun := ((leaveQueues_steady (s := s) t p).trans (setRunning_steady t)).trans (.addQueued (-1))
  exact .ite (Steady.callSuspended.trans (.modify t fun _ => rfl)) (.ite (hrun.trans (handleParent_steady p)) hrun)

theorem resumeContext_steady (t : ℕ) : Steady s (s.resumeContext t) := by
  unfold resumeContext
  dsimp only
  exact .ite (Steady.callOpt.trans (Steady.callSuspended.trans (.modify t fun _ => rfl))) (.refl s)

theorem setBlockedTied_steady (t : ℕ) (b : Bool) : Steady s (s.setBlockedTied t b) := by
  unfold setBlockedTied
  refine Steady.trans ?_ .callSuspended
  exact .modify t fun _ => rfl

theorem setBlockedUntied_steady (t : ℕ) (b : Bool) : Steady s (s.setBlockedUntied t b) := by
  unfold setBlockedUntied
  dsimp only
  refine Steady.trans ?_ (.addQueued _)
  refine Steady.trans ?_ .callSuspended
  refine Steady.trans ?_ (.modify t fun _ => rfl)
  exact Steady.trans (.ite .callFamily (.refl s)) .call

theorem gompTaskHandleLocking_steady (lock t : ℕ) : Steady s (s.gompTaskHandleLocking lock t) := by
  unfold gompTaskHandleLocking
  dsimp only
  cases (s.task t).type with
  | tied => exact Steady.call.trans (setBlockedTied_steady t false)
  | untied => exact Steady.call.trans ((setBlockedUntied_steady t false).trans (handleParent_steady _))

theorem markTaskwait_steady (t : ℕ) : Steady s (s.markTaskwait t) := .modify t fun _ => rfl

theorem markWait_steady (site : Site) (t : ℕ) : Steady s (s.markWait site t) := by
  cases site with
  | taskwait => exact markTaskwait_steady t
  | dependWait => exact .modifyWait t _
  | context => exact .refl s
  | barrier => exact .refl s
  | taskgroupEnd => exact .refl s

theorem beginDependWait_steady (t : ℕ) (ms : List ℕ) : Steady s (s.beginDependWait t ms) := by
  have hall : Steady s (ms.foldl (awaitChild t) s) := by
    induction ms generalizing s with
    | nil => exact .refl s
    | cons u ms ih =>
      have hone : Steady s (awaitChild t s u) := by
        have hmark : Steady s (s.modify u fun x => { x with parentDependsOn := true }) := .modify u fun _ => rfl
        unfold awaitChild
        exact .ite (hmark.trans .call) hmark
      exact hone.trans ih
  exact hall.trans (.modify t fun _ => rfl)

end Scheduling

section Completion

theorem callsForDepender_steady (c u : ℕ) : Steady s (s.callsForDepender c u) := by
  rw [callsForDepender_eq]
  refine Steady.trans ?_ .call
  refine Steady.trans ?_ .callOpt
  unfold releaseToParent
  cases (s.task c).parent with
  | none => exact .refl s
  | some p => exact Steady.call.trans (notifyParent_steady p)

theorem enqueueDepender_steady (c u : ℕ) : Steady s (s.enqueueDepender c u) := by
  unfold enqueueDepender
  refine Steady.trans ?_ (.addQueued 1)
  refine Steady.trans ?_ (.addCount 1)
  exact (callsForDepender_steady c u).trans (.modify u fun _ => rfl)

theorem releaseDepender_steady (c u : ℕ) : Steady s (releaseDepender c s u) := by
  have hcut : Steady s (s.modify u (unlinked c)) := .modify u fun _ => rfl
  rw [releaseDepender_eq]
  exact .ite hcut (hcut.trans (enqueueDepender_steady c u))

theorem gompTaskRunPostHandleDepend_steady (c : ℕ) : Steady s (s.gompTaskRunPostHandleDepend c) := by
  have hall : ∀ (ds : List ℕ) (s : TeamState), Steady s (ds.foldl (releaseDepender c) s) := by
    intro ds
    induction ds with
    | nil => exact fun s => .refl s
    | cons u ds ih => exact fun s => (releaseDepender_steady c u).trans (ih _)
  unfold gompTaskRunPostHandleDepend
  exact .ite ((hall _ s).trans (.modify c fun _ => rfl)) (.refl s)

theorem gompTaskRunPostRemoveParent_steady (c : ℕ) : Steady s (s.gompTaskRunPostRemoveParent c) := by
  unfold gompTaskRunPostRemoveParent
  cases (s.task c).parent with
  | none => exact .refl s
  | some p =>
    have h₁ := (decrementDepend_steady (s := s) p c).trans
      (.call (q := .children ((s.decrementDepend p c).task c).type p) (k := .remove false) (t := c))
    dsimp only
    split
    · next hw =>
      have hne := inTaskwait_taskwait (Bool.and_eq_true_iff.mp hw).2
      exact .ite (h₁.trans (gompTaskHandleBlocking_reblocked hne).steady) (h₁.trans (.modifyWait p _))
    · exact h₁

theorem leaveParent_steady (site : Site) (t c : ℕ) : Steady s (s.leaveParent site t c) := by
  have hremove : ∀ s : TeamState, Steady s (s.removeFromParent t c) := by
    intro s
    unfold removeFromParent
    exact .ite .call (gompTaskRunPostRemoveParent_steady c)
  cases site with
  | context => exact hremove s
  | taskwait => exact hremove s
  | barrier => exact gompTaskRunPostRemoveParent_steady c
  | taskgroupEnd => exact gompTaskRunPostRemoveParent_steady c
  | dependWait => exact Steady.trans (.ite (.modifyWait t _) (.refl s)) (hremove _)

theorem gompClearParent_steady (c : ℕ) : Steady s (s.gompClearParent c) where
  task u := by
    rw [gompClearParent_task]
    unfold retired
    split <;> rfl
  owner _ := rfl
  numGroups := rfl
  numTasks := rfl

theorem gompTaskRunPostRemoveTaskgroup_steady (c : ℕ) : Steady s (s.gompTaskRunPostRemoveTaskgroup c) where
  task u := by rw [removeTaskgroup_task]
  owner g := by
    unfold gompTaskRunPostRemoveTaskgroup
    cases (s.task c).taskgroup with
    | none => rfl
    | some g' => by_cases e : g = g' <;> simp [Function.update_apply, e]
  numGroups := by
    unfold gompTaskRunPostRemoveTaskgroup
    cases (s.task c).taskgroup <;> rfl
  numTasks := (removeTaskgroup_frame s c).1

theorem free_steady (c : ℕ) : Steady s (s.free c) := by
  have h₁ : Steady s (s.modify c fun x => { x with freed := true }) := .modify c fun _ => rfl
  exact ⟨h₁.task,h₁.owner,h₁.numGroups,h₁.numTasks⟩

theorem gompTerminateTaskPre_steady (site : Site) (t c : ℕ) : Steady s (s.gompTerminateTaskPre site t c) := by
  rw [gompTerminateTaskPre_eq]
  refine ((gompTaskRunPostHandleDepend_steady c).trans (leaveParent_steady site t c)).trans ?_
  unfold retire
  dsimp only
  refine Steady.trans ?_ (free_steady c)
  have h₁ := fun s : TeamState => (gompClearParent_steady (s := s) c).trans (gompTaskRunPostRemoveTaskgroup_steady c)
  exact .ite (h₁ _) ((h₁ _).trans (.addCount (-1)))

theorem gompEndTask_steady (t : ℕ) : Steady s (s.gompEndTask t) := by
  have h₁ := (gompClearParent_steady (s := s) t).trans (free_steady t)
  unfold gompEndTask
  dsimp only
  cases (((s.gompClearParent t).free t).task t).parent with
  | none => exact h₁
  | some p => exact h₁.trans (.modify p fun _ => rfl)

end Completion

/-! ## Programs without the features that break the queues -/

/-- The program uses no depend clauses, no target tasks and no cancellation, only UNTIED tasks wait for locks and only
TIED tasks open taskgroups. -/
def PlainEvent (s : TeamState) : Event → Prop
  | .create _ _ d _ | .createWorkFirst _ _ _ d | .createForImplicit _ d _ => d = false
  | .createTarget _ _ _ _ | .cancelled _ _ _ _ => False
  | .switch _ _ cur _ _ lock => lock ≠ none → (s.task cur).type = .untied
  | .taskgroupStart t => (s.task t).type = .tied
  | .createUndeferred _ _ | .start _ _ _ _ | .finish _ _ _ | .finishUndeferred _ | .targetAsync _
  | .targetCompletion _ | .taskwaitBlock _ | .taskwaitReturn _ | .dependWaitBegin _ _ | .dependWaitBlock _
  | .dependWaitReturn _ | .taskgroupEnd _ _ | .unlock _ _ | .setUntiedBlock _ _ => True

instance decidablePlainEvent (s : TeamState) : ∀ e : Event, Decidable (PlainEvent s e)
  | .create _ _ d _ | .createWorkFirst _ _ _ d | .createForImplicit _ d _ => inferInstanceAs (Decidable (d = false))
  | .createTarget _ _ _ _ | .cancelled _ _ _ _ => inferInstanceAs (Decidable False)
  | .switch _ _ cur _ _ lock => inferInstanceAs (Decidable (lock ≠ none → (s.task cur).type = .untied))
  | .taskgroupStart t => inferInstanceAs (Decidable ((s.task t).type = .tied))
  | .createUndeferred _ _ | .start _ _ _ _ | .finish _ _ _ | .finishUndeferred _ | .targetAsync _
  | .targetCompletion _ | .taskwaitBlock _ | .taskwaitReturn _ | .dependWaitBegin _ _ | .dependWaitBlock _
  | .dependWaitReturn _ | .taskgroupEnd _ _ | .unlock _ _ | .setUntiedBlock _ _ => inferInstanceAs (Decidable True)

/-- The records say the same. -/
structure Plain (s : TeamState) : Prop where
  noDepend : ∀ t, (s.task t).hasDepend = false
  noTarget : ∀ t, (s.task t).isTarget = false
  outside : ∀ t, (s.task t).type = .untied → s.outsideGroups t
  unlocked : ∀ t, (s.task t).type = .tied → (s.task t).lockedTasks = none
  owner : ∀ g < s.numGroups, (s.group g).owner < s.numTasks ∧ (s.task (s.group g).owner).type = .tied

theorem Plain.init (ult : Bool) (n : ℕ) : Plain (TeamState.init ult n) := by
  constructor <;> simp [TeamState.init, outsideGroups]

/-- What is known of the static fields of one task. -/
theorem static_fields {x x' : Task} (h : x'.static = x.static) : x'.type = x.type ∧ x'.createdIn = x.createdIn ∧
    x'.hasDepend = x.hasDepend ∧ x'.isTarget = x.isTarget ∧ x'.taskgroup = x.taskgroup ∧
    x'.lockedTasks = x.lockedTasks := by
  simpa [Task.static] using h

theorem Plain.steady (h : Plain s) (hr : Steady s s') : Plain s' := by
  have hf := fun t => static_fields (hr.task t)
  constructor
  · intro t
    rw [(hf t).2.2.1]
    exact h.noDepend t
  · intro t
    rw [(hf t).2.2.2.1]
    exact h.noTarget t
  · intro t ht
    rw [(hf t).1] at ht
    unfold outsideGroups
    rw [(hf t).2.1,(hf t).2.2.2.2.1]
    exact h.outside t ht
  · intro t ht
    rw [(hf t).1] at ht
    rw [(hf t).2.2.2.2.2]
    exact h.unlocked t ht
  · intro g hg
    rw [hr.numGroups] at hg
    rw [hr.owner,hr.numTasks,(hf _).1]
    exact h.owner g hg

/-- A new task of the plain kind. -/
theorem Plain.create (h : Plain s) (type : TaskType) (g : Option ℕ)
    (hold : ∀ u, u ≠ s.numTasks → (s'.task u).static = (s.task u).static)
    (hnew : (s'.task s.numTasks).static = (type,g,false,false,g,none))
    (howner : ∀ g, (s'.group g).owner = (s.group g).owner) (hgroups : s'.numGroups = s.numGroups)
    (hnum : s'.numTasks = s.numTasks + 1) : Plain s' := by
  simp only [Task.static, Prod.mk.injEq] at hnew
  obtain ⟨-,h2,h3,h4,h5,h6⟩ := hnew
  constructor
  · intro t
    by_cases e : t = s.numTasks
    · rw [e,h3]
    · rw [(static_fields (hold t e)).2.2.1]
      exact h.noDepend t
  · intro t
    by_cases e : t = s.numTasks
    · rw [e,h4]
    · rw [(static_fields (hold t e)).2.2.2.1]
      exact h.noTarget t
  · intro t ht
    unfold outsideGroups
    by_cases e : t = s.numTasks
    · rw [e,h5,h2]
    · obtain ⟨g1,g2,-,-,g5,-⟩ := static_fields (hold t e)
      rw [g1] at ht
      rw [g2,g5]
      exact h.outside t ht
  · intro t ht
    by_cases e : t = s.numTasks
    · rw [e,h6]
    · obtain ⟨g1,-,-,-,-,g6⟩ := static_fields (hold t e)
      rw [g1] at ht
      rw [g6]
      exact h.unlocked t ht
  · intro g hg
    rw [hgroups] at hg
    obtain ⟨hlt,hty⟩ := h.owner g hg
    rw [howner,hnum]
    have e : (s.group g).owner ≠ s.numTasks := by omega
    rw [(static_fields (hold _ e)).1]
    exact ⟨by omega,hty⟩

/-- A suspension, with a lock only for UNTIED tasks. -/
theorem Plain.setSuspended (h : Plain s) (hl : (s.task t).type = .tied → lock = none) (thr : ℕ) (b : Bool)
    (kind : TaskKind) : Plain (s.setSuspended thr t b kind lock) := by
  have hself : ∀ u, (s.setSuspended thr t b kind lock).task u = if u = t then
      { s.task t with isBlocked := b, suspendingThread := some thr, kind, lockedTasks := lock } else s.task u := by
    intro u
    simp [TeamState.setSuspended]
  have htype : ∀ u, ((s.setSuspended thr t b kind lock).task u).type = (s.task u).type := by
    intro u
    rw [hself]
    split
    · next e => rw [e]
    · rfl
  constructor
  · intro u
    rw [hself]
    split
    · exact h.noDepend t
    · exact h.noDepend u
  · intro u
    rw [hself]
    split
    · exact h.noTarget t
    · exact h.noTarget u
  · intro u hu
    rw [htype] at hu
    unfold outsideGroups
    rw [hself]
    split
    · next e => exact h.outside t (e ▸ hu)
    · exact h.outside u hu
  · intro u hu
    rw [htype] at hu
    rw [hself]
    split
    · next e => exact hl (e ▸ hu)
    · exact h.unlocked u hu
  · intro g hg
    rw [htype]
    exact h.owner g hg

end TeamState

end GompUlt.Team
