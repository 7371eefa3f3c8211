import GompUlt.Team.Release

/-! # Completion keeps the tasks in their queues

A task that ends releases its dependers, leaves its parent and its taskgroup, becomes a parent
no more, and is freed.
-/
namespace GompUlt.Team
open Queue TeamState

namespace TeamState
variable {w : Watch} {s s' : TeamState} {t u c : ℕ}

theorem decrementDepend_nudged (h : WaitersPlaced w s) (p c : ℕ) : Nudged w s (s.decrementDepend p c) := by
  unfold decrementDepend
  dsimp only
  split
  case isFalse => exact .refl w s
  case isTrue =>
    have hn := modifyWait_nudged (w := w) (s := s) p fun x => { x with nDepend := x.nDepend - 1 }
    split
    case isFalse => exact hn
    case isTrue hw =>
      have hne : ((s.modifyWait p fun x => { x with nDepend := x.nDepend - 1 }).task p).taskwait ≠ none := by
        intro e
        rw [e] at hw
        cases hw
      split
      · exact hn.trans (gompTaskHandleBlocking_nudged (h.nudged hn) hne)
      · exact hn.trans (modifyWait_nudged p _)

/-- What is known of a task that completes. -/
structure Finishing (s : TeamState) (c : ℕ) : Prop where
  lt : c < s.numTasks
  freed : (s.task c).freed = false
  kind : (s.task c).kind = .tied ∨ (s.task c).kind = .undeferred
  home : (s.task c).home = .listed
  group : (s.task c).taskgroup = (s.task c).createdIn
  idle : (s.task c).taskwait = none

theorem Finishing.at (hc : Finishing s c) (h : Placed w s) :
    s.At c (s.address c) { family := some .running, group := some .running } := by
  have hat := h.placed c
  have hk : (s.task c).kind ≠ .waiting ∧ (s.task c).kind ≠ .tiedSuspended := by
    rcases hc.kind with e | e <;> simp [e]
  unfold PlacedAt at hat
  rw [Task.view_running hc.freed hk.1 hk.2 (Or.inl hc.home)] at hat
  simpa only [Task.runView, hc.home, if_true] using hat

/-- The completing task has left the children of its parent. -/
structure Orphaned (w : Watch) (c : ℕ) (s s' : TeamState) : Prop where
  but : PlacedBut w c 0 s'
  task : s'.task c = s.task c
  address : s'.address c = s.address c
  at_ : s'.At c (s.address c) { group := some .running }
  others : ∀ u, Nudges (s.task u) (s'.task u)
  numTasks : s'.numTasks = s.numTasks
  ultVar : s'.ultVar = s.ultVar
  groups : s'.group = s.group
  numGroups : s'.numGroups = s.numGroups

theorem result_removeRunning : (Call.remove false).result false (some .running) = none := by decide

theorem exact_removeRunning : (Call.remove false).exact false (some .running) = true := by decide

/-- The removal itself. -/
theorem removeFromChildren_orphaned (h : Placed w s) (hc : Finishing s c) (parent : Option ℕ)
    (hp : (s.task c).parent = parent) :
    Orphaned w c s (s.callOpt (parent.map (.children (s.task c).type)) (.remove false) c) := by
  have hat := hc.at h
  have hpar : parent = (s.address c).parent ∨ (s.address c).parent = none := hp ▸ parent_or_none s c
  have hisl : (s.task c).isListed = true := by simp [Task.isListed, hc.freed, hc.home]
  have hfl : Flags w (s.callOpt (parent.map (.children (s.task c).type)) (.remove false) c) := by
    refine Flags.callOpt h.flags fun q hq hw => ?_
    obtain ⟨p,rfl,rfl⟩ := Option.map_eq_some_iff.mp hq
    have he : (s.address c).parent = some p := by
      rw [← hp]
      exact (parent_eq_of_family (h.family hw) hisl).symm
    rw [hat]
    simp only [expect, he, and_true]
    rw [if_pos (show (s.address c).type = (s.task c).type from rfl)]
    exact exact_removeRunning
  refine ⟨(h.but hc.idle).callOpt hfl ?_,by simp,?_,?_,fun u => ?_,by simp,by simp,by simp,by simp⟩
  · intro q type hq
    obtain ⟨n,-,rfl⟩ := Option.map_eq_some_iff.mp hq
    exact QRef.noConfusion
  · simp [TeamState.address, liveParent]
  · refine (hat.callParentOr rfl (by decide) hpar).view_eq ?_
    simp [result_removeRunning]
  · rw [callOpt_task]
    exact .refl _

/-- Afterwards waiting tasks are woken up. -/
theorem Orphaned.nudged {s'' : TeamState} (h : Orphaned w c s s') (hr : Nudged w s' s'') : Orphaned w c s s'' := by
  obtain ⟨h1,h2,h3⟩ := h.but.nudged_at hr
  exact ⟨h.but.nudged hr,h1.trans h.task,h2.trans h.address,h3 _ _ h.at_,fun u => (h.others u).trans (hr.task u),
    hr.numTasks.trans h.numTasks,hr.ultVar.trans h.ultVar,hr.group.trans h.groups,hr.numGroups.trans h.numGroups⟩

/-- Before it waiting tasks have been woken up. -/
theorem Orphaned.of_nudged {s'' : TeamState} (hr : Nudged w s s') (hidle : (s.task c).taskwait = none)
    (h : Orphaned w c s' s'') : Orphaned w c s s'' := by
  have htask : s'.task c = s.task c := (hr.task c).2.2 hidle
  have haddr : s'.address c = s.address c := by
    simp only [TeamState.address, liveParent, htask, hr.freed]
  exact ⟨h.but,h.task.trans htask,h.address.trans haddr,haddr ▸ h.at_,fun u => (hr.task u).trans (h.others u),
    h.numTasks.trans hr.numTasks,h.ultVar.trans hr.ultVar,h.groups.trans hr.group,h.numGroups.trans hr.numGroups⟩

theorem Finishing.nudged (hc : Finishing s c) (hr : Nudged w s s') : Finishing s' c := by
  have htask : s'.task c = s.task c := (hr.task c).2.2 hc.idle
  constructor
  case lt => exact hr.numTasks ▸ hc.lt
  all_goals rw [htask]
  case freed => exact hc.freed
  case kind => exact hc.kind
  case home => exact hc.home
  case group => exact hc.group
  case idle => exact hc.idle

theorem gompTaskRunPostRemoveParent_orphaned (h : Placed w s) (hc : Finishing s c) :
    Orphaned w c s (s.gompTaskRunPostRemoveParent c) := by
  unfold gompTaskRunPostRemoveParent
  cases hp : (s.task c).parent with
  | none => exact removeFromChildren_orphaned h hc none hp
  | some p =>
    have hn := decrementDepend_nudged h.waiters p c
    have htask : (s.decrementDepend p c).task c = s.task c := (hn.task c).2.2 hc.idle
    have ho := removeFromChildren_orphaned (h.nudged hn) (hc.nudged hn) (some p) (by rw [htask,hp])
    refine Orphaned.of_nudged hn hc.idle ?_
    dsimp only
    split
    case isFalse => exact ho
    case isTrue hw =>
      have hne := inTaskwait_taskwait (Bool.and_eq_true_iff.mp hw).2
      split
      · exact ho.nudged (gompTaskHandleBlocking_nudged ho.but.waiters hne)
      · exact ho.nudged (modifyWait_nudged p _)

theorem removeFromParent_orphaned (h : Placed w s) (hc : Finishing s c) (t : ℕ) :
    Orphaned w c s (s.removeFromParent t c) := by
  unfold removeFromParent
  split
  case isTrue hp => exact removeFromChildren_orphaned h hc (some t) hp
  case isFalse => exact gompTaskRunPostRemoveParent_orphaned h hc

/-- The way in which each place that terminates a task takes it from its parent. -/
def leaveParent (s : TeamState) (site : Site) (t c : ℕ) : TeamState :=
  match site with
  | .context | .taskwait => s.removeFromParent t c
  | .dependWait =>
    (if (s.task c).parentDependsOn then s.modifyWait t fun x => { x with nDepend := x.nDepend - 1 } else s).removeFromParent
      t c
  | .barrier | .taskgroupEnd => s.gompTaskRunPostRemoveParent c

theorem leaveParent_orphaned (h : Placed w s) (hc : Finishing s c) (site : Site) (t : ℕ) :
    Orphaned w c s (s.leaveParent site t c) := by
  cases site with
  | context => exact removeFromParent_orphaned h hc t
  | taskwait => exact removeFromParent_orphaned h hc t
  | barrier => exact gompTaskRunPostRemoveParent_orphaned h hc
  | taskgroupEnd => exact gompTaskRunPostRemoveParent_orphaned h hc
  | dependWait =>
    unfold leaveParent
    dsimp only
    split
    case isFalse => exact removeFromParent_orphaned h hc t
    case isTrue =>
      have hn := modifyWait_nudged (w := w) (s := s) t fun x => { x with nDepend := x.nDepend - 1 }
      exact Orphaned.of_nudged hn hc.idle (removeFromParent_orphaned (h.nudged hn) (hc.nudged hn) t)

/-- The last steps of a completion. -/
def retire (s : TeamState) (site : Site) (c : ℕ) : TeamState :=
  let s := (s.gompClearParent c).gompTaskRunPostRemoveTaskgroup c
  let s := if site = .context && (s.task c).kind = .undeferred then s else s.addCount (-1)
  s.free c

theorem gompTerminateTaskPre_eq (s : TeamState) (site : Site) (t c : ℕ) : s.gompTerminateTaskPre site t c =
    ((s.gompTaskRunPostHandleDepend c).leaveParent site t c).retire site c := by
  unfold gompTerminateTaskPre leaveParent retire
  cases site <;> rfl

/-- The task is found in a children queue of the other one. -/
def isChild (s : TeamState) (c u : ℕ) : Prop :=
  u ∈ (s.queue (.children .tied c)).members ∨ u ∈ (s.queue (.children .untied c)).members

instance (s : TeamState) (c u : ℕ) : Decidable (s.isChild c u) := inferInstanceAs (Decidable (_ ∨ _))

theorem isChild_iff : s.isChild c u ↔ ∃ type, s.status (.children type c) u ≠ none := by
  unfold isChild
  rw [TaskQueue.mem_members,TaskQueue.mem_members]
  constructor
  · rintro (h | h)
    · exact ⟨.tied,Option.isSome_iff_ne_none.mp h⟩
    · exact ⟨.untied,Option.isSome_iff_ne_none.mp h⟩
  · rintro ⟨type,h⟩
    cases type
    · exact Or.inl (Option.isSome_iff_ne_none.mpr h)
    · exact Or.inr (Option.isSome_iff_ne_none.mpr h)

/-- The children queues of a task. -/
def isQueueOf (c : ℕ) : QRef → Bool
  | .children _ p => p = c
  | .taskgroup _ _ | .team _ | .suspended _ _ | .locked _ => false

/-- The record of another task when its parent or its sibling is freed. -/
def retired (s : TeamState) (c u : ℕ) : Task :=
  if s.isChild c u then { s.task u with parent := none } else s.task u

theorem removeTaskgroup_task (s : TeamState) (c : ℕ) : (s.gompTaskRunPostRemoveTaskgroup c).task = s.task := by
  unfold gompTaskRunPostRemoveTaskgroup
  cases (s.task c).taskgroup <;> rfl

theorem removeTaskgroup_queue (s : TeamState) (c : ℕ) : (s.gompTaskRunPostRemoveTaskgroup c).queue =
    (s.callOpt ((s.task c).taskgroup.map (.taskgroup (s.task c).type)) (.remove false) c).queue := by
  unfold gompTaskRunPostRemoveTaskgroup
  cases (s.task c).taskgroup <;> rfl

theorem removeTaskgroup_frame (s : TeamState) (c : ℕ) :
    (s.gompTaskRunPostRemoveTaskgroup c).numTasks = s.numTasks ∧
    (s.gompTaskRunPostRemoveTaskgroup c).ultVar = s.ultVar ∧
    (s.gompTaskRunPostRemoveTaskgroup c).taskQueuedCount = s.taskQueuedCount := by
  unfold gompTaskRunPostRemoveTaskgroup
  cases (s.task c).taskgroup <;> exact ⟨rfl,rfl,rfl⟩

theorem gompClearParent_task (s : TeamState) (c u : ℕ) : (s.gompClearParent c).task u = s.retired c u := by
  unfold gompClearParent retired isChild
  rfl

/-- A task that is in no queue is freed: its children lose their parent and its queues are gone. -/
structure Discards (c : ℕ) (s s' : TeamState) : Prop where
  task : ∀ u, s'.task u = if u = c then { s.retired c c with freed := true } else s.retired c u
  queue : ∀ q, s'.queue q = if isQueueOf c q then TaskQueue.empty else s.queue q
  numTasks : s'.numTasks = s.numTasks
  ultVar : s'.ultVar = s.ultVar
  queued : s'.taskQueuedCount = s.taskQueuedCount

theorem free_queue (s : TeamState) (c : ℕ) (q : QRef) :
    (s.free c).queue q = if isQueueOf c q then TaskQueue.empty else s.queue q := by
  simp only [free, modify_queue]
  cases q with
  | children type p => cases type <;> by_cases e : p = c <;> simp [isQueueOf, e]
  | _ => simp [isQueueOf]

/-- The state in which the task has left its taskgroup as well. -/
def leaveTaskgroup (s : TeamState) (c : ℕ) : TeamState :=
  s.callOpt ((s.task c).taskgroup.map (.taskgroup (s.task c).type)) (.remove false) c

theorem leaveTaskgroup_retired (s : TeamState) (c u : ℕ) : (s.leaveTaskgroup c).retired c u = s.retired c u := by
  have hiff : (s.leaveTaskgroup c).isChild c u ↔ s.isChild c u := by
    unfold leaveTaskgroup isChild
    cases (s.task c).taskgroup <;> simp [callOpt, call_queue_of_ne]
  have htask : (s.leaveTaskgroup c).task = s.task := callOpt_task
  unfold retired
  rw [htask]
  simp only [hiff]

theorem clearParent_leaveTaskgroup (s : TeamState) (c : ℕ) :
    ((s.gompClearParent c).leaveTaskgroup c).queue = (s.leaveTaskgroup c).queue := by
  unfold leaveTaskgroup
  rw [gompClearParent_task]
  unfold retired
  split <;> cases (s.task c).taskgroup <;> rfl

theorem retire_frame (s : TeamState) (site : Site) (c : ℕ) : (s.retire site c).numTasks = s.numTasks ∧
    (s.retire site c).ultVar = s.ultVar ∧ (s.retire site c).taskQueuedCount = s.taskQueuedCount := by
  obtain ⟨h1,h2,h3⟩ := removeTaskgroup_frame (s.gompClearParent c) c
  unfold retire
  dsimp only [free]
  split <;> exact ⟨h1,h2,h3⟩

/-- The last steps of a completion. -/
theorem retire_discards (s : TeamState) (site : Site) (c : ℕ) : Discards c (s.leaveTaskgroup c) (s.retire site c) := by
  obtain ⟨h1,h2,h3⟩ := retire_frame s site c
  have htask : ∀ v, ((s.gompClearParent c).gompTaskRunPostRemoveTaskgroup c).task v = s.retired c v := by
    intro v
    rw [removeTaskgroup_task,gompClearParent_task]
  have hqueue : ((s.gompClearParent c).gompTaskRunPostRemoveTaskgroup c).queue = (s.leaveTaskgroup c).queue := by
    rw [← clearParent_leaveTaskgroup]
    exact removeTaskgroup_queue (s.gompClearParent c) c
  have hleave : (s.leaveTaskgroup c).numTasks = s.numTasks ∧ (s.leaveTaskgroup c).ultVar = s.ultVar ∧
      (s.leaveTaskgroup c).taskQueuedCount = s.taskQueuedCount := by
    unfold leaveTaskgroup
    cases (s.task c).taskgroup <;> exact ⟨rfl,rfl,rfl⟩
  obtain ⟨g1,g2,g3⟩ := hleave
  constructor
  case task =>
    intro u
    simp only [leaveTaskgroup_retired]
    unfold retire
    dsimp only [free]
    split <;> simp only [modify_task, addCount_task, htask]
  case queue =>
    intro q
    unfold retire
    dsimp only
    rw [free_queue]
    split
    · rfl
    · split
      · rw [hqueue]
      · rw [addCount_queue,hqueue]
  case numTasks => rw [h1,g1]
  case ultVar => rw [h2,g2]
  case queued => rw [h3,g3]

theorem retired_eq (u : ℕ) : s.retired c u = { s.task u with parent := (s.retired c u).parent } := by
  unfold retired
  split <;> rfl

section Children
variable (hb : PlacedBut w c 0 s)
include hb

/-- The children found in the queues of the task are those whose address has it as the parent. -/
theorem isChild_address (hu : u ≠ c) (hchild : s.isChild c u) : (s.address u).parent = some c := by
  obtain ⟨type,hst⟩ := isChild_iff.mp hchild
  rw [hb.placed u hu] at hst
  simp only [expect] at hst
  split at hst
  · next h => exact h.2
  · exact absurd rfl hst

/-- A listed task with this parent is found there. -/
theorem isChild_of_listed (hu : u ≠ c) (hl : (s.task u).isListed = true) (hp : (s.address u).parent = some c) :
    s.isChild c u := by
  refine isChild_iff.mpr ⟨(s.task u).type,?_⟩
  rw [hb.placed u hu]
  have hty : (s.address u).type = (s.task u).type := rfl
  simp [expect, hp, hty, Task.view, hl]

end Children

namespace Discards
variable (hd : Discards c s s')
include hd

theorem freed (p : ℕ) : (s'.task p).freed = (decide (p = c) || (s.task p).freed) := by
  rw [hd.task]
  split
  · next e => simp [e]
  · next e =>
    rw [retired_eq]
    simp [e]

theorem status (q : QRef) (u : ℕ) : s'.status q u = if isQueueOf c q then none else s.status q u := by
  simp only [TeamState.status, hd.queue]
  split <;> rfl

theorem drift : s'.drift = s.drift := by
  unfold TeamState.drift
  rw [hd.queued,hd.queue,hd.queue]
  simp [isQueueOf]

/-- The other tasks stay where they are, except that the queues of the freed task are gone. -/
theorem others (hb : PlacedBut w c 0 s) (hu : u ≠ c) : s'.PlacedAt u := by
  have htask : s'.task u = { s.task u with parent := (s.retired c u).parent } := by
    rw [hd.task,if_neg hu]
    exact retired_eq u
  have hview : (s'.task u).view = (s.task u).view := by
    rw [htask]
    rfl
  have haddr : s'.address u =
      { s.address u with parent := (s.retired c u).parent.filter fun p => !(s'.task p).freed } := by
    simp only [address, liveParent, htask]
  intro q
  rw [hd.status,hb.placed u hu,hview,haddr]
  cases q with
  | children type p =>
    simp only [isQueueOf, expect, decide_eq_true_eq]
    by_cases e : p = c
    · have hnone : (s.retired c u).parent.filter (fun p => !(s'.task p).freed) ≠ some p := by
        simp [Option.filter_eq_some_iff, hd.freed, e]
      rw [if_pos e,if_neg fun hc => hnone hc.2]
    · rw [if_neg e]
      have hsame : (s.address u).parent = some p ↔
          (s.retired c u).parent.filter (fun p => !(s'.task p).freed) = some p := by
        by_cases hchild : s.isChild c u
        · have hpar := isChild_address hb hu hchild
          have hret : (s.retired c u).parent = none := by
            unfold retired
            rw [if_pos hchild]
          simp [hpar, hret, Ne.symm e]
        · have hret : (s.retired c u).parent = (s.task u).parent := by
            unfold retired
            rw [if_neg hchild]
          simp [hret, address, liveParent, Option.filter_eq_some_iff, hd.freed, e]
      simp only [hsame]
  | taskgroup type g => rfl
  | team type => rfl
  | suspended type thr => rfl
  | locked l => rfl

/-- What is left of the freed task. -/
theorem self (hat : s.At c (s.address c) {}) : s'.PlacedAt c := by
  have hview : (s'.task c).view = {} := by
    refine Task.view_freed ?_
    simp [hd.freed]
  intro q
  rw [hview,expect_empty,hd.status,hat q,expect_empty]
  split <;> rfl

theorem isHeap (hh : (s'.task u).isHeap = true) : u ≠ c ∧ (s.task u).isHeap = true := by
  have e : u ≠ c := by
    rintro rfl
    simp [Task.isHeap, hd.freed] at hh
  rw [hd.task,if_neg e,retired_eq] at hh
  exact ⟨e,hh⟩

/-- The freed task leaves everything else in order. -/
theorem placed (hb : PlacedBut w c 0 s) (hat : s.At c (s.address c) {}) (hlt : c < s.numTasks)
    (hk : (s.task c).kind = .tied ∨ (s.task c).kind = .undeferred)
    (hh : (s.task c).home = .listed ∨ (s.task c).home = .stack)
    (hunmet : w.children → ∀ u, (s.task u).home = .unmet → (s.task u).parent ≠ some c) : Placed w s' := by
  constructor
  case shaped =>
    constructor
    · intro u
      rw [hd.ultVar,hd.task]
      have hsh : TaskShape s.ultVar u (s.retired c u) := by
        rw [retired_eq]
        exact (hb.shaped.task u).congr rfl
      split
      · next e =>
        subst e
        rw [retired_eq] at hsh ⊢
        exact hsh.free hk hh
      · exact hsh
    · intro u hu
      rw [hd.numTasks] at hu
      have e : u ≠ c := by omega
      have hfresh := hb.shaped.fresh u hu
      rw [hd.task,if_neg e]
      unfold retired
      rw [if_neg,hfresh]
      intro hchild
      obtain ⟨type,hst⟩ := isChild_iff.mp hchild
      rw [hb.placed u e,hfresh] at hst
      simp [expect, Task.view, Task.isListed] at hst
  case placed =>
    intro u
    by_cases e : u = c
    · rw [e]
      exact hd.self hat
    · exact hd.others hb e
  case flags =>
    intro q hq
    rw [hd.queue]
    split
    · exact ⟨rfl,fun _ => rfl⟩
    · exact hb.flags q hq
  case drift => rw [hd.drift,hb.drift]
  case family =>
    intro hw u p hin hp
    obtain ⟨e,hheap⟩ := hd.isHeap hin
    rw [hd.task,if_neg e] at hp
    have hnot : ¬s.isChild c u := by
      intro hchild
      unfold retired at hp
      rw [if_pos hchild] at hp
      cases hp
    unfold retired at hp
    rw [if_neg hnot] at hp
    have hlive := hb.family hw u p hheap hp
    have hpc : p ≠ c := by
      rintro rfl
      refine hnot (isChild_of_listed hb e ?_ ?_)
      · have hhome : (s.task u).home ≠ .unmet := fun hun => hunmet hw u hun hp
        simp only [Task.isHeap, Task.isListed, Bool.and_eq_true, decide_eq_true_eq, List.mem_cons] at hheap ⊢
        exact ⟨hheap.1,hheap.2.resolve_left hhome⟩
      · simp [address, liveParent, hp, Option.filter, hlive]
    rw [hd.freed]
    simp [hpc, hlive]
  case regrouped =>
    intro hw u hl hkind
    have e : u ≠ c := (hd.isHeap (isHeap_of_isListed hl)).1
    rw [hd.task,if_neg e,retired_eq] at hl hkind ⊢
    exact hb.regrouped hw u hl hkind

end Discards

/-- A completing task leaves its taskgroup. -/
theorem leaveTaskgroup_placed (hb : PlacedBut w c 0 s) (hat : s.At c (s.address c) { group := some .running })
    (hgroup : (s.task c).taskgroup = (s.task c).createdIn) :
    PlacedBut w c 0 (s.leaveTaskgroup c) ∧ (s.leaveTaskgroup c).At c ((s.leaveTaskgroup c).address c) {} := by
  have haddr : (s.address c).group = (s.task c).taskgroup := hgroup.symm
  have hfl := Flags.callGroup hb.flags hat (c := .remove false) rfl haddr fun _ _ => exact_removeRunning
  have hleft := hat.callGroup (c := .remove false) rfl haddr
  unfold leaveTaskgroup
  constructor
  · refine hb.callOpt hfl ?_
    intro q type hq
    obtain ⟨n,-,rfl⟩ := Option.map_eq_some_iff.mp hq
    exact QRef.noConfusion
  · have hsame : (s.callOpt ((s.task c).taskgroup.map (.taskgroup (s.task c).type)) (.remove false) c).address c =
        s.address c := by
      simp [address, liveParent]
    rw [hsame]
    exact hleft.view_eq (by simp [result_removeRunning])

end TeamState

end GompUlt.Team
