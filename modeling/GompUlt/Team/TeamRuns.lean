import GompUlt.Team.EventSteps

/-! # Runs of a team

The conditions under which an event keeps the tasks in their queues, event by event, and what
holds of every run whose events meet them.
-/
namespace GompUlt.Team
open Queue TeamState

namespace TeamState
variable {w : Watch} {s s' : TeamState} {t u p c thr cur next : ℕ} {lock : Option ℕ} {site : Site} {src : QRef}

/-! ## Starts and switches -/

theorem nudges_isRunning (h : Nudges (s.task t) (s'.task t)) (hn : s'.numTasks = s.numTasks) :
    s'.isRunning t = s.isRunning t := by
  unfold TeamState.isRunning
  rw [h.1,hn]

/-- A start changes the record of another task only where it is woken up. -/
theorem gompTaskRunPre_others (hu : u ≠ t) (p : Option ℕ) : Nudges (s.task u) ((s.gompTaskRunPre t p).task u) := by
  unfold gompTaskRunPre
  dsimp only
  split
  · simp only [setRunning, modify_task, if_neg hu, callSuspended_task]
    exact .refl _
  · have hrun : (((s.leaveQueues t p).setRunning t).addQueued (-1)).task u = s.task u := by
      simp [setRunning, hu, (leaveQueues_frame s t p).1]
    split
    · have hr := ((handleParent_reblocked (s := ((s.leaveQueues t p).setRunning t).addQueued (-1)) p).task u).nudges
      rw [hrun] at hr
      exact hr
    · rw [hrun]
      exact .refl _

theorem gompTaskRunPre_self (p : Option ℕ) :
    Nudges { s.task t with kind := (s.task t).runKind } ((s.gompTaskRunPre t p).task t) := by
  unfold gompTaskRunPre
  dsimp only
  split
  · simp only [setRunning, modify_task, if_true, callSuspended_task]
    exact .refl _
  · have hrun : (((s.leaveQueues t p).setRunning t).addQueued (-1)).task t =
        { s.task t with kind := (s.task t).runKind } := by
      simp [setRunning, (leaveQueues_frame s t p).1]
    split
    · have hr := ((handleParent_reblocked (s := ((s.leaveQueues t p).setRunning t).addQueued (-1)) p).task t).nudges
      rw [hrun] at hr
      exact hr
    · rw [hrun]
      exact .refl _

/-- The parent handed to gomp_task_run_pre is that of the task. -/
theorem parentArg_eq (h : Placed w s) (hs : s.isSelectable next src = true) (ha : s.siteAllows site cur src = true) :
    s.parentArg site cur next = (s.task next).parent := by
  obtain ⟨-,-,-,hst,-⟩ := isSelectable_iff.mp hs
  have hchild : (src = .children .tied cur ∨ src = .children .untied cur) → (s.task next).parent = some cur := by
    intro hsrc
    rw [h.placed next] at hst
    have hpar : (s.address next).parent = some cur := by
      rcases hsrc with rfl | rfl
      all_goals
        simp only [expect] at hst
        split at hst
        · next e => exact e.2
        · cases hst
    exact (Option.filter_eq_some_iff.mp hpar).1
  cases site with
  | context => rfl
  | barrier => rfl
  | taskgroupEnd => rfl
  | taskwait =>
    simp only [siteAllows, Bool.and_eq_true, Bool.or_eq_true, decide_eq_true_eq] at ha
    exact (hchild ha.2).symm
  | dependWait =>
    simp only [siteAllows, Bool.and_eq_true, Bool.or_eq_true, decide_eq_true_eq] at ha
    exact (hchild ha.2).symm

theorem runPre_inOrder (h : InOrder w s) (hs : s.isSelectable next src = true)
    (ha : s.siteAllows site cur src = true) : InOrder w (s.gompTaskRunPre next (s.parentArg site cur next)) := by
  rw [parentArg_eq h.placed hs ha]
  exact ⟨gompTaskRunPre_placed h.placed hs,h.linked.sameTree (gompTaskRunPre_sameTree _ _)⟩

/-- The suspension of a running task. -/
theorem suspend_inOrder (h : InOrder w s) (hrun : s.isRunning t = true) (hult : s.ultVar = true)
    (hlock : lock = none ∨ (s.task t).taskwait = none)
    (hgroup : w.taskgroup → (s.task t).type = .untied → (s.task t).home = .listed →
      (s.task t).taskgroup = (s.task t).createdIn) : InOrder w (s.gompSuspendTaskForSuccessor thr t lock) := by
  obtain ⟨hlt,hfreed,hbusy,htarget,hk,hh⟩ := isRunning_iff.mp hrun
  have hsh := h.placed.shaped.task t
  by_cases himp : (s.task t).kind = .implicit
  · have hty := hsh.implicitTied (hsh.implicit.mpr himp)
    have hsame : s.gompSuspendTaskForSuccessor thr t lock = s := by
      simp [gompSuspendTaskForSuccessor, hty, gompSuspendTiedTaskForSuccessor, himp]
    rwa [hsame]
  · have hhome : (s.task t).home = .listed ∨ (s.task t).home = .stack :=
      (hh.resolve_left fun e => himp (hsh.implicit.mp e)).symm
    have hs : Suspendable s t lock := ⟨hlt,hult,hfreed,hbusy,htarget,hk.resolve_left himp,hhome,hlock⟩
    refine ⟨?_,h.linked.sameTree (gompSuspendTaskForSuccessor_sameTree thr lock ?_)⟩
    · unfold gompSuspendTaskForSuccessor
      cases hty : (s.task t).type with
      | tied => exact gompSuspendTied_placed h.placed hs thr hty
      | untied => exact gompSuspendUntied_placed h.placed hs thr hty fun hw => hgroup hw hty
    · exact hhome.imp id Or.inl

/-- The flag that a wait sets before its switch. -/
def markWait (s : TeamState) (site : Site) (cur : ℕ) : TeamState :=
  match site with
  | .taskwait => s.markTaskwait cur
  | .dependWait => s.markDependWait cur
  | .context | .barrier | .taskgroupEnd => s

theorem markWait_inOrder (h : InOrder w s) (hrun : s.isRunning t = true) (site : Site) :
    InOrder w (s.markWait site t) := by
  cases site with
  | taskwait => exact markTaskwait_inOrder h hrun
  | dependWait => exact markDependWait_inOrder h hrun
  | context => exact h
  | barrier => exact h
  | taskgroupEnd => exact h

theorem markWait_task (s : TeamState) (site : Site) (t : ℕ) :
    (s.markWait site t).task t = { s.task t with taskwait := ((s.markWait site t).task t).taskwait } ∧
    (site = .context → (s.markWait site t).task t = s.task t) ∧ (s.markWait site t).numTasks = s.numTasks ∧
    (s.markWait site t).ultVar = s.ultVar := by
  cases site <;> simp [markWait, markTaskwait, markDependWait, modifyWait]

theorem switch_eq (s : TeamState) (site : Site) (thr cur next : ℕ) (src : QRef) (lock : Option ℕ) :
    s.exec (.switch site thr cur next src lock) =
      ((s.gompTaskRunPre next (s.parentArg site cur next)).markWait site cur).gompSuspendTaskForSuccessor thr cur
        lock := by
  cases site <;> rfl

theorem switch_inOrder (h : InOrder w s) (he : s.enabled (.switch site thr cur next src lock) = true)
    (hgroup : w.taskgroup → (s.task cur).type = .untied → (s.task cur).home = .listed →
      (s.task cur).taskgroup = (s.task cur).createdIn) :
    InOrder w (s.exec (.switch site thr cur next src lock)) := by
  simp only [enabled, Bool.and_eq_true, Bool.or_eq_true, decide_eq_true_eq] at he
  obtain ⟨⟨⟨⟨⟨⟨⟨hult,hrun⟩,hsel⟩,hsite⟩,-⟩,-⟩,-⟩,hlock⟩ := he
  obtain ⟨-,-,-,-,hk,-⟩ := isRunning_iff.mp hrun
  have hne : cur ≠ next := by
    rintro rfl
    have hnot := running_kind hk
    rcases (isSelectable_iff.mp hsel).2.2.2.2 with e | ⟨e,-⟩
    · exact hnot.1 e
    · exact hnot.2 e
  rw [switch_eq]
  have h₁ := runPre_inOrder h hsel hsite
  have hcur := gompTaskRunPre_others (s := s) (u := cur) (t := next) hne (s.parentArg site cur next)
  have htree := gompTaskRunPre_sameTree (s := s) next (s.parentArg site cur next)
  generalize s.gompTaskRunPre next (s.parentArg site cur next) = s₁ at *
  have hrun₁ : s₁.isRunning cur = true := by rw [nudges_isRunning hcur htree.numTasks,hrun]
  obtain ⟨hm,hctx,hnum,hu⟩ := markWait_task s₁ site cur
  have h₂ := markWait_inOrder h₁ hrun₁ site
  generalize s₁.markWait site cur = s₂ at *
  have hrun₂ : s₂.isRunning cur = true := by
    unfold isRunning at hrun₁ ⊢
    rw [hm,hnum]
    exact hrun₁
  refine suspend_inOrder h₂ hrun₂ (by rw [hu,htree.ultVar,hult]) ?_ ?_
  · rcases hlock with hl | ⟨hs,hw⟩
    · exact Or.inl hl
    · right
      rw [hctx hs]
      exact hcur.2.1.mpr hw
  · rw [hm,hcur.1]
    exact hgroup

/-! ## Completions -/

theorem completable_sameTree (h : Completable w s c) (hr : SameTree s s') : Completable w s' c := by
  constructor
  · simp only [hr.dependers, hr.numDependees, hr.type]
    exact h.type
  · simp only [hr.dependers, hr.numDependees, hr.parent, hr.freed]
    exact h.parent
  · simp only [hr.home, hr.parent]
    exact h.unmet

theorem resumeContext_task (hu : u ≠ t) : (s.resumeContext t).task u = s.task u := by
  unfold resumeContext
  dsimp only
  split
  · simp [setRunning, hu]
  · rfl

theorem finish_inOrder (h : InOrder w s) (he : s.enabled (.finish site t c) = true) (hc : Completable w s c)
    (hlock : site = .context → w.locked → (s.task t).kind = .tiedSuspended → ∀ l, (s.task t).lockedTasks = some l →
      s.status (.locked l) t = some .ready) : InOrder w (s.exec (.finish site t c)) := by
  simp only [enabled, Bool.and_eq_true, decide_eq_true_eq] at he
  obtain ⟨⟨hret,hh⟩,hends⟩ := he
  obtain ⟨hlt,hfreed,-,hwait,hgroup,hk⟩ := hasReturned_iff.mp hret
  have hf : Finishing s c := ⟨hlt,hfreed,hk,hh,hgroup,hwait⟩
  have hcontext : t < s.numTasks ∧ t ≠ c := by
    simp only [endsIn, Bool.and_eq_true, decide_eq_true_eq] at hends
    exact ⟨hends.1.1.1,hends.1.2⟩
  simp only [exec]
  split
  case isTrue hs =>
    have htree := resumeContext_sameTree (s := s) t
    have h₁ : InOrder w (s.resumeContext t) :=
      ⟨resumeContext_placed h.placed hcontext.1 (hlock hs),h.linked.sameTree htree⟩
    have hself := resumeContext_task (s := s) hcontext.2.symm
    have hf₁ : Finishing (s.resumeContext t) c := by
      refine ⟨htree.numTasks ▸ hlt,?_,?_,?_,?_,?_⟩ <;> rw [hself] <;> assumption
    obtain ⟨h2,h3⟩ := gompTerminateTaskPre_placed h₁.placed h₁.linked hf₁ (completable_sameTree hc htree) site t
    exact ⟨h2,h3⟩
  case isFalse =>
    obtain ⟨h2,h3⟩ := gompTerminateTaskPre_placed h.placed h.linked hf hc site t
    exact ⟨h2,h3⟩

theorem cancelledTask_eq (h : Placed w s) (hh : (s.task next).home = .listed) : s.cancelledTask site next = next := by
  unfold cancelledTask
  split
  · rcases (h.shaped.task next).ancestor (by rw [hh]; decide) with e | ⟨e,-⟩ <;> simp [e]
  · rfl

theorem cancelled_inOrder (h : InOrder w s) (he : s.enabled (.cancelled site cur next src) = true)
    (hh : (s.task next).home = .listed) (hgroup : (s.task next).taskgroup = (s.task next).createdIn)
    (hwait : (s.task next).taskwait = none) (hc : Completable w s next) :
    InOrder w (s.exec (.cancelled site cur next src)) := by
  simp only [enabled, Bool.and_eq_true] at he
  obtain ⟨⟨-,hsel⟩,hsite⟩ := he
  obtain ⟨hlt,hfreed,-⟩ := isSelectable_iff.mp hsel
  have h₁ := runPre_inOrder h hsel hsite
  have htree := gompTaskRunPre_sameTree (s := s) next (s.parentArg site cur next)
  have hself : (s.gompTaskRunPre next (s.parentArg site cur next)).task next =
      { s.task next with kind := (s.task next).runKind } := (gompTaskRunPre_self _).2.2 hwait
  have hf : Finishing (s.gompTaskRunPre next (s.parentArg site cur next)) next := by
    refine ⟨htree.numTasks ▸ hlt,?_,?_,?_,?_,?_⟩ <;> rw [hself]
    · exact hfreed
    · simp only [Task.runKind]
      split <;> simp
    · exact hh
    · exact hgroup
    · exact hwait
  simp only [exec]
  rw [cancelledTask_eq h.placed hh]
  obtain ⟨h2,h3⟩ := gompTerminateTaskPre_placed h₁.placed h₁.linked hf (completable_sameTree hc htree) site cur
  exact ⟨h2,h3⟩

/-! ## The conditions of the events -/

/-- A task that completes makes only tasks of its own type ready. -/
def releasesOwn (s : TeamState) (c : ℕ) : Prop :=
  ∀ u ∈ (s.task c).dependers, (s.task u).numDependees = 1 → (s.task u).type = (s.task c).type

/-- The parent of a task that makes others ready is there. -/
def releasesToParent (s : TeamState) (c : ℕ) : Prop :=
  ∀ u ∈ (s.task c).dependers, (s.task u).numDependees = 1 → ∀ p ∈ (s.task c).parent, (s.task p).freed = false

/-- No child of the task waits for a dependence. -/
def childrenMet (s : TeamState) (c : ℕ) : Prop :=
  ∀ u < s.numTasks, (s.task u).home = .unmet → (s.task u).parent ≠ some c

/-- The task is in no taskgroup of its own. -/
def outsideGroups (s : TeamState) (t : ℕ) : Prop := (s.task t).taskgroup = (s.task t).createdIn

/-- The conditions on a completion.  The types are for the queues of the team, which are watched always; where the
children queues are watched the parents are there. -/
structure MayComplete (w : Watch) (s : TeamState) (c : ℕ) : Prop where
  type : s.releasesOwn c
  parent : w.children = false → s.releasesToParent c
  met : w.children = true → s.childrenMet c

/-- The conditions on a cancelled task that is terminated.  Where the taskgroup queues are watched a task that waits is
in no taskgroup of its own. -/
structure MayCancel (w : Watch) (s : TeamState) (next : ℕ) : Prop where
  home : (s.task next).home = .listed
  wait : (s.task next).taskwait = none
  group : (w.taskgroup = true → (s.task next).kind ≠ .waiting) → s.outsideGroups next
  complete : MayComplete w s next

/-- The task is still in the queue of the lock it was suspended for. -/
def stillLocked (s : TeamState) (t : ℕ) : Prop :=
  (s.task t).kind = .tiedSuspended → ∀ l ∈ (s.task t).lockedTasks, s.status (.locked l) t = some .ready

/-- The conditions under which an event keeps the watched queues in order. -/
def Good (w : Watch) (s : TeamState) : Event → Prop
  | .createWorkFirst _ p _ _ => w.taskgroup → (s.task p).home = .listed → s.outsideGroups p
  | .switch _ _ cur _ _ _ =>
    w.taskgroup → (s.task cur).type = .untied → (s.task cur).home = .listed → s.outsideGroups cur
  | .cancelled _ _ next _ => MayCancel w s next
  | .finish site x c => MayComplete w s c ∧ (site = .context → w.locked → s.stillLocked x)
  | .finishUndeferred t => w.children → s.childrenMet t
  | .targetCompletion t => w.counters → (s.task t).parent = none ∧ (s.task t).taskgroup = none
  | .create _ _ _ _ | .createUndeferred _ _ | .createForImplicit _ _ _ | .createTarget _ _ _ _ | .start _ _ _ _
  | .targetAsync _ | .taskwaitBlock _ | .taskwaitReturn _ | .dependWaitBegin _ _ | .dependWaitBlock _
  | .dependWaitReturn _ | .taskgroupStart _ | .taskgroupEnd _ _ | .unlock _ _ | .setUntiedBlock _ _ => True

instance (s : TeamState) (c : ℕ) : Decidable (s.releasesOwn c) := by
  unfold releasesOwn
  infer_instance

instance (s : TeamState) (c : ℕ) : Decidable (s.releasesToParent c) := by
  unfold releasesToParent
  infer_instance

instance (s : TeamState) (c : ℕ) : Decidable (s.childrenMet c) := by
  unfold childrenMet
  infer_instance

instance (s : TeamState) (t : ℕ) : Decidable (s.outsideGroups t) := by
  unfold outsideGroups
  infer_instance

instance (s : TeamState) (t : ℕ) : Decidable (s.stillLocked t) := by
  unfold stillLocked
  infer_instance

instance (w : Watch) (s : TeamState) (c : ℕ) : Decidable (MayComplete w s c) :=
  decidable_of_iff (s.releasesOwn c ∧ (w.children = false → s.releasesToParent c) ∧
    (w.children = true → s.childrenMet c)) ⟨fun h => ⟨h.1,h.2.1,h.2.2⟩,fun h => ⟨h.type,h.parent,h.met⟩⟩

instance (w : Watch) (s : TeamState) (t : ℕ) : Decidable (MayCancel w s t) :=
  decidable_of_iff ((s.task t).home = .listed ∧ (s.task t).taskwait = none ∧
      ((w.taskgroup = true → (s.task t).kind ≠ .waiting) → s.outsideGroups t) ∧ MayComplete w s t)
    ⟨fun h => ⟨h.1,h.2.1,h.2.2.1,h.2.2.2⟩,fun h => ⟨h.home,h.wait,h.group,h.complete⟩⟩

instance (w : Watch) (s : TeamState) (e : Event) : Decidable (Good w s e) := by
  cases e <;> unfold Good <;> infer_instance

theorem completable_of (h : Placed w s) (hheap : (s.task c).isHeap = true) (hc : MayComplete w s c) :
    Completable w s c where
  type := hc.type
  parent u hu hn p hp := by
    cases hw : w.children with
    | true => exact h.family hw c p hheap hp
    | false => exact hc.parent hw u hu hn p hp
  unmet hw u hu := hc.met hw u (h.shaped.lt_of_home (by rw [hu]; decide)) hu

theorem isListed_of_listed (hh : (s.task c).home = .listed) (hf : (s.task c).freed = false) :
    (s.task c).isListed = true := by
  simp [Task.isListed, hh, hf]

theorem isHeap_of_listed (hh : (s.task c).home = .listed) (hf : (s.task c).freed = false) :
    (s.task c).isHeap = true := by
  simp [Task.isHeap, hh, hf]

/-- One event. -/
theorem step_inOrder (h : InOrder w s) {e : Event} (hg : Good w s e) (hs : s.step e = some s') : InOrder w s' := by
  unfold step at hs
  split at hs
  case isFalse => cases hs
  case isTrue he =>
    obtain rfl := Option.some.inj hs
    cases e with
    | create p type d ds =>
      simp only [enabled, Bool.and_eq_true] at he
      exact gompTask_inOrder h (isRunning_iff.mp (isActive_iff.mp he.1.1).1).2.1 (siblings_of he.1.2) type d
    | createWorkFirst thr p type d =>
      simp only [enabled, Bool.and_eq_true, decide_eq_true_eq] at he
      exact gompTaskWorkFirst_inOrder h he.1.1 he.1.2 he.2 thr type d hg
    | createUndeferred p type =>
      simp only [enabled, Bool.and_eq_true] at he
      exact gompTaskUndeferred_inOrder h he.1.1 type
    | createForImplicit p d ds =>
      simp only [enabled, Bool.and_eq_true] at he
      exact gompSuspendImplicitForUndeferred_inOrder h (isRunning_iff.mp (isActive_iff.mp he.1.1.1.2).1).2.1
        (siblings_of he.1.2) d
    | createTarget p d ds atOnce =>
      simp only [enabled, Bool.and_eq_true] at he
      exact gompCreateTargetTask_inOrder h (isRunning_iff.mp (isActive_iff.mp he.1.1).1).2.1 (siblings_of he.1.2) d
        atOnce
    | start site cur next src =>
      simp only [enabled, Bool.and_eq_true] at he
      exact runPre_inOrder h he.1.1.1.1.2 he.1.1.1.2
    | switch site thr cur next src lock => exact switch_inOrder h he hg
    | cancelled site cur next src =>
      have hsel := he
      simp only [enabled, Bool.and_eq_true] at hsel
      have hfreed := (isSelectable_iff.mp hsel.1.2).2.1
      have hheap := isHeap_of_listed hg.home hfreed
      refine cancelled_inOrder h he hg.home ?_ hg.wait (completable_of h.placed hheap hg.complete)
      by_cases hk : w.taskgroup = true ∧ (s.task next).kind = .waiting
      · exact h.placed.regrouped hk.1 next (isListed_of_listed hg.home hfreed) hk.2
      · exact hg.group fun hw hwait => hk ⟨hw,hwait⟩
    | finish site x c =>
      obtain ⟨hcomplete,hlock⟩ := hg
      have hret := he
      simp only [enabled, Bool.and_eq_true, decide_eq_true_eq] at hret
      have hheap := isHeap_of_listed hret.1.2 (hasReturned_iff.mp hret.1.1).2.1
      exact finish_inOrder h he (completable_of h.placed hheap hcomplete) hlock
    | finishUndeferred t =>
      simp only [enabled, Bool.and_eq_true, decide_eq_true_eq] at he
      refine gompEndTask_inOrder h he.1 he.2 fun hw u hu => ?_
      exact hg hw u (h.placed.shaped.lt_of_home (by rw [hu]; decide)) hu
    | targetAsync t =>
      simp only [enabled, Bool.and_eq_true, decide_eq_true_eq, Bool.not_eq_true'] at he
      exact targetAsync_inOrder h he.1.1.1 he.1.1.2 he.1.2 he.2
    | targetCompletion t =>
      simp only [enabled, Bool.and_eq_true, decide_eq_true_eq, Bool.not_eq_true'] at he
      obtain ⟨⟨hlt,hfreed⟩,hk⟩ := he
      have hsh := h.placed.shaped.task t
      refine ⟨gompTargetTaskCompletion_placed h.placed hk hfreed hg hlt,
        h.linked.sameTree (gompTargetTaskCompletion_sameTree ?_)⟩
      exact target_home hsh (hsh.async hk) (by rw [hk]; decide)
    | taskwaitBlock t =>
      simp only [enabled, Bool.and_eq_true] at he
      exact markTaskwait_inOrder h he.1
    | taskwaitReturn t =>
      simp only [enabled, Bool.and_eq_true] at he
      simp only [exec]
      split
      · exact returnFromWait_inOrder h he.1
      · exact h
    | dependWaitBegin t ms =>
      simp only [enabled, Bool.and_eq_true] at he
      exact beginDependWait_inOrder h (isActive_iff.mp he.1.1.1).1 (siblings_of he.1.1.2)
    | dependWaitBlock t =>
      simp only [enabled, Bool.and_eq_true] at he
      exact markDependWait_inOrder h he.1
    | dependWaitReturn t =>
      simp only [enabled, Bool.and_eq_true] at he
      exact returnFromWait_inOrder h he.1
    | taskgroupStart t => exact gompTaskgroupStart_inOrder h (isActive_iff.mp he).1
    | taskgroupEnd t g =>
      simp only [enabled, Bool.and_eq_true] at he
      exact gompTaskgroupEnd_inOrder h (isActive_iff.mp he.1.1.1.1).1 g
    | unlock lock t =>
      simp only [enabled, decide_eq_true_eq] at he
      exact ⟨gompTaskHandleLocking_placed h.placed he,h.linked.sameTree (gompTaskHandleLocking_sameTree lock t)⟩
    | setUntiedBlock t value => exact setUntiedBlock_inOrder h (isActive_iff.mp he).1 value

theorem init_inOrder (w : Watch) (ult : Bool) (n : ℕ) : InOrder w (TeamState.init ult n) := by
  refine ⟨⟨Shaped.init ult n,fun t q => ?_,fun q _ => ⟨rfl,fun _ => rfl⟩,rfl,fun _ t p hh => ?_,fun _ t hl => ?_⟩,
    Linked.init ult n⟩
  · have hview : ((TeamState.init ult n).task t).view = {} := Task.view_unmet (Or.inr rfl)
    rw [hview,expect_empty]
    rfl
  · simp [TeamState.init, Task.isHeap] at hh
  · simp [TeamState.init, Task.isListed] at hl

/-- Every run whose events meet the conditions. -/
theorem run_inOrder {ult : Bool} {n : ℕ} {es : List Event}
    (hg : Run.Along step (Good w) (TeamState.init ult n) es) (hr : Run.run step (TeamState.init ult n) es = some s) :
    InOrder w s :=
  Run.run_invariant (fun _ _ _ hi hc hs => step_inOrder hi hc hs) (init_inOrder w ult n) hg hr

end TeamState

end GompUlt.Team
