import GompUlt.Team.Frames

/-! # What scheduling leaves alone

The fields that say where a task stands among the others change when tasks are created and
when they end.  Everything in between, the starts, switches, waits and releases of locks,
keeps them, and keeps the members of every children queue.
-/
namespace GompUlt.Team
open Queue

/-- The fields of a task that scheduling does not change. -/
structure Lineage where
  parent : Option ℕ
  undeferredAncestor : Option ℕ
  type : TaskType
  hasDepend : Bool
  numDependees : ℕ
  dependers : List ℕ
  isTarget : Bool
  home : Home
  dependees : List ℕ
  createdIn : Option ℕ
  busy : Bool
  freed : Bool

def Task.lineage (x : Task) : Lineage where
  parent := x.parent
  undeferredAncestor := x.undeferredAncestor
  type := x.type
  hasDepend := x.hasDepend
  numDependees := x.numDependees
  dependers := x.dependers
  isTarget := x.isTarget
  home := x.home
  dependees := x.dependees
  createdIn := x.createdIn
  busy := x.busy
  freed := x.freed

namespace TeamState

/-- The second state has the same family of tasks: a task that has entered a queue had started. -/
structure SameTree (s s' : TeamState) : Prop where
  numTasks : s'.numTasks = s.numTasks
  ultVar : s'.ultVar = s.ultVar
  task : ∀ t, (s'.task t).lineage = (s.task t).lineage
  member : ∀ type p t, (s'.status (.children type p) t).isSome = (s.status (.children type p) t).isSome
  entered : ∀ q t, s'.status q t ≠ none →
    s.status q t ≠ none ∨ (s.task t).home = .listed ∨ (s.task t).home = .stack

variable {s s' s'' : TeamState} {t u : ℕ} {f : Task → Task} {q : QRef} {c : Call}

namespace SameTree

theorem refl (s : TeamState) : SameTree s s := ⟨rfl,rfl,fun _ => rfl,fun _ _ _ => rfl,fun _ _ h => .inl h⟩

section Fields
variable (h : SameTree s s') (t : ℕ)
include h

theorem parent : (s'.task t).parent = (s.task t).parent := congrArg Lineage.parent (h.task t)
theorem undeferredAncestor : (s'.task t).undeferredAncestor = (s.task t).undeferredAncestor :=
  congrArg Lineage.undeferredAncestor (h.task t)
theorem type : (s'.task t).type = (s.task t).type := congrArg Lineage.type (h.task t)
theorem hasDepend : (s'.task t).hasDepend = (s.task t).hasDepend := congrArg Lineage.hasDepend (h.task t)
theorem numDependees : (s'.task t).numDependees = (s.task t).numDependees :=
  congrArg Lineage.numDependees (h.task t)
theorem dependers : (s'.task t).dependers = (s.task t).dependers := congrArg Lineage.dependers (h.task t)
theorem isTarget : (s'.task t).isTarget = (s.task t).isTarget := congrArg Lineage.isTarget (h.task t)
theorem home : (s'.task t).home = (s.task t).home := congrArg Lineage.home (h.task t)
theorem dependees : (s'.task t).dependees = (s.task t).dependees := congrArg Lineage.dependees (h.task t)
theorem createdIn : (s'.task t).createdIn = (s.task t).createdIn := congrArg Lineage.createdIn (h.task t)
theorem busy : (s'.task t).busy = (s.task t).busy := congrArg Lineage.busy (h.task t)
theorem freed : (s'.task t).freed = (s.task t).freed := congrArg Lineage.freed (h.task t)

end Fields

theorem trans (h : SameTree s s') (h' : SameTree s' s'') : SameTree s s'' where
  numTasks := h'.numTasks.trans h.numTasks
  ultVar := h'.ultVar.trans h.ultVar
  task t := (h'.task t).trans (h.task t)
  member type p t := (h'.member type p t).trans (h.member type p t)
  entered q t hq := by
    rcases h'.entered q t hq with hq | hh
    · exact h.entered q t hq
    · rw [h.home t] at hh
      exact .inr hh

/-- One of two ways. -/
theorem ite {P : Prop} [Decidable P] (h : SameTree s s') (h' : SameTree s s'') :
    SameTree s (if P then s' else s'') := by
  split
  · exact h
  · exact h'

theorem modify (t : ℕ) (hf : ∀ x, (f x).lineage = x.lineage) : SameTree s (s.modify t f) where
  numTasks := rfl
  ultVar := rfl
  task u := by
    by_cases e : u = t
    · subst e
      simp [hf]
    · simp [e]
  member _ _ _ := rfl
  entered _ _ hq := .inl hq

theorem modifyWait (t : ℕ) (f : Taskwait → Taskwait) : SameTree s (s.modifyWait t f) :=
  modify t fun _ => rfl

theorem addQueued (d : ℤ) : SameTree s (s.addQueued d) :=
  ⟨rfl,rfl,fun _ => rfl,fun _ _ _ => rfl,fun _ _ h => .inl h⟩

theorem addCount (d : ℤ) : SameTree s (s.addCount d) :=
  ⟨rfl,rfl,fun _ => rfl,fun _ _ _ => rfl,fun _ _ h => .inl h⟩

/-- A call that keeps the members, on any queue. -/
theorem call (hk : c.keeps = true) (q : QRef) (t : ℕ) : SameTree s (s.call q c t) where
  numTasks := rfl
  ultVar := rfl
  task _ := rfl
  member type p u := call_member hk _ u
  entered q' u hq := by
    left
    have := call_member (s := s) (q := q) (t := t) hk q' u
    rw [Option.ne_none_iff_isSome] at hq ⊢
    exact this ▸ hq

theorem callOpt (hk : c.keeps = true) (oq : Option QRef) (t : ℕ) : SameTree s (s.callOpt oq c t) := by
  cases oq with
  | none => exact refl s
  | some q => exact call hk q t

theorem callFamily (hk : c.keeps = true) (type : TaskType) (p g : Option ℕ) (t : ℕ) :
    SameTree s (s.callFamily type p g c t) := (callOpt hk _ t).trans (callOpt hk _ t)

/-- An insertion of a started task, or any removal, away from the children queues. -/
theorem callPlain (hq : q.plain = true) (h : (∃ b, c = .remove b) ∨ (s.task t).home = .listed ∨ (s.task t).home = .stack) :
    SameTree s (s.call q c t) where
  numTasks := rfl
  ultVar := rfl
  task _ := rfl
  member type p u := by
    have hne : QRef.children type p ≠ q := by
      rintro rfl
      cases hq
    simp [call_status, hne]
  entered q' u hs := by
    rw [call_status] at hs
    split at hs
    · next he =>
      obtain ⟨rfl,rfl⟩ := he
      rcases h with ⟨b,rfl⟩ | h
      · left
        intro hn
        exact hs (by simp [Call.result, Call.target, hn])
      · exact .inr h
    · exact .inl hs

theorem callOptPlain {oq : Option QRef} (hq : ∀ q, oq = some q → q.plain = true)
    (h : (∃ b, c = .remove b) ∨ (s.task t).home = .listed ∨ (s.task t).home = .stack) :
    SameTree s (s.callOpt oq c t) := by
  cases oq with
  | none => exact refl s
  | some q => exact callPlain (hq q rfl) h

theorem callSuspended (type : TaskType) (thread : Option ℕ)
    (h : (∃ b, c = .remove b) ∨ (s.task t).home = .listed ∨ (s.task t).home = .stack) :
    SameTree s (s.callSuspended type thread c t) := by
  refine callOptPlain (fun q hq => ?_) h
  obtain ⟨_,_,rfl⟩ := Option.map_eq_some_iff.mp hq
  rfl

theorem callSuspendedKeeps (hk : c.keeps = true) (type : TaskType) (thread : Option ℕ) :
    SameTree s (s.callSuspended type thread c t) := callOpt hk _ t

end SameTree

theorem Reblocked.sameTree (h : Reblocked s s') : SameTree s s' where
  numTasks := h.numTasks
  ultVar := h.ultVar
  task t := by
    rw [(h.task t).1]
    rfl
  member _ _ t := h.member _ t
  entered q t hq := by
    left
    rw [Option.ne_none_iff_isSome] at hq ⊢
    exact h.member q t ▸ hq

theorem inDependWait_taskwait {x : Task} (h : x.inDependWait = true) : x.taskwait ≠ none := by
  intro hn
  simp [Task.inDependWait, hn] at h

theorem notifyParent_sameTree (p : ℕ) : SameTree s (s.notifyParent p) := by
  unfold notifyParent
  split
  · next h =>
    split
    · exact (gompTaskHandleBlocking_reblocked (inTaskwait_taskwait h)).sameTree
    · exact .modifyWait _ _
  · split
    · next h =>
      split
      · exact (gompTaskHandleBlocking_reblocked (inDependWait_taskwait h)).sameTree
      · exact .modifyWait _ _
    · exact .refl s

theorem handleParent_sameTree (p : Option ℕ) : SameTree s (s.handleParent p) := (handleParent_reblocked p).sameTree

theorem setRunning_sameTree (t : ℕ) : SameTree s (s.setRunning t) := .modify t fun _ => rfl

theorem setSuspended_sameTree (thr t : ℕ) (b : Bool) (k : TaskKind) (l : Option ℕ) :
    SameTree s (s.setSuspended thr t b k l) := .modify t fun _ => rfl

theorem leaveQueues_sameTree (t : ℕ) (p : Option ℕ) : SameTree s (s.leaveQueues t p) := by
  unfold leaveQueues
  dsimp only
  refine SameTree.trans ?_ (.callPlain rfl (.inl ⟨_,rfl⟩))
  refine SameTree.trans ?_ (.ite (.callSuspended _ _ (.inl ⟨_,rfl⟩)) (.refl _))
  exact .ite (.callFamily (by rfl) _ _ _ _) (.refl s)

theorem gompTaskRunPre_sameTree (t : ℕ) (p : Option ℕ) : SameTree s (s.gompTaskRunPre t p) := by
  unfold gompTaskRunPre
  apply SameTree.ite
  · exact (SameTree.callSuspended _ _ (.inl ⟨_,rfl⟩)).trans (.modify t fun _ => rfl)
  · have hrun := ((leaveQueues_sameTree (s := s) t p).trans (setRunning_sameTree t)).trans (.addQueued (-1))
    exact .ite (hrun.trans (handleParent_sameTree p)) hrun

section Suspension
variable (thr : ℕ) (lock : Option ℕ) (h : (s.task t).home = .listed ∨ (s.task t).home = .stack)
include h

theorem enterLocked_sameTree (enter : Bool) : SameTree s (s.enterLocked t enter lock) := by
  refine .ite (.callOptPlain (fun q hq => ?_) (.inr h)) (.refl s)
  obtain ⟨_,_,rfl⟩ := Option.map_eq_some_iff.mp hq
  rfl

theorem enterQueues_sameTree (b : Bool) : SameTree s (s.enterQueues thr t b) := by
  unfold enterQueues
  dsimp only
  have hfam := SameTree.ite (P := (s.task t).kind ≠ .undeferred)
    (.callFamily (s := s) (c := if b then .block (s.task t).kind else .adjust) (by cases b <;> rfl) .untied
      (s.task t).parent (s.task t).taskgroup t) (.refl s)
  have hsusp := hfam.trans (.callPlain (q := .suspended .untied thr) (c := .insert b) (t := t) rfl
    (.inr (by rw [hfam.home t]; exact h)))
  exact hsusp.trans (.callPlain rfl (.inr (by rw [hsusp.home t]; exact h)))

theorem gompSuspendTiedTaskForSuccessor_sameTree : SameTree s (s.gompSuspendTiedTaskForSuccessor thr t lock) := by
  unfold gompSuspendTiedTaskForSuccessor
  apply SameTree.ite (.refl s)
  have hlock := enterLocked_sameTree lock h (!((s.task t).inTaskwait && s.isBlockedTied t))
  exact (hlock.trans (.callPlain rfl (.inr (by rw [hlock.home t]; exact h)))).trans (.modify t fun _ => rfl)

theorem gompSuspendUntiedTaskForSuccessor_sameTree :
    SameTree s (s.gompSuspendUntiedTaskForSuccessor thr t lock) := by
  unfold gompSuspendUntiedTaskForSuccessor
  dsimp only
  have hlock := enterLocked_sameTree lock h (!((s.task t).inTaskwait && s.isBlockedUntied t))
  have hsusp := (hlock.trans (enterQueues_sameTree thr (by rw [hlock.home t]; exact h)
    ((s.task t).inTaskwait && s.isBlockedUntied t || lock.isSome))).trans (setSuspended_sameTree thr t
      ((s.task t).inTaskwait && s.isBlockedUntied t || lock.isSome) .waiting lock)
  exact .ite hsusp (hsusp.trans ((SameTree.addQueued 1).trans (handleParent_sameTree _)))

end Suspension

theorem gompSuspendTaskForSuccessor_sameTree (thr : ℕ) (lock : Option ℕ)
    (h : (s.task t).home = .listed ∨ (s.task t).home = .stack ∨ (s.task t).kind = .implicit ∧ (s.task t).type = .tied) :
    SameTree s (s.gompSuspendTaskForSuccessor thr t lock) := by
  unfold gompSuspendTaskForSuccessor
  rcases or_assoc.mpr h with h | ⟨hk,ht⟩
  · cases (s.task t).type with
    | tied => exact gompSuspendTiedTaskForSuccessor_sameTree thr lock h
    | untied => exact gompSuspendUntiedTaskForSuccessor_sameTree thr lock h
  · simpa [ht, gompSuspendTiedTaskForSuccessor, hk] using SameTree.refl s

theorem resumeContext_sameTree (t : ℕ) : SameTree s (s.resumeContext t) := by
  unfold resumeContext
  refine .ite ((SameTree.callOptPlain (fun q hq => ?_) (.inl ⟨_,rfl⟩)).trans
      ((SameTree.callSuspended _ _ (.inl ⟨_,rfl⟩)).trans (.modify t fun _ => rfl))) (.refl s)
  obtain ⟨_,_,rfl⟩ := Option.map_eq_some_iff.mp hq
  rfl

theorem setBlockedTied_sameTree (t : ℕ) (b : Bool) : SameTree s (s.setBlockedTied t b) := by
  have hk : (if b then Call.block (s.task t).kind else .unblock).keeps = true := by cases b <;> rfl
  unfold setBlockedTied
  refine SameTree.trans ?_ (.callSuspendedKeeps hk _ _)
  exact .modify t fun _ => rfl

theorem setBlockedUntied_sameTree (t : ℕ) (b : Bool) : SameTree s (s.setBlockedUntied t b) := by
  have hk : (if b then Call.block (s.task t).kind else .unblock).keeps = true := by cases b <;> rfl
  unfold setBlockedUntied
  dsimp only
  refine SameTree.trans ?_ (.addQueued _)
  refine SameTree.trans ?_ (.callSuspendedKeeps hk _ _)
  refine SameTree.trans ?_ (.modify t fun _ => rfl)
  exact SameTree.trans (.ite (.callFamily hk _ _ _ _) (.refl s)) (.call hk _ _)

theorem gompTaskHandleLocking_sameTree (lock t : ℕ) : SameTree s (s.gompTaskHandleLocking lock t) := by
  unfold gompTaskHandleLocking
  dsimp only
  have hpop : SameTree s (s.call (.locked lock) (.remove false) t) := .callPlain rfl (.inl ⟨_,rfl⟩)
  cases (s.task t).type with
  | tied => exact hpop.trans (setBlockedTied_sameTree t false)
  | untied => exact hpop.trans ((setBlockedUntied_sameTree t false).trans (handleParent_sameTree _))

theorem awaitChild_sameTree (t u : ℕ) : SameTree s (awaitChild t s u) := by
  unfold awaitChild
  dsimp only
  have h₁ : SameTree s (s.modify u fun x => { x with parentDependsOn := true }) := .modify u fun _ => rfl
  split
  · exact h₁.trans (.call rfl _ u)
  · exact h₁

theorem gompTargetTaskCompletion_sameTree (h : (s.task t).home = .listed) :
    SameTree s (s.gompTargetTaskCompletion t) := by
  unfold gompTargetTaskCompletion
  dsimp only
  have h₁ : SameTree s (s.callFamily (s.task t).type (s.task t).parent (s.task t).taskgroup
      (.moveFirst (s.task t).isBlocked) t) := .callFamily rfl _ _ _ _
  have h₂ := (h₁.trans (.callPlain (q := .team (s.task t).type) (c := .insert (s.task t).isBlocked) (t := t) rfl
    (.inr (.inl (by rw [h₁.home t]; exact h))))).trans
    (.modify (f := fun x => { x with kind := .waiting }) t fun _ => rfl)
  refine SameTree.trans ?_ (.addQueued 1)
  refine h₂.trans ?_
  split
  · exact .refl _
  · next p _ => exact notifyParent_sameTree p

end TeamState

end GompUlt.Team
