import GompUlt.Team.TeamStep

/-! # What the small operations leave alone

The fields and the queue memberships after a change of one task, a call on one queue, and
gomp_task_handle_blocking, which changes nothing but is_blocked and the zones.
-/
namespace GompUlt.Team
open Queue

/-- The calls after which the members are the same. -/
def Call.keeps : Call → Bool
  | insert _ | insertRunning | remove _ => false
  | adjust | block _ | unblock | upgrade | downgrade | moveFirst _ => true

theorem Call.result_isSome {c : Call} (hk : c.keeps = true) (plain : Bool) (z : Option Zone) :
    (c.result plain z).isSome = z.isSome := by
  unfold Call.result
  split
  · next h => cases c <;> cases z <;> simp_all [Call.keeps, Call.target, Call.allowed]; split <;> rfl
  · rfl

namespace TeamState

variable {s s' s'' : TeamState} {t u : ℕ} {f : Task → Task} {q q' : QRef} {c : Call}

section Modify

@[simp] theorem modify_task (u : ℕ) : (s.modify t f).task u = if u = t then f (s.task t) else s.task u := by
  simp [modify, Function.update_apply]

theorem modify_self (hf : f (s.task t) = s.task t) : s.modify t f = s := by
  unfold modify
  rw [hf,Function.update_eq_self]

@[simp] theorem modify_queue : (s.modify t f).queue = s.queue := rfl
@[simp] theorem modify_status : (s.modify t f).status q u = s.status q u := rfl
@[simp] theorem modify_numTasks : (s.modify t f).numTasks = s.numTasks := rfl
@[simp] theorem modify_ultVar : (s.modify t f).ultVar = s.ultVar := rfl
@[simp] theorem modify_group : (s.modify t f).group = s.group := rfl

end Modify

section Count
variable {d : ℤ}

@[simp] theorem addCount_task : (s.addCount d).task = s.task := rfl
@[simp] theorem addCount_queue : (s.addCount d).queue = s.queue := rfl
@[simp] theorem addCount_status : (s.addCount d).status q u = s.status q u := rfl
@[simp] theorem addCount_numTasks : (s.addCount d).numTasks = s.numTasks := rfl
@[simp] theorem addCount_ultVar : (s.addCount d).ultVar = s.ultVar := rfl
@[simp] theorem addQueued_task : (s.addQueued d).task = s.task := rfl
@[simp] theorem addQueued_queue : (s.addQueued d).queue = s.queue := rfl
@[simp] theorem addQueued_status : (s.addQueued d).status q u = s.status q u := rfl
@[simp] theorem addQueued_numTasks : (s.addQueued d).numTasks = s.numTasks := rfl
@[simp] theorem addQueued_ultVar : (s.addQueued d).ultVar = s.ultVar := rfl

end Count

section Calls
variable {oq : Option QRef} {type : TaskType} {p g : Option ℕ}

@[simp] theorem call_task : (s.call q c t).task = s.task := rfl
@[simp] theorem call_numTasks : (s.call q c t).numTasks = s.numTasks := rfl
@[simp] theorem call_ultVar : (s.call q c t).ultVar = s.ultVar := rfl

theorem call_status (q' : QRef) (u : ℕ) :
    (s.call q c t).status q' u = if q' = q ∧ u = t then c.result q.plain (s.status q t) else s.status q' u := by
  by_cases hq : q' = q
  · subst hq
    by_cases hu : u = t <;> simp [status, call, hu]
  · simp [status, call, hq]

@[simp] theorem callOpt_task : (s.callOpt oq c t).task = s.task := by cases oq <;> rfl
@[simp] theorem callOpt_numTasks : (s.callOpt oq c t).numTasks = s.numTasks := by cases oq <;> rfl
@[simp] theorem callOpt_ultVar : (s.callOpt oq c t).ultVar = s.ultVar := by cases oq <;> rfl

theorem callOpt_status (q' : QRef) (u : ℕ) :
    (s.callOpt oq c t).status q' u =
      if oq = some q' ∧ u = t then c.result q'.plain (s.status q' t) else s.status q' u := by
  cases oq with
  | none => simp [callOpt]
  | some q =>
    by_cases hq : q' = q
    · subst hq
      simp [callOpt, call_status]
    · simp [callOpt, call_status, hq, Ne.symm hq]

@[simp] theorem callFamily_task : (s.callFamily type p g c t).task = s.task := by simp [callFamily]
@[simp] theorem callFamily_numTasks : (s.callFamily type p g c t).numTasks = s.numTasks := by simp [callFamily]
@[simp] theorem callFamily_ultVar : (s.callFamily type p g c t).ultVar = s.ultVar := by simp [callFamily]
@[simp] theorem callSuspended_task : (s.callSuspended type p c t).task = s.task := by simp [callSuspended]
@[simp] theorem callSuspended_numTasks : (s.callSuspended type p c t).numTasks = s.numTasks := by simp [callSuspended]
@[simp] theorem callSuspended_ultVar : (s.callSuspended type p c t).ultVar = s.ultVar := by simp [callSuspended]

theorem call_member (hk : c.keeps = true) (q' : QRef) (u : ℕ) :
    ((s.call q c t).status q' u).isSome = (s.status q' u).isSome := by
  rw [call_status]
  split
  · next h => rw [h.1, h.2, Call.result_isSome hk]
  · rfl

theorem callOpt_member (hk : c.keeps = true) (q' : QRef) (u : ℕ) :
    ((s.callOpt oq c t).status q' u).isSome = (s.status q' u).isSome := by
  cases oq with
  | none => rfl
  | some q => exact call_member hk q' u

theorem callFamily_member (hk : c.keeps = true) (q' : QRef) (u : ℕ) :
    ((s.callFamily type p g c t).status q' u).isSome = (s.status q' u).isSome := by
  rw [callFamily, callOpt_member hk, callOpt_member hk]

theorem callFamily_status (q' : QRef) (u : ℕ) :
    (s.callFamily type p g c t).status q' u =
      if u = t ∧ (p.map (.children type) = some q' ∨ g.map (.taskgroup type) = some q') then
        c.result q'.plain (s.status q' t)
      else s.status q' u := by
  have hne : ∀ a b, p.map (QRef.children type) = some a → g.map (QRef.taskgroup type) = some b → a ≠ b := by
    rintro a b ha hb rfl
    obtain ⟨_,_,rfl⟩ := Option.map_eq_some_iff.mp ha
    obtain ⟨_,_,he⟩ := Option.map_eq_some_iff.mp hb
    cases he
  rw [callFamily, callOpt_status, callOpt_status, callOpt_status]
  by_cases hu : u = t
  · subst hu
    by_cases hg : g.map (QRef.taskgroup type) = some q'
    · by_cases hp : p.map (QRef.children type) = some q'
      · exact absurd rfl (hne _ _ hp hg)
      · simp [hg, hp]
    · simp [hg]
  · simp [hu]

theorem callSuspended_member (hk : c.keeps = true) (q' : QRef) (u : ℕ) :
    ((s.callSuspended type p c t).status q' u).isSome = (s.status q' u).isSome := callOpt_member hk q' u

theorem call_queue_of_ne (hq : q' ≠ q) : (s.call q c t).queue q' = s.queue q' := Function.update_of_ne hq _ _

@[simp] theorem callFamily_locked (l : ℕ) :
    (s.callFamily type p g c t).queue (.locked l) = s.queue (.locked l) := by
  cases p <;> cases g <;> simp [callFamily, callOpt, call_queue_of_ne]

@[simp] theorem callSuspended_locked (l : ℕ) :
    (s.callSuspended type p c t).queue (.locked l) = s.queue (.locked l) := by
  cases p <;> simp [callSuspended, callOpt, call_queue_of_ne]

@[simp] theorem call_group : (s.call q c t).group = s.group := rfl
@[simp] theorem callOpt_group : (s.callOpt oq c t).group = s.group := by cases oq <;> rfl
@[simp] theorem callFamily_group : (s.callFamily type p g c t).group = s.group := by simp [callFamily]
@[simp] theorem callSuspended_group : (s.callSuspended type p c t).group = s.group := by simp [callSuspended]
@[simp] theorem call_numGroups : (s.call q c t).numGroups = s.numGroups := rfl
@[simp] theorem callOpt_numGroups : (s.callOpt oq c t).numGroups = s.numGroups := by cases oq <;> rfl
@[simp] theorem callFamily_numGroups : (s.callFamily type p g c t).numGroups = s.numGroups := by simp [callFamily]
@[simp] theorem callSuspended_numGroups : (s.callSuspended type p c t).numGroups = s.numGroups := by
  simp [callSuspended]
@[simp] theorem call_taskCount : (s.call q c t).taskCount = s.taskCount := rfl
@[simp] theorem callOpt_taskCount : (s.callOpt oq c t).taskCount = s.taskCount := by cases oq <;> rfl
@[simp] theorem callFamily_taskCount : (s.callFamily type p g c t).taskCount = s.taskCount := by simp [callFamily]
@[simp] theorem callSuspended_taskCount : (s.callSuspended type p c t).taskCount = s.taskCount := by
  simp [callSuspended]

end Calls

section Blocking

/-- A task after gomp_task_handle_blocking: only a task that is suspended in a wait changes. -/
def Reblocks (x x' : Task) : Prop :=
  x' = { x with isBlocked := x'.isBlocked } ∧ (x'.isBlocked ≠ x.isBlocked → x.taskwait ≠ none ∧
    (x.kind = .tiedSuspended ∧ x.type = .tied ∨ x.kind = .waiting ∧ x.type = .untied))

/-- What gomp_task_handle_blocking leaves alone. -/
structure Reblocked (s s' : TeamState) : Prop where
  task : ∀ u, Reblocks (s.task u) (s'.task u)
  numTasks : s'.numTasks = s.numTasks
  ultVar : s'.ultVar = s.ultVar
  group : s'.group = s.group
  numGroups : s'.numGroups = s.numGroups
  taskCount : s'.taskCount = s.taskCount
  member : ∀ q u, (s'.status q u).isSome = (s.status q u).isSome
  locked : ∀ l, s'.queue (.locked l) = s.queue (.locked l)

theorem Reblocks.refl (x : Task) : Reblocks x x := ⟨rfl,fun h => absurd rfl h⟩

theorem Reblocked.refl (s : TeamState) : Reblocked s s :=
  ⟨fun _ => .refl _,rfl,rfl,rfl,rfl,rfl,fun _ _ => rfl,fun _ => rfl⟩

theorem Reblocks.trans {x x' x'' : Task} (h : Reblocks x x') (h' : Reblocks x' x'') : Reblocks x x'' := by
  obtain ⟨he,hb⟩ := h
  obtain ⟨he',hb'⟩ := h'
  refine ⟨?_,fun hne => ?_⟩
  · rw [he', he]
  · by_cases hx : x'.isBlocked = x.isBlocked
    · have := hb' (hx ▸ hne)
      rw [he] at this
      exact this
    · exact hb hx

theorem Reblocked.trans (h : Reblocked s s') (h' : Reblocked s' s'') : Reblocked s s'' where
  task u := (h.task u).trans (h'.task u)
  numTasks := h'.numTasks.trans h.numTasks
  ultVar := h'.ultVar.trans h.ultVar
  group := h'.group.trans h.group
  numGroups := h'.numGroups.trans h.numGroups
  taskCount := h'.taskCount.trans h.taskCount
  member q u := (h'.member q u).trans (h.member q u)
  locked l := (h'.locked l).trans (h.locked l)

theorem setBlockedTied_reblocked {b : Bool} (hw : (s.task t).taskwait ≠ none) (hk : (s.task t).kind = .tiedSuspended)
    (ht : (s.task t).type = .tied) : Reblocked s (s.setBlockedTied t b) := by
  have hkeep : (if b then Call.block (s.task t).kind else .unblock).keeps = true := by cases b <;> rfl
  refine ⟨fun u => ?_,by simp [setBlockedTied],by simp [setBlockedTied],by simp [setBlockedTied],
    by simp [setBlockedTied]; rfl,by simp [setBlockedTied]; rfl,fun q u => ?_,by simp [setBlockedTied]⟩
  · by_cases hu : u = t
    · subst hu
      simp [setBlockedTied, Reblocks, hw, hk, ht]
    · simpa [setBlockedTied, hu] using Reblocks.refl _
  · rw [setBlockedTied, callSuspended_member hkeep, modify_status]

theorem setBlockedUntied_reblocked {b : Bool} (hw : (s.task t).taskwait ≠ none) (hk : (s.task t).kind = .waiting)
    (ht : (s.task t).type = .untied) : Reblocked s (s.setBlockedUntied t b) := by
  have hkeep : (if b then Call.block (s.task t).kind else .unblock).keeps = true := by cases b <;> rfl
  refine ⟨fun u => ?_,?_,?_,?_,?_,?_,fun q u => ?_,fun l => ?_⟩
  · by_cases hu : u = t
    · subst hu
      by_cases ha : (s.task u).undeferredAncestor = none <;> simp [setBlockedUntied, Reblocks, hw, hk, ht, ha]
    · by_cases ha : (s.task t).undeferredAncestor = none <;>
        simpa [setBlockedUntied, hu, ha] using Reblocks.refl _
  · by_cases ha : (s.task t).undeferredAncestor = none <;> simp [setBlockedUntied, ha]
  · by_cases ha : (s.task t).undeferredAncestor = none <;> simp [setBlockedUntied, ha]
  · by_cases ha : (s.task t).undeferredAncestor = none <;> simp [setBlockedUntied, ha, addQueued]
  · by_cases ha : (s.task t).undeferredAncestor = none <;> simp [setBlockedUntied, ha, addQueued, modify]
  · by_cases ha : (s.task t).undeferredAncestor = none <;> simp [setBlockedUntied, ha, addQueued, modify]
  · simp only [setBlockedUntied, addQueued_status]
    rw [callSuspended_member hkeep, modify_status, call_member hkeep]
    split
    · rw [callFamily_member hkeep]
    · rfl
  · by_cases ha : (s.task t).undeferredAncestor = none <;>
      simp [setBlockedUntied, ha, call_queue_of_ne]

theorem inTaskwait_taskwait {x : Task} (h : x.inTaskwait = true) : x.taskwait ≠ none := by
  intro hn
  simp [Task.inTaskwait, hn] at h

theorem waitingParent_eq {p : ℕ} : s.waitingParent t = some p ↔
    (s.task t).parent = some p ∧ (s.task p).inTaskwait = true := by
  simp [waitingParent, Option.filter_eq_some_iff]

/-- The two branches of gomp_task_handle_blocking that do something. -/
theorem handleBlocking_cases (fuel : ℕ) (s : TeamState) (t : ℕ) :
    handleBlocking (fuel + 1) s t = s ∨
    (s.task t).type = .tied ∧ (s.task t).kind = .tiedSuspended ∧ (s.task t).isBlocked = !s.isBlockedTied t ∧
      handleBlocking (fuel + 1) s t = s.setBlockedTied t (s.isBlockedTied t) ∨
    (s.task t).type = .untied ∧ (s.task t).kind = .waiting ∧ (s.task t).isBlocked = !s.isBlockedUntied t ∧
      handleBlocking (fuel + 1) s t =
        match (s.setBlockedUntied t (s.isBlockedUntied t)).waitingParent t with
        | none => s.setBlockedUntied t (s.isBlockedUntied t)
        | some p => handleBlocking fuel (s.setBlockedUntied t (s.isBlockedUntied t)) p := by
  have flip : ∀ a b : Bool, ¬a = b → a = !b ∧ (!a) = b := by decide
  cases ht : (s.task t).type with
  | tied =>
    by_cases hk : (s.task t).kind = .tiedSuspended
    · by_cases hb : (s.task t).isBlocked = s.isBlockedTied t
      · left
        simp [handleBlocking, ht, hb]
      · obtain ⟨h1,h2⟩ := flip _ _ hb
        refine .inr (.inl ⟨rfl,hk,h1,?_⟩)
        simp [handleBlocking, ht, hk, hb, h2]
    · left
      simp [handleBlocking, ht, hk]
  | untied =>
    by_cases hk : (s.task t).kind = .waiting
    · by_cases hb : (s.task t).isBlocked = s.isBlockedUntied t
      · left
        simp [handleBlocking, ht, hb]
      · obtain ⟨h1,h2⟩ := flip _ _ hb
        refine .inr (.inr ⟨rfl,hk,h1,?_⟩)
        cases hw : (s.setBlockedUntied t (s.isBlockedUntied t)).waitingParent t <;>
          simp [handleBlocking, ht, hk, hb, h2, hw]
    · left
      simp [handleBlocking, ht, hk]

theorem handleBlocking_reblocked (fuel : ℕ) (hw : (s.task t).taskwait ≠ none) :
    Reblocked s (handleBlocking fuel s t) := by
  induction fuel generalizing s t with
  | zero => exact .refl s
  | succ fuel ih =>
    rcases handleBlocking_cases fuel s t with he | ⟨ht,hk,_,he⟩ | ⟨ht,hk,_,he⟩
    · rw [he]
      exact .refl s
    · rw [he]
      exact setBlockedTied_reblocked hw hk ht
    · rw [he]
      have hs := setBlockedUntied_reblocked (b := s.isBlockedUntied t) hw hk ht
      cases hp : (s.setBlockedUntied t (s.isBlockedUntied t)).waitingParent t with
      | none => exact hs
      | some p => exact hs.trans (ih (inTaskwait_taskwait (waitingParent_eq.mp hp).2))

theorem gompTaskHandleBlocking_reblocked (hw : (s.task t).taskwait ≠ none) :
    Reblocked s (s.gompTaskHandleBlocking t) := handleBlocking_reblocked _ hw

theorem handleParent_reblocked (p : Option ℕ) : Reblocked s (s.handleParent p) := by
  unfold handleParent
  cases hp : p.filter fun p => (s.task p).inTaskwait with
  | none => exact .refl s
  | some p =>
    exact gompTaskHandleBlocking_reblocked (inTaskwait_taskwait (Option.filter_eq_some_iff.mp hp).2)

end Blocking

end TeamState

end GompUlt.Team
