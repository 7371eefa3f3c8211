import GompUlt.Team.Steady

/-! # The queue of a lock

A task that cannot get a lock waits in the queue of the lock.  The task that releases the lock
takes one waiter out; a TIED waiter may also be brought back by the end of its successor, and
leaves the queue itself without a look at whether it is still there.
-/
namespace GompUlt.Team
open Queue TeamState Run

namespace TeamState
variable {w : Watch} {s s' : TeamState} {t l : ℕ}

/-- Every insertion in the queue of a lock found the task outside and every removal found it inside; a member is
suspended and blocked, each of them can be chosen by a release, and the one that is chosen leaves the queue and is
blocked no more. -/
structure LockProtocol (s : TeamState) : Prop where
  calls : ∀ l, (s.queue (.locked l)).sound = true
  waits : ∀ l t, s.status (.locked l) t ≠ none →
    (s.task t).isSuspended = true ∧ (s.task t).isBlocked = true ∧ (s.task t).lockedTasks = some l
  release : ∀ l t, s.status (.locked l) t ≠ none → (s.step (.unlock l t)).isSome = true
  chosen : ∀ l t s', s.step (.unlock l t) = some s' → s'.status (.locked l) t = none ∧ (s'.task t).isBlocked = false

/-- A member of the queue is ready in it. -/
theorem locked_ready (h : Placed w s) (hst : s.status (.locked l) t ≠ none) : s.status (.locked l) t = some .ready := by
  rw [h.placed t] at hst ⊢
  simp only [expect, Task.view] at hst ⊢
  split_ifs at hst ⊢ <;> first | rfl | exact absurd rfl hst

/-- gomp_task_handle_locking leaves the chosen task unblocked. -/
theorem gompTaskHandleLocking_unblocks (h : Placed w s) (hst : s.status (.locked l) t = some .ready) :
    ((s.gompTaskHandleLocking l t).task t).isBlocked = false := by
  obtain ⟨-,-,-,hw⟩ := locked_facts h hst
  unfold gompTaskHandleLocking
  dsimp only
  cases (s.task t).type with
  | tied => simp [setBlockedTied_task]
  | untied =>
    have hself : (((s.call (.locked l) (.remove false) t).setBlockedUntied t false).task t) =
        { s.task t with isBlocked := false } := by simp [setBlockedUntied_task]
    have hr := ((handleParent_reblocked (s := (s.call (.locked l) (.remove false) t).setBlockedUntied t false)
      (s.task t).parent).task t).nudges
    dsimp only
    rw [hr.2.2 (by rw [hself]; exact hw),hself]

theorem unlock_eq (hs : s.step (.unlock l t) = some s') :
    s.status (.locked l) t = some .ready ∧ s' = s.gompTaskHandleLocking l t := by
  unfold step at hs
  split at hs
  case isFalse => cases hs
  case isTrue he =>
    simp only [enabled, decide_eq_true_eq] at he
    exact ⟨he,(Option.some.inj hs).symm⟩

theorem lockProtocol_of_inOrder (h : InOrder w s) (hw : w.locked = true) : LockProtocol s := by
  constructor
  · exact fun l => (h.placed.flags (.locked l) hw).1
  · intro l t hst
    obtain ⟨h1,h2,h3,-⟩ := locked_facts h.placed (locked_ready h.placed hst)
    exact ⟨h2,h3,h1⟩
  · intro l t hst
    unfold step
    rw [if_pos]
    · rfl
    · simpa [enabled] using locked_ready h.placed hst
  · intro l t s' hs
    have h' : InOrder w s' := step_inOrder h (show Good w s (.unlock l t) from trivial) hs
    obtain ⟨hst,rfl⟩ := unlock_eq hs
    have hb := gompTaskHandleLocking_unblocks h.placed hst
    refine ⟨?_,hb⟩
    by_contra hne
    obtain ⟨-,-,hblocked,-⟩ := locked_facts h'.placed (locked_ready h'.placed hne)
    rw [hb] at hblocked
    cases hblocked

/-- The queues of the locks. -/
def lockQueues : Watch := ⟨false,false,true,false⟩

/-- A TIED task waits for a lock, the release of the lock chooses it, and then its successor ends. -/
def poppedWaiter : List Event :=
  [.create 0 .tied false [],.start .barrier 0 2 (.team .tied),.create 2 .tied false [],
   .switch .context 0 2 3 (.team .tied) (some 0),.unlock 0 2,.finish .context 2 3]

/-- Two tasks wait for a lock, one of which is chosen. -/
def twoWaiters : List Event :=
  [.create 0 .untied false [],.start .barrier 0 2 (.team .untied),.create 2 .tied false [],
   .create 2 .tied false [],.switch .context 0 2 3 (.team .tied) (some 0),.create 3 .tied false [],
   .switch .context 0 3 5 (.team .tied) (some 0),.unlock 0 2]

end TeamState

end GompUlt.Team
