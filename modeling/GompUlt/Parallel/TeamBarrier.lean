import GompUlt.Lib.Run
import GompUlt.Lib.Counting
import Mathlib

/-! # The team barrier with tasks

The generation count and the flags share one word.  The threads that wait run tasks; the last one
to arrive advances the generation itself when there are no tasks, and otherwise leaves this to
whoever completes the last task.  Most stores to the word are made under the team lock, as a load
and a store; the store of the last thread to arrive is not.  A call is split at every access to
what other threads may write.
-/
namespace GompUlt.Barrier
open Run Counting

/-- `gomp_barrier_state_t`. -/
abbrev Word := BitVec 32

def barTaskPending : Word := 1#32
def barWasLast : Word := 1#32
def barWaitingForTask : Word := 2#32
def barCancelled : Word := 4#32
def barIncr : Word := 8#32

/-- The counter in the high bits of the generation. -/
def count (g : Word) : ℕ := g.toNat / 8

/-- What `gomp_barrier_wait_start` keeps of the generation. -/
def startState (g : Word) : Word := g &&& (-barIncr ||| barCancelled)

/-- The generation that `gomp_team_barrier_done` stores. -/
def gompTeamBarrierDone (st : Word) : Word := (st &&& -barIncr) + barIncr

/-- The generation that the last thread stores when there are no tasks. -/
def releaseState (st : Word) : Word := (st &&& ~~~barCancelled) + (barIncr - barWasLast)

def gompTeamBarrierWaitingForTasks (g : Word) : Bool := g &&& barWaitingForTask ≠ 0#32

def gompBarrierLastThread (st : Word) : Bool := st &&& barWasLast ≠ 0#32

/-- What application code does to the team's tasks under the lock: creates a task, completes one
that is suspended or runs outside of the barrier, cancels the region, or takes a task from the
queues and puts one back. -/
inductive Op where
  | create
  | complete
  | cancel
  | schedule
deriving DecidableEq, Repr

/-- Where a thread stands.  Application code belongs to the implicit task (`none`) or to a task
that `gomp_barrier_handle_tasks` runs with the given state. -/
inductive Mode where
  | app (st : Option Word)
  | opLock (st : Option Word) (op : Op)
  | op (st : Option Word) (op : Op)
  | opStore (st : Option Word) (g : Word)
  | loaded (st : Word)
  | resetting (st : Word)
  | counting (st : Word)
  | releasing (st : Word)
  | waiting (st : Word)
  | checking (st : Word)
  | handle (st : Word)
  | entered (st : Word)
  | setWaiting (st g : Word)
  | loop (st : Word)
  | clearing (st g : Word)
  | picked (st : Word)
  | finishing (st : Word)
  | finished (st : Word)
  | testing (st : Word)
  | done (st : Word) (last : Bool)
  | relock (st : Word)
deriving DecidableEq, Repr

namespace Mode

def holdsLock : Mode → Bool
  | op .. | opStore .. | entered _ | setWaiting .. | loop _ | clearing .. | picked _ | finished _ | testing _ |
    done .. => true
  | _ => false

/-- The thread runs or completes a task inside the barrier. -/
def inTask : Mode → Bool
  | app (some _) | opLock (some _) _ | op (some _) _ | opStore (some _) _ | clearing .. | picked _ | finishing _ |
    finished _ => true
  | _ => false

end Mode

/-- The barrier, the task count and the lock of the team.  `phase` counts the stores that advance
the generation, `arrived` and `returned` the calls of each thread. -/
structure State (τ : Type*) where
  generation : Word
  awaited : ℕ
  taskCount : ℕ
  lock : Option τ
  mode : τ → Mode
  phase : ℕ
  arrived : τ → ℕ
  returned : τ → ℕ

variable {τ : Type*} [DecidableEq τ] [Fintype τ]

/-- `gomp_barrier_init` for all threads of the team. -/
def init (τ : Type*) [Fintype τ] : State τ where
  generation := 0#32
  awaited := Fintype.card τ
  taskCount := 0
  lock := none
  mode _ := .app none
  phase := 0
  arrived _ := 0
  returned _ := 0

namespace State

def setMode (s : State τ) (t : τ) (m : Mode) : State τ := { s with mode := Function.update s.mode t m }

/-- The thread takes the lock when it is free. -/
def acquire (s : State τ) (t : τ) (m : Mode) : Option (State τ) :=
  if s.lock = none then some ({ s with lock := some t }.setMode t m) else none

def release (s : State τ) (t : τ) (m : Mode) : State τ := { s with lock := none }.setMode t m

/-- The tasks that threads run inside the barrier. -/
def running (s : State τ) : ℕ := (Finset.univ.filter fun t => (s.mode t).inTask = true).card

/-- A thread returns from `gomp_team_barrier_wait`. -/
def comeBack (s : State τ) (t : τ) : State τ :=
  { s with returned := Function.update s.returned t (s.returned t + 1) }.setMode t (.app none)

/-- The return from `gomp_barrier_handle_tasks`: the last thread enters the loop, the others reload
the generation. -/
def leaveHandle (st : Word) : Mode :=
  if gompBarrierLastThread st then .waiting ((st &&& ~~~barWasLast) &&& ~~~barCancelled) else .checking st

/-- The decrement of `gomp_barrier_wait_start`. -/
def arrive (s : State τ) (t : τ) (st : Word) : State τ :=
  { s with awaited := s.awaited - 1, arrived := Function.update s.arrived t (s.arrived t + 1) }.setMode t
    (if s.awaited - 1 = 0 then .resetting (st ||| barWasLast) else .waiting (st &&& ~~~barCancelled))

/-- The part of an operation under the lock up to its store to the generation. -/
def perform (s : State τ) (t : τ) (st : Option Word) (set : Bool) : Op → Option (State τ)
  | .create => some ({ s with taskCount := s.taskCount + 1 }.setMode t (.opStore st (s.generation ||| barTaskPending)))
  | .complete =>
    if s.running < s.taskCount then some ({ s with taskCount := s.taskCount - 1 }.release t (.app st)) else none
  | .cancel =>
    if s.generation &&& barCancelled ≠ 0#32 then some (s.release t (.app st))
    else some (s.setMode t (.opStore st (s.generation ||| barCancelled)))
  | .schedule =>
    some (s.setMode t (.opStore st
      (if set then s.generation ||| barTaskPending else s.generation &&& ~~~barTaskPending)))

/-- The next access of a thread.  `more` picks a task in the loop, tells that it was cancelled, and
that a returning task is complete; `flag` tells that the picked task was the last one queued. -/
def access (s : State τ) (t : τ) (more flag : Bool) : Option (State τ) :=
  match s.mode t with
  | .app _ => none
  | .opLock st op => s.acquire t (.op st op)
  | .op st op => s.perform t st flag op
  | .opStore st g => some ({ s with generation := g }.release t (.app st))
  | .loaded st => some (s.arrive t st)
  | .resetting st => some ({ s with awaited := Fintype.card τ }.setMode t (.counting st))
  | .counting st => some (s.setMode t (if s.taskCount ≠ 0 then .handle st else .releasing st))
  | .releasing st =>
    some ({ s with generation := releaseState st, phase := s.phase + 1 }.comeBack t)
  | .waiting st =>
    if s.generation &&& barTaskPending ≠ 0#32 then some (s.setMode t (.handle st))
    else if s.generation = st + barIncr then some (s.comeBack t)
    else some (s.setMode t (.waiting st))
  | .checking st =>
    if s.generation = st + barIncr then some (s.comeBack t) else some (s.setMode t (.waiting st))
  | .handle st => s.acquire t (.entered st)
  | .entered st =>
    if gompBarrierLastThread st then
      if s.taskCount = 0 then some (s.setMode t (.done st true))
      else some (s.setMode t (.setWaiting st (s.generation ||| barWaitingForTask)))
    else some (s.setMode t (.loop st))
  | .setWaiting st g => some ({ s with generation := g }.setMode t (.loop st))
  | .loop st =>
    if more then
      if s.running < s.taskCount then
        some (s.setMode t (if flag then .clearing st (s.generation &&& ~~~barTaskPending) else .picked st))
      else none
    else some (s.release t (leaveHandle st))
  | .clearing st g => some ({ s with generation := g }.setMode t (.picked st))
  | .picked st => if more then some (s.setMode t (.finished st)) else some (s.release t (.app (some st)))
  | .finishing st => s.acquire t (if more then .finished st else .loop st)
  | .finished st =>
    some ({ s with taskCount := s.taskCount - 1 }.setMode t (if s.taskCount - 1 = 0 then .testing st else .loop st))
  | .testing st =>
    some (s.setMode t (if gompTeamBarrierWaitingForTasks s.generation then .done st false else .loop st))
  | .done st last =>
    some ({ s with generation := gompTeamBarrierDone st, phase := s.phase + 1 }.release t
      (if last then leaveHandle st else .relock st))
  | .relock st => s.acquire t (.loop st)

end State

/-- The calls of the program: a thread comes to the barrier, application code starts an operation
on the tasks, a task that was run inside the barrier gives the control back. -/
inductive Event (τ : Type*) where
  | start (t : τ)
  | operate (t : τ) (op : Op)
  | leave (t : τ)
  | access (t : τ) (more flag : Bool)
deriving DecidableEq, Repr

def step (s : State τ) : Event τ → Option (State τ)
  | .start t => if s.mode t = .app none then some (s.setMode t (.loaded (startState s.generation))) else none
  | .operate t op =>
    match s.mode t with
    | .app st => some (s.setMode t (.opLock st op))
    | _ => none
  | .leave t =>
    match s.mode t with
    | .app (some st) => some (s.setMode t (.finishing st))
    | _ => none
  | .access t more flag => s.access t more flag

section Words
variable {g st m : Word}

/-- The flags in the low bits. -/
def flags (g : Word) : ℕ := g.toNat % 8

theorem count_lt (g : Word) : count g < 2 ^ 29 := by
  have := g.isLt
  unfold count
  omega

theorem toNat_eq (g : Word) : g.toNat = 8 * count g + flags g := by
  unfold count flags
  omega

theorem count_or (hm : count m = 0) : count (g ||| m) = count g := by
  unfold count at *
  rw [BitVec.toNat_or,Nat.or_div_two_pow (n := 3),hm,Nat.or_zero]

theorem flags_or : flags (g ||| m) = flags g ||| flags m := by
  unfold flags
  rw [BitVec.toNat_or,Nat.or_mod_two_pow (n := 3)]

theorem count_and (hm : count m = 2 ^ 29 - 1) : count (g &&& m) = count g := by
  have hlt := count_lt g
  unfold count at *
  rw [BitVec.toNat_and,Nat.and_div_two_pow (n := 3),hm,Nat.and_two_pow_sub_one_eq_mod,Nat.mod_eq_of_lt hlt]

theorem flags_and : flags (g &&& m) = flags g &&& flags m := by
  unfold flags
  rw [BitVec.toNat_and,Nat.and_mod_two_pow (n := 3)]

theorem flags_lt (g : Word) : flags g < 8 := Nat.mod_lt _ (by decide)

theorem and_ne_zero_iff {i : ℕ} (hi : i < 3) : g &&& BitVec.ofNat 32 (2 ^ i) ≠ 0#32 ↔ flags g / 2 ^ i % 2 = 1 := by
  have hlt : 2 ^ i < 2 ^ 32 := Nat.pow_lt_pow_right (by decide) (by omega)
  rw [Ne,← BitVec.toNat_inj,BitVec.toNat_and,BitVec.toNat_ofNat,Nat.mod_eq_of_lt hlt,Nat.and_two_pow]
  have htest : g.toNat.testBit i = decide (flags g / 2 ^ i % 2 = 1) := by
    rw [Nat.testBit_eq_decide_div_mod_eq,flags]
    interval_cases i <;> simp only [decide_eq_decide] <;> omega
  rw [htest]
  by_cases hb : flags g / 2 ^ i % 2 = 1
  · simp [hb]
  · simp [hb]

theorem waitingForTasks_iff : gompTeamBarrierWaitingForTasks g = decide (flags g / 2 % 2 = 1) := by
  unfold gompTeamBarrierWaitingForTasks
  rw [decide_eq_decide]
  exact and_ne_zero_iff (i := 1) (by decide)

theorem lastThread_iff : gompBarrierLastThread st = decide (flags st % 2 = 1) := by
  unfold gompBarrierLastThread
  rw [decide_eq_decide]
  simpa [barWasLast] using and_ne_zero_iff (g := st) (i := 0) (by decide)

/-- Adding to the low bits without a carry into the counter, up to the next count. -/
theorem count_add (h : flags g + m.toNat = 8) : count (g + m) = (count g + 1) % 2 ^ 29 ∧ flags (g + m) = 0 := by
  have hg := toNat_eq g
  have hlt := count_lt g
  unfold count flags at *
  rw [BitVec.toNat_add]
  omega

theorem startState_spec (g : Word) : count (startState g) = count g ∧ flags (startState g) % 4 = 0 := by
  refine ⟨count_and (by decide),?_⟩
  have hfin : ∀ f < 8, (f &&& flags (-barIncr ||| barCancelled)) % 4 = 0 := by decide
  rw [startState,flags_and]
  exact hfin _ (flags_lt g)

theorem done_spec (st : Word) : count (gompTeamBarrierDone st) = (count st + 1) % 2 ^ 29 ∧
    flags (gompTeamBarrierDone st) = 0 := by
  have hf : flags (st &&& -barIncr) = 0 := by
    rw [flags_and]
    exact Nat.and_zero _
  have hc : count (st &&& -barIncr) = count st := count_and (by decide)
  have hadd := count_add (g := st &&& -barIncr) (m := barIncr) (by rw [hf]; rfl)
  rwa [hc] at hadd

theorem releaseState_spec (h : flags st % 4 = 1) :
    count (releaseState st) = (count st + 1) % 2 ^ 29 ∧ flags (releaseState st) = 0 := by
  have hfin : ∀ f < 8, f % 4 = 1 → f &&& flags (~~~barCancelled) = 1 := by decide
  have hf : flags (st &&& ~~~barCancelled) = 1 := by
    rw [flags_and]
    exact hfin _ (flags_lt st) h
  have hc : count (st &&& ~~~barCancelled) = count st := count_and (by decide)
  have hadd := count_add (g := st &&& ~~~barCancelled) (m := barIncr - barWasLast) (by rw [hf]; rfl)
  rwa [hc] at hadd

/-- The flags of an update that leaves the counter and the waiting flag alone. -/
def Agree (g g' : Word) : Prop :=
  count g' = count g ∧ gompTeamBarrierWaitingForTasks g' = gompTeamBarrierWaitingForTasks g

theorem agree_pending : Agree g (g ||| barTaskPending) ∧ Agree g (g &&& ~~~barTaskPending) ∧
    Agree g (g ||| barCancelled) := by
  have hfin : ∀ f < 8, (f ||| flags barTaskPending) / 2 % 2 = f / 2 % 2 ∧
      (f &&& flags (~~~barTaskPending)) / 2 % 2 = f / 2 % 2 ∧ (f ||| flags barCancelled) / 2 % 2 = f / 2 % 2 := by
    decide
  obtain ⟨h1,h2,h3⟩ := hfin _ (flags_lt g)
  refine ⟨⟨count_or (by decide),?_⟩,⟨count_and (by decide),?_⟩,⟨count_or (by decide),?_⟩⟩
  · rw [waitingForTasks_iff,waitingForTasks_iff,flags_or,h1]
  · rw [waitingForTasks_iff,waitingForTasks_iff,flags_and,h2]
  · rw [waitingForTasks_iff,waitingForTasks_iff,flags_or,h3]

end Words

end GompUlt.Barrier
