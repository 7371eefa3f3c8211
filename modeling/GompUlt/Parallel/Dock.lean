import Mathlib
import GompUlt.Sync.Wait

/-! # The dock of a thread pool

Between parallel regions the threads of a pool wait at the barrier `threads_dock`.  To start a team the
master writes a function into the threads that it keeps, makes the threads that are missing, sets the
barrier to the number of threads that come to it, old ones that will leave included, and comes itself.
A thread that finds no function when the barrier lets it go ends.
-/
namespace GompUlt.Dock
open Futex Run Wait

/-- A thread by the region that made it and its place in the team; the master is `(0,0)`. -/
abbrev Tid := ℕ × ℕ

/-- What the threads share.  `threads`, `threadsUsed` and the first three fields are those of the pool and its barrier,
`fn` is `thr->fn` as the number of a region, `created` tells for which threads `pthread_create` was called, and
`ended` who has come to the barrier at the end of a region.  The other fields record what happened: how often the
dock was opened, which places have arrived since and who came last, how many are expected, and who ran which
region. -/
structure Mem where
  total : ℕ
  awaited : ℕ
  generation : ℕ
  threadsUsed : ℕ
  threads : ℕ → Tid
  fn : Tid → Option ℕ
  created : Tid → Bool
  ended : ℕ → Finset ℕ
  phase : ℕ
  arrived : Finset ℕ
  last : Tid
  expected : ℕ
  ran : List (Tid × ℕ)

def uint (n : ℕ) : ℕ := n % 2 ^ 32

/-- The difference of two unsigned numbers. -/
def usub (a b : ℕ) : ℕ := uint (2 ^ 32 + a - b)

/-- `gomp_barrier_wait`, with the value of `bar->generation` once it has been read. -/
inductive Bar where
  | load
  | arrive (state : ℕ)
  | reset
  | read
  | store (generation : ℕ)
  | wake
  | spin (state i : ℕ)
  | sleep (state : ℕ)
  | recheck (state : ℕ)
deriving DecidableEq, Repr

/-- The three calls of `gomp_simple_barrier_wait`: in `gomp_team_start`, in `gomp_thread_start` before the loop
and in the loop. -/
inductive Stop where
  | start (k oldThreadsUsed : ℕ)
  | first
  | again
deriving DecidableEq, Repr

inductive Pc where
  | begin (k : ℕ)
  | grow (k oldThreadsUsed : ℕ)
  | release (k oldThreadsUsed i : ℕ)
  | launch (k oldThreadsUsed i : ℕ)
  | shrink (k oldThreadsUsed : ℕ)
  | shrunk (k : ℕ)
  | unborn
  | register
  | fetch
  | clear (localFn : Option ℕ)
  | bar (stop : Stop) (b : Bar)
  | run (k : ℕ)
  | final (k : ℕ)
  | finish (k : ℕ)
  | done
deriving DecidableEq, Repr

/-- Where a thread goes on behind the dock. -/
def behind (size : ℕ → ℕ) (t : Tid) : Stop → Pc
  | .start k old => if size k < old then .shrink k old else .run k
  | .first => .run t.1
  | .again => .fetch

/-- `__atomic_add_fetch (&bar->awaited, count - bar->total)`, the first half of `gomp_barrier_reinit`. -/
def Mem.reinit (m : Mem) (count : ℕ) : Mem :=
  { m with awaited := uint (m.awaited + usub count m.total), expected := count }

/-- `__atomic_add_fetch (&bar->awaited, -1)`. -/
def Mem.arrive (m : Mem) (t : Tid) : Mem :=
  { m with
    awaited := usub m.awaited 1
    arrived := insert t.2 m.arrived
    last := t }

/-- `__atomic_store_n (&bar->generation, bar->generation + BAR_INCR)`. -/
def Mem.open (m : Mem) (generation : ℕ) : Mem :=
  { m with generation := uint (generation + 8), phase := m.phase + 1, arrived := ∅ }

def barCode (size : ℕ → ℕ) (v : SpinVars) (t : Tid) (stop : Stop) : Bar → Action Mem Pc
  | .load => .access fun _ m => (m,.bar stop (.arrive (m.generation / 4 * 4)))
  | .arrive state => .access fun input m =>
    (m.arrive t,if (m.arrive t).awaited = 0 then .bar stop .reset else .bar stop (.spin state (v.count input)))
  | .reset => .access fun _ m => ({ m with awaited := m.total },.bar stop .read)
  | .read => .access fun _ m => (m,.bar stop (.store m.generation))
  | .store generation => .access fun _ m => (m.open generation,.bar stop .wake)
  | .wake => .wake (2 ^ 31 - 1) (behind size t stop)
  | .spin state i =>
    doSpin Mem.generation state (fun i => .bar stop (.spin state i)) (.bar stop (.recheck state))
      (.bar stop (.sleep state)) i
  | .sleep state => .wait (fun m => m.generation = state) (.bar stop (.recheck state))
  | .recheck state => .access fun input m =>
    (m,if m.generation = state then .bar stop (.spin state (v.count input)) else behind size t stop)

/-- The master starts region after region, `size k` being the number of threads of the one with number `k`; a
worker is made by `launch`.  The barrier at the end of a region lets its threads go when all have come. -/
def code (size : ℕ → ℕ) (v : SpinVars) (t : Tid) : Pc → Action Mem Pc
  | .begin k => .access fun _ m =>
    if size k ≤ m.threadsUsed then ({ m with threadsUsed := size k },.release k m.threadsUsed 1)
    else if m.threadsUsed = 0 then
      ({ m with threadsUsed := size k, total := size k, awaited := size k, generation := 0, expected := size k },
        .release k m.threadsUsed 1)
    else ({ m.reinit (size k) with threadsUsed := size k },.grow k m.threadsUsed)
  | .grow k old => .access fun _ m => ({ m with total := size k },.release k old 1)
  | .release k old i => .access fun _ m =>
    if i < min (size k) old then ({ m with fn := Function.update m.fn (m.threads i) (some k) },.release k old (i + 1))
    else (m,.launch k old i)
  | .launch k old i => .access fun _ m =>
    if i < size k then ({ m with created := Function.update m.created (k,i) true },.launch k old (i + 1))
    else (m,.bar (.start k old) .load)
  | .shrink k _ => .access fun _ m => (m.reinit (size k),.shrunk k)
  | .shrunk k => .access fun _ m => ({ m with total := size k },.run k)
  | .unborn => .access fun _ m => (m,if m.created t = true then .register else .unborn)
  | .register => .access fun _ m => ({ m with threads := Function.update m.threads t.2 t },.bar .first .load)
  | .fetch => .access fun _ m => (m,.clear (m.fn t))
  | .clear localFn => .access fun _ m =>
    ({ m with fn := Function.update m.fn t none },
      match localFn with
      | none => .done
      | some k => .run k)
  | .bar stop b => barCode size v t stop b
  | .run k => .access fun _ m => ({ m with ran := m.ran ++ [(t,k)] },.final k)
  | .final k => .access fun _ m => ({ m with ended := Function.update m.ended k (insert t.2 (m.ended k)) },.finish k)
  | .finish k => .access fun _ m =>
    (m,if (m.ended k).card = size k then (if t.2 = 0 then .begin (k + 1) else .bar .again .load) else .finish k)
  | .done => .access fun _ m => (m,.done)

def init : State Tid Mem Pc where
  mem := {
    total := 0, awaited := 0, generation := 0, threadsUsed := 0, threads := fun _ => (0,0), fn := fun _ => none
    created := fun _ => false, ended := fun _ => ∅, phase := 0, arrived := ∅, last := (0,0), expected := 0, ran := [] }
  pc t := if t.2 ≠ 0 then .unborn else if t.1 = 0 then .begin 0 else .done
  asleep := ∅

/-! ## Who comes to the dock -/
section Places
variable (size : ℕ → ℕ)

/-- How many threads the pool has before region `k`. -/
def used : ℕ → ℕ
  | 0 => 0
  | k + 1 => size k

/-- How many threads come to the dock of region `k`. -/
def present (k : ℕ) : ℕ := max (size k) (used size k)

/-- The region that made the thread that comes to the dock of region `k` with place `i`. -/
def maker : ℕ → ℕ → ℕ
  | 0, _ => 0
  | k + 1, i => if i < size k then maker k i else k + 1

variable {size}

theorem maker_le (k i : ℕ) : maker size k i ≤ k := by
  induction k with
  | zero => exact Nat.le_refl 0
  | succ k ih =>
    rw [maker]
    split <;> omega

theorem maker_of_lt {k i : ℕ} (h : i < size k) : maker size (k + 1) i = maker size k i := if_pos h

/-- A place that was not used yet is taken by a new thread. -/
theorem maker_of_used_le {k i : ℕ} (h : used size k ≤ i) : maker size k i = k := by
  cases k with
  | zero => rfl
  | succ k => exact if_neg (Nat.not_lt.mpr h)

/-- A place that was given up is taken by a newer thread. -/
theorem maker_of_gone {p k i : ℕ} (hp : size p ≤ i) (hk : p < k) : p < maker size k i := by
  induction k with
  | zero => omega
  | succ k ih =>
    rw [maker]
    split
    case isTrue hlt =>
      have hne : p ≠ k := by
        rintro rfl
        omega
      exact ih (by omega)
    case isFalse => omega

theorem maker_zero (hsize : ∀ k, 0 < size k) (k : ℕ) : maker size k 0 = 0 := by
  induction k with
  | zero => rfl
  | succ k ih => rw [maker_of_lt (hsize k), ih]

end Places

/-! ## What the threads know -/
section Invariants
variable (size : ℕ → ℕ)

def Mem.Full (m : Mem) : Prop := m.arrived = Finset.range m.expected

/-- All have arrived, the master among them, and the thread has come last: it will open the dock. -/
structure Mem.Opens (m : Mem) (t : Tid) : Prop where
  full : m.Full
  last : m.last = t
  master : 0 ∈ m.arrived

/-- The master has given the functions of region `m.phase` and all have left the region before. -/
structure Opened (m : Mem) : Prop where
  total : m.total = m.expected
  expected : m.expected = present size m.phase
  told : ∀ i, 0 < i → i < size m.phase → i < used size m.phase → m.fn (maker size m.phase i,i) = some m.phase
  left : ∀ p, m.phase = p + 1 → ∀ i < size p, i ∈ m.ended p
  made : ∀ i, 0 < i → i < m.expected → m.created (maker size m.phase i,i) = true

structure Common (m : Mem) : Prop where
  generation : m.generation = uint (8 * m.phase)
  arrived : m.arrived ⊆ Finset.range m.expected
  count : ¬m.Full → m.awaited + m.arrived.card = m.expected
  bound : m.expected < 2 ^ 32
  opened : 0 ∈ m.arrived → Opened size m
  latest : m.arrived.Nonempty → m.last.2 ∈ m.arrived ∧ m.last.1 = maker size m.phase m.last.2
  seated : ∀ i ∈ m.arrived, 0 < i →
    m.threads i = (maker size m.phase i,i) ∧ m.created (maker size m.phase i,i) = true
  members : ∀ p, m.phase = p + 1 → ∀ i, 0 < i → i < size p →
    m.threads i = (maker size p i,i) ∧ m.created (maker size p i,i) = true
  ended : ∀ p, ∀ i ∈ m.ended p, p < m.phase ∧ i < size p ∧ ((maker size p i,i),p) ∈ m.ran
  ran : ∀ t p, (t,p) ∈ m.ran → p < m.phase ∧ t.2 < size p ∧ t.1 = maker size p t.2
  once : m.ran.Nodup
  past : ∀ p, p + 1 < m.phase → ∀ i < size p, i ∈ m.ended p
  future : ∀ r i, m.phase < r → m.created (r,i) = false

/-- A worker that is expected at the dock. -/
structure Live (t : Tid) (m : Mem) : Prop where
  place : 0 < t.2
  born : t.1 = maker size m.phase t.2
  expected : t.2 < m.expected
  created : m.created t = true

/-- A worker on its way to the dock or there, before the dock is opened. -/
structure Home (t : Tid) (m : Mem) : Prop extends Live size t m where
  fn : m.fn t = none ∨ m.fn t = some m.phase ∧ t.2 < size m.phase ∧ t.2 < used size m.phase
  ended : ∀ p, m.phase = p + 1 → t.2 < size p → t.2 ∈ m.ended p

/-- The first stop of a thread is the one before the region that made it. -/
def Side (t : Tid) (k : ℕ) : Stop → Prop
  | .start _ _ => False
  | .first => used size k ≤ t.2
  | .again => t.2 < used size k

/-- A worker of region `p` that has not begun with it or is in it. -/
structure Member (t : Tid) (m : Mem) (p : ℕ) : Prop extends Live size t m where
  phase : m.phase = p + 1
  lt : t.2 < size p
  arrived : t.2 ∉ m.arrived
  ended : t.2 ∉ m.ended p
  seated : m.threads t.2 = t

/-- A worker that the dock has let go for region `p`.  One that has to leave may stay behind. -/
structure Released (stop : Stop) (t : Tid) (m : Mem) (p : ℕ) : Prop where
  place : 0 < t.2
  born : t.1 = maker size p t.2
  before : p < m.phase
  side : Side size t p stop
  new : stop = .first → t.2 < size p
  fn : m.fn t = if stop = .again ∧ t.2 < size p then some p else none
  member : t.2 < size p → Member size t m p ∧ (t,p) ∉ m.ran

/-- A worker in region `k`. -/
structure Inside (t : Tid) (m : Mem) (k : ℕ) : Prop extends Member size t m k where
  fn : m.fn t = none

/-- The master before it comes to the dock of region `k`: the workers with places below `hi` have got the function,
the new ones with places below `lo` are made and those from `lo` on are not. -/
structure Lead (m : Mem) (k total expected threadsUsed lo hi : ℕ) : Prop where
  phase : m.phase = k
  arrived : 0 ∉ m.arrived
  total : m.total = total
  expected : m.expected = expected
  threadsUsed : m.threadsUsed = threadsUsed
  left : ∀ p, k = p + 1 → ∀ i < size p, i ∈ m.ended p
  told : ∀ i, 0 < i → i < hi → i < size k → i < used size k → m.fn (maker size k i,i) = some k
  launched : ∀ i, 0 < i → used size k ≤ i → i < lo → m.created (k,i) = true
  made : ∀ i, lo ≤ i → m.created (k,i) = false

/-- The master behind the dock of region `k`. -/
structure Ahead (m : Mem) (k total expected : ℕ) : Prop where
  phase : m.phase = k + 1
  arrived : 0 ∉ m.arrived
  total : m.total = total
  expected : m.expected = expected
  threadsUsed : m.threadsUsed = size k
  made : ∀ i, m.created (k + 1,i) = false

/-- What a thread knows when it comes to the dock, while it waits there and behind it. -/
def Comes (t : Tid) (m : Mem) : Stop → Prop
  | .start k old => t = (0,0) ∧ old = used size k ∧
    Lead size m k (present size k) (present size k) (size k) (size k) (size k)
  | stop => Home size t m ∧ Side size t m.phase stop ∧ t.2 ∉ m.arrived ∧ m.threads t.2 = t

def Waits (t : Tid) (m : Mem) : Stop → Prop
  | .start k old => t = (0,0) ∧ old = used size k ∧ m.phase = k ∧ m.threadsUsed = size k
  | stop => Home size t m ∧ Side size t m.phase stop

def Passed (t : Tid) (m : Mem) : Stop → Prop
  | .start k old => t = (0,0) ∧ old = used size k ∧ Ahead size m k (present size k) (present size k) ∧ (t,k) ∉ m.ran
  | stop => ∃ p, Released size stop t m p

def KnowsBar (t : Tid) (m : Mem) (stop : Stop) : Bar → Prop
  | .load => Comes size t m stop
  | .arrive state => Comes size t m stop ∧ state = m.generation
  | .reset => Waits size t m stop ∧ m.Opens t
  | .read => Waits size t m stop ∧ m.Opens t ∧ m.awaited = m.expected
  | .store generation => Waits size t m stop ∧ m.Opens t ∧ m.awaited = m.expected ∧ generation = m.generation
  | .wake => Passed size t m stop
  | .spin state _ | .sleep state | .recheck state =>
    Waits size t m stop ∧ t.2 ∈ m.arrived ∧ state = m.generation ∧ ¬m.Opens t ∨
      Passed size t m stop ∧ (t.1 = maker size m.phase t.2 → state ≠ m.generation)

def Knows (t : Tid) (p : Pc) (m : Mem) : Prop :=
  match p with
  | .begin k => t = (0,0) ∧ Lead size m k (used size k) (used size k) (used size k) 0 0
  | .grow k old => t = (0,0) ∧ old = used size k ∧ used size k < size k ∧
    Lead size m k (used size k) (size k) (size k) 0 0
  | .release k old i => t = (0,0) ∧ old = used size k ∧ 0 < i ∧ i ≤ size k ∧ (i = 1 ∨ i ≤ used size k) ∧
    Lead size m k (present size k) (present size k) (size k) 0 i
  | .launch k old i => t = (0,0) ∧ old = used size k ∧ 0 < i ∧ i ≤ size k ∧ (i < size k → used size k ≤ i) ∧
    Lead size m k (present size k) (present size k) (size k) i (size k)
  | .shrink k old => t = (0,0) ∧ old = used size k ∧ size k < used size k ∧
    Ahead size m k (present size k) (present size k) ∧ (t,k) ∉ m.ran
  | .shrunk k => t = (0,0) ∧ Ahead size m k (present size k) (size k) ∧ (t,k) ∉ m.ran
  | .unborn => 0 < t.2 ∧ m.fn t = none ∧
    (m.created t = true → Home size t m ∧ used size m.phase ≤ t.2 ∧ t.2 ∉ m.arrived)
  | .register => Home size t m ∧ used size m.phase ≤ t.2 ∧ t.2 ∉ m.arrived
  | .fetch => ∃ p, Released size .again t m p
  | .clear localFn => ∃ p, Released size .again t m p ∧ localFn = m.fn t
  | .bar stop b => KnowsBar size t m stop b
  | .run k => (t,k) ∉ m.ran ∧ (t = (0,0) ∧ Ahead size m k (size k) (size k) ∨ Inside size t m k)
  | .final k => (t,k) ∈ m.ran ∧ (t = (0,0) ∧ Ahead size m k (size k) (size k) ∨ Inside size t m k)
  | .finish k => m.phase = k + 1 ∧ t.2 ∈ m.ended k ∧ (t = (0,0) ∧ Ahead size m k (size k) (size k) ∨
    Home size t m ∧ t.2 < size k ∧ t.2 ∉ m.arrived ∧ m.threads t.2 = t)
  | .done => t.2 = 0 ∧ t.1 ≠ 0 ∨ ∃ p < m.phase, size p ≤ t.2 ∧ t.1 = maker size p t.2

end Invariants

end GompUlt.Dock
