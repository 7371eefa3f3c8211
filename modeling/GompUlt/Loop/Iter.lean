import GompUlt.Lib.Run
import Mathlib

/-! # Dynamic and guided loop schedules

The four copies of the next-chunk operation, for `long` and `unsigned long long` loops, with and
without the lock of the work share.  Words are integers that every operation wraps to its type; the
only shared word that changes is `ws->next`, so a call is split at its accesses to it.
-/
namespace GompUlt.Iter
open Run

def long (x : ℤ) : ℤ := Int.bmod x (2 ^ 64)

def ull (x : ℤ) : ℤ := x % 2 ^ 64

def longMax : ℤ := 2 ^ 63 - 1

def ullMax : ℤ := 2 ^ 64 - 1

inductive IterType where
  | long
  | ull
deriving DecidableEq, Repr

inductive Sched where
  | dynamic
  | guided
deriving DecidableEq, Repr

/-- The fields of a `struct gomp_work_share` that the next-chunk operations use. -/
structure WorkShare where
  chunkSize : ℤ
  stop : ℤ
  incr : ℤ
  next : ℤ
  mode : ℕ
deriving DecidableEq, Repr

/-- The test `(nthreads | chunk_size) >= 1UL << 31`. -/
def tooWide (nthreads chunkSize : ℤ) : Bool := 2 ^ 31 ≤ (ull nthreads).toNat ||| (ull chunkSize).toNat

def gompLoopInit (nthreads start stop incr : ℤ) (sched : Sched) (chunkSize : ℤ) : WorkShare :=
  let stop := if (0 < incr ∧ stop < start) ∨ (incr < 0 ∧ start < stop) then start else stop
  match sched with
  | .guided => ⟨chunkSize,stop,incr,start,0⟩
  | .dynamic =>
    let chunkSize := long (chunkSize * incr)
    let mode :=
      if 0 < incr then
        if tooWide nthreads chunkSize then 0
        else if stop < long (longMax - long ((nthreads + 1) * chunkSize)) then 1 else 0
      else if tooWide nthreads (long (-chunkSize)) then 0
      else if stop > long (long ((nthreads + 1) * long (-chunkSize)) - longMax) then 1 else 0
    ⟨chunkSize,stop,incr,start,mode⟩

/-- `gomp_loop_ull_init`; bit 1 of the mode says that the loop counts down. -/
def gompLoopUllInit (nthreads : ℤ) (up : Bool) (start stop incr : ℤ) (sched : Sched) (chunkSize : ℤ) : WorkShare :=
  let stop := if (up ∧ stop < start) ∨ (¬up ∧ start < stop) then start else stop
  let down := if up then 0 else 2
  match sched with
  | .guided => ⟨chunkSize,stop,incr,start,down⟩
  | .dynamic =>
    let chunkSize := ull (chunkSize * incr)
    let mode :=
      if up then
        if tooWide nthreads chunkSize then 0
        else if stop < ull (ullMax - ull ((nthreads + 1) * chunkSize)) then 1 else 0
      else if tooWide nthreads (ull (-chunkSize)) then 0
      else if stop > ull (ull ((nthreads + 1) * ull (-chunkSize)) - ullMax) then 1 else 0
    ⟨chunkSize,stop,incr,start,mode ||| down⟩

/-- The chunk cut down to what is left, in `gomp_iter_dynamic_next` and its locked version. -/
def clip (ws : WorkShare) (chunk left : ℤ) : ℤ :=
  if ws.incr < 0 then if chunk < left then left else chunk else if left < chunk then left else chunk

def clipUll (ws : WorkShare) (chunk left : ℤ) : ℤ :=
  if ws.mode &&& 2 ≠ 0 then if chunk < left then left else chunk else if left < chunk then left else chunk

/-- `gomp_iter_dynamic_next_locked`: the chunk, or none for a return of false. -/
def gompIterDynamicNextLocked (ws : WorkShare) : WorkShare × Option (ℤ × ℤ) :=
  let start := ws.next
  if start = ws.stop then (ws,none)
  else
    let stop := long (start + clip ws ws.chunkSize (long (ws.stop - start)))
    ({ ws with next := stop },some (start,stop))

def gompIterUllDynamicNextLocked (ws : WorkShare) : WorkShare × Option (ℤ × ℤ) :=
  let start := ws.next
  if start = ws.stop then (ws,none)
  else
    let stop := ull (start + clipUll ws ws.chunkSize (ull (ws.stop - start)))
    ({ ws with next := stop },some (start,stop))

/-- The fetch-and-add of `gomp_iter_dynamic_next` and what it returns. -/
def dynamicFetch (ws : WorkShare) : WorkShare × Option (ℤ × ℤ) :=
  let tmp := ws.next
  let ws' := { ws with next := long (ws.next + ws.chunkSize) }
  let nend := long (tmp + ws.chunkSize)
  if 0 < ws.incr then
    if ws.stop ≤ tmp then (ws',none) else (ws',some (tmp,if ws.stop < nend then ws.stop else nend))
  else if tmp ≤ ws.stop then (ws',none)
  else (ws',some (tmp,if nend < ws.stop then ws.stop else nend))

def ullDynamicFetch (ws : WorkShare) : WorkShare × Option (ℤ × ℤ) :=
  let tmp := ws.next
  let ws' := { ws with next := ull (ws.next + ws.chunkSize) }
  let nend := ull (tmp + ws.chunkSize)
  if ws.mode &&& 2 = 0 then
    if ws.stop ≤ tmp then (ws',none) else (ws',some (tmp,if ws.stop < nend then ws.stop else nend))
  else if tmp ≤ ws.stop then (ws',none)
  else (ws',some (tmp,if nend < ws.stop then ws.stop else nend))

/-- How one pass of a compare-and-swap loop ends: the function returns, or the pass is repeated with
the value found and the chunk as it was cut. -/
inductive Pass where
  | ret (chunk : Option (ℤ × ℤ))
  | retry (start chunk : ℤ)
deriving DecidableEq, Repr

def casNext (ws : WorkShare) (start nend chunk : ℤ) : WorkShare × Pass :=
  if ws.next = start then ({ ws with next := nend },.ret (some (start,nend))) else (ws,.retry ws.next chunk)

def dynamicPass (ws : WorkShare) (start chunk : ℤ) : WorkShare × Pass :=
  let left := long (ws.stop - start)
  if start = ws.stop then (ws,.ret none)
  else
    let chunk := clip ws chunk left
    casNext ws start (long (start + chunk)) chunk

def ullDynamicPass (ws : WorkShare) (start chunk : ℤ) : WorkShare × Pass :=
  let left := ull (ws.stop - start)
  if start = ws.stop then (ws,.ret none)
  else
    let chunk := clipUll ws chunk left
    casNext ws start (ull (start + chunk)) chunk

/-- The division of two `long` values, which faults on overflow. -/
def longDiv (a b : ℤ) : Option ℤ := if a = -2 ^ 63 ∧ b = -1 then none else some (a.tdiv b)

/-- The end of the chunk from `start` in the guided schedule, `n` whole iterations being left. -/
def guidedCut (ws : WorkShare) (nthreads n : ℤ) : Option ℤ :=
  let q := ull (n + nthreads - 1) / nthreads
  let q := if q < ull ws.chunkSize then ull ws.chunkSize else q
  if q ≤ n then some q else none

/-- `nend` in `gomp_iter_guided_next` and its locked version; none when the division faults. -/
def guidedEnd (ws : WorkShare) (nthreads start : ℤ) : Option ℤ :=
  (longDiv (long (ws.stop - start)) ws.incr).map fun n =>
    match guidedCut ws nthreads (ull n) with
    | some q => long (ull (start + ull (q * ws.incr)))
    | none => ws.stop

def ullGuidedEnd (ws : WorkShare) (nthreads start : ℤ) : ℤ :=
  let n := if ws.mode = 0 then ull (ws.stop - start) / ws.incr else ull (start - ws.stop) / ull (-ws.incr)
  match guidedCut ws nthreads n with
  | some q => ull (start + ull (q * ws.incr))
  | none => ws.stop

def gompIterGuidedNextLocked (ws : WorkShare) (nthreads : ℤ) : Option (WorkShare × Option (ℤ × ℤ)) :=
  if ws.next = ws.stop then some (ws,none)
  else (guidedEnd ws nthreads ws.next).map fun nend => ({ ws with next := nend },some (ws.next,nend))

def gompIterUllGuidedNextLocked (ws : WorkShare) (nthreads : ℤ) : WorkShare × Option (ℤ × ℤ) :=
  if ws.next = ws.stop then (ws,none)
  else
    let nend := ullGuidedEnd ws nthreads ws.next
    ({ ws with next := nend },some (ws.next,nend))

def guidedPass (ws : WorkShare) (nthreads start chunk : ℤ) : Option (WorkShare × Pass) :=
  if start = ws.stop then some (ws,.ret none)
  else (guidedEnd ws nthreads start).map fun nend => casNext ws start nend chunk

def ullGuidedPass (ws : WorkShare) (nthreads start chunk : ℤ) : WorkShare × Pass :=
  if start = ws.stop then (ws,.ret none) else casNext ws start (ullGuidedEnd ws nthreads start) chunk

/-! ## The team in the loop -/

def IterType.min : IterType → ℤ
  | .long => -2 ^ 63
  | .ull => 0

def IterType.max : IterType → ℤ
  | .long => longMax
  | .ull => ullMax

theorem IterType.zero_mem (T : IterType) : T.min ≤ 0 ∧ 0 ≤ T.max := by
  cases T <;> decide

/-- The arguments of a loop and of its team.  `incr` is the step with its sign; an
`unsigned long long` loop is given its word.  `locked` says which version the loop uses. -/
structure Args where
  type : IterType
  sched : Sched
  locked : Bool
  nthreads : ℕ
  start : ℤ
  stop : ℤ
  incr : ℤ
  chunkSize : ℤ
  nthreads_pos : 0 < nthreads
  nthreads_lt : nthreads < 2 ^ 32
  incr_ne : incr ≠ 0
  chunk_pos : 1 ≤ chunkSize
  start_mem : type.min ≤ start ∧ start ≤ type.max
  stop_mem : type.min ≤ stop ∧ stop ≤ type.max
  chunk_rep : chunkSize * |incr| ≤ type.max
  diff_rep : type = .long → -2 ^ 63 ≤ stop - start ∧ stop - start ≤ longMax

/-- Where a thread stands: it may call the next-chunk operation, is at the top of a
compare-and-swap loop, was told that there is no chunk left, or was stopped by a faulting division. -/
inductive Pc where
  | ready
  | loop (start chunk : ℤ)
  | done
  | faulted
deriving DecidableEq, Repr

/-- `chunks` are the chunks returned, in the order of the accesses that allocated them, and
`fetches` counts the fetch-and-add operations. -/
structure State where
  ws : WorkShare
  pc : ℕ → Pc
  chunks : List (ℤ × ℤ)
  fetches : ℕ

def Args.workShare (A : Args) : WorkShare :=
  match A.type with
  | .long => gompLoopInit A.nthreads A.start A.stop A.incr A.sched A.chunkSize
  | .ull => gompLoopUllInit A.nthreads (decide (0 < A.incr)) A.start A.stop (ull A.incr) A.sched A.chunkSize

def init (A : Args) : State := ⟨A.workShare,fun _ => .ready,[],0⟩

def Args.nextLocked (A : Args) (ws : WorkShare) : Option (WorkShare × Option (ℤ × ℤ)) :=
  match A.type, A.sched with
  | .long, .dynamic => some (gompIterDynamicNextLocked ws)
  | .ull, .dynamic => some (gompIterUllDynamicNextLocked ws)
  | .long, .guided => gompIterGuidedNextLocked ws A.nthreads
  | .ull, .guided => some (gompIterUllGuidedNextLocked ws A.nthreads)

def Args.usesFetch (A : Args) (ws : WorkShare) : Bool :=
  match A.type, A.sched with
  | .long, .dynamic => ws.mode ≠ 0
  | .ull, .dynamic => ws.mode &&& 1 ≠ 0
  | _, .guided => false

def Args.fetch (A : Args) (ws : WorkShare) : WorkShare × Option (ℤ × ℤ) :=
  match A.type with
  | .long => dynamicFetch ws
  | .ull => ullDynamicFetch ws

def Args.pass (A : Args) (ws : WorkShare) (start chunk : ℤ) : Option (WorkShare × Pass) :=
  match A.type, A.sched with
  | .long, .dynamic => some (dynamicPass ws start chunk)
  | .ull, .dynamic => some (ullDynamicPass ws start chunk)
  | .long, .guided => guidedPass ws A.nthreads start chunk
  | .ull, .guided => some (ullGuidedPass ws A.nthreads start chunk)

def State.setPc (s : State) (t : ℕ) (p : Pc) : State := { s with pc := Function.update s.pc t p }

/-- The operation returns: with a chunk the thread will call again, with false it will not. -/
def State.ret (s : State) (t : ℕ) (ws : WorkShare) : Option (ℤ × ℤ) → State
  | some chunk => { s with ws := ws, chunks := s.chunks ++ [chunk] }.setPc t .ready
  | none => { s with ws := ws }.setPc t .done

/-- A call up to its first access to `ws->next`, or all of it when that is the only one. -/
def call (A : Args) (s : State) (t : ℕ) : State :=
  if A.locked then
    match A.nextLocked s.ws with
    | some (ws,r) => s.ret t ws r
    | none => s.setPc t .faulted
  else if A.usesFetch s.ws then
    let r := A.fetch s.ws
    { s with fetches := s.fetches + 1 }.ret t r.1 r.2
  else s.setPc t (.loop s.ws.next s.ws.chunkSize)

def again (A : Args) (s : State) (t : ℕ) (start chunk : ℤ) : State :=
  match A.pass s.ws start chunk with
  | some (ws,.ret r) => s.ret t ws r
  | some (ws,.retry start chunk) => { s with ws := ws }.setPc t (.loop start chunk)
  | none => s.setPc t .faulted

inductive Event where
  | call (t : ℕ)
  | again (t : ℕ)
deriving DecidableEq, Repr

def step (A : Args) (s : State) : Event → Option State
  | .call t => if t < A.nthreads ∧ s.pc t = .ready then some (call A s t) else none
  | .again t =>
    match s.pc t with
    | .loop start chunk => some (again A s t start chunk)
    | _ => none

/-! ## What the chunks should be -/

def before (incr x bound : ℤ) : Prop := if 0 < incr then x < bound else bound < x

/-- The values of the iteration variable from a start up to a bound. -/
def iters (incr start bound : ℤ) : Set ℤ := {x | ∃ j : ℕ, x = start + j * incr ∧ before incr x bound}

/-- The chunks returned so far are right, and `ws->next` has not run out of its type. -/
structure ChunksOk (A : Args) (s : State) : Prop where
  returns : ∀ t, s.pc t ≠ .faulted
  nonempty : ∀ c ∈ s.chunks, c.1 ∈ iters A.incr c.1 c.2
  inside : ∀ c ∈ s.chunks, iters A.incr c.1 c.2 ⊆ iters A.incr A.start A.stop
  whole : ∀ c ∈ s.chunks, A.incr ∣ c.2 - c.1 ∨ c.2 = A.stop
  disjoint : s.chunks.Pairwise fun c d => Disjoint (iters A.incr c.1 c.2) (iters A.incr d.1 d.2)
  contiguous : s.chunks.IsChain (fun c d => d.1 = c.2) ∧ ∀ c ∈ s.chunks.head?, c.1 = A.start
  complete : ∀ t, s.pc t = .done → iters A.incr A.start A.stop ⊆ ⋃ c ∈ {c | c ∈ s.chunks}, iters A.incr c.1 c.2
  reached : s.fetches = 0 → s.ws.next = (s.chunks.getLast?.map Prod.snd).getD A.start
  fetched : s.fetches ≠ 0 → s.ws.next = A.start + s.fetches * (A.chunkSize * A.incr)
  range : A.type.min ≤ s.ws.next ∧ s.ws.next ≤ A.type.max

end GompUlt.Iter
