import Mathlib
import GompUlt.Loop.Bounds

/-! # Static loop schedules

Every thread computes its ranges from the work share, which nobody writes, and from its own count of
trips, so the calls of different threads do not meet.  The two copies of the function differ in how they
count the iterations and in how they turn a zero-based number into a value of the variable.
-/
namespace GompUlt.Static
open Iter Tiling

/-- What a call leaves in `static_trip`, what it returns, and the range it stores. -/
structure Reply where
  trip : ℤ
  ret : ℤ
  range : Option (ℤ × ℤ)
deriving DecidableEq, Repr

/-- The first zero-based number of a thread, and how many it gets, when the chunk size is not specified. -/
def block (n nthreads i : ℤ) : ℤ × ℤ :=
  let q := n / nthreads
  let t := n % nthreads
  if i < t then (ull (ull (q + 1) * i + 0),ull (q + 1)) else (ull (q * i + t),q)

/-- The common body: `n` is the number of iterations, none when its division faults, and `value` takes a
zero-based number to a value of the variable. -/
def staticNext (n : Option ℤ) (value : ℤ → ℤ) (ws : WorkShare) (nthreads i trip : ℤ) : Option Reply :=
  if trip = ullMax then some ⟨trip,-1,none⟩
  else if nthreads = 1 then some ⟨ullMax,if ws.next = ws.stop then 1 else 0,some (ws.next,ws.stop)⟩
  else if ws.chunkSize = 0 then
    if 0 < trip then some ⟨trip,1,none⟩
    else n.map fun n =>
      let s0 := (block n nthreads i).1
      let e0 := ull (s0 + (block n nthreads i).2)
      if e0 ≤ s0 then ⟨1,1,none⟩
      else ⟨if e0 = n then ullMax else 1,0,some (value s0,value e0)⟩
  else n.map fun n =>
    let s0 := ull (ull (trip * nthreads + i) * ull ws.chunkSize)
    let e0 := ull (s0 + ull ws.chunkSize)
    if n ≤ s0 then ⟨trip,1,none⟩
    else
      let e0 := if n < e0 then n else e0
      ⟨if e0 = n then ullMax else ull (trip + 1),0,some (value s0,value e0)⟩

/-- `n` in `gomp_iter_static_next`. -/
def staticCount (ws : WorkShare) : Option ℤ :=
  let s := long (ws.incr + if 0 < ws.incr then -1 else 1)
  (longDiv (long (long (ws.stop - ws.next) + s)) ws.incr).map ull

/-- `n` in `gomp_iter_ull_static_next`. -/
def ullStaticCount (ws : WorkShare) : ℤ :=
  if ws.mode = 0 then ull (ws.stop - ws.next + ws.incr - 1) / ws.incr
  else ull (ws.next - ws.stop - ws.incr - 1) / ull (-ws.incr)

def gompIterStaticNext (ws : WorkShare) (nthreads i trip : ℤ) : Option Reply :=
  staticNext (staticCount ws) (fun x => long (long x * ws.incr + ws.next)) ws nthreads i trip

def gompIterUllStaticNext (ws : WorkShare) (nthreads i trip : ℤ) : Option Reply :=
  staticNext (some (ullStaticCount ws)) (fun x => ull (x * ws.incr + ws.next)) ws nthreads i trip

/-- The arguments of a static loop with its team. -/
structure Args extends Bounds where
  nthreads : ℕ
  chunkSize : ℕ
  nthreads_pos : 0 < nthreads
  nthreads_lt : nthreads < 2 ^ 32
  chunk_le : (chunkSize : ℤ) ≤ type.max

namespace Args
open Bounds
variable (A : Args)

/-- The work share; the initialisation tells only the dynamic schedule from the others. -/
def workShare : WorkShare :=
  match A.type with
  | .long => gompLoopInit A.nthreads A.start A.stop A.incr .guided A.chunkSize
  | .ull => gompLoopUllInit A.nthreads (decide (0 < A.incr)) A.start A.stop (ull A.incr) .guided A.chunkSize

/-- A call of thread `i`. -/
def next (i : ℕ) (trip : ℤ) : Option Reply :=
  match A.type with
  | .long => gompIterStaticNext A.workShare A.nthreads i trip
  | .ull => gompIterUllStaticNext A.workShare A.nthreads i trip

/-- The calls of thread `i` until one returns non-zero: the ranges received and the final `static_trip`. -/
def calls (i : ℕ) : ℕ → ℤ → Option (List (ℤ × ℤ) × ℤ)
  | 0, _ => none
  | fuel + 1, trip =>
    (A.next i trip).bind fun r =>
      if r.ret ≠ 0 then some ([],r.trip)
      else (calls i fuel r.trip).map fun (l,t) => (r.range.toList ++ l,t)

variable {A}

theorem workShare_long (hT : A.type = .long) : A.workShare = ⟨A.chunkSize,A.stop,A.incr,A.start,0⟩ := by
  unfold workShare gompLoopInit
  rw [hT]
  dsimp only
  rw [if_neg]
  obtain ⟨hi,-,hlt,-⟩ | ⟨hi,-,hlt,-⟩ := A.up_or_down <;> omega

theorem workShare_ull (hT : A.type = .ull) :
    A.workShare = ⟨A.chunkSize,A.stop,ull A.incr,A.start,if 0 < A.incr then 0 else 2⟩ := by
  unfold workShare gompLoopUllInit
  rw [hT]
  dsimp only
  rw [if_neg]
  · simp only [decide_eq_true_eq]
  · obtain ⟨hi,-,hlt,-⟩ | ⟨hi,-,hlt,-⟩ := A.up_or_down <;> simp only [decide_eq_true_eq] <;> omega

theorem workShare_chunkSize : A.workShare.chunkSize = A.chunkSize := by
  cases hT : A.type with
  | long => rw [workShare_long hT]
  | ull => rw [workShare_ull hT]

theorem staticCount_eq (hT : A.type = .long) : staticCount A.workShare = some A.n := by
  rw [workShare_long hT]
  exact A.longCount_eq hT

theorem ullStaticCount_eq (hT : A.type = .ull) : ullStaticCount A.workShare = A.n := by
  rw [workShare_ull hT]
  refine Eq.trans ?_ (A.ullCount_eq hT)
  unfold ullStaticCount
  split <;> simp_all

variable (A) in
/-- The value computed from a zero-based number. -/
def wordValue (y : ℤ) : ℤ :=
  match A.type with
  | .long => long (long y * A.workShare.incr + A.workShare.next)
  | .ull => ull (y * A.workShare.incr + A.workShare.next)

theorem next_eq (i : ℕ) (trip : ℤ) :
    A.next i trip = staticNext (some A.n) A.wordValue A.workShare A.nthreads i trip := by
  unfold next gompIterStaticNext gompIterUllStaticNext
  cases hT : A.type with
  | long =>
    dsimp only
    rw [staticCount_eq hT]
    congr 1
    funext y
    simp only [wordValue, hT]
  | ull =>
    dsimp only
    rw [ullStaticCount_eq hT]
    congr 1
    funext y
    simp only [wordValue, hT]

theorem wordValue_eq {y : ℤ} (h : A.type.min ≤ A.value y ∧ A.value y ≤ A.type.max) : A.wordValue y = A.value y := by
  unfold wordValue
  cases hT : A.type with
  | long =>
    rw [hT] at h
    rw [workShare_long hT]
    have hcongr : long (long y * A.incr + A.start) = long (A.value y) := by
      unfold long value
      rw [← Int.bmod_add_bmod, Int.bmod_mul_bmod, Int.bmod_add_bmod, Int.add_comm]
    simp only [IterType.min, IterType.max, longMax] at h
    exact hcongr.trans (long_eq h.1 (by omega))
  | ull =>
    rw [hT] at h
    rw [workShare_ull hT]
    have hcongr : ull (y * ull A.incr + A.start) = ull (A.value y) := by
      unfold value
      rw [Int.add_comm, ← ull_add_ull, ull_mul_ull, ull_add_ull]
    simp only [IterType.min, IterType.max, ullMax] at h
    exact hcongr.trans (ull_eq h.1 (by omega))

/-! ## Chunks of a given size -/

variable (A) in
/-- How many chunks the iterations make. -/
def numChunks : ℕ := ((A.n + A.chunkSize - 1) / A.chunkSize).toNat

variable (A) in
/-- The zero-based number at which a chunk begins. -/
def chunkStart (j : ℕ) : ℤ := min (j * A.chunkSize) A.n

variable (A) in
/-- The range that a chunk should be. -/
def chunk (j : ℕ) : ℤ × ℤ := (A.value (A.chunkStart j),A.value (A.chunkStart (j + 1)))

theorem lt_numChunks (hc : A.chunkSize ≠ 0) {j : ℕ} : j < A.numChunks ↔ (j : ℤ) * A.chunkSize < A.n := by
  have hpos : 0 < (A.chunkSize : ℤ) := by omega
  have hn := A.n_pos
  have hq : 0 ≤ (A.n + A.chunkSize - 1) / A.chunkSize := Int.ediv_nonneg (by omega) (by omega)
  unfold numChunks
  constructor
  · intro h
    have hle : (j : ℤ) + 1 ≤ (A.n + A.chunkSize - 1) / A.chunkSize := by omega
    have := (Int.le_ediv_iff_mul_le hpos).mp hle
    rw [add_mul, one_mul] at this
    omega
  · intro h
    have hle : (j : ℤ) + 1 ≤ (A.n + A.chunkSize - 1) / A.chunkSize := by
      rw [Int.le_ediv_iff_mul_le hpos, add_mul, one_mul]
      omega
    omega

theorem numChunks_pos (hc : A.chunkSize ≠ 0) : 0 < A.numChunks := by
  rw [lt_numChunks hc]
  simpa using A.n_pos

theorem numChunks_le (hc : A.chunkSize ≠ 0) : (A.numChunks : ℤ) ≤ A.n := by
  by_contra hlt
  have hn := A.n_pos
  have h : A.n.toNat < A.numChunks := by omega
  rw [lt_numChunks hc, Int.toNat_of_nonneg hn.le] at h
  have : A.n * 1 ≤ A.n * A.chunkSize := Int.mul_le_mul_of_nonneg_left (by omega) hn.le
  omega

variable (A) in
/-- No computation of a team of more than one leaves its word: neither the value behind the last iteration,
nor the end of the last chunk, nor, unless it still lies behind the iterations, a start that a thread computes
when there is no chunk left for it. -/
def NoWrap : Prop :=
  1 < A.nthreads → (A.type.min ≤ A.value A.n ∧ A.value A.n ≤ A.type.max) ∧
    (A.chunkSize ≠ 0 → (A.numChunks : ℤ) * A.chunkSize < 2 ^ 64 ∧
      ∀ j, A.numChunks ≤ j → j + 1 < A.numChunks + A.nthreads → A.n ≤ (j : ℤ) * A.chunkSize % 2 ^ 64)

/-- The start that a thread computes, as a word. -/
theorem chunk_word (i k : ℕ) :
    ull (ull ((k : ℤ) * A.nthreads + i) * ull A.chunkSize) = ((k * A.nthreads + i : ℕ) : ℤ) * A.chunkSize % 2 ^ 64 := by
  unfold ull
  push_cast
  rw [← Int.mul_emod]

section Chunks
variable {i k : ℕ} (hT : 1 < A.nthreads) (hc : A.chunkSize ≠ 0) (hw : A.NoWrap)
include hT hc hw

theorem next_chunk (hk : k * A.nthreads + i < A.numChunks) :
    A.next i k = some ⟨if k * A.nthreads + i + 1 = A.numChunks then ullMax else (k + 1 : ℕ),0,
      some (A.chunk (k * A.nthreads + i))⟩ := by
  obtain ⟨hend,hchunks⟩ := hw hT
  obtain ⟨hlast,-⟩ := hchunks hc
  have hn := A.n_lt
  have hpos := A.n_pos
  have hm := numChunks_le hc
  have hstart := (lt_numChunks hc).mp hk
  have hnext := lt_numChunks hc (j := k * A.nthreads + i + 1)
  have hcpos : 0 < (A.chunkSize : ℤ) := by omega
  have h0 : 0 ≤ ((k * A.nthreads + i : ℕ) : ℤ) * A.chunkSize := Int.mul_nonneg (by omega) (by omega)
  have hmul : (((k * A.nthreads + i + 1 : ℕ) : ℤ)) * A.chunkSize ≤ A.numChunks * A.chunkSize :=
    Int.mul_le_mul_of_nonneg_right (by omega) hcpos.le
  have hsucc : ((k * A.nthreads + i + 1 : ℕ) : ℤ) * A.chunkSize = ((k * A.nthreads + i : ℕ) : ℤ) * A.chunkSize + A.chunkSize := by
    push_cast
    rw [add_mul _ 1, one_mul]
  have htrip : 2 * k ≤ k * A.nthreads := by nlinarith
  have hs0 := chunk_word (A := A) i k
  rw [Int.emod_eq_of_lt h0 (by omega)] at hs0
  have hcw : ull A.chunkSize = A.chunkSize := ull_eq (by omega) (by omega)
  have he0 : ull (((k * A.nthreads + i : ℕ) : ℤ) * A.chunkSize + A.chunkSize) =
      ((k * A.nthreads + i + 1 : ℕ) : ℤ) * A.chunkSize := by
    rw [hsucc]
    exact ull_eq (by omega) (by omega)
  have hmin : (if A.n < ((k * A.nthreads + i + 1 : ℕ) : ℤ) * A.chunkSize then A.n else
      ((k * A.nthreads + i + 1 : ℕ) : ℤ) * A.chunkSize) = A.chunkStart (k * A.nthreads + i + 1) := by
    rw [chunkStart, min_comm, min_def]
    split <;> split <;> omega
  have hbegin : A.chunkStart (k * A.nthreads + i) = ((k * A.nthreads + i : ℕ) : ℤ) * A.chunkSize := min_eq_left hstart.le
  have hdone : A.chunkStart (k * A.nthreads + i + 1) = A.n ↔ k * A.nthreads + i + 1 = A.numChunks := by
    rw [chunkStart, min_eq_right_iff]
    omega
  have hv0 : A.wordValue (A.chunkStart (k * A.nthreads + i)) = A.value (A.chunkStart (k * A.nthreads + i)) := by
    rw [hbegin]
    exact wordValue_eq (value_mem h0 hstart)
  have hv1 : A.wordValue (A.chunkStart (k * A.nthreads + i + 1)) = A.value (A.chunkStart (k * A.nthreads + i + 1)) := by
    apply wordValue_eq
    obtain he | hlt := eq_or_lt_of_le (min_le_right (((k * A.nthreads + i + 1 : ℕ) : ℤ) * A.chunkSize) A.n)
    · rw [chunkStart, he]
      exact hend
    · refine value_mem ?_ hlt
      rw [chunkStart]
      exact le_min (by omega) hpos.le
  have htw : ull ((k : ℤ) + 1) = (k + 1 : ℕ) := by
    push_cast
    exact ull_eq (by omega) (by omega)
  rw [next_eq, staticNext, if_neg (by unfold ullMax; omega), if_neg (by omega), workShare_chunkSize, if_neg (by omega),
    Option.map_some]
  dsimp only
  rw [hs0, hcw, he0, hmin, if_neg (by omega), htw, ← hbegin, hv0, hv1]
  simp only [hdone]
  rfl

theorem next_none (hk : A.numChunks ≤ k * A.nthreads + i) (hk' : k * A.nthreads + i + 1 < A.numChunks + A.nthreads) :
    A.next i k = some ⟨k,1,none⟩ := by
  obtain ⟨hlast,hbeyond⟩ := (hw hT).2 hc
  have hn := A.n_lt
  have hm := numChunks_le hc
  have hlt := A.nthreads_lt
  have htrip : 2 * k ≤ k * A.nthreads := by nlinarith
  have hs0 := chunk_word (A := A) i k
  rw [next_eq, staticNext, if_neg (by unfold ullMax; omega), if_neg (by omega), workShare_chunkSize, if_neg (by omega),
    Option.map_some]
  dsimp only
  rw [hs0, if_pos (hbeyond _ hk hk')]

end Chunks

/-- A thread that has received the last iteration is told so at once. -/
theorem calls_finished (i fuel : ℕ) : A.calls i (fuel + 1) ullMax = some ([],ullMax) := by
  rw [calls, next_eq, staticNext, if_pos rfl]
  rfl

variable (A) in
/-- The chunks of a thread. -/
def chunkCount (i : ℕ) : ℕ := (A.numChunks + A.nthreads - 1 - i) / A.nthreads

theorem lt_chunkCount {i k : ℕ} (hi : i < A.nthreads) : k < A.chunkCount i ↔ k * A.nthreads + i < A.numChunks := by
  rw [chunkCount, Nat.lt_iff_add_one_le, Nat.le_div_iff_mul_le A.nthreads_pos, add_mul, one_mul]
  omega

section Chunks
variable {i : ℕ} (hT : 1 < A.nthreads) (hc : A.chunkSize ≠ 0) (hw : A.NoWrap) (hi : i < A.nthreads)
include hT hc hw hi

/-- From a trip on, a thread receives its remaining chunks. -/
theorem calls_chunks (d k fuel : ℕ) (hd : A.chunkCount i = k + d) (hlast : d = 0 → i ≠ (A.numChunks - 1) % A.nthreads)
    (hf : d + 2 ≤ fuel) :
    A.calls i fuel k = some ((List.range d).map fun e => A.chunk ((k + e) * A.nthreads + i),
      if i = (A.numChunks - 1) % A.nthreads then ullMax else A.chunkCount i) := by
  have hm := numChunks_pos hc
  obtain ⟨fuel,rfl⟩ : ∃ f, fuel = f + 1 := ⟨fuel - 1,by omega⟩
  induction d generalizing k fuel with
  | zero =>
    have hge : A.numChunks ≤ k * A.nthreads + i := by
      by_contra hlt
      have := (lt_chunkCount hi).mpr (not_le.mp hlt)
      omega
    have hlt : k * A.nthreads + i + 1 < A.numChunks + A.nthreads := by
      by_contra hge'
      have hne := hlast rfl
      cases k with
      | zero => omega
      | succ k =>
        rw [add_mul, one_mul] at hge'
        have hlt := (lt_chunkCount (k := k) hi).mp (by omega)
        have he : A.numChunks - 1 = k * A.nthreads + i := by omega
        rw [he, Nat.mul_add_mod_of_lt hi] at hne
        exact hne rfl
    rw [calls, next_none hT hc hw hge hlt, if_neg (hlast rfl), hd]
    rfl
  | succ d ih =>
    have hk : k * A.nthreads + i < A.numChunks := (lt_chunkCount hi).mp (by omega)
    rw [calls, next_chunk hT hc hw hk, Option.bind_some, if_neg (by simp), List.range_succ_eq_map]
    by_cases he : k * A.nthreads + i + 1 = A.numChunks
    · have hmod : i = (A.numChunks - 1) % A.nthreads := by
        rw [← he, Nat.add_sub_cancel, Nat.mul_add_mod_of_lt hi]
      have hd0 : d = 0 := by
        by_contra hne
        have := (lt_chunkCount (k := k + 1) hi).mp (by omega)
        rw [add_mul, one_mul] at this
        omega
      obtain ⟨fuel,rfl⟩ : ∃ f, fuel = f + 1 := ⟨fuel - 1,by omega⟩
      simp only [if_pos he, calls_finished, if_pos hmod, hd0]
      rfl
    · obtain ⟨fuel,rfl⟩ : ∃ f, fuel = f + 1 := ⟨fuel - 1,by omega⟩
      have hrest := ih (k + 1) (by omega) (fun hd0 hmod => he ?_) fuel (by omega)
      · simp only [if_neg he, hrest, Option.map_some, List.map_cons, List.map_map]
        simp only [Option.toList_some, List.singleton_append, Nat.add_zero]
        congr 3
        refine List.map_congr_left fun e _ => ?_
        simp only [Function.comp_apply, Nat.succ_eq_add_one]
        congr 3
        omega
      · -- the thread of the last chunk has none behind this one
        have hquot : (A.numChunks - 1) / A.nthreads < A.chunkCount i := by
          rw [lt_chunkCount hi, hmod, Nat.mul_comm, Nat.div_add_mod]
          omega
        have hge : k ≤ (A.numChunks - 1) / A.nthreads := by
          rw [Nat.le_div_iff_mul_le A.nthreads_pos]
          omega
        have hkeq : (A.numChunks - 1) / A.nthreads = k := by omega
        have hdiv := Nat.div_add_mod (A.numChunks - 1) A.nthreads
        rw [hkeq, ← hmod, Nat.mul_comm] at hdiv
        omega

end Chunks

/-! ## Blocks when no chunk size is given -/

variable (A) in
/-- The zero-based number at which the block of a thread begins: the first `n % nthreads` blocks are longer by one. -/
def blockStart (i : ℕ) : ℤ := i * (A.n / A.nthreads) + min (i : ℤ) (A.n % A.nthreads)

theorem blockStart_zero : A.blockStart 0 = 0 := by
  have h := Int.emod_nonneg A.n (show (A.nthreads : ℤ) ≠ 0 by have := A.nthreads_pos; omega)
  simp only [blockStart, Nat.cast_zero, zero_mul, zero_add]
  exact min_eq_left h

theorem blockStart_nthreads : A.blockStart A.nthreads = A.n := by
  have hT := A.nthreads_pos
  have hlt := Int.emod_lt_of_pos A.n (show (0 : ℤ) < A.nthreads by omega)
  rw [blockStart, min_eq_right hlt.le]
  exact Int.mul_ediv_add_emod _ _

theorem blockStart_succ (i : ℕ) :
    A.blockStart (i + 1) = A.blockStart i + A.n / A.nthreads + if (i : ℤ) < A.n % A.nthreads then 1 else 0 := by
  unfold blockStart
  push_cast
  rw [add_mul, one_mul]
  split <;> omega

theorem blockStart_mono : Monotone A.blockStart := by
  refine monotone_nat_of_le_succ fun i => ?_
  have hq : 0 ≤ A.n / A.nthreads := Int.ediv_nonneg A.n_pos.le (by omega)
  rw [blockStart_succ]
  split <;> omega

theorem blockStart_bounds {i : ℕ} (hi : i ≤ A.nthreads) : 0 ≤ A.blockStart i ∧ A.blockStart i ≤ A.n := by
  have h0 := blockStart_mono (A := A) (Nat.zero_le i)
  have h1 := blockStart_mono (A := A) hi
  rw [blockStart_zero] at h0
  rw [blockStart_nthreads] at h1
  exact ⟨h0,h1⟩

/-- The block computed in words. -/
theorem block_eq {i : ℕ} (hi : i < A.nthreads) :
    (block A.n A.nthreads i).1 = A.blockStart i ∧
    ull ((block A.n A.nthreads i).1 + (block A.n A.nthreads i).2) = A.blockStart (i + 1) := by
  have hn := A.n_lt
  have hq : 0 ≤ A.n / A.nthreads := Int.ediv_nonneg A.n_pos.le (by omega)
  have h0 := blockStart_bounds (A := A) hi.le
  have h1 := blockStart_bounds (A := A) (show i + 1 ≤ A.nthreads from hi)
  have hsucc := blockStart_succ (A := A) i
  unfold block
  dsimp only
  by_cases ht : (i : ℤ) < A.n % A.nthreads
  · rw [if_pos ht] at hsucc ⊢
    have hq1 : ull (A.n / A.nthreads + 1) = A.n / A.nthreads + 1 := ull_eq (by omega) (by omega)
    have hs : (A.n / A.nthreads + 1) * i + 0 = A.blockStart i := by
      rw [blockStart, min_eq_left ht.le, add_mul, one_mul, mul_comm]
      omega
    dsimp only
    rw [hq1, hs, ull_eq h0.1 (by omega)]
    refine ⟨rfl,?_⟩
    rw [ull_eq (by omega) (by omega)]
    omega
  · rw [if_neg ht] at hsucc ⊢
    have hs : A.n / A.nthreads * i + A.n % A.nthreads = A.blockStart i := by
      rw [blockStart, min_eq_right (not_lt.mp ht), mul_comm]
    dsimp only
    rw [hs, ull_eq h0.1 (by omega)]
    refine ⟨rfl,?_⟩
    rw [ull_eq (by omega) (by omega)]
    omega

variable (A) in
/-- What a thread receives without a chunk size: one block, or nothing. -/
def blockShare (i : ℕ) : List (ℤ × ℤ) :=
  if A.blockStart i < A.blockStart (i + 1) then [(A.value (A.blockStart i),A.value (A.blockStart (i + 1)))] else []

variable (A) in
def blockTrip (i : ℕ) : ℤ :=
  if A.blockStart i < A.blockStart (i + 1) ∧ A.blockStart (i + 1) = A.n then ullMax else 1

theorem next_block {i : ℕ} (hT : 1 < A.nthreads) (hc : A.chunkSize = 0) (hw : A.NoWrap) (hi : i < A.nthreads) :
    A.next i 0 = some (if A.blockStart i < A.blockStart (i + 1) then
      ⟨if A.blockStart (i + 1) = A.n then ullMax else 1,0,
        some (A.value (A.blockStart i),A.value (A.blockStart (i + 1)))⟩ else ⟨1,1,none⟩) := by
  obtain ⟨hs,he⟩ := block_eq hi
  rw [hs] at he
  have h0 := blockStart_bounds (A := A) hi.le
  have h1 := blockStart_bounds (A := A) (show i + 1 ≤ A.nthreads from hi)
  rw [next_eq, staticNext, if_neg (by decide), if_neg (by omega), workShare_chunkSize, if_pos (by omega),
    if_neg (by decide), Option.map_some]
  simp only [hs, he]
  by_cases hlt : A.blockStart i < A.blockStart (i + 1)
  · have hv0 := wordValue_eq (value_mem h0.1 (by omega : A.blockStart i < A.n))
    have hv1 : A.wordValue (A.blockStart (i + 1)) = A.value (A.blockStart (i + 1)) := by
      apply wordValue_eq
      obtain heq | hne := eq_or_lt_of_le h1.2
      · rw [heq]
        exact (hw hT).1
      · exact value_mem h1.1 hne
    rw [if_neg (by omega), if_pos hlt, hv0, hv1]
  · rw [if_pos (by omega), if_neg hlt]

theorem calls_block {i fuel : ℕ} (hT : 1 < A.nthreads) (hc : A.chunkSize = 0) (hw : A.NoWrap) (hi : i < A.nthreads)
    (hf : 2 ≤ fuel) : A.calls i fuel 0 = some (A.blockShare i,A.blockTrip i) := by
  obtain ⟨fuel,rfl⟩ : ∃ f, fuel = f + 1 + 1 := ⟨fuel - 2,by omega⟩
  have hagain : A.next i 1 = some ⟨1,1,none⟩ := by
    rw [next_eq, staticNext, if_neg (by decide), if_neg (by omega), workShare_chunkSize, if_pos (by omega),
      if_pos (by decide)]
  rw [calls, next_block hT hc hw hi, Option.bind_some]
  unfold blockShare blockTrip
  by_cases hlt : A.blockStart i < A.blockStart (i + 1)
  · simp only [hlt, if_true, true_and]
    by_cases hend : A.blockStart (i + 1) = A.n
    · simp [hend, calls_finished]
    · simp [hend, calls, hagain]
  · simp [hlt]

/-! ## A team of one -/

theorem workShare_bounds : A.workShare.next = A.start ∧ A.workShare.stop = A.stop := by
  cases hT : A.type with
  | long => rw [workShare_long hT]; exact ⟨rfl,rfl⟩
  | ull => rw [workShare_ull hT]; exact ⟨rfl,rfl⟩

/-- The only thread takes all the iterations as they were given, whatever the chunk size. -/
theorem calls_single {i fuel : ℕ} (hT : A.nthreads = 1) (hf : 2 ≤ fuel) :
    A.calls i fuel 0 = some ([(A.start,A.stop)],ullMax) := by
  obtain ⟨fuel,rfl⟩ : ∃ f, fuel = f + 1 + 1 := ⟨fuel - 2,by omega⟩
  have hne : A.start ≠ A.stop := by
    obtain ⟨-,-,hlt,-⟩ | ⟨-,-,hlt,-⟩ := A.up_or_down <;> omega
  obtain ⟨hstart,hstop⟩ := A.workShare_bounds
  rw [calls, next_eq, staticNext, if_neg (by decide), if_pos (by omega), hstart, hstop, if_neg hne, Option.bind_some]
  simp [calls_finished]

/-! ## Dealing out the iterations -/

section Cut
variable {l : ℕ → List (ℤ × ℤ)} {trip : ℕ → ℤ} {cut : ℕ → ℤ} {m : ℕ} (hmono : Monotone cut) (h0 : cut 0 = 0)
  (hm : cut m = A.n) (hle : ∀ j, cut j ≤ A.n)
  (hl : ∀ i < A.nthreads, ∀ k, (l i)[k]? = if cut (k * A.nthreads + i) < cut (k * A.nthreads + i + 1) then
    some (A.value (cut (k * A.nthreads + i)),A.value (cut (k * A.nthreads + i + 1))) else none)
include hl

/-- What thread `i` receives in trip `k` are the iterations between two cuts. -/
theorem received_iff {i k : ℕ} (hi : i < A.nthreads) {x : ℤ} :
    (∃ c, (l i)[k]? = some c ∧ x ∈ iters A.incr c.1 c.2) ↔
      ∃ y, cut (k * A.nthreads + i) ≤ y ∧ y < cut (k * A.nthreads + i + 1) ∧ x = A.value y := by
  rw [hl i hi k]
  constructor
  · rintro ⟨c,hc,hx⟩
    obtain ⟨-,hc⟩ := Option.ite_none_right_eq_some.mp hc
    cases hc
    exact mem_range.mp hx
  · rintro ⟨y,hy,hy',rfl⟩
    rw [if_pos (by omega)]
    exact ⟨_,rfl,mem_range.mpr ⟨y,hy,hy',rfl⟩⟩

include hmono h0 hm in
theorem once_of_cut {x : ℤ} (hx : x ∈ iters A.incr A.start A.stop) :
    ∃! p : ℕ × ℕ, p.1 < A.nthreads ∧ ∃ c, (l p.1)[p.2]? = some c ∧ x ∈ iters A.incr c.1 c.2 := by
  obtain ⟨y,hy,hyn,rfl⟩ := mem_space.mp hx
  obtain ⟨j,⟨-,hj⟩,huniq⟩ := existsUnique_between hmono (m := m) (y := y) (by omega) (by omega)
  have hT := A.nthreads_pos
  have hdiv : j / A.nthreads * A.nthreads + j % A.nthreads = j := Nat.div_add_mod' _ _
  refine ⟨(j % A.nthreads,j / A.nthreads),⟨Nat.mod_lt _ hT,?_⟩,fun p ⟨hp,hc⟩ => ?_⟩
  · refine (received_iff hl (Nat.mod_lt _ hT)).mpr ⟨y,?_,?_,rfl⟩
    · rw [hdiv]
      exact hj.1
    · rw [hdiv]
      exact hj.2
  · obtain ⟨z,hz,hz',hval⟩ := (received_iff hl hp).mp hc
    obtain rfl := value_inj hval
    have hpj : p.2 * A.nthreads + p.1 = j := by
      refine huniq _ ⟨?_,hz,hz'⟩
      by_contra hge
      have := hmono (not_lt.mp hge)
      omega
    refine Prod.ext ?_ ?_
    · rw [← hpj, Nat.mul_add_mod_of_lt hp]
    · rw [← hpj, Nat.add_comm, Nat.add_mul_div_right _ _ hT, Nat.div_eq_of_lt hp, Nat.zero_add]

include hmono h0 hle in
theorem inside_of_cut {i : ℕ} (hi : i < A.nthreads) {c : ℤ × ℤ} (hc : c ∈ l i) :
    iters A.incr c.1 c.2 ⊆ iters A.incr A.start A.stop := by
  intro x hx
  obtain ⟨k,hk⟩ := List.mem_iff_getElem?.mp hc
  obtain ⟨y,hy,hy',rfl⟩ := (received_iff hl hi).mp ⟨c,hk,hx⟩
  have := hmono (Nat.zero_le (k * A.nthreads + i))
  have := hle (k * A.nthreads + i + 1)
  exact mem_space.mpr ⟨y,by omega,by omega,rfl⟩

variable (ht : ∀ i < A.nthreads, trip i = ullMax ↔
  ∃ k, cut (k * A.nthreads + i) < A.n ∧ cut (k * A.nthreads + i + 1) = A.n)

omit hl in
include hmono h0 hm ht in
/-- The last iteration is in one range only. -/
theorem last_of_cut : ∃! i, i < A.nthreads ∧ trip i = ullMax := by
  have hn := A.n_pos
  obtain ⟨j,⟨hjm,hj⟩,huniq⟩ := existsUnique_between hmono (m := m) (y := A.n - 1) (by omega) (by omega)
  have hT := A.nthreads_pos
  have hjn : cut (j + 1) = A.n := by
    have := hmono (show j + 1 ≤ m from hjm)
    omega
  have hdiv : j / A.nthreads * A.nthreads + j % A.nthreads = j := Nat.div_add_mod' _ _
  refine ⟨j % A.nthreads,⟨Nat.mod_lt _ hT,(ht _ (Nat.mod_lt _ hT)).mpr ⟨j / A.nthreads,?_⟩⟩,fun i ⟨hi,hlast⟩ => ?_⟩
  · rw [hdiv]
    exact ⟨by omega,hjn⟩
  · obtain ⟨k,hk,hk'⟩ := (ht i hi).mp hlast
    have hkj : k * A.nthreads + i = j := by
      refine huniq _ ⟨?_,by omega,by omega⟩
      by_contra hge
      have := hmono (not_lt.mp hge)
      omega
    rw [← hkj, Nat.mul_add_mod_of_lt hi]

include hmono hle ht in
theorem lastRange_of_cut {i : ℕ} (hi : i < A.nthreads) (hlast : trip i = ullMax) :
    ∃ c, (l i).getLast? = some c ∧ A.value (A.n - 1) ∈ iters A.incr c.1 c.2 := by
  obtain ⟨k,hk,hk'⟩ := (ht i hi).mp hlast
  obtain ⟨c,hc,hx⟩ := (received_iff (k := k) hl hi).mpr ⟨A.n - 1,by omega,by omega,rfl⟩
  have hnone : (l i)[k + 1]? = none := by
    have h1 := hmono (show k * A.nthreads + i + 1 ≤ (k + 1) * A.nthreads + i by
      rw [add_mul, one_mul]
      omega)
    have h2 := hle ((k + 1) * A.nthreads + i + 1)
    rw [hl i hi, if_neg (by omega)]
  have hlen := List.getElem?_eq_none_iff.mp hnone
  have hlt := (List.getElem?_eq_some_iff.mp hc).1
  refine ⟨c,?_,hx⟩
  rw [List.getLast?_eq_getElem?, show (l i).length - 1 = k by omega]
  exact hc

end Cut

theorem chunkStart_mono : Monotone A.chunkStart := by
  intro j k hjk
  have : (j : ℤ) * A.chunkSize ≤ k * A.chunkSize := Int.mul_le_mul_of_nonneg_right (by omega) (by omega)
  exact min_le_min_right _ this

theorem chunkStart_zero : A.chunkStart 0 = 0 := by
  have hn := A.n_pos
  rw [chunkStart, Nat.cast_zero, zero_mul, min_eq_left hn.le]

theorem chunkStart_eq_n (hc : A.chunkSize ≠ 0) {j : ℕ} : A.chunkStart j = A.n ↔ A.numChunks ≤ j := by
  rw [chunkStart, min_eq_right_iff, ← not_lt, ← lt_numChunks hc, not_lt]

theorem chunkStart_lt (hc : A.chunkSize ≠ 0) {j : ℕ} : A.chunkStart j < A.n ↔ j < A.numChunks := by
  rw [chunkStart, min_lt_iff, or_iff_left (lt_irrefl _), ← lt_numChunks hc]

theorem chunkStart_lt_succ (hc : A.chunkSize ≠ 0) {j : ℕ} :
    A.chunkStart j < A.chunkStart (j + 1) ↔ (j : ℤ) * A.chunkSize < A.n := by
  have hsucc : ((j + 1 : ℕ) : ℤ) * A.chunkSize = j * A.chunkSize + A.chunkSize := by
    push_cast
    rw [add_mul, one_mul]
  unfold chunkStart
  omega

/-! ## The team -/

/-- What the calls of the team come to: the ranges `l i` that thread `i` receives, one in each trip, and the value
`trip i` that its `static_trip` has in the end. -/
structure Shares (A : Args) (l : ℕ → List (ℤ × ℤ)) (trip : ℕ → ℤ) : Prop where
  single : A.nthreads = 1 → l 0 = [(A.start,A.stop)]
  blocks : 1 < A.nthreads → A.chunkSize = 0 → ∀ i < A.nthreads, l i = A.blockShare i
  chunks : 1 < A.nthreads → A.chunkSize ≠ 0 → ∀ i < A.nthreads, ∀ k, (l i)[k]? =
    if ((k * A.nthreads + i : ℕ) : ℤ) * A.chunkSize < A.n then some (A.chunk (k * A.nthreads + i)) else none
  once : ∀ x ∈ iters A.incr A.start A.stop,
    ∃! p : ℕ × ℕ, p.1 < A.nthreads ∧ ∃ c, (l p.1)[p.2]? = some c ∧ x ∈ iters A.incr c.1 c.2
  inside : ∀ i < A.nthreads, ∀ c ∈ l i, iters A.incr c.1 c.2 ⊆ iters A.incr A.start A.stop
  last : ∃! i, i < A.nthreads ∧ trip i = ullMax
  lastRange : ∀ i < A.nthreads, trip i = ullMax →
    ∃ c, (l i).getLast? = some c ∧ A.value (A.n - 1) ∈ iters A.incr c.1 c.2

theorem shares_single (hT : A.nthreads = 1) : A.Shares (fun _ => [(A.start,A.stop)]) (fun _ => ullMax) where
  single _ := rfl
  blocks h := by omega
  chunks h := by omega
  once x hx := by
    refine ⟨(0,0),⟨A.nthreads_pos,_,rfl,hx⟩,fun p ⟨hp,c,hc,_⟩ => ?_⟩
    have hk := (List.getElem?_eq_some_iff.mp hc).1
    rw [List.length_singleton] at hk
    exact Prod.ext (show p.1 = 0 by omega) (show p.2 = 0 by omega)
  inside i _ c hc := by
    rw [List.mem_singleton.mp hc]
  last := ⟨0,⟨A.nthreads_pos,rfl⟩,fun i ⟨hi,_⟩ => by omega⟩
  lastRange i _ _ := by
    have hn := A.n_pos
    exact ⟨_,rfl,mem_space.mpr ⟨A.n - 1,by omega,by omega,rfl⟩⟩

theorem shares_blocks (hT : 1 < A.nthreads) (hc : A.chunkSize = 0) : A.Shares A.blockShare A.blockTrip := by
  have hmono : Monotone fun j => A.blockStart (min j A.nthreads) := fun j k hjk =>
    blockStart_mono (min_le_min_right _ hjk)
  have h0 : A.blockStart (min 0 A.nthreads) = 0 := by
    rw [Nat.zero_min, blockStart_zero]
  have hm : A.blockStart (min A.nthreads A.nthreads) = A.n := by
    rw [Nat.min_self, blockStart_nthreads]
  have hle : ∀ j, A.blockStart (min j A.nthreads) ≤ A.n := fun j => (blockStart_bounds (min_le_right _ _)).2
  have hfirst : ∀ i < A.nthreads, min (0 * A.nthreads + i) A.nthreads = i ∧
      min (0 * A.nthreads + i + 1) A.nthreads = i + 1 := fun i hi => by omega
  have hlater : ∀ i k, min ((k + 1) * A.nthreads + i) A.nthreads = A.nthreads ∧
      min ((k + 1) * A.nthreads + i + 1) A.nthreads = A.nthreads := by
    intro i k
    rw [add_mul, one_mul]
    omega
  have hl : ∀ i < A.nthreads, ∀ k, (A.blockShare i)[k]? =
      if A.blockStart (min (k * A.nthreads + i) A.nthreads) < A.blockStart (min (k * A.nthreads + i + 1) A.nthreads) then
        some (A.value (A.blockStart (min (k * A.nthreads + i) A.nthreads)),
          A.value (A.blockStart (min (k * A.nthreads + i + 1) A.nthreads))) else none := by
    intro i hi k
    unfold blockShare
    cases k with
    | zero =>
      rw [(hfirst i hi).1, (hfirst i hi).2]
      split <;> rfl
    | succ k =>
      rw [(hlater i k).1, (hlater i k).2, if_neg (lt_irrefl _)]
      split <;> rfl
  have ht : ∀ i < A.nthreads, A.blockTrip i = ullMax ↔
      ∃ k, A.blockStart (min (k * A.nthreads + i) A.nthreads) < A.n ∧
        A.blockStart (min (k * A.nthreads + i + 1) A.nthreads) = A.n := by
    intro i hi
    have hone : ¬(1 : ℤ) = ullMax := by decide
    simp only [blockTrip, ite_eq_left_iff, hone, imp_false, not_not]
    constructor
    · rintro ⟨hlt,hend⟩
      refine ⟨0,?_⟩
      rw [(hfirst i hi).1, (hfirst i hi).2]
      exact ⟨by omega,hend⟩
    · rintro ⟨k,hk,hk'⟩
      cases k with
      | zero =>
        rw [(hfirst i hi).1] at hk
        rw [(hfirst i hi).2] at hk'
        exact ⟨by omega,hk'⟩
      | succ k =>
        rw [(hlater i k).1, blockStart_nthreads] at hk
        omega
  exact
    { single := fun h => by omega
      blocks := fun _ _ _ _ => rfl
      chunks := fun _ h => absurd hc h
      once := fun _ hx => once_of_cut hmono h0 hm hl hx
      inside := fun _ hi _ hx => inside_of_cut hmono h0 hle hl hi hx
      last := last_of_cut hmono h0 hm ht
      lastRange := fun _ hi hlast => lastRange_of_cut hmono hle hl ht hi hlast }

variable (A) in
/-- What a thread receives with a chunk size. -/
def chunkShare (i : ℕ) : List (ℤ × ℤ) := (List.range (A.chunkCount i)).map fun k => A.chunk (k * A.nthreads + i)

variable (A) in
def chunkTrip (i : ℕ) : ℤ := if i = (A.numChunks - 1) % A.nthreads then ullMax else A.chunkCount i

theorem chunkCount_ne_ullMax {i : ℕ} (hT : 1 < A.nthreads) (hc : A.chunkSize ≠ 0) (hi : i < A.nthreads) :
    (A.chunkCount i : ℤ) ≠ ullMax := by
  have hn := A.n_lt
  have hm := numChunks_le hc
  intro h
  unfold ullMax at h
  have hlt := (lt_chunkCount (k := A.chunkCount i - 1) hi).mp (by omega)
  have : (A.chunkCount i - 1) * 2 ≤ (A.chunkCount i - 1) * A.nthreads := Nat.mul_le_mul_left _ hT
  omega

theorem shares_chunks (hT : 1 < A.nthreads) (hc : A.chunkSize ≠ 0) : A.Shares A.chunkShare A.chunkTrip := by
  have hm := numChunks_pos hc
  have hl : ∀ i < A.nthreads, ∀ k, (A.chunkShare i)[k]? =
      if A.chunkStart (k * A.nthreads + i) < A.chunkStart (k * A.nthreads + i + 1) then
        some (A.value (A.chunkStart (k * A.nthreads + i)),A.value (A.chunkStart (k * A.nthreads + i + 1))) else none := by
    intro i hi k
    have hcount := lt_chunkCount (k := k) hi
    simp only [chunkStart_lt_succ hc, ← lt_numChunks hc, ← hcount]
    unfold chunkShare
    split
    case isTrue h => rw [List.getElem?_map, List.getElem?_range h]; rfl
    case isFalse h => rw [List.getElem?_eq_none (by simpa using h)]
  have ht : ∀ i < A.nthreads, A.chunkTrip i = ullMax ↔
      ∃ k, A.chunkStart (k * A.nthreads + i) < A.n ∧ A.chunkStart (k * A.nthreads + i + 1) = A.n := by
    intro i hi
    simp only [chunkTrip, ite_eq_left_iff, chunkCount_ne_ullMax hT hc hi, imp_false, not_not, chunkStart_lt hc,
      chunkStart_eq_n hc]
    constructor
    · intro hmod
      have hdiv := Nat.div_add_mod' (A.numChunks - 1) A.nthreads
      rw [← hmod] at hdiv
      exact ⟨(A.numChunks - 1) / A.nthreads,by omega,by omega⟩
    · rintro ⟨k,hk,hk'⟩
      rw [show A.numChunks - 1 = k * A.nthreads + i by omega, Nat.mul_add_mod_of_lt hi]
  exact
    { single := fun h => by omega
      blocks := fun _ h => absurd h hc
      chunks := fun _ _ i hi k => by
        simp only [hl i hi k, chunkStart_lt_succ hc]
        rfl
      once := fun _ hx => once_of_cut chunkStart_mono chunkStart_zero ((chunkStart_eq_n hc).mpr le_rfl) hl hx
      inside := fun _ hi _ hx => inside_of_cut chunkStart_mono chunkStart_zero (fun _ => min_le_right _ _) hl hi hx
      last := last_of_cut chunkStart_mono chunkStart_zero ((chunkStart_eq_n hc).mpr le_rfl) ht
      lastRange := fun _ hi hlast => lastRange_of_cut chunkStart_mono (fun _ => min_le_right _ _) hl ht hi hlast }

/-- The calls of a team of more than one. -/
theorem exists_shares (hT : 1 < A.nthreads) (hw : A.NoWrap) : ∃ l trip, A.Shares l trip ∧
    ∀ i < A.nthreads, ∃ bound, ∀ fuel, bound ≤ fuel → A.calls i fuel 0 = some (l i,trip i) := by
  by_cases hc : A.chunkSize = 0
  · exact ⟨_,_,shares_blocks hT hc,fun i hi => ⟨2,fun fuel hf => calls_block hT hc hw hi hf⟩⟩
  · refine ⟨_,_,shares_chunks hT hc,fun i hi => ⟨A.chunkCount i + 2,fun fuel hf => ?_⟩⟩
    rw [show (0 : ℤ) = (0 : ℕ) from rfl]
    rw [calls_chunks hT hc hw hi (A.chunkCount i) 0 fuel (by omega) (fun h0 hmod => ?_) hf]
    · simp only [Nat.zero_add]
      rfl
    · have hm := numChunks_pos hc
      have hlt := (lt_chunkCount (k := (A.numChunks - 1) / A.nthreads) hi).mpr (by
        have := Nat.div_add_mod' (A.numChunks - 1) A.nthreads
        rw [← hmod] at this
        omega)
      rw [h0] at hlt
      exact Nat.not_lt_zero _ hlt

/-- The calls of every thread come to an end, and together they deal out the iterations. -/
theorem static_next_shares (A : Args) (hw : A.NoWrap) : ∃ l trip, A.Shares l trip ∧
    ∀ i < A.nthreads, ∃ bound, ∀ fuel, bound ≤ fuel → A.calls i fuel 0 = some (l i,trip i) := by
  have hT := A.nthreads_pos
  obtain hT | hT := eq_or_lt_of_le (show 1 ≤ A.nthreads from hT)
  · exact ⟨_,_,shares_single hT.symm,fun i _ => ⟨2,fun fuel hf => calls_single hT.symm hf⟩⟩
  · exact exists_shares hT hw

/-- Ten iterations in chunks of three for two threads. -/
def tenInThrees : Args where
  type := .long
  nthreads := 2
  start := 0
  stop := 10
  incr := 1
  chunkSize := 3
  nthreads_pos := by decide
  nthreads_lt := by decide
  incr_ne := by decide
  chunk_le := by decide
  start_mem := IterType.zero_mem .long
  stop_mem := by decide
  nonempty := by simp [before]
  count_rep := by decide
  div_rep := by decide

theorem tenInThrees_noWrap : tenInThrees.NoWrap := by
  have hm : tenInThrees.numChunks = 4 := by decide
  refine fun _ => ⟨by decide,fun _ => ⟨by decide,fun j hj hj' => ?_⟩⟩
  rw [hm] at hj hj'
  obtain rfl : j = 4 := by
    change j + 1 < 4 + 2 at hj'
    omega
  decide

theorem static_next_shares_threes : ∃ l trip, tenInThrees.Shares l trip ∧
    ∀ i < tenInThrees.nthreads, ∃ bound, ∀ fuel, bound ≤ fuel → tenInThrees.calls i fuel 0 = some (l i,trip i) :=
  static_next_shares tenInThrees tenInThrees_noWrap

/-- Three iterations in chunks of one for a single thread. -/
def threeAlone : Args where
  type := .long
  nthreads := 1
  start := 0
  stop := 3
  incr := 1
  chunkSize := 1
  nthreads_pos := by decide
  nthreads_lt := by decide
  incr_ne := by decide
  chunk_le := by decide
  start_mem := IterType.zero_mem .long
  stop_mem := by decide
  nonempty := by simp [before]
  count_rep := by decide
  div_rep := by decide

theorem four_lt_word : 4 < 2 ^ 32 := by decide

/-- Two chunks for four threads, with the start of the fifth wrapping to the first. -/
def fourWide : Args where
  type := .ull
  nthreads := 4
  start := 0
  stop := 2 ^ 62 + 1
  incr := 1
  chunkSize := 2 ^ 62
  nthreads_pos := Nat.zero_lt_succ 3
  nthreads_lt := four_lt_word
  incr_ne := by decide
  chunk_le := by decide
  start_mem := by decide
  stop_mem := by decide
  nonempty := by simp [before]
  count_rep := by decide
  div_rep := by decide

/-- Two iterations, the value behind the second of which is no `long`. -/
def twoAtTheEnd : Args where
  type := .long
  nthreads := 2
  start := 2 ^ 63 - 4
  stop := 2 ^ 63 - 1
  incr := 2
  chunkSize := 0
  nthreads_pos := by decide
  nthreads_lt := by decide
  incr_ne := by decide
  chunk_le := by decide
  start_mem := by decide
  stop_mem := by decide
  nonempty := by simp [before]
  count_rep := by decide
  div_rep := by decide

/-- A thread does not always receive chunk `k * nthreads + i` in trip `k`: a single thread receives everything at
once, a start that wraps has a chunk received again, and an end that wraps has a range that runs nowhere. -/
theorem static_next_not_by_chunks :
    (¬∀ A : Args, A.chunkSize ≠ 0 → ∀ i < A.nthreads, ∀ l trip fuel, A.calls i fuel 0 = some (l,trip) →
      ∀ k, ((k * A.nthreads + i : ℕ) : ℤ) * A.chunkSize < A.n → l[k]? = some (A.chunk (k * A.nthreads + i))) ∧
    (fourWide.next 0 0 = some ⟨1,0,some (fourWide.chunk 0)⟩ ∧ fourWide.next 0 1 = some ⟨2,0,some (fourWide.chunk 0)⟩) ∧
    (twoAtTheEnd.calls 1 3 0 = some ([(2 ^ 63 - 2,-2 ^ 63)],ullMax) ∧ 2 ^ 63 - 2 ∈ iters 2 (2 ^ 63 - 4) (2 ^ 63 - 1) ∧
      iters 2 (2 ^ 63 - 2) (-2 ^ 63) = ∅) := by
  refine ⟨fun hall => ?_,⟨by decide,by decide⟩,by decide,⟨1,by norm_num,by simp [before]⟩,?_⟩
  · have hcalls : threeAlone.calls 0 2 0 = some ([(0,3)],ullMax) := by decide
    have hfirst := hall threeAlone (by decide) 0 (by decide) _ _ _ hcalls 0 (by decide)
    revert hfirst
    decide
  · rw [Set.eq_empty_iff_forall_notMem]
    rintro x ⟨j,rfl,hj⟩
    rw [before, if_pos (by norm_num)] at hj
    omega

end Args

end GompUlt.Static
