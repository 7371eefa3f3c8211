import Mathlib
import GompUlt.Loop.StaticSched

/-! # The owner of an outer iteration of a doacross loop

Under a static schedule the shared array has one entry per thread.  A post writes that of its own thread; a
wait computes from the iteration whose entry it has to read.
-/
namespace GompUlt.DoacrossOwner
open Iter Static

def sdiv (a b : ℤ) : Option ℤ := if b = 0 then none else longDiv a b

def udiv (a b : ℤ) : Option ℤ := if b = 0 then none else some (a / b)

/-- A doacross loop with a static schedule and a team of more than one. -/
structure Loop where
  type : IterType
  count : ℤ
  nthreads : ℕ
  chunkSize : ℕ
  count_pos : 1 ≤ count
  count_le : count ≤ type.max
  one_lt_nthreads : 1 < nthreads
  nthreads_lt : nthreads < 2 ^ 32
  chunk_le : (chunkSize : ℤ) ≤ type.max

/-- The fields of struct gomp_doacross_work_share that a static schedule uses, and the number of entries. -/
structure WorkShare where
  numEnts : ℤ
  q : ℤ
  t : ℤ
  boundary : ℤ
deriving DecidableEq, Repr

namespace Loop

/-- gomp_doacross_init and gomp_doacross_ull_init for a static schedule; the last three fields keep the given
values when there is a chunk size. -/
def gompDoacrossInit (L : Loop) (old : WorkShare) : Option WorkShare :=
  let numEnts : ℤ := L.nthreads
  if L.chunkSize = 0 then
    (udiv L.count numEnts).map fun q =>
      let t := L.count % numEnts
      let boundary := ull (t * ull (q + 1))
      match L.type with
      | .long => ⟨numEnts,long q,long t,long boundary⟩
      | .ull => ⟨numEnts,q,long t,boundary⟩
  else some { old with numEnts }

/-- The entry in GOMP_doacross_wait and GOMP_doacross_ull_wait. -/
def waitEnt (L : Loop) (d : WorkShare) (first : ℤ) : Option ℤ :=
  match L.type with
  | .long =>
    let ent :=
      if L.chunkSize = 0 then
        if first < d.boundary then sdiv first (long (d.q + 1))
        else (sdiv (long (first - d.boundary)) d.q).map fun x => long (x + d.t)
      else (sdiv first L.chunkSize).map fun x => x.tmod L.nthreads
    ent.map ull
  | .ull =>
    if L.chunkSize = 0 then
      if first < d.boundary then udiv first (ull (d.q + 1))
      else (udiv (ull (first - d.boundary)) d.q).map fun x => ull (x + ull d.t)
    else (udiv first L.chunkSize).map fun x => x % L.nthreads

def postEnt (_L : Loop) (teamId : ℕ) : ℤ := teamId

/-- The loop as GOMP_loop_doacross_static_start hands it to gomp_loop_init: from 0 in steps of 1. -/
def args (L : Loop) : Static.Args where
  type := L.type
  start := 0
  stop := L.count
  incr := 1
  nthreads := L.nthreads
  chunkSize := L.chunkSize
  nthreads_pos := Nat.zero_lt_of_lt L.one_lt_nthreads
  nthreads_lt := L.nthreads_lt
  chunk_le := L.chunk_le
  incr_ne := one_ne_zero
  start_mem := L.type.zero_mem
  stop_mem := ⟨L.type.zero_mem.1.trans (zero_le_one.trans L.count_pos),L.count_le⟩
  nonempty := by
    have h := L.count_pos
    simp only [before, zero_lt_one, if_true]
    omega
  count_rep := by
    have h := L.count_pos
    have hle := L.count_le
    rw [sub_zero, abs_of_pos (by omega), abs_one]
    unfold spanMax
    unfold IterType.max at hle
    split <;> simp_all
  div_rep := by simp

section Owner
variable {L : Loop}

theorem args_value (y : ℤ) : L.args.value y = y := by
  simp [Bounds.value, args]

theorem args_n : L.args.n = L.count := by
  have h := L.count_pos
  simp only [Bounds.n, args, sub_zero, abs_one, Int.ediv_one]
  rw [abs_of_pos (by omega)]
  omega

theorem count_lt : L.count < 2 ^ 64 := by
  have h := L.count_le
  unfold IterType.max longMax ullMax at h
  split at h <;> omega

/-- The thread whose block holds an iteration, as the wait computes it. -/
def blockOwner (n nthreads v : ℤ) : ℤ :=
  if v < n % nthreads * (n / nthreads + 1) then v / (n / nthreads + 1)
  else (v - n % nthreads * (n / nthreads + 1)) / (n / nthreads) + n % nthreads

/-- The owner's block begins at or before the iteration and ends behind it. -/
theorem blockOwner_spec {v : ℤ} (h0 : 0 ≤ v) (hv : v < L.count) :
    ∃ e : ℕ, blockOwner L.count L.nthreads v = e ∧ e < L.nthreads ∧ L.args.blockStart e ≤ v ∧
      v < L.args.blockStart (e + 1) := by
  have hT := L.one_lt_nthreads
  have hstart : ∀ i : ℕ, L.args.blockStart i =
      i * (L.count / L.nthreads) + min (i : ℤ) (L.count % L.nthreads) := fun i => by
    rw [Static.Args.blockStart, args_n]
    rfl
  have hq0 : 0 ≤ L.count / L.nthreads := Int.ediv_nonneg (by have := L.count_pos; omega) (by omega)
  have ht0 := Int.emod_nonneg L.count (show (L.nthreads : ℤ) ≠ 0 by omega)
  have htm := Int.emod_lt_of_pos L.count (show (0 : ℤ) < L.nthreads by omega)
  have hn := Int.mul_ediv_add_emod L.count L.nthreads
  unfold blockOwner
  generalize L.count / L.nthreads = q at *
  generalize L.count % L.nthreads = t at *
  by_cases hlow : v < t * (q + 1)
  · rw [if_pos hlow]
    have hlo := Int.ediv_mul_le v (show q + 1 ≠ 0 by omega)
    have hhi := Int.lt_ediv_add_one_mul_self v (show 0 < q + 1 by omega)
    have he0 : 0 ≤ v / (q + 1) := Int.ediv_nonneg h0 (by omega)
    have het : v / (q + 1) < t := Int.ediv_lt_of_lt_mul (by omega) hlow
    generalize v / (q + 1) = e at *
    lift e to ℕ using he0
    refine ⟨e,rfl,by omega,?_,?_⟩
    · rw [hstart, min_eq_left het.le]
      linarith [mul_add (e : ℤ) q 1]
    · rw [hstart]
      push_cast
      rw [min_eq_left (by omega)]
      linarith [mul_add ((e : ℤ) + 1) q 1]
  · rw [if_neg hlow]
    have hq : 0 < q := by
      rcases hq0.lt_or_eq with h | h
      · exact h
      · rw [← h] at hlow hn
        omega
    have hlo := Int.ediv_mul_le (v - t * (q + 1)) hq.ne'
    have hhi := Int.lt_ediv_add_one_mul_self (v - t * (q + 1)) hq
    have hf0 : 0 ≤ (v - t * (q + 1)) / q := Int.ediv_nonneg (by omega) hq0
    have hft : (v - t * (q + 1)) / q < L.nthreads - t := by
      refine Int.ediv_lt_of_lt_mul hq ?_
      linarith [sub_mul (L.nthreads : ℤ) t q, mul_add t q 1]
    generalize (v - t * (q + 1)) / q = f at *
    lift f to ℕ using hf0
    lift t to ℕ using ht0
    refine ⟨f + t,by push_cast; rfl,by omega,?_,?_⟩
    · rw [hstart, min_eq_right (by push_cast; omega)]
      push_cast
      linarith [add_mul (f : ℤ) t q, mul_add (t : ℤ) q 1]
    · rw [hstart, min_eq_right (by push_cast; omega)]
      push_cast
      linarith [add_mul (f : ℤ) t q, add_mul ((f : ℤ) + t) 1 q, add_mul (f : ℤ) 1 q, mul_add (t : ℤ) q 1]

/-- What the wait computes when no chunk size is given. -/
theorem waitEnt_block (hc : L.chunkSize = 0) (old : WorkShare) {v : ℤ} (h0 : 0 ≤ v) (hv : v < L.count) :
    ∃ d, L.gompDoacrossInit old = some d ∧ d.numEnts = L.nthreads ∧
      L.waitEnt d v = some (blockOwner L.count L.nthreads v) := by
  have hT := L.one_lt_nthreads
  have hm := L.nthreads_lt
  have hpos := L.count_pos
  have hle := L.count_le
  have hnz : (L.nthreads : ℤ) ≠ 0 := by omega
  have hq0 : 0 ≤ L.count / L.nthreads := Int.ediv_nonneg (by omega) (by omega)
  have hqn : L.count / L.nthreads ≤ L.count := Int.ediv_le_self _ (by omega)
  have ht0 := Int.emod_nonneg L.count hnz
  have htm := Int.emod_lt_of_pos L.count (show (0 : ℤ) < L.nthreads by omega)
  have hn := Int.mul_ediv_add_emod L.count L.nthreads
  have hlt := L.count_lt
  -- the longer blocks end at or before the count, so no product leaves its word
  have hb : L.count % L.nthreads * (L.count / L.nthreads + 1) ≤ L.count := by
    have := mul_le_mul_of_nonneg_right htm.le hq0
    linarith [mul_add (L.count % L.nthreads) (L.count / L.nthreads) 1]
  have hb0 : 0 ≤ L.count % L.nthreads * (L.count / L.nthreads + 1) := mul_nonneg ht0 (by omega)
  have hq1 : L.count / L.nthreads + 1 ≤ L.count := by
    have := mul_le_mul_of_nonneg_right (show (2 : ℤ) ≤ L.nthreads by omega) hq0
    by_cases hz : L.count / L.nthreads = 0
    · omega
    · omega
  obtain ⟨e,he,hem,-⟩ := blockOwner_spec h0 hv
  refine ⟨_,by rw [gompDoacrossInit, if_pos hc, udiv, if_neg hnz, Option.map_some],?_,?_⟩
  · cases L.type <;> rfl
  simp only [ull_eq (show 0 ≤ L.count / L.nthreads + 1 by omega) (by omega), ull_eq hb0 (by omega), he]
  unfold blockOwner at he
  unfold waitEnt
  generalize L.count / L.nthreads = q at *
  generalize L.count % L.nthreads = t at *
  cases hty : L.type with
  | long =>
    rw [hty] at hle
    simp only [IterType.max, longMax] at hle
    simp only [if_pos hc, long_eq (show -2 ^ 63 ≤ q by omega) (by omega), long_eq (show -2 ^ 63 ≤ t by omega) (by omega),
      long_eq (show -2 ^ 63 ≤ t * (q + 1) by omega) (by omega), long_eq (show -2 ^ 63 ≤ q + 1 by omega) (by omega)]
    by_cases hlow : v < t * (q + 1)
    · rw [if_pos hlow] at he ⊢
      rw [sdiv, if_neg (by omega), longDiv, if_neg (by omega), Option.map_some, Int.tdiv_eq_ediv_of_nonneg h0, he,
        ull_eq (by omega) (by omega)]
    · rw [if_neg hlow] at he ⊢
      have hq : q ≠ 0 := by
        rintro rfl
        omega
      rw [long_eq (by omega) (by omega), sdiv, if_neg hq, longDiv, if_neg (by omega), Option.map_some, Option.map_some,
        Int.tdiv_eq_ediv_of_nonneg (by omega), he, long_eq (by omega) (by omega), ull_eq (by omega) (by omega)]
  | ull =>
    simp only [if_pos hc, long_eq (show -2 ^ 63 ≤ t by omega) (by omega), ull_eq (show 0 ≤ q + 1 by omega) (by omega),
      ull_eq ht0 (by omega)]
    by_cases hlow : v < t * (q + 1)
    · rw [if_pos hlow] at he ⊢
      rw [udiv, if_neg (by omega), he]
    · rw [if_neg hlow] at he ⊢
      have hq : q ≠ 0 := by
        rintro rfl
        omega
      rw [ull_eq (by omega) (by omega), udiv, if_neg hq, Option.map_some, he, ull_eq (by omega) (by omega)]

/-- What it computes with a chunk size. -/
theorem waitEnt_chunk (hc : L.chunkSize ≠ 0) (old : WorkShare) {v : ℤ} (h0 : 0 ≤ v) :
    ∃ d, L.gompDoacrossInit old = some d ∧ d.numEnts = L.nthreads ∧
      L.waitEnt d v = some (v / L.chunkSize % L.nthreads) := by
  have hT := L.one_lt_nthreads
  refine ⟨_,if_neg hc,rfl,?_⟩
  have hdiv : (L.chunkSize : ℤ) ≠ 0 := by omega
  have hq0 : 0 ≤ v / L.chunkSize := Int.ediv_nonneg h0 (by omega)
  have hr0 := Int.emod_nonneg (v / L.chunkSize) (show (L.nthreads : ℤ) ≠ 0 by omega)
  have hrm := Int.emod_lt_of_pos (v / L.chunkSize) (show (0 : ℤ) < L.nthreads by omega)
  have hm := L.nthreads_lt
  unfold waitEnt
  cases L.type with
  | long =>
    have hs : sdiv v L.chunkSize = some (v / L.chunkSize) := by
      rw [sdiv, if_neg hdiv, longDiv, if_neg (by omega), Int.tdiv_eq_ediv_of_nonneg h0]
    simp only [if_neg hc, hs, Option.map_some, Int.tmod_eq_emod_of_nonneg hq0]
    rw [ull_eq hr0 (by omega)]
  | ull => simp only [if_neg hc, udiv, if_neg hdiv, Option.map_some]

/-- The values that a thread receives when no chunk size is given. -/
theorem mem_block {i : ℕ} {v : ℤ} : (∃ c ∈ L.args.blockShare i, c.1 ≤ v ∧ v < c.2) ↔
    L.args.blockStart i ≤ v ∧ v < L.args.blockStart (i + 1) := by
  unfold Static.Args.blockShare
  split
  · simp [args_value]
  · rename_i h
    simp only [List.not_mem_nil, false_and, exists_false, false_iff]
    omega

/-- The owner is the only thread whose block holds the iteration. -/
theorem block_unique {i e : ℕ} {v : ℤ} (he : L.args.blockStart e ≤ v ∧ v < L.args.blockStart (e + 1))
    (hi : L.args.blockStart i ≤ v ∧ v < L.args.blockStart (i + 1)) : i = e := by
  rcases lt_trichotomy i e with h | h | h
  · have := Static.Args.blockStart_mono (A := L.args) (show i + 1 ≤ e from h)
    omega
  · exact h
  · have := Static.Args.blockStart_mono (A := L.args) (show e + 1 ≤ i from h)
    omega

/-- The values that a thread receives with a chunk size: those of the chunks of its residue. -/
theorem mem_chunks (hc : L.chunkSize ≠ 0) {i : ℕ} (hi : i < L.nthreads) {l : List (ℤ × ℤ)}
    (hl : ∀ k, l[k]? = if ((k * L.nthreads + i : ℕ) : ℤ) * L.chunkSize < L.count then
      some (L.args.chunk (k * L.nthreads + i)) else none) {v : ℤ} (h0 : 0 ≤ v) (hv : v < L.count) :
    (∃ c ∈ l, c.1 ≤ v ∧ v < c.2) ↔ (i : ℤ) = v / L.chunkSize % L.nthreads := by
  have hcpos : (0 : ℤ) < L.chunkSize := by omega
  have hchunk : ∀ j : ℕ, (L.args.chunk j).1 ≤ v ∧ v < (L.args.chunk j).2 ↔ v / L.chunkSize = j := by
    intro j
    simp only [Static.Args.chunk, args_value, Static.Args.chunkStart, args_n]
    change min ((j : ℤ) * L.chunkSize) L.count ≤ v ∧ v < min (((j + 1 : ℕ) : ℤ) * L.chunkSize) L.count ↔ _
    rw [Int.ediv_eq_iff_of_pos hcpos]
    push_cast
    rw [add_mul, one_mul]
    omega
  constructor
  · rintro ⟨c,hcl,hcv⟩
    obtain ⟨k,hk⟩ := List.mem_iff_getElem?.mp hcl
    rw [hl] at hk
    obtain ⟨-,hk⟩ := Option.ite_none_right_eq_some.mp hk
    cases hk
    rw [(hchunk _).mp hcv]
    push_cast
    rw [Int.mul_add_emod_self_right, Int.emod_eq_of_lt (by omega) (by omega)]
  · intro he
    have hq0 : 0 ≤ v / L.chunkSize := Int.ediv_nonneg h0 (by omega)
    obtain ⟨j,hj⟩ := Int.eq_ofNat_of_zero_le hq0
    rw [hj] at he
    have hji : j / L.nthreads * L.nthreads + i = j := by
      have hd := Nat.div_add_mod' j L.nthreads
      have hm : i = j % L.nthreads := by exact_mod_cast he
      omega
    have hle := Int.ediv_mul_le v hcpos.ne'
    rw [hj] at hle
    refine ⟨L.args.chunk j,List.mem_iff_getElem?.mpr ⟨j / L.nthreads,?_⟩,(hchunk j).mpr hj⟩
    rw [hl, hji, if_pos (by omega)]

end Owner

/-- Where a static loop deals out its iterations without overflow, the entry that a wait reads is that of the
thread which receives the iteration. -/
theorem doacross_owner (L : Loop) (hw : L.args.NoWrap) (old : WorkShare) :
    ∃ (d : WorkShare) (l : ℕ → List (ℤ × ℤ)) (trip : ℕ → ℤ), L.gompDoacrossInit old = some d ∧
      (∀ i < L.nthreads, ∃ bound, ∀ fuel, bound ≤ fuel → L.args.calls i fuel 0 = some (l i,trip i)) ∧
      ∀ v, 0 ≤ v → v < L.count → ∃ e, L.waitEnt d v = some e ∧ 0 ≤ e ∧ e < d.numEnts ∧
        ∀ i < L.nthreads, (∃ c ∈ l i, c.1 ≤ v ∧ v < c.2) ↔ L.postEnt i = e := by
  have hT := L.one_lt_nthreads
  obtain ⟨l,trip,hs,hcalls⟩ := Static.Args.exists_shares hT hw
  by_cases hc : L.chunkSize = 0
  · obtain ⟨d,hd,hents,-⟩ := waitEnt_block hc old le_rfl (show 0 < L.count by have := L.count_pos; omega)
    refine ⟨d,l,trip,hd,hcalls,fun v h0 hv => ?_⟩
    obtain ⟨d',hd',-,hwait⟩ := waitEnt_block hc old h0 hv
    obtain rfl : d = d' := Option.some.inj (hd.symm.trans hd')
    obtain ⟨e,he,hem,hblock⟩ := blockOwner_spec h0 hv
    refine ⟨e,by rw [hwait, he],by omega,by omega,fun i hi => ?_⟩
    rw [hs.blocks hT hc i hi, mem_block, postEnt, Nat.cast_inj]
    constructor
    · exact block_unique hblock
    · rintro rfl
      exact hblock
  · obtain ⟨d,hd,hents,-⟩ := waitEnt_chunk hc old le_rfl
    refine ⟨d,l,trip,hd,hcalls,fun v h0 hv => ?_⟩
    obtain ⟨d',hd',-,hwait⟩ := waitEnt_chunk hc old h0
    obtain rfl : d = d' := Option.some.inj (hd.symm.trans hd')
    refine ⟨_,hwait,Int.emod_nonneg _ (by omega),?_,fun i hi => ?_⟩
    · rw [hents]
      exact Int.emod_lt_of_pos _ (by omega)
    · refine mem_chunks hc hi (fun k => ?_) h0 hv
      rw [hs.chunks hT hc i hi k, args_n]
      rfl

/-- Eleven iterations for three threads in chunks of two. -/
def elevenForThree : Loop where
  type := .long
  count := 11
  nthreads := 3
  chunkSize := 2
  count_pos := by decide
  count_le := by decide
  one_lt_nthreads := by decide
  nthreads_lt := by decide
  chunk_le := by decide

theorem elevenForThree_noWrap : elevenForThree.args.NoWrap := by
  have hchunks : elevenForThree.args.numChunks = 6 := by decide
  have hn : elevenForThree.args.n = 11 := by decide
  refine fun _ => ⟨by decide,fun _ => ⟨by decide,fun j hj hlt => ?_⟩⟩
  rw [hchunks] at hj hlt
  have hthreads : elevenForThree.args.nthreads = 3 := rfl
  have hsize : elevenForThree.args.chunkSize = 2 := rfl
  rw [hn, hsize]
  omega

theorem doacross_owner_eleven : ∃ (d : WorkShare) (l : ℕ → List (ℤ × ℤ)) (trip : ℕ → ℤ),
    elevenForThree.gompDoacrossInit ⟨0,0,0,0⟩ = some d ∧
    (∀ i < elevenForThree.nthreads, ∃ bound, ∀ fuel, bound ≤ fuel → elevenForThree.args.calls i fuel 0 = some (l i,trip i)) ∧
    ∀ v, 0 ≤ v → v < elevenForThree.count → ∃ e, elevenForThree.waitEnt d v = some e ∧ 0 ≤ e ∧ e < d.numEnts ∧
      ∀ i < elevenForThree.nthreads, (∃ c ∈ l i, c.1 ≤ v ∧ v < c.2) ↔ elevenForThree.postEnt i = e :=
  doacross_owner elevenForThree elevenForThree_noWrap ⟨0,0,0,0⟩

end Loop
end GompUlt.DoacrossOwner
