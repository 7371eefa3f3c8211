import GompUlt.Loop.Iter
import GompUlt.Lib.Tiling

/-! # The chunks of dynamic and guided loops

Both directions and both types are brought to one form: `p` counts how far the loop has come from
its start, `N` is the whole way, `D` the length of an iteration and `C` that of a full chunk.
-/
namespace GompUlt.Iter
open Run Tiling

theorem long_eq {x : ℤ} (h1 : -2 ^ 63 ≤ x) (h2 : x < 2 ^ 63) : long x = x :=
  Int.bmod_eq_of_le (by push_cast; omega) (by push_cast; omega)

theorem ull_eq {x : ℤ} (h1 : 0 ≤ x) (h2 : x < 2 ^ 64) : ull x = x := Int.emod_eq_of_lt h1 h2

theorem ull_neg {x : ℤ} (h1 : 0 < x) (h2 : x < 2 ^ 64) : ull (-x) = 2 ^ 64 - x := by
  unfold ull
  omega

theorem long_ull (x : ℤ) : long (ull x) = long x := Int.emod_bmod x (2 ^ 64)

theorem ull_add_ull (x y : ℤ) : ull (x + ull y) = ull (x + y) := by
  unfold ull
  omega

theorem ull_mul_ull (x y : ℤ) : ull (x * ull y) = ull (x * y) := by
  unfold ull
  rw [Int.mul_emod,Int.emod_emod,← Int.mul_emod]

namespace Args
variable (A : Args)

/-- The direction of the loop. -/
def sgn : ℤ := if 0 < A.incr then 1 else -1

/-- The length of an iteration. -/
def D : ℤ := |A.incr|

/-- The length of a full chunk of the dynamic schedule. -/
def C : ℤ := A.chunkSize * A.D

/-- The way from the start to the end, zero when there are no iterations. -/
def N : ℤ := if 0 < A.sgn * (A.stop - A.start) then A.sgn * (A.stop - A.start) else 0

/-- The value of the iteration variable at distance `p` from the start. -/
def val (p : ℤ) : ℤ := A.start + A.sgn * p

/-- A value stored in a word of the loop's type. -/
def word (x : ℤ) : ℤ :=
  match A.type with
  | .long => long x
  | .ull => ull x

variable {A}

/-- The two directions, each with what is left of `N` in it. -/
theorem up_or_down :
    (0 < A.incr ∧ A.sgn = 1 ∧ A.D = A.incr ∧ (0 < A.N ∧ A.N = A.stop - A.start ∨ A.N = 0 ∧ A.stop ≤ A.start)) ∨
    (A.incr < 0 ∧ A.sgn = -1 ∧ A.D = -A.incr ∧
      (0 < A.N ∧ A.N = A.start - A.stop ∨ A.N = 0 ∧ A.start ≤ A.stop)) := by
  obtain h | h := lt_or_gt_of_ne A.incr_ne
  · have hs : A.sgn = -1 := if_neg (by omega)
    refine Or.inr ⟨h,hs,abs_of_neg h,?_⟩
    unfold N
    rw [hs]
    split <;> omega
  · have hs : A.sgn = 1 := if_pos h
    refine Or.inl ⟨h,hs,abs_of_pos h,?_⟩
    unfold N
    rw [hs]
    split <;> omega

theorem incr_eq : A.incr = A.sgn * A.D := by
  obtain ⟨-,hs,hd,-⟩ | ⟨-,hs,hd,-⟩ := A.up_or_down <;> rw [hs,hd] <;> omega

theorem D_pos : 0 < A.D := abs_pos.mpr A.incr_ne

theorem D_le_C : A.D ≤ A.C := by
  unfold C
  have h := A.chunk_pos
  have hd := A.D_pos
  nlinarith

theorem D_dvd_C : A.D ∣ A.C := Dvd.intro_left _ rfl

theorem C_pos : 0 < A.C := lt_of_lt_of_le D_pos D_le_C

theorem C_le : A.C ≤ A.type.max := A.chunk_rep

theorem chunk_incr : A.chunkSize * A.incr = A.sgn * A.C := by
  rw [incr_eq]
  exact Int.mul_left_comm _ _ _

theorem N_nonneg : 0 ≤ A.N := by
  obtain ⟨-,-,-,hN⟩ | ⟨-,-,-,hN⟩ := A.up_or_down <;> omega

theorem val_N (h : 0 < A.N) : A.val A.N = A.stop := by
  unfold val
  obtain ⟨-,hs,-,hN⟩ | ⟨-,hs,-,hN⟩ := A.up_or_down <;> rw [hs] <;> omega

@[simp] theorem val_zero : A.val 0 = A.start := by
  simp [val]

theorem val_inj {p q : ℤ} (h : A.val p = A.val q) : p = q := by
  unfold val at h
  obtain ⟨-,hs,-⟩ | ⟨-,hs,-⟩ := A.up_or_down <;> rw [hs] at h <;> omega

/-- A value of the loop's type. -/
def Rep (A : Args) (x : ℤ) : Prop := A.type.min ≤ x ∧ x ≤ A.type.max

theorem word_eq {x : ℤ} (h : A.Rep x) : A.word x = x := by
  unfold Rep at h
  unfold word
  cases hT : A.type with
  | long =>
    simp only [hT, IterType.min, IterType.max, longMax] at h
    exact long_eq h.1 (by omega)
  | ull =>
    simp only [hT, IterType.min, IterType.max, ullMax] at h
    exact ull_eq h.1 (by omega)

/-- The values on the way are values of the type. -/
theorem val_rep {p : ℤ} (h0 : 0 ≤ p) (hp : p ≤ A.N) : A.Rep (A.val p) := by
  have hstart := A.start_mem
  have hstop := A.stop_mem
  unfold Rep val
  obtain ⟨-,hs,-,hN⟩ | ⟨-,hs,-,hN⟩ := A.up_or_down <;> rw [hs] <;> omega

/-- In a `long` loop the way is at most the length of the type's half. -/
theorem N_le_long (h : A.type = .long) :
    A.N ≤ 2 ^ 63 ∧ (A.N = 2 ^ 63 ↔ A.stop - A.start = -2 ^ 63 ∧ A.incr < 0) := by
  have hdiff := A.diff_rep h
  unfold longMax at hdiff
  obtain ⟨hi,-,-,hN⟩ | ⟨hi,-,-,hN⟩ := A.up_or_down <;> omega

theorem N_le_ull (h : A.type = .ull) : A.N < 2 ^ 64 := by
  have hstart := A.start_mem
  have hstop := A.stop_mem
  rw [h] at hstart hstop
  simp only [IterType.min, IterType.max, ullMax] at hstart hstop
  obtain ⟨-,-,-,hN⟩ | ⟨-,-,-,hN⟩ := A.up_or_down <;> omega

theorem word_add_word (x y : ℤ) : A.word (x + A.word y) = A.word (x + y) := by
  unfold word
  cases A.type with
  | long => exact Int.add_bmod_bmod
  | ull => exact ull_add_ull x y

/-- A step from `val p` that keeps to the type. -/
theorem word_val_add {p k : ℤ} (h : A.Rep (A.val (p + k))) : A.word (A.val p + A.word (A.sgn * k)) = A.val (p + k) := by
  have hsum : A.val p + A.sgn * k = A.val (p + k) := by
    unfold val
    rw [mul_add]
    omega
  rw [word_add_word,hsum,word_eq h]

/-- The lengths that occur: of a chunk, or of what is left. -/
def Fits (A : Args) (k : ℤ) : Prop := 0 < k ∧ (k ≤ A.C ∨ k ≤ A.N)

/-- The word of a length in the direction of the loop, in a `long` loop. -/
theorem word_sgn_long {k : ℤ} (hT : A.type = .long) (h : A.Fits k) : A.word (A.sgn * k) = A.sgn * k := by
  obtain ⟨hpos,hle⟩ := h
  have hC := A.C_le
  have hN := N_le_long hT
  simp only [hT, IterType.max, longMax] at hC
  unfold word
  rw [hT]
  obtain ⟨hi,hs,-,-⟩ | ⟨hi,hs,-,-⟩ := A.up_or_down <;> rw [hs] <;> exact long_eq (by omega) (by omega)

/-- In an `unsigned long long` loop a length downwards is stored as its complement. -/
theorem word_sgn_ull {k : ℤ} (hT : A.type = .ull) (h : A.Fits k) :
    A.word (A.sgn * k) = if 0 < A.incr then k else 2 ^ 64 - k := by
  obtain ⟨hpos,hle⟩ := h
  have hC := A.C_le
  have hN := N_le_ull hT
  simp only [hT, IterType.max, ullMax] at hC
  unfold word
  rw [hT]
  obtain ⟨hi,hs,-,-⟩ | ⟨hi,hs,-,-⟩ := A.up_or_down
  · rw [hs,one_mul,if_pos hi]
    exact ull_eq (by omega) (by omega)
  · rw [hs,neg_one_mul,if_neg (by omega)]
    exact ull_neg hpos (by omega)

end Args

/-! ## The work share -/

/-- The fields that do not change, and what the fast path's test has promised. -/
structure Shape (A : Args) (ws : WorkShare) : Prop where
  stop : ws.stop = A.val A.N
  incr : ws.incr = A.word A.incr
  dynamic : A.sched = .dynamic → ws.chunkSize = A.word (A.sgn * A.C)
  guided : A.sched = .guided → ws.chunkSize = A.chunkSize
  down : A.type = .ull → (ws.mode &&& 2 ≠ 0 ↔ A.incr < 0)
  mode : A.type = .ull → A.sched = .guided → (ws.mode = 0 ↔ 0 < A.incr)
  fast : A.usesFetch ws → ∀ p, 0 ≤ p → p ≤ A.N + (A.nthreads + 1) * A.C → A.Rep (A.val p)

/-- The chunk cut down to what is left. -/
def Args.clip (A : Args) (ws : WorkShare) (chunk left : ℤ) : ℤ :=
  match A.type with
  | .long => Iter.clip ws chunk left
  | .ull => clipUll ws chunk left

theorem Shape.setNext {A : Args} {ws : WorkShare} (h : Shape A ws) (x : ℤ) : Shape A { ws with next := x } :=
  ⟨h.stop,h.incr,h.dynamic,h.guided,h.down,h.mode,h.fast⟩

variable {A : Args} {ws : WorkShare} {p k : ℤ}

/-- In a `long` loop the increment is stored as it is. -/
theorem Shape.incr_long (h : Shape A ws) (hT : A.type = .long) : ws.incr = A.incr := by
  rw [h.incr]
  have hC := A.C_le
  have hD := A.D_le_C
  have hpos := A.D_pos
  apply Args.word_eq
  simp only [Args.Rep, hT, IterType.min, IterType.max, longMax] at hC ⊢
  obtain ⟨-,-,hd,-⟩ | ⟨-,-,hd,-⟩ := A.up_or_down <;> omega

/-- Cutting a chunk down takes the smaller of the two lengths, in either direction. -/
theorem Shape.clip_eq (h : Shape A ws) {l : ℤ} (hk : A.Fits k) (hl : A.Fits l) :
    A.clip ws (A.word (A.sgn * k)) (A.word (A.sgn * l)) = A.word (A.sgn * min k l) := by
  have hif : ∀ x y : ℤ, (if k ≤ l then x else y) = if l < k then y else x := by
    intro x y
    split <;> split <;> omega
  have hmin : A.word (A.sgn * min k l) = if l < k then A.word (A.sgn * l) else A.word (A.sgn * k) := by
    rw [min_def,hif]
    split <;> rfl
  rw [hmin]
  unfold Args.clip Iter.clip clipUll
  cases hT : A.type with
  | long =>
    rw [h.incr_long hT,Args.word_sgn_long hT hk,Args.word_sgn_long hT hl]
    obtain ⟨hi,hs,-,-⟩ | ⟨hi,hs,-,-⟩ := A.up_or_down <;> rw [hs] <;> dsimp only <;> split <;> omega
  | ull =>
    rw [Args.word_sgn_ull hT hk,Args.word_sgn_ull hT hl]
    simp only [h.down hT]
    obtain ⟨hi,-,-,-⟩ | ⟨hi,-,-,-⟩ := A.up_or_down
    · simp only [hi, if_true, if_neg (not_lt.mpr hi.le)]
    · simp only [hi, if_true, if_neg (not_lt.mpr hi.le)]
      split <;> split <;> omega

/-! ## Initialisation -/

theorem lt_of_not_tooWide {n c : ℤ} (hn : 0 ≤ n ∧ n < 2 ^ 64) (hc : 0 ≤ c ∧ c < 2 ^ 64) (h : tooWide n c = false) :
    n < 2 ^ 31 ∧ c < 2 ^ 31 := by
  simp only [tooWide, decide_eq_false_iff_not, not_le] at h
  rw [ull_eq hn.1 hn.2,ull_eq hc.1 hc.2] at h
  have h1 : n.toNat ≤ n.toNat ||| c.toNat := Nat.left_le_or
  have h2 : c.toNat ≤ n.toNat ||| c.toNat := Nat.right_le_or
  omega

/-- The cheap protection: below it the product of the overflow test is exact. -/
theorem fast_product (h : tooWide A.nthreads A.C = false) :
    0 < ((A.nthreads : ℤ) + 1) * A.C ∧ ((A.nthreads : ℤ) + 1) * A.C ≤ 2 ^ 62 := by
  have hn := A.nthreads_lt
  have hC := A.C_le
  have hpos := A.C_pos
  have hmax : A.type.max < 2 ^ 64 := by
    cases A.type <;> simp [IterType.max, longMax, ullMax]
  obtain ⟨h1,h2⟩ := lt_of_not_tooWide (by omega) (by omega) h
  constructor
  · exact Int.mul_pos (by omega) hpos
  · calc ((A.nthreads : ℤ) + 1) * A.C ≤ 2 ^ 31 * 2 ^ 31 := Int.mul_le_mul (by omega) (by omega) (by omega) (by omega)
      _ = 2 ^ 62 := by norm_num

/-- A loop without iterations is made to end where it starts. -/
theorem stop_canonical :
    (if (0 < A.incr ∧ A.stop < A.start) ∨ (¬0 < A.incr ∧ A.start < A.stop) then A.start else A.stop) = A.val A.N := by
  unfold Args.val
  obtain ⟨hi,hs,-,hN⟩ | ⟨hi,hs,-,hN⟩ := A.up_or_down <;> rw [hs] <;> split <;> omega

theorem stop_canonical_long :
    (if (0 < A.incr ∧ A.stop < A.start) ∨ (A.incr < 0 ∧ A.start < A.stop) then A.start else A.stop) = A.val A.N := by
  rw [← stop_canonical]
  have hne := A.incr_ne
  split <;> split <;> omega

theorem word_chunk : A.word (A.chunkSize * A.incr) = A.word (A.sgn * A.C) := by
  rw [Args.chunk_incr]

theorem fits_C : A.Fits A.C := ⟨A.C_pos,Or.inl le_rfl⟩

/-- The room that the overflow test leaves behind the end of the loop. -/
def Margin (A : Args) : Prop :=
  if 0 < A.incr then A.val A.N + (A.nthreads + 1) * A.C ≤ A.type.max
  else A.type.min ≤ A.val A.N - (A.nthreads + 1) * A.C

/-- With that room every value that a fast path may store is one of the type. -/
theorem Margin.rep (h : Margin A) (h0 : 0 ≤ p) (hp : p ≤ A.N + (A.nthreads + 1) * A.C) : A.Rep (A.val p) := by
  have hstart := A.start_mem
  unfold Margin at h
  unfold Args.Rep
  unfold Args.val at h ⊢
  obtain ⟨hi,hs,-,hN⟩ | ⟨hi,hs,-,hN⟩ := A.up_or_down <;> rw [hs] at h ⊢
  · rw [if_pos hi] at h
    omega
  · rw [if_neg (by omega)] at h
    omega

theorem long_margin (hT : A.type = .long) (hsched : A.sched = .dynamic) (hm : A.workShare.mode ≠ 0) : Margin A := by
  have hchunk : long (A.chunkSize * A.incr) = A.sgn * A.C := by
    have h := word_chunk (A := A)
    rw [Args.word_sgn_long hT fits_C] at h
    simpa only [Args.word, hT] using h
  have hmem := A.val_rep A.N_nonneg le_rfl
  simp only [Args.Rep, hT, IterType.min, IterType.max, longMax] at hmem
  simp only [Args.workShare, gompLoopInit, hT, hsched, hchunk, stop_canonical_long] at hm
  have hC := A.C_le
  have hpos := A.C_pos
  simp only [hT, IterType.max, longMax] at hC
  simp only [Margin, hT, IterType.min, IterType.max]
  obtain ⟨hi,hs,-,-⟩ | ⟨hi,hs,-,-⟩ := A.up_or_down
  · rw [if_pos hi]
    rw [hs,one_mul,if_pos hi] at hm
    cases hw : tooWide A.nthreads A.C with
    | true => simp [hw] at hm
    | false =>
      have hprod := fast_product hw
      have hin : long ((A.nthreads + 1) * A.C) = (A.nthreads + 1) * A.C := long_eq (by omega) (by omega)
      have hout : long (longMax - (A.nthreads + 1) * A.C) = longMax - (A.nthreads + 1) * A.C :=
        long_eq (by unfold longMax; omega) (by unfold longMax; omega)
      simp only [hw, hin, hout, Bool.false_eq_true, if_false] at hm
      split at hm <;> omega
  · have hneg : long (-(A.sgn * A.C)) = A.C := by
      rw [hs,neg_one_mul,neg_neg]
      exact long_eq (by omega) (by omega)
    rw [if_neg (by omega)]
    rw [hneg,if_neg (by omega)] at hm
    cases hw : tooWide A.nthreads A.C with
    | true => simp [hw] at hm
    | false =>
      have hprod := fast_product hw
      have hin : long ((A.nthreads + 1) * A.C) = (A.nthreads + 1) * A.C := long_eq (by omega) (by omega)
      have hout : long ((A.nthreads + 1) * A.C - longMax) = (A.nthreads + 1) * A.C - longMax :=
        long_eq (by unfold longMax; omega) (by unfold longMax; omega)
      simp only [hw, hin, hout, Bool.false_eq_true, if_false] at hm
      unfold longMax at hm
      split at hm <;> omega

theorem ull_margin (hT : A.type = .ull) (hsched : A.sched = .dynamic) (hm : A.workShare.mode &&& 1 ≠ 0) : Margin A := by
  have hchunk : ull (A.chunkSize * ull A.incr) = if 0 < A.incr then A.C else 2 ^ 64 - A.C := by
    have h := word_chunk (A := A)
    rw [Args.word_sgn_ull hT fits_C] at h
    rw [ull_mul_ull]
    simpa only [Args.word, hT] using h
  have hmem := A.val_rep A.N_nonneg le_rfl
  simp only [Args.Rep, hT, IterType.min, IterType.max, ullMax] at hmem
  simp only [Args.workShare, gompLoopUllInit, hT, hsched, hchunk, decide_eq_true_eq, stop_canonical] at hm
  have hC := A.C_le
  have hpos := A.C_pos
  simp only [hT, IterType.max, ullMax] at hC
  simp only [Margin, hT, IterType.min, IterType.max]
  obtain ⟨hi,-⟩ | ⟨hi,-⟩ := A.up_or_down
  · simp only [if_pos hi] at hm ⊢
    cases hw : tooWide A.nthreads A.C with
    | true => simp [hw] at hm
    | false =>
      have hprod := fast_product hw
      have hin : ull ((A.nthreads + 1) * A.C) = (A.nthreads + 1) * A.C := ull_eq (by omega) (by omega)
      have hout : ull (ullMax - (A.nthreads + 1) * A.C) = ullMax - (A.nthreads + 1) * A.C :=
        ull_eq (by unfold ullMax; omega) (by unfold ullMax; omega)
      simp only [hw, hin, hout, Bool.false_eq_true, if_false] at hm
      split at hm
      · omega
      · simp at hm
  · have hneg : ull (-(2 ^ 64 - A.C)) = A.C := by
      unfold ull
      omega
    simp only [if_neg (not_lt.mpr hi.le), hneg] at hm ⊢
    cases hw : tooWide A.nthreads A.C with
    | true => simp [hw] at hm
    | false =>
      have hprod := fast_product hw
      have hin : ull ((A.nthreads + 1) * A.C) = (A.nthreads + 1) * A.C := ull_eq (by omega) (by omega)
      have hout : ull ((A.nthreads + 1) * A.C - ullMax) = (A.nthreads + 1) * A.C + 1 := by
        unfold ull ullMax
        omega
      simp only [hw, hin, hout, Bool.false_eq_true, if_false] at hm
      split at hm
      · omega
      · simp at hm

theorem workShare_next : A.workShare.next = A.start := by
  unfold Args.workShare gompLoopInit gompLoopUllInit
  cases A.type <;> cases A.sched <;> rfl

/-- The two bits of the mode of an `unsigned long long` loop. -/
theorem mode_bits (m : ℕ) (hm : m = 0 ∨ m = 1) (up : Prop) [Decidable up] :
    ((m ||| if up then 0 else 2) &&& 2 ≠ 0 ↔ ¬up) := by
  obtain rfl | rfl := hm <;> split <;> simp_all

theorem workShare_shape : Shape A A.workShare where
  stop := by
    unfold Args.workShare gompLoopInit gompLoopUllInit
    cases A.type <;> cases A.sched <;> simp only [stop_canonical_long, stop_canonical, decide_eq_true_eq]
  incr := by
    have hC := A.C_le
    have hD := A.D_le_C
    unfold Args.workShare gompLoopInit gompLoopUllInit Args.word
    cases hT : A.type with
    | long =>
      simp only [hT, IterType.max, longMax] at hC
      have hlong : long A.incr = A.incr := by
        obtain ⟨hi,-,hd,-⟩ | ⟨hi,-,hd,-⟩ := A.up_or_down <;> exact long_eq (by omega) (by omega)
      cases A.sched <;> exact hlong.symm
    | ull => cases A.sched <;> rfl
  dynamic := by
    intro hsched
    have hchunk := word_chunk (A := A)
    unfold Args.workShare gompLoopInit gompLoopUllInit
    rw [hsched,← hchunk]
    unfold Args.word
    cases hT : A.type with
    | long => rfl
    | ull => exact ull_mul_ull _ _
  guided := by
    intro hsched
    unfold Args.workShare gompLoopInit gompLoopUllInit
    rw [hsched]
    cases A.type <;> rfl
  down := by
    intro hT
    have hne := A.incr_ne
    have hup : A.incr < 0 ↔ ¬0 < A.incr := by omega
    rw [hup]
    unfold Args.workShare gompLoopUllInit
    rw [hT]
    cases A.sched with
    | dynamic =>
      simp only [decide_eq_true_eq]
      apply mode_bits
      split_ifs <;> simp
    | guided => simpa using mode_bits 0 (Or.inl rfl) (0 < A.incr)
  mode := by
    intro hT hsched
    simp [Args.workShare, gompLoopUllInit, hT, hsched]
  fast := by
    intro hfast q h0 hq
    have hm : Margin A := by
      unfold Args.usesFetch at hfast
      cases hT : A.type with
      | long =>
        cases hsched : A.sched with
        | dynamic => exact long_margin hT hsched (by simpa [hT, hsched] using hfast)
        | guided => simp [hT, hsched] at hfast
      | ull =>
        cases hsched : A.sched with
        | dynamic => exact ull_margin hT hsched (by simpa [hT, hsched] using hfast)
        | guided => simp [hT, hsched] at hfast
    exact hm.rep h0 hq

/-! ## The operations -/

/-- A chunk may reach from `p` to `q`. -/
def Cut (A : Args) (p q : ℤ) : Prop := p < q ∧ q ≤ A.N ∧ (A.D ∣ q - p ∨ q = A.N)

/-- The chunk size that a pass of the dynamic schedule starts from: the full one, or one cut by an
earlier pass that had at least as much left. -/
def GoodChunk (A : Args) (c p : ℤ) : Prop :=
  A.sched = .dynamic → ∃ k, c = A.word (A.sgn * k) ∧ 0 < k ∧ k ≤ A.C ∧ (k = A.C ∨ A.N - p ≤ k)

/-- The one loop whose guided operation divides the least `long` by -1. -/
def Overflows (A : Args) : Prop :=
  A.type = .long ∧ A.sched = .guided ∧ A.stop - A.start = -2 ^ 63 ∧ A.incr = -1

theorem Shape.stop_sub (h : Shape A ws) : ws.stop - A.val p = A.sgn * (A.N - p) := by
  rw [h.stop,mul_sub]
  unfold Args.val
  omega

theorem Shape.sub_stop (h : Shape A ws) : A.val p - ws.stop = -(A.sgn * (A.N - p)) := by
  rw [← h.stop_sub]
  omega

theorem Shape.eq_stop_iff (h : Shape A ws) : A.val p = ws.stop ↔ p = A.N := by
  rw [h.stop]
  exact ⟨Args.val_inj,fun he => he ▸ rfl⟩

/-- The end of a chunk of the dynamic schedule. -/
theorem Shape.dynamic_cut (h : Shape A ws) (h0 : 0 ≤ p) (hp : p < A.N) (hk : 0 < k) (hC : k ≤ A.C)
    (hfull : k = A.C ∨ A.N - p ≤ k) :
    A.clip ws (A.word (A.sgn * k)) (A.word (ws.stop - A.val p)) = A.word (A.sgn * min k (A.N - p)) ∧
    A.word (A.val p + A.word (A.sgn * min k (A.N - p))) = A.val (p + min k (A.N - p)) ∧
    Cut A p (p + min k (A.N - p)) := by
  have hmin : 0 < min k (A.N - p) := lt_min hk (by omega)
  have hle : min k (A.N - p) ≤ A.N - p := min_le_right _ _
  refine ⟨?_,?_,by omega,by omega,?_⟩
  · rw [h.stop_sub]
    exact h.clip_eq ⟨hk,Or.inl hC⟩ ⟨by omega,Or.inr (by omega)⟩
  · exact Args.word_val_add (A.val_rep (by omega) (by omega))
  · rw [add_sub_cancel_left]
    obtain hlt | hge := lt_or_ge k (A.N - p)
    · have hkC : k = A.C := by omega
      rw [min_eq_left hlt.le,hkC]
      exact Or.inl A.D_dvd_C
    · rw [min_eq_right hge]
      right
      omega

/-- The guided schedule takes at least one of the iterations left, and no more than all of them. -/
theorem guidedCut_bounds {nthreads n q : ℤ} (hc : 1 ≤ ull ws.chunkSize) (h : guidedCut ws nthreads n = some q) :
    1 ≤ q ∧ q ≤ n := by
  unfold guidedCut at h
  dsimp only at h
  split at h <;> obtain ⟨hle,hq⟩ := Option.ite_none_right_eq_some.mp h <;> obtain rfl := Option.some.inj hq
  case isTrue hlt => exact ⟨hc,hle⟩
  case isFalse hlt => exact ⟨by omega,hle⟩

theorem Shape.ull_chunkSize (h : Shape A ws) (hsched : A.sched = .guided) : 1 ≤ ull ws.chunkSize := by
  have hc := A.chunk_pos
  have hle : A.chunkSize ≤ A.C := by
    have hD := A.D_pos
    unfold Args.C
    nlinarith
  have hC := A.C_le
  have hmax : A.type.max < 2 ^ 64 := by
    cases A.type <;> simp [IterType.max, longMax, ullMax]
  rw [h.guided hsched,ull_eq (by omega) (by omega)]
  exact hc

/-- Whole iterations of the way left. -/
theorem cut_iters {q : ℤ} (h1 : 1 ≤ q) (hq : q ≤ (A.N - p) / A.D) : Cut A p (p + q * A.D) := by
  have hD := A.D_pos
  have hmul : q * A.D ≤ A.N - p := (Int.le_ediv_iff_mul_le hD).mp hq
  have hpos : 0 < q * A.D := Int.mul_pos (by omega) hD
  refine ⟨by omega,by omega,Or.inl ?_⟩
  rw [add_sub_cancel_left]
  exact Dvd.intro_left q rfl

theorem val_add_iters {q : ℤ} : A.val p + q * A.incr = A.val (p + q * A.D) := by
  unfold Args.val
  rw [A.incr_eq,mul_add,Int.mul_left_comm,add_assoc]

/-- The end of a chunk of the guided schedule in a `long` loop. -/
theorem Shape.guidedEnd_eq (h : Shape A ws) (hT : A.type = .long) (hsched : A.sched = .guided) (h0 : 0 ≤ p)
    (hp : p < A.N) (hov : ¬Overflows A) : ∃ q, Cut A p q ∧ guidedEnd ws A.nthreads (A.val p) = some (A.val q) := by
  have hD := A.D_pos
  have hN := A.N_le_long hT
  have hleft : long (ws.stop - A.val p) = A.sgn * (A.N - p) := by
    have hfit := A.word_sgn_long hT (k := A.N - p) ⟨by omega,Or.inr (by omega)⟩
    rw [h.stop_sub]
    simpa only [Args.word, hT] using hfit
  have hdiv : longDiv (A.sgn * (A.N - p)) A.incr = some ((A.N - p) / A.D) := by
    unfold longDiv
    obtain ⟨hi,hs,hd,-⟩ | ⟨hi,hs,hd,-⟩ := A.up_or_down
    · rw [if_neg (by omega),hs,hd,one_mul,Int.tdiv_eq_ediv_of_nonneg (by omega)]
    · rw [if_neg,hs,hd,neg_one_mul,Int.neg_tdiv,Int.tdiv_eq_ediv_of_nonneg (by omega),Int.ediv_neg]
      rintro ⟨hmin,hone⟩
      rw [hs] at hmin
      have hmax : A.N = 2 ^ 63 := by omega
      exact hov ⟨hT,hsched,(hN.2.mp hmax).1,hone⟩
  have hn : ull ((A.N - p) / A.D) = (A.N - p) / A.D := by
    have hle : (A.N - p) / A.D ≤ A.N - p := Int.ediv_le_self _ (by omega)
    exact ull_eq (Int.ediv_nonneg (by omega) hD.le) (by omega)
  unfold guidedEnd
  rw [hleft,h.incr_long hT,hdiv,Option.map_some,hn]
  cases hq : guidedCut ws A.nthreads ((A.N - p) / A.D) with
  | none => exact ⟨A.N,⟨hp,le_rfl,Or.inr rfl⟩,by rw [h.stop]⟩
  | some q =>
    obtain ⟨h1,h2⟩ := guidedCut_bounds (h.ull_chunkSize hsched) hq
    have hcut := cut_iters h1 h2
    refine ⟨_,hcut,?_⟩
    have hrep : A.Rep (A.val (p + q * A.D)) := A.val_rep (by have := hcut.1; omega) hcut.2.1
    have hword := A.word_eq hrep
    simp only [Args.word, hT] at hword
    dsimp only
    rw [ull_add_ull,long_ull,val_add_iters,hword]

/-- The same in an `unsigned long long` loop. -/
theorem Shape.ullGuidedEnd_eq (h : Shape A ws) (hT : A.type = .ull) (hsched : A.sched = .guided) (h0 : 0 ≤ p)
    (hp : p < A.N) : ∃ q, Cut A p q ∧ ullGuidedEnd ws A.nthreads (A.val p) = A.val q := by
  have hD := A.D_pos
  have hN := A.N_le_ull hT
  have hDC := A.D_le_C
  have hC := A.C_le
  simp only [hT, IterType.max, ullMax] at hC
  have hincr : ws.incr = ull A.incr := by
    rw [h.incr]
    simp only [Args.word, hT]
  have hn : (if ws.mode = 0 then ull (ws.stop - A.val p) / ws.incr else ull (A.val p - ws.stop) / ull (-ws.incr)) =
      (A.N - p) / A.D := by
    have hmode := h.mode hT hsched
    rw [h.stop_sub,h.sub_stop,hincr]
    obtain ⟨hi,hs,hd,-⟩ | ⟨hi,hs,hd,-⟩ := A.up_or_down
    · rw [if_pos (hmode.mpr hi),hs,one_mul,ull_eq (by omega) (by omega),ull_eq (by omega) (by omega),hd]
    · have hneg : ull (-ull A.incr) = -A.incr := by
        unfold ull
        omega
      rw [if_neg (fun h => absurd (hmode.mp h) (by omega)),hs,neg_one_mul,neg_neg,ull_eq (by omega) (by omega),hneg,hd]
  unfold ullGuidedEnd
  rw [hn]
  dsimp only
  cases hq : guidedCut ws A.nthreads ((A.N - p) / A.D) with
  | none => exact ⟨A.N,⟨hp,le_rfl,Or.inr rfl⟩,h.stop⟩
  | some q =>
    obtain ⟨h1,h2⟩ := guidedCut_bounds (h.ull_chunkSize hsched) hq
    have hcut := cut_iters h1 h2
    refine ⟨_,hcut,?_⟩
    have hrep : A.Rep (A.val (p + q * A.D)) := A.val_rep (by have := hcut.1; omega) hcut.2.1
    have hword := A.word_eq hrep
    simp only [Args.word, hT] at hword
    dsimp only
    rw [hincr,ull_mul_ull,ull_add_ull,val_add_iters,hword]

/-- Every end of a chunk that the operations compute is a cut. -/
theorem Shape.nextLocked_eq (h : Shape A ws) (hnext : ws.next = A.val p) (h0 : 0 ≤ p) (hp : p ≤ A.N)
    (hov : ¬Overflows A) :
    (p = A.N ∧ A.nextLocked ws = some (ws,none)) ∨
    ∃ q, Cut A p q ∧ A.nextLocked ws = some ({ ws with next := A.val q },some (A.val p,A.val q)) := by
  unfold Args.nextLocked gompIterDynamicNextLocked gompIterUllDynamicNextLocked gompIterGuidedNextLocked
    gompIterUllGuidedNextLocked
  simp only [hnext, h.eq_stop_iff]
  obtain heq | hlt := eq_or_lt_of_le hp
  · left
    simp only [heq, if_true, true_and]
    cases A.type <;> cases A.sched <;> rfl
  · right
    simp only [if_neg hlt.ne]
    cases hsched : A.sched with
    | dynamic =>
      obtain ⟨hclip,hend,hcut⟩ := h.dynamic_cut h0 hlt A.C_pos le_rfl (Or.inl rfl)
      rw [← h.dynamic hsched] at hclip
      refine ⟨_,hcut,?_⟩
      rw [← hend,← hclip]
      unfold Args.clip Args.word
      cases A.type <;> rfl
    | guided =>
      cases hT : A.type with
      | long =>
        obtain ⟨q,hcut,hend⟩ := h.guidedEnd_eq hT hsched h0 hlt hov
        refine ⟨q,hcut,?_⟩
        dsimp only
        rw [hend,Option.map_some]
      | ull =>
        obtain ⟨q,hcut,hend⟩ := h.ullGuidedEnd_eq hT hsched h0 hlt
        refine ⟨q,hcut,?_⟩
        dsimp only
        rw [hend]

/-- The first pass starts from the full chunk. -/
theorem Shape.goodChunk (h : Shape A ws) (p : ℤ) : GoodChunk A ws.chunkSize p := by
  intro hsched
  exact ⟨A.C,h.dynamic hsched,A.C_pos,le_rfl,Or.inl rfl⟩

/-- A chunk stays good further on. -/
theorem GoodChunk.mono {c q : ℤ} (h : GoodChunk A c p) (hq : p ≤ q) : GoodChunk A c q := by
  intro hsched
  obtain ⟨k,hc,hpos,hle,hfull⟩ := h hsched
  exact ⟨k,hc,hpos,hle,by omega⟩

/-- A pass of a compare-and-swap loop computes a cut from the value it has read. -/
theorem Shape.pass_eq (h : Shape A ws) {c : ℤ} (h0 : 0 ≤ p) (hp : p ≤ A.N) (hc : GoodChunk A c p)
    (hov : ¬Overflows A) :
    (p = A.N ∧ A.pass ws (A.val p) c = some (ws,.ret none)) ∨
    ∃ q c', Cut A p q ∧ GoodChunk A c' p ∧ A.pass ws (A.val p) c = some (casNext ws (A.val p) (A.val q) c') := by
  unfold Args.pass dynamicPass ullDynamicPass guidedPass ullGuidedPass
  simp only [h.eq_stop_iff]
  obtain heq | hlt := eq_or_lt_of_le hp
  · left
    simp only [heq, if_true, true_and]
    cases A.type <;> cases A.sched <;> rfl
  · right
    simp only [if_neg hlt.ne]
    cases hsched : A.sched with
    | dynamic =>
      obtain ⟨k,hck,hpos,hle,hfull⟩ := hc hsched
      obtain ⟨hclip,hend,hcut⟩ := h.dynamic_cut h0 hlt hpos hle hfull
      refine ⟨_,A.word (A.sgn * min k (A.N - p)),hcut,?_,?_⟩
      · intro _
        refine ⟨_,rfl,lt_min hpos (by omega),le_trans (min_le_left _ _) hle,?_⟩
        omega
      · rw [← hend,← hclip,hck]
        unfold Args.clip Args.word
        cases A.type <;> rfl
    | guided =>
      have hgood : GoodChunk A c p := hc
      cases hT : A.type with
      | long =>
        obtain ⟨q,hcut,hend⟩ := h.guidedEnd_eq hT hsched h0 hlt hov
        refine ⟨q,c,hcut,hgood,?_⟩
        dsimp only
        rw [hend,Option.map_some]
      | ull =>
        obtain ⟨q,hcut,hend⟩ := h.ullGuidedEnd_eq hT hsched h0 hlt
        refine ⟨q,c,hcut,hgood,?_⟩
        dsimp only
        rw [hend]

theorem usesFetch_dynamic (h : A.usesFetch ws = true) : A.sched = .dynamic := by
  cases hsched : A.sched with
  | dynamic => rfl
  | guided =>
    unfold Args.usesFetch at h
    cases hT : A.type <;> simp [hT, hsched] at h

theorem fetched_up {c : ℤ} (hs : A.sgn = 1) : (if A.val A.N ≤ A.val p then (ws,none) else
    (ws,some (A.val p,if A.val A.N < A.val (p + c) then A.val A.N else A.val (p + c)))) =
    (ws,if p < A.N then some (A.val p,A.val (min (p + c) A.N)) else none) := by
  have hval : ∀ x, A.val x = A.start + x := by
    intro x
    rw [Args.val,hs,one_mul]
  simp only [hval]
  obtain h | h := lt_or_ge p A.N
  · rw [if_neg (by omega),if_pos h]
    congr 3
    omega
  · rw [if_pos (by omega),if_neg (by omega)]

theorem fetched_down {c : ℤ} (hs : A.sgn = -1) : (if A.val p ≤ A.val A.N then (ws,none) else
    (ws,some (A.val p,if A.val (p + c) < A.val A.N then A.val A.N else A.val (p + c)))) =
    (ws,if p < A.N then some (A.val p,A.val (min (p + c) A.N)) else none) := by
  have hval : ∀ x, A.val x = A.start - x := by
    intro x
    rw [Args.val,hs,neg_one_mul]
    rfl
  simp only [hval]
  obtain h | h := lt_or_ge p A.N
  · rw [if_neg (by omega),if_pos h]
    congr 3
    omega
  · rw [if_pos (by omega),if_neg (by omega)]

/-- The fetch-and-add moves a full chunk on, also behind the end of the loop. -/
theorem Shape.fetch_eq (h : Shape A ws) (hfast : A.usesFetch ws) (hnext : ws.next = A.val p) (h0 : 0 ≤ p)
    (hp : p ≤ A.N + A.nthreads * A.C) :
    A.fetch ws = ({ ws with next := A.val (p + A.C) },if p < A.N then some (A.val p,A.val (min (p + A.C) A.N)) else none) := by
  have hpos := A.C_pos
  have hrep : A.Rep (A.val (p + A.C)) := by
    refine h.fast hfast _ (by omega) ?_
    rw [add_mul]
    omega
  have hword : A.word (A.val p + ws.chunkSize) = A.val (p + A.C) := by
    rw [h.dynamic (usesFetch_dynamic hfast)]
    exact A.word_val_add hrep
  unfold Args.word at hword
  unfold Args.fetch dynamicFetch ullDynamicFetch
  rw [hnext,h.stop]
  cases hT : A.type with
  | long =>
    rw [hT] at hword
    dsimp only at hword ⊢
    rw [hword,h.incr_long hT]
    obtain ⟨hi,hs,-,-⟩ | ⟨hi,hs,-,-⟩ := A.up_or_down
    · rw [if_pos hi,fetched_up hs]
    · rw [if_neg (by omega),fetched_down hs]
  | ull =>
    rw [hT] at hword
    dsimp only at hword ⊢
    have hdown := h.down hT
    rw [hword]
    obtain ⟨hi,hs,-,-⟩ | ⟨hi,hs,-,-⟩ := A.up_or_down
    · rw [if_pos (by omega),fetched_up hs]
    · rw [if_neg (by omega),fetched_down hs]

end GompUlt.Iter
