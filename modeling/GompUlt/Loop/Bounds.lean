import GompUlt.Loop.IterOps

/-! # The iterations between two bounds

A loop whose number of iterations the code can compute: both types, both directions.  An iteration is known by
its number, counted from zero.
-/
namespace GompUlt.Iter

/-- The largest rounded span that the count is computed from without overflow. -/
def spanMax (type : IterType) (incr : ℤ) : ℤ :=
  match type with
  | .long => if 0 < incr then longMax else 2 ^ 63
  | .ull => ullMax

/-- The bounds and the step of a loop with at least one iteration whose count is computed without overflow.  `incr`
is the step with its sign; an `unsigned long long` loop is given its word. -/
structure Bounds where
  type : IterType
  start : ℤ
  stop : ℤ
  incr : ℤ
  incr_ne : incr ≠ 0
  start_mem : type.min ≤ start ∧ start ≤ type.max
  stop_mem : type.min ≤ stop ∧ stop ≤ type.max
  nonempty : before incr start stop
  count_rep : |stop - start| + |incr| - 1 ≤ spanMax type incr
  div_rep : type = .long → incr = -1 → stop - start ≠ -2 ^ 63

namespace Bounds
variable (B : Bounds)

/-- The number of iterations. -/
def n : ℤ := (|B.stop - B.start| + |B.incr| - 1) / |B.incr|

/-- The value of the variable in an iteration. -/
def value (y : ℤ) : ℤ := B.start + y * B.incr

variable {B}

theorem D_pos : 0 < |B.incr| := abs_pos.mpr B.incr_ne

/-- The two directions. -/
theorem up_or_down : (0 < B.incr ∧ |B.incr| = B.incr ∧ B.start < B.stop ∧ |B.stop - B.start| = B.stop - B.start) ∨
    (B.incr < 0 ∧ |B.incr| = -B.incr ∧ B.stop < B.start ∧ |B.stop - B.start| = B.start - B.stop) := by
  have h := B.nonempty
  unfold before at h
  obtain hi | hi := lt_or_gt_of_ne B.incr_ne
  · rw [if_neg (by omega)] at h
    refine Or.inr ⟨hi,abs_of_neg hi,h,?_⟩
    rw [abs_of_neg (by omega)]
    omega
  · rw [if_pos hi] at h
    refine Or.inl ⟨hi,abs_of_pos hi,h,abs_of_pos (by omega)⟩

/-- The last iteration lies before the bound, the next one does not. -/
theorem n_bounds : (B.n - 1) * |B.incr| < |B.stop - B.start| ∧ |B.stop - B.start| ≤ B.n * |B.incr| := by
  have hD := B.D_pos
  have h1 : B.n * |B.incr| ≤ |B.stop - B.start| + |B.incr| - 1 := Int.ediv_mul_le _ hD.ne'
  have h2 : |B.stop - B.start| + |B.incr| - 1 < (B.n + 1) * |B.incr| := Int.lt_ediv_add_one_mul_self _ hD
  rw [sub_mul, one_mul]
  rw [add_mul, one_mul] at h2
  omega

theorem n_pos : 0 < B.n := by
  have hD := B.D_pos
  have hspan : 0 < |B.stop - B.start| := by
    obtain ⟨-,-,hlt,h⟩ | ⟨-,-,hlt,h⟩ := B.up_or_down <;> omega
  have h := B.n_bounds.2
  by_contra hle
  have := Int.mul_nonpos_of_nonpos_of_nonneg (not_lt.mp hle) hD.le
  omega

theorem n_le : B.n ≤ |B.stop - B.start| + |B.incr| - 1 := by
  have hD := B.D_pos
  have hspan : 0 ≤ |B.stop - B.start| := abs_nonneg _
  exact Int.ediv_le_self _ (by omega)

theorem n_lt : B.n < 2 ^ 64 := by
  have h := B.n_le
  have hrep := B.count_rep
  unfold spanMax longMax ullMax at hrep
  split at hrep
  · split at hrep <;> omega
  · omega

/-- The values of the iterations lie between the bounds. -/
theorem value_mem {y : ℤ} (h0 : 0 ≤ y) (hy : y < B.n) : B.type.min ≤ B.value y ∧ B.value y ≤ B.type.max := by
  have hstart := B.start_mem
  have hstop := B.stop_mem
  have hD := B.D_pos
  have hlow : 0 ≤ y * |B.incr| := Int.mul_nonneg h0 hD.le
  have hhigh : y * |B.incr| ≤ (B.n - 1) * |B.incr| := Int.mul_le_mul_of_nonneg_right (by omega) hD.le
  have hn := B.n_bounds.1
  unfold value
  obtain ⟨-,hd,-,hspan⟩ | ⟨-,hd,-,hspan⟩ := B.up_or_down
  · rw [hd] at hlow hhigh hn
    omega
  · rw [hd] at hlow hhigh hn
    simp only [Int.mul_neg] at hlow hhigh hn
    omega

/-! ## The iterations of a range -/

theorem before_value {y b : ℤ} : before B.incr (B.value y) (B.value b) ↔ y < b := by
  unfold before value
  obtain ⟨hi,-,-,-⟩ | ⟨hi,-,-,-⟩ := B.up_or_down
  · rw [if_pos hi]
    constructor
    · intro h
      exact lt_of_mul_lt_mul_right (by omega) hi.le
    · intro h
      have := Int.mul_lt_mul_of_pos_right h hi
      omega
  · rw [if_neg (by omega)]
    constructor
    · intro h
      refine lt_of_mul_lt_mul_right (a := -B.incr) ?_ (by omega)
      simp only [Int.mul_neg]
      omega
    · intro h
      have := Int.mul_lt_mul_of_pos_right h (show 0 < -B.incr by omega)
      simp only [Int.mul_neg] at this
      omega

theorem value_add (y : ℤ) (j : ℕ) : B.value y + j * B.incr = B.value (y + j) := by
  unfold value
  rw [add_mul]
  omega

theorem value_inj {y z : ℤ} (h : B.value y = B.value z) : y = z := by
  have hyz := (before_value (B := B) (y := y) (b := z)).not
  have hzy := (before_value (B := B) (y := z) (b := y)).not
  rw [h] at hyz hzy
  have hirr : ¬before B.incr (B.value z) (B.value z) := by
    rw [before_value]
    exact lt_irrefl z
  have h1 := hyz.mp hirr
  have h2 := hzy.mp hirr
  omega

theorem mem_range {a b x : ℤ} : x ∈ iters B.incr (B.value a) (B.value b) ↔ ∃ y, a ≤ y ∧ y < b ∧ x = B.value y := by
  constructor
  · rintro ⟨j,rfl,hj⟩
    rw [value_add] at hj ⊢
    exact ⟨_,by omega,before_value.mp hj,rfl⟩
  · rintro ⟨y,hay,hyb,rfl⟩
    refine ⟨(y - a).toNat,?_,before_value.mpr hyb⟩
    rw [value_add]
    congr 1
    omega

/-- The loop runs through exactly `n` values. -/
theorem mem_space {x : ℤ} : x ∈ iters B.incr B.start B.stop ↔ ∃ y, 0 ≤ y ∧ y < B.n ∧ x = B.value y := by
  have hD := B.D_pos
  have hn := B.n_bounds
  have hbefore : ∀ y : ℤ, before B.incr (B.value y) B.stop ↔ y * |B.incr| < |B.stop - B.start| := by
    intro y
    unfold before value
    obtain ⟨hi,hd,-,hspan⟩ | ⟨hi,hd,-,hspan⟩ := B.up_or_down <;> rw [hd, hspan]
    · rw [if_pos hi]
      omega
    · rw [if_neg (by omega), Int.mul_neg]
      omega
  have hlt : ∀ y : ℤ, y * |B.incr| < |B.stop - B.start| ↔ y < B.n := by
    intro y
    constructor
    · intro h
      exact lt_of_mul_lt_mul_right (h.trans_le hn.2) hD.le
    · intro h
      have := Int.mul_le_mul_of_nonneg_right (show y ≤ B.n - 1 by omega) hD.le
      omega
  have hstart : B.value 0 = B.start := by simp [value]
  constructor
  · rintro ⟨j,rfl,hj⟩
    rw [← hstart, value_add, zero_add] at hj ⊢
    exact ⟨j,by omega,(hlt j).mp ((hbefore j).mp hj),rfl⟩
  · rintro ⟨y,h0,hy,rfl⟩
    refine ⟨y.toNat,?_,(hbefore y).mpr ((hlt y).mpr hy)⟩
    rw [← hstart, value_add, zero_add, Int.toNat_of_nonneg h0]

/-! ## The count in words -/

/-- The expression of the `long` loops. -/
theorem longCount_eq (hT : B.type = .long) :
    (longDiv (long (long (B.stop - B.start) + long (B.incr + if 0 < B.incr then -1 else 1))) B.incr).map ull = some B.n := by
  have hrep := B.count_rep
  have hdiv := B.div_rep hT
  have hn := B.n_lt
  have hpos := B.n_pos
  simp only [hT, spanMax, longMax] at hrep
  unfold longDiv
  obtain ⟨hi,hD,hlt,hspan⟩ | ⟨hi,hD,hlt,hspan⟩ := B.up_or_down
  · rw [if_pos hi, hD, hspan] at hrep
    have hs : long (B.incr + -1) = B.incr - 1 := long_eq (by omega) (by omega)
    have hd : long (B.stop - B.start) = B.stop - B.start := long_eq (by omega) (by omega)
    have hsum : long (B.stop - B.start + (B.incr - 1)) = B.stop - B.start + B.incr - 1 := by
      rw [long_eq (by omega) (by omega)]
      omega
    rw [if_pos hi, hs, hd, hsum, if_neg (by omega), Option.map_some, Int.tdiv_eq_ediv_of_nonneg (by omega)]
    have hq : (B.stop - B.start + B.incr - 1) / B.incr = B.n := by rw [n, hD, hspan]
    rw [hq, ull_eq hpos.le hn]
  · rw [if_neg (by omega), hD, hspan] at hrep
    have hs : long (B.incr + 1) = B.incr + 1 := long_eq (by omega) (by omega)
    have hd : long (B.stop - B.start) = B.stop - B.start := long_eq (by omega) (by omega)
    have hsum : long (B.stop - B.start + (B.incr + 1)) = -(B.start - B.stop + -B.incr - 1) := by
      rw [long_eq (by omega) (by omega)]
      omega
    rw [if_neg (not_lt.mpr hi.le), hs, hd, hsum, if_neg (by omega), Option.map_some]
    have hq : (-(B.start - B.stop + -B.incr - 1)).tdiv B.incr = B.n := by
      rw [Int.neg_tdiv, Int.tdiv_eq_ediv_of_nonneg (by omega), n, hD, hspan, Int.ediv_neg]
    rw [hq, ull_eq hpos.le hn]

/-- The two expressions of the `unsigned long long` loops. -/
theorem ullCount_eq (hT : B.type = .ull) :
    (if 0 < B.incr then ull (B.stop - B.start + ull B.incr - 1) / ull B.incr
      else ull (B.start - B.stop - ull B.incr - 1) / ull (-ull B.incr)) = B.n := by
  have hrep := B.count_rep
  simp only [hT, spanMax, ullMax] at hrep
  obtain ⟨hi,hD,hlt,hspan⟩ | ⟨hi,hD,hlt,hspan⟩ := B.up_or_down
  · rw [hD, hspan] at hrep
    have hw : ull B.incr = B.incr := ull_eq (by omega) (by omega)
    rw [if_pos hi, hw, ull_eq (by omega) (by omega), n, hD, hspan]
  · rw [hD, hspan] at hrep
    have hw : ull B.incr = 2 ^ 64 - -B.incr := by
      unfold ull
      omega
    have hneg : ull (-(2 ^ 64 - -B.incr)) = -B.incr := by
      unfold ull
      omega
    have hsum : ull (B.start - B.stop - (2 ^ 64 - -B.incr) - 1) = B.start - B.stop + -B.incr - 1 := by
      unfold ull
      omega
    rw [if_neg (not_lt.mpr hi.le), hw, hneg, hsum, n, hD, hspan]

end Bounds

end GompUlt.Iter
