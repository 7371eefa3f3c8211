import Mathlib.Algebra.BigOperators.Ring.Finset
import Mathlib.Data.Nat.ModEq
import Mathlib.Data.Nat.Bitwise
import Mathlib.Tactic.Ring

/-! # Words made of fields of equal width

The fields of a number are its digits in base 2 ^ w.  Adding the even fields to the odd ones makes fields of twice
the width with the same sum; the sum of the fields of one bit is the number of bits that are set.
-/
namespace GompUlt.BitFields

def field (w i x : ℕ) : ℕ := x / 2 ^ (w * i) % 2 ^ w

/-- The sum of the lowest `n` fields. -/
def fieldSum (w : ℕ) : ℕ → ℕ → ℕ
  | 0, _ => 0
  | n + 1, x => x % 2 ^ w + fieldSum w n (x / 2 ^ w)

/-- No field is above `b`. -/
def FieldsLe (w b x : ℕ) : Prop := ∀ i, field w i x ≤ b

/-- `n` fields, each of them `c`. -/
def replicated (w c : ℕ) : ℕ → ℕ
  | 0 => 0
  | n + 1 => 2 ^ w * replicated w c n + c

section Fields
variable {k b n x : ℕ}

@[simp] theorem field_zero (w x : ℕ) : field w 0 x = x % 2 ^ w := by simp [field]

theorem field_div (w m i x : ℕ) : field w i (x / 2 ^ (w * m)) = field w (i + m) x := by
  rw [field, field, Nat.div_div_eq_div_mul, ← pow_add, ← Nat.mul_add, Nat.add_comm m]

theorem field_succ (w i x : ℕ) : field w (i + 1) x = field w i (x / 2 ^ w) := by
  have := field_div w 1 i x
  rwa [Nat.mul_one, eq_comm] at this

theorem FieldsLe.div (h : FieldsLe k b x) (m : ℕ) : FieldsLe k b (x / 2 ^ (k * m)) := by
  intro i
  rw [field_div]
  exact h _

theorem FieldsLe.head (h : FieldsLe k b x) : x % 2 ^ k ≤ b := by simpa using h 0

theorem FieldsLe.tail (h : FieldsLe k b x) : FieldsLe k b (x / 2 ^ k) := by simpa using h.div 1

theorem FieldsLe.of_head_tail (hhead : x % 2 ^ k ≤ b) (htail : FieldsLe k b (x / 2 ^ k)) : FieldsLe k b x := by
  rintro (_ | i)
  · simpa using hhead
  · rw [field_succ]
    exact htail i

/-- The top field bounds the number. -/
theorem FieldsLe.lt (h : FieldsLe k b x) (hx : x < 2 ^ (k * (n + 1))) : x < (b + 1) * 2 ^ (k * n) := by
  have htop : x / 2 ^ (k * n) < 2 ^ k := by
    apply Nat.div_lt_of_lt_mul
    rwa [← pow_add, ← Nat.mul_succ]
  have hle := h n
  rw [field, Nat.mod_eq_of_lt htop] at hle
  rw [← Nat.div_lt_iff_lt_mul (Nat.two_pow_pos _)]
  omega

theorem fieldsLe_zero : FieldsLe k b 0 := by intro i; simp [field]

section Sums
variable {w a y : ℕ} (hx : FieldsLe w a x) (hy : FieldsLe w b y) (hab : a + b < 2 ^ w)
include hx hy hab

/-- Where the sum of two fields fits into a field, nothing is carried over. -/
theorem add_div (i : ℕ) : (x + y) / 2 ^ (w * i) = x / 2 ^ (w * i) + y / 2 ^ (w * i) := by
  induction i with
  | zero => simp
  | succ i ih =>
    have hnocarry : x / 2 ^ (w * i) % 2 ^ w + y / 2 ^ (w * i) % 2 ^ w < 2 ^ w := by
      have hfx : x / 2 ^ (w * i) % 2 ^ w ≤ a := hx i
      have hfy : y / 2 ^ (w * i) % 2 ^ w ≤ b := hy i
      omega
    rw [Nat.mul_succ, pow_add, ← Nat.div_div_eq_div_mul, ih, Nat.add_div_eq_of_add_mod_lt hnocarry,
      Nat.div_div_eq_div_mul, Nat.div_div_eq_div_mul]

theorem field_add (i : ℕ) : field w i (x + y) = field w i x + field w i y := by
  have hfx := hx i
  have hfy := hy i
  rw [field] at hfx hfy
  rw [field, add_div hx hy hab, Nat.add_mod, Nat.mod_eq_of_lt (by omega), field, field]

theorem FieldsLe.add : FieldsLe w (a + b) (x + y) := by
  intro i
  rw [field_add hx hy hab]
  exact Nat.add_le_add (hx i) (hy i)

end Sums

theorem fieldSum_eq_sum (w n x : ℕ) : fieldSum w n x = ∑ i ∈ Finset.range n, field w i x := by
  induction n generalizing x with
  | zero => rfl
  | succ n ih =>
    have hshift : ∀ i, field w i (x / 2 ^ w) = field w (i + 1) x := fun i => (field_succ w i x).symm
    rw [fieldSum, ih, Finset.sum_range_succ', field_zero, Nat.add_comm]
    simp only [hshift]

/-- A bitwise and, at the boundary of the lowest field. -/
theorem land_eq (w x y : ℕ) : x &&& y = 2 ^ w * (x / 2 ^ w &&& y / 2 ^ w) + (x % 2 ^ w &&& y % 2 ^ w) := by
  rw [← Nat.and_div_two_pow, ← Nat.and_mod_two_pow, Nat.div_add_mod]

/-- The even fields of `k` bits. -/
def evenFields (k n x : ℕ) : ℕ := x &&& replicated (2 * k) (2 ^ k - 1) n

/-- The even fields and the odd ones, added. -/
def pairSum (k n x : ℕ) : ℕ := evenFields k n x + evenFields k n (x / 2 ^ k)

theorem evenFields_zero : evenFields k 0 x = 0 := by simp [evenFields, replicated]

theorem two_pow_le (k : ℕ) : 2 ^ k ≤ 2 ^ (2 * k) := Nat.pow_le_pow_right (by norm_num) (by omega)

theorem evenFields_succ :
    evenFields k (n + 1) x = 2 ^ (2 * k) * evenFields k n (x / 2 ^ (2 * k)) + x % 2 ^ k := by
  have hpos := Nat.two_pow_pos k
  have hmask : 2 ^ k - 1 < 2 ^ (2 * k) := by
    have := two_pow_le k
    omega
  have hdvd : 2 ^ k ∣ 2 ^ (2 * k) := pow_dvd_pow 2 (by omega)
  rw [evenFields, land_eq (2 * k), replicated, Nat.mul_add_mod, Nat.mod_eq_of_lt hmask,
    Nat.mul_add_div (Nat.two_pow_pos _), Nat.div_eq_of_lt hmask, Nat.add_zero, Nat.and_two_pow_sub_one_eq_mod,
    Nat.mod_mod_of_dvd _ hdvd, evenFields]

theorem pairSum_zero : pairSum k 0 x = 0 := by rw [pairSum, evenFields_zero, evenFields_zero]

theorem pairSum_succ :
    pairSum k (n + 1) x = 2 ^ (2 * k) * pairSum k n (x / 2 ^ (2 * k)) + (x % 2 ^ k + x / 2 ^ k % 2 ^ k) := by
  have hcomm : x / 2 ^ k / 2 ^ (2 * k) = x / 2 ^ (2 * k) / 2 ^ k := Nat.div_right_comm ..
  rw [pairSum, pairSum, evenFields_succ, evenFields_succ, hcomm]
  ring

/-- A sum of two fields fits into a field of twice the width. -/
theorem head_lt (hk : 0 < k) : x % 2 ^ k + x / 2 ^ k % 2 ^ k < 2 ^ (2 * k) := by
  have hpos := Nat.two_pow_pos k
  have hlow := Nat.mod_lt x hpos
  have hhigh := Nat.mod_lt (x / 2 ^ k) hpos
  have htwo : 2 ^ 1 ≤ 2 ^ k := Nat.pow_le_pow_right (by norm_num) hk
  have hsq : 2 ^ (2 * k) = 2 ^ k * 2 ^ k := by rw [two_mul, pow_add]
  have hmul : 2 * 2 ^ k ≤ 2 ^ k * 2 ^ k := Nat.mul_le_mul_right _ (by omega)
  omega

theorem pairSum_mod (hk : 0 < k) : pairSum k (n + 1) x % 2 ^ (2 * k) = x % 2 ^ k + x / 2 ^ k % 2 ^ k := by
  rw [pairSum_succ, Nat.mul_add_mod, Nat.mod_eq_of_lt (head_lt hk)]

theorem pairSum_div (hk : 0 < k) : pairSum k (n + 1) x / 2 ^ (2 * k) = pairSum k n (x / 2 ^ (2 * k)) := by
  rw [pairSum_succ, Nat.mul_add_div (Nat.two_pow_pos _), Nat.div_eq_of_lt (head_lt hk), Nat.add_zero]

theorem div_twice : x / 2 ^ k / 2 ^ k = x / 2 ^ (2 * k) := by rw [Nat.div_div_eq_div_mul, ← pow_add, two_mul]

/-- The sum of the fields stays. -/
theorem fieldSum_pairSum (hk : 0 < k) : fieldSum (2 * k) n (pairSum k n x) = fieldSum k (2 * n) x := by
  induction n generalizing x with
  | zero => rfl
  | succ n ih =>
    rw [fieldSum, pairSum_mod hk, pairSum_div hk, ih]
    rw [show 2 * (n + 1) = 2 * n + 1 + 1 by omega, fieldSum, fieldSum, div_twice]
    omega

theorem fieldsLe_pairSum (hk : 0 < k) (h : FieldsLe k b x) : FieldsLe (2 * k) (2 * b) (pairSum k n x) := by
  induction n generalizing x with
  | zero =>
    rw [pairSum_zero]
    exact fieldsLe_zero
  | succ n ih =>
    apply FieldsLe.of_head_tail
    · have hlow := h.head
      have hhigh := h.tail.head
      rw [pairSum_mod hk]
      omega
    · rw [pairSum_div hk, ← div_twice]
      exact ih h.tail.tail

theorem pairSum_lt (hk : 0 < k) : pairSum k n x < 2 ^ (2 * k * n) := by
  induction n generalizing x with
  | zero => simp [pairSum_zero]
  | succ n ih =>
    rw [pairSum_succ, Nat.mul_succ, pow_add]
    have hrest := Nat.mul_le_mul_left (2 ^ (2 * k)) (ih (x := x / 2 ^ (2 * k)))
    have hhead := head_lt (x := x) hk
    rw [Nat.mul_succ, Nat.mul_comm _ (2 ^ (2 * k * n))] at hrest
    omega

/-- A number of `n` pairs of fields is its even fields with its odd ones. -/
theorem evenFields_add (hx : x < 2 ^ (2 * k * n)) : evenFields k n x + 2 ^ k * evenFields k n (x / 2 ^ k) = x := by
  induction n generalizing x with
  | zero =>
    obtain rfl : x = 0 := by simpa using hx
    simp [evenFields_zero]
  | succ n ih =>
    have hlt : x / 2 ^ (2 * k) < 2 ^ (2 * k * n) := by
      apply Nat.div_lt_of_lt_mul
      rwa [← pow_add, Nat.add_comm, ← Nat.mul_succ]
    have hcomm : x / 2 ^ k / 2 ^ (2 * k) = x / 2 ^ (2 * k) / 2 ^ k := Nat.div_right_comm ..
    rw [evenFields_succ, evenFields_succ, hcomm]
    calc 2 ^ (2 * k) * evenFields k n (x / 2 ^ (2 * k)) + x % 2 ^ k +
          2 ^ k * (2 ^ (2 * k) * evenFields k n (x / 2 ^ (2 * k) / 2 ^ k) + x / 2 ^ k % 2 ^ k)
        = 2 ^ (2 * k) * (evenFields k n (x / 2 ^ (2 * k)) + 2 ^ k * evenFields k n (x / 2 ^ (2 * k) / 2 ^ k)) +
          (2 ^ k * (x / 2 ^ k % 2 ^ k) + x % 2 ^ k) := by ring
      _ = 2 ^ k * (2 ^ k * (x / 2 ^ k / 2 ^ k) + x / 2 ^ k % 2 ^ k) + x % 2 ^ k := by
        rw [ih hlt, ← div_twice]
        ring
      _ = x := by rw [Nat.div_add_mod, Nat.div_add_mod]

/-- With fields of one bit, a subtraction adds the pairs. -/
theorem sub_odd (hx : x < 2 ^ (2 * n)) : x - evenFields 1 n (x / 2) = pairSum 1 n x := by
  have hadd := evenFields_add (k := 1) (n := n) (x := x) (by simpa using hx)
  rw [pow_one] at hadd
  rw [pairSum, pow_one]
  omega

/-- When the sums fit into their fields, the pairs may be added before the other fields are cleared. -/
theorem evenFields_add_shift (hb : 2 * b < 2 ^ k) (h : FieldsLe k b x) :
    evenFields k n (x + x / 2 ^ k) = pairSum k n x := by
  induction n generalizing x with
  | zero => rw [evenFields_zero, pairSum_zero]
  | succ n ih =>
    have hsum : b + b < 2 ^ k := by omega
    have hdiv : (x + x / 2 ^ k) / 2 ^ (2 * k) = x / 2 ^ (2 * k) + x / 2 ^ (2 * k) / 2 ^ k := by
      have := add_div h h.tail hsum 2
      rwa [Nat.mul_comm, Nat.div_right_comm] at this
    have hmod : (x + x / 2 ^ k) % 2 ^ k = x % 2 ^ k + x / 2 ^ k % 2 ^ k := by
      have := field_add h h.tail hsum 0
      simpa using this
    rw [evenFields_succ, pairSum_succ, hdiv, hmod, ih]
    rw [← div_twice]
    exact h.tail.tail

end Fields

/-- Fields of one bit: their sum is the number of bits that are set. -/
theorem fieldSum_one (n x : ℕ) : fieldSum 1 n x = ((Finset.range n).filter fun i => x.testBit i = true).card := by
  rw [fieldSum_eq_sum, Finset.card_filter]
  refine Finset.sum_congr rfl fun i _ => ?_
  rw [field, Nat.one_mul, pow_one, ← Nat.toNat_testBit]
  cases x.testBit i <;> rfl

theorem fieldsLe_one (x : ℕ) : FieldsLe 1 1 x := by
  intro i
  rw [field, pow_one]
  omega

end GompUlt.BitFields
