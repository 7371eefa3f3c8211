import Mathlib.Tactic.Common
import Mathlib.Data.Nat.Notation

/-! # C objects in bytes

Memory is a function of the address, and a value is read from its bytes in little-endian order.  The members of a
structure are placed one behind the other, each at the next multiple of its alignment.
-/
namespace GompUlt.Layout

abbrev Memory := ℕ → UInt8

/-- `memset (a, 0, n)`. -/
def clear (m : Memory) (a n : ℕ) : Memory := fun x => if a ≤ x ∧ x < a + n then 0 else m x

/-- The value of the `n` bytes from `a` on. -/
def load (m : Memory) (a : ℕ) : ℕ → ℕ
  | 0 => 0
  | n + 1 => (m a).toNat + 256 * load m (a + 1) n

variable {m m' : Memory} {a b n k : ℕ}

theorem load_eq_zero : load m a n = 0 ↔ ∀ x, a ≤ x → x < a + n → m x = 0 := by
  induction n generalizing a with
  | zero =>
    refine ⟨fun _ x hx hx' => ?_,fun _ => rfl⟩
    omega
  | succ n ih =>
    have hbyte : (m a).toNat = 0 ↔ m a = 0 := by
      rw [← UInt8.toNat_inj]
      rfl
    rw [load, Nat.add_eq_zero_iff, hbyte, Nat.mul_eq_zero, or_iff_right (by decide), ih]
    constructor
    · rintro ⟨ha,hrest⟩ x hx hx'
      obtain rfl | hlt := Nat.eq_or_lt_of_le hx
      · exact ha
      · exact hrest x hlt (by omega)
    · intro h
      exact ⟨h a (Nat.le_refl _) (by omega),fun x hx hx' => h x (by omega) (by omega)⟩

/-- A value depends on its own bytes only. -/
theorem load_congr (h : ∀ x, a ≤ x → x < a + n → m x = m' x) : load m a n = load m' a n := by
  induction n generalizing a with
  | zero => rfl
  | succ n ih => rw [load, load, h a (Nat.le_refl _) (by omega), ih fun x hx hx' => h x (by omega) (by omega)]

theorem load_clear_inside (hlow : b ≤ a) (hhigh : a + n ≤ b + k) : load (clear m b k) a n = 0 :=
  load_eq_zero.mpr fun x hx hx' => if_pos (by omega)

theorem load_clear_outside (h : a + n ≤ b ∨ b + k ≤ a) : load (clear m b k) a n = load m a n :=
  load_congr fun x hx hx' => if_neg (by omega)

/-- The size and the alignment of a type. -/
structure CType where
  size : ℕ
  align : ℕ
deriving DecidableEq, Repr

/-- The next multiple. -/
def roundUp (n a : ℕ) : ℕ := (n + a - 1) / a * a

theorem roundUp_bounds (ha : 0 < a) : n ≤ roundUp n a ∧ roundUp n a < n + a := by
  have h1 := Nat.div_mul_le_self (n + a - 1) a
  have h2 := Nat.lt_div_mul_add ha (a := n + a - 1)
  unfold roundUp
  omega

/-- The offsets of the members that follow, and the end of the last one. -/
def place : ℕ → List CType → List ℕ × ℕ
  | p, [] => ([],p)
  | p, t :: ts =>
    let o := roundUp p t.align
    let rest := place (o + t.size) ts
    (o :: rest.1,rest.2)

def offset (ts : List CType) (i : ℕ) : ℕ := (place 0 ts).1.getD i 0

/-- A structure. -/
def struct (ts : List CType) : CType :=
  let align := ts.foldl (fun a t => max a t.align) 1
  ⟨roundUp (place 0 ts).2 align,align⟩

end GompUlt.Layout
