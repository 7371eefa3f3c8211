import Mathlib.Order.PiLex
import Mathlib.Data.Fintype.Basic

/-! # Lexicographic order on the first coordinates of a tuple

A reader that has seen only the first coordinates of a tuple knows its order up to them.  The
relation below is closed under growth of the right side in the full order and is extended by one
coordinate at a time.
-/
namespace GompUlt.LexPrefix

variable {n : ℕ} {α : Type*} [LinearOrder α]

/-- Lexicographic order of tuples. -/
def LexLe (u v : Fin n → α) : Prop := u = v ∨ Pi.Lex (· < ·) (· < ·) u v

instance (u v : Fin n → α) : Decidable (LexLe u v) :=
  inferInstanceAs (Decidable (u = v ∨ ∃ i, (∀ j, j < i → u j = v j) ∧ u i < v i))

theorem LexLe.rfl {u : Fin n → α} : LexLe u u := Or.inl (Eq.refl u)

/-- Below or equal on the coordinates before `i`. -/
def LexUpTo (i : ℕ) (u v : Fin n → α) : Prop :=
  (∃ j : Fin n, j.val < i ∧ (∀ k < j, u k = v k) ∧ u j < v j) ∨ ∀ k : Fin n, k.val < i → u k = v k

theorem lexUpTo_zero (u v : Fin n → α) : LexUpTo 0 u v := Or.inr fun _ h => absurd h (Nat.not_lt_zero _)

/-- The right side may grow. -/
theorem LexUpTo.trans {i : ℕ} {s u w : Fin n → α} (h : LexUpTo i s u) (hle : LexLe u w) : LexUpTo i s w := by
  obtain rfl | ⟨m,hm,hlt⟩ := hle
  · exact h
  · obtain ⟨j,hj,heq,hs⟩ | heq := h
    · obtain hlt' | rfl | hlt' := lt_trichotomy m j
      · exact Or.inl ⟨m,lt_trans hlt' hj,fun k hk => (heq k (hk.trans hlt')).trans (hm k hk),
          (heq m hlt').trans_lt hlt⟩
      · exact Or.inl ⟨m,hj,fun k hk => (heq k hk).trans (hm k hk),hs.trans hlt⟩
      · exact Or.inl ⟨j,hj,fun k hk => (heq k hk).trans (hm k (hk.trans hlt')),hs.trans_eq (hm j hlt')⟩
    · by_cases hmi : m.val < i
      · exact Or.inl ⟨m,hmi,fun k hk => (heq k (lt_trans hk hmi)).trans (hm k hk),(heq m hmi).trans_lt hlt⟩
      · exact Or.inr fun k hk => (heq k hk).trans (hm k (Fin.lt_def.mpr (by omega)))

/-- One more equal coordinate. -/
theorem LexUpTo.succ {i : Fin n} {s u : Fin n → α} (h : LexUpTo i s u) (heq : s i = u i) :
    LexUpTo (i + 1) s u := by
  obtain ⟨j,hj,hpre,hlt⟩ | hpre := h
  · exact Or.inl ⟨j,by omega,hpre,hlt⟩
  · refine Or.inr fun k hk => ?_
    obtain hk' | hk' := Nat.lt_succ_iff_lt_or_eq.mp hk
    · exact hpre k hk'
    · rw [Fin.ext hk']
      exact heq

/-- A smaller coordinate decides. -/
theorem LexUpTo.lexLe_of_lt {i : Fin n} {s u : Fin n → α} (h : LexUpTo i s u) (hlt : s i < u i) : LexLe s u := by
  obtain ⟨j,_,hpre,hj⟩ | hpre := h
  · exact Or.inr ⟨j,hpre,hj⟩
  · exact Or.inr ⟨i,hpre,hlt⟩

/-- All coordinates have been compared. -/
theorem LexUpTo.lexLe {i : ℕ} {s u : Fin n → α} (h : LexUpTo i s u) (hi : n ≤ i) : LexLe s u := by
  obtain ⟨j,_,hpre,hj⟩ | hpre := h
  · exact Or.inr ⟨j,hpre,hj⟩
  · exact Or.inl (funext fun k => hpre k (lt_of_lt_of_le k.isLt hi))

end GompUlt.LexPrefix
