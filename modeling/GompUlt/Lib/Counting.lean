import Mathlib.Algebra.BigOperators.Fin
import Mathlib.Data.Fintype.Card

/-! # Sums and cardinalities that change at one place -/
namespace GompUlt.Counting

variable {τ : Type*} [Fintype τ] [DecidableEq τ]

theorem sum_change {f g : τ → ℕ} (t : τ) (h : ∀ u, u ≠ t → f u = g u) : ∑ u, f u + g t = ∑ u, g u + f t := by
  rw [← Finset.add_sum_erase _ f (Finset.mem_univ t),← Finset.add_sum_erase _ g (Finset.mem_univ t)]
  have herase : ∑ u ∈ Finset.univ.erase t, f u = ∑ u ∈ Finset.univ.erase t, g u :=
    Finset.sum_congr rfl fun u hu => h u (Finset.ne_of_mem_erase hu)
  omega

theorem card_change {p q : τ → Bool} (t : τ) (h : ∀ u, u ≠ t → p u = q u) :
    (Finset.univ.filter fun u => p u = true).card + (q t).toNat =
      (Finset.univ.filter fun u => q u = true).card + (p t).toNat := by
  have hcard : ∀ r : τ → Bool, (Finset.univ.filter fun u => r u = true).card = ∑ u, (r u).toNat := by
    intro r
    rw [Finset.card_filter]
    refine Finset.sum_congr rfl fun u _ => ?_
    cases r u <;> rfl
  rw [hcard,hcard]
  exact sum_change (f := fun u => (p u).toNat) (g := fun u => (q u).toNat) t fun u hu => by rw [h u hu]

theorem sum_bump {ν : Type*} [AddCommMonoid ν] {f g : τ → ν} {x : ν} (t : τ) (ht : f t = g t + x)
    (h : ∀ u, u ≠ t → f u = g u) : ∑ u, f u = ∑ u, g u + x := by
  have hrest : ∑ u ∈ Finset.univ.erase t, f u = ∑ u ∈ Finset.univ.erase t, g u :=
    Finset.sum_congr rfl fun u hu => h u (Finset.ne_of_mem_erase hu)
  rw [← Finset.add_sum_erase _ f (Finset.mem_univ t), ← Finset.add_sum_erase _ g (Finset.mem_univ t), ht, hrest,
    add_right_comm]

/-- What moves from one place to another stays in the sum. -/
theorem sum_move {ν : Type*} [AddCommMonoid ν] {f g : τ → ν} {t u : τ} (htu : t ≠ u) (hmove : f t + f u = g t + g u)
    (h : ∀ v, v ≠ t → v ≠ u → f v = g v) : ∑ v, f v = ∑ v, g v := by
  have hu : u ∈ Finset.univ.erase t := Finset.mem_erase.mpr ⟨htu.symm,Finset.mem_univ u⟩
  rw [← Finset.add_sum_erase _ f (Finset.mem_univ t), ← Finset.add_sum_erase _ g (Finset.mem_univ t),
    ← Finset.add_sum_erase _ f hu, ← Finset.add_sum_erase _ g hu, ← add_assoc, ← add_assoc, hmove]
  congr 1
  refine Finset.sum_congr rfl fun v hv => ?_
  rw [Finset.mem_erase, Finset.mem_erase] at hv
  exact h v hv.2.1 hv.1

end GompUlt.Counting
