import Mathlib

/-! # Intervals laid end to end

Pieces are taken from the front of `[0, N)` one after the other, each a multiple of a stride or up
to the end.  Whatever their sizes, they are disjoint and together hold exactly the multiples of the
stride below the point reached.
-/
namespace GompUlt.Tiling

/-- The pieces taken so far reach from 0 to `p`. -/
inductive Tiled (D N : ℤ) : List (ℤ × ℤ) → ℤ → Prop
  | nil : Tiled D N [] 0
  | snoc {l : List (ℤ × ℤ)} {p q : ℤ} : Tiled D N l p → p < q → q ≤ N → (D ∣ q - p ∨ q = N) →
      Tiled D N (l ++ [(p,q)]) q

variable {D N p : ℤ} {l : List (ℤ × ℤ)}

theorem Tiled.dvd_or_eq (h : Tiled D N l p) : D ∣ p ∨ p = N := by
  induction h with
  | nil => exact Or.inl (dvd_zero D)
  | snoc _ hlt hle hd ih =>
    obtain hd | hd := hd
    · obtain ih | ih := ih
      · left
        have hsum := Int.dvd_add ih hd
        rwa [add_sub_cancel] at hsum
      · omega
    · exact Or.inr hd

theorem Tiled.dvd (h : Tiled D N l p) (hp : p < N) : D ∣ p := by
  obtain h | h := h.dvd_or_eq
  · exact h
  · omega

theorem Tiled.nonneg (h : Tiled D N l p) : 0 ≤ p := by
  induction h with
  | nil => exact le_rfl
  | snoc _ hlt _ _ ih => omega

theorem Tiled.le (h : Tiled D N l p) (hN : 0 ≤ N) : p ≤ N := by
  induction h with
  | nil => exact hN
  | snoc _ _ hle _ _ => exact hle

/-- Each piece starts at a multiple of the stride and is not empty. -/
theorem Tiled.mem (h : Tiled D N l p) : ∀ c ∈ l, 0 ≤ c.1 ∧ c.1 < c.2 ∧ c.2 ≤ p ∧ c.2 ≤ N ∧ D ∣ c.1 ∧
    (D ∣ c.2 - c.1 ∨ c.2 = N) := by
  induction h with
  | nil => simp
  | @snoc l p q h hlt hle hd ih =>
    intro c hc
    obtain hc | hc := List.mem_append.mp hc
    · obtain ⟨h1,h2,h3,h4,h5,h6⟩ := ih c hc
      exact ⟨h1,h2,by omega,h4,h5,h6⟩
    · obtain rfl := List.mem_singleton.mp hc
      exact ⟨h.nonneg,hlt,le_rfl,hle,h.dvd (by omega),hd⟩

/-- Pieces taken later lie behind. -/
theorem Tiled.pairwise (h : Tiled D N l p) : l.Pairwise fun c d => c.2 ≤ d.1 := by
  induction h with
  | nil => exact List.Pairwise.nil
  | @snoc l p q h hlt hle hd ih =>
    refine List.pairwise_append.mpr ⟨ih,List.pairwise_singleton _ _,fun c hc d hd => ?_⟩
    obtain rfl := List.mem_singleton.mp hd
    exact (h.mem c hc).2.2.1

/-- Everything before the point reached is in a piece. -/
theorem Tiled.cover (h : Tiled D N l p) {y : ℤ} (h0 : 0 ≤ y) (hy : y < p) : ∃ c ∈ l, c.1 ≤ y ∧ y < c.2 := by
  induction h with
  | nil => omega
  | @snoc l p q h hlt hle hd ih =>
    by_cases hyp : y < p
    · obtain ⟨c,hc,hcy⟩ := ih hyp
      exact ⟨c,List.mem_append_left _ hc,hcy⟩
    · exact ⟨(p,q),List.mem_append_right _ (List.mem_singleton_self _),by omega,hy⟩

/-- The first piece starts at 0, and each other one where the piece before it ends. -/
theorem Tiled.contiguous (h : Tiled D N l p) :
    l.IsChain (fun c d => d.1 = c.2) ∧ (∀ c ∈ l.head?, c.1 = 0) ∧ (∀ c ∈ l.getLast?, c.2 = p) ∧ (l = [] → p = 0) := by
  induction h with
  | nil => simp
  | @snoc l p q h hlt hle hd ih =>
    obtain ⟨hchain,hhead,hlast,hnil⟩ := ih
    refine ⟨?_,?_,by simp,by simp⟩
    · refine hchain.append (List.isChain_singleton _) fun c hc d hd => ?_
      obtain rfl : (p,q) = d := by simpa using hd
      exact (hlast c hc).symm
    · intro c hc
      cases l with
      | nil =>
        obtain rfl : (p,q) = c := by simpa using hc
        exact hnil rfl
      | cons d l => exact hhead c (by simpa using hc)

/-- There are no more pieces than points. -/
theorem Tiled.length_le (h : Tiled D N l p) : l.length ≤ p := by
  induction h with
  | nil => exact le_rfl
  | snoc _ hlt _ _ ih =>
    rw [List.length_append, List.length_singleton]
    omega

/-- A point between the first and the last of rising bounds lies between exactly one pair of neighbours. -/
theorem existsUnique_between {b : ℕ → ℤ} (hb : Monotone b) {m : ℕ} {y : ℤ} (h0 : b 0 ≤ y) (hy : y < b m) :
    ∃! j, j < m ∧ b j ≤ y ∧ y < b (j + 1) := by
  induction m with
  | zero => omega
  | succ m ih =>
    by_cases hm : y < b m
    · obtain ⟨j,⟨hj,hjy⟩,huniq⟩ := ih hm
      refine ⟨j,⟨by omega,hjy⟩,fun i ⟨hi,hiy⟩ => huniq i ⟨?_,hiy⟩⟩
      by_contra hge
      have := hb (show m ≤ i by omega)
      omega
    · refine ⟨m,⟨by omega,by omega,hy⟩,fun i ⟨hi,hiy⟩ => ?_⟩
      by_contra hne
      have := hb (show i + 1 ≤ m by omega)
      omega

end GompUlt.Tiling
