import Mathlib.Data.List.Nodup
import Mathlib.Data.List.Perm.Basic
import Mathlib.Logic.Function.Basic

/-! # Items arranged in places

Every item stands once in the list of exactly one place.  Items move between two places, and fresh
items are put into a place.
-/
namespace GompUlt.Arrangement

variable {κ π : Type*}

/-- The items that satisfy `p` are those listed, each in one place and once. -/
structure Arranged (p : κ → Prop) (lists : π → List κ) : Prop where
  mem_iff : ∀ x, (∃ q, x ∈ lists q) ↔ p x
  unique : ∀ x q q', x ∈ lists q → x ∈ lists q' → q = q'
  nodup : ∀ q, (lists q).Nodup

variable {p : κ → Prop} {lists lists' : π → List κ} {a b : π} {P R : List κ} {x : κ}

theorem Arranged.holds (h : Arranged p lists) (hx : x ∈ lists a) : p x := (h.mem_iff x).mp ⟨a,hx⟩

theorem Arranged.notMem (h : Arranged p lists) (hx : x ∈ lists a) (hab : b ≠ a) : x ∉ lists b :=
  fun hb => hab (h.unique x b a hb hx)

/-- Every item has exactly one place. -/
theorem Arranged.existsUnique (h : Arranged p lists) (hx : p x) : ∃! q, x ∈ lists q := by
  obtain ⟨q,hq⟩ := (h.mem_iff x).mpr hx
  exact ⟨q,hq,fun q' hq' => h.unique x q' q hq' hq⟩

variable [DecidableEq π]

/-- The places after `P` was moved from `a` to `b`. -/
def moveTo (lists : π → List κ) (a b : π) (P R : List κ) : π → List κ :=
  Function.update (Function.update lists a R) b (P ++ lists b)

theorem moveTo_to : moveTo lists a b P R b = P ++ lists b := by
  simp [moveTo]

theorem moveTo_from (hab : a ≠ b) : moveTo lists a b P R a = R := by
  simp [moveTo, hab]

theorem moveTo_of_ne {q : π} (ha : q ≠ a) (hb : q ≠ b) : moveTo lists a b P R q = lists q := by
  simp [moveTo, ha, hb]

theorem mem_moveTo (hp : (lists a).Perm (P ++ R)) (hab : a ≠ b) {q : π} :
    x ∈ moveTo lists a b P R q ↔ (x ∈ P ∧ q = b) ∨ (x ∈ lists q ∧ (q = a → x ∈ R)) := by
  by_cases hb : q = b
  · subst hb
    simp [moveTo_to, Ne.symm hab]
  · by_cases ha : q = a
    · subst ha
      rw [moveTo_from hab]
      simp only [hb, and_false, false_or, forall_const]
      exact ⟨fun hx => ⟨hp.symm.subset (List.mem_append_right _ hx),hx⟩,And.right⟩
    · simp [moveTo_of_ne ha hb, ha, hb]

/-- Moving items keeps the arrangement. -/
theorem Arranged.move (h : Arranged p lists) (hab : a ≠ b) (hp : (lists a).Perm (P ++ R)) :
    Arranged p (moveTo lists a b P R) := by
  have hPR : (P ++ R).Nodup := hp.nodup_iff.mp (h.nodup a)
  have hP : ∀ x ∈ P, x ∈ lists a := fun x hx => hp.symm.subset (List.mem_append_left _ hx)
  have hdis : ∀ x ∈ P, x ∉ R := fun x hx hR => (List.nodup_append.mp hPR).2.2 x hx x hR rfl
  constructor
  case mem_iff =>
    intro x
    rw [← h.mem_iff x]
    constructor
    · rintro ⟨q,hq⟩
      obtain ⟨hx,-⟩ | ⟨hx,-⟩ := (mem_moveTo hp hab).mp hq
      · exact ⟨a,hP x hx⟩
      · exact ⟨q,hx⟩
    · rintro ⟨q,hq⟩
      by_cases hx : x ∈ P
      · exact ⟨b,(mem_moveTo hp hab).mpr (Or.inl ⟨hx,rfl⟩)⟩
      · refine ⟨q,(mem_moveTo hp hab).mpr (Or.inr ⟨hq,?_⟩)⟩
        rintro rfl
        exact (List.mem_append.mp (hp.subset hq)).resolve_left hx
  case unique =>
    intro x q q' hq hq'
    obtain ⟨hx,rfl⟩ | ⟨hx,hR⟩ := (mem_moveTo hp hab).mp hq <;>
      obtain ⟨hx',rfl⟩ | ⟨hx',hR'⟩ := (mem_moveTo hp hab).mp hq'
    · rfl
    · exact absurd (hR' (h.unique x q' a hx' (hP x hx))) (hdis x hx)
    · exact absurd (hR (h.unique x q a hx (hP x hx'))) (hdis x hx')
    · exact h.unique x q q' hx hx'
  case nodup =>
    intro q
    by_cases hb : q = b
    · subst hb
      rw [moveTo_to,List.nodup_append]
      refine ⟨(List.nodup_append.mp hPR).1,h.nodup q,?_⟩
      rintro x hx y hy rfl
      exact hab (h.unique x a q (hP x hx) hy)
    · by_cases ha : q = a
      · subst ha
        rw [moveTo_from hab]
        exact (List.nodup_append.mp hPR).2.1
      · rw [moveTo_of_ne ha hb]
        exact h.nodup q

/-- The places after fresh items were put before those of `a`. -/
def putIn (lists : π → List κ) (a : π) (P : List κ) : π → List κ := Function.update lists a (P ++ lists a)

theorem putIn_self : putIn lists a P a = P ++ lists a := by
  simp [putIn]

theorem putIn_of_ne {q : π} (ha : q ≠ a) : putIn lists a P q = lists q := by
  simp [putIn, ha]

theorem mem_putIn {q : π} : x ∈ putIn lists a P q ↔ (x ∈ P ∧ q = a) ∨ x ∈ lists q := by
  by_cases ha : q = a
  · subst ha
    simp [putIn_self]
  · simp [putIn_of_ne ha, ha]

theorem Arranged.put {p' : κ → Prop} (h : Arranged p lists) (hnd : P.Nodup) (hfresh : ∀ x ∈ P, ¬p x)
    (hp' : ∀ x, p' x ↔ p x ∨ x ∈ P) : Arranged p' (putIn lists a P) := by
  constructor
  case mem_iff =>
    intro x
    rw [hp',← h.mem_iff x]
    simp only [mem_putIn]
    constructor
    · rintro ⟨q,⟨hx,-⟩ | hx⟩
      · exact Or.inr hx
      · exact Or.inl ⟨q,hx⟩
    · rintro (⟨q,hx⟩ | hx)
      · exact ⟨q,Or.inr hx⟩
      · exact ⟨a,Or.inl ⟨hx,rfl⟩⟩
  case unique =>
    intro x q q' hq hq'
    obtain ⟨hx,rfl⟩ | hx := mem_putIn.mp hq <;> obtain ⟨hx',rfl⟩ | hx' := mem_putIn.mp hq'
    · rfl
    · exact absurd (h.holds hx') (hfresh x hx)
    · exact absurd (h.holds hx) (hfresh x hx')
    · exact h.unique x q q' hx hx'
  case nodup =>
    intro q
    by_cases ha : q = a
    · subst ha
      rw [putIn_self,List.nodup_append]
      refine ⟨hnd,h.nodup q,?_⟩
      rintro x hx y hy rfl
      exact hfresh x hx (h.holds hy)
    · rw [putIn_of_ne ha]
      exact h.nodup q

end GompUlt.Arrangement
