import Mathlib.Data.List.Nodup
import Mathlib.Tactic.Common

/-! # Singly linked list segments

A store keeps for every node an optional successor.  A segment is the list of nodes met on the way
from one pointer to another; a whole list is a segment that ends in NULL.
-/
namespace GompUlt.ListSegment

variable {κ : Type*} {next next' : κ → Option κ} {h t m : Option κ} {a b l : List κ} {x y : κ}

/-- From `h` the nodes `l` are met in order, and then `t`. -/
def IsSeg (next : κ → Option κ) : Option κ → List κ → Option κ → Prop
  | h, [], t => h = t
  | h, x :: l, t => h = some x ∧ IsSeg next (next x) l t

@[simp] theorem isSeg_nil : IsSeg next h [] t ↔ h = t := Iff.rfl

@[simp] theorem isSeg_cons : IsSeg next h (x :: l) t ↔ h = some x ∧ IsSeg next (next x) l t := Iff.rfl

theorem isSeg_append : IsSeg next h (a ++ b) t ↔ ∃ m, IsSeg next h a m ∧ IsSeg next m b t := by
  induction a generalizing h with
  | nil => simp
  | cons x a ih => simp [ih, and_assoc]

/-- The last node of a segment points at its end. -/
theorem isSeg_concat : IsSeg next h (a ++ [x]) t ↔ IsSeg next h a (some x) ∧ next x = t := by
  simp [isSeg_append]

theorem IsSeg.head?_eq (hs : IsSeg next h l none) : h = l.head? := by
  cases l with
  | nil => exact hs
  | cons x l => exact hs.1

/-- A segment depends on the successors of its own nodes only. -/
theorem IsSeg.congr (hs : IsSeg next h l t) (he : ∀ x ∈ l, next' x = next x) : IsSeg next' h l t := by
  induction l generalizing h with
  | nil => exact hs
  | cons x l ih =>
    refine ⟨hs.1,?_⟩
    rw [he x (by simp)]
    exact ih hs.2 fun y hy => he y (by simp [hy])

/-- Two lists from one pointer are the same. -/
theorem IsSeg.unique (ha : IsSeg next h a none) (hb : IsSeg next h b none) : a = b := by
  induction a generalizing h b with
  | nil =>
    cases b with
    | nil => rfl
    | cons y b =>
      obtain rfl : h = none := ha
      exact absurd hb.1 (by simp)
  | cons x a ih =>
    obtain ⟨rfl,ha⟩ := ha
    cases b with
    | nil => exact absurd hb (by simp)
    | cons y b =>
      obtain ⟨he,hb⟩ := hb
      obtain rfl := Option.some.inj he
      rw [ih ha hb]

/-- A list that ends in NULL meets no node twice. -/
theorem IsSeg.nodup (hs : IsSeg next h l none) : l.Nodup := by
  induction l generalizing h with
  | nil => exact List.nodup_nil
  | cons x l ih =>
    refine List.nodup_cons.mpr ⟨fun hx => ?_,ih hs.2⟩
    -- a second visit of `x` would continue like the first one
    obtain ⟨a,b,rfl⟩ := List.append_of_mem hx
    obtain ⟨m,-,-,hb⟩ := isSeg_append.mp hs.2
    have hlen := congrArg List.length (hb.unique hs.2)
    simp only [List.length_append, List.length_cons] at hlen
    omega

/-- A fresh run of `k + 1` nodes from `n` on: each points at the next one, the last one at NULL. -/
def chain (next : ℕ → Option ℕ) (n k : ℕ) : ℕ → Option ℕ := fun x =>
  if n ≤ x ∧ x < n + k then some (x + 1) else if x = n + k then none else next x

theorem chain_of_lt {next : ℕ → Option ℕ} {n k x : ℕ} (hx : x < n) : chain next n k x = next x := by
  unfold chain
  rw [if_neg (by omega),if_neg (by omega)]

theorem isSeg_range' {next : ℕ → Option ℕ} {n k : ℕ} (hstep : ∀ x, n ≤ x → x < n + k → next x = some (x + 1))
    (hlast : next (n + k) = none) : IsSeg next (some n) (List.range' n (k + 1)) none := by
  induction k generalizing n with
  | zero => simpa using hlast
  | succ k ih =>
    rw [List.range'_succ]
    refine ⟨rfl,?_⟩
    rw [hstep n (Nat.le_refl n) (by omega)]
    refine ih (fun x hx hlt => hstep x (by omega) (by omega)) ?_
    rw [← hlast]
    congr 1
    omega

theorem chain_isSeg (next : ℕ → Option ℕ) (n k : ℕ) :
    IsSeg (chain next n k) (some n) (List.range' n (k + 1)) none := by
  refine isSeg_range' (fun x h1 h2 => if_pos ⟨h1,h2⟩) ?_
  unfold chain
  rw [if_neg (by omega),if_pos rfl]

variable [DecidableEq κ]

theorem IsSeg.update (hs : IsSeg next h l t) (hx : x ∉ l) (v : Option κ) :
    IsSeg (Function.update next x v) h l t := by
  refine hs.congr fun y hy => ?_
  rw [Function.update_of_ne]
  rintro rfl
  exact hx hy

/-- A store to the last node moves the end of the segment. -/
theorem IsSeg.setLast (hs : IsSeg next h (a ++ [x]) t) (hx : x ∉ a) (v : Option κ) :
    IsSeg (Function.update next x v) h (a ++ [x]) v :=
  isSeg_concat.mpr ⟨(isSeg_concat.mp hs).1.update hx v,by simp⟩

end GompUlt.ListSegment
