import Mathlib.Data.List.Nodup
import Mathlib.Tactic.Common

/-! # Doubly linked lists that end in NULL

A store keeps for every node two optional neighbours.  A chain is a duplicate-free list
each of whose elements points at the one after it and at the one before it.
-/
namespace GompUlt.LinkChain

/-- The next and prev fields of all nodes. -/
structure Fields (κ : Type*) where
  next : κ → Option κ
  prev : κ → Option κ

/-- The store holds the list. -/
structure Linked {κ : Type*} (h : Fields κ) (u : List κ) : Prop where
  nodup : u.Nodup
  next_eq : ∀ a x b, u = a ++ x :: b → h.next x = b.head?
  prev_eq : ∀ a x b, u = a ++ x :: b → h.prev x = a.getLast?

section Reading
variable {κ : Type*} {h : Fields κ} {a b : List κ} {n x : κ}

theorem linked_nil : Linked h [] := ⟨List.nodup_nil,by simp,by simp⟩

theorem linked_singleton (hn : h.next x = none) (hp : h.prev x = none) : Linked h [x] := by
  refine ⟨by simp,?_,?_⟩
  · rintro (_ | ⟨_,_⟩) y b e
    · simp_all
    · simp at e
  · rintro (_ | ⟨_,_⟩) y b e
    · simp_all
    · simp at e

theorem Linked.next_mid (hc : Linked h (a ++ n :: b)) : h.next n = b.head? := hc.next_eq a n b rfl

theorem Linked.prev_mid (hc : Linked h (a ++ n :: b)) : h.prev n = a.getLast? := hc.prev_eq a n b rfl

theorem Linked.congr {h' : Fields κ} {u : List κ} (hc : Linked h u)
    (hu : ∀ x ∈ u, h'.next x = h.next x ∧ h'.prev x = h.prev x) : Linked h' u := by
  refine ⟨hc.nodup,fun a x b e => ?_,fun a x b e => ?_⟩
  · rw [(hu x (by simp [e])).1, hc.next_eq a x b e]
  · rw [(hu x (by simp [e])).2, hc.prev_eq a x b e]

/-- Two ways to cut one list at an element. -/
theorem cut_cases {a' b' : List κ} (he : a ++ n :: b = a' ++ x :: b') :
    (∃ c, a = a' ++ x :: c ∧ b' = c ++ n :: b) ∨ (a = a' ∧ n = x ∧ b = b') ∨
    (∃ c, a' = a ++ n :: c ∧ b = c ++ x :: b') := by
  rcases List.append_eq_append_iff.mp he with ⟨c,ha,hb⟩ | ⟨c,ha,hb⟩
  · cases c with
    | nil =>
      obtain ⟨rfl,rfl⟩ := List.cons.inj (by simpa using hb)
      exact .inr (.inl ⟨by simpa using ha.symm,rfl,rfl⟩)
    | cons y c =>
      obtain ⟨rfl,rfl⟩ := List.cons.inj (by simpa using hb)
      exact .inr (.inr ⟨c,ha,rfl⟩)
  · cases c with
    | nil =>
      obtain ⟨rfl,rfl⟩ := List.cons.inj (by simpa using hb)
      exact .inr (.inl ⟨by simpa using ha,rfl,rfl⟩)
    | cons y c =>
      obtain ⟨rfl,rfl⟩ := List.cons.inj (by simpa using hb)
      exact .inl ⟨c,ha,rfl⟩

theorem cut_unique {a' b' : List κ} (hd : (a ++ n :: b).Nodup) (he : a ++ n :: b = a' ++ n :: b') :
    a = a' ∧ b = b' := by
  rcases cut_cases he with ⟨c,rfl,rfl⟩ | ⟨ha,_,hb⟩ | ⟨c,rfl,rfl⟩
  · simp [List.nodup_append] at hd
  · exact ⟨ha,hb⟩
  · simp [List.nodup_append] at hd

/-- A fresh node between two halves of a chain, by what its fields and those of its
neighbours must be. -/
theorem Linked.insert_of [DecidableEq κ] {h' : Fields κ} (hc : Linked h (a ++ b)) (hn : n ∉ a ++ b)
    (hnext : h'.next n = b.head?) (hprev : h'.prev n = a.getLast?)
    (hx : ∀ x, x ≠ n → h'.next x = if a.getLast? = some x then some n else h.next x)
    (hp : ∀ x, x ≠ n → h'.prev x = if b.head? = some x then some n else h.prev x) :
    Linked h' (a ++ n :: b) := by
  have hnd : (a ++ n :: b).Nodup := List.nodup_middle.mpr (List.nodup_cons.mpr ⟨hn,hc.nodup⟩)
  refine ⟨hnd,fun a' x b' e => ?_,fun a' x b' e => ?_⟩
  · rcases cut_cases e with ⟨c,rfl,rfl⟩ | ⟨rfl,rfl,rfl⟩ | ⟨c,rfl,rfl⟩
    · have hxn : x ≠ n := by rintro rfl; simp at hn
      rw [hx x hxn]
      rcases List.eq_nil_or_concat c with rfl | ⟨c,y,rfl⟩
      · simp
      · have hyx : y ≠ x := by
          rintro rfl
          simp [List.nodup_append] at hnd
        rw [if_neg (by simp [List.getLast?_append, List.getLast?_cons, hyx]),
          hc.next_eq a' x (c ++ [y] ++ b) (by simp)]
        cases c <;> simp
    · exact hnext
    · have hxn : x ≠ n := by rintro rfl; simp at hn
      have hxa : a.getLast? ≠ some x := fun e => by
        have := List.mem_of_getLast? e
        simp only [List.nodup_append] at hnd
        exact hnd.2.2 x this x (by simp) rfl
      rw [hx x hxn, if_neg hxa, hc.next_eq (a ++ c) x b' (by simp)]
  · rcases cut_cases e with ⟨c,rfl,rfl⟩ | ⟨rfl,rfl,rfl⟩ | ⟨c,rfl,rfl⟩
    · have hxn : x ≠ n := by rintro rfl; simp at hn
      have hxb : b.head? ≠ some x := fun e => by
        have := List.mem_of_head? e
        simp only [List.nodup_append] at hnd
        exact hnd.2.2 x (by simp) x (by simp [this]) rfl
      rw [hp x hxn, if_neg hxb, hc.prev_eq a' x (c ++ b) (by simp)]
    · exact hprev
    · have hxn : x ≠ n := by rintro rfl; simp at hn
      rw [hp x hxn]
      cases c with
      | nil => simp
      | cons y c =>
        have hyx : y ≠ x := by
          rintro rfl
          simp [List.nodup_append] at hnd
        rw [if_neg (by simp [hyx]), hc.prev_eq (a ++ y :: c) x b' (by simp)]
        simp [List.getLast?_append, List.getLast?_cons]

/-- A node taken out of a chain, by what the fields of its neighbours must be. -/
theorem Linked.erase_of [DecidableEq κ] {h' : Fields κ} (hc : Linked h (a ++ n :: b))
    (hx : ∀ x, x ≠ n → h'.next x = if a.getLast? = some x then b.head? else h.next x)
    (hp : ∀ x, x ≠ n → h'.prev x = if b.head? = some x then a.getLast? else h.prev x) :
    Linked h' (a ++ b) := by
  have hnd := hc.nodup
  have hn : n ∉ a ++ b := (List.nodup_cons.mp (List.nodup_middle.mp hnd)).1
  refine ⟨(List.nodup_cons.mp (List.nodup_middle.mp hnd)).2,fun a' x b' e => ?_,fun a' x b' e => ?_⟩
  · have hxn : x ≠ n := by rintro rfl; simp [e] at hn
    rw [hx x hxn]
    rcases List.append_eq_append_iff.mp e with ⟨c,rfl,hb⟩ | ⟨c,rfl,hb⟩
    · have hxa : a.getLast? ≠ some x := fun e => by
        have := List.mem_of_getLast? e
        simp only [List.nodup_append] at hnd
        exact hnd.2.2 x this x (by simp [hb]) rfl
      rw [if_neg hxa, hc.next_eq (a ++ n :: c) x b' (by simp [hb])]
    · cases c with
      | nil =>
        obtain rfl : b = x :: b' := by simpa using hb.symm
        have hxa : a'.getLast? ≠ some x := fun e => by
          have := List.mem_of_getLast? e
          simp only [List.nodup_append] at hnd
          exact hnd.2.2 x (by simpa using this) x (by simp) rfl
        rw [List.append_nil, if_neg hxa, hc.next_eq (a' ++ [n]) x b' (by simp)]
      | cons y c =>
        obtain ⟨rfl,rfl⟩ := List.cons.inj (by simpa using hb)
        rcases List.eq_nil_or_concat c with rfl | ⟨c,z,rfl⟩
        · simp
        · have hzx : z ≠ x := by
            rintro rfl
            simp [List.nodup_append] at hnd
          rw [if_neg (by simp [List.getLast?_append, List.getLast?_cons, hzx]),
            hc.next_eq a' x (c ++ [z] ++ n :: b) (by simp)]
          cases c <;> simp
  · have hxn : x ≠ n := by rintro rfl; simp [e] at hn
    rw [hp x hxn]
    rcases List.append_eq_append_iff.mp e with ⟨c,rfl,hb⟩ | ⟨c,rfl,hb⟩
    · subst hb
      cases c with
      | nil => simp
      | cons y c =>
        have hyx : y ≠ x := by
          rintro rfl
          simp [List.nodup_append] at hnd
        rw [if_neg (by simp [hyx]), hc.prev_eq (a ++ n :: y :: c) x b' (by simp)]
        simp [List.getLast?_append, List.getLast?_cons]
    · cases c with
      | nil =>
        have hb : b = x :: b' := by simpa using hb.symm
        simp [hb]
      | cons y c =>
        obtain ⟨rfl,rfl⟩ := List.cons.inj (by simpa using hb)
        have hxb : b.head? ≠ some x := fun e => by
          have := List.mem_of_head? e
          simp only [List.nodup_append] at hnd
          exact hnd.2.2 x (by simp) x (by simp [this]) rfl
        rw [if_neg hxb, hc.prev_eq a' x (c ++ n :: b) (by simp)]

end Reading

section Writing
variable {κ : Type*} [DecidableEq κ] {h : Fields κ} {a b : List κ} {n p s : κ}

def Fields.setNext (h : Fields κ) (x : κ) (v : Option κ) : Fields κ :=
  { h with next := Function.update h.next x v }
def Fields.setPrev (h : Fields κ) (x : κ) (v : Option κ) : Fields κ :=
  { h with prev := Function.update h.prev x v }

@[simp] theorem setNext_next (x : κ) (v : Option κ) : (h.setNext x v).next = Function.update h.next x v := rfl
@[simp] theorem setNext_prev (x : κ) (v : Option κ) : (h.setNext x v).prev = h.prev := rfl
@[simp] theorem setPrev_next (x : κ) (v : Option κ) : (h.setPrev x v).next = h.next := rfl
@[simp] theorem setPrev_prev (x : κ) (v : Option κ) : (h.setPrev x v).prev = Function.update h.prev x v := rfl

/-- The store to the prev field of a node that may be NULL. -/
def Fields.setPrevOf (h : Fields κ) (x : Option κ) (v : Option κ) : Fields κ :=
  match x with
  | some x => h.setPrev x v
  | none => h

/-- The store to the next field of a node that may be NULL. -/
def Fields.setNextOf (h : Fields κ) (x : Option κ) (v : Option κ) : Fields κ :=
  match x with
  | some x => h.setNext x v
  | none => h

@[simp] theorem setPrevOf_next (x v : Option κ) : (h.setPrevOf x v).next = h.next := by cases x <;> rfl
@[simp] theorem setNextOf_prev (x v : Option κ) : (h.setNextOf x v).prev = h.prev := by cases x <;> rfl

theorem setPrevOf_prev (x v : Option κ) (y : κ) :
    (h.setPrevOf x v).prev y = if x = some y then v else h.prev y := by
  cases x with
  | none => simp [Fields.setPrevOf]
  | some x => simp [Fields.setPrevOf, Function.update_apply, eq_comm]

theorem setNextOf_next (x v : Option κ) (y : κ) :
    (h.setNextOf x v).next y = if x = some y then v else h.next y := by
  cases x with
  | none => simp [Fields.setNextOf]
  | some x => simp [Fields.setNextOf, Function.update_apply, eq_comm]

/-- A node linked in behind a member. -/
def Fields.insertAfter (h : Fields κ) (p n : κ) : Fields κ :=
  let h := h.setPrev n (some p)
  let h := h.setNext n (h.next p)
  let h := h.setNext p (some n)
  h.setPrevOf (h.next n) (some n)

/-- A node linked in before a member. -/
def Fields.insertBefore (h : Fields κ) (s n : κ) : Fields κ :=
  let h := h.setNext n (some s)
  let h := h.setPrev n (h.prev s)
  let h := h.setPrev s (some n)
  h.setNextOf (h.prev n) (some n)

/-- The neighbours of a node made to skip it. -/
def Fields.unlink (h : Fields κ) (n : κ) : Fields κ :=
  let h := h.setPrevOf (h.next n) (h.prev n)
  h.setNextOf (h.prev n) (h.next n)

theorem unlink_prev (x : κ) : (h.unlink n).prev x = if h.next n = some x then h.prev n else h.prev x := by
  simp [Fields.unlink, setPrevOf_prev]

theorem Linked.insertAfter (hc : Linked h (a ++ p :: b)) (hn : n ∉ a ++ p :: b) :
    Linked (h.insertAfter p n) (a ++ p :: n :: b) := by
  have hpn : n ≠ p := by rintro rfl; simp at hn
  have hx : h.next p = b.head? := hc.next_mid
  have hins : Linked (h.insertAfter p n) ((a ++ [p]) ++ n :: b) := by
    have hbn : b.head? ≠ some n := fun e => hn (by simp [List.mem_of_head? e])
    refine Linked.insert_of (by simpa using hc) (by simpa using hn) ?_ ?_ ?_ ?_
    · simp [Fields.insertAfter, Function.update_of_ne hpn, hx]
    · simp [Fields.insertAfter, setPrevOf_prev, Function.update_of_ne hpn, hx, hbn]
    · intro x hxn
      by_cases e : x = p
      · simp [Fields.insertAfter, e]
      · simp [Fields.insertAfter, hxn, e, Ne.symm e]
    · intro x hxn
      simp [Fields.insertAfter, setPrevOf_prev, Function.update_of_ne hpn, hx, hxn]
  simpa using hins

theorem Linked.insertBefore (hc : Linked h (a ++ s :: b)) (hn : n ∉ a ++ s :: b) :
    Linked (h.insertBefore s n) (a ++ n :: s :: b) := by
  have hsn : n ≠ s := by rintro rfl; simp at hn
  have hp : h.prev s = a.getLast? := hc.prev_mid
  have han : a.getLast? ≠ some n := fun e => hn (by simp [List.mem_of_getLast? e])
  refine Linked.insert_of hc hn ?_ ?_ ?_ ?_
  · simp [Fields.insertBefore, setNextOf_next, Function.update_of_ne hsn, hp, han]
  · simp [Fields.insertBefore, Function.update_of_ne hsn, hp]
  · intro x hxn
    simp [Fields.insertBefore, setNextOf_next, Function.update_of_ne hsn, hp, hxn]
  · intro x hxn
    by_cases e : x = s
    · simp [Fields.insertBefore, e]
    · simp [Fields.insertBefore, hxn, e, Ne.symm e]

theorem Linked.unlink (hc : Linked h (a ++ n :: b)) : Linked (h.unlink n) (a ++ b) := by
  have hn : n ∉ a ++ b := (List.nodup_cons.mp (List.nodup_middle.mp hc.nodup)).1
  have hbn : b.head? ≠ some n := fun e => hn (by simp [List.mem_of_head? e])
  refine hc.erase_of ?_ ?_
  · intro x hxn
    simp [Fields.unlink, setNextOf_next, setPrevOf_prev, hc.next_mid, hc.prev_mid, hbn]
  · intro x hxn
    simp [Fields.unlink, setPrevOf_prev, hc.next_mid, hc.prev_mid]

end Writing

end GompUlt.LinkChain
