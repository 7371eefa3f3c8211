import GompUlt.Queue.SplayTree
import Mathlib

/-! # Lookups in the memory map of a device

The keys are host intervals, and the comparison takes overlapping intervals for equal.  It is no order once there
are empty intervals, which it takes for equal wherever they are; the nodes are nevertheless sorted by their
addresses.
-/
namespace GompUlt.IntervalMap

/-- The host_start and host_end fields of a key. -/
structure Interval where
  hostStart : ℕ
  hostEnd : ℕ
deriving DecidableEq, Repr

def splayCompare (x y : Interval) : Ordering :=
  if x.hostStart = x.hostEnd ∧ y.hostStart = y.hostEnd then .eq
  else if x.hostEnd ≤ y.hostStart then .lt
  else if y.hostEnd ≤ x.hostStart then .gt
  else .eq

section Splay
variable {κ : Type*}

/-- One pass through the loop of `splay_tree_splay`, for the comparison of the key with the nodes; the flag tells
that the loop goes on. -/
def splayIter (c : κ → Ordering) : Queue.Tree κ → Queue.Tree κ × Bool
  | .null => (.null,false)
  | .node l n r =>
    match c n with
    | .eq => (.node l n r,false)
    | .lt =>
      match l with
      | .null => (.node .null n r,false)
      | .node cl m cr =>
        match c m with
        | .eq => (.node cl m (.node cr n r),false)
        | .lt =>
          match cl with
          | .null => (.node .null m (.node cr n r),false)
          | .node gl g gr => (.node gl g (.node (.node gr m cr) n r),true)
        | .gt =>
          match cr with
          | .null => (.node cl m (.node .null n r),false)
          | .node gl g gr => (.node (.node cl m gl) g (.node gr n r),true)
    | .gt =>
      match r with
      | .null => (.node l n .null,false)
      | .node cl m cr =>
        match c m with
        | .eq => (.node (.node l n cl) m cr,false)
        | .lt =>
          match cl with
          | .null => (.node (.node l n .null) m cr,false)
          | .node gl g gr => (.node (.node l n gl) g (.node gr m cr),true)
        | .gt =>
          match cr with
          | .null => (.node (.node l n cl) m .null,false)
          | .node gl g gr => (.node (.node l n (.node cl m gl)) g gr,true)

/-- The loop, cut off after the given number of passes. -/
def splayLoop (c : κ → Ordering) : ℕ → Queue.Tree κ → Queue.Tree κ
  | 0, t => t
  | fuel + 1, t => if (splayIter c t).2 then splayLoop c fuel (splayIter c t).1 else (splayIter c t).1

/-- Twice the number of nodes bounds the number of passes. -/
def splayTreeSplay (c : κ → Ordering) (t : Queue.Tree κ) : Queue.Tree κ := splayLoop c (2 * t.size + 2) t

/-- The number of nodes on the search path. -/
def pathLength (c : κ → Ordering) : Queue.Tree κ → ℕ
  | .null => 0
  | .node l k r =>
    match c k with
    | .eq => 1
    | .lt => pathLength c l + 1
    | .gt => pathLength c r + 1

/-- The search goes twice to the same side. -/
def zigZig (c : κ → Ordering) : Queue.Tree κ → Bool
  | .null => false
  | .node l n r =>
    match c n with
    | .lt => l.rootKey.any fun m => c m = .lt
    | _ => r.rootKey.any fun m => c m = .gt

def splayMeasure (c : κ → Ordering) (t : Queue.Tree κ) : ℕ := 2 * pathLength c t + (zigZig c t).toNat

variable {c : κ → Ordering} {t : Queue.Tree κ}

theorem pathLength_le_size (c : κ → Ordering) (t : Queue.Tree κ) : pathLength c t ≤ t.size := by
  induction t with
  | null => exact le_rfl
  | node l k r ihl ihr =>
    simp only [pathLength, Queue.Tree.size]
    split <;> omega

/-- A pass that goes on shortens the search path, or turns two parallel edges into two that are not. -/
theorem splayIter_measure (h : (splayIter c t).2 = true) : splayMeasure c (splayIter c t).1 < splayMeasure c t := by
  have hbit : ∀ t : Queue.Tree κ, (zigZig c t).toNat ≤ 1 := fun t => Bool.toNat_le _
  revert h
  fun_cases splayIter c t <;> intro h <;> simp only [Bool.false_eq_true] at h
  case case6 n r hn m cr hm gl g gr =>
    have hold : zigZig c (.node (.node (.node gl g gr) m cr) n r) = true := by simp [zigZig, Queue.Tree.rootKey, hn, hm]
    have hnew := hbit (.node gl g (.node (.node gr m cr) n r))
    simp only [splayMeasure, pathLength, hold, hn, hm]
    cases hg : c g with
    | lt => simp; omega
    | eq => simp; omega
    | gt => simp [zigZig, Queue.Tree.rootKey, hg, hn]
  case case8 n r hn cl m hm gl g gr =>
    have hnew := hbit (.node (.node cl m gl) g (.node gr n r))
    simp only [splayMeasure, pathLength, hn, hm]
    cases hg : c g <;> simp <;> omega
  case case12 l n hn m cr hm gl g gr =>
    have hnew := hbit (.node (.node l n gl) g (.node gr m cr))
    simp only [splayMeasure, pathLength, hn, hm]
    cases hg : c g <;> simp <;> omega
  case case14 l n hn cl m hm gl g gr =>
    have hold : zigZig c (.node l n (.node cl m (.node gl g gr))) = true := by simp [zigZig, Queue.Tree.rootKey, hn, hm]
    have hnew := hbit (.node (.node l n (.node cl m gl)) g gr)
    simp only [splayMeasure, pathLength, hold, hn, hm]
    cases hg : c g with
    | lt => simp [zigZig, Queue.Tree.rootKey, hg, hn]
    | eq => simp; omega
    | gt => simp; omega

theorem splayIter_toList (c : κ → Ordering) (t : Queue.Tree κ) : (splayIter c t).1.toList = t.toList := by
  fun_cases splayIter c t <;> simp

/-- The root is found, or the place of the key is beside it. -/
def RootNear (c : κ → Ordering) : Queue.Tree κ → Prop
  | .null => True
  | .node l k r => c k = .eq ∨ (c k = .lt ∧ ∀ x ∈ l.toList.getLast?, c x = .gt) ∨
      (c k = .gt ∧ ∀ x ∈ r.toList.head?, c x = .lt)

theorem splayIter_near (h : (splayIter c t).2 = false) : RootNear c (splayIter c t).1 := by
  revert h
  fun_cases splayIter c t <;> intro h <;> simp only [Bool.true_eq_false] at h
  all_goals simp_all [RootNear]

theorem splayLoop_spec (fuel : ℕ) : ∀ {t : Queue.Tree κ}, splayMeasure c t < fuel →
    (splayLoop c fuel t).toList = t.toList ∧ RootNear c (splayLoop c fuel t) := by
  induction fuel with
  | zero => exact fun h => absurd h (Nat.not_lt_zero _)
  | succ fuel ih =>
    intro t hf
    rw [splayLoop]
    split
    next hgo =>
      have hlt := splayIter_measure hgo
      have hrec := @ih (splayIter c t).1 (by omega)
      exact ⟨hrec.1.trans (splayIter_toList c t),hrec.2⟩
    next hgo => exact ⟨splayIter_toList c t,splayIter_near (by simpa using hgo)⟩

/-- The loop ends, keeps the order of the nodes and brings the key, or a neighbour of its place, to the root. -/
theorem splayTreeSplay_spec (c : κ → Ordering) (t : Queue.Tree κ) :
    (splayTreeSplay c t).toList = t.toList ∧ RootNear c (splayTreeSplay c t) := by
  refine splayLoop_spec _ ?_
  have h1 := pathLength_le_size c t
  have h2 : (zigZig c t).toNat ≤ 1 := Bool.toNat_le _
  unfold splayMeasure
  omega

end Splay
abbrev Map := Queue.Tree Interval

/-- `splay_tree_lookup`: the tree it leaves and the node it returns. -/
def splayTreeLookup (t : Map) (key : Interval) : Map × Option Interval :=
  match splayTreeSplay (splayCompare key) t with
  | .null => (.null,none)
  | .node l n r => (.node l n r,if splayCompare n key = .eq then some n else none)

/-- `splay_tree_insert`, none when it stops the program. -/
def splayTreeInsert (t : Map) (key : Interval) : Option Map :=
  match splayTreeSplay (splayCompare key) t with
  | .null => some (.node .null key .null)
  | .node l n r =>
    match splayCompare n key with
    | .eq => none
    | .lt => some (.node (.node l n .null) key r)
    | .gt => some (.node l key (.node .null n r))

def incr (x : ℕ) : ℕ := (x + 1) % 2 ^ 64

def decr (x : ℕ) : ℕ := (x + (2 ^ 64 - 1)) % 2 ^ 64

/-- The map, the node that is returned, and the key that was passed in. -/
structure Answer where
  map : Map
  node : Option Interval
  key : Interval

def gompMap0lenLookup (t : Map) (key : Interval) : Answer :=
  if key.hostStart ≠ key.hostEnd then ⟨(splayTreeLookup t key).1,(splayTreeLookup t key).2,key⟩
  else
    let key₁ := { key with hostEnd := incr key.hostEnd }
    let r := splayTreeLookup t key₁
    ⟨r.1,r.2,{ key₁ with hostEnd := decr key₁.hostEnd }⟩

def gompMapLookup (t : Map) (key : Interval) : Answer :=
  if key.hostStart ≠ key.hostEnd then ⟨(splayTreeLookup t key).1,(splayTreeLookup t key).2,key⟩
  else
    let key₁ := { key with hostEnd := incr key.hostEnd }
    let r₁ := splayTreeLookup t key₁
    let key₂ := { key₁ with hostEnd := decr key₁.hostEnd }
    match r₁.2 with
    | some n => ⟨r₁.1,some n,key₂⟩
    | none =>
      let key₃ := { key₂ with hostStart := decr key₂.hostStart }
      let r₂ := splayTreeLookup r₁.1 key₃
      let key₄ := { key₃ with hostStart := incr key₃.hostStart }
      match r₂.2 with
      | some n => ⟨r₂.1,some n,key₄⟩
      | none => ⟨(splayTreeLookup r₂.1 key₄).1,(splayTreeLookup r₂.1 key₄).2,key₄⟩

namespace Interval

/-- An interval of addresses. -/
def Valid (x : Interval) : Prop := x.hostStart ≤ x.hostEnd ∧ x.hostEnd < 2 ^ 64

def Empty (x : Interval) : Prop := x.hostStart = x.hostEnd

def Overlaps (x y : Interval) : Prop := x.hostStart < y.hostEnd ∧ y.hostStart < x.hostEnd

def Contains (x : Interval) (a : ℕ) : Prop := x.hostStart ≤ a ∧ a < x.hostEnd

/-- The address lies between two addresses of the interval. -/
def Interior (x : Interval) (a : ℕ) : Prop := x.hostStart < a ∧ a < x.hostEnd

end Interval

/-- The maps that insertions make, with lookups between them. -/
inductive Built : Map → Prop
  | empty : Built .null
  | insert {t t' : Map} {key : Interval} (h : Built t) (hkey : key.Valid) (hi : splayTreeInsert t key = some t') : Built t'
  | lookup {t : Map} (h : Built t) (key : Interval) : Built (splayTreeLookup t key).1

/-- One interval ends before the other begins. -/
def Before (x y : Interval) : Prop := x.hostEnd ≤ y.hostStart

/-- The nodes are intervals of addresses, in their order. -/
structure Sorted (l : List Interval) : Prop where
  valid : ∀ x ∈ l, x.Valid
  before : l.Pairwise Before

theorem Sorted.append {l r : List Interval} (hl : Sorted l) (hr : Sorted r) (h : ∀ x ∈ l, ∀ y ∈ r, Before x y) :
    Sorted (l ++ r) where
  valid x hx := (List.mem_append.mp hx).elim (hl.valid x) (hr.valid x)
  before := List.pairwise_append.mpr ⟨hl.before,hr.before,h⟩

theorem Sorted.split {l r : List Interval} (h : Sorted (l ++ r)) :
    Sorted l ∧ Sorted r ∧ ∀ x ∈ l, ∀ y ∈ r, Before x y := by
  obtain ⟨hl,hr,hlr⟩ := List.pairwise_append.mp h.before
  exact ⟨⟨fun x hx => h.valid x (List.mem_append_left r hx),hl⟩,⟨fun x hx => h.valid x (List.mem_append_right l hx),hr⟩,
    hlr⟩

theorem Before.trans {x y z : Interval} (hy : y.Valid) (hxy : Before x y) (hyz : Before y z) : Before x z :=
  le_trans hxy (le_trans hy.1 hyz)

/-- What the comparison says where it does not say equal. -/
theorem before_of_lt {x y : Interval} (h : splayCompare x y = .lt) : Before x y := by
  unfold splayCompare at h
  split at h
  · cases h
  · split at h
    · assumption
    · split at h <;> cases h

theorem before_of_gt {x y : Interval} (h : splayCompare x y = .gt) : Before y x := by
  unfold splayCompare at h
  split at h
  · cases h
  · split at h
    · cases h
    · split at h
      · assumption
      · cases h

theorem splayCompare_swap {x y : Interval} (hx : x.Valid) (hy : y.Valid) :
    splayCompare y x = (splayCompare x y).swap := by
  have h1 := hx.1
  have h2 := hy.1
  unfold splayCompare
  split_ifs <;> first | rfl | omega

/-- The interval is before the key, and is not the key itself. -/
def LeftOf (x q : Interval) : Prop := Before x q ∧ (q.Empty → x.hostStart < q.hostStart)

def RightOf (x q : Interval) : Prop := Before q x ∧ (q.Empty → q.hostEnd < x.hostEnd)

theorem leftOf_of_gt {x q : Interval} (hx : x.Valid) (h : splayCompare q x = .gt) : LeftOf x q := by
  have hle := before_of_gt h
  refine ⟨hle,fun hq => ?_⟩
  have hne : ¬ x.Empty := fun hx' => by
    rw [splayCompare, if_pos ⟨hq,hx'⟩] at h
    cases h
  exact (lt_of_le_of_ne hx.1 hne).trans_le hle

theorem rightOf_of_lt {x q : Interval} (hx : x.Valid) (h : splayCompare q x = .lt) : RightOf x q := by
  have hle := before_of_lt h
  refine ⟨hle,fun hq => ?_⟩
  have hne : ¬ x.Empty := fun hx' => by
    rw [splayCompare, if_pos ⟨hq,hx'⟩] at h
    cases h
  exact lt_of_le_of_lt hle (lt_of_le_of_ne hx.1 hne)

theorem LeftOf.of_before {x y q : Interval} (hx : x.Valid) (hy : y.Valid) (hxy : Before x y) (h : LeftOf y q) :
    LeftOf x q :=
  ⟨Before.trans hy hxy h.1,fun hq => lt_of_le_of_lt (le_trans hx.1 hxy) (h.2 hq)⟩

theorem RightOf.of_before {x y q : Interval} (hx : x.Valid) (hy : y.Valid) (hyx : Before y x) (h : RightOf y q) :
    RightOf x q :=
  ⟨Before.trans hy h.1 hyx,fun hq => lt_of_lt_of_le (h.2 hq) (le_trans hyx hx.1)⟩

/-- The last node on the left is before the key, so all of them are. -/
theorem all_leftOf {l : List Interval} {q : Interval} (h : Sorted l)
    (hlast : ∀ x ∈ l.getLast?, splayCompare q x = .gt) : ∀ x ∈ l, LeftOf x q := by
  intro x hx
  obtain ⟨l',z,rfl⟩ := List.eq_nil_or_concat l |>.resolve_left (List.ne_nil_of_mem hx)
  rw [List.concat_eq_append] at *
  have hzv := h.valid z (by simp)
  have hz := leftOf_of_gt hzv (hlast z (by simp))
  rcases List.mem_append.mp hx with hxl | hxz
  · exact hz.of_before (h.valid x hx) hzv (h.split.2.2 x hxl z (by simp))
  · rwa [List.mem_singleton.mp hxz]

theorem all_rightOf {l : List Interval} {q : Interval} (h : Sorted l)
    (hfirst : ∀ x ∈ l.head?, splayCompare q x = .lt) : ∀ x ∈ l, RightOf x q := by
  intro x hx
  cases l with
  | nil => exact absurd hx List.not_mem_nil
  | cons z l =>
    have hzv := h.valid z List.mem_cons_self
    have hz := rightOf_of_lt hzv (hfirst z (by simp))
    rcases List.mem_cons.mp hx with rfl | hxl
    · exact hz
    · exact hz.of_before (h.valid x hx) hzv ((List.pairwise_cons.mp h.before).1 x hxl)

/-- Where the search ends without an equal node, all nodes are before or behind the key. -/
theorem leftOf_or_rightOf {l r : Map} {n q : Interval} (h : Sorted (Queue.Tree.node l n r).toList)
    (hnear : RootNear (splayCompare q) (.node l n r)) (hne : splayCompare q n ≠ .eq) :
    (∀ x ∈ l.toList, LeftOf x q) ∧ (∀ x ∈ r.toList, RightOf x q) ∧
      (splayCompare q n = .lt ∧ RightOf n q ∨ splayCompare q n = .gt ∧ LeftOf n q) := by
  rw [Queue.Tree.toList_node] at h
  obtain ⟨hl,hnr,hlr⟩ := h.split
  have hn := hnr.valid n List.mem_cons_self
  have hr := (List.pairwise_cons.mp hnr.before).1
  have hr' : Sorted r.toList := ⟨fun x hx => hnr.valid x (List.mem_cons_of_mem n hx),(List.pairwise_cons.mp hnr.before).2⟩
  rcases hnear with heq | ⟨hlt,hlast⟩ | ⟨hgt,hfirst⟩
  · exact absurd heq hne
  · have hright := rightOf_of_lt hn hlt
    exact ⟨all_leftOf hl hlast,fun x hx => hright.of_before (hr'.valid x hx) hn (hr x hx),Or.inl ⟨hlt,hright⟩⟩
  · have hleft := leftOf_of_gt hn hgt
    exact ⟨fun x hx => hleft.of_before (hl.valid x hx) hn (hlr x hx n List.mem_cons_self),all_rightOf hr' hfirst,
      Or.inr ⟨hgt,hleft⟩⟩

theorem splay_cases (t : Map) (q : Interval) : (splayTreeSplay (splayCompare q) t).toList = t.toList ∧
    RootNear (splayCompare q) (splayTreeSplay (splayCompare q) t) := splayTreeSplay_spec (splayCompare q) t

theorem splayTreeLookup_toList (t : Map) (q : Interval) : (splayTreeLookup t q).1.toList = t.toList := by
  rw [← (splay_cases t q).1, splayTreeLookup]
  split <;> simp [*]

/-- An insertion keeps the order of the addresses. -/
theorem Sorted.insert {t t' : Map} {q : Interval} (h : Sorted t.toList) (hq : q.Valid)
    (hi : splayTreeInsert t q = some t') : Sorted t'.toList := by
  obtain ⟨hlist,hnear⟩ := splay_cases t q
  unfold splayTreeInsert at hi
  have hsingle : Sorted [q] := ⟨fun x hx => by rwa [List.mem_singleton.mp hx],List.pairwise_singleton _ _⟩
  split at hi
  next => cases hi; exact hsingle
  next l n r hs =>
    rw [hs] at hlist hnear
    rw [← hlist] at h
    have hn : n.Valid := h.valid n (by simp)
    have hswap := splayCompare_swap hq hn
    have hne : splayCompare q n ≠ .eq := by
      intro heq
      rw [heq] at hswap
      rw [hswap] at hi
      cases hi
    obtain ⟨hbefore,hafter,hside⟩ := leftOf_or_rightOf h hnear hne
    rw [Queue.Tree.toList_node] at h
    obtain ⟨hl,hnr,hlr⟩ := h.split
    have hr : Sorted r.toList := ⟨fun x hx => hnr.valid x (List.mem_cons_of_mem n hx),(List.pairwise_cons.mp hnr.before).2⟩
    rcases hside with ⟨hlt,hqn⟩ | ⟨hgt,hnq⟩
    · rw [hlt] at hswap
      rw [hswap] at hi
      cases hi
      have hqnr : Sorted (q :: n :: r.toList) := hsingle.append hnr fun x hx y hy => by
        rw [List.mem_singleton.mp hx]
        exact (List.mem_cons.mp hy).elim (fun hy => hy ▸ hqn.1) fun hy => (hafter y hy).1
      refine hl.append hqnr fun x hx y hy => ?_
      rcases List.mem_cons.mp hy with rfl | hy
      · exact (hbefore x hx).1
      · exact hlr x hx y hy
    · rw [hgt] at hswap
      rw [hswap] at hi
      cases hi
      have hln : Sorted (l.toList ++ [n]) :=
        hl.append ⟨fun x hx => by rwa [List.mem_singleton.mp hx],List.pairwise_singleton _ _⟩ fun x hx y hy => by
          rw [List.mem_singleton.mp hy]
          exact hlr x hx n List.mem_cons_self
      have hqr : Sorted (q :: r.toList) := hsingle.append hr fun x hx y hy => by
        rw [List.mem_singleton.mp hx]
        exact (hafter y hy).1
      refine hln.append hqr fun x hx y hy => ?_
      have hxq : Before x q := (List.mem_append.mp hx).elim (fun hx => (hbefore x hx).1) fun hx => by
        rw [List.mem_singleton.mp hx]
        exact hnq.1
      exact (List.mem_cons.mp hy).elim (fun hy => hy ▸ hxq) fun hy => Before.trans hq hxq (hafter y hy).1

theorem Built.sorted {t : Map} (h : Built t) : Sorted t.toList := by
  induction h with
  | empty => exact ⟨fun x hx => absurd hx List.not_mem_nil,List.Pairwise.nil⟩
  | insert _ hkey hi ih => exact ih.insert hkey hi
  | lookup _ key ih => rwa [splayTreeLookup_toList]

section Lookup
variable {t : Map} {q : Interval}

/-- A node that is returned compares equal; where none is, every node is before or behind the key. -/
theorem lookup_cases (h : Sorted t.toList) (hq : q.Valid) :
    (∃ n ∈ t.toList, (splayTreeLookup t q).2 = some n ∧ splayCompare q n = .eq) ∨
      (splayTreeLookup t q).2 = none ∧ ∀ x ∈ t.toList, LeftOf x q ∨ RightOf x q := by
  obtain ⟨hlist,hnear⟩ := splay_cases t q
  rw [splayTreeLookup]
  rw [← hlist] at h ⊢
  split
  next hs =>
    rw [hs]
    exact Or.inr ⟨rfl,fun x hx => absurd hx List.not_mem_nil⟩
  next l n r hs =>
    rw [hs] at hnear h ⊢
    have hn : n.Valid := h.valid n (by simp)
    have hswap := splayCompare_swap hq hn
    by_cases heq : splayCompare q n = .eq
    · rw [heq] at hswap
      exact Or.inl ⟨n,by simp,if_pos hswap,heq⟩
    · obtain ⟨hbefore,hafter,hside⟩ := leftOf_or_rightOf h hnear heq
      refine Or.inr ⟨if_neg fun hn => heq ?_,fun x hx => ?_⟩
      · rw [hn] at hswap
        cases hc : splayCompare q n with
        | eq => rfl
        | lt => rw [hc] at hswap; cases hswap
        | gt => rw [hc] at hswap; cases hswap
      · rcases List.mem_append.mp hx with hx | hx
        · exact Or.inl (hbefore x hx)
        · rcases List.mem_cons.mp hx with rfl | hx
          · exact hside.elim (fun h => Or.inr h.2) fun h => Or.inl h.2
          · exact Or.inr (hafter x hx)

/-- A lookup of a non-empty interval returns a node that overlaps it, if there is one. -/
theorem lookup_nonempty (h : Sorted t.toList) (hq : q.Valid) (hne : ¬ q.Empty) :
    (∃ n ∈ t.toList, (splayTreeLookup t q).2 = some n ∧ q.Overlaps n) ∨
      (splayTreeLookup t q).2 = none ∧ ∀ x ∈ t.toList, ¬ q.Overlaps x := by
  rcases lookup_cases h hq with ⟨n,hn,hsome,heq⟩ | ⟨hnone,hall⟩
  · refine Or.inl ⟨n,hn,hsome,?_⟩
    unfold splayCompare at heq
    rw [if_neg fun h => hne h.1] at heq
    split at heq
    · cases heq
    · split at heq
      · cases heq
      · unfold Interval.Overlaps
        omega
  · refine Or.inr ⟨hnone,fun x hx => ?_⟩
    unfold Interval.Overlaps
    rcases hall x hx with hleft | hright
    · have := hleft.1
      unfold Before at this
      omega
    · have := hright.1
      unfold Before at this
      omega

/-- A lookup of an empty interval returns a node with its address inside or an empty one; it returns none only if
there is no node of the first kind, nor the interval itself. -/
theorem lookup_empty (h : Sorted t.toList) (hq : q.Valid) (he : q.Empty) :
    (∃ n ∈ t.toList, (splayTreeLookup t q).2 = some n ∧ (n.Interior q.hostStart ∨ n.Empty)) ∨
      (splayTreeLookup t q).2 = none ∧ ∀ x ∈ t.toList, ¬ x.Interior q.hostStart ∧ x ≠ q := by
  have he' : q.hostStart = q.hostEnd := he
  rcases lookup_cases h hq with ⟨n,hn,hsome,heq⟩ | ⟨hnone,hall⟩
  · refine Or.inl ⟨n,hn,hsome,?_⟩
    by_cases hempty : n.Empty
    · exact Or.inr hempty
    · unfold splayCompare at heq
      rw [if_neg fun h => hempty h.2] at heq
      split at heq
      · cases heq
      · split at heq
        · cases heq
        · refine Or.inl ⟨?_,?_⟩ <;> omega
  · refine Or.inr ⟨hnone,fun x hx => ?_⟩
    unfold Interval.Interior
    rcases hall x hx with ⟨hle,hlt⟩ | ⟨hle,hlt⟩
    · have hlt := hlt he
      unfold Before at hle
      refine ⟨by omega,?_⟩
      rintro rfl
      exact Nat.lt_irrefl _ hlt
    · have hlt := hlt he
      unfold Before at hle
      refine ⟨by omega,?_⟩
      rintro rfl
      exact Nat.lt_irrefl _ hlt

/-- A key whose end has wrapped round is before every node. -/
theorem lookup_wrapped (h : Sorted t.toList) (hend : q.hostEnd = 0) (hstart : q.hostStart = 2 ^ 64 - 1) :
    (splayTreeLookup t q).2 = none := by
  obtain ⟨hlist,-⟩ := splay_cases t q
  rw [← hlist] at h
  rw [splayTreeLookup]
  split
  next => rfl
  next l n r hs =>
    have hn := h.valid n (by rw [hs]; simp)
    have hlt := hn.2
    refine if_neg fun heq => ?_
    unfold splayCompare at heq
    rw [if_neg fun h => by omega, if_pos (by omega)] at heq
    cases heq

end Lookup
section Probes
variable {t : Map} {q : Interval}

theorem incr_of_lt {a : ℕ} (h : a + 1 < 2 ^ 64) : incr a = a + 1 := Nat.mod_eq_of_lt h

theorem decr_incr {a : ℕ} (h : a < 2 ^ 64) : decr (incr a) = a := by
  unfold decr incr
  omega

theorem incr_decr {a : ℕ} (h : a < 2 ^ 64) : incr (decr a) = a := by
  unfold decr incr
  omega

/-- The first probe, one address long: it finds the node that contains the address. -/
theorem probe_contains (h : Sorted t.toList) (hq : q.Valid) (he : q.Empty) :
    (∃ n ∈ t.toList, (splayTreeLookup t { q with hostEnd := incr q.hostEnd }).2 = some n ∧ n.Contains q.hostStart) ∨
      (splayTreeLookup t { q with hostEnd := incr q.hostEnd }).2 = none ∧ ∀ x ∈ t.toList, ¬ x.Contains q.hostStart := by
  have he' : q.hostStart = q.hostEnd := he
  have hlt := hq.2
  unfold Interval.Contains
  rcases Nat.lt_or_ge (q.hostEnd + 1) (2 ^ 64) with hsmall | hlarge
  · rw [incr_of_lt hsmall]
    have hprobe : Interval.Valid { q with hostEnd := q.hostEnd + 1 } := ⟨by dsimp only; omega,hsmall⟩
    have hne : ¬ Interval.Empty { q with hostEnd := q.hostEnd + 1 } := by
      unfold Interval.Empty
      dsimp only
      omega
    rcases lookup_nonempty h hprobe hne with ⟨n,hn,hsome,ho⟩ | ⟨hnone,hall⟩
    · refine Or.inl ⟨n,hn,hsome,?_⟩
      unfold Interval.Overlaps at ho
      dsimp only at ho
      omega
    · refine Or.inr ⟨hnone,fun x hx => ?_⟩
      have ho := hall x hx
      unfold Interval.Overlaps at ho
      dsimp only at ho
      omega
  · refine Or.inr ⟨lookup_wrapped h ?_ ?_,fun x hx => ?_⟩
    · dsimp only [incr]
      omega
    · dsimp only
      omega
    · have := (h.valid x hx).2
      omega

/-- The second probe, of the address before: it finds the node that ends at the address, where none contains it. -/
theorem probe_end (h : Sorted t.toList) (hq : q.Valid) (he : q.Empty) (hnot : ∀ x ∈ t.toList, ¬ x.Contains q.hostStart) :
    (∃ n ∈ t.toList, (splayTreeLookup t { q with hostStart := decr q.hostStart }).2 = some n ∧ n.hostEnd = q.hostStart) ∨
      (splayTreeLookup t { q with hostStart := decr q.hostStart }).2 = none ∧
        ∀ x ∈ t.toList, x.hostEnd = q.hostStart → x = q := by
  have he' : q.hostStart = q.hostEnd := he
  have hlt := hq.2
  unfold Interval.Contains at hnot
  rcases Nat.eq_zero_or_pos q.hostStart with hzero | hpos
  · refine Or.inr ⟨lookup_wrapped h ?_ ?_,fun x hx hend => ?_⟩
    · dsimp only
      omega
    · dsimp only [decr]
      omega
    · have := (h.valid x hx).1
      obtain ⟨a,b⟩ := x
      obtain ⟨c,d⟩ := q
      dsimp only at *
      have hac : a = c := by omega
      have hbd : b = d := by omega
      rw [hac, hbd]
  · have hdecr : decr q.hostStart = q.hostStart - 1 := by
      unfold decr
      omega
    rw [hdecr]
    have hprobe : Interval.Valid { q with hostStart := q.hostStart - 1 } := ⟨by dsimp only; omega,hlt⟩
    have hne : ¬ Interval.Empty { q with hostStart := q.hostStart - 1 } := by
      unfold Interval.Empty
      dsimp only
      omega
    rcases lookup_nonempty h hprobe hne with ⟨n,hn,hsome,ho⟩ | ⟨hnone,hall⟩
    · refine Or.inl ⟨n,hn,hsome,?_⟩
      have := hnot n hn
      unfold Interval.Overlaps at ho
      dsimp only at ho
      omega
    · refine Or.inr ⟨hnone,fun x hx hend => ?_⟩
      have ho := hall x hx
      have hv := (h.valid x hx).1
      unfold Interval.Overlaps at ho
      obtain ⟨a,b⟩ := x
      obtain ⟨c,d⟩ := q
      dsimp only at *
      have hac : a = c := by omega
      have hbd : b = d := by omega
      rw [hac, hbd]

/-- What `gomp_map_0len_lookup` returns for an empty interval. -/
theorem gompMap0lenLookup_empty (h : Sorted t.toList) (hq : q.Valid) (he : q.Empty) :
    (gompMap0lenLookup t q).key = q ∧
      ((∃ n ∈ t.toList, (gompMap0lenLookup t q).node = some n ∧ n.Contains q.hostStart) ∨
        (gompMap0lenLookup t q).node = none ∧ ∀ x ∈ t.toList, ¬ x.Contains q.hostStart) := by
  rw [gompMap0lenLookup, if_neg (by simpa [Interval.Empty] using he)]
  refine ⟨?_,probe_contains h hq he⟩
  dsimp only
  rw [decr_incr hq.2]

/-- What `gomp_map_lookup` returns for an empty interval; an empty node that it returns may be elsewhere. -/
theorem gompMapLookup_empty (h : Sorted t.toList) (hq : q.Valid) (he : q.Empty) :
    (gompMapLookup t q).key = q ∧
      ((∃ n ∈ t.toList, (gompMapLookup t q).node = some n ∧ (n.Contains q.hostStart ∨
          (∀ x ∈ t.toList, ¬ x.Contains q.hostStart) ∧ (n.hostEnd = q.hostStart ∨ n.Empty))) ∨
        (gompMapLookup t q).node = none ∧ ∀ x ∈ t.toList, ¬ x.Contains q.hostStart ∧ x.hostEnd ≠ q.hostStart) := by
  have he' : q.hostStart = q.hostEnd := he
  have hlt : q.hostStart < 2 ^ 64 := by
    rw [he']
    exact hq.2
  rw [gompMapLookup, if_neg (by simpa [Interval.Empty] using he)]
  simp only [decr_incr hq.2, incr_decr hlt]
  rcases probe_contains h hq he with ⟨n,hn,hsome,hcontains⟩ | ⟨hnone,hnot⟩
  · rw [hsome]
    exact ⟨rfl,Or.inl ⟨n,hn,rfl,Or.inl hcontains⟩⟩
  · rw [hnone]
    dsimp only
    set t₁ := (splayTreeLookup t { q with hostEnd := incr q.hostEnd }).1 with ht₁
    have hlist : t₁.toList = t.toList := splayTreeLookup_toList t _
    have h₁ : Sorted t₁.toList := by rwa [hlist]
    rw [← hlist] at hnot ⊢
    rcases probe_end h₁ hq he hnot with ⟨n,hn,hsome,hend⟩ | ⟨hnone,hends⟩
    · rw [hsome]
      exact ⟨rfl,Or.inl ⟨n,hn,rfl,Or.inr ⟨hnot,Or.inl hend⟩⟩⟩
    · rw [hnone]
      dsimp only
      set t₂ := (splayTreeLookup t₁ { q with hostStart := decr q.hostStart }).1 with ht₂
      have hlist₂ : t₂.toList = t₁.toList := splayTreeLookup_toList t₁ _
      have h₂ : Sorted t₂.toList := by rwa [hlist₂]
      rw [← hlist₂] at hnot hends ⊢
      refine ⟨rfl,?_⟩
      rcases lookup_empty h₂ hq he with ⟨n,hn,hsome,hkind⟩ | ⟨hnone,hall⟩
      · refine Or.inl ⟨n,hn,hsome,Or.inr ⟨hnot,Or.inr (hkind.resolve_left fun hin => hnot n hn ?_)⟩⟩
        exact ⟨hin.1.le,hin.2⟩
      · exact Or.inr ⟨hnone,fun x hx => ⟨hnot x hx,fun hend => (hall x hx).2 (hends x hx hend)⟩⟩

end Probes

/-- What the lookups return, for every map that insertions make. -/
theorem map_lookup {t : Map} (h : Built t) {q : Interval} (hq : q.Valid) :
    (¬ q.Empty → (∃ n ∈ t.toList, (splayTreeLookup t q).2 = some n ∧ q.Overlaps n) ∨
      (splayTreeLookup t q).2 = none ∧ ∀ x ∈ t.toList, ¬ q.Overlaps x) ∧
    (q.Empty → (∃ n ∈ t.toList, (splayTreeLookup t q).2 = some n ∧ (n.Interior q.hostStart ∨ n.Empty)) ∨
      (splayTreeLookup t q).2 = none ∧ ∀ x ∈ t.toList, ¬ x.Interior q.hostStart ∧ x ≠ q) ∧
    (¬ q.Empty → gompMapLookup t q = ⟨(splayTreeLookup t q).1,(splayTreeLookup t q).2,q⟩ ∧
      gompMap0lenLookup t q = ⟨(splayTreeLookup t q).1,(splayTreeLookup t q).2,q⟩) ∧
    (q.Empty → (gompMap0lenLookup t q).key = q ∧
      ((∃ n ∈ t.toList, (gompMap0lenLookup t q).node = some n ∧ n.Contains q.hostStart) ∨
        (gompMap0lenLookup t q).node = none ∧ ∀ x ∈ t.toList, ¬ x.Contains q.hostStart)) ∧
    (q.Empty → (gompMapLookup t q).key = q ∧
      ((∃ n ∈ t.toList, (gompMapLookup t q).node = some n ∧ (n.Contains q.hostStart ∨
          (∀ x ∈ t.toList, ¬ x.Contains q.hostStart) ∧ (n.hostEnd = q.hostStart ∨ n.Empty))) ∨
        (gompMapLookup t q).node = none ∧ ∀ x ∈ t.toList, ¬ x.Contains q.hostStart ∧ x.hostEnd ≠ q.hostStart)) := by
  have hs := h.sorted
  refine ⟨lookup_nonempty hs hq,lookup_empty hs hq,fun hne => ⟨if_pos hne,if_pos hne⟩,gompMap0lenLookup_empty hs hq,
    gompMapLookup_empty hs hq⟩

/-- A map with an empty interval and two others. -/
def threeIntervals : Map := .node (.node .null ⟨3,8⟩ .null) ⟨10,10⟩ (.node .null ⟨12,20⟩ .null)

theorem built_three : Built threeIntervals := by
  have h1 : Built (.node .null ⟨12,20⟩ .null) := @Built.insert _ _ ⟨12,20⟩ .empty ⟨by decide,by decide⟩ rfl
  have h2 : Built (.node .null ⟨3,8⟩ (.node .null ⟨12,20⟩ .null)) :=
    @Built.insert _ _ ⟨3,8⟩ h1 ⟨by decide,by decide⟩ rfl
  exact @Built.insert _ _ ⟨10,10⟩ h2 ⟨by decide,by decide⟩ rfl

theorem map_lookup_three : (gompMapLookup threeIntervals ⟨8,8⟩).node = some ⟨3,8⟩ ∧
    (gompMapLookup threeIntervals ⟨8,8⟩).key = ⟨8,8⟩ :=
  ⟨rfl,((@map_lookup _ built_three ⟨8,8⟩ ⟨by decide,by decide⟩).2.2.2.2 (show (8 : ℕ) = 8 from rfl)).1⟩

/-- An empty interval is found at another address, and a node is not found at the address where it begins. -/
theorem map_lookup_elsewhere : Built threeIntervals ∧
    (splayTreeLookup threeIntervals ⟨9,9⟩).2 = some ⟨10,10⟩ ∧
    (gompMapLookup threeIntervals ⟨9,9⟩).node = some ⟨10,10⟩ ∧
    Built (.node .null ⟨3,8⟩ .null) ∧ (splayTreeLookup (.node .null ⟨3,8⟩ .null) ⟨3,3⟩).2 = none ∧
    Interval.Contains ⟨3,8⟩ 3 :=
  ⟨built_three,rfl,rfl,@Built.insert _ _ ⟨3,8⟩ .empty ⟨by decide,by decide⟩ rfl,rfl,⟨by decide,by decide⟩⟩

end GompUlt.IntervalMap
