import GompUlt.Lib.Chain
import Mathlib.Order.Defs.LinearOrder
import Mathlib.Data.List.Sort
import Mathlib.Tactic.Linarith

/-! # The splay tree of splay-tree.c and its list of marked nodes

A node is named by its key.  The shape of the tree and the fields of the nodes are kept
apart: splaying rewrites the shape, the HP-LIST functions write the marked, next and prev
fields.
-/
namespace GompUlt.Queue
open LinkChain

/-- The left and right fields, read from a node. -/
inductive Tree (κ : Type*)
  | null
  | node (left : Tree κ) (key : κ) (right : Tree κ)
  deriving DecidableEq, Repr

namespace Tree
variable {κ : Type*}

def toList : Tree κ → List κ
  | null => []
  | node l k r => l.toList ++ k :: r.toList

def size : Tree κ → ℕ
  | null => 0
  | node l _ r => l.size + r.size + 1

def rootKey : Tree κ → Option κ
  | null => none
  | node _ k _ => some k

@[simp] theorem toList_null : (null : Tree κ).toList = [] := rfl

@[simp] theorem toList_node (l : Tree κ) (k : κ) (r : Tree κ) :
    (node l k r).toList = l.toList ++ k :: r.toList := rfl

@[simp] theorem toList_eq_nil {t : Tree κ} : t.toList = [] ↔ t = null := by cases t <;> simp

theorem size_eq_length (t : Tree κ) : t.size = t.toList.length := by
  induction t with
  | null => rfl
  | node l k r ihl ihr => simp [size, ihl, ihr]; omega

end Tree

variable {κ : Type*} [LinearOrder κ]

/-- One pass through the loop of splay_tree_splay; the flag tells that the loop goes on.
The left and right rotations are written out: rotate_left (&pp, p, n) makes
the left child n of p the parent of p. -/
def splayIter (key : κ) : Tree κ → Tree κ × Bool
  | .null => (.null,false)
  | .node l n r =>
    if key = n then (.node l n r,false)
    else if key < n then
      match l with
      | .null => (.node l n r,false)
      | .node cl c cr =>
        if key = c then (.node cl c (.node cr n r),false)
        else if key < c then
          match cl with
          | .null => (.node cl c (.node cr n r),false)
          | .node gl g gr => (.node gl g (.node (.node gr c cr) n r),true)
        else
          match cr with
          | .null => (.node cl c (.node cr n r),false)
          | .node gl g gr => (.node (.node cl c gl) g (.node gr n r),true)
    else
      match r with
      | .null => (.node l n r,false)
      | .node cl c cr =>
        if key = c then (.node (.node l n cl) c cr,false)
        else if key < c then
          match cl with
          | .null => (.node (.node l n cl) c cr,false)
          | .node gl g gr => (.node (.node l n gl) g (.node gr c cr),true)
        else
          match cr with
          | .null => (.node (.node l n cl) c cr,false)
          | .node gl g gr => (.node (.node l n (.node cl c gl)) g gr,true)

/-- The loop, cut off after the given number of passes. -/
def splayLoop (key : κ) : ℕ → Tree κ → Tree κ
  | 0, t => t
  | fuel + 1, t =>
    match splayIter key t with
    | (t',true) => splayLoop key fuel t'
    | (t',false) => t'

/-- Twice the number of nodes bounds the number of passes. -/
def splayTreeSplay (key : κ) (t : Tree κ) : Tree κ := splayLoop key (2 * t.size + 2) t

section Splay
variable {key : κ} {t : Tree κ}

/-- The number of nodes on the search path of a key. -/
def pathLength (key : κ) : Tree κ → ℕ
  | .null => 0
  | .node l k r => if key = k then 1 else if key < k then pathLength key l + 1 else pathLength key r + 1

theorem pathLength_le_size (key : κ) (t : Tree κ) : pathLength key t ≤ t.size := by
  induction t with
  | null => simp [pathLength]
  | node l k r ihl ihr =>
    simp only [pathLength, Tree.size]
    split_ifs <;> omega

/-- The key lies twice on the same side: the case that rotates two parallel edges. -/
def zigZig (key : κ) : Tree κ → Bool
  | .null => false
  | .node l n r => if key < n then l.rootKey.any (key < ·) else r.rootKey.any (· < key)

/-- A pass that goes on shortens the search path, or turns two parallel edges into two
that are not. -/
def splayMeasure (key : κ) (t : Tree κ) : ℕ := 2 * pathLength key t + (zigZig key t).toNat

theorem splayIter_measure (h : (splayIter key t).2 = true) :
    splayMeasure key (splayIter key t).1 < splayMeasure key t := by
  revert h
  have hbit : ∀ t : Tree κ, (zigZig key t).toNat ≤ 1 := fun t => Bool.toNat_le _
  fun_cases splayIter key t <;> intro h <;> simp only [Bool.false_eq_true] at h
  case case6 n r _ hn c cr _ hc gl g gr =>
    -- the only pass that may keep the length of the path
    have hold : zigZig key (.node (.node (.node gl g gr) c cr) n r) = true := by simp [zigZig, Tree.rootKey, hn, hc]
    simp only [splayMeasure, pathLength, hold]
    rcases lt_trichotomy key g with hg | hg | hg
    · have := hbit (.node gl g (.node (.node gr c cr) n r))
      simp [*, hg.ne]
      omega
    · have := hbit (.node gl g (.node (.node gr c cr) n r))
      subst hg
      simp [*]
      omega
    · have hnew : zigZig key (.node gl g (.node (.node gr c cr) n r)) = false := by
        simp [zigZig, Tree.rootKey, hg.not_gt, hn.not_gt]
      simp [*, hg.ne', hg.not_gt]
  case case8 n r _ hn cl c _ hc gl g gr =>
    have := hbit (.node (.node cl c gl) g (.node gr n r))
    simp only [splayMeasure, pathLength]
    rcases lt_trichotomy key g with hg | hg | hg
    · simp [*, hg.ne]
      omega
    · subst hg
      simp [*]
      omega
    · simp [*, hg.ne', hg.not_gt]
      omega
  case case12 l n _ hn c cr _ hc gl g gr =>
    have := hbit (.node (.node l n gl) g (.node gr c cr))
    simp only [splayMeasure, pathLength]
    rcases lt_trichotomy key g with hg | hg | hg
    · simp [*, hg.ne]
      omega
    · subst hg
      simp [*]
      omega
    · simp [*, hg.ne', hg.not_gt]
      omega
  case case14 l n hne hn cl c hce hc gl g gr =>
    have hcl : c < key := lt_of_le_of_ne (not_lt.mp hc) (Ne.symm hce)
    have hnl : n < key := lt_of_le_of_ne (not_lt.mp hn) (Ne.symm hne)
    have hold : zigZig key (.node l n (.node cl c (.node gl g gr))) = true := by
      simp [zigZig, Tree.rootKey, hn, hcl]
    simp only [splayMeasure, pathLength, hold]
    rcases lt_trichotomy key g with hg | hg | hg
    · have hnew : zigZig key (.node (.node l n (.node cl c gl)) g gr) = false := by
        simp [zigZig, Tree.rootKey, hg, hnl.le]
      simp [*, hg.ne]
    · have := hbit (.node (.node l n (.node cl c gl)) g gr)
      subst hg
      simp [*]
      omega
    · have := hbit (.node (.node l n (.node cl c gl)) g gr)
      simp [*, hg.ne', hg.not_gt]
      omega

theorem splayIter_toList (key : κ) (t : Tree κ) : (splayIter key t).1.toList = t.toList := by
  fun_cases splayIter key t <;> simp

/-- The root has the key, or no key of the tree lies between the key and the root's. -/
def RootNear (key : κ) : Tree κ → Prop
  | .null => True
  | .node l k r => key = k ∨ (key < k ∧ ∀ x ∈ l.toList, x < key) ∨ (k < key ∧ ∀ x ∈ r.toList, key < x)

theorem splayIter_near (hs : t.toList.Pairwise (· < ·)) (h : (splayIter key t).2 = false) :
    RootNear key (splayIter key t).1 := by
  revert h hs
  fun_cases splayIter key t <;> intro hs h <;> simp only [Bool.true_eq_false] at h
  case case1 => trivial
  case case2 => exact .inl rfl
  case case3 hn => exact .inr (.inl ⟨hn,by simp⟩)
  case case4 => exact .inl rfl
  case case5 hc => exact .inr (.inl ⟨hc,by simp⟩)
  case case7 n r _ hn cl c hce hc =>
    have hcl : c < key := lt_of_le_of_ne (not_lt.mp hc) (Ne.symm hce)
    refine .inr (.inr ⟨hcl,?_⟩)
    have hr : ∀ x ∈ r.toList, n < x := by
      simp only [Tree.toList_node, List.pairwise_append, List.pairwise_cons] at hs
      exact hs.2.1.1
    simp only [Tree.toList_node, Tree.toList_null, List.nil_append, List.mem_cons]
    rintro x (rfl | hx)
    · exact hn
    · exact hn.trans (hr x hx)
  case case9 l n hne hn =>
    exact .inr (.inr ⟨lt_of_le_of_ne (not_lt.mp hn) (Ne.symm hne),by simp⟩)
  case case10 => exact .inl rfl
  case case11 l n hne hn c cr _ hc =>
    have hnl : n < key := lt_of_le_of_ne (not_lt.mp hn) (Ne.symm hne)
    refine .inr (.inl ⟨hc,?_⟩)
    have hl : ∀ x ∈ l.toList, x < n := by
      simp only [Tree.toList_node, List.pairwise_append] at hs
      exact fun x hx => hs.2.2 x hx n (by simp)
    simp only [Tree.toList_node, Tree.toList_null, List.mem_append, List.mem_singleton]
    rintro x (hx | rfl)
    · exact (hl x hx).trans hnl
    · exact hnl
  case case13 hce hc =>
    exact .inr (.inr ⟨lt_of_le_of_ne (not_lt.mp hc) (Ne.symm hce),by simp⟩)

private theorem splayLoop_spec (fuel : ℕ) (hf : splayMeasure key t < fuel) (hs : t.toList.Pairwise (· < ·)) :
    (splayLoop key fuel t).toList = t.toList ∧ RootNear key (splayLoop key fuel t) := by
  induction fuel generalizing t with
  | zero => omega
  | succ fuel ih =>
    have hl := splayIter_toList key t
    have hm : (splayIter key t).2 = true → splayMeasure key (splayIter key t).1 < splayMeasure key t :=
      splayIter_measure
    have hn : (splayIter key t).2 = false → RootNear key (splayIter key t).1 := splayIter_near hs
    rw [splayLoop]
    rcases hi : splayIter key t with ⟨t',go⟩
    rw [hi] at hl hm hn
    cases go with
    | true =>
      have hlt : splayMeasure key t' < splayMeasure key t := hm rfl
      have hrec := ih (t := t') (by omega) (hl ▸ hs)
      exact ⟨hrec.1.trans hl,hrec.2⟩
    | false => exact ⟨hl,hn rfl⟩

/-- The loop of splay_tree_splay ends, keeps the order of the keys and brings the key, or a
neighbour of it, to the root. -/
theorem splayTreeSplay_spec (key : κ) (hs : t.toList.Pairwise (· < ·)) :
    (splayTreeSplay key t).toList = t.toList ∧ RootNear key (splayTreeSplay key t) := by
  refine splayLoop_spec _ ?_ hs
  have h1 := pathLength_le_size key t
  have h2 : (zigZig key t).toNat ≤ 1 := Bool.toNat_le _
  simp only [splayMeasure]
  omega

end Splay

/-- struct splay_tree_s with the HP-LIST fields of its nodes. -/
structure SplayTree (κ : Type*) where
  root : Tree κ
  numMarked : ℤ
  highestMarked : Option κ
  marked : κ → Bool
  fields : Fields κ

namespace SplayTree

def splay (sp : SplayTree κ) (key : κ) : SplayTree κ := { sp with root := splayTreeSplay key sp.root }

@[simp] theorem splay_numMarked (sp : SplayTree κ) (key : κ) : (sp.splay key).numMarked = sp.numMarked := rfl
@[simp] theorem splay_highestMarked (sp : SplayTree κ) (key : κ) :
    (sp.splay key).highestMarked = sp.highestMarked := rfl
@[simp] theorem splay_marked (sp : SplayTree κ) (key : κ) : (sp.splay key).marked = sp.marked := rfl
@[simp] theorem splay_fields (sp : SplayTree κ) (key : κ) : (sp.splay key).fields = sp.fields := rfl

/-- The test that makes a newly marked node the highest one. -/
def overtakes (sp : SplayTree κ) (key : κ) : Bool :=
  match sp.highestMarked with
  | none => true
  | some m => m < key

/-- The stores that mark a node which is not marked; the flag is the returned value. -/
def setMark (sp : SplayTree κ) (key : κ) : SplayTree κ × Bool :=
  ({ sp with
      numMarked := sp.numMarked + 1
      marked := Function.update sp.marked key true
      highestMarked := if sp.overtakes key then some key else sp.highestMarked },
    sp.overtakes key)

/-- The end of an insertion: the new shape and links, and the mark of the new node. -/
def place (sp : SplayTree κ) (root : Tree κ) (fields : Fields κ) (key : κ) (isMarked : Bool) :
    SplayTree κ × Bool :=
  let sp := { sp with root, fields }
  if isMarked then sp.setMark key else ({ sp with marked := Function.update sp.marked key false },false)

end SplayTree

/-- The walk along prev to the next marked node below. -/
def walkMarked (fields : Fields κ) (marked : κ → Bool) : ℕ → κ → Option κ
  | 0, _ => none
  | fuel + 1, node =>
    match fields.prev node with
    | none => none
    | some p => if marked p then some p else walkMarked fields marked fuel p

/-- None stands for the fatal error on a duplicate node. -/
def splayTreeInsert (sp : SplayTree κ) (key : κ) : Option (SplayTree κ) :=
  let sp := sp.splay key
  let sp' :=
    { sp with
      marked := Function.update sp.marked key false
      fields := (sp.fields.setPrev key none).setNext key none }
  match sp.root with
  | .null => some { sp' with root := .node .null key .null }
  | .node l k r =>
    if k = key then none
    else if k < key then some { sp' with root := .node (.node l k .null) key r }
    else some { sp' with root := .node l key (.node .null k r) }

/-- Inserts at the root and links the node beside the old root in the list of nodes. -/
def splayTreeHpListInsert (sp : SplayTree κ) (key : κ) (isMarked : Bool) : Option (SplayTree κ × Bool) :=
  let sp := sp.splay key
  match sp.root with
  | .null => some (sp.place (.node .null key .null) ((sp.fields.setPrev key none).setNext key none) key isMarked)
  | .node l k r =>
    if k = key then none
    else if k < key then
      some (sp.place (.node (.node l k .null) key r) (sp.fields.insertAfter k key) key isMarked)
    else some (sp.place (.node l key (.node .null k r)) (sp.fields.insertBefore k key) key isMarked)

def splayTreeHpListMarkNode (sp : SplayTree κ) (node : κ) (isMarked : Bool) : SplayTree κ × Bool :=
  if isMarked then
    if sp.marked node then (sp,false) else sp.setMark node
  else if sp.marked node then
    let sp := { sp with numMarked := sp.numMarked - 1, marked := Function.update sp.marked node false }
    if sp.highestMarked = some node then
      ({ sp with
          highestMarked :=
            if sp.numMarked > 0 then walkMarked sp.fields sp.marked sp.root.size node else none },
        true)
    else (sp,false)
  else (sp,false)

/-- The right subtree hung off the right-most leaf of the left one. -/
def hangRight : Tree κ → Tree κ → Tree κ
  | .null, right => right
  | .node l k r, right => .node l k (hangRight r right)

def splayTreeRemove (sp : SplayTree κ) (key : κ) : SplayTree κ :=
  let sp := sp.splay key
  match sp.root with
  | .null => sp
  | .node l k r => if k = key then { sp with root := hangRight l r } else sp

def splayTreeHpListRemove (sp : SplayTree κ) (key : κ) : SplayTree κ × Bool :=
  let sp := sp.splay key
  match sp.root with
  | .null => (sp,false)
  | .node l k r =>
    if k = key then
      let sp := { sp with numMarked := if sp.marked k then sp.numMarked - 1 else sp.numMarked }
      let sp := { sp with fields := sp.fields.unlink k }
      let highest := sp.highestMarked = some k
      ({ sp with
          highestMarked :=
            if highest then
              if sp.numMarked > 0 then walkMarked sp.fields sp.marked sp.root.size k else none
            else sp.highestMarked
          root := hangRight l r },
        highest)
    else (sp,false)

/-- The tree is splayed by every lookup; the result says whether the key was found. -/
def splayTreeLookup (sp : SplayTree κ) (key : κ) : SplayTree κ × Bool :=
  let sp := sp.splay key
  (sp,sp.root.rootKey = some key)

/-- The list of nodes has no influence on the shape of the tree. -/
theorem splayTreeHpListRemove_root (sp : SplayTree κ) (key : κ) :
    (splayTreeHpListRemove sp key).1.root = (splayTreeRemove sp key).root := by
  simp only [splayTreeHpListRemove, splayTreeRemove]
  cases (sp.splay key).root with
  | null => rfl
  | node l k r => by_cases hk : k = key <;> simp only [hk, if_true, if_false]

theorem splayTreeHpListInsert_root (sp : SplayTree κ) (key : κ) (isMarked : Bool) :
    (splayTreeHpListInsert sp key isMarked).map (·.1.root) = (splayTreeInsert sp key).map (·.root) := by
  have hroot : ∀ (sp : SplayTree κ) t f, (sp.place t f key isMarked).1.root = t := by
    intro sp t f
    cases isMarked <;> rfl
  simp only [splayTreeHpListInsert, splayTreeInsert]
  cases (sp.splay key).root with
  | null => simp [hroot]
  | node l k r =>
    simp only
    split_ifs <;> simp [hroot]

section Spec
variable {sp : SplayTree κ} {key : κ}

omit [LinearOrder κ] in
theorem toList_hangRight (l r : Tree κ) : (hangRight l r).toList = l.toList ++ r.toList := by
  induction l with
  | null => simp [hangRight]
  | node l k r' _ ih => simp [hangRight, ih]

theorem sorted_nodup {u : List κ} (hs : u.Pairwise (· < ·)) : u.Nodup := hs.imp fun h => ne_of_lt h

theorem splay_toList (hs : sp.root.toList.Pairwise (· < ·)) (key : κ) :
    (sp.splay key).root.toList = sp.root.toList := (splayTreeSplay_spec key hs).1

theorem splay_near (hs : sp.root.toList.Pairwise (· < ·)) (key : κ) : RootNear key (sp.splay key).root :=
  (splayTreeSplay_spec key hs).2

/-- A key found by the search is the root after the splay. -/
theorem RootNear.rootKey_eq {t : Tree κ} (hn : RootNear key t) (hs : t.toList.Pairwise (· < ·)) :
    t.rootKey = some key ↔ key ∈ t.toList := by
  cases t with
  | null => simp [Tree.rootKey]
  | node l k r =>
    simp only [Tree.toList_node, List.pairwise_append, List.pairwise_cons] at hs
    obtain ⟨_,⟨hr,_⟩,hl⟩ := hs
    simp only [Tree.rootKey, Option.some.injEq, Tree.toList_node, List.mem_append, List.mem_cons]
    refine ⟨fun e => .inr (.inl e.symm),fun hm => ?_⟩
    rcases hn with rfl | ⟨hlt,hleft⟩ | ⟨hlt,hright⟩
    · rfl
    · rcases hm with hm | rfl | hm
      · exact absurd (hleft key hm) (lt_irrefl key)
      · rfl
      · exact absurd (hlt.trans (hr key hm)) (lt_irrefl key)
    · rcases hm with hm | rfl | hm
      · exact absurd (hlt.trans (hl key hm k (by simp))) (lt_irrefl k)
      · rfl
      · exact absurd (hright key hm) (lt_irrefl key)

theorem splayTreeLookup_spec (hs : sp.root.toList.Pairwise (· < ·)) (key : κ) :
    (splayTreeLookup sp key).1.root.toList = sp.root.toList ∧
    ((splayTreeLookup sp key).2 = true ↔ key ∈ sp.root.toList) := by
  have hl := splay_toList hs key
  refine ⟨hl,?_⟩
  rw [← hl, ← (splay_near hs key).rootKey_eq (hl ▸ hs)]
  simp [splayTreeLookup]

/-- The new root put above a near one keeps the keys sorted. -/
theorem sorted_insert {a b : List κ} (hs : (a ++ b).Pairwise (· < ·)) (ha : ∀ x ∈ a, x < key)
    (hb : ∀ x ∈ b, key < x) : (a ++ key :: b).Pairwise (· < ·) := by
  simp only [List.pairwise_append, List.pairwise_cons, List.mem_cons] at hs ⊢
  refine ⟨hs.1,⟨hb,hs.2.1⟩,?_⟩
  rintro x hx y (rfl | hy)
  · exact ha x hx
  · exact hs.2.2 x hx y hy

/-- On which sides of the key the keys of a tree with a near root lie. -/
theorem near_sides {l r : Tree κ} {k : κ} (hn : RootNear key (.node l k r))
    (hs : (Tree.node l k r).toList.Pairwise (· < ·)) (hk : k ≠ key) :
    if k < key then (∀ x ∈ l.toList ++ [k], x < key) ∧ ∀ x ∈ r.toList, key < x
    else (∀ x ∈ l.toList, x < key) ∧ ∀ x ∈ k :: r.toList, key < x := by
  simp only [Tree.toList_node, List.pairwise_append, List.pairwise_cons] at hs
  obtain ⟨_,⟨hr,_⟩,hl⟩ := hs
  rcases hn with rfl | ⟨hlt,hleft⟩ | ⟨hlt,hright⟩
  · exact absurd rfl hk
  · rw [if_neg hlt.not_gt]
    refine ⟨hleft,fun x hx => ?_⟩
    rcases List.mem_cons.mp hx with rfl | hx
    · exact hlt
    · exact hlt.trans (hr x hx)
  · rw [if_pos hlt]
    refine ⟨fun x hx => ?_,hright⟩
    rcases List.mem_append.mp hx with hx | hx
    · exact (hl x hx k (by simp)).trans hlt
    · obtain rfl : x = k := by simpa using hx
      exact hlt

/-- The insertion of a new key without the list of nodes. -/
theorem splayTreeInsert_spec (hs : sp.root.toList.Pairwise (· < ·)) (hk : key ∉ sp.root.toList) :
    ∃ sp', splayTreeInsert sp key = some sp' ∧ sp'.root.toList.Pairwise (· < ·) ∧
      sp'.root ≠ .null ∧ ∀ x, x ∈ sp'.root.toList ↔ x = key ∨ x ∈ sp.root.toList := by
  have hl := splay_toList hs key
  have hn := splay_near hs key
  rw [← hl] at hs hk ⊢
  cases ht : (sp.splay key).root with
  | null =>
    simp only [splayTreeInsert, ht]
    exact ⟨_,rfl,by simp,by simp,by simp⟩
  | node l k r =>
    rw [ht] at hs hk hn
    have hne : k ≠ key := by rintro rfl; simp at hk
    have hsides := near_sides hn hs hne
    by_cases hlt : k < key
    · rw [if_pos hlt] at hsides
      have hsort := sorted_insert (a := l.toList ++ [k]) (b := r.toList) (by simpa using hs) hsides.1 hsides.2
      simp only [splayTreeInsert, ht, hne, hlt, if_true, if_false]
      refine ⟨_,rfl,by simpa using hsort,by simp,fun x => ?_⟩
      simp only [Tree.toList_node, Tree.toList_null, List.mem_append, List.mem_cons]
      tauto
    · rw [if_neg hlt] at hsides
      have hsort := sorted_insert (by simpa using hs) hsides.1 hsides.2
      simp only [splayTreeInsert, ht, hne, hlt, if_false]
      refine ⟨_,rfl,by simpa using hsort,by simp,fun x => ?_⟩
      simp only [Tree.toList_node, Tree.toList_null, List.mem_append, List.mem_cons]
      tauto

/-- The removal of a key, with or without the list of nodes. -/
theorem splayTreeRemove_spec (hs : sp.root.toList.Pairwise (· < ·)) {a b : List κ}
    (hk : sp.root.toList = a ++ key :: b) : (splayTreeRemove sp key).root.toList = a ++ b := by
  have hl := splay_toList hs key
  have hn := splay_near hs key
  rw [hk] at hl
  have hroot := (hn.rootKey_eq (hl ▸ hk ▸ hs)).mpr (by simp [hl])
  cases ht : (sp.splay key).root with
  | null => simp [ht, Tree.rootKey] at hroot
  | node l k r =>
    rw [ht] at hroot hl
    obtain rfl : k = key := by simpa [Tree.rootKey] using hroot
    rw [hk, ← hl] at hs
    obtain ⟨rfl,rfl⟩ := cut_unique (sorted_nodup hs) hl
    simp [splayTreeRemove, ht, toList_hangRight]

end Spec

end GompUlt.Queue
