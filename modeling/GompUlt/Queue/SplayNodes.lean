import GompUlt.Lib.Run
import GompUlt.Queue.SplayTree

/-! # The splay tree as nodes that point to each other

The functions of splay-tree.c on the root, left and right pointers.  A tree of nodes stands
behind the pointers; splaying changes the pointers of at most three nodes in each pass, and
what it does to the keys is what `splayIter` does to a tree of keys.  The HP-LIST fields,
which splay_tree_insert only clears, are left out.
-/
namespace GompUlt.Queue
open Run

/-- The keys of the nodes, in the places of the nodes. -/
def Tree.map {ν κ : Type*} (f : ν → κ) : Tree ν → Tree κ
  | .null => .null
  | .node l n r => .node (l.map f) (f n) (r.map f)

@[simp] theorem Tree.toList_map {ν κ : Type*} (f : ν → κ) (t : Tree ν) : (t.map f).toList = t.toList.map f := by
  induction t with
  | null => rfl
  | node l n r ihl ihr => simp [Tree.map, ihl, ihr]

@[simp] theorem Tree.size_map {ν κ : Type*} (f : ν → κ) (t : Tree ν) : (t.map f).size = t.size := by
  simp [Tree.size_eq_length]

/-- The pointers that the functions read and write. -/
structure NodeTree (ν : Type*) where
  root : Option ν
  left : ν → Option ν
  right : ν → Option ν

/-- A pointer to a pointer to a node. -/
inductive Place (ν : Type*)
  | root
  | left (node : ν)
  | right (node : ν)

namespace NodeTree
variable {ν : Type*} [DecidableEq ν]

def setLeft (sp : NodeTree ν) (n : ν) (o : Option ν) : NodeTree ν :=
  { sp with left := Function.update sp.left n o }

def setRight (sp : NodeTree ν) (n : ν) (o : Option ν) : NodeTree ν :=
  { sp with right := Function.update sp.right n o }

def store (sp : NodeTree ν) (n : ν) : Place ν → NodeTree ν
  | .root => { sp with root := some n }
  | .left p => sp.setLeft p (some n)
  | .right p => sp.setRight p (some n)

/-- rotate_left: the edge from p to its left child n. -/
def rotateLeft (sp : NodeTree ν) (pp : Place ν) (p n : ν) : NodeTree ν :=
  let tmp := sp.right n
  ((sp.setRight n (some p)).setLeft p tmp).store n pp

/-- rotate_right: the edge from p to its right child n. -/
def rotateRight (sp : NodeTree ν) (pp : Place ν) (p n : ν) : NodeTree ν :=
  let tmp := sp.left n
  ((sp.setLeft n (some p)).setRight p tmp).store n pp

section Functions
variable {κ : Type*} [LinearOrder κ] (key : ν → κ)

/-- The four cases of double rotation; g is the child of c on the side of the key. -/
def doubleRotation (sp : NodeTree ν) (k : κ) (n c g : ν) : NodeTree ν :=
  if k < key n then
    if k < key c then (sp.rotateLeft (.left n) c g).rotateLeft .root n g
    else (sp.rotateRight (.left n) c g).rotateLeft .root n g
  else if k < key c then (sp.rotateLeft (.right n) c g).rotateRight .root n g
  else (sp.rotateRight (.right n) c g).rotateRight .root n g

/-- One pass through the loop of splay_tree_splay; the flag tells that the loop goes on. -/
def splayPass (sp : NodeTree ν) (k : κ) : NodeTree ν × Bool :=
  match sp.root with
  | none => (sp,false)
  | some n =>
    if k = key n then (sp,false)
    else
      match if k < key n then sp.left n else sp.right n with
      | none => (sp,false)
      | some c =>
        let once := if k < key n then sp.rotateLeft .root n c else sp.rotateRight .root n c
        if k = key c then (once,false)
        else
          match if k < key c then sp.left c else sp.right c with
          | none => (once,false)
          | some g => (sp.doubleRotation key k n c g,true)

/-- The loop; none when it has not ended after the given number of passes. -/
def splayTreeSplay (sp : NodeTree ν) (k : κ) : ℕ → Option (NodeTree ν)
  | 0 => none
  | fuel + 1 =>
    match sp.splayPass key k with
    | (sp',true) => splayTreeSplay sp' k fuel
    | (sp',false) => some sp'

/-- What a call tells its caller; a duplicate is a fatal error. -/
inductive Answer (ν : Type*)
  | done
  | duplicate
  | found (node : Option ν)
  deriving DecidableEq

def splayTreeInsert (sp : NodeTree ν) (node : ν) (fuel : ℕ) : Option (NodeTree ν × Answer ν) :=
  (sp.splayTreeSplay key (key node) fuel).map fun sp =>
    match sp.root with
    | none => ({ (sp.setLeft node none).setRight node none with root := some node },.done)
    | some r =>
      if key r = key node then (sp,.duplicate)
      else if key r < key node then
        let sp := (sp.setLeft node (some r)).setRight node (sp.right r)
        ({ sp.setRight r none with root := some node },.done)
      else
        let sp := (sp.setRight node (some r)).setLeft node (sp.left r)
        ({ sp.setLeft r none with root := some node },.done)

/-- The loop that goes to the right-most leaf. -/
def rightMost (sp : NodeTree ν) (n : ν) : ℕ → Option ν
  | 0 => none
  | fuel + 1 =>
    match sp.right n with
    | none => some n
    | some m => rightMost sp m fuel

def splayTreeRemove (sp : NodeTree ν) (k : κ) (fuel : ℕ) : Option (NodeTree ν × Answer ν) :=
  (sp.splayTreeSplay key k fuel).bind fun sp =>
    match sp.root with
    | none => some (sp,.done)
    | some n =>
      if key n = k then
        match sp.left n, sp.right n with
        | none, right => some ({ sp with root := right },.done)
        | some left, none => some ({ sp with root := some left },.done)
        | some left, some right =>
          (sp.rightMost left fuel).map fun leaf =>
            ({ sp.setRight leaf (some right) with root := some left },.done)
      else some (sp,.done)

def splayTreeLookup (sp : NodeTree ν) (k : κ) (fuel : ℕ) : Option (NodeTree ν × Answer ν) :=
  (sp.splayTreeSplay key k fuel).map fun sp =>
    match sp.root with
    | none => (sp,.found none)
    | some n => (sp,.found (if key n = k then some n else none))

end Functions

/-! ## The tree behind the pointers -/

/-- The pointer is to the root of the tree. -/
def Points (sp : NodeTree ν) : Option ν → Tree ν → Prop
  | o, .null => o = none
  | o, .node l n r => o = some n ∧ Points sp (sp.left n) l ∧ Points sp (sp.right n) r

variable {sp sp' : NodeTree ν} {o : Option ν} {t l m r : Tree ν} {p n g q : ν}

omit [DecidableEq ν] in
/-- A tree keeps to the pointers of its nodes. -/
theorem Points.congr (h : Points sp o t) (hl : ∀ x ∈ t.toList, sp'.left x = sp.left x)
    (hr : ∀ x ∈ t.toList, sp'.right x = sp.right x) : Points sp' o t := by
  induction t generalizing o with
  | null => exact h
  | node l n r ihl ihr =>
    obtain ⟨ho,hpl,hpr⟩ := h
    refine ⟨ho,?_,?_⟩
    · rw [hl n (by simp)]
      exact ihl hpl (fun x hx => hl x (by simp [hx])) fun x hx => hr x (by simp [hx])
    · rw [hr n (by simp)]
      exact ihr hpr (fun x hx => hl x (by simp [hx])) fun x hx => hr x (by simp [hx])

theorem Points.setLeft (h : Points sp o t) (hn : n ∉ t.toList) (o' : Option ν) : Points (sp.setLeft n o') o t :=
  h.congr (fun _ hx => Function.update_of_ne (ne_of_mem_of_not_mem hx hn) _ _) fun _ _ => rfl

theorem Points.setRight (h : Points sp o t) (hn : n ∉ t.toList) (o' : Option ν) : Points (sp.setRight n o') o t :=
  h.congr (fun _ _ => rfl) fun _ hx => Function.update_of_ne (ne_of_mem_of_not_mem hx hn) _ _

/-- rotate_left without its last store. -/
def turnLeft (sp : NodeTree ν) (p n : ν) : NodeTree ν := (sp.setRight n (some p)).setLeft p (sp.right n)

/-- rotate_right without its last store. -/
def turnRight (sp : NodeTree ν) (p n : ν) : NodeTree ν := (sp.setLeft n (some p)).setRight p (sp.left n)

theorem Points.turnLeft_frame (h : Points sp o t) (hp : p ∉ t.toList) (hn : n ∉ t.toList) :
    Points (sp.turnLeft p n) o t := (h.setRight hn _).setLeft hp _

theorem Points.turnRight_frame (h : Points sp o t) (hp : p ∉ t.toList) (hn : n ∉ t.toList) :
    Points (sp.turnRight p n) o t := (h.setLeft hn _).setRight hp _

theorem Points.turnLeft (h : Points sp o (.node (.node l n m) p r)) (hd : (Tree.node (.node l n m) p r).toList.Nodup) :
    Points (sp.turnLeft p n) (some n) (.node l n (.node m p r)) := by
  obtain ⟨-,⟨-,hl,hm⟩,hr⟩ := h
  simp only [Tree.toList_node, List.nodup_append, List.nodup_cons, List.mem_append, List.mem_cons] at hd
  have hne : n ≠ p := by grind
  have hleft : (sp.turnLeft p n).left n = sp.left n := Function.update_of_ne hne _ _
  have hright : (sp.turnLeft p n).right n = some p := Function.update_self _ _ _
  have hleft' : (sp.turnLeft p n).left p = sp.right n := Function.update_self _ _ _
  have hright' : (sp.turnLeft p n).right p = sp.right p := Function.update_of_ne hne.symm _ _
  refine ⟨rfl,?_,?_⟩
  · rw [hleft]
    exact hl.turnLeft_frame (by grind) (by grind)
  · refine ⟨hright,?_,?_⟩
    · rw [hleft']
      exact hm.turnLeft_frame (by grind) (by grind)
    · rw [hright']
      exact hr.turnLeft_frame (by grind) (by grind)

theorem Points.turnRight (h : Points sp o (.node l p (.node m n r))) (hd : (Tree.node l p (.node m n r)).toList.Nodup) :
    Points (sp.turnRight p n) (some n) (.node (.node l p m) n r) := by
  obtain ⟨-,hl,-,hm,hr⟩ := h
  simp only [Tree.toList_node, List.nodup_append, List.nodup_cons, List.mem_append, List.mem_cons] at hd
  have hne : n ≠ p := by grind
  have hright : (sp.turnRight p n).right n = sp.right n := Function.update_of_ne hne _ _
  have hleft : (sp.turnRight p n).left n = some p := Function.update_self _ _ _
  have hright' : (sp.turnRight p n).right p = sp.left n := Function.update_self _ _ _
  have hleft' : (sp.turnRight p n).left p = sp.left p := Function.update_of_ne hne.symm _ _
  refine ⟨rfl,?_,?_⟩
  · refine ⟨hleft,?_,?_⟩
    · rw [hleft']
      exact hl.turnRight_frame (by grind) (by grind)
    · rw [hright']
      exact hm.turnRight_frame (by grind) (by grind)
  · rw [hright]
    exact hr.turnRight_frame (by grind) (by grind)

omit [DecidableEq ν] in
theorem Points.setRoot (h : Points sp o t) (o' : Option ν) : Points { sp with root := o' } o t :=
  h.congr (fun _ _ => rfl) fun _ _ => rfl

/-- The left subtree is exchanged for a rotated one. -/
theorem Points.storeLeft (h : Points sp' (some g) t) (hr : Points sp' (sp'.right q) r) (ht : q ∉ t.toList)
    (hq : q ∉ r.toList) : Points (sp'.store g (.left q)) (some q) (.node t q r) := by
  have hleft : (sp'.store g (.left q)).left q = some g := Function.update_self _ _ _
  refine ⟨rfl,?_,hr.setLeft hq _⟩
  rw [hleft]
  exact h.setLeft ht _

theorem Points.storeRight (h : Points sp' (some g) t) (hl : Points sp' (sp'.left q) l) (ht : q ∉ t.toList)
    (hq : q ∉ l.toList) : Points (sp'.store g (.right q)) (some q) (.node l q t) := by
  have hright : (sp'.store g (.right q)).right q = some g := Function.update_self _ _ _
  refine ⟨rfl,hl.setRight hq _,?_⟩
  rw [hright]
  exact h.setRight ht _

/-! ## Splaying -/

section Splay
variable {κ : Type*} [LinearOrder κ] {key : ν → κ} {k : κ}

/-- The pointers have come to stand for another tree, with the nodes in the same order and the keys where
`splayIter` puts them. -/
def Passed (key : ν → κ) (k : κ) (t : Tree ν) (res : NodeTree ν × Bool) : Prop :=
  ∃ t', Points res.1 res.1.root t' ∧ t'.toList = t.toList ∧ splayIter k (t.map key) = (t'.map key,res.2)

/-- One rotation at the root, the key being in the left subtree. -/
theorem passed_rotateLeft {cl cr : Tree ν} {c : ν} (h : Points sp o (.node (.node cl c cr) n r))
    (hd : (Tree.node (.node cl c cr) n r).toList.Nodup)
    (hs : splayIter k ((Tree.node (.node cl c cr) n r).map key) = ((Tree.node cl c (.node cr n r)).map key,false)) :
    Passed key k (.node (.node cl c cr) n r) (sp.rotateLeft .root n c,false) :=
  ⟨_,(h.turnLeft hd).setRoot _,by simp,hs⟩

theorem passed_rotateRight {cl cr : Tree ν} {c : ν} (h : Points sp o (.node l n (.node cl c cr)))
    (hd : (Tree.node l n (.node cl c cr)).toList.Nodup)
    (hs : splayIter k ((Tree.node l n (.node cl c cr)).map key) = ((Tree.node (.node l n cl) c cr).map key,false)) :
    Passed key k (.node l n (.node cl c cr)) (sp.rotateRight .root n c,false) :=
  ⟨_,(h.turnRight hd).setRoot _,by simp,hs⟩

/-- The second rotation of a double one ends with the store of the new root. -/
theorem passed_store {t' : Tree ν} {b : Bool} (h : Points sp (some g) t') (hl : t'.toList = t.toList)
    (hs : splayIter k (t.map key) = (t'.map key,b)) : Passed key k t (sp.store g .root,b) :=
  ⟨t',h.setRoot _,hl,hs⟩

omit [DecidableEq ν] in
/-- The two sides of a tree without duplicates. -/
theorem nodup_sides (hd : (Tree.node l n r).toList.Nodup) :
    l.toList.Nodup ∧ r.toList.Nodup ∧ n ∉ l.toList ∧ n ∉ r.toList ∧ ∀ x ∈ l.toList, x ∉ r.toList := by
  simp only [Tree.toList_node, List.nodup_append, List.nodup_cons, List.mem_cons] at hd
  obtain ⟨hl,⟨hnr,hr⟩,hne⟩ := hd
  exact ⟨hl,hr,fun h => hne n h n (Or.inl rfl) rfl,hnr,fun x hx hx' => hne x hx x (Or.inr hx') rfl⟩

/-- A double rotation when the key is below that of the root. -/
theorem passed_doubleLeft {cl cr a b : Tree ν} {c : ν} (h : Points sp o (.node (.node cl c cr) n r))
    (hd : (Tree.node (.node cl c cr) n r).toList.Nodup) (hn : k < key n) (hkc : k ≠ key c)
    (hg : (if k < key c then cl else cr) = .node a g b) :
    Passed key k (.node (.node cl c cr) n r) (sp.doubleRotation key k n c g,true) := by
  obtain ⟨-,hc,hr⟩ := h
  obtain ⟨hdl,-,hnl,hnr,hlr⟩ := nodup_sides hd
  unfold doubleRotation
  rw [if_pos hn]
  by_cases hlt : k < key c
  · rw [if_pos hlt] at hg ⊢
    subst hg
    simp only [Tree.toList_node, List.mem_append, List.mem_cons] at hnl hlr
    have hright : (sp.turnLeft c g).right n = sp.right n := Function.update_of_ne (by tauto) _ _
    have htop := (hc.turnLeft hdl).storeLeft (q := n) (r := r)
      (by rw [hright]; exact hr.turnLeft_frame (hlr c (by tauto)) (hlr g (by tauto))) (by simpa [and_assoc] using hnl) hnr
    refine passed_store (htop.turnLeft ?_) (by simp) ?_
    · simpa using hd
    · simp [splayIter, Tree.map, hn, hn.ne, hlt, hkc]
  · rw [if_neg hlt] at hg ⊢
    subst hg
    simp only [Tree.toList_node, List.mem_append, List.mem_cons] at hnl hlr
    have hright : (sp.turnRight c g).right n = sp.right n := Function.update_of_ne (by tauto) _ _
    have htop := (hc.turnRight hdl).storeLeft (q := n) (r := r)
      (by rw [hright]; exact hr.turnRight_frame (hlr c (by tauto)) (hlr g (by tauto))) (by simpa [and_assoc] using hnl) hnr
    refine passed_store (htop.turnLeft ?_) (by simp) ?_
    · simpa using hd
    · simp [splayIter, Tree.map, hn, hn.ne, hlt, hkc]

/-- The same when the key is above that of the root. -/
theorem passed_doubleRight {cl cr a b : Tree ν} {c : ν} (h : Points sp o (.node l n (.node cl c cr)))
    (hd : (Tree.node l n (.node cl c cr)).toList.Nodup) (hkn : k ≠ key n) (hn : ¬k < key n) (hkc : k ≠ key c)
    (hg : (if k < key c then cl else cr) = .node a g b) :
    Passed key k (.node l n (.node cl c cr)) (sp.doubleRotation key k n c g,true) := by
  obtain ⟨-,hl,hc⟩ := h
  obtain ⟨-,hdr,hnl,hnr,hlr⟩ := nodup_sides hd
  unfold doubleRotation
  rw [if_neg hn]
  by_cases hlt : k < key c
  · rw [if_pos hlt] at hg ⊢
    subst hg
    simp only [Tree.toList_node, List.mem_append, List.mem_cons] at hnr hlr
    have hleft : (sp.turnLeft c g).left n = sp.left n := Function.update_of_ne (by tauto) _ _
    have htop := (hc.turnLeft hdr).storeRight (q := n) (l := l)
      (by rw [hleft]; exact hl.turnLeft_frame (fun hx => hlr c hx (by tauto)) fun hx => hlr g hx (by tauto))
      (by simpa [and_assoc] using hnr) hnl
    refine passed_store (htop.turnRight ?_) (by simp) ?_
    · simpa using hd
    · simp [splayIter, Tree.map, hn, hkn, hlt, hkc]
  · rw [if_neg hlt] at hg ⊢
    subst hg
    simp only [Tree.toList_node, List.mem_append, List.mem_cons] at hnr hlr
    have hleft : (sp.turnRight c g).left n = sp.left n := Function.update_of_ne (by tauto) _ _
    have htop := (hc.turnRight hdr).storeRight (q := n) (l := l)
      (by rw [hleft]; exact hl.turnRight_frame (fun hx => hlr c hx (by tauto)) fun hx => hlr g hx (by tauto))
      (by simpa [and_assoc] using hnr) hnl
    refine passed_store (htop.turnRight ?_) (by simp) ?_
    · simpa using hd
    · simp [splayIter, Tree.map, hn, hkn, hlt, hkc]

omit [DecidableEq ν] in
theorem Points.some_iff (h : Points sp (some n) t) : ∃ l r, t = .node l n r := by
  cases t with
  | null => cases h
  | node l m r =>
    obtain rfl := Option.some.inj h.1
    exact ⟨l,r,rfl⟩

omit [DecidableEq ν] in
theorem Points.none_iff (h : Points sp none t) : t = .null := by
  cases t with
  | null => rfl
  | node l m r => cases h.1

/-- One pass of the loop on the pointers is one pass on the tree behind them. -/
theorem splayPass_spec (h : Points sp sp.root t) (hd : t.toList.Nodup) : Passed key k t (sp.splayPass key k) := by
  have stay : ∀ {t : Tree ν}, Points sp sp.root t → splayIter k (t.map key) = (t.map key,false) →
      Passed key k t (sp,false) := fun h hs => ⟨_,h,rfl,hs⟩
  cases t with
  | null =>
    have hroot : sp.root = none := h
    simp only [splayPass, hroot]
    exact stay h rfl
  | node l n r =>
    have hroot : sp.root = some n := h.1
    simp only [splayPass, hroot]
    by_cases hkn : k = key n
    · rw [if_pos hkn]
      exact stay h (by simp [splayIter, Tree.map, hkn])
    rw [if_neg hkn]
    by_cases hn : k < key n
    · simp only [if_pos hn]
      have hl := h.2.1
      cases hleft : sp.left n with
      | none =>
        obtain rfl := Points.none_iff (hleft ▸ hl)
        exact stay h (by simp [splayIter, Tree.map, hkn, hn])
      | some c =>
        obtain ⟨cl,cr,rfl⟩ := Points.some_iff (hleft ▸ hl)
        dsimp only
        by_cases hkc : k = key c
        · rw [if_pos hkc]
          exact passed_rotateLeft h hd (by simp [splayIter, Tree.map, hkn, hn, ← hkc])
        · rw [if_neg hkc]
          have hc : Points sp (if k < key c then sp.left c else sp.right c) (if k < key c then cl else cr) := by
            split
            · exact hl.2.1
            · exact hl.2.2
          cases hg : if k < key c then sp.left c else sp.right c with
          | none =>
            have hnull := Points.none_iff (hg ▸ hc)
            refine passed_rotateLeft h hd ?_
            split at hnull
            · next hlt => subst hnull; simp [splayIter, Tree.map, hkn, hn, hkc, hlt]
            · next hlt => subst hnull; simp [splayIter, Tree.map, hkn, hn, hkc, hlt]
          | some g =>
            obtain ⟨a,b,hab⟩ := Points.some_iff (hg ▸ hc)
            exact passed_doubleLeft h hd hn hkc hab
    · simp only [if_neg hn]
      have hr := h.2.2
      cases hright : sp.right n with
      | none =>
        obtain rfl := Points.none_iff (hright ▸ hr)
        exact stay h (by simp [splayIter, Tree.map, hkn, hn])
      | some c =>
        obtain ⟨cl,cr,rfl⟩ := Points.some_iff (hright ▸ hr)
        dsimp only
        by_cases hkc : k = key c
        · rw [if_pos hkc]
          exact passed_rotateRight h hd (by simp [splayIter, Tree.map, hkn, hn, ← hkc])
        · rw [if_neg hkc]
          have hc : Points sp (if k < key c then sp.left c else sp.right c) (if k < key c then cl else cr) := by
            split
            · exact hr.2.1
            · exact hr.2.2
          cases hg : if k < key c then sp.left c else sp.right c with
          | none =>
            have hnull := Points.none_iff (hg ▸ hc)
            refine passed_rotateRight h hd ?_
            split at hnull
            · next hlt => subst hnull; simp [splayIter, Tree.map, hkn, hn, hkc, hlt]
            · next hlt => subst hnull; simp [splayIter, Tree.map, hkn, hn, hkc, hlt]
          | some g =>
            obtain ⟨a,b,hab⟩ := Points.some_iff (hg ▸ hc)
            exact passed_doubleRight h hd hkn hn hkc hab

/-- A binary search tree behind the pointers. -/
structure Search (key : ν → κ) (sp : NodeTree ν) (t : Tree ν) : Prop where
  points : Points sp sp.root t
  sorted : (t.toList.map key).Pairwise (· < ·)

omit [DecidableEq ν] in
theorem Search.nodup (h : Search key sp t) : t.toList.Nodup := .of_map key (sorted_nodup h.sorted)

theorem splayTreeSplay_measure (fuel : ℕ) (h : Search key sp t) (hf : splayMeasure k (t.map key) < fuel) :
    ∃ sp' t', sp.splayTreeSplay key k fuel = some sp' ∧ Search key sp' t' ∧ t'.toList = t.toList ∧
      RootNear k (t'.map key) := by
  induction fuel generalizing sp t with
  | zero => omega
  | succ fuel ih =>
    have hmap : (t.map key).toList.Pairwise (· < ·) := by
      rw [Tree.toList_map]
      exact h.sorted
    have hspec : Passed key k t (sp.splayPass key k) := splayPass_spec h.points h.nodup
    obtain ⟨t₁,hp,hl,hi⟩ := hspec
    have hmeasure : (splayIter k (t.map key)).2 = true →
        splayMeasure k (splayIter k (t.map key)).1 < splayMeasure k (t.map key) := splayIter_measure
    have hnear : (splayIter k (t.map key)).2 = false → RootNear k (splayIter k (t.map key)).1 :=
      splayIter_near hmap
    rw [hi] at hmeasure hnear
    rw [splayTreeSplay]
    rcases hpass : sp.splayPass key k with ⟨sp₁,go⟩
    rw [hpass] at hp hmeasure hnear
    have h₁ : Search key sp₁ t₁ := ⟨hp,by rw [hl]; exact h.sorted⟩
    cases go with
    | true =>
      have hlt : splayMeasure k (t₁.map key) < splayMeasure k (t.map key) := hmeasure rfl
      obtain ⟨sp₂,t₂,hs,h₂,hl₂,hn₂⟩ := ih h₁ (by omega)
      exact ⟨sp₂,t₂,hs,h₂,hl₂.trans hl,hn₂⟩
    | false => exact ⟨sp₁,t₁,rfl,h₁,hl,hnear rfl⟩

/-- Twice the number of nodes is enough passes. -/
theorem splayTreeSplay_points {fuel : ℕ} (k : κ) (h : Search key sp t) (hf : 2 * t.size + 2 ≤ fuel) :
    ∃ sp' t', sp.splayTreeSplay key k fuel = some sp' ∧ Search key sp' t' ∧ t'.toList = t.toList ∧
      RootNear k (t'.map key) := by
  refine splayTreeSplay_measure fuel h ?_
  have h1 := pathLength_le_size k (t.map key)
  have h2 : (zigZig k (t.map key)).toNat ≤ 1 := Bool.toNat_le _
  rw [Tree.size_map] at h1
  simp only [splayMeasure]
  omega

/-- The node to be found at the root: the one with the key, else a neighbour of the key in the order. -/
def Closest (key : ν → κ) (k : κ) (nodes : List ν) : Option ν → Prop
  | none => nodes = []
  | some n => n ∈ nodes ∧ ((∃ x ∈ nodes, key x = k) → key n = k) ∧ ((∀ x ∈ nodes, key x ≠ k) →
      (key n < k ∧ ∀ x ∈ nodes, key x ≤ key n ∨ k < key x) ∨ (k < key n ∧ ∀ x ∈ nodes, key x < k ∨ key n ≤ key x))

omit [DecidableEq ν] in
theorem Search.closest (h : Search key sp t) (hn : RootNear k (t.map key)) : Closest key k t.toList sp.root := by
  cases t with
  | null =>
    have hroot : sp.root = none := h.points
    rw [hroot]
    rfl
  | node l n r =>
    have hroot : sp.root = some n := h.points.1
    have hs := h.sorted
    have hmap : ((Tree.node l n r).map key).toList.Pairwise (· < ·) := by
      rw [Tree.toList_map]
      exact hs
    have hkey := hn.rootKey_eq hmap
    rw [Tree.toList_map] at hkey
    simp only [Tree.toList_node, List.map_append, List.map_cons, List.pairwise_append, List.pairwise_cons] at hs
    obtain ⟨-,⟨hr,-⟩,hl⟩ := hs
    have hlt : ∀ x ∈ l.toList, key x < key n := fun x hx =>
      hl (key x) (List.mem_map_of_mem hx) (key n) List.mem_cons_self
    have hgt : ∀ x ∈ r.toList, key n < key x := fun x hx => hr (key x) (List.mem_map_of_mem hx)
    rw [hroot]
    refine ⟨by simp,fun hx => ?_,fun hx => ?_⟩
    · exact Option.some.inj (hkey.mpr (List.mem_map.mpr hx))
    · simp only [Tree.toList_node, List.mem_append, List.mem_cons] at hx ⊢
      rcases hn with hk | ⟨hk,hside⟩ | ⟨hk,hside⟩
      · exact absurd hk.symm (hx n (by simp))
      · refine Or.inr ⟨hk,?_⟩
        rintro x (hm | rfl | hm)
        · exact Or.inl (hside (key x) (by simpa using ⟨x,hm,rfl⟩))
        · exact Or.inr le_rfl
        · exact Or.inr (hgt x hm).le
      · refine Or.inl ⟨hk,?_⟩
        rintro x (hm | rfl | hm)
        · exact Or.inl (hlt x hm).le
        · exact Or.inl le_rfl
        · exact Or.inr (hside (key x) (by simpa using ⟨x,hm,rfl⟩))

end Splay

/-! ## A finite map -/

section Map
variable {κ : Type*} [LinearOrder κ] {key : ν → κ} {k : κ}

/-- The calls of the three functions. -/
inductive Call (ν κ : Type*)
  | insert (node : ν)
  | remove (key : κ)
  | lookup (key : κ)

/-- What the calls do to a map from keys to nodes. -/
def mapCall (key : ν → κ) (m : κ → Option ν) : Call ν κ → (κ → Option ν) × Answer ν
  | .insert node =>
    match m (key node) with
    | none => (Function.update m (key node) (some node),.done)
    | some _ => (m,.duplicate)
  | .remove k => (Function.update m k none,.done)
  | .lookup k => (m,.found (m k))

/-- What they do to the pointers. -/
def call (key : ν → κ) (fuel : ℕ) (sp : NodeTree ν) : Call ν κ → Option (NodeTree ν × Answer ν)
  | .insert node => sp.splayTreeInsert key node fuel
  | .remove k => sp.splayTreeRemove key k fuel
  | .lookup k => sp.splayTreeLookup key k fuel

/-- The nodes of the tree are the entries of the map. -/
def Entries (key : ν → κ) (t : Tree ν) (m : κ → Option ν) : Prop := ∀ k n, m k = some n ↔ n ∈ t.toList ∧ key n = k

/-- The pointers stand for the map, with at most so many nodes. -/
def Holds (key : ν → κ) (size : ℕ) (sp : NodeTree ν) (m : κ → Option ν) : Prop :=
  ∃ t, Search key sp t ∧ Entries key t m ∧ t.size ≤ size

omit [DecidableEq ν] [LinearOrder κ] in
theorem Entries.none_iff {m : κ → Option ν} (h : Entries key t m) : m k = none ↔ ∀ n ∈ t.toList, key n ≠ k := by
  rw [Option.eq_none_iff_forall_not_mem]
  exact forall_congr' fun n => (not_congr (h k n)).trans not_and

omit [DecidableEq ν] in
/-- A new node joins the map. -/
theorem Entries.insert {m : κ → Option ν} {t' : Tree ν} (h : Entries key t m) (hnew : m (key n) = none)
    (hl : ∀ x, x ∈ t'.toList ↔ x = n ∨ x ∈ t.toList) : Entries key t' (Function.update m (key n) (some n)) := by
  intro k x
  rw [hl, Function.update_apply]
  have habsent := h.none_iff.mp hnew
  split
  · next hk =>
    subst hk
    rw [Option.some.injEq]
    constructor
    · rintro rfl
      exact ⟨Or.inl rfl,rfl⟩
    · rintro ⟨rfl | hx,hkey⟩
      · rfl
      · exact absurd hkey (habsent x hx)
  · next hk =>
    rw [h k x]
    constructor
    · rintro ⟨hx,hkey⟩
      exact ⟨Or.inr hx,hkey⟩
    · rintro ⟨rfl | hx,hkey⟩
      · exact absurd hkey.symm hk
      · exact ⟨hx,hkey⟩

omit [DecidableEq ν] in
/-- The nodes with a key leave the map. -/
theorem Entries.remove {m : κ → Option ν} {t' : Tree ν} (h : Entries key t m)
    (hl : ∀ x, x ∈ t'.toList ↔ x ∈ t.toList ∧ key x ≠ k) : Entries key t' (Function.update m k none) := by
  intro k' x
  rw [hl, Function.update_apply]
  split
  · next hk =>
    subst hk
    simp only [reduceCtorEq, false_iff]
    tauto
  · next hk =>
    rw [h k' x]
    constructor
    · rintro ⟨hx,rfl⟩
      exact ⟨⟨hx,hk⟩,rfl⟩
    · rintro ⟨⟨hx,-⟩,hkey⟩
      exact ⟨hx,hkey⟩

/-- Every call begins with a splay, which keeps the map. -/
theorem Holds.splay {m : κ → Option ν} {size fuel : ℕ} (k : κ) (h : Holds key size sp m) (hf : 2 * size + 2 ≤ fuel) :
    ∃ sp' t', sp.splayTreeSplay key k fuel = some sp' ∧ Search key sp' t' ∧ Entries key t' m ∧ t'.size ≤ size ∧
      RootNear k (t'.map key) := by
  obtain ⟨t,hs,hm,hsize⟩ := h
  have hfuel : 2 * t.size + 2 ≤ fuel := by omega
  obtain ⟨sp',t',hsplay,hs',hl,hnear⟩ := splayTreeSplay_points k hs hfuel
  have hsize' : t'.size = t.size := by rw [Tree.size_eq_length, Tree.size_eq_length, hl]
  refine ⟨sp',t',hsplay,hs',?_,by omega,hnear⟩
  unfold Entries
  rw [hl]
  exact hm

omit [DecidableEq ν] in
/-- The map at the key, read off the root. -/
theorem Search.root_entry {m : κ → Option ν} (hs : Search key sp t) (hm : Entries key t m) (hn : RootNear k (t.map key)) :
    m k = sp.root.filter fun n => decide (key n = k) := by
  have hclose := hs.closest hn
  cases hroot : sp.root with
  | none =>
    rw [hroot] at hclose
    exact hm.none_iff.mpr (by simp [show t.toList = [] from hclose])
  | some n =>
    rw [hroot] at hclose
    obtain ⟨hmem,hfound,-⟩ := hclose
    by_cases hk : key n = k
    · simpa [Option.filter, hk] using (hm k n).mpr ⟨hmem,hk⟩
    · have hnone : m k = none := hm.none_iff.mpr fun x hx he => hk (hfound ⟨x,hx,he⟩)
      simpa [Option.filter, hk] using hnone

/-- splay_tree_lookup. -/
theorem splayTreeLookup_holds {m : κ → Option ν} {size fuel : ℕ} (h : Holds key size sp m) (hf : 2 * size + 2 ≤ fuel) :
    ∃ sp', sp.splayTreeLookup key k fuel = some (sp',.found (m k)) ∧ Holds key size sp' m := by
  obtain ⟨sp',t,hsplay,hs,hm,hsize,hnear⟩ := h.splay k hf
  refine ⟨sp',?_,t,hs,hm,hsize⟩
  rw [hs.root_entry hm hnear]
  unfold splayTreeLookup
  rw [hsplay]
  cases hroot : sp'.root with
  | none => simp [hroot]
  | some n => by_cases hk : key n = k <;> simp [Option.filter, hroot, hk]

/-- The new node goes above the old root, which keeps one side. -/
theorem Points.insert (h : Points sp sp.root (.node l q r)) (hd : (Tree.node l q r).toList.Nodup)
    (hn : n ∉ (Tree.node l q r).toList) :
    Points { ((sp.setLeft n (some q)).setRight n (sp.right q)).setRight q none with root := some n } (some n)
      (.node (.node l q .null) n r) ∧
    Points { ((sp.setRight n (some q)).setLeft n (sp.left q)).setLeft q none with root := some n } (some n)
      (.node l n (.node .null q r)) := by
  obtain ⟨-,hl,hr⟩ := h
  obtain ⟨-,-,hql,hqr,hlr⟩ := nodup_sides hd
  simp only [Tree.toList_node, List.mem_append, List.mem_cons, not_or] at hn
  obtain ⟨hnl,hne,hnr⟩ := hn
  constructor
  · apply Points.setRoot
    refine ⟨rfl,?_,?_⟩
    · refine ⟨Function.update_self _ _ _,?_,Function.update_self _ _ _⟩
      have hleft : (((sp.setLeft n (some q)).setRight n (sp.right q)).setRight q none).left q = sp.left q :=
        Function.update_of_ne (Ne.symm hne) _ _
      rw [hleft]
      exact ((hl.setLeft hnl _).setRight hnl _).setRight hql _
    · have hright : (((sp.setLeft n (some q)).setRight n (sp.right q)).setRight q none).right n = sp.right q :=
        (Function.update_of_ne hne _ _).trans (Function.update_self _ _ _)
      rw [hright]
      exact ((hr.setLeft hnr _).setRight hnr _).setRight hqr _
  · apply Points.setRoot
    refine ⟨rfl,?_,?_⟩
    · have hleft : (((sp.setRight n (some q)).setLeft n (sp.left q)).setLeft q none).left n = sp.left q :=
        (Function.update_of_ne hne _ _).trans (Function.update_self _ _ _)
      rw [hleft]
      exact ((hl.setRight hnl _).setLeft hnl _).setLeft hql _
    · refine ⟨Function.update_self _ _ _,Function.update_self _ _ _,?_⟩
      have hright : (((sp.setRight n (some q)).setLeft n (sp.left q)).setLeft q none).right q = sp.right q :=
        Function.update_of_ne (Ne.symm hne) _ _
      rw [hright]
      exact ((hr.setRight hnr _).setLeft hnr _).setLeft hqr _

/-- splay_tree_insert of a node whose key is new, or of one whose key is taken. -/
theorem splayTreeInsert_holds {m : κ → Option ν} {size fuel : ℕ} (h : Holds key size sp m) (hf : 2 * size + 2 ≤ fuel) :
    ∃ sp', sp.splayTreeInsert key n fuel = some (sp',(mapCall key m (.insert n)).2) ∧
      Holds key (size + 1) sp' (mapCall key m (.insert n)).1 := by
  obtain ⟨sp',t,hsplay,hs,hm,hsize,hnear⟩ := h.splay (key n) hf
  have hentry := hs.root_entry hm hnear
  unfold splayTreeInsert mapCall
  rw [hsplay, Option.map_some]
  cases t with
  | null =>
    have hroot : sp'.root = none := hs.points
    have hnone : m (key n) = none := by simpa [hroot] using hentry
    simp only [hroot, hnone]
    refine ⟨_,rfl,.node .null n .null,⟨?_,by simp⟩,hm.insert hnone (by simp),by simp [Tree.size]⟩
    apply Points.setRoot
    exact ⟨rfl,Function.update_self _ _ _,Function.update_self _ _ _⟩
  | node l q r =>
    have hroot : sp'.root = some q := hs.points.1
    by_cases hq : key q = key n
    · have hsome : m (key n) = some q := by simpa [Option.filter, hroot, hq] using hentry
      simp only [hroot, hsome, hq, if_true]
      exact ⟨_,rfl,_,hs,hm,by omega⟩
    · have hnone : m (key n) = none := by simpa [Option.filter, hroot, hq] using hentry
      have hfresh : n ∉ (Tree.node l q r).toList := fun hx => hm.none_iff.mp hnone n hx rfl
      have hpts := Points.insert hs.points hs.nodup hfresh
      have hsort : ((Tree.node l q r).map key).toList.Pairwise (· < ·) := by
        rw [Tree.toList_map]
        exact hs.sorted
      have hsides := near_sides hnear hsort hq
      simp only [hroot, hnone, hq, if_false]
      rw [Tree.toList_map, Tree.toList_map] at hsides
      by_cases hlt : key q < key n
      · rw [if_pos hlt] at hsides ⊢
        refine ⟨_,rfl,.node (.node l q .null) n r,⟨hpts.1,?_⟩,hm.insert hnone (fun x => ?_),?_⟩
        · have := sorted_insert (a := l.toList.map key ++ [key q]) (b := r.toList.map key)
            (by simpa [Tree.map] using hsort) hsides.1 hsides.2
          simpa using this
        · simp only [Tree.toList_node, Tree.toList_null, List.mem_append, List.mem_cons, List.not_mem_nil]
          tauto
        · simp only [Tree.size] at hsize ⊢
          omega
      · rw [if_neg hlt] at hsides ⊢
        refine ⟨_,rfl,.node l n (.node .null q r),⟨hpts.2,?_⟩,hm.insert hnone (fun x => ?_),?_⟩
        · have := sorted_insert (a := l.toList.map key) (b := key q :: r.toList.map key)
            (by simpa [Tree.map] using hsort) hsides.1 hsides.2
          simpa using this
        · simp only [Tree.toList_node, Tree.toList_null, List.mem_append, List.mem_cons, List.not_mem_nil]
          tauto
        · simp only [Tree.size] at hsize ⊢
          omega

/-- The walk ends at a leaf, and the tree hung off it continues the order. -/
theorem rightMost_points {fuel : ℕ} (h : Points sp (some n) t) (hd : t.toList.Nodup) (hf : t.size ≤ fuel)
    (hr : Points sp (some q) r) (hdisj : ∀ x ∈ t.toList, x ∉ r.toList) :
    ∃ leaf, sp.rightMost n fuel = some leaf ∧ leaf ∈ t.toList ∧
      Points (sp.setRight leaf (some q)) (some n) (hangRight t r) := by
  induction t generalizing n fuel with
  | null => cases h
  | node l a b _ ih =>
    obtain rfl := Option.some.inj h.1
    obtain ⟨-,hl,hb⟩ := h
    obtain ⟨-,hdb,hnl,hnb,hlb⟩ := nodup_sides hd
    cases fuel with
    | zero => simp [Tree.size] at hf
    | succ fuel =>
      rw [rightMost]
      cases hright : sp.right n with
      | none =>
        obtain rfl := Points.none_iff (hright ▸ hb)
        refine ⟨n,rfl,by simp,rfl,hl.setRight hnl _,?_⟩
        have hset : (sp.setRight n (some q)).right n = some q := Function.update_self _ _ _
        rw [hset]
        exact hr.setRight (hdisj n (by simp)) _
      | some c =>
        have hsize : b.size ≤ fuel := by
          simp only [Tree.size] at hf
          omega
        obtain ⟨leaf,hw,hmem,hpts⟩ := ih (hright ▸ hb) hdb hsize fun x hx => hdisj x (by simp [hx])
        have hne : n ≠ leaf := fun e => hnb (e ▸ hmem)
        refine ⟨leaf,hw,by simp [hmem],rfl,hl.setRight (fun hx => hlb leaf hx hmem) _,?_⟩
        have hset : (sp.setRight leaf (some q)).right n = some c := (Function.update_of_ne hne _ _).trans hright
        rw [hset]
        exact hpts

omit [DecidableEq ν] in
theorem size_hangRight (l r : Tree ν) : (hangRight l r).size = l.size + r.size := by
  simp [Tree.size_eq_length, toList_hangRight]

/-- The root is taken out of the tree. -/
theorem splayTreeRemove_root {fuel : ℕ} (h : Points sp sp.root (.node l n r)) (hd : (Tree.node l n r).toList.Nodup)
    (hf : l.size ≤ fuel) (hk : key n = k) (hsplay : sp'.splayTreeSplay key k fuel = some sp) :
    ∃ sp₁, sp'.splayTreeRemove key k fuel = some (sp₁,.done) ∧ Points sp₁ sp₁.root (hangRight l r) := by
  obtain ⟨hroot,hl,hr⟩ := h
  obtain ⟨hdl,-,-,-,hlr⟩ := nodup_sides hd
  unfold splayTreeRemove
  rw [hsplay, Option.bind_some]
  simp only [hroot, hk, if_true]
  cases hleft : sp.left n with
  | none =>
    obtain rfl := Points.none_iff (hleft ▸ hl)
    exact ⟨_,rfl,hr.setRoot _⟩
  | some a =>
    cases hright : sp.right n with
    | none =>
      obtain rfl := Points.none_iff (hright ▸ hr)
      have hnull : hangRight l .null = l := by
        clear hl hlr hd hdl hf
        induction l with
        | null => rfl
        | node l b c _ ih => rw [hangRight, ih]
      refine ⟨_,rfl,?_⟩
      rw [hnull]
      exact (hleft ▸ hl).setRoot _
    | some b =>
      obtain ⟨leaf,hw,-,hpts⟩ := rightMost_points (hleft ▸ hl) hdl hf (hright ▸ hr) hlr
      refine ⟨{ sp.setRight leaf (some b) with root := some a },?_,hpts.setRoot _⟩
      simp only [hw, Option.map_some]

/-- splay_tree_remove. -/
theorem splayTreeRemove_holds {m : κ → Option ν} {size fuel : ℕ} (h : Holds key size sp m) (hf : 2 * size + 2 ≤ fuel) :
    ∃ sp', sp.splayTreeRemove key k fuel = some (sp',.done) ∧ Holds key size sp' (Function.update m k none) := by
  obtain ⟨sp',t,hsplay,hs,hm,hsize,hnear⟩ := h.splay k hf
  have hentry := hs.root_entry hm hnear
  have stay : sp'.root.filter (fun n => decide (key n = k)) = none →
      Holds key size sp' (Function.update m k none) := by
    intro hnone
    rw [hnone] at hentry
    exact ⟨t,hs,hm.remove fun x => ⟨fun hx => ⟨hx,hm.none_iff.mp hentry x hx⟩,And.left⟩,hsize⟩
  cases t with
  | null =>
    have hroot : sp'.root = none := hs.points
    refine ⟨sp',?_,stay (by rw [hroot]; rfl)⟩
    simp [splayTreeRemove, hsplay, hroot]
  | node l n r =>
    have hroot : sp'.root = some n := hs.points.1
    by_cases hk : key n = k
    · have hlsize : l.size ≤ fuel := by
        simp only [Tree.size] at hsize
        omega
      obtain ⟨sp₁,hrem,hpts⟩ := splayTreeRemove_root hs.points hs.nodup hlsize hk hsplay
      have hsort := hs.sorted
      simp only [Tree.toList_node, List.map_append, List.map_cons, List.pairwise_append, List.pairwise_cons] at hsort
      obtain ⟨hsl,⟨hgt,hsr⟩,hlt⟩ := hsort
      refine ⟨sp₁,hrem,hangRight l r,⟨hpts,?_⟩,hm.remove fun x => ?_,?_⟩
      · rw [toList_hangRight, List.map_append, List.pairwise_append]
        exact ⟨hsl,hsr,fun a ha b hb => hlt a ha b (List.mem_cons_of_mem _ hb)⟩
      · have hx1 : x ∈ l.toList → key x ≠ k := fun hx =>
          (hk ▸ hlt (key x) (List.mem_map_of_mem hx) (key n) List.mem_cons_self).ne
        have hx2 : x ∈ r.toList → key x ≠ k := fun hx => (hk ▸ hgt (key x) (List.mem_map_of_mem hx)).ne'
        simp only [toList_hangRight, Tree.toList_node, List.mem_append, List.mem_cons]
        constructor
        · rintro (hx | hx)
          · exact ⟨Or.inl hx,hx1 hx⟩
          · exact ⟨Or.inr (Or.inr hx),hx2 hx⟩
        · rintro ⟨hx | rfl | hx,hne⟩
          · exact Or.inl hx
          · exact absurd hk hne
          · exact Or.inr hx
      · rw [size_hangRight]
        simp only [Tree.size] at hsize
        omega
    · refine ⟨sp',?_,stay (by simp [Option.filter, hroot, hk])⟩
      simp [splayTreeRemove, hsplay, hroot, hk]

/-- One call on the pointers is the call on the map. -/
theorem call_holds {m : κ → Option ν} {size fuel : ℕ} (h : Holds key size sp m) (hf : 2 * size + 2 ≤ fuel)
    (c : Call ν κ) : ∃ sp', sp.call key fuel c = some (sp',(mapCall key m c).2) ∧
      Holds key (size + 1) sp' (mapCall key m c).1 := by
  have more : ∀ {sp' : NodeTree ν} {m' : κ → Option ν}, Holds key size sp' m' → Holds key (size + 1) sp' m' := by
    rintro sp' m' ⟨t,hs,hm,hsize⟩
    exact ⟨t,hs,hm,by omega⟩
  cases c with
  | insert node => exact splayTreeInsert_holds h hf
  | remove k =>
    obtain ⟨sp',hcall,hh⟩ := splayTreeRemove_holds h hf
    exact ⟨sp',hcall,more hh⟩
  | lookup k =>
    obtain ⟨sp',hcall,hh⟩ := splayTreeLookup_holds h hf
    exact ⟨sp',hcall,more hh⟩

/-- A program of calls, with the answers so far; the fatal error ends it. -/
def step (key : ν → κ) (fuel : ℕ) (s : NodeTree ν × List (Answer ν)) (c : Call ν κ) :
    Option (NodeTree ν × List (Answer ν)) :=
  if .duplicate ∈ s.2 then none else (s.1.call key fuel c).map fun (sp,a) => (sp,s.2 ++ [a])

/-- The same program on the map. -/
def mapStep (key : ν → κ) (s : (κ → Option ν) × List (Answer ν)) (c : Call ν κ) :
    Option ((κ → Option ν) × List (Answer ν)) :=
  if .duplicate ∈ s.2 then none else some ((mapCall key s.1 c).1,s.2 ++ [(mapCall key s.1 c).2])

theorem run_holds {fuel : ℕ} (cs : List (Call ν κ)) {m : κ → Option ν} {size : ℕ} {as : List (Answer ν)}
    (h : Holds key size sp m) (hf : 2 * (size + cs.length) + 2 ≤ fuel) :
    Option.Rel (fun s a => s.2 = a.2 ∧ Holds key (size + cs.length) s.1 a.1) (run (step key fuel) (sp,as) cs)
      (run (mapStep key) (m,as) cs) := by
  induction cs generalizing sp m size as with
  | nil => exact Option.Rel.some ⟨rfl,h⟩
  | cons c cs ih =>
    rw [List.length_cons] at hf ⊢
    simp only [run, step, mapStep]
    split
    · exact Option.Rel.none
    · have hfuel : 2 * size + 2 ≤ fuel := by omega
      obtain ⟨sp',hcall,hh⟩ := call_holds h hfuel c
      rw [hcall, show size + (cs.length + 1) = size + 1 + cs.length by omega]
      exact ih hh (by omega)

/-- splay_tree_splay ends on every binary search tree and every key, keeps the nodes in their order and leaves the
node with the key, or a neighbour of the key, at the root.  So any program of insertions, removals and lookups has the
answers of a finite map from keys to nodes. -/
theorem splay_tree_finite_map {sp : NodeTree ν} {t : Tree ν} (h : Search key sp t) :
    (∀ k fuel, 2 * t.size + 2 ≤ fuel → ∃ sp' t', sp.splayTreeSplay key k fuel = some sp' ∧ Search key sp' t' ∧
      t'.toList = t.toList ∧ Closest key k t.toList sp'.root) ∧
    ∀ m, Entries key t m → ∀ cs fuel, 2 * (t.size + cs.length) + 2 ≤ fuel →
      Option.Rel (fun s a => s.2 = a.2 ∧ Holds key (t.size + cs.length) s.1 a.1) (run (step key fuel) (sp,[]) cs)
        (run (mapStep key) (m,[]) cs) := by
  constructor
  · intro k fuel hf
    obtain ⟨sp',t',hsplay,hs,hl,hnear⟩ := splayTreeSplay_points k h hf
    exact ⟨sp',t',hsplay,hs,hl,hl ▸ hs.closest hnear⟩
  · intro m hm cs fuel hf
    exact run_holds cs ⟨t,h,hm,le_rfl⟩ hf

end Map

/-- Three nodes named by numbers, with the keys 10, 20 and 30, in a chain to the left. -/
def leftChain : NodeTree ℕ where
  root := some 3
  left n := if n = 3 then some 2 else if n = 2 then some 1 else none
  right _ := none

theorem leftChain_search : Search (· * 10) leftChain (.node (.node (.node .null 1 .null) 2 .null) 3 .null) :=
  ⟨by simp [Points, leftChain],by decide⟩

/-- After a removal and a lookup that misses, the node can be inserted again. -/
theorem splay_tree_finite_map_leftChain :
    (∃ sp' t', leftChain.splayTreeSplay (· * 10) 10 8 = some sp' ∧ Search (· * 10) sp' t' ∧ t'.toList = [1,2,3] ∧
      Closest (· * 10) 10 [1,2,3] sp'.root) ∧
    (run (step (· * 10) 16) (leftChain,[]) [.remove 20,.lookup 20,.insert 2,.lookup 20]).map (·.2) =
      some [.done,.found none,.done,.found (some 2)] := by
  obtain ⟨h1,-⟩ := splay_tree_finite_map leftChain_search
  exact ⟨h1 10 8 (by decide),by decide⟩

end NodeTree

end GompUlt.Queue
