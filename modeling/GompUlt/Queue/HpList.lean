import GompUlt.Queue.SplayTree

/-! # The list of marked nodes keeps track of the highest one

The nodes are linked in the order of their keys, and highest_marked is the last marked
node of that order.
-/
namespace GompUlt.Queue
open LinkChain

variable {κ : Type*} [LinearOrder κ]

/-- What the HP-LIST fields say about the nodes of the tree. -/
structure HpInv (sp : SplayTree κ) : Prop where
  sorted : sp.root.toList.Pairwise (· < ·)
  chain : Linked sp.fields sp.root.toList
  numMarked : sp.numMarked = (sp.root.toList.countP sp.marked : ℕ)
  highestMarked : sp.highestMarked = (sp.root.toList.filter sp.marked).getLast?

variable {sp : SplayTree κ} {key : κ} {a b : List κ}

theorem hpInv_null (h : sp.root = .null) (hn : sp.numMarked = 0) (hm : sp.highestMarked = none) : HpInv sp := by
  refine ⟨?_,?_,?_,?_⟩ <;> simp [h, hn, hm, linked_nil]

theorem HpInv.splay (hi : HpInv sp) (key : κ) : HpInv (sp.splay key) := by
  have hl := splay_toList hi.sorted key
  refine ⟨hl ▸ hi.sorted,hl ▸ hi.chain,?_,?_⟩
  · rw [hl]
    exact hi.numMarked
  · rw [hl]
    exact hi.highestMarked

/-- An empty tree has no highest node. -/
theorem HpInv.null (hi : HpInv sp) (h : sp.root = .null) : sp.numMarked = 0 ∧ sp.highestMarked = none := by
  refine ⟨?_,?_⟩
  · simp [hi.numMarked, h]
  · simp [hi.highestMarked, h]

/-- The walk along prev finds the last marked node before the one it starts from.  It reads
the prev fields of the nodes up to there only. -/
theorem walkMarked_eq {fields : Fields κ} (marked : κ → Bool)
    (hp : ∀ c x d, a ++ [key] = c ++ x :: d → fields.prev x = c.getLast?) {fuel : ℕ} (hf : a.length < fuel) :
    walkMarked fields marked fuel key = (a.filter marked).getLast? := by
  induction fuel generalizing a key with
  | zero => omega
  | succ fuel ih =>
    rw [walkMarked, hp a key [] rfl]
    rcases List.eq_nil_or_concat a with rfl | ⟨a,p,rfl⟩
    · simp
    · rw [List.concat_eq_append] at hp hf ⊢
      simp only [List.getLast?_append, List.getLast?_singleton, Option.some_or]
      have hrec : walkMarked fields marked fuel p = (a.filter marked).getLast? := by
        refine ih (fun c x d e => hp c x (d ++ [key]) (by simp [e])) ?_
        simp at hf
        omega
      by_cases hm : marked p
      · simp [hm, List.filter_append]
      · simp [hm, List.filter_append, hrec]

section Mark
variable {marked : κ → Bool}

private theorem filter_update (hn : key ∉ a) (v : Bool) :
    a.filter (Function.update marked key v) = a.filter marked := by
  refine List.filter_congr fun x hx => ?_
  rw [Function.update_of_ne (by rintro rfl; exact hn hx)]

private theorem countP_update (hn : key ∉ a) (v : Bool) :
    a.countP (Function.update marked key v) = a.countP marked := by
  rw [List.countP_eq_length_filter, List.countP_eq_length_filter, filter_update hn]

private theorem not_mem_sides (hs : (a ++ key :: b).Pairwise (· < ·)) : key ∉ a ∧ key ∉ b := by
  have hn := (List.nodup_cons.mp (List.nodup_middle.mp (sorted_nodup hs))).1
  simpa [not_or] using hn

/-- The highest of the marked nodes once the key is marked too. -/
private theorem highest_insert (hs : (a ++ key :: b).Pairwise (· < ·)) {old : Option κ}
    (ho : old = ((a ++ b).filter marked).getLast?) :
    (a.filter marked ++ key :: b.filter marked).getLast? =
      if (match old with | none => true | some m => decide (m < key)) then some key else old := by
  simp only [List.pairwise_append, List.pairwise_cons, List.mem_cons] at hs
  obtain ⟨_,⟨hb,_⟩,ha⟩ := hs
  rw [List.filter_append] at ho
  rcases List.eq_nil_or_concat (b.filter marked) with hbm | ⟨c,y,hbm⟩
  · rw [hbm] at ho ⊢
    simp only [List.append_nil] at ho
    rw [List.getLast?_append_cons, List.getLast?_singleton]
    cases old with
    | none => simp
    | some m =>
      have hm : m ∈ a := (List.mem_filter.mp (List.mem_of_getLast? ho.symm)).1
      simp [ha m hm key (.inl rfl)]
  · have hy : y ∈ b := (List.mem_filter.mp (hbm ▸ by simp : y ∈ b.filter marked)).1
    rw [hbm] at ho ⊢
    obtain rfl : old = some y := by simpa [List.getLast?_append] using ho
    simp [(hb y hy).not_gt, List.getLast?_append, List.getLast?_cons]

/-- Marking a node of which the counters know nothing yet. -/
private theorem setMark_hpInv (sp : SplayTree κ) (hk : sp.root.toList = a ++ key :: b) (hs : (a ++ key :: b).Pairwise (· < ·))
    (hc : Linked sp.fields (a ++ key :: b)) (hn : sp.numMarked = ((a ++ b).countP sp.marked : ℕ))
    (hh : sp.highestMarked = ((a ++ b).filter sp.marked).getLast?) : HpInv (sp.setMark key).1 := by
  obtain ⟨ha,hb⟩ := not_mem_sides hs
  refine ⟨hk ▸ hs,hk ▸ hc,?_,?_⟩
  · simp only [SplayTree.setMark, hk, hn, List.countP_append, List.countP_cons, Function.update_self,
      countP_update ha, countP_update hb, if_true]
    push_cast
    omega
  · simp only [SplayTree.setMark, hk, List.filter_append, List.filter_cons, Function.update_self,
      filter_update ha, filter_update hb, if_true]
    rw [highest_insert hs hh]
    rfl

private theorem unmarked_hpInv (sp : SplayTree κ) (hk : sp.root.toList = a ++ key :: b) (hs : (a ++ key :: b).Pairwise (· < ·))
    (hc : Linked sp.fields (a ++ key :: b)) (hn : sp.numMarked = ((a ++ b).countP sp.marked : ℕ))
    (hh : sp.highestMarked = ((a ++ b).filter sp.marked).getLast?) :
    HpInv { sp with marked := Function.update sp.marked key false } := by
  obtain ⟨ha,hb⟩ := not_mem_sides hs
  refine ⟨hk ▸ hs,hk ▸ hc,?_,?_⟩
  · simp [hk, hn, countP_update ha, countP_update hb]
  · simp [hk, hh, List.filter_append, filter_update ha, filter_update hb]

/-- The highest node is the given one only when no node above it is marked, and otherwise
it stays the highest without it. -/
private theorem highest_cases (hs : (a ++ key :: b).Pairwise (· < ·)) {high : Option κ}
    (hh : high = ((a ++ key :: b).filter marked).getLast?) :
    if high = some key then b.filter marked = [] else high = ((a ++ b).filter marked).getLast? := by
  obtain ⟨_,hb⟩ := not_mem_sides hs
  rw [List.filter_append, List.filter_cons] at hh
  rw [List.filter_append]
  rcases List.eq_nil_or_concat (b.filter marked) with hbm | ⟨c,y,hbm⟩
  · split
    · exact hbm
    · next hne =>
      cases hm : marked key with
      | true => simp [hh, hm, hbm] at hne
      | false => simpa [hm] using hh
  · have hy : y ∈ b := (List.mem_filter.mp (hbm ▸ by simp : y ∈ b.filter marked)).1
    have hlast : high = some y := by
      cases hm : marked key <;> simp [hh, hm, hbm, List.getLast?_append, List.getLast?_cons]
    have hne : y ≠ key := by rintro rfl; exact hb hy
    simp [hlast, hne, hbm]

omit [LinearOrder κ] in
/-- The search below the node that was the highest one. -/
private theorem highest_below {m : κ → Bool} (hbm : b.filter m = []) {w : Option κ}
    (hw : w = (a.filter m).getLast?) {n : ℤ} (hn : n = ((a ++ b).countP m : ℕ)) :
    (if n > 0 then w else none) = ((a ++ b).filter m).getLast? := by
  rw [List.filter_append, hbm, List.append_nil, ← hw]
  split
  · rfl
  · next hz =>
    rw [List.countP_append] at hn
    have hfa : a.filter m = [] :=
      List.eq_nil_of_length_eq_zero (by rw [← List.countP_eq_length_filter]; omega)
    simp [hw, hfa]

end Mark

theorem setMark_ret (h : (sp.setMark key).2 = false) : (sp.setMark key).1.highestMarked = sp.highestMarked := by
  have ho : sp.overtakes key = false := h
  simp [SplayTree.setMark, ho]

/-- The tree after a change of marks: a returned flag that is not set promises that the
highest node is the old one. -/
structure Marks (sp : SplayTree κ) (marked : κ → Bool) (r : SplayTree κ × Bool) : Prop where
  inv : HpInv r.1
  marked_eq : r.1.marked = marked
  ret : r.2 = false → r.1.highestMarked = sp.highestMarked

/-- splay_tree_hp_list_mark_node sets the mark of one node. -/
theorem splayTreeHpListMarkNode_marks (hi : HpInv sp) (hk : key ∈ sp.root.toList) (isMarked : Bool) :
    Marks sp (Function.update sp.marked key isMarked) (splayTreeHpListMarkNode sp key isMarked) := by
  obtain ⟨a,b,hab⟩ := List.append_of_mem hk
  have hs : (a ++ key :: b).Pairwise (· < ·) := hab ▸ hi.sorted
  have hc : Linked sp.fields (a ++ key :: b) := hab ▸ hi.chain
  obtain ⟨ha,hb⟩ := not_mem_sides hs
  have hn := hi.numMarked
  rw [hab, List.countP_append, List.countP_cons] at hn
  cases isMarked with
  | true =>
    cases hm : sp.marked key with
    | true =>
      have hup : Function.update sp.marked key true = sp.marked := by rw [← hm, Function.update_eq_self]
      have he : splayTreeHpListMarkNode sp key true = (sp,false) := by simp [splayTreeHpListMarkNode, hm]
      rw [he]
      exact ⟨hi,hup.symm,fun _ => rfl⟩
    | false =>
      have he : splayTreeHpListMarkNode sp key true = sp.setMark key := by simp [splayTreeHpListMarkNode, hm]
      rw [he]
      refine ⟨setMark_hpInv sp hab hs hc ?_ ?_,rfl,setMark_ret⟩
      · simpa [hm, List.countP_append] using hn
      · simpa [hab, hm, List.filter_append] using hi.highestMarked
  | false =>
    cases hm : sp.marked key with
    | false =>
      have hup : Function.update sp.marked key false = sp.marked := by rw [← hm, Function.update_eq_self]
      have he : splayTreeHpListMarkNode sp key false = (sp,false) := by simp [splayTreeHpListMarkNode, hm]
      rw [he]
      exact ⟨hi,hup.symm,fun _ => rfl⟩
    | true =>
      have hcount : sp.numMarked - 1 = ((a ++ b).countP sp.marked : ℕ) := by
        rw [hn, List.countP_append, hm]
        simp
        omega
      have hcases := highest_cases hs (hab ▸ hi.highestMarked)
      by_cases hhigh : sp.highestMarked = some key
      · rw [if_pos hhigh] at hcases
        have hlen : a.length < sp.root.size := by simp [Tree.size_eq_length, hab]
        have hprev : ∀ c x d, a ++ [key] = c ++ x :: d → sp.fields.prev x = c.getLast? := fun c x d e =>
          hc.prev_eq c x (d ++ b) (by rw [← List.cons_append, ← List.append_assoc, ← e]; simp)
        have hwalk := walkMarked_eq (Function.update sp.marked key false) hprev hlen
        rw [filter_update ha] at hwalk
        rw [splayTreeHpListMarkNode, if_neg (by simp), if_pos hm, if_pos hhigh]
        exact ⟨unmarked_hpInv { sp with numMarked := _, highestMarked := _ } hab hs hc hcount
          (highest_below hcases hwalk hcount),rfl,by simp⟩
      · rw [if_neg hhigh] at hcases
        rw [splayTreeHpListMarkNode, if_neg (by simp), if_pos hm, if_neg hhigh]
        exact ⟨unmarked_hpInv { sp with numMarked := sp.numMarked - 1 } hab hs hc hcount hcases,rfl,fun _ => rfl⟩

/-- splay_tree_hp_list_mark_node leaves the shape of the tree alone. -/
@[simp] theorem splayTreeHpListMarkNode_root (sp : SplayTree κ) (key : κ) (isMarked : Bool) :
    (splayTreeHpListMarkNode sp key isMarked).1.root = sp.root := by
  simp only [splayTreeHpListMarkNode]
  split_ifs <;> rfl

@[simp] theorem place_root (sp : SplayTree κ) (t : Tree κ) (f : Fields κ) (key : κ) (isMarked : Bool) :
    (sp.place t f key isMarked).1.root = t := by cases isMarked <;> rfl

theorem place_ret {t : Tree κ} {f : Fields κ} {isMarked : Bool} (hm : isMarked = false) :
    (sp.place t f key isMarked).2 = false := by
  subst hm
  rfl

private theorem place_marks {t : Tree κ} {f : Fields κ} (hi : HpInv sp) (hk : sp.root.toList = a ++ b)
    (ht : t.toList = a ++ key :: b) (hs : (a ++ key :: b).Pairwise (· < ·)) (hc : Linked f (a ++ key :: b))
    (isMarked : Bool) : Marks sp (Function.update sp.marked key isMarked) (sp.place t f key isMarked) := by
  have hn := hi.numMarked
  have hh := hi.highestMarked
  rw [hk] at hn hh
  cases isMarked with
  | true => exact ⟨setMark_hpInv { sp with root := t, fields := f } ht hs hc hn hh,rfl,setMark_ret⟩
  | false =>
    exact ⟨unmarked_hpInv { sp with root := t, fields := f } ht hs hc hn hh,rfl,fun _ => rfl⟩

/-- splay_tree_hp_list_insert links a new node in the order of the keys. -/
theorem splayTreeHpListInsert_marks (hi : HpInv sp) (hk : key ∉ sp.root.toList) (isMarked : Bool) :
    ∃ r, splayTreeHpListInsert sp key isMarked = some r ∧
      Marks sp (Function.update sp.marked key isMarked) r ∧ (isMarked = false → r.2 = false) ∧
      r.1.root ≠ .null ∧ ∀ x, x ∈ r.1.root.toList ↔ x = key ∨ x ∈ sp.root.toList := by
  have hi' := hi.splay key
  have hl := splay_toList hi.sorted key
  have hnear := splay_near hi.sorted key
  have hs := hi'.sorted
  have hc := hi'.chain
  rw [← hl] at hk ⊢
  cases ht : (sp.splay key).root with
  | null =>
    simp only [splayTreeHpListInsert, ht]
    have hone : Linked (((sp.splay key).fields.setPrev key none).setNext key none) [key] :=
      linked_singleton (by simp) (by simp)
    have hm := place_marks (a := []) (b := []) (t := .node .null key .null) hi' (by simp [ht]) (by simp)
      (by simp) hone isMarked
    exact ⟨_,rfl,⟨hm.inv,hm.marked_eq,hm.ret⟩,place_ret,by simp,by simp⟩
  | node l k r =>
    rw [ht] at hs hk hnear hc
    have hne : k ≠ key := by rintro rfl; simp at hk
    have hsides := near_sides hnear hs hne
    by_cases hlt : k < key
    · rw [if_pos hlt] at hsides
      have hsort := sorted_insert (a := l.toList ++ [k]) (b := r.toList) (by simpa using hs) hsides.1 hsides.2
      have hchain := hc.insertAfter hk
      simp only [splayTreeHpListInsert, ht, hne, hlt, if_true, if_false]
      have hm := place_marks (t := .node (.node l k .null) key r) hi' (by simp [ht]) (by simp) hsort
        (by simpa using hchain) isMarked
      refine ⟨_,rfl,⟨hm.inv,hm.marked_eq,hm.ret⟩,place_ret,by simp,fun x => ?_⟩
      simp only [place_root, Tree.toList_node, Tree.toList_null, List.mem_append, List.mem_cons]
      tauto
    · rw [if_neg hlt] at hsides
      have hsort := sorted_insert (by simpa using hs) hsides.1 hsides.2
      have hchain := hc.insertBefore hk
      simp only [splayTreeHpListInsert, ht, hne, hlt, if_false]
      have hm := place_marks (t := .node l key (.node .null k r)) hi' (by simp [ht]) (by simp) hsort
        hchain isMarked
      refine ⟨_,rfl,⟨hm.inv,hm.marked_eq,hm.ret⟩,place_ret,by simp,fun x => ?_⟩
      simp only [place_root, Tree.toList_node, Tree.toList_null, List.mem_append, List.mem_cons]
      tauto

/-- splay_tree_hp_list_remove takes a node out and finds the highest of those left. -/
theorem splayTreeHpListRemove_marks (hi : HpInv sp) (hk : sp.root.toList = a ++ key :: b) :
    Marks sp sp.marked (splayTreeHpListRemove sp key) ∧
    (splayTreeHpListRemove sp key).1.root.toList = a ++ b := by
  have hi' := hi.splay key
  have hl := splay_toList hi.sorted key
  have hroot := ((splay_near hi.sorted key).rootKey_eq hi'.sorted).mpr (by simp [hl, hk])
  rw [hk] at hl
  cases ht : (sp.splay key).root with
  | null => simp [ht, Tree.rootKey] at hroot
  | node l k r =>
    rw [ht] at hroot hl
    obtain rfl : k = key := by simpa [Tree.rootKey] using hroot
    have hs : (l.toList ++ k :: r.toList).Pairwise (· < ·) := by simpa [ht] using hi'.sorted
    obtain ⟨rfl,rfl⟩ := cut_unique (sorted_nodup hs) hl
    have hc : Linked sp.fields (l.toList ++ k :: r.toList) := hk ▸ hi.chain
    have hcases := highest_cases hs (hk ▸ hi.highestMarked)
    have hcount : (if sp.marked k then sp.numMarked - 1 else sp.numMarked) =
        ((l.toList ++ r.toList).countP sp.marked : ℕ) := by
      rw [hi.numMarked, hk]
      simp only [List.countP_append, List.countP_cons]
      split
      · omega
      · omega
    have hnd := sorted_nodup hs
    -- taking the node out changes no prev field below it
    have hprev : ∀ c x d, l.toList ++ [k] = c ++ x :: d → (sp.fields.unlink k).prev x = c.getLast? := by
      intro c x d e
      have hx : r.toList.head? ≠ some x := fun hx => by
        have hm : x ∈ l.toList ++ [k] := by simp [e]
        rw [List.append_cons, List.nodup_append] at hnd
        exact hnd.2.2 x hm x (List.mem_of_head? hx) rfl
      rw [unlink_prev, hc.next_mid, if_neg hx]
      exact hc.prev_eq c x (d ++ r.toList) (by rw [← List.cons_append, ← List.append_assoc, ← e]; simp)
    have hlen : l.toList.length < (sp.splay k).root.size := by simp [Tree.size_eq_length, ht]
    have hwalk := walkMarked_eq sp.marked hprev hlen
    simp only [splayTreeHpListRemove, ht, if_true, SplayTree.splay_marked, SplayTree.splay_numMarked,
      SplayTree.splay_highestMarked, SplayTree.splay_fields]
    refine ⟨⟨⟨?_,?_,?_,?_⟩,rfl,?_⟩,toList_hangRight l r⟩
    · rw [toList_hangRight]
      exact hs.sublist (by simp)
    · rw [toList_hangRight]
      exact hc.unlink
    · rw [toList_hangRight]
      exact hcount
    · rw [toList_hangRight]
      by_cases hhigh : sp.highestMarked = some k
      · rw [if_pos hhigh] at hcases
        simp only [if_pos hhigh]
        exact highest_below hcases (ht ▸ hwalk) hcount
      · rw [if_neg hhigh] at hcases
        simp only [if_neg hhigh]
        exact hcases
    · intro h
      exact if_neg (of_decide_eq_false h)

end GompUlt.Queue
