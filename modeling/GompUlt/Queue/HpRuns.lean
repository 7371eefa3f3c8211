import GompUlt.Queue.HpList
import GompUlt.Lib.Run

/-! # Runs of the splay tree with its list of marked nodes

Lookups rotate the tree between the updates.  After every run the list of nodes is the
in-order traversal, and each update tells whether the highest marked node changed.
-/
namespace GompUlt.Queue
open LinkChain Run

/-- The calls on the tree. -/
inductive HpOp (κ : Type*)
  | insert (key : κ) (isMarked : Bool)
  | remove (key : κ)
  | markNode (node : κ) (isMarked : Bool)
  | lookup (key : κ)
  deriving DecidableEq

variable {κ : Type*} [LinearOrder κ]

/-- The tree after a call with the returned value; none stands for the fatal error. -/
def hpExec (sp : SplayTree κ) : HpOp κ → Option (SplayTree κ × Bool)
  | .insert key isMarked => splayTreeHpListInsert sp key isMarked
  | .remove key => some (splayTreeHpListRemove sp key)
  | .markNode node isMarked => some (splayTreeHpListMarkNode sp node isMarked)
  | .lookup key => some (splayTreeLookup sp key)

def hpStep (sp : SplayTree κ) (op : HpOp κ) : Option (SplayTree κ) := (hpExec sp op).map (·.1)

/-- A new node has a fresh key, and only a node of the tree is marked. -/
def HpOp.Allowed (sp : SplayTree κ) : HpOp κ → Prop
  | .insert key _ => key ∉ sp.root.toList
  | .markNode node _ => node ∈ sp.root.toList
  | .remove _ | .lookup _ => True

instance (sp : SplayTree κ) : (op : HpOp κ) → Decidable (op.Allowed sp)
  | .insert key _ => inferInstanceAs (Decidable (key ∉ sp.root.toList))
  | .markNode node _ => inferInstanceAs (Decidable (node ∈ sp.root.toList))
  | .remove _ | .lookup _ => inferInstanceAs (Decidable True)

/-- The calls that return whether highest_marked changed. -/
def HpOp.isUpdate : HpOp κ → Bool
  | .lookup _ => false
  | _ => true

/-- The tree of a zeroed head; the fields of nodes that are not in it are arbitrary. -/
def SplayTree.empty (marked : κ → Bool) (fields : Fields κ) : SplayTree κ := ⟨.null,0,none,marked,fields⟩

/-- The marked node with the largest key, NULL when no node is marked. -/
def SplayTree.IsHighest (sp : SplayTree κ) : Option κ → Prop
  | none => ∀ x ∈ sp.root.toList, sp.marked x = false
  | some m => m ∈ sp.root.toList ∧ sp.marked m = true ∧ ∀ x ∈ sp.root.toList, sp.marked x = true → x ≤ m

variable {sp : SplayTree κ} {key : κ} {isMarked : Bool}

/-- In the order of the keys the last marked node is the largest one. -/
theorem HpInv.isHighest (hi : HpInv sp) : sp.IsHighest sp.highestMarked := by
  have hh := hi.highestMarked
  cases hm : sp.highestMarked with
  | none =>
    rw [hm, eq_comm, List.getLast?_eq_none_iff, List.filter_eq_nil_iff] at hh
    intro x hx
    simpa using hh x hx
  | some m =>
    rw [hm] at hh
    obtain ⟨u,hu⟩ := List.getLast?_eq_some_iff.mp hh.symm
    have hmem : m ∈ sp.root.toList.filter sp.marked := by simp [hu]
    rw [List.mem_filter] at hmem
    refine ⟨hmem.1,hmem.2,?_⟩
    intro x hx hxm
    have hxu : x ∈ u ++ [m] := hu ▸ List.mem_filter.mpr ⟨hx,hxm⟩
    have hsorted : (u ++ [m]).Pairwise (· < ·) := hu ▸ hi.sorted.filter _
    rcases List.mem_append.mp hxu with hxu | hxm
    · exact ((List.pairwise_append.mp hsorted).2.2 x hxu m (by simp)).le
    · exact (List.mem_singleton.mp hxm).le

/-- A node that takes over the mark was not the highest one. -/
theorem setMark_changes (h : (sp.setMark key).2 = true) :
    (sp.setMark key).1.highestMarked ≠ sp.highestMarked := by
  have ho : sp.overtakes key = true := h
  simp only [SplayTree.setMark, ho, if_true]
  intro he
  simp [SplayTree.overtakes, ← he] at ho

theorem place_changes {t : Tree κ} {f : Fields κ} (h : (sp.place t f key isMarked).2 = true) :
    (sp.place t f key isMarked).1.highestMarked ≠ sp.highestMarked := by
  cases isMarked with
  | true => exact @setMark_changes _ _ { sp with root := t, fields := f } key h
  | false => simp [SplayTree.place] at h

theorem splayTreeHpListInsert_changes {r : SplayTree κ × Bool} (he : splayTreeHpListInsert sp key isMarked = some r)
    (h : r.2 = true) : r.1.highestMarked ≠ sp.highestMarked := by
  simp only [splayTreeHpListInsert] at he
  rw [← SplayTree.splay_highestMarked sp key]
  split at he
  · cases he
    exact place_changes h
  · split_ifs at he
    · cases he
      exact place_changes h
    · cases he
      exact place_changes h

/-- A node that leaves the tree or loses its mark is not the highest one any more. -/
theorem HpInv.ne_highest (hi : HpInv sp) (h : key ∈ sp.root.toList → sp.marked key = false) :
    sp.highestMarked ≠ some key := by
  intro he
  have hh := hi.isHighest
  rw [he] at hh
  have hm := h hh.1
  rw [hh.2.1] at hm
  cases hm

theorem splayTreeHpListMarkNode_changes (hi : HpInv sp) (hk : key ∈ sp.root.toList)
    (h : (splayTreeHpListMarkNode sp key isMarked).2 = true) :
    (splayTreeHpListMarkNode sp key isMarked).1.highestMarked ≠ sp.highestMarked := by
  have hm := splayTreeHpListMarkNode_marks hi hk isMarked
  cases isMarked with
  | true =>
    simp only [splayTreeHpListMarkNode, if_true] at h ⊢
    split_ifs at h ⊢
    exact setMark_changes h
  | false =>
    have hhigh : sp.highestMarked = some key := by
      simp only [splayTreeHpListMarkNode] at h
      split_ifs at h with _ hhigh <;> simp_all
    rw [hhigh]
    refine hm.inv.ne_highest fun _ => ?_
    rw [hm.marked_eq]
    simp

/-- Removing a key that is not there only splays. -/
theorem splayTreeHpListRemove_absent (hi : HpInv sp) (hk : key ∉ sp.root.toList) :
    splayTreeHpListRemove sp key = (sp.splay key,false) := by
  have hl := splay_toList hi.sorted key
  simp only [splayTreeHpListRemove]
  cases ht : (sp.splay key).root with
  | null => rfl
  | node l k r =>
    have hne : k ≠ key := by
      rintro rfl
      rw [← hl, ht] at hk
      simp at hk
    simp [hne]

theorem splayTreeHpListRemove_changes (hi : HpInv sp) {a b : List κ} (hk : sp.root.toList = a ++ key :: b)
    (h : (splayTreeHpListRemove sp key).2 = true) :
    (splayTreeHpListRemove sp key).1.highestMarked ≠ sp.highestMarked := by
  obtain ⟨hm,hl⟩ := splayTreeHpListRemove_marks hi hk
  have hhigh : sp.highestMarked = some key := by
    simp only [splayTreeHpListRemove] at h
    split at h
    · cases h
    · split at h
      · next hkey =>
        subst hkey
        exact of_decide_eq_true h
      · cases h
  rw [hhigh]
  refine hm.inv.ne_highest fun hmem => ?_
  rw [hl] at hmem
  have hnd := sorted_nodup hi.sorted
  rw [hk, List.nodup_middle, List.nodup_cons] at hnd
  exact absurd hmem hnd.1

/-- One call: it does not fail, keeps the list and reports a new highest node. -/
theorem hpExec_spec (hi : HpInv sp) {op : HpOp κ} (ha : op.Allowed sp) :
    ∃ r, hpExec sp op = some r ∧ HpInv r.1 ∧
      (op.isUpdate = true → (r.2 = true ↔ r.1.highestMarked ≠ sp.highestMarked)) := by
  have hiff : ∀ {r : SplayTree κ × Bool}, (r.2 = false → r.1.highestMarked = sp.highestMarked) →
      (r.2 = true → r.1.highestMarked ≠ sp.highestMarked) →
      (r.2 = true ↔ r.1.highestMarked ≠ sp.highestMarked) := by
    intro r hf ht
    refine ⟨ht,fun hne => ?_⟩
    by_contra hr
    exact hne (hf (by simpa using hr))
  cases op with
  | insert key isMarked =>
    obtain ⟨r,hr,hm,_⟩ := splayTreeHpListInsert_marks hi ha isMarked
    exact ⟨r,hr,hm.inv,fun _ => hiff hm.ret (splayTreeHpListInsert_changes hr)⟩
  | remove key =>
    refine ⟨_,rfl,?_⟩
    by_cases hk : key ∈ sp.root.toList
    · obtain ⟨a,b,hab⟩ := List.append_of_mem hk
      have hm := (splayTreeHpListRemove_marks hi hab).1
      exact ⟨hm.inv,fun _ => hiff hm.ret (splayTreeHpListRemove_changes hi hab)⟩
    · rw [splayTreeHpListRemove_absent hi hk]
      exact ⟨hi.splay key,fun _ => by simp⟩
  | markNode node isMarked =>
    have hm := splayTreeHpListMarkNode_marks hi ha isMarked
    exact ⟨_,rfl,hm.inv,fun _ => hiff hm.ret (splayTreeHpListMarkNode_changes hi ha)⟩
  | lookup key => exact ⟨_,rfl,hi.splay key,by simp [HpOp.isUpdate]⟩

/-- Allowed calls always return. -/
theorem hpRun_inv {ops : List (HpOp κ)} (hi : HpInv sp) (ha : Along hpStep (fun sp op => op.Allowed sp) sp ops) :
    ∃ sp', run hpStep sp ops = some sp' ∧ HpInv sp' := by
  induction ops generalizing sp with
  | nil => exact ⟨sp,rfl,hi⟩
  | cons op ops ih =>
    obtain ⟨r,hr,hri,_⟩ := hpExec_spec hi ha.1
    have hstep : hpStep sp op = some r.1 := by simp [hpStep, hr]
    obtain ⟨sp',hrun,hi'⟩ := ih hri (ha.2 _ hstep)
    exact ⟨sp',run_cons.mpr ⟨r.1,hstep,hrun⟩,hi'⟩

/-- What the HP-LIST fields say in every state of a run, and what the next call returns. -/
structure HpSound (sp : SplayTree κ) : Prop where
  inOrder : sp.root.toList.Pairwise (· < ·)
  list : Linked sp.fields sp.root.toList
  numMarked : sp.numMarked = (sp.root.toList.countP sp.marked : ℕ)
  highestMarked : sp.IsHighest sp.highestMarked
  returns : ∀ op : HpOp κ, op.Allowed sp → ∃ r, hpExec sp op = some r ∧
    (op.isUpdate = true → (r.2 = true ↔ r.1.highestMarked ≠ sp.highestMarked))

theorem HpInv.sound (hi : HpInv sp) : HpSound sp := by
  refine ⟨hi.sorted,hi.chain,hi.numMarked,hi.isHighest,fun op ha => ?_⟩
  obtain ⟨r,hr,_,hret⟩ := hpExec_spec hi ha
  exact ⟨r,hr,hret⟩

/-- From the empty tree every sequence of calls returns, and in each state it passes the
next/prev list is the in-order traversal of the tree, the counter and highest_marked are
those of the marked nodes, and a call returns 1 exactly when highest_marked changes. -/
theorem hpList_run_sound (marked : κ → Bool) (fields : Fields κ) (ops : List (HpOp κ))
    (ha : Along hpStep (fun sp op => op.Allowed sp) (SplayTree.empty marked fields) ops) :
    ∃ sp, run hpStep (SplayTree.empty marked fields) ops = some sp ∧ HpSound sp := by
  obtain ⟨sp,hrun,hi⟩ := hpRun_inv (hpInv_null rfl rfl rfl) ha
  exact ⟨sp,hrun,hi.sound⟩

/-- Two marked nodes, a lookup between them, and the higher one removed. -/
theorem hpList_run_sound_twoMarked :
    ∃ sp, run hpStep (SplayTree.empty (fun _ : ℕ => false) ⟨fun _ => none,fun _ => none⟩)
      [.insert 3 true,.insert 7 false,.lookup 3,.markNode 7 true,.remove 7] = some sp ∧ HpSound sp :=
  hpList_run_sound _ _ _ (along_of_check (by decide))

end GompUlt.Queue
