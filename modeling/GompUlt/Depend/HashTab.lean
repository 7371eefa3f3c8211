import GompUlt.Depend.PrimeTab
import Mathlib

/-! # The hash table of the dependences

Open addressing with double hashing.  Every element lies on the path of its probes with no empty slot before it;
insertion, deletion and resizing keep this, and a quarter of the slots stays free of elements and deleted entries.
-/
namespace GompUlt.HashTab

/-- HTAB_EMPTY_ENTRY, HTAB_DELETED_ENTRY, or an element. -/
inductive Slot (ε : Type*) where
  | empty
  | deleted
  | full (x : ε)

namespace Slot
variable {ε : Type*}

def isDeleted : Slot ε → Bool
  | deleted => true
  | _ => false

def element : Slot ε → Option ε
  | full x => some x
  | _ => none

def isFull (s : Slot ε) : Bool := s.element.isSome

@[simp] theorem isFull_empty : (empty : Slot ε).isFull = false := rfl

@[simp] theorem isFull_deleted : (deleted : Slot ε).isFull = false := rfl

@[simp] theorem isFull_full (x : ε) : (full x).isFull = true := rfl

@[simp] theorem isDeleted_empty : (empty : Slot ε).isDeleted = false := rfl

@[simp] theorem isDeleted_deleted : (deleted : Slot ε).isDeleted = true := rfl

@[simp] theorem isDeleted_full (x : ε) : (full x).isDeleted = false := rfl

end Slot

structure Table (ε : Type*) where
  size : ℕ
  nElements : ℕ
  nDeleted : ℕ
  sizePrimeIndex : ℕ
  entries : ℕ → Slot ε

variable {ε α : Type*}

def htabCreate (size : ℕ) : Outcome (Table ε) :=
  (higherPrimeIndex size).bind fun i => .done ⟨(primeAt i).prime,0,0,i,fun _ => .empty⟩

namespace Table

/-- `htab_elements`. -/
def elements (T : Table ε) : ℕ := T.nElements - T.nDeleted

def write (T : Table ε) (i : ℕ) (s : Slot ε) : Table ε := { T with entries := Function.update T.entries i s }

/-- The elements in the order of their slots. -/
def stored (T : Table ε) : List ε := (List.range T.size).filterMap fun i => (T.entries i).element

end Table

section Operations
variable [DecidableEq α] (key : ε → α) (hash : α → UInt32)

/-- The loop of `find_empty_slot_for_expand`. -/
def emptyFrom (T : Table ε) (hash2 : ℕ) : ℕ → ℕ → Outcome ℕ
  | 0, _ => .more
  | fuel + 1, index =>
    match T.entries index with
    | .empty => .done index
    | .deleted => .abort
    | .full _ => emptyFrom T hash2 fuel (nextIndex T.size hash2 index)

def findEmptySlotForExpand (fuel : ℕ) (T : Table ε) (h : ℕ) : Outcome ℕ :=
  emptyFrom T (htabModM2 T.sizePrimeIndex h) fuel (htabMod T.sizePrimeIndex h)

/-- The elements are put into the new table. -/
def refill (fuel : ℕ) : List ε → Table ε → Outcome (Table ε)
  | [], T => .done T
  | x :: xs, T => (findEmptySlotForExpand fuel T (hash (key x)).toNat).bind fun i => refill fuel xs (T.write i (.full x))

def htabExpand (fuel : ℕ) (T : Table ε) : Outcome (Table ε) :=
  (htabCreate (if T.size < T.elements * 2 ∨ (T.elements * 8 < T.size ∧ 32 < T.size) then T.elements * 2
    else T.size - 1)).bind fun N => refill key hash fuel T.stored { N with nElements := T.nElements - T.nDeleted }

/-- The loop of `htab_find`; it returns the empty entry as none. -/
def findFrom (T : Table ε) (a : α) (hash2 : ℕ) : ℕ → ℕ → Outcome (Option ε)
  | 0, _ => .more
  | fuel + 1, index =>
    match T.entries index with
    | .empty => .done none
    | .deleted => findFrom T a hash2 fuel (nextIndex T.size hash2 index)
    | .full x => if key x = a then .done (some x) else findFrom T a hash2 fuel (nextIndex T.size hash2 index)

def htabFind (fuel : ℕ) (T : Table ε) (e : ε) : Outcome (Option ε) :=
  findFrom key T (key e) (htabModM2 T.sizePrimeIndex (hash (key e)).toNat) fuel
    (htabMod T.sizePrimeIndex (hash (key e)).toNat)

/-- How the loop of `htab_find_slot` ends: at an equal element, or at an empty slot with the first deleted one. -/
inductive Search where
  | found (index : ℕ)
  | empty (index : ℕ) (firstDeleted : Option ℕ)

/-- The loop of `htab_find_slot`. -/
def slotFrom (T : Table ε) (a : α) (hash2 : ℕ) : ℕ → Option ℕ → ℕ → Outcome Search
  | 0, _, _ => .more
  | fuel + 1, first, index =>
    match T.entries index with
    | .empty => .done (.empty index first)
    | .deleted => slotFrom T a hash2 fuel (some (first.getD index)) (nextIndex T.size hash2 index)
    | .full x => if key x = a then .done (.found index) else slotFrom T a hash2 fuel first (nextIndex T.size hash2 index)

/-- What `htab_find_slot` does where its loop has ended. -/
def insertSlot (T : Table ε) (insert : Bool) : Search → Outcome (Table ε × Option ℕ)
  | .found i => .done (T,some i)
  | .empty i first =>
    if insert then
      match first with
      | some d => .done (({ T with nDeleted := T.nDeleted - 1 } : Table ε).write d .empty,some d)
      | none => .done ({ T with nElements := T.nElements + 1 },some i)
    else .done (T,none)

/-- `htab_find_slot`: the table, which may be a new one, and the slot, none for NULL. -/
def htabFindSlot (fuel : ℕ) (T : Table ε) (e : ε) (insert : Bool) : Outcome (Table ε × Option ℕ) :=
  (if insert ∧ T.size * 3 ≤ T.nElements * 4 then htabExpand key hash fuel T else .done T).bind fun T =>
    (slotFrom key T (key e) (htabModM2 T.sizePrimeIndex (hash (key e)).toNat) fuel none
      (htabMod T.sizePrimeIndex (hash (key e)).toNat)).bind (insertSlot T insert)

def htabClearSlot (T : Table ε) (i : ℕ) : Outcome (Table ε) :=
  if T.size ≤ i then .abort
  else
    match T.entries i with
    | .full _ => .done (({ T with nDeleted := T.nDeleted + 1 } : Table ε).write i .deleted)
    | _ => .abort

/-- The caller of an insertion writes its element into a slot that is empty. -/
def Table.fill (T : Table ε) (i : ℕ) (x : ε) : Table ε :=
  match T.entries i with
  | .empty => T.write i (.full x)
  | _ => T

/-- A table and the finite map that it stands for, after any sequence of operations; an insertion is only made
where `ok` holds. -/
inductive Reached (ok : Table ε → Prop) : Table ε → (α → Option ε) → Prop
  | create {n : ℕ} {T : Table ε} (hn : n ≤ maxSize) (h : htabCreate n = .done T) : Reached ok T fun _ => none
  | insert {T T' : Table ε} {M : α → Option ε} {fuel i : ℕ} {e x : ε} (hr : Reached ok T M) (hok : ok T)
      (h : htabFindSlot key hash fuel T e true = .done (T',some i)) (hx : key x = key e) :
      Reached ok (T'.fill i x) (if (M (key e)).isSome then M else Function.update M (key e) (some x))
  | clear {T T' : Table ε} {M : α → Option ε} {i : ℕ} {x : ε} (hr : Reached ok T M) (hi : i < T.size)
      (hx : T.entries i = .full x) (h : htabClearSlot T i = .done T') :
      Reached ok T' (Function.update M (key x) none)

end Operations

/-- An insertion that has to expand the table asks for at most `maxSize` slots. -/
def Table.Fits (T : Table ε) : Prop := T.size * 3 ≤ T.nElements * 4 → T.elements * 2 ≤ maxSize

instance (T : Table ε) : Decidable T.Fits := inferInstanceAs (Decidable (_ → _))

namespace Table

/-- How many slots satisfy `p`. -/
def count (T : Table ε) (p : Slot ε → Bool) : ℕ := (List.range T.size).countP fun i => p (T.entries i)

def Holds (T : Table ε) (x : ε) : Prop := ∃ i < T.size, T.entries i = .full x

end Table

section Invariant
variable (key : ε → α) (hash : α → UInt32)

/-- The slots that are probed for a key. -/
def Table.probe (T : Table ε) (a : α) (k : ℕ) : ℕ := HashTab.probe T.sizePrimeIndex (hash a).toNat k

/-- Every element can be reached through its probes, and no two elements are equal. -/
structure Probed (T : Table ε) : Prop where
  index_lt : T.sizePrimeIndex < 29
  size_eq : T.size = (primeAt T.sizePrimeIndex).prime
  path : ∀ i < T.size, ∀ x, T.entries i = .full x →
    ∃ k, T.probe hash (key x) k = i ∧ ∀ m < k, T.entries (T.probe hash (key x) m) ≠ .empty
  unique : ∀ i < T.size, ∀ j < T.size, ∀ x y, T.entries i = .full x → T.entries j = .full y → key x = key y → i = j

/-- The invariant of the tables. -/
structure Inv (T : Table ε) : Prop extends Probed key hash T where
  deleted : T.nDeleted = T.count Slot.isDeleted
  elements : T.nElements = T.count Slot.isFull + T.count Slot.isDeleted
  load : 4 * T.nElements ≤ 3 * T.size + 3

end Invariant

/-- The function ends as it should, unless it was given too little time. -/
def Outcome.Ends {β : Type*} (o : Outcome β) (fuel : ℕ) (P : β → Prop) : Prop :=
  (o = .more ∧ fuel < maxSize) ∨ ∃ b, o = .done b ∧ P b

theorem Outcome.Ends.bind {β γ : Type*} {o : Outcome β} {f : β → Outcome γ} {fuel : ℕ} {P : β → Prop} {Q : γ → Prop}
    (h : o.Ends fuel P) (hf : ∀ b, P b → (f b).Ends fuel Q) : (o.bind f).Ends fuel Q := by
  rcases h with ⟨rfl,hfuel⟩ | ⟨b,rfl,hb⟩
  · exact Or.inl ⟨rfl,hfuel⟩
  · exact hf b hb

theorem Outcome.Ends.mono {β : Type*} {o : Outcome β} {fuel : ℕ} {P Q : β → Prop} (h : o.Ends fuel P)
    (hPQ : ∀ b, P b → Q b) : o.Ends fuel Q :=
  h.imp_right fun ⟨b,hb,hP⟩ => ⟨b,hb,hPQ b hP⟩

namespace Table
variable {T : Table ε}

@[simp] theorem write_size (i : ℕ) (s : Slot ε) : (T.write i s).size = T.size := rfl

@[simp] theorem write_index (i : ℕ) (s : Slot ε) : (T.write i s).sizePrimeIndex = T.sizePrimeIndex := rfl

@[simp] theorem write_entries_self (i : ℕ) (s : Slot ε) : (T.write i s).entries i = s := by
  simp [write]

theorem write_entries_of_ne {i j : ℕ} (s : Slot ε) (h : j ≠ i) : (T.write i s).entries j = T.entries j := by
  simp [write, h]

/-- Writing one slot changes the count by that slot. -/
theorem count_write {i : ℕ} (hi : i < T.size) (s : Slot ε) (p : Slot ε → Bool) :
    (T.write i s).count p + (p (T.entries i)).toNat = T.count p + (p s).toNat := by
  have hrange : ∀ n, (List.range n).countP (fun j => p ((T.write i s).entries j)) +
      (if i < n then (p (T.entries i)).toNat else 0) =
      (List.range n).countP (fun j => p (T.entries j)) + (if i < n then (p s).toNat else 0) := by
    intro n
    induction n with
    | zero => simp
    | succ n ih =>
      simp only [List.range_succ, List.countP_append, List.countP_singleton]
      rcases Nat.lt_trichotomy i n with h | rfl | h
      · rw [write_entries_of_ne s (by omega)]
        simp only [h, if_true, Nat.lt_succ_of_lt h] at ih ⊢
        omega
      · simp only [Nat.lt_irrefl, if_false, Nat.lt_succ_self, if_true, write_entries_self] at ih ⊢
        cases p s <;> cases p (T.entries i) <;> simp <;> omega
      · rw [write_entries_of_ne s (by omega)]
        simp only [Nat.not_lt.mpr h.le, if_false, Nat.not_lt.mpr h] at ih ⊢
        omega
  have h := hrange T.size
  rwa [if_pos hi, if_pos hi] at h

theorem stored_length : T.stored.length = T.count Slot.isFull := by
  rw [stored, List.length_filterMap_eq_countP]
  rfl

theorem element_eq_some {s : Slot ε} {x : ε} : s.element = some x ↔ s = .full x := by
  cases s <;> simp [Slot.element]

theorem mem_stored {x : ε} : x ∈ T.stored ↔ T.Holds x := by
  simp only [stored, List.mem_filterMap, List.mem_range, element_eq_some, Holds]

/-- A slot is left when the elements and the deleted entries do not fill the table. -/
theorem exists_empty (h : T.count Slot.isFull + T.count Slot.isDeleted < T.size) : ∃ i < T.size, T.entries i = .empty := by
  by_contra hnone
  have hsum : ∀ n ≤ T.size, (List.range n).countP (fun i => (T.entries i).isFull) +
      (List.range n).countP (fun i => (T.entries i).isDeleted) = n := by
    intro n hn
    induction n with
    | zero => rfl
    | succ n ih =>
      have hrest := ih (by omega)
      simp only [List.range_succ, List.countP_append, List.countP_singleton]
      cases hs : T.entries n with
      | empty => exact absurd ⟨n,by omega,hs⟩ hnone
      | deleted =>
        simp only [Slot.isFull, Slot.element, Slot.isDeleted] at hrest ⊢
        simp
        omega
      | full x =>
        simp only [Slot.isFull, Slot.element, Slot.isDeleted] at hrest ⊢
        simp
        omega
  have := hsum T.size le_rfl
  unfold count at h
  omega

end Table

section Probes
variable {key : ε → α} {hash : α → UInt32} {T : Table ε}

namespace Probed

theorem size_le (h : Probed key hash T) : T.size ≤ maxSize := by
  rw [h.size_eq]
  exact primeAt_le h.index_lt

theorem seven_le (h : Probed key hash T) : 7 ≤ T.size := by
  rw [h.size_eq]
  exact seven_le_primeAt h.index_lt

theorem probe_lt (h : Probed key hash T) (a : α) (k : ℕ) : T.probe hash a k < T.size := by
  rw [h.size_eq]
  exact HashTab.probe_lt h.index_lt (hash a).toNat_lt k

/-- On the probes of a key there is a first slot of a kind that some slot of the table is of. -/
theorem exists_first (h : Probed key hash T) (stops : Slot ε → Prop) (hstops : ∃ i < T.size, stops (T.entries i))
    (a : α) : ∃ k < T.size, stops (T.entries (T.probe hash a k)) ∧ ∀ m < k, ¬ stops (T.entries (T.probe hash a m)) := by
  classical
  obtain ⟨i,hi,hs⟩ := hstops
  rw [h.size_eq] at hi
  obtain ⟨k,hk,hprobe⟩ := exists_probe_eq h.index_lt (hash a).toNat_lt hi
  have hex : ∃ k, stops (T.entries (T.probe hash a k)) := ⟨k,by rwa [Table.probe, hprobe]⟩
  refine ⟨Nat.find hex,?_,Nat.find_spec hex,fun m hm => Nat.find_min hex hm⟩
  rw [h.size_eq]
  exact (Nat.find_le (by rwa [Table.probe, hprobe])).trans_lt hk

/-- An element with a fresh key can be put into a slot that is not before an empty one on its path. -/
theorem write_full (h : Probed key hash T) {x : ε} {k : ℕ}
    (hpath : ∀ m < k, T.entries (T.probe hash (key x) m) ≠ .empty) (hfresh : ∀ y, T.Holds y → key y ≠ key x) :
    Probed key hash (T.write (T.probe hash (key x) k) (.full x)) := by
  set i := T.probe hash (key x) k with hi
  have hkeep : ∀ j, T.entries j ≠ .empty → (T.write i (.full x)).entries j ≠ .empty := by
    intro j hj
    by_cases hji : j = i
    · rw [hji, Table.write_entries_self]
      exact fun h => by cases h
    · rwa [Table.write_entries_of_ne _ hji]
  refine ⟨h.index_lt,h.size_eq,fun j hj y hy => ?_,fun j hj l hl y z hy hz heq => ?_⟩
  · by_cases hji : j = i
    · subst hji
      rw [Table.write_entries_self] at hy
      cases hy
      exact ⟨k,hi.symm,fun m hm => hkeep _ (hpath m hm)⟩
    · rw [Table.write_entries_of_ne _ hji] at hy
      obtain ⟨n,hn,hbefore⟩ := h.path j hj y hy
      exact ⟨n,hn,fun m hm => hkeep _ (hbefore m hm)⟩
  · by_cases hji : j = i
    · subst hji
      rw [Table.write_entries_self] at hy
      cases hy
      by_contra hlj
      rw [Table.write_entries_of_ne _ (Ne.symm hlj)] at hz
      exact hfresh z ⟨l,hl,hz⟩ heq.symm
    · rw [Table.write_entries_of_ne _ hji] at hy
      by_cases hli : l = i
      · subst hli
        rw [Table.write_entries_self] at hz
        cases hz
        exact absurd heq (hfresh y ⟨j,hj,hy⟩)
      · rw [Table.write_entries_of_ne _ hli] at hz
        exact h.unique j hj l hl y z hy hz heq

/-- An element may be deleted: no path gets an empty slot. -/
theorem write_deleted (h : Probed key hash T) (i : ℕ) : Probed key hash (T.write i .deleted) := by
  have hold : ∀ j y, (T.write i .deleted).entries j = .full y → T.entries j = .full y := by
    intro j y hy
    by_cases hji : j = i
    · rw [hji, Table.write_entries_self] at hy
      cases hy
    · rwa [Table.write_entries_of_ne _ hji] at hy
  refine ⟨h.index_lt,h.size_eq,fun j hj y hy => ?_,fun j hj l hl y z hy hz heq => ?_⟩
  · obtain ⟨n,hn,hbefore⟩ := h.path j hj y (hold j y hy)
    refine ⟨n,hn,fun m hm hempty => ?_⟩
    by_cases hmi : T.probe hash (key y) m = i
    · have hself : (T.write i .deleted).entries (T.probe hash (key y) m) = .deleted := by
        rw [hmi, Table.write_entries_self]
      exact absurd (hself.symm.trans hempty) (fun h => by cases h)
    · exact hbefore m hm ((Table.write_entries_of_ne _ hmi).symm.trans hempty)
  · exact h.unique j hj l hl y z (hold j y hy) (hold l z hz) heq

/-- Where the search for a key ends at an empty slot, no element has the key. -/
theorem not_holds_of_empty (h : Probed key hash T) {a : α} {k : ℕ} (hk : T.entries (T.probe hash a k) = .empty)
    (hbefore : ∀ m < k, ∀ y, T.entries (T.probe hash a m) = .full y → key y ≠ a) : ∀ y, T.Holds y → key y ≠ a := by
  rintro y ⟨i,hi,hy⟩ rfl
  obtain ⟨n,hn,hpath⟩ := h.path i hi y hy
  rcases Nat.lt_trichotomy n k with hlt | rfl | hgt
  · exact hbefore n hlt y (by rw [hn, hy]) rfl
  · rw [hn, hy] at hk
    cases hk
  · exact hpath k hgt hk

end Probed

theorem holds_write_full {i : ℕ} {x y : ε} (hi : i < T.size) (hold : (T.entries i).element = none) :
    (T.write i (.full x)).Holds y ↔ T.Holds y ∨ y = x := by
  constructor
  · rintro ⟨j,hj,hy⟩
    by_cases hji : j = i
    · rw [hji, Table.write_entries_self] at hy
      cases hy
      exact Or.inr rfl
    · exact Or.inl ⟨j,hj,by rwa [Table.write_entries_of_ne _ hji] at hy⟩
  · rintro (⟨j,hj,hy⟩ | rfl)
    · have hji : j ≠ i := by
        rintro rfl
        rw [hy] at hold
        cases hold
      exact ⟨j,hj,by rwa [Table.write_entries_of_ne _ hji]⟩
    · exact ⟨i,hi,Table.write_entries_self _ _⟩

end Probes
section Expand
variable {key : ε → α} {hash : α → UInt32}

/-- A table without deleted entries, and the elements in it. -/
structure Filled (key : ε → α) (hash : α → UInt32) (T : Table ε) (xs : List ε) : Prop extends Probed key hash T where
  noDeleted : T.count Slot.isDeleted = 0
  full : T.count Slot.isFull = xs.length
  holds : ∀ x, T.Holds x ↔ x ∈ xs

theorem entries_ne_deleted {T : Table ε} (h : T.count Slot.isDeleted = 0) {i : ℕ} (hi : i < T.size) :
    T.entries i ≠ .deleted := by
  intro hdel
  have := List.countP_eq_zero.mp h i (List.mem_range.mpr hi)
  rw [hdel] at this
  exact this rfl

/-- `htab_create` makes an empty table that is large enough. -/
theorem htabCreate_done {n : ℕ} (hn : n ≤ maxSize) :
    ∃ T : Table ε, htabCreate n = .done T ∧ Filled key hash T [] ∧ n ≤ T.size ∧ T.nElements = 0 ∧ T.nDeleted = 0 := by
  obtain ⟨i,hi,hdone,hle⟩ := higherPrimeIndex_done hn
  refine ⟨⟨(primeAt i).prime,0,0,i,fun _ => .empty⟩,by rw [htabCreate, hdone]; rfl,?_,hle,rfl,rfl⟩
  refine ⟨⟨hi,rfl,fun j _ x hx => (by cases hx),fun j _ l _ x y hx => (by cases hx)⟩,?_,?_,fun x => ?_⟩
  · simp [Table.count, Slot.isDeleted]
  · simp [Table.count, Slot.isFull, Slot.element]
  · simp [Table.Holds]

/-- The loop stops at the first empty slot, if it is given the time. -/
theorem emptyFrom_eq {T : Table ε} {hash2 : ℕ} (k : ℕ) : ∀ {fuel index : ℕ},
    T.entries ((nextIndex T.size hash2)^[k] index) = .empty →
    (∀ m < k, ∃ x, T.entries ((nextIndex T.size hash2)^[m] index) = .full x) →
    emptyFrom T hash2 fuel index = if k < fuel then .done ((nextIndex T.size hash2)^[k] index) else .more := by
  induction k with
  | zero =>
    intro fuel index hempty _
    cases fuel with
    | zero => rfl
    | succ fuel =>
      rw [Function.iterate_zero_apply] at hempty ⊢
      simp [emptyFrom, hempty]
  | succ k ih =>
    intro fuel index hempty hfull
    cases fuel with
    | zero => rfl
    | succ fuel =>
      obtain ⟨x,hx⟩ := hfull 0 (Nat.succ_pos k)
      rw [Function.iterate_zero_apply] at hx
      rw [Function.iterate_succ_apply] at hempty ⊢
      have hrest := @ih fuel (nextIndex T.size hash2 index) hempty fun m hm => by
        obtain ⟨y,hy⟩ := hfull (m + 1) (Nat.succ_lt_succ hm)
        exact ⟨y,by rwa [Function.iterate_succ_apply] at hy⟩
      simp only [emptyFrom, hx, hrest, Nat.add_lt_add_iff_right]

/-- All elements find a slot in the new table. -/
theorem refill_ends {fuel : ℕ} : ∀ {ys xs : List ε} {T : Table ε}, Filled key hash T xs →
    ((xs ++ ys).map key).Nodup → xs.length + ys.length < T.size →
    (refill key hash fuel ys T).Ends fuel fun T' => Filled key hash T' (xs ++ ys) ∧ T'.size = T.size ∧
      T'.nElements = T.nElements ∧ T'.nDeleted = T.nDeleted := by
  intro ys
  induction ys with
  | nil =>
    intro xs T h _ _
    exact Or.inr ⟨T,rfl,by rwa [List.append_nil],rfl,rfl,rfl⟩
  | cons y ys ih =>
    intro xs T h hnodup hlen
    rw [List.length_cons] at hlen
    have hempty : ∃ i < T.size, T.entries i = .empty := Table.exists_empty (by
      rw [h.full, h.noDeleted]
      omega)
    obtain ⟨k,hk,hstop,hbefore⟩ := h.exists_first (fun s => s = .empty) hempty (key y)
    have hi := h.probe_lt (key y) k
    have hfind : findEmptySlotForExpand fuel T (hash (key y)).toNat =
        if k < fuel then .done (T.probe hash (key y) k) else .more := by
      rw [findEmptySlotForExpand]
      have hsize := h.size_eq
      have heq := @emptyFrom_eq ε T (htabModM2 T.sizePrimeIndex (hash (key y)).toNat) k fuel
        (htabMod T.sizePrimeIndex (hash (key y)).toNat)
      rw [hsize] at heq
      refine heq hstop fun m hm => ?_
      have hm' := hbefore m hm
      have hdel := entries_ne_deleted h.noDeleted (h.probe_lt (key y) m)
      change ∃ x, T.entries (T.probe hash (key y) m) = .full x
      cases hs : T.entries (T.probe hash (key y) m) with
      | empty => exact absurd hs hm'
      | deleted => exact absurd hs hdel
      | full x => exact ⟨x,rfl⟩
    rw [refill, hfind]
    split
    · have hfresh : ∀ z, T.Holds z → key z ≠ key y := by
        intro z hz heq
        rw [List.map_append, List.nodup_append] at hnodup
        exact hnodup.2.2 _ (List.mem_map_of_mem ((h.holds z).mp hz)) _ (List.mem_map_of_mem List.mem_cons_self) heq
      have hcount := @Table.count_write _ T _ hi (.full y)
      have hfilled : Filled key hash (T.write (T.probe hash (key y) k) (.full y)) (xs ++ [y]) := by
        refine ⟨h.write_full hbefore hfresh,?_,?_,fun z => ?_⟩
        · have := hcount Slot.isDeleted
          rw [hstop, h.noDeleted] at this
          simpa [Slot.isDeleted] using this
        · have := hcount Slot.isFull
          rw [hstop, h.full] at this
          simpa [Slot.isFull, Slot.element] using this
        · rw [holds_write_full hi (by rw [hstop]; rfl), h.holds]
          simp
      have hrest := ih hfilled (by simpa using hnodup) (by simp; omega)
      rw [List.append_assoc] at hrest
      exact hrest
    · rename_i hfuel
      exact Or.inl ⟨rfl,(Nat.not_lt.mp hfuel).trans_lt (hk.trans_le h.size_le)⟩

/-- The keys of the stored elements are different. -/
theorem Probed.nodup_stored {T : Table ε} (h : Probed key hash T) : (T.stored.map key).Nodup := by
  have hrange : ∀ n ≤ T.size, (((List.range n).filterMap fun i => (T.entries i).element).map key).Nodup := by
    intro n hn
    induction n with
    | zero => simp
    | succ n ih =>
      rw [List.range_succ, List.filterMap_append, List.map_append, List.nodup_append]
      refine ⟨ih (by omega),?_,fun a ha b hb hab => ?_⟩
      · cases hs : (T.entries n).element <;> simp [hs]
      · obtain ⟨x,hx,rfl⟩ := List.mem_map.mp ha
        obtain ⟨y,hy,rfl⟩ := List.mem_map.mp hb
        obtain ⟨i,hi,hix⟩ := List.mem_filterMap.mp hx
        obtain ⟨j,hj,hjy⟩ := List.mem_filterMap.mp hy
        rw [List.mem_range] at hi
        rw [List.mem_singleton] at hj
        subst hj
        have := h.unique i (by omega) j (by omega) x y (Table.element_eq_some.mp hix) (Table.element_eq_some.mp hjy) hab
        omega
  exact hrange T.size le_rfl

/-- The new table holds the same elements, and less than three quarters of it are taken. -/
theorem htabExpand_ends {T : Table ε} {fuel : ℕ} (h : Inv key hash T) (hfits : T.elements * 2 ≤ maxSize) :
    (htabExpand key hash fuel T).Ends fuel fun T' => Inv key hash T' ∧ (∀ x, T'.Holds x ↔ T.Holds x) ∧
      T'.nElements * 4 < T'.size * 3 := by
  have helements : T.elements = T.stored.length := by
    rw [Table.elements, h.elements, h.deleted, Nat.add_sub_cancel, Table.stored_length]
  set n := if T.size < T.elements * 2 ∨ (T.elements * 8 < T.size ∧ 32 < T.size) then T.elements * 2 else T.size - 1 with hn
  have hsize := h.size_le
  have hseven := h.seven_le
  have hnle : n ≤ maxSize := by
    rw [hn]
    split <;> omega
  obtain ⟨N,hN,hfilled,hle,-,hzero⟩ := @htabCreate_done ε α key hash n hnle
  have hseven' := hfilled.seven_le
  have hroom : T.elements * 4 < N.size * 3 := by
    rw [hn] at hle
    split at hle <;> omega
  have hfilled' : Filled key hash { N with nElements := T.nElements - T.nDeleted } [] :=
    ⟨⟨hfilled.index_lt,hfilled.size_eq,hfilled.path,hfilled.unique⟩,hfilled.noDeleted,hfilled.full,hfilled.holds⟩
  rw [htabExpand, ← hn, hN]
  have hends := @refill_ends ε α key hash fuel T.stored [] _ hfilled' h.toProbed.nodup_stored (by
    rw [List.length_nil, ← helements]
    change 0 + T.elements < N.size
    omega)
  refine hends.mono fun T' hT' => ?_
  obtain ⟨hT',hsize',hel',hdel'⟩ := hT'
  change T'.size = N.size at hsize'
  change T'.nElements = T.elements at hel'
  change T'.nDeleted = N.nDeleted at hdel'
  refine ⟨⟨hT'.toProbed,?_,?_,?_⟩,fun x => ?_,?_⟩
  · rw [hdel', hzero, hT'.noDeleted]
  · rw [hel', hT'.full, hT'.noDeleted, List.nil_append, ← helements, Nat.add_zero]
  · omega
  · rw [hT'.holds, List.nil_append, Table.mem_stored]
  · omega

end Expand
section Kept
variable {key : ε → α} {hash : α → UInt32} {T : Table ε}

/-- The search for a key ends at this slot. -/
def Stops (key : ε → α) (a : α) (s : Slot ε) : Prop := s = .empty ∨ ∃ x, s = .full x ∧ key x = a

namespace Inv

/-- Elements and deleted entries leave a slot. -/
theorem nElements_lt (h : Inv key hash T) : T.nElements < T.size := by
  have := h.load
  have := h.seven_le
  omega

theorem exists_empty (h : Inv key hash T) : ∃ i < T.size, T.entries i = .empty := by
  have hlt := h.nElements_lt
  rw [h.elements] at hlt
  exact Table.exists_empty hlt

/-- Where the search for a key ends, and what is found there. -/
theorem exists_stop (h : Inv key hash T) (a : α) : ∃ k < T.size, Stops key a (T.entries (T.probe hash a k)) ∧
    (∀ m < k, ¬ Stops key a (T.entries (T.probe hash a m))) ∧
    ∀ x, (T.entries (T.probe hash a k)).element = some x ↔ T.Holds x ∧ key x = a := by
  obtain ⟨i,hi,hempty⟩ := h.exists_empty
  obtain ⟨k,hk,hstop,hbefore⟩ := h.exists_first (Stops key a) ⟨i,hi,Or.inl hempty⟩ a
  refine ⟨k,hk,hstop,hbefore,fun x => ?_⟩
  rcases hstop with hstop | ⟨y,hy,hkey⟩
  · rw [hstop]
    have hnone := h.not_holds_of_empty hstop fun m hm y hy hkey => hbefore m hm (Or.inr ⟨y,hy,hkey⟩)
    exact ⟨fun hx => (by cases hx),fun hx => absurd hx.2 (hnone x hx.1)⟩
  · rw [Table.element_eq_some]
    constructor
    · intro hx
      rw [hx] at hy
      cases hy
      exact ⟨⟨_,h.probe_lt a k,hx⟩,hkey⟩
    · rintro ⟨⟨j,hj,hx⟩,hkey'⟩
      have hji := h.unique j hj _ (h.probe_lt a k) x y hx hy (hkey'.trans hkey.symm)
      rw [← hji, hx]

/-- A write that keeps the paths, with the counters set to what it makes of them. -/
theorem of_write (h : Inv key hash T) {i : ℕ} {s : Slot ε} (hi : i < T.size)
    (hprobed : Probed key hash (T.write i s)) {e d : ℕ}
    (hd : d + (T.entries i).isDeleted.toNat = T.nDeleted + s.isDeleted.toNat)
    (he : e + (T.entries i).isFull.toNat + (T.entries i).isDeleted.toNat =
      T.nElements + s.isFull.toNat + s.isDeleted.toNat) (hload : 4 * e ≤ 3 * T.size + 3) :
    Inv key hash (({ T with nElements := e, nDeleted := d } : Table ε).write i s) := by
  have hdel := Table.count_write hi s Slot.isDeleted
  have hfull := Table.count_write hi s Slot.isFull
  have hdeleted := h.deleted
  have helements := h.elements
  refine ⟨⟨hprobed.index_lt,hprobed.size_eq,hprobed.path,hprobed.unique⟩,?_,?_,hload⟩
  · change d = (T.write i s).count Slot.isDeleted
    omega
  · change e = (T.write i s).count Slot.isFull + (T.write i s).count Slot.isDeleted
    omega

/-- An element put into a slot that was empty. -/
theorem write_empty (h : Inv key hash T) {x : ε} {k : ℕ} (hold : T.entries (T.probe hash (key x) k) = .empty)
    (hpath : ∀ m < k, ¬ Stops key (key x) (T.entries (T.probe hash (key x) m)))
    (hfresh : ∀ y, T.Holds y → key y ≠ key x) (hroom : T.nElements * 4 < T.size * 3) :
    Inv key hash (({ T with nElements := T.nElements + 1 } : Table ε).write (T.probe hash (key x) k) (.full x)) := by
  have hprobed := h.toProbed.write_full (fun m hm hempty => hpath m hm (Or.inl hempty)) hfresh
  refine h.of_write (h.probe_lt (key x) k) hprobed ?_ ?_ (by omega)
  · rw [hold]
    rfl
  · rw [hold]
    rfl

/-- An element put into a slot whose element had been deleted. -/
theorem write_reused (h : Inv key hash T) {x : ε} {k : ℕ} (hold : T.entries (T.probe hash (key x) k) = .deleted)
    (hpath : ∀ m < k, ¬ Stops key (key x) (T.entries (T.probe hash (key x) m)))
    (hfresh : ∀ y, T.Holds y → key y ≠ key x) :
    Inv key hash (({ T with nDeleted := T.nDeleted - 1 } : Table ε).write (T.probe hash (key x) k) (.full x)) := by
  have hprobed := h.toProbed.write_full (fun m hm hempty => hpath m hm (Or.inl hempty)) hfresh
  have hi := h.probe_lt (key x) k
  have hcount := Table.count_write hi (.full x) Slot.isDeleted
  have hdeleted := h.deleted
  simp only [hold, Slot.isDeleted_deleted, Slot.isDeleted_full, Bool.toNat_false, Bool.toNat_true,
    Nat.add_zero] at hcount
  refine h.of_write hi hprobed ?_ ?_ h.load
  · simp only [hold, Slot.isDeleted_deleted, Slot.isDeleted_full, Bool.toNat_false, Bool.toNat_true, Nat.add_zero]
    omega
  · rw [hold]
    rfl

/-- An element deleted. -/
theorem write_deleted (h : Inv key hash T) {x : ε} {i : ℕ} (hi : i < T.size) (hold : T.entries i = .full x) :
    Inv key hash (({ T with nDeleted := T.nDeleted + 1 } : Table ε).write i .deleted) := by
  refine h.of_write hi (h.toProbed.write_deleted i) ?_ ?_ h.load
  · rw [hold]
    rfl
  · rw [hold]
    rfl

end Inv

/-- What an insertion returns: a slot of the table, which holds the equal element or is empty, and may be filled. -/
structure Inserted (key : ε → α) (hash : α → UInt32) (T : Table ε) (a : α) (r : Table ε × Option ℕ) (i : ℕ) : Prop where
  slot : r.2 = some i
  lt : i < r.1.size
  found : ∀ x, r.1.entries i = .full x ↔ T.Holds x ∧ key x = a
  empty : r.1.entries i = .empty ↔ ∀ x, T.Holds x → key x ≠ a
  inv : ∀ x, key x = a → Inv key hash (r.1.fill i x)
  holds : ∀ x, key x = a → ∀ y, (r.1.fill i x).Holds y ↔ T.Holds y ∨ (y = x ∧ ∀ z, T.Holds z → key z ≠ a)

theorem Table.fill_full {i : ℕ} {x y : ε} (h : T.entries i = .full y) : T.fill i x = T := by
  rw [fill, h]

theorem Table.fill_empty {i : ℕ} {x : ε} (h : T.entries i = .empty) : T.fill i x = T.write i (.full x) := by
  rw [fill, h]

theorem Table.write_write {i : ℕ} {r s : Slot ε} : (T.write i r).write i s = T.write i s := by
  rw [write, write, write, Function.update_idem]

theorem Inserted.of_found {i : ℕ} {a : α} {y : ε} (h : Inv key hash T) (hi : i < T.size) (hy : T.entries i = .full y)
    (hspec : ∀ x, (T.entries i).element = some x ↔ T.Holds x ∧ key x = a) : Inserted key hash T a (T,some i) i where
  slot := rfl
  lt := hi
  found x := by rw [← hspec, Table.element_eq_some]
  empty := by
    obtain ⟨hholds,hkey⟩ := (hspec y).mp (by rw [hy]; rfl)
    rw [hy]
    exact ⟨fun h => (by cases h),fun h => absurd hkey (h y hholds)⟩
  inv x _ := by rwa [Table.fill_full hy]
  holds x _ z := by
    obtain ⟨hholds,hkey⟩ := (hspec y).mp (by rw [hy]; rfl)
    rw [Table.fill_full hy]
    exact ⟨Or.inl,fun h => h.elim id fun h => absurd hkey (h.2 y hholds)⟩

/-- A slot that has been made empty for a new element. -/
theorem Inserted.of_empty {i : ℕ} {a : α} {T' : Table ε} (hi : i < T'.size) (hempty : T'.entries i = .empty)
    (hnone : ∀ x, T.Holds x → key x ≠ a) (hholds : ∀ x y, (T'.write i (.full x)).Holds y ↔ T.Holds y ∨ y = x)
    (hinv : ∀ x, key x = a → Inv key hash (T'.write i (.full x))) : Inserted key hash T a (T',some i) i where
  slot := rfl
  lt := hi
  found x := by
    rw [hempty]
    exact ⟨fun h => (by cases h),fun h => absurd h.2 (hnone x h.1)⟩
  empty := ⟨fun _ => hnone,fun _ => hempty⟩
  inv x hx := by
    rw [Table.fill_empty hempty]
    exact hinv x hx
  holds x _ y := by
    rw [Table.fill_empty hempty, hholds]
    exact or_congr_right (and_iff_left hnone).symm

/-- Only what the table holds matters. -/
theorem Inserted.congr {T₁ : Table ε} {a : α} {r : Table ε × Option ℕ} {i : ℕ} (h : Inserted key hash T₁ a r i)
    (hholds : ∀ x, T₁.Holds x ↔ T.Holds x) : Inserted key hash T a r i where
  slot := h.slot
  lt := h.lt
  found x := by rw [← hholds, h.found]
  empty := h.empty.trans (forall_congr' fun x => by rw [hholds])
  inv := h.inv
  holds x hx y := by
    rw [h.holds x hx y, hholds]
    simp only [hholds]

/-- The table stands for the finite map. -/
def Refines (key : ε → α) (T : Table ε) (M : α → Option ε) : Prop := ∀ a x, M a = some x ↔ T.Holds x ∧ key x = a

theorem Refines.eq_none_iff {M : α → Option ε} (h : Refines key T M) {a : α} :
    M a = none ↔ ∀ x, T.Holds x → key x ≠ a := by
  rw [Option.eq_none_iff_forall_ne_some]
  exact forall_congr' fun x => by rw [Ne, h, not_and]

end Kept

section Searches
variable [DecidableEq α] {key : ε → α} {hash : α → UInt32} {T : Table ε}

/-- `htab_find` answers with the entry at the first slot where the search ends. -/
theorem findFrom_eq {a : α} {hash2 : ℕ} (k : ℕ) : ∀ {fuel index : ℕ},
    Stops key a (T.entries ((nextIndex T.size hash2)^[k] index)) →
    (∀ m < k, ¬ Stops key a (T.entries ((nextIndex T.size hash2)^[m] index))) →
    findFrom key T a hash2 fuel index =
      if k < fuel then .done (T.entries ((nextIndex T.size hash2)^[k] index)).element else .more := by
  induction k with
  | zero =>
    intro fuel index hstop _
    cases fuel with
    | zero => rfl
    | succ fuel =>
      rw [Function.iterate_zero_apply] at hstop ⊢
      rcases hstop with hempty | ⟨x,hx,hkey⟩
      · simp [findFrom, hempty, Slot.element]
      · simp [findFrom, hx, hkey, Slot.element]
  | succ k ih =>
    intro fuel index hstop hbefore
    cases fuel with
    | zero => rfl
    | succ fuel =>
      have hfirst := hbefore 0 (Nat.succ_pos k)
      rw [Function.iterate_zero_apply] at hfirst
      rw [Function.iterate_succ_apply] at hstop ⊢
      have hrest := @ih fuel (nextIndex T.size hash2 index) hstop fun m hm => by
        rw [← Function.iterate_succ_apply]
        exact hbefore (m + 1) (Nat.succ_lt_succ hm)
      cases hs : T.entries index with
      | empty => exact absurd (Or.inl hs) hfirst
      | deleted => simp only [findFrom, hs, hrest, Nat.add_lt_add_iff_right]
      | full x =>
        have hkey : key x ≠ a := fun hkey => hfirst (Or.inr ⟨x,hs,hkey⟩)
        simp only [findFrom, hs, hrest, hkey, if_false, Nat.add_lt_add_iff_right]

/-- The search of `htab_find_slot` ends at the same slot; the deleted slot that it remembers is one it has
passed. -/
theorem slotFrom_eq {a : α} {hash2 : ℕ} (k : ℕ) : ∀ (fuel : ℕ) (first : Option ℕ) (index : ℕ),
    Stops key a (T.entries ((nextIndex T.size hash2)^[k] index)) →
    (∀ m < k, ¬ Stops key a (T.entries ((nextIndex T.size hash2)^[m] index))) →
    ∃ first', (∀ d, first' = some d → first = some d ∨
        ∃ m < k, (nextIndex T.size hash2)^[m] index = d ∧ T.entries d = .deleted) ∧
      slotFrom key T a hash2 fuel first index =
        if k < fuel then .done (if (T.entries ((nextIndex T.size hash2)^[k] index)).isFull
          then .found ((nextIndex T.size hash2)^[k] index) else .empty ((nextIndex T.size hash2)^[k] index) first')
        else .more := by
  induction k with
  | zero =>
    intro fuel first index hstop _
    refine ⟨first,fun d hd => Or.inl hd,?_⟩
    cases fuel with
    | zero => rfl
    | succ fuel =>
      rw [Function.iterate_zero_apply] at hstop ⊢
      rcases hstop with hempty | ⟨x,hx,hkey⟩
      · simp [slotFrom, hempty, Slot.isFull, Slot.element]
      · simp [slotFrom, hx, hkey, Slot.isFull, Slot.element]
  | succ k ih =>
    intro fuel first index hstop hbefore
    cases fuel with
    | zero => exact ⟨none,fun d hd => (by cases hd),rfl⟩
    | succ fuel =>
      have hfirst := hbefore 0 (Nat.succ_pos k)
      rw [Function.iterate_zero_apply] at hfirst
      rw [Function.iterate_succ_apply] at hstop ⊢
      have hrest := fun first => ih fuel first (nextIndex T.size hash2 index) hstop fun m hm => by
        rw [← Function.iterate_succ_apply]
        exact hbefore (m + 1) (Nat.succ_lt_succ hm)
      cases hs : T.entries index with
      | empty => exact absurd (Or.inl hs) hfirst
      | deleted =>
        obtain ⟨first',hdel,heq⟩ := hrest (some (first.getD index))
        refine ⟨first',fun d hd => ?_,by simp only [slotFrom, hs, heq, Nat.add_lt_add_iff_right]⟩
        rcases hdel d hd with hfd | ⟨m,hm,hmd,hd'⟩
        · cases first with
          | none =>
            obtain rfl : index = d := Option.some.inj hfd
            exact Or.inr ⟨0,Nat.succ_pos k,rfl,hs⟩
          | some c => exact Or.inl hfd
        · exact Or.inr ⟨m + 1,Nat.succ_lt_succ hm,by rwa [Function.iterate_succ_apply],hd'⟩
      | full x =>
        have hkey : key x ≠ a := fun hkey => hfirst (Or.inr ⟨x,hs,hkey⟩)
        obtain ⟨first',hdel,heq⟩ := hrest first
        refine ⟨first',fun d hd => ?_,by simp only [slotFrom, hs, heq, hkey, if_false, Nat.add_lt_add_iff_right]⟩
        rcases hdel d hd with hfd | ⟨m,hm,hmd,hd'⟩
        · exact Or.inl hfd
        · exact Or.inr ⟨m + 1,Nat.succ_lt_succ hm,by rwa [Function.iterate_succ_apply],hd'⟩

namespace Inv

theorem htabFind_ends (h : Inv key hash T) (fuel : ℕ) (e : ε) :
    (htabFind key hash fuel T e).Ends fuel fun o => ∀ x, o = some x ↔ T.Holds x ∧ key x = key e := by
  obtain ⟨k,hk,hstop,hbefore,hspec⟩ := h.exists_stop (key e)
  have hsize := h.size_eq
  have heq := @findFrom_eq ε α _ key T (key e) (htabModM2 T.sizePrimeIndex (hash (key e)).toNat) k fuel
    (htabMod T.sizePrimeIndex (hash (key e)).toNat)
  rw [hsize] at heq
  rw [htabFind, heq hstop hbefore]
  split
  · exact Or.inr ⟨_,rfl,hspec⟩
  · rename_i hfuel
    exact Or.inl ⟨rfl,(Nat.not_lt.mp hfuel).trans_lt (hk.trans_le h.size_le)⟩

/-- The search of `htab_find_slot`, with all that is known where it ends. -/
theorem slotFrom_ends (h : Inv key hash T) (fuel : ℕ) (a : α) :
    (slotFrom key T a (htabModM2 T.sizePrimeIndex (hash a).toNat) fuel none
      (htabMod T.sizePrimeIndex (hash a).toNat)).Ends fuel fun r =>
      ∃ k, (∀ m < k, ¬ Stops key a (T.entries (T.probe hash a m))) ∧
        (∀ x, (T.entries (T.probe hash a k)).element = some x ↔ T.Holds x ∧ key x = a) ∧
        ((∃ x, T.entries (T.probe hash a k) = .full x ∧ r = .found (T.probe hash a k)) ∨
          T.entries (T.probe hash a k) = .empty ∧ ∃ first, r = .empty (T.probe hash a k) first ∧
            ∀ d, first = some d → ∃ m < k, T.probe hash a m = d ∧ T.entries d = .deleted) := by
  obtain ⟨k,hk,hstop,hbefore,hspec⟩ := h.exists_stop a
  have hsize := h.size_eq
  have heq := @slotFrom_eq ε α _ key T a (htabModM2 T.sizePrimeIndex (hash a).toNat) k fuel none
    (htabMod T.sizePrimeIndex (hash a).toNat)
  rw [hsize] at heq
  obtain ⟨first,hfirst,heq⟩ := heq hstop hbefore
  rw [heq]
  split
  · refine Or.inr ⟨_,rfl,k,hbefore,hspec,?_⟩
    change (∃ x, T.entries (T.probe hash a k) = .full x ∧
      (if (T.entries (T.probe hash a k)).isFull then _ else _) = _) ∨ _ ∧ ∃ first, (if (T.entries (T.probe hash a k)).isFull
        then _ else _) = _ ∧ _
    rcases hstop with hempty | ⟨x,hx,-⟩
    · refine Or.inr ⟨hempty,first,?_,fun d hd => ?_⟩
      · change T.entries (T.probe hash a k) = .empty at hempty
        rw [hempty]
        rfl
      · rcases hfirst d hd with hnone | hdel
        · cases hnone
        · exact hdel
    · change T.entries (T.probe hash a k) = .full x at hx
      refine Or.inl ⟨x,hx,?_⟩
      rw [hx]
      rfl
  · rename_i hfuel
    exact Or.inl ⟨rfl,(Nat.not_lt.mp hfuel).trans_lt (hk.trans_le h.size_le)⟩

end Inv

/-- The insertion into a table that has room. -/
theorem Inv.insertInto_ends (h : Inv key hash T) (hroom : T.nElements * 4 < T.size * 3) (fuel : ℕ) (a : α) :
    ((slotFrom key T a (htabModM2 T.sizePrimeIndex (hash a).toNat) fuel none
      (htabMod T.sizePrimeIndex (hash a).toNat)).bind (insertSlot T true)).Ends fuel
      fun r => ∃ i, Inserted key hash T a r i := by
  refine (h.slotFrom_ends fuel a).bind fun r hr => Or.inr ?_
  obtain ⟨k,hbefore,hspec,hend⟩ := hr
  rcases hend with ⟨y,hy,rfl⟩ | ⟨hempty,first,rfl,hfirst⟩
  · exact ⟨_,rfl,_,Inserted.of_found h (h.probe_lt a k) hy hspec⟩
  · have hnone : ∀ x, T.Holds x → key x ≠ a := by
      intro x hx hkey
      have := (hspec x).mpr ⟨hx,hkey⟩
      rw [hempty] at this
      cases this
    cases first with
    | none =>
      refine ⟨_,rfl,_,Inserted.of_empty (h.probe_lt a k) hempty hnone (fun x y => ?_) fun x hx => ?_⟩
      · exact holds_write_full (h.probe_lt a k) (by rw [hempty]; rfl)
      · subst hx
        exact h.write_empty hempty hbefore hnone hroom
    | some d =>
      obtain ⟨m,hm,rfl,hdel⟩ := hfirst d rfl
      refine ⟨_,rfl,_,Inserted.of_empty (h.probe_lt a m) (Table.write_entries_self _ _) hnone (fun x y => ?_)
        fun x hx => ?_⟩
      · rw [Table.write_write]
        exact holds_write_full (h.probe_lt a m) (by rw [hdel]; rfl)
      · subst hx
        rw [Table.write_write]
        exact h.write_reused hdel (fun n hn => hbefore n (hn.trans hm)) hnone

/-- An insertion ends, with the slot that belongs to the key. -/
theorem Inv.htabFindSlot_insert (h : Inv key hash T) (hfits : T.Fits) (fuel : ℕ) (e : ε) :
    (htabFindSlot key hash fuel T e true).Ends fuel fun r => ∃ i, Inserted key hash T (key e) r i := by
  rw [htabFindSlot]
  split
  · rename_i hfull
    refine (htabExpand_ends h (hfits hfull.2)).bind fun T₁ hT₁ => ?_
    obtain ⟨hinv,hholds,hroom⟩ := hT₁
    exact (hinv.insertInto_ends hroom fuel (key e)).mono fun r ⟨i,hi⟩ => ⟨i,hi.congr hholds⟩
  · rename_i hroom
    exact h.insertInto_ends (by simpa using hroom) fuel (key e)

/-- A lookup ends, and the table stays as it is. -/
theorem Inv.htabFindSlot_lookup (h : Inv key hash T) (fuel : ℕ) (e : ε) :
    (htabFindSlot key hash fuel T e false).Ends fuel fun r => r.1 = T ∧
      ((r.2 = none ∧ ∀ x, T.Holds x → key x ≠ key e) ∨
        ∃ i < T.size, ∃ x, r.2 = some i ∧ T.entries i = .full x ∧ key x = key e) := by
  rw [htabFindSlot, if_neg fun h => Bool.false_ne_true h.1]
  refine (h.slotFrom_ends fuel (key e)).bind fun r hr => Or.inr ?_
  obtain ⟨k,-,hspec,⟨y,hy,rfl⟩ | ⟨hempty,first,rfl,-⟩⟩ := hr
  · exact ⟨_,rfl,rfl,Or.inr ⟨_,h.probe_lt (key e) k,y,rfl,hy,((hspec y).mp (by rw [hy]; rfl)).2⟩⟩
  · refine ⟨_,rfl,rfl,Or.inl ⟨rfl,fun x hx hkey => ?_⟩⟩
    have := (hspec x).mpr ⟨hx,hkey⟩
    rw [hempty] at this
    cases this

theorem Refines.insert {M : α → Option ε} (h : Refines key T M) {a : α} {r : Table ε × Option ℕ} {i : ℕ}
    (hr : Inserted key hash T a r i) {x : ε} (hx : key x = a) :
    Refines key (r.1.fill i x) (if (M a).isSome then M else Function.update M a (some x)) := by
  intro b y
  rw [hr.holds x hx y]
  cases hM : M a with
  | none =>
    have hnone := h.eq_none_iff.mp hM
    simp only [Option.isSome_none, Bool.false_eq_true, if_false, Function.update_apply]
    by_cases hb : b = a
    · subst hb
      rw [if_pos rfl, Option.some.injEq]
      constructor
      · rintro rfl
        exact ⟨Or.inr ⟨rfl,hnone⟩,hx⟩
      · rintro ⟨hy | ⟨rfl,-⟩,hkey⟩
        · exact absurd hkey (hnone y hy)
        · rfl
    · rw [if_neg hb, h b y]
      constructor
      · exact fun hy => ⟨Or.inl hy.1,hy.2⟩
      · rintro ⟨hy | ⟨rfl,-⟩,hkey⟩
        · exact ⟨hy,hkey⟩
        · exact absurd (hkey.symm.trans hx) hb
  | some z =>
    obtain ⟨hz,hkey⟩ := (h a z).mp hM
    simp only [Option.isSome_some, if_true, h b y]
    constructor
    · exact fun hy => ⟨Or.inl hy.1,hy.2⟩
    · rintro ⟨hy | ⟨-,hnone⟩,hb⟩
      · exact ⟨hy,hb⟩
      · exact absurd hkey (hnone z hz)

theorem htabClearSlot_eq {i : ℕ} {x : ε} (hi : i < T.size) (hx : T.entries i = .full x) :
    htabClearSlot T i = .done (({ T with nDeleted := T.nDeleted + 1 } : Table ε).write i .deleted) := by
  rw [htabClearSlot, if_neg (Nat.not_le.mpr hi), hx]

theorem Refines.clear {M : α → Option ε} (h : Refines key T M) (hinv : Probed key hash T) {i : ℕ} {x : ε}
    (hi : i < T.size) (hx : T.entries i = .full x) :
    Refines key (({ T with nDeleted := T.nDeleted + 1 } : Table ε).write i .deleted) (Function.update M (key x) none) := by
  intro a y
  have hholds : (T.write i .deleted).Holds y ↔ T.Holds y ∧ key y ≠ key x := by
    constructor
    · rintro ⟨j,hj,hy⟩
      by_cases hji : j = i
      · rw [hji, Table.write_entries_self] at hy
        cases hy
      · rw [Table.write_entries_of_ne _ hji] at hy
        exact ⟨⟨j,hj,hy⟩,fun hkey => hji (hinv.unique j hj i hi y x hy hx hkey)⟩
    · rintro ⟨⟨j,hj,hy⟩,hkey⟩
      have hji : j ≠ i := by
        rintro rfl
        rw [hx] at hy
        cases hy
        exact hkey rfl
      exact ⟨j,hj,by rwa [Table.write_entries_of_ne _ hji]⟩
  change _ ↔ (T.write i .deleted).Holds y ∧ key y = a
  rw [hholds, Function.update_apply]
  by_cases ha : a = key x
  · rw [if_pos ha]
    exact ⟨fun h => (by cases h),fun h => absurd (h.2.trans ha) h.1.2⟩
  · rw [if_neg ha, h a y]
    exact ⟨fun hy => ⟨⟨hy.1,fun hkey => ha (hy.2.symm.trans hkey)⟩,hy.2⟩,fun hy => ⟨hy.1.1,hy.2⟩⟩

/-- Every table that is reached keeps the invariant and stands for its map. -/
theorem Reached.inv {M : α → Option ε} (h : Reached key hash Table.Fits T M) : Inv key hash T ∧ Refines key T M := by
  induction h with
  | @create n T hn h =>
    obtain ⟨T₁,hT₁,hfilled,-,hel,hdel⟩ := @htabCreate_done ε α key hash n hn
    rw [h] at hT₁
    cases hT₁
    refine ⟨⟨hfilled.toProbed,?_,?_,?_⟩,fun a x => ?_⟩
    · rw [hdel, hfilled.noDeleted]
    · rw [hel, hfilled.full, hfilled.noDeleted]
      rfl
    · omega
    · rw [hfilled.holds]
      simp
  | @insert T T' M fuel i e x _ hok h hx ih =>
    rcases ih.1.htabFindSlot_insert hok fuel e with ⟨hmore,-⟩ | ⟨r,hr,j,hj⟩
    · rw [h] at hmore
      cases hmore
    · rw [h] at hr
      cases hr
      cases hj.slot
      exact ⟨hj.inv x hx,ih.2.insert hj hx⟩
  | @clear T T' M i x _ hi hx h ih =>
    rw [htabClearSlot_eq hi hx] at h
    cases h
    exact ⟨ih.1.write_deleted hi hx,ih.2.clear ih.1.toProbed hi hx⟩

/-- As many elements as the counters say are stored. -/
theorem Inv.ncard_eq {M : α → Option ε} (h : Inv key hash T) (hM : Refines key T M) :
    {a | M a ≠ none}.ncard = T.nElements - T.nDeleted := by
  have hset : {a | M a ≠ none} = ((T.stored.map key).toFinset : Set α) := by
    ext a
    rw [Set.mem_ofPred_eq, Ne, hM.eq_none_iff]
    simp only [List.coe_toFinset, List.mem_map, Table.mem_stored, Set.mem_ofPred_eq]
    push Not
    exact Iff.rfl
  rw [hset, Set.ncard_coe_finset, List.toFinset_card_of_nodup h.nodup_stored, List.length_map, Table.stored_length,
    h.elements, h.deleted, Nat.add_sub_cancel]

end Searches

section Correct
variable [DecidableEq α] (key : ε → α) (hash : α → UInt32)

/-- What is asked of a table that stands for the map `M`: every operation ends and answers as the map does, the
counters are right, and a slot is left. -/
structure Correct (T : Table ε) (M : α → Option ε) : Prop where
  find : ∀ e, ∃ bound, ∀ fuel ≥ bound, htabFind key hash fuel T e = .done (M (key e))
  lookup : ∀ e, ∃ bound, ∀ fuel ≥ bound, ∃ slot, htabFindSlot key hash fuel T e false = .done (T,slot) ∧
    (slot = none ↔ M (key e) = none) ∧ ∀ i, slot = some i → i < T.size ∧ ∃ x, M (key e) = some x ∧ T.entries i = .full x
  insert : ∀ e, ∃ bound, ∀ fuel ≥ bound, ∃ T' i, htabFindSlot key hash fuel T e true = .done (T',some i) ∧ i < T'.size ∧
    (∀ x, T'.entries i = .full x ↔ M (key e) = some x) ∧ (T'.entries i = .empty ↔ M (key e) = none)
  clear : ∀ i < T.size, ∀ x, T.entries i = .full x → ∃ T', htabClearSlot T i = .done T'
  deleted_le : T.nDeleted ≤ T.nElements
  stored : {a | M a ≠ none}.ncard = T.nElements - T.nDeleted
  empty : ∃ i < T.size, T.entries i = .empty

variable {key hash}

/-- The result that a function ends with when it is given enough time. -/
theorem Outcome.Ends.eventually {β : Type*} {f : ℕ → Outcome β} {P : β → Prop} (h : ∀ fuel, (f fuel).Ends fuel P) :
    ∀ fuel ≥ maxSize, ∃ b, f fuel = .done b ∧ P b := by
  intro fuel hfuel
  rcases h fuel with ⟨-,hlt⟩ | hb
  · exact absurd hlt (Nat.not_lt.mpr hfuel)
  · exact hb

theorem Inv.correct {T : Table ε} {M : α → Option ε} (h : Inv key hash T) (hM : Refines key T M) (hfits : T.Fits) :
    Correct key hash T M where
  find e := ⟨maxSize,fun fuel hfuel => by
    obtain ⟨o,ho,hspec⟩ := Outcome.Ends.eventually (fun fuel => h.htabFind_ends fuel e) fuel hfuel
    rw [ho]
    congr 1
    exact Option.ext fun x => (hspec x).trans (hM (key e) x).symm⟩
  lookup e := ⟨maxSize,fun fuel hfuel => by
    obtain ⟨⟨T',slot⟩,hr,rfl,hslot⟩ := Outcome.Ends.eventually (fun fuel => h.htabFindSlot_lookup fuel e) fuel hfuel
    refine ⟨slot,hr,?_⟩
    rcases hslot with ⟨rfl,hnone⟩ | ⟨i,hi,x,rfl,hx,hkey⟩
    · exact ⟨⟨fun _ => hM.eq_none_iff.mpr hnone,fun _ => rfl⟩,fun i hi => (by cases hi)⟩
    · have hMx := (hM (key e) x).mpr ⟨⟨i,hi,hx⟩,hkey⟩
      rw [hMx]
      refine ⟨⟨fun h => (by cases h),fun h => (by cases h)⟩,fun j hj => ?_⟩
      cases hj
      exact ⟨hi,x,rfl,hx⟩⟩
  insert e := ⟨maxSize,fun fuel hfuel => by
    obtain ⟨⟨T',slot⟩,hr,i,hi⟩ := Outcome.Ends.eventually (fun fuel => h.htabFindSlot_insert hfits fuel e) fuel hfuel
    cases hi.slot
    exact ⟨T',i,hr,hi.lt,fun x => (hi.found x).trans (hM (key e) x).symm,hi.empty.trans hM.eq_none_iff.symm⟩⟩
  clear i hi x hx := ⟨_,htabClearSlot_eq hi hx⟩
  deleted_le := by
    rw [h.deleted, h.elements]
    exact Nat.le_add_left _ _
  stored := h.ncard_eq hM
  empty := h.exists_empty

/-- After any sequence of operations whose insertions never expand the table beyond `maxSize`, the table is a
correct implementation of the finite map. -/
theorem htab_correct {T : Table ε} {M : α → Option ε} (h : Reached key hash Table.Fits T M) (hfits : T.Fits) :
    Correct key hash T M :=
  h.inv.1.correct h.inv.2 hfits

end Correct

section LastSize

/-- The constant hash of the run. -/
def badHash : ℕ → UInt32 := fun _ => 2147483647

/-- The slots that are probed in a table of the last size, where the sum of two indices overflows. -/
def OnPath (i : ℕ) : Prop := i = 2147483647 ∨ i = 4 ∨ i = 2147483652

theorem OnPath.next {i : ℕ} (h : OnPath i) : OnPath (nextIndex 4294967291 2147483648 i) := by
  rcases h with rfl | rfl | rfl
  · exact Or.inr (Or.inl (by decide))
  · exact Or.inr (Or.inr (by decide))
  · exact Or.inr (Or.inl (by decide))

theorem emptyFrom_onPath {T : Table ℕ} (hsize : T.size = 4294967291) (fuel : ℕ) : ∀ {index i : ℕ}, OnPath index →
    emptyFrom T 2147483648 fuel index = .done i → OnPath i ∧ T.entries i = .empty := by
  induction fuel with
  | zero => exact fun _ h => by cases h
  | succ fuel ih =>
    intro index i hpath h
    rw [emptyFrom] at h
    split at h
    next hempty =>
      cases h
      exact ⟨hpath,hempty⟩
    next => cases h
    next =>
      rw [hsize] at h
      exact ih hpath.next h

theorem emptyFrom_ne_abort {T : Table ε} (hdel : ∀ i, T.entries i ≠ .deleted) (hash2 fuel : ℕ) : ∀ {index : ℕ},
    emptyFrom T hash2 fuel index ≠ .abort := by
  induction fuel with
  | zero => exact fun h => by cases h
  | succ fuel ih =>
    intro index h
    rw [emptyFrom] at h
    split at h
    next => cases h
    next hd => exact hdel index hd
    next => exact ih h

theorem refill_ne_abort {key : ε → α} {hash : α → UInt32} {fuel : ℕ} (xs : List ε) : ∀ {T : Table ε},
    (∀ i, T.entries i ≠ .deleted) → refill key hash fuel xs T ≠ .abort := by
  induction xs with
  | nil => exact fun _ h => by cases h
  | cons x xs ih =>
    intro T hdel h
    rw [refill] at h
    cases hfind : findEmptySlotForExpand fuel T (hash (key x)).toNat with
    | more =>
      rw [hfind] at h
      cases h
    | abort => exact emptyFrom_ne_abort hdel _ _ hfind
    | done i =>
      rw [hfind] at h
      refine ih (fun j hj => ?_) h
      by_cases hji : j = i
      · rw [hji, Table.write_entries_self] at hj
        cases hj
      · rw [Table.write_entries_of_ne _ hji] at hj
        exact hdel j hj

/-- The first slots are found, and then they are full. -/
theorem refill_onPath {T T' : Table ℕ} {fuel x : ℕ} {xs : List ℕ} (hsize : T.size = 4294967291)
    (hindex : T.sizePrimeIndex = 29) (h : refill id badHash fuel (x :: xs) T = .done T') :
    ∃ i, OnPath i ∧ T.entries i = .empty ∧ refill id badHash fuel xs (T.write i (.full x)) = .done T' := by
  rw [refill, Outcome.bind_eq_done] at h
  obtain ⟨i,hfind,hrest⟩ := h
  have hmod : htabMod 29 2147483647 = 2147483647 := by decide
  have hmod2 : htabModM2 29 2147483647 = 2147483648 := by decide
  have hhash : (badHash (id x)).toNat = 2147483647 := rfl
  rw [findEmptySlotForExpand, hindex, hhash, hmod, hmod2] at hfind
  obtain ⟨hpath,hempty⟩ := emptyFrom_onPath hsize fuel (Or.inl rfl) hfind
  exact ⟨i,hpath,hempty,hrest⟩

/-- A fourth element never finds a slot. -/
theorem refill_four {T : Table ℕ} {fuel : ℕ} {xs : List ℕ} (hsize : T.size = 4294967291)
    (hindex : T.sizePrimeIndex = 29) (hlen : 4 ≤ xs.length) (T' : Table ℕ) : refill id badHash fuel xs T ≠ .done T' := by
  intro h
  match xs, hlen with
  | x :: y :: z :: w :: xs, _ =>
    obtain ⟨i,hi,-,h⟩ := refill_onPath hsize hindex h
    obtain ⟨j,hj,hjempty,h⟩ := refill_onPath (T := T.write i _) hsize hindex h
    obtain ⟨k,hk,hkempty,h⟩ := refill_onPath (T := (T.write i _).write j _) hsize hindex h
    obtain ⟨l,hl,hlempty,-⟩ := refill_onPath (T := ((T.write i _).write j _).write k _) hsize hindex h
    have hfull : ∀ {S : Table ℕ} {m n : ℕ} {v : ℕ}, (S.write m (.full v)).entries n = .empty →
        n ≠ m ∧ S.entries n = .empty := by
      intro S m n v hn
      by_cases hnm : n = m
      · rw [hnm, Table.write_entries_self] at hn
        cases hn
      · rw [Table.write_entries_of_ne _ hnm] at hn
        exact ⟨hnm,hn⟩
    obtain ⟨hlk,hl'⟩ := hfull hlempty
    obtain ⟨hlj,hl''⟩ := hfull hl'
    obtain ⟨hli,-⟩ := hfull hl''
    obtain ⟨hkj,hk'⟩ := hfull hkempty
    obtain ⟨hki,-⟩ := hfull hk'
    obtain ⟨hji,-⟩ := hfull hjempty
    unfold OnPath at hi hj hk hl
    omega

theorem Reached.mono [DecidableEq α] {key : ε → α} {hash : α → UInt32} {ok ok' : Table ε → Prop}
    (hok : ∀ T, ok T → ok' T) {T : Table ε} {M : α → Option ε} (h : Reached key hash ok T M) :
    Reached key hash ok' T M := by
  induction h with
  | create hn h => exact .create hn h
  | insert _ h1 h hx ih => exact .insert ih (hok _ h1) h hx
  | clear _ hi hx h ih => exact .clear ih hi hx h

/-- Insertions alone come to a table that has to be expanded beyond `maxSize`. -/
theorem exists_not_fits : ∃ T M, Reached id badHash Table.Fits T M ∧ ¬ T.Fits := by
  by_contra hnone
  have hfits : ∀ {T M}, Reached id badHash Table.Fits T M → T.Fits := fun h => by
    by_contra hT
    exact hnone ⟨_,_,h,hT⟩
  have hgrow : ∀ n, ∃ T M, Reached id badHash Table.Fits T M ∧ ∀ a, M a = none ↔ n ≤ a := by
    intro n
    induction n with
    | zero =>
      obtain ⟨T,hT,-⟩ := @htabCreate_done ℕ ℕ id badHash 0 (Nat.zero_le _)
      exact ⟨T,_,.create (Nat.zero_le _) hT,fun a => by simp⟩
    | succ n ih =>
      obtain ⟨T,M,hreached,hM⟩ := ih
      obtain ⟨⟨T',slot⟩,hr,i,hi⟩ := Outcome.Ends.eventually
        (fun fuel => hreached.inv.1.htabFindSlot_insert (hfits hreached) fuel n) maxSize le_rfl
      cases hi.slot
      refine ⟨_,_,hreached.insert (x := n) (hfits hreached) hr rfl,fun a => ?_⟩
      have hMn : M (id n) = none := (hM n).mpr le_rfl
      rw [hMn, if_neg (by simp), Function.update_apply]
      by_cases ha : a = n
      · subst ha
        simp
      · rw [id, if_neg ha, hM]
        omega
  obtain ⟨T,M,hreached,hM⟩ := hgrow maxSize
  obtain ⟨hinv,hrefines⟩ := hreached.inv
  have hset : {a | M a ≠ none} = ((Finset.range maxSize : Finset ℕ) : Set ℕ) := by
    ext a
    simp [hM]
  have hcard := hinv.ncard_eq hrefines
  rw [hset, Set.ncard_coe_finset, Finset.card_range] at hcard
  have hlt := hinv.nElements_lt
  have hle := hinv.size_le
  omega

/-- The expansion beyond `maxSize` goes round four slots for ever. -/
theorem htab_expansion_loops : ∃ T M, Reached id badHash (fun _ => True) T M ∧ ∃ e, M e = none ∧
    ∀ fuel, htabFindSlot id badHash fuel T e true = .more := by
  obtain ⟨T,M,hreached,hfits⟩ := exists_not_fits
  obtain ⟨hinv,hM⟩ := hreached.inv
  have hsize := hinv.size_le
  have hload := hinv.load
  obtain ⟨hfull,hlarge⟩ : T.size * 3 ≤ T.nElements * 4 ∧ maxSize < T.elements * 2 := by
    simpa [Table.Fits] using hfits
  have helements : T.elements = T.stored.length := by
    rw [Table.elements, hinv.elements, hinv.deleted, Nat.add_sub_cancel, Table.stored_length]
  have hle : T.elements ≤ T.nElements := Nat.sub_le _ _
  obtain ⟨e,he⟩ : ∃ e, M e = none := by
    -- the elements are finitely many
    obtain ⟨e,he⟩ := Infinite.exists_notMem_finset (T.stored.toFinset)
    refine ⟨e,hM.eq_none_iff.mpr fun x hx hxe => he ?_⟩
    rw [← hxe]
    exact List.mem_toFinset.mpr (Table.mem_stored.mpr hx)
  refine ⟨T,M,hreached.mono fun _ _ => trivial,e,he,fun fuel => ?_⟩
  have hexpand : htabExpand id badHash fuel T = .more := by
    unfold maxSize at hsize hlarge
    rw [htabExpand, if_pos (Or.inl (by omega)), htabCreate, higherPrimeIndex_last hlarge (by omega)]
    change refill id badHash fuel T.stored ⟨(primeAt 29).prime,_,0,29,fun _ => .empty⟩ = .more
    cases hout : refill id badHash fuel T.stored
        (⟨(primeAt 29).prime,T.nElements - T.nDeleted,0,29,fun _ => .empty⟩ : Table ℕ) with
    | more => rfl
    | abort => exact absurd hout (refill_ne_abort _ fun i h => by cases h)
    | done T' => exact absurd hout (refill_four rfl rfl (by omega) T')
  rw [htabFindSlot, if_pos ⟨rfl,hfull⟩, hexpand]
  rfl

end LastSize

theorem htabCreate_five : htabCreate 5 = .done (⟨7,0,0,0,fun _ => .empty⟩ : Table ℕ) := by
  have hsearch : searchPrime 5 0 30 = 0 := by
    simp [searchPrime, primeAt, primeTab]
  rw [htabCreate, higherPrimeIndex, hsearch]
  rfl

/-- Two elements with the same first probe, of which the first is deleted. -/
theorem htab_correct_collision : ∃ T : Table ℕ, ∃ M : ℕ → Option ℕ, M 5 = none ∧ M 12 = some 12 ∧
    Correct id Nat.toUInt32 T M := by
  have hcreate : Reached id Nat.toUInt32 Table.Fits (⟨7,0,0,0,fun _ => .empty⟩ : Table ℕ) fun _ => none :=
    .create (by decide) htabCreate_five
  have hfirst : htabFindSlot id Nat.toUInt32 7 ⟨7,0,0,0,fun _ => .empty⟩ 5 true =
      .done (⟨7,1,0,0,fun _ => .empty⟩,some 5) := rfl
  have hsecond : htabFindSlot id Nat.toUInt32 7 (Table.fill ⟨7,1,0,0,fun _ => .empty⟩ 5 5) 12 true =
      .done ({ Table.fill ⟨7,1,0,0,fun _ => .empty⟩ 5 5 with nElements := 2 },some 1) := rfl
  have hone := hcreate.insert (by decide) hfirst (x := 5) rfl
  have htwo := hone.insert (by decide) hsecond (x := 12) rfl
  have hclear := htwo.clear (i := 5) (x := 5) (by decide) rfl rfl
  have hcorrect := htab_correct hclear (by decide)
  refine ⟨_,_,?_,?_,hcorrect⟩
  · rfl
  · rfl

end GompUlt.HashTab
