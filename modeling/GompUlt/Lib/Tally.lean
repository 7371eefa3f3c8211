import Mathlib.Algebra.BigOperators.Pi
import Mathlib.Data.List.Nodup
import Mathlib.Logic.Function.Basic
import Mathlib.Tactic.Common

/-! # Amounts kept in hashed chains

A chain has an item for each key that an amount was added to.  A table is an array of chains, with each key in the
chain of its hash value.  What is held for a key is the sum of the amounts that were added to it.
-/
namespace GompUlt.Tally

/-- Items with a key and a value; what is done to an item when something is added to it, and the item that a key
begins with. -/
structure Items (α κ ν δ : Type*) [Add ν] where
  key : α → κ
  val : α → ν
  amount : δ → ν
  bump : δ → α → α
  fresh : κ → δ → α
  key_bump : ∀ d a, key (bump d a) = key a
  val_bump : ∀ d a, val (bump d a) = val a + amount d
  key_fresh : ∀ k d, key (fresh k d) = k
  val_fresh : ∀ k d, val (fresh k d) = amount d

/-- Something added at each index apart. -/
theorem sum_single {ι ν : Type*} [DecidableEq ι] [AddCommMonoid ν] {l : List ι} (hl : l.Nodup) (hall : ∀ i, i ∈ l)
    (f : ι → ν) : (l.map fun i => (Pi.single i (f i) : ι → ν)).sum = f := by
  have hsum : ∀ {l : List ι}, l.Nodup → ∀ j, (l.map fun i => (Pi.single i (f i) : ι → ν)).sum j =
      if j ∈ l then f j else 0 := by
    intro l hl j
    induction l with
    | nil => simp
    | cons i l ih =>
      rw [List.nodup_cons] at hl
      rw [List.map_cons, List.sum_cons, Pi.add_apply, ih hl.2]
      rcases eq_or_ne j i with rfl | hj
      · simp [hl.1]
      · simp [hj]
  funext j
  rw [hsum hl, if_pos (hall j)]

namespace Items
variable {α β κ ν δ : Type*} [AddCommMonoid ν] [DecidableEq κ] [DecidableEq β]

section Chains
variable (I : Items α κ ν δ)

/-- Adds to the first item with the key, if there is one. -/
def bumpFirst (k : κ) (d : δ) : List α → Option (List α)
  | [] => none
  | a :: c => if I.key a = k then some (I.bump d a :: c) else (bumpFirst k d c).map (a :: ·)

/-- A new key comes to the front. -/
def add (k : κ) (d : δ) (c : List α) : List α := (I.bumpFirst k d c).getD (I.fresh k d :: c)

def total (c : List α) (k : κ) : ν := ((c.filter fun a => I.key a = k).map I.val).sum

end Chains

section Chains
variable {I : Items α κ ν δ} {c c' : List α} {k k' : κ} {d : δ} {a : α}

theorem total_cons : I.total (a :: c) k = (if k = I.key a then I.val a else 0) + I.total c k := by
  by_cases h : I.key a = k
  · simp [total, h]
  · simp [total, h, Ne.symm h]

theorem bumpFirst_none (h : I.bumpFirst k d c = none) : k ∉ c.map I.key := by
  induction c with
  | nil => simp
  | cons a c ih =>
    rw [bumpFirst] at h
    split at h
    next => exact absurd h nofun
    next hne =>
      rw [List.map_cons, List.mem_cons, not_or]
      exact ⟨Ne.symm hne,ih (Option.map_eq_none_iff.mp h)⟩

theorem bumpFirst_some (h : I.bumpFirst k d c = some c') :
    c'.map I.key = c.map I.key ∧ k ∈ c.map I.key ∧
      ∀ k', I.total c' k' = I.total c k' + if k' = k then I.amount d else 0 := by
  induction c generalizing c' with
  | nil => exact absurd h nofun
  | cons a c ih =>
    rw [bumpFirst] at h
    split at h
    next hk =>
      obtain rfl := Option.some.inj h
      refine ⟨by simp [I.key_bump],by simp [hk],fun k' => ?_⟩
      rw [total_cons, total_cons, I.key_bump, I.val_bump, hk]
      split
      next => rw [add_right_comm]
      next => rw [add_zero]
    next hk =>
      obtain ⟨c₁,hc₁,rfl⟩ := Option.map_eq_some_iff.mp h
      obtain ⟨hkeys,hmem,htotal⟩ := ih hc₁
      refine ⟨by simp [hkeys],List.mem_cons_of_mem _ hmem,fun k' => ?_⟩
      rw [total_cons, total_cons, htotal, add_assoc]

theorem total_add : I.total (I.add k d c) k' = I.total c k' + if k' = k then I.amount d else 0 := by
  rw [add]
  cases h : I.bumpFirst k d c with
  | some c' => exact (bumpFirst_some h).2.2 k'
  | none => rw [Option.getD_none, total_cons, I.key_fresh, I.val_fresh, add_comm]

theorem mem_keys_add : k' ∈ (I.add k d c).map I.key ↔ k' = k ∨ k' ∈ c.map I.key := by
  rw [add]
  cases h : I.bumpFirst k d c with
  | some c' =>
    obtain ⟨hkeys,hmem,-⟩ := bumpFirst_some h
    rw [Option.getD_some, hkeys, or_iff_right_of_imp]
    rintro rfl
    exact hmem
  | none => rw [Option.getD_none, List.map_cons, I.key_fresh, List.mem_cons]

theorem nodup_add (hc : (c.map I.key).Nodup) : ((I.add k d c).map I.key).Nodup := by
  rw [add]
  cases h : I.bumpFirst k d c with
  | some c' => rwa [Option.getD_some, (bumpFirst_some h).1]
  | none =>
    rw [Option.getD_none, List.map_cons, I.key_fresh, List.nodup_cons]
    exact ⟨bumpFirst_none h,hc⟩

/-- With each key once, the value of an item is the total of its key. -/
theorem total_of_mem (hc : (c.map I.key).Nodup) (ha : a ∈ c) : I.total c (I.key a) = I.val a := by
  induction c with
  | nil => exact absurd ha List.not_mem_nil
  | cons b c ih =>
    rw [List.map_cons, List.nodup_cons] at hc
    rw [total_cons]
    rcases List.mem_cons.mp ha with rfl | ha
    · have hnone : c.filter (fun b => I.key b = I.key a) = [] := by
        rw [List.filter_eq_nil_iff]
        intro b hb heq
        exact hc.1 (of_decide_eq_true heq ▸ List.mem_map_of_mem hb)
      rw [if_pos rfl, total, hnone, List.map_nil, List.sum_nil, add_zero]
    · have hne : I.key a ≠ I.key b := by
        intro heq
        exact hc.1 (heq ▸ List.mem_map_of_mem ha)
      rw [if_neg hne, zero_add, ih hc.2 ha]

end Chains

section Tables
variable (I : Items α κ ν δ) (hash : κ → β)

/-- Each key once in the chain of its hash value, and in no other. -/
structure Wf (t : β → List α) : Prop where
  nodup : ∀ b, ((t b).map I.key).Nodup
  placed : ∀ b, ∀ a ∈ t b, hash (I.key a) = b

def addTo (t : β → List α) (k : κ) (d : δ) : β → List α := Function.update t (hash k) (I.add k d (t (hash k)))

def held (t : β → List α) (k : κ) : ν := I.total (t (hash k)) k

def Has (t : β → List α) (k : κ) : Prop := k ∈ (t (hash k)).map I.key

/-- Several amounts for one key. -/
def addAll (t : β → List α) (k : κ) (ds : List δ) : β → List α := ds.foldl (fun t d => I.addTo hash t k d) t

end Tables

section Tables
variable {I : Items α κ ν δ} {hash : κ → β} {t : β → List α} {k k' : κ} {d : δ} {a : α} {b : β} {c : List α}

omit [DecidableEq κ] [DecidableEq β] in
theorem Wf.empty : I.Wf hash fun _ => [] := ⟨fun _ => List.nodup_nil,fun _ _ ha => absurd ha List.not_mem_nil⟩

theorem held_addTo : I.held hash (I.addTo hash t k d) k' = I.held hash t k' + if k' = k then I.amount d else 0 := by
  by_cases hb : hash k' = hash k
  · rw [held, held, addTo, hb, Function.update_self, total_add]
  · have hne : k' ≠ k := fun h => hb (h ▸ rfl)
    rw [held, held, addTo, Function.update_of_ne hb, if_neg hne, add_zero]

theorem has_addTo : I.Has hash (I.addTo hash t k d) k' ↔ k' = k ∨ I.Has hash t k' := by
  by_cases hb : hash k' = hash k
  · rw [Has, Has, addTo, hb, Function.update_self, mem_keys_add]
  · have hne : k' ≠ k := fun h => hb (h ▸ rfl)
    rw [Has, Has, addTo, Function.update_of_ne hb, or_iff_right hne]

omit [DecidableEq κ] in
theorem Wf.update (h : I.Wf hash t) (hnodup : (c.map I.key).Nodup) (hplaced : ∀ k ∈ c.map I.key, hash k = b) :
    I.Wf hash (Function.update t b c) := by
  constructor
  · intro b'
    rcases eq_or_ne b' b with rfl | hb
    · rwa [Function.update_self]
    · rw [Function.update_of_ne hb]
      exact h.nodup b'
  · intro b' a ha
    rcases eq_or_ne b' b with rfl | hb
    · rw [Function.update_self] at ha
      exact hplaced _ (List.mem_map_of_mem ha)
    · rw [Function.update_of_ne hb] at ha
      exact h.placed b' a ha

theorem Wf.addTo (h : I.Wf hash t) : I.Wf hash (I.addTo hash t k d) := by
  refine h.update (nodup_add (h.nodup _)) fun k' hk' => ?_
  rcases mem_keys_add.mp hk' with rfl | hk'
  · rfl
  · obtain ⟨a,ha,rfl⟩ := List.mem_map.mp hk'
    exact h.placed _ a ha

theorem Wf.addAll {ds : List δ} (h : I.Wf hash t) : I.Wf hash (I.addAll hash t k ds) := by
  induction ds generalizing t with
  | nil => exact h
  | cons d ds ih => exact ih h.addTo

theorem held_addAll {ds : List δ} :
    I.held hash (I.addAll hash t k ds) k' = I.held hash t k' + if k' = k then (ds.map I.amount).sum else 0 := by
  induction ds generalizing t with
  | nil => simp [addAll]
  | cons d ds ih =>
    have hstep : I.addAll hash t k (d :: ds) = I.addAll hash (I.addTo hash t k d) k ds := rfl
    rw [hstep, ih, held_addTo]
    split
    next => rw [List.map_cons, List.sum_cons, add_assoc]
    next => rw [add_zero]

theorem has_addAll {ds : List δ} (hne : ds ≠ []) :
    I.Has hash (I.addAll hash t k ds) k' ↔ k' = k ∨ I.Has hash t k' := by
  induction ds generalizing t with
  | nil => exact absurd rfl hne
  | cons d ds ih =>
    have hstep : I.addAll hash t k (d :: ds) = I.addAll hash (I.addTo hash t k d) k ds := rfl
    rw [hstep]
    rcases eq_or_ne ds [] with rfl | hds
    · exact has_addTo
    · rw [ih hds, has_addTo, or_self_left]

section Pop
variable (h : I.Wf hash t) (hb : t b = a :: c)
include h hb

omit [DecidableEq κ] [DecidableEq β] in
theorem hash_head : hash (I.key a) = b := h.placed b a (hb ▸ List.mem_cons_self)

omit [DecidableEq κ] in
/-- The first item of a chain is taken out. -/
theorem Wf.pop : I.Wf hash (Function.update t b c) := by
  have hnodup := h.nodup b
  rw [hb, List.map_cons, List.nodup_cons] at hnodup
  refine h.update hnodup.2 fun k hk => ?_
  obtain ⟨a',ha',rfl⟩ := List.mem_map.mp hk
  exact h.placed b a' (hb ▸ List.mem_cons_of_mem _ ha')

theorem held_pop : I.held hash t k = (if k = I.key a then I.val a else 0) + I.held hash (Function.update t b c) k := by
  have hhash := hash_head h hb
  by_cases hk : hash k = b
  · rw [held, held, hk, hb, Function.update_self, total_cons]
  · have hne : k ≠ I.key a := fun e => hk (e ▸ hhash)
    rw [held, held, Function.update_of_ne hk, if_neg hne, zero_add]

omit [DecidableEq κ] in
theorem has_pop : I.Has hash t k ↔ k = I.key a ∨ I.Has hash (Function.update t b c) k := by
  have hhash := hash_head h hb
  by_cases hk : hash k = b
  · rw [Has, Has, hk, hb, Function.update_self, List.map_cons, List.mem_cons]
  · have hne : k ≠ I.key a := fun e => hk (e ▸ hhash)
    rw [Has, Has, Function.update_of_ne hk, or_iff_right hne]

end Pop

omit [DecidableEq β] in
theorem Wf.val_eq (h : I.Wf hash t) (ha : a ∈ t b) : I.val a = I.held hash t (I.key a) := by
  rw [held, h.placed b a ha, total_of_mem (h.nodup b) ha]

omit [DecidableEq κ] [DecidableEq β] in
/-- Over all chains each key is there once. -/
theorem Wf.nodup_all {bs : List β} (h : I.Wf hash t) (hbs : bs.Nodup) : ((bs.flatMap t).map I.key).Nodup := by
  induction bs with
  | nil => simp
  | cons b bs ih =>
    rw [List.nodup_cons] at hbs
    rw [List.flatMap_cons, List.map_append, List.nodup_append]
    refine ⟨h.nodup b,ih hbs.2,?_⟩
    rintro k hk k' hk' rfl
    obtain ⟨a,ha,rfl⟩ := List.mem_map.mp hk
    obtain ⟨a',ha',heq⟩ := List.mem_map.mp hk'
    obtain ⟨b',hb',ha'⟩ := List.mem_flatMap.mp ha'
    have hsame : b = b' := by rw [← h.placed b a ha, ← h.placed b' a' ha', heq]
    exact hbs.1 (hsame ▸ hb')

omit [DecidableEq κ] [DecidableEq β] in
theorem Wf.mem_all {bs : List β} (h : I.Wf hash t) (hbs : ∀ b, b ∈ bs) :
    k ∈ (bs.flatMap t).map I.key ↔ I.Has hash t k := by
  constructor
  · intro hk
    obtain ⟨a,ha,rfl⟩ := List.mem_map.mp hk
    obtain ⟨b,-,ha⟩ := List.mem_flatMap.mp ha
    rw [Has, h.placed b a ha]
    exact List.mem_map_of_mem ha
  · intro hk
    obtain ⟨a,ha,rfl⟩ := List.mem_map.mp hk
    exact List.mem_map_of_mem (List.mem_flatMap.mpr ⟨_,hbs _,ha⟩)

end Tables

end Items

end GompUlt.Tally
