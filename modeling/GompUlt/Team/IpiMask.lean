import Mathlib
import GompUlt.Lib.BitFields
import GompUlt.Queue.PriorityQueue

/-! # The cores that are sent an inter-processor interrupt

A thread that makes a task ready looks for threads that run a task of lower priority, and collects the cores of these
in a word.  The shift by a core id is the one of x86-64, which takes the count modulo 64: a thread that is not pinned
has the core id -1, and the bit 63.
-/
namespace GompUlt.IpiMask
open Queue BitFields

def gompCount1Bits (i : BitVec 64) : ℕ :=
  let i := i - ((i >>> 1) &&& 0x5555555555555555#64)
  let i := (i &&& 0x3333333333333333#64) + ((i >>> 2) &&& 0x3333333333333333#64)
  let i := (i + (i >>> 4)) &&& 0x0f0f0f0f0f0f0f0f#64
  let i := i + (i >>> 8)
  let i := i + (i >>> 16)
  let i := i + (i >>> 32)
  (i &&& 0x7f#64).toNat

/-- The cores whose bits are set. -/
def cores (m : BitVec 64) : Finset ℕ := (Finset.range 64).filter fun i => m.getLsbD i = true

theorem mem_cores {m : BitVec 64} {i : ℕ} : i ∈ cores m ↔ m.getLsbD i = true := by
  rw [cores, Finset.mem_filter, Finset.mem_range, and_iff_right_iff_imp]
  exact BitVec.lt_of_getLsbD

theorem card_cores_le (m : BitVec 64) : (cores m).card ≤ 64 := by
  have := Finset.card_filter_le (Finset.range 64) fun i => m.getLsbD i = true
  rwa [Finset.card_range] at this

/-- Three shifts add the eight bytes of a word. -/
theorem bytes_add {y : ℕ} (hle : FieldsLe 8 8 y) :
    let y₁ := y + y / 2 ^ 8
    let y₂ := y₁ + y₁ / 2 ^ 16
    (y₂ + y₂ / 2 ^ 32) % 128 = fieldSum 8 8 y := by
  intro y₁ y₂
  have h₁ : FieldsLe 8 16 y₁ := hle.add (hle.div 1) (by norm_num)
  have h₂ : FieldsLe 8 32 y₂ := h₁.add (h₁.div 2) (by norm_num)
  have hf₁ : ∀ i, field 8 i y₁ = field 8 i y + field 8 (i + 1) y := by
    intro i
    rw [← field_div]
    exact field_add hle (hle.div 1) (by norm_num) i
  have hf₂ : ∀ i, field 8 i y₂ = field 8 i y₁ + field 8 (i + 2) y₁ := by
    intro i
    rw [← field_div]
    exact field_add h₁ (h₁.div 2) (by norm_num) i
  have hf₃ : (y₂ + y₂ / 2 ^ 32) % 2 ^ 8 = field 8 0 y₂ + field 8 4 y₂ := by
    have := field_add h₂ (h₂.div 4) (by norm_num) 0
    rwa [field_div, field_zero] at this
  have hbyte : (y₂ + y₂ / 2 ^ 32) % 2 ^ 8 = fieldSum 8 8 y := by
    simp only [hf₃, hf₂, hf₁, fieldSum_eq_sum, Finset.sum_range_succ, Finset.sum_range_zero,
      Nat.reduceAdd]
    omega
  have hmax₀ := h₂ 0
  have hmax₄ := h₂ 4
  omega

theorem cores_eq_testBit (m : BitVec 64) :
    cores m = (Finset.range 64).filter fun i => m.toNat.testBit i = true := rfl

/-- The three constants clear the odd fields. -/
theorem toNat_and_fives (m : BitVec 64) : (m &&& 0x5555555555555555#64).toNat = evenFields 1 32 m.toNat := by
  rw [BitVec.toNat_and, evenFields]
  rfl

theorem toNat_and_threes (m : BitVec 64) : (m &&& 0x3333333333333333#64).toNat = evenFields 2 16 m.toNat := by
  rw [BitVec.toNat_and, evenFields]
  rfl

theorem toNat_and_fifteens (m : BitVec 64) : (m &&& 0x0f0f0f0f0f0f0f0f#64).toNat = evenFields 4 8 m.toNat := by
  rw [BitVec.toNat_and, evenFields]
  rfl

theorem toNat_shift (m : BitVec 64) (k : ℕ) : (m >>> k).toNat = m.toNat / 2 ^ k := by
  rw [BitVec.toNat_ushiftRight, Nat.shiftRight_eq_div_pow]

theorem toNat_pairs (m : BitVec 64) : (m - ((m >>> 1) &&& 0x5555555555555555#64)).toNat = pairSum 1 32 m.toNat := by
  have hsub := sub_odd (n := 32) m.isLt
  have hle : (m >>> 1 &&& 0x5555555555555555#64) ≤ m := by
    rw [BitVec.le_def, toNat_and_fives, toNat_shift]
    have := evenFields_add (k := 1) (n := 32) m.isLt
    omega
  rw [BitVec.toNat_sub_of_le hle, toNat_and_fives, toNat_shift, ← hsub, pow_one]

theorem toNat_quarters (m : BitVec 64) :
    ((m &&& 0x3333333333333333#64) + ((m >>> 2) &&& 0x3333333333333333#64)).toNat = pairSum 2 16 m.toNat := by
  rw [BitVec.toNat_add, toNat_and_threes, toNat_and_threes, toNat_shift]
  exact Nat.mod_eq_of_lt (pairSum_lt (k := 2) (n := 16) (by norm_num))

theorem toNat_bytes {m : BitVec 64} (h : FieldsLe 4 4 m.toNat) :
    ((m + (m >>> 4)) &&& 0x0f0f0f0f0f0f0f0f#64).toNat = pairSum 4 8 m.toNat := by
  have htop := h.lt (n := 15) m.isLt
  have hadd : (m + m >>> 4).toNat = m.toNat + m.toNat / 2 ^ 4 := by
    rw [BitVec.toNat_add, toNat_shift]
    exact Nat.mod_eq_of_lt (by omega)
  rw [toNat_and_fifteens, hadd]
  exact evenFields_add_shift (by norm_num) h

theorem toNat_add_shift {m : BitVec 64} {x k : ℕ} (hm : m.toNat = x) (hx : x < 2 ^ 63) :
    (m + (m >>> (k + 1))).toNat = x + x / 2 ^ (k + 1) := by
  have hle : x / 2 ^ (k + 1) ≤ x := Nat.div_le_self ..
  rw [BitVec.toNat_add, toNat_shift, hm]
  exact Nat.mod_eq_of_lt (by omega)

/-- The bit trick counts the bits. -/
theorem gompCount1Bits_eq (m : BitVec 64) : gompCount1Bits m = (cores m).card := by
  unfold gompCount1Bits
  extract_lets i₁ i₂ i₃ i₄ i₅ i₆
  have h₁ : FieldsLe 2 2 i₁.toNat := by
    rw [toNat_pairs]
    exact fieldsLe_pairSum (by norm_num) (fieldsLe_one m.toNat)
  have h₂ : FieldsLe 4 4 i₂.toNat := by
    rw [toNat_quarters]
    exact fieldsLe_pairSum (by norm_num) h₁
  have h₃ : FieldsLe 8 8 i₃.toNat := by
    rw [toNat_bytes h₂]
    exact fieldsLe_pairSum (by norm_num) h₂
  have hsum : fieldSum 8 8 i₃.toNat = (cores m).card := by
    rw [toNat_bytes h₂, fieldSum_pairSum (k := 4) (by norm_num), toNat_quarters,
      fieldSum_pairSum (k := 2) (by norm_num), toNat_pairs, fieldSum_pairSum (k := 1) (by norm_num), fieldSum_one,
      cores_eq_testBit]
  have htop := h₃.lt (n := 7) i₃.isLt
  have h₄ : i₄.toNat = i₃.toNat + i₃.toNat / 2 ^ 8 := toNat_add_shift rfl (by omega)
  have h₅ : i₅.toNat = i₄.toNat + i₄.toNat / 2 ^ 16 := toNat_add_shift rfl (by omega)
  have h₆ : i₆.toNat = i₅.toNat + i₅.toNat / 2 ^ 32 := toNat_add_shift rfl (by omega)
  have hbytes := bytes_add h₃
  simp only [← h₄, ← h₅, ← h₆] at hbytes
  rw [BitVec.toNat_and, ← hsum, ← hbytes]
  exact Nat.and_two_pow_sub_one_eq_mod _ 7

/-- `1ULL << core_id`. -/
def coreBit (coreId : BitVec 32) : BitVec 64 := 1#64 <<< (coreId.toNat % 64)

theorem coreBit_eq (coreId : BitVec 32) : coreBit coreId = BitVec.twoPow 64 (coreId.toNat % 64) := rfl

theorem coreBit_and_ne_zero {c : BitVec 32} {m : BitVec 64} : coreBit c &&& m ≠ 0 ↔ c.toNat % 64 ∈ cores m := by
  have hpos : BitVec.twoPow 64 (c.toNat % 64) ≠ 0 := by
    intro h
    have hbit := congrArg (fun x => BitVec.getLsbD x (c.toNat % 64)) h
    have hlt : c.toNat % 64 < 64 := Nat.mod_lt _ (by norm_num)
    simp [hlt] at hbit
  rw [coreBit_eq, BitVec.and_comm, BitVec.and_twoPow, mem_cores]
  split
  next h => exact ⟨fun _ => h,fun _ => hpos⟩
  next h => exact ⟨fun hne => absurd rfl hne,fun hbit => absurd hbit h⟩

theorem cores_or_coreBit (c : BitVec 32) (m : BitVec 64) :
    cores (m ||| coreBit c) = insert (c.toNat % 64) (cores m) := by
  have hlt : c.toNat % 64 < 64 := Nat.mod_lt _ (by norm_num)
  ext i
  rw [Finset.mem_insert, mem_cores, mem_cores, coreBit_eq, BitVec.getLsbD_or, BitVec.getLsbD_twoPow, Bool.or_eq_true,
    Bool.and_eq_true, decide_eq_true_iff, decide_eq_true_iff, or_comm, and_iff_right hlt, eq_comm]

structure Task where
  kind : TaskKind
  priority : BitVec 32

structure Thread where
  team : Option ℕ
  coreId : BitVec 32
  inLibgomp : Bool
  task : Option Task

/-- `pool->threads` is NULL, or has `threads_used` entries. -/
structure Pool where
  threads : Option (List (Option ℕ))
  used_pos : ∀ l, threads = some l → 0 < l.length
  used_lt : ∀ l, threads = some l → l.length < 2 ^ 31

/-- What the two functions are given, with the variables of the environment that they read. -/
structure Search where
  thread : ℕ → Thread
  ipiPriorityGap : BitVec 64
  signalUnblock : Bool
  priority : BitVec 32
  unblockedTask : Bool

namespace Search
variable (s : Search)

/-- The comparison is one of unsigned longs, and so is the addition. -/
def tooHigh (own : BitVec 32) : Bool :=
  if s.signalUnblock && s.unblockedTask then s.priority.signExtend 64 < own.signExtend 64 + s.ipiPriorityGap
  else s.priority.signExtend 64 ≤ own.signExtend 64 + s.ipiPriorityGap

/-- The tests of a thread from in_libgomp on; the decision model is off. -/
def runsLower (t : Thread) : Bool :=
  !t.inLibgomp &&
    match t.task with
    | none => false
    | some task => task.kind ≠ .implicit && !s.tooHigh task.priority

/-- The body of the loop, for the rest of the threads it comes to. -/
def scan (thr team : ℕ) (cap : BitVec 64) : List (Option ℕ) → ℕ → BitVec 64 → BitVec 64
  | [], _, mask => mask
  | none :: l, setCnt, mask => scan thr team cap l setCnt mask
  | some i :: l, setCnt, mask =>
    if i = thr then scan thr team cap l setCnt mask
    else if (s.thread i).team ≠ some team then scan thr team cap l setCnt mask
    else if coreBit (s.thread i).coreId &&& mask ≠ 0 then scan thr team cap l setCnt mask
    else if s.runsLower (s.thread i) = false then scan thr team cap l setCnt mask
    else if cap.toNat ≤ (setCnt + 1) % 2 ^ 32 then mask ||| coreBit (s.thread i).coreId
    else scan thr team cap l ((setCnt + 1) % 2 ^ 32) (mask ||| coreBit (s.thread i).coreId)

/-- The threads in the order of the loop: `i_circ = (i + i_start) % pool->threads_used`. -/
def circular (l : List (Option ℕ)) (start : ℕ) : List (Option ℕ) :=
  (List.range l.length).map fun i => l.getD ((i + start % l.length) % 2 ^ 32 % l.length) none

def getMaskOfThreadsWithLowerPriorityTasks (thr team : ℕ) (pool : Pool) (cap : BitVec 64) (rdtsc : ℕ)
    (ipiMask : BitVec 64) : BitVec 64 :=
  match pool.threads with
  | none => ipiMask
  | some l =>
    if gompCount1Bits ipiMask < cap.toNat then
      s.scan thr team cap (circular l rdtsc) (gompCount1Bits ipiMask) ipiMask
    else ipiMask

def getMaskSingleThreadWithLowerPriorityTasks (thr : Option ℕ) (cap ipiMask : BitVec 64) : BitVec 64 :=
  if gompCount1Bits ipiMask < cap.toNat then
    match thr with
    | none => ipiMask
    | some i =>
      if coreBit (s.thread i).coreId &&& ipiMask ≠ 0 then ipiMask
      else if s.runsLower (s.thread i) = false then ipiMask
      else ipiMask ||| coreBit (s.thread i).coreId
  else ipiMask

/-- Outside of the runtime, and in an explicit task whose priority is below the given one by more than the gap; for
an unblocked task the gap itself is enough. -/
def Eligible (t : Thread) : Prop :=
  t.inLibgomp = false ∧ ∃ task, t.task = some task ∧ task.kind ≠ .implicit ∧
    if s.signalUnblock && s.unblockedTask then task.priority.toInt + s.ipiPriorityGap.toNat ≤ s.priority.toInt
    else task.priority.toInt + s.ipiPriorityGap.toNat < s.priority.toInt

/-- The core ids of the eligible threads. -/
def eligibleCores (others : Set ℕ) : Set ℤ :=
  {z | ∃ i ∈ others, s.Eligible (s.thread i) ∧ (s.thread i).coreId.toInt = z}

/-- The bits that the shift makes of the threads that pass the tests. -/
def passedBits (others : Set ℕ) : Set ℤ :=
  {z | ∃ i ∈ others, s.runsLower (s.thread i) = true ∧ (((s.thread i).coreId.toNat % 64 : ℕ) : ℤ) = z}

/-- The other threads of the team. -/
def others (thr team : ℕ) (pool : Pool) : Set ℕ :=
  {i | ∃ l, pool.threads = some l ∧ some i ∈ l ∧ i ≠ thr ∧ (s.thread i).team = some team}

end Search

/-- A mask made of `ipiMask` and of bits out of `targets`, `cap` of them at most; all of them, if the cap is not
reached. -/
structure MaskLaw (targets : Set ℤ) (ipiMask : BitVec 64) (cap : ℕ) (mask : BitVec 64) : Prop where
  contains : cores ipiMask ⊆ cores mask
  card_le : (cores mask).card ≤ max (cores ipiMask).card cap
  added : ∀ c ∈ cores mask, c ∉ cores ipiMask → (c : ℤ) ∈ targets
  all : (cores mask).card < cap → ∀ z ∈ targets, ∃ c ∈ cores mask, (c : ℤ) = z

namespace MaskLaw
variable {targets : Set ℤ} {m m' mask : BitVec 64} {cap : ℕ}

theorem refl (h : cap ≤ (cores m).card) : MaskLaw targets m cap m where
  contains := Finset.Subset.refl _
  card_le := le_max_left _ _
  added := fun _ hc hnot => absurd hc hnot
  all := fun hlt => absurd hlt (Nat.not_lt.mpr h)

/-- From the empty mask, with a cap that is never reached, all targets are collected. -/
theorem targets_eq (h : MaskLaw targets 0 65 mask) : targets = {z | ∃ c ∈ cores mask, (c : ℤ) = z} := by
  have hle := card_cores_le mask
  ext z
  constructor
  · exact h.all (by omega) z
  · rintro ⟨c,hc,rfl⟩
    have hnot : c ∉ cores 0 := by simp [mem_cores]
    exact h.added c hc hnot

end MaskLaw

section Scan
variable {s : Search} {P : ℕ → Prop} {l : List (Option ℕ)} {w : Option ℕ} {m m' r : BitVec 64} {cap c : ℕ}

/-- The bit of a thread of the list that the tests let through. -/
def Passes (s : Search) (P : ℕ → Prop) (l : List (Option ℕ)) (c : ℕ) : Prop :=
  ∃ i, some i ∈ l ∧ P i ∧ (s.thread i).coreId.toNat % 64 = c

theorem Passes.cons (h : Passes s P l c) : Passes s P (w :: l) c := by
  obtain ⟨i,hi,hpass⟩ := h
  exact ⟨i,List.mem_cons_of_mem _ hi,hpass⟩

/-- What the loop has made of the mask when it leaves. -/
structure Scanned (passes : ℕ → Prop) (mask result : BitVec 64) (cap : ℕ) : Prop where
  contains : cores mask ⊆ cores result
  card_le : (cores result).card ≤ cap
  added : ∀ c ∈ cores result, c ∈ cores mask ∨ passes c
  all : (cores result).card < cap → ∀ c, passes c → c ∈ cores result

theorem Scanned.nil (h : (cores m).card ≤ cap) : Scanned (Passes s P []) m m cap where
  contains := Finset.Subset.refl _
  card_le := h
  added := fun _ hc => .inl hc
  all := by
    rintro - c ⟨i,hi,-⟩
    exact absurd hi List.not_mem_nil

theorem Scanned.full {passes : ℕ → Prop} (h : (cores m).card = cap) : Scanned passes m m cap where
  contains := Finset.Subset.refl _
  card_le := h.le
  added := fun _ hc => .inl hc
  all := fun hlt => absurd hlt (Nat.not_lt.mpr h.ge)

/-- A thread that is left out, or whose bit is set before, changes nothing. -/
theorem Scanned.skip (h : Scanned (Passes s P l) m r cap)
    (hw : ∀ i, w = some i → P i → (s.thread i).coreId.toNat % 64 ∈ cores m) :
    Scanned (Passes s P (w :: l)) m r cap where
  contains := h.contains
  card_le := h.card_le
  added := fun c hc => (h.added c hc).imp id Passes.cons
  all := by
    rintro hlt c ⟨i,hi,hpass,rfl⟩
    rcases List.mem_cons.mp hi with rfl | hi
    · exact h.contains (hw i rfl hpass)
    · exact h.all hlt _ ⟨i,hi,hpass,rfl⟩

/-- A thread that is let through sets its bit. -/
theorem Scanned.take {i : ℕ} (h : Scanned (Passes s P l) (m ||| coreBit (s.thread i).coreId) r cap) (hi : P i) :
    Scanned (Passes s P (some i :: l)) m r cap where
  contains := by
    have hsub := h.contains
    rw [cores_or_coreBit] at hsub
    exact (Finset.subset_insert _ _).trans hsub
  card_le := h.card_le
  added := by
    intro d hd
    rcases h.added d hd with hd | hd
    · rw [cores_or_coreBit] at hd
      rcases Finset.mem_insert.mp hd with rfl | hd
      · exact .inr ⟨i,List.mem_cons_self,hi,rfl⟩
      · exact .inl hd
    · exact .inr hd.cons
  all := by
    rintro hlt d ⟨j,hj,hpass,rfl⟩
    rcases List.mem_cons.mp hj with hj | hj
    · obtain rfl : j = i := Option.some.inj hj
      exact h.contains (cores_or_coreBit _ m ▸ Finset.mem_insert_self _ _)
    · exact h.all hlt _ ⟨j,hj,hpass,rfl⟩

theorem card_or_coreBit {c : BitVec 32} (h : ¬ coreBit c &&& m ≠ 0) :
    (cores (m ||| coreBit c)).card = (cores m).card + 1 := by
  rw [cores_or_coreBit, Finset.card_insert_of_notMem fun hmem => h (coreBit_and_ne_zero.mpr hmem)]

end Scan

/-- The tests before the loop's set_cnt, that of the mask left out. -/
def Search.Signalled (s : Search) (thr team i : ℕ) : Prop :=
  i ≠ thr ∧ (s.thread i).team = some team ∧ s.runsLower (s.thread i) = true

/-- The loop, from a mask below the cap; the count is that of the mask's bits throughout. -/
theorem scan_spec {s : Search} {thr team : ℕ} {cap m : BitVec 64} {l : List (Option ℕ)}
    (hlt : (cores m).card < cap.toNat) :
    Scanned (Passes s (s.Signalled thr team) l) m (s.scan thr team cap l (cores m).card m) cap.toNat := by
  induction l generalizing m with
  | nil => exact Scanned.nil hlt.le
  | cons w l ih =>
    cases w with
    | none => exact (ih hlt).skip nofun
    | some i =>
      rw [Search.scan]
      split
      next h =>
        refine (ih hlt).skip ?_
        rintro j ⟨⟩ ⟨hthr,-⟩
        exact absurd h hthr
      next hthr =>
      split
      next h =>
        refine (ih hlt).skip ?_
        rintro j ⟨⟩ ⟨-,hteam,-⟩
        exact absurd hteam h
      next hteam =>
      split
      next h =>
        refine (ih hlt).skip ?_
        rintro j ⟨⟩ -
        exact coreBit_and_ne_zero.mp h
      next hnew =>
      split
      next h =>
        refine (ih hlt).skip ?_
        rintro j ⟨⟩ ⟨-,-,hlower⟩
        exact absurd hlower (by simp [h])
      next hlower =>
      have hpass : s.Signalled thr team i := ⟨hthr,by simpa using hteam,by simpa using hlower⟩
      have hcard := card_or_coreBit hnew
      have hmax := card_cores_le m
      have hcount : ((cores m).card + 1) % 2 ^ 32 = (cores (m ||| coreBit (s.thread i).coreId)).card := by omega
      rw [hcount]
      split
      next hfull => exact (Scanned.full (by omega)).take hpass
      next hnot => exact (ih (by omega)).take hpass

/-- The loop comes to every thread of the pool. -/
theorem mem_circular {l : List (Option ℕ)} {start i : ℕ} (hlt : l.length < 2 ^ 31) :
    some i ∈ Search.circular l start ↔ some i ∈ l := by
  rw [Search.circular, List.mem_map]
  constructor
  · rintro ⟨k,hk,hget⟩
    rw [List.mem_range] at hk
    have hin := Nat.mod_lt ((k + start % l.length) % 2 ^ 32) (show 0 < l.length by omega)
    rw [List.getD_eq_getElem _ _ hin] at hget
    exact hget ▸ List.getElem_mem hin
  · intro hi
    obtain ⟨j,hj,hget⟩ := List.getElem_of_mem hi
    have hs := Nat.mod_lt start (show 0 < l.length by omega)
    set n := l.length
    set o := start % n
    refine ⟨(j + n - o) % n,List.mem_range.mpr (Nat.mod_lt _ (by omega)),?_⟩
    have hround : ((j + n - o) % n + o) % 2 ^ 32 % n = j := by
      have hk := Nat.mod_lt (j + n - o) (show 0 < n by omega)
      rw [Nat.mod_eq_of_lt (show (j + n - o) % n + o < 2 ^ 32 by omega), Nat.mod_add_mod]
      rw [show j + n - o + o = j + n by omega, Nat.add_mod_right, Nat.mod_eq_of_lt hj]
    rw [hround, List.getD_eq_getElem _ _ hj, hget]

namespace Search
variable {s : Search} {pool : Pool} {thr team : ℕ}

theorem mem_passedBits {o : Set ℕ} {c : ℕ} : (c : ℤ) ∈ s.passedBits o ↔
    ∃ i ∈ o, s.runsLower (s.thread i) = true ∧ (s.thread i).coreId.toNat % 64 = c := by
  simp only [passedBits, Set.mem_ofPred_eq, Nat.cast_inj]

theorem passes_circular {l : List (Option ℕ)} {start c : ℕ} (hl : pool.threads = some l) :
    Passes s (s.Signalled thr team) (circular l start) c ↔ (c : ℤ) ∈ s.passedBits (s.others thr team pool) := by
  rw [mem_passedBits]
  constructor
  · rintro ⟨i,hi,⟨hthr,hteam,hlower⟩,hc⟩
    exact ⟨i,⟨l,hl,(mem_circular (pool.used_lt l hl)).mp hi,hthr,hteam⟩,hlower,hc⟩
  · rintro ⟨i,⟨l',hl',hi,hthr,hteam⟩,hlower,hc⟩
    obtain rfl : l = l' := Option.some.inj (hl ▸ hl')
    exact ⟨i,(mem_circular (pool.used_lt l hl)).mpr hi,⟨hthr,hteam,hlower⟩,hc⟩

end Search

open Search

/-- What is scanned obeys the law. -/
theorem Scanned.maskLaw {s : Search} {passes : ℕ → Prop} {o : Set ℕ} {m r : BitVec 64} {cap : ℕ} (h : Scanned passes m r cap)
    (hp : ∀ c : ℕ, passes c ↔ (c : ℤ) ∈ s.passedBits o) : MaskLaw (s.passedBits o) m cap r where
  contains := h.contains
  card_le := h.card_le.trans (le_max_right _ _)
  added := fun c hc hnot => (hp c).mp ((h.added c hc).resolve_left hnot)
  all := by
    rintro hlt z ⟨i,hi,hlower,rfl⟩
    exact ⟨_,h.all hlt _ ((hp _).mpr (mem_passedBits.mpr ⟨i,hi,hlower,rfl⟩)),rfl⟩

namespace Search
variable {s : Search} {pool : Pool} {thr team : ℕ}

/-- The masks obey the law for the bits of the threads that pass the tests. -/
theorem maskLaw_threads (cap : BitVec 64) (rdtsc : ℕ) (ipiMask : BitVec 64) :
    MaskLaw (s.passedBits (s.others thr team pool)) ipiMask cap.toNat
      (s.getMaskOfThreadsWithLowerPriorityTasks thr team pool cap rdtsc ipiMask) := by
  rw [getMaskOfThreadsWithLowerPriorityTasks, gompCount1Bits_eq]
  cases hl : pool.threads with
  | none =>
    refine ⟨Finset.Subset.refl _,le_max_left _ _,fun c hc hnot => absurd hc hnot,?_⟩
    rintro - z ⟨i,⟨l,hl',-⟩,-⟩
    rw [hl] at hl'
    exact absurd hl' nofun
  | some l =>
    simp only []
    split
    next hlt => exact Scanned.maskLaw (scan_spec hlt) fun c => passes_circular hl
    next hge => exact MaskLaw.refl (Nat.not_lt.mp hge)

theorem passes_single {one : Option ℕ} {c : ℕ} :
    Passes s (fun i => s.runsLower (s.thread i) = true) [one] c ↔ (c : ℤ) ∈ s.passedBits {i | one = some i} := by
  rw [mem_passedBits]
  simp only [Passes, List.mem_singleton, eq_comm (b := one)]
  rfl

theorem maskLaw_single (one : Option ℕ) (cap ipiMask : BitVec 64) :
    MaskLaw (s.passedBits {i | one = some i}) ipiMask cap.toNat
      (s.getMaskSingleThreadWithLowerPriorityTasks one cap ipiMask) := by
  unfold getMaskSingleThreadWithLowerPriorityTasks
  rw [gompCount1Bits_eq]
  split
  next hlt =>
    refine Scanned.maskLaw ?_ fun c => passes_single
    have hnil : Scanned (Passes s (fun i => s.runsLower (s.thread i) = true) []) ipiMask ipiMask cap.toNat :=
      Scanned.nil hlt.le
    cases one with
    | none => exact hnil.skip nofun
    | some i =>
      simp only []
      split
      next h =>
        refine hnil.skip ?_
        rintro j ⟨⟩ -
        exact coreBit_and_ne_zero.mp h
      next hnew =>
      split
      next h =>
        refine hnil.skip ?_
        rintro j ⟨⟩ hlower
        exact absurd hlower (by simp [h])
      next hlower =>
        have hcard := card_or_coreBit hnew
        exact (Scanned.nil (by omega)).take (by simpa using hlower)
  next hge => exact MaskLaw.refl (Nat.not_lt.mp hge)

/-- The law for other targets, of a mask that obeys it already. -/
theorem maskLaw_congr {bits targets : Set ℤ} {mask : BitVec 64 → BitVec 64 → BitVec 64}
    (h : ∀ cap ipiMask, MaskLaw bits ipiMask cap.toNat (mask cap ipiMask)) :
    (∀ cap ipiMask, MaskLaw targets ipiMask cap.toNat (mask cap ipiMask)) ↔ targets = bits := by
  constructor
  · intro htargets
    have hall : targets = _ := (htargets 65 0).targets_eq
    have hbits : bits = _ := (h 65 0).targets_eq
    rw [hall, hbits]
  · rintro rfl
    exact h

/-- A priority that is not negative is the same number as an unsigned long. -/
theorem toNat_signExtend {p : BitVec 32} (hp : 0 ≤ p.toInt) : ((p.signExtend 64).toNat : ℤ) = p.toInt := by
  have hmsb : p.msb = false := by
    rw [BitVec.msb_eq_toInt]
    simpa using hp
  rw [BitVec.signExtend_eq_setWidth_of_msb_false hmsb, BitVec.toNat_setWidth_of_le (by norm_num),
    BitVec.toInt_eq_toNat_of_msb hmsb]

/-- Without an overflow the tests are those of an eligible thread. -/
theorem runsLower_iff {t : Thread} (hpriority : 0 ≤ s.priority.toInt) (hgap : s.ipiPriorityGap.toNat < 2 ^ 63)
    (htask : ∀ task, t.task = some task → 0 ≤ task.priority.toInt) : s.runsLower t = true ↔ s.Eligible t := by
  have hhigh : ∀ task, t.task = some task → (s.tooHigh task.priority = false ↔
      if s.signalUnblock && s.unblockedTask then task.priority.toInt + s.ipiPriorityGap.toNat ≤ s.priority.toInt
      else task.priority.toInt + s.ipiPriorityGap.toNat < s.priority.toInt) := by
    intro task htask'
    have hown := toNat_signExtend (htask task htask')
    have hgiven := toNat_signExtend hpriority
    have hlt := BitVec.toInt_lt (x := task.priority)
    have hsum : (task.priority.signExtend 64 + s.ipiPriorityGap).toNat =
        (task.priority.signExtend 64).toNat + s.ipiPriorityGap.toNat := by
      rw [BitVec.toNat_add]
      exact Nat.mod_eq_of_lt (by omega)
    rw [tooHigh]
    split
    next => rw [decide_eq_false_iff_not, BitVec.lt_def, hsum]; omega
    next => rw [decide_eq_false_iff_not, BitVec.le_def, hsum]; omega
  rw [runsLower, Eligible]
  cases htask' : t.task with
  | none => simp
  | some task => simp [hhigh task htask']

/-- The shift is right for the cores 0 to 63. -/
theorem coreId_eq_bit (c : BitVec 32) : c.toInt = ((c.toNat % 64 : ℕ) : ℤ) ↔ 0 ≤ c.toInt ∧ c.toInt < 64 := by
  have hlt := c.isLt
  have hmod := Nat.mod_lt c.toNat (show 0 < 64 by norm_num)
  rw [BitVec.toInt_eq_toNat_cond]
  split <;> omega

/-- Without an overflow the cores and the bits are the same as long as every eligible thread is pinned, to one of the
first 64 cores. -/
theorem eligibleCores_eq_iff {o : Set ℕ} (hpriority : 0 ≤ s.priority.toInt) (hgap : s.ipiPriorityGap.toNat < 2 ^ 63)
    (htask : ∀ i ∈ o, ∀ task, (s.thread i).task = some task → 0 ≤ task.priority.toInt) :
    s.eligibleCores o = s.passedBits o ↔
      ∀ i ∈ o, s.Eligible (s.thread i) → 0 ≤ (s.thread i).coreId.toInt ∧ (s.thread i).coreId.toInt < 64 := by
  have hlower : ∀ i ∈ o, (s.runsLower (s.thread i) = true ↔ s.Eligible (s.thread i)) :=
    fun i hi => runsLower_iff hpriority hgap (htask i hi)
  constructor
  · intro heq i hi hel
    have hmem : (s.thread i).coreId.toInt ∈ s.eligibleCores o := ⟨i,hi,hel,rfl⟩
    rw [heq] at hmem
    obtain ⟨j,-,-,hbit⟩ := hmem
    have hmod := Nat.mod_lt (s.thread j).coreId.toNat (show 0 < 64 by norm_num)
    omega
  · intro hpinned
    ext z
    constructor
    · rintro ⟨i,hi,hel,rfl⟩
      exact ⟨i,hi,(hlower i hi).mpr hel,((coreId_eq_bit _).mpr (hpinned i hi hel)).symm⟩
    · rintro ⟨i,hi,hpass,rfl⟩
      have hel := (hlower i hi).mp hpass
      exact ⟨i,hi,hel,(coreId_eq_bit _).mpr (hpinned i hi hel)⟩

/-- Thread 1 has no core, and runs a task of priority 0. -/
def unpinned : Search where
  thread := fun i => ⟨some 0,if i = 1 then -1 else 0,false,some ⟨.tied,0⟩⟩
  ipiPriorityGap := 0
  signalUnblock := false
  priority := 1
  unblockedTask := false

def twoThreads : List (Option ℕ) := [some 0, some 1]

theorem twoThreads_pos (l : List (Option ℕ)) (h : some twoThreads = some l) : 0 < l.length := by
  obtain rfl := Option.some.inj h
  decide

theorem twoThreads_lt (l : List (Option ℕ)) (h : some twoThreads = some l) : l.length < 2 ^ 31 := by
  obtain rfl := Option.some.inj h
  decide

def twoPool : Pool := ⟨some twoThreads,twoThreads_pos,twoThreads_lt⟩

end Search

end GompUlt.IpiMask
