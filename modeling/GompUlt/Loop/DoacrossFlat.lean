import Mathlib

/-! # Flattened doacross vectors

When the counts of a doacross loop need no more bits than a word has, an entry of the shared array is one
word: the vector packed with the outermost dimension on top, plus one.  The two copies of the functions
compute in the same words.
-/
namespace GompUlt.DoacrossFlat

def clzl (x : ℕ) : ℕ := 63 - x.log2

def thisBits (count : ℕ) : ℕ := if count = 1 then 1 else 64 - clzl (count - 1)

def maxCollapsedBits : ℕ := 64

/-- The first loop of `gomp_doacross_init`: the entries stored in `bits`, and `num_bits`.  A count of zero ends
the function. -/
def collapse : List ℕ → List ℕ → ℕ → Option (List ℕ × ℕ)
  | [], bits, numBits => some (bits,numBits)
  | count :: counts, bits, numBits =>
    if count = 0 then none
    else if numBits ≤ maxCollapsedBits then
      if numBits + thisBits count ≤ maxCollapsedBits then
        collapse counts (bits ++ [thisBits count]) (numBits + thisBits count)
      else collapse counts bits (maxCollapsedBits + 1)
    else collapse counts bits numBits

/-- The loop over the dimensions from the last to the first: `shift_counts` and the final `shift_count`. -/
def shifts : List ℕ → List ℕ × ℕ
  | [] => ([],0)
  | b :: bits => ((shifts bits).2 :: (shifts bits).1,(shifts bits).2 + b)

def shiftCounts (counts : List ℕ) : Option (List ℕ) :=
  (collapse counts [] 0).bind fun r => if r.2 ≤ maxCollapsedBits then some (shifts r.1).1 else none

def shl (x s : ℕ) : ℕ := x <<< s % 2 ^ 64

/-- `flattened` in a post and in a wait. -/
def flatten : List ℕ → List ℕ → ℕ
  | s :: shifts, v :: vec => (shifts.zip vec).foldl (fun f p => f ||| shl p.2 p.1) (shl v s)
  | _, _ => 0

def post (shifts vec : List ℕ) : ℕ := (flatten shifts vec + 1) % 2 ^ 64

def passes (shifts vec : List ℕ) (cur : ℕ) : Bool := flatten shifts vec < cur

def postWords (vec : List ℕ) : List ℕ := vec.map fun x => (x + 1) % 2 ^ 64

/-- One round of the loop of `GOMP_doacross_wait` over the words of an entry. -/
def passesWords : List ℕ → List ℕ → Bool
  | v :: vec, cur :: array =>
    let thisv := (v + 1) % 2 ^ 64
    if thisv < cur then true else if cur < thisv then false else passesWords vec array
  | _, _ => true

section Packing
variable {bits vec : List ℕ}

def Fits (bits vec : List ℕ) : Prop := List.Forall₂ (fun b x => 1 ≤ b ∧ x < 2 ^ b) bits vec

def pack : List ℕ → List ℕ → ℕ
  | _ :: bits, x :: vec => 2 ^ bits.sum * x + pack bits vec
  | _, _ => 0

theorem pack_lt (h : Fits bits vec) : pack bits vec < 2 ^ bits.sum := by
  induction h with
  | nil => simp [pack]
  | @cons b x bits vec hx hrest ih =>
    have hmul : 2 ^ bits.sum * (x + 1) ≤ 2 ^ bits.sum * 2 ^ b := Nat.mul_le_mul_left _ hx.2
    rw [pack, List.sum_cons, Nat.pow_add, Nat.mul_comm (2 ^ b)]
    rw [Nat.mul_add, Nat.mul_one] at hmul
    omega

theorem shifts_snd (bits : List ℕ) : (shifts bits).2 = bits.sum := by
  induction bits with
  | nil => rfl
  | cons b bits ih => simp [shifts, ih, Nat.add_comm]

theorem foldl_shifts (h : Fits bits vec) (hw : bits.sum ≤ 64) (top : ℕ) :
    ((shifts bits).1.zip vec).foldl (fun f p => f ||| shl p.2 p.1) (2 ^ bits.sum * top) =
      2 ^ bits.sum * top + pack bits vec := by
  induction h generalizing top with
  | nil => simp [pack, shifts]
  | @cons b x bits vec hx hrest ih =>
    have hsum : (b :: bits).sum = b + bits.sum := List.sum_cons
    rw [hsum] at hw
    have hlt := pack_lt hrest
    have hshl : shl x bits.sum = 2 ^ bits.sum * x := by
      have hle : 2 ^ bits.sum * (x + 1) ≤ 2 ^ bits.sum * 2 ^ b := Nat.mul_le_mul_left _ hx.2
      have hpow : 2 ^ bits.sum * 2 ^ b ≤ 2 ^ 64 := by
        rw [← Nat.pow_add]
        exact Nat.pow_le_pow_right (by decide) (by omega)
      have hpos : 0 < 2 ^ bits.sum := Nat.two_pow_pos _
      rw [shl, Nat.shiftLeft_eq, Nat.mul_comm, Nat.mod_eq_of_lt]
      rw [Nat.mul_add, Nat.mul_one] at hle
      omega
    have hor : 2 ^ (b + bits.sum) * top ||| 2 ^ bits.sum * x = 2 ^ bits.sum * (2 ^ b * top + x) := by
      have hx' : 2 ^ bits.sum * x < 2 ^ (b + bits.sum) := by
        rw [Nat.pow_add, Nat.mul_comm (2 ^ b)]
        exact Nat.mul_lt_mul_of_pos_left hx.2 (Nat.two_pow_pos _)
      rw [← Nat.two_pow_add_eq_or_of_lt hx', Nat.pow_add]
      ring
    rw [shifts, hsum]
    simp only [List.zip_cons_cons, List.foldl_cons, shifts_snd, hshl, hor]
    rw [ih (by omega), pack, Nat.pow_add]
    ring

theorem flatten_eq (h : Fits bits vec) (hw : bits.sum ≤ 64) : flatten (shifts bits).1 vec = pack bits vec := by
  cases h with
  | nil => rfl
  | @cons b x bits vec hx hrest =>
    have hfold := foldl_shifts (.cons hx hrest) hw 0
    simp only [Nat.mul_zero, Nat.zero_add] at hfold
    rw [← hfold]
    simp [shifts, flatten]

/-- The order of packed vectors is that of their digits from the top. -/
theorem pack_lt_iff {vec' : List ℕ} (h : Fits bits vec) (h' : Fits bits vec') :
    pack bits vec < pack bits vec' ↔ vec < vec' := by
  induction h generalizing vec' with
  | nil =>
    cases h'
    simp [pack]
  | @cons b x bits vec hx hrest ih =>
    cases h' with
    | @cons _ x' _ vec' hx' hrest' =>
      have hlt := pack_lt hrest
      have hlt' := pack_lt hrest'
      rw [List.cons_lt_cons_iff, ← ih hrest', pack, pack]
      rcases Nat.lt_trichotomy x x' with hxx | rfl | hxx
      · have hmul : 2 ^ bits.sum * (x + 1) ≤ 2 ^ bits.sum * x' := Nat.mul_le_mul_left _ hxx
        rw [Nat.mul_add, Nat.mul_one] at hmul
        simp only [hxx, true_or, iff_true]
        omega
      · simp
      · have hmul : 2 ^ bits.sum * (x' + 1) ≤ 2 ^ bits.sum * x := Nat.mul_le_mul_left _ hxx
        rw [Nat.mul_add, Nat.mul_one] at hmul
        have hne : ¬x < x' ∧ x ≠ x' := ⟨by omega,by omega⟩
        simp only [hne.1, hne.2, false_and, or_false, iff_false]
        omega

/-- A vector that fills its widths is packed into ones only. -/
theorem pack_full_iff (h : Fits bits vec) :
    pack bits vec + 1 = 2 ^ bits.sum ↔ List.Forall₂ (fun b x => x + 1 = 2 ^ b) bits vec := by
  induction h with
  | nil => simp [pack]
  | @cons b x bits vec hx hrest ih =>
    have hlt := pack_lt hrest
    rw [List.forall₂_cons, ← ih, pack, List.sum_cons, Nat.pow_add, Nat.mul_comm (2 ^ b)]
    have hmul : 2 ^ bits.sum * (x + 1) ≤ 2 ^ bits.sum * 2 ^ b := Nat.mul_le_mul_left _ hx.2
    rw [Nat.mul_add, Nat.mul_one] at hmul
    constructor
    · intro he
      have hp : pack bits vec + 1 = 2 ^ bits.sum := by
        by_contra hne
        omega
      refine ⟨?_,hp⟩
      have hmul' : 2 ^ bits.sum * (x + 1) = 2 ^ bits.sum * 2 ^ b := by
        rw [Nat.mul_add, Nat.mul_one]
        omega
      exact Nat.eq_of_mul_eq_mul_left (Nat.two_pow_pos _) hmul'
    · rintro ⟨hx1,hp⟩
      rw [← hx1, Nat.mul_add, Nat.mul_one]
      omega

theorem shifts_lt (h : ∀ b ∈ bits, 1 ≤ b) : ∀ k ∈ (shifts bits).1, k < bits.sum := by
  induction bits with
  | nil => simp [shifts]
  | cons b bits ih =>
    have hb := h b List.mem_cons_self
    intro k hk
    rw [List.sum_cons]
    rcases List.mem_cons.mp hk with rfl | hk
    · rw [shifts_snd]
      omega
    · have := ih (fun c hc => h c (List.mem_cons_of_mem _ hc)) k hk
      omega

end Packing

section Collapse
variable {counts bits bits' : List ℕ} {numBits numBits' : ℕ}

theorem thisBits_spec {count : ℕ} (h0 : count ≠ 0) (hc : count < 2 ^ 64) : 1 ≤ thisBits count ∧ count ≤ 2 ^ thisBits count := by
  unfold thisBits
  split
  · omega
  · have hne : count - 1 ≠ 0 := by omega
    have hlog : (count - 1).log2 < 64 := (Nat.log2_lt hne).mpr (by omega)
    have hlt := Nat.lt_log2_self (n := count - 1)
    have hbits : 64 - clzl (count - 1) = (count - 1).log2 + 1 := by
      unfold clzl
      omega
    rw [hbits]
    omega

theorem collapse_full (hgt : maxCollapsedBits < numBits) (h : collapse counts bits numBits = some (bits',numBits')) :
    numBits' = numBits := by
  induction counts with
  | nil =>
    obtain ⟨-,rfl⟩ := Prod.mk.inj (Option.some.inj h)
    rfl
  | cons count counts ih =>
    rw [collapse] at h
    split at h
    · cases h
    · rw [if_neg (by omega)] at h
      exact ih h

/-- When the widths fit, they are those of the counts. -/
theorem collapse_spec (h : collapse counts bits numBits = some (bits',numBits')) (hn : numBits = bits.sum)
    (hf : numBits' ≤ maxCollapsedBits) :
    bits' = bits ++ counts.map thisBits ∧ numBits' = bits'.sum ∧ ∀ c ∈ counts, c ≠ 0 := by
  induction counts generalizing bits numBits with
  | nil =>
    obtain ⟨rfl,rfl⟩ := Prod.mk.inj (Option.some.inj h)
    simp [hn]
  | cons count counts ih =>
    rw [collapse] at h
    split at h
    · cases h
    · rename_i hne
      split at h
      · split at h
        · obtain ⟨h1,h2,h3⟩ := ih h (by simp [hn])
          exact ⟨by simp [h1],h2,by simpa using ⟨hne,h3⟩⟩
        · have := collapse_full (Nat.lt_succ_self _) h
          omega
      · have := collapse_full (by omega) h
        omega

theorem shiftCounts_spec {s : List ℕ} (h : shiftCounts counts = some s) :
    s = (shifts (counts.map thisBits)).1 ∧ (counts.map thisBits).sum ≤ 64 ∧ ∀ c ∈ counts, c ≠ 0 := by
  obtain ⟨⟨bits,numBits⟩,hr,hs⟩ := Option.bind_eq_some_iff.mp h
  obtain ⟨hf,hs⟩ := Option.ite_none_right_eq_some.mp hs
  obtain ⟨hb,hsum,hne⟩ := collapse_spec hr rfl hf
  rw [List.nil_append] at hb
  subst hb
  exact ⟨(Option.some.inj hs).symm,by unfold maxCollapsedBits at hf; omega,hne⟩

theorem fits_of_lt {vec : List ℕ} (h0 : ∀ c ∈ counts, c ≠ 0) (hc : ∀ c ∈ counts, c < 2 ^ 64)
    (hv : List.Forall₂ (· < ·) vec counts) : Fits (counts.map thisBits) vec := by
  induction hv with
  | nil => exact .nil
  | @cons x c vec counts hx _ ih =>
    have hspec := thisBits_spec (h0 c List.mem_cons_self) (hc c List.mem_cons_self)
    exact .cons ⟨hspec.1,by omega⟩
      (ih (fun c hc' => h0 c (List.mem_cons_of_mem _ hc')) fun c hc' => hc c (List.mem_cons_of_mem _ hc'))

end Collapse

/-- All words of a wait are compared with those of a post as the vectors are. -/
theorem passesWords_iff {a b : List ℕ} (hl : b.length = a.length) (ha : ∀ x ∈ a, x + 1 < 2 ^ 64)
    (hb : ∀ x ∈ b, x + 1 < 2 ^ 64) : passesWords b (postWords a) = true ↔ b ≤ a := by
  induction b generalizing a with
  | nil =>
    cases a with
    | nil => simp [passesWords]
    | cons x a => simp at hl
  | cons y b ih =>
    cases a with
    | nil => simp at hl
    | cons x a =>
      have hx := ha x List.mem_cons_self
      have hy := hb y List.mem_cons_self
      have hrest := ih (by simpa using hl) (fun z hz => ha z (List.mem_cons_of_mem _ hz))
        fun z hz => hb z (List.mem_cons_of_mem _ hz)
      simp only [postWords, List.map_cons, passesWords, Nat.mod_eq_of_lt hx, Nat.mod_eq_of_lt hy]
      rw [← not_lt, List.cons_lt_cons_iff, not_or]
      rcases Nat.lt_trichotomy x y with hxy | rfl | hxy
      · rw [if_neg (by omega), if_pos (by omega)]
        simp [hxy]
      · rw [if_neg (by omega), if_neg (by omega)]
        simpa [postWords] using hrest
      · rw [if_pos (by omega)]
        simp only [true_iff]
        exact ⟨by omega,fun h => by omega⟩

/-- The vector that the post packs into a word of ones only. -/
def FillsWord (counts vec : List ℕ) : Prop :=
  (counts.map thisBits).sum = 64 ∧ List.Forall₂ (fun b x => x + 1 = 2 ^ b) (counts.map thisBits) vec

/-- A wait for a vector passes exactly when it does not come after the one posted, unless that one fills the
word: one more than it is then zero, as before any post. -/
theorem flattened_wait_iff {counts s a b : List ℕ} (hc : ∀ c ∈ counts, c < 2 ^ 64) (hs : shiftCounts counts = some s)
    (ha : List.Forall₂ (· < ·) a counts) (hb : List.Forall₂ (· < ·) b counts) :
    (∀ k ∈ s, k < 64) ∧ passes s b 0 = false ∧ (passesWords b (postWords a) = true ↔ b ≤ a) ∧
      ((passes s b (post s a) = true ↔ b ≤ a) ↔ ¬FillsWord counts a) := by
  obtain ⟨rfl,hsum,h0⟩ := shiftCounts_spec hs
  have hfa := fits_of_lt h0 hc ha
  have hfb := fits_of_lt h0 hc hb
  have hbound : ∀ v, List.Forall₂ (· < ·) v counts → ∀ x ∈ v, x + 1 < 2 ^ 64 := by
    intro v hv x hx
    obtain ⟨i,hi,rfl⟩ := List.mem_iff_getElem.mp hx
    have hlen := hv.length_eq
    have hlt := hv.get hi (by omega)
    have hmem := hc _ (List.getElem_mem (show i < counts.length by omega))
    simp only [List.get_eq_getElem] at hlt
    omega
  refine ⟨fun k hk => ?_,by simp [passes],passesWords_iff (by rw [ha.length_eq, hb.length_eq]) (hbound a ha) (hbound b hb),?_⟩
  · refine (shifts_lt (fun b hb => ?_) k hk).trans_le hsum
    obtain ⟨c,hcm,rfl⟩ := List.mem_map.mp hb
    exact (thisBits_spec (h0 c hcm) (hc c hcm)).1
  · have hle : b ≤ a ↔ pack (counts.map thisBits) b ≤ pack (counts.map thisBits) a := by
      rw [← not_lt, ← pack_lt_iff hfa hfb, Nat.not_lt]
    have hfull := pack_full_iff hfa
    have hlt := pack_lt hfa
    have hltb := pack_lt hfb
    rw [passes, post, flatten_eq hfa hsum, flatten_eq hfb hsum, hle, decide_eq_true_eq, FillsWord, ← hfull]
    have hpow : 2 ^ (counts.map thisBits).sum ≤ 2 ^ 64 := Nat.pow_le_pow_right (by decide) hsum
    by_cases h64 : pack (counts.map thisBits) a + 1 = 2 ^ 64
    · have hsum64 : (counts.map thisBits).sum = 64 := by
        have hge : 2 ^ 64 ≤ 2 ^ (counts.map thisBits).sum := by omega
        have := (Nat.pow_le_pow_iff_right (by decide)).mp hge
        omega
      rw [hsum64] at hlt hltb ⊢
      rw [h64, Nat.mod_self]
      simp only [Nat.not_lt_zero, false_iff, true_and, not_true_eq_false, iff_false, not_not]
      omega
    · rw [Nat.mod_eq_of_lt (by omega), Nat.lt_succ_iff]
      simp only [true_iff]
      rintro ⟨hsum64,he⟩
      rw [hsum64] at he
      exact h64 he

/-- The last iteration of two loops that have 2^32 iterations each. -/
theorem flattened_wait_false : shiftCounts [2 ^ 32,2 ^ 32] = some [32,0] ∧
    post [32,0] [2 ^ 32 - 1,2 ^ 32 - 1] = 0 ∧
    ¬∀ counts s a b : List ℕ, (∀ c ∈ counts, c < 2 ^ 63) → shiftCounts counts = some s →
      List.Forall₂ (· < ·) a counts → List.Forall₂ (· < ·) b counts → (passes s b (post s a) = true ↔ b ≤ a) := by
  have hs : shiftCounts [2 ^ 32,2 ^ 32] = some [32,0] := by decide
  have hp : post [32,0] [2 ^ 32 - 1,2 ^ 32 - 1] = 0 := by decide
  refine ⟨hs,hp,fun hall => ?_⟩
  have hvec : List.Forall₂ (· < ·) [2 ^ 32 - 1,2 ^ 32 - 1] [2 ^ 32,2 ^ 32] := by decide
  have hpass := (hall _ _ _ _ (by decide) hs hvec hvec).mpr le_rfl
  rw [hp] at hpass
  cases hpass

/-- A vector below the last one in a word that is filled. -/
theorem flattened_wait_before_last : (∀ k ∈ [32,0], k < 64) ∧ passes [32,0] [5,7] 0 = false ∧
    (passesWords [5,7] (postWords [5,8]) = true ↔ [5,7] ≤ [5,8]) ∧
    ((passes [32,0] [5,7] (post [32,0] [5,8]) = true ↔ [5,7] ≤ [5,8]) ↔ ¬FillsWord [2 ^ 32,2 ^ 32] [5,8]) :=
  @flattened_wait_iff [2 ^ 32,2 ^ 32] [32,0] [5,8] [5,7] (by decide) (by decide) (by decide) (by decide)

end GompUlt.DoacrossFlat
