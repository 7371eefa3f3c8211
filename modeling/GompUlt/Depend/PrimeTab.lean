import Mathlib

/-! # The sizes of the hash tables

A table has one of thirty prime sizes.  Remainders are computed without a division, from a multiplicative
inverse; the second hash is taken modulo the prime less two and never is a multiple of the size.
-/
namespace GompUlt.HashTab

/-- What a function of the table comes to; `more` when its loops have not ended in time. -/
inductive Outcome (α : Type*) where
  | done (a : α)
  | abort
  | more

namespace Outcome
variable {α β : Type*}

def bind (o : Outcome α) (f : α → Outcome β) : Outcome β :=
  match o with
  | done a => f a
  | abort => abort
  | more => more

theorem bind_eq_done {o : Outcome α} {f : α → Outcome β} {b : β} :
    o.bind f = done b ↔ ∃ a, o = done a ∧ f a = done b := by
  cases o <;> simp [bind]

end Outcome

structure PrimeEnt where
  prime : ℕ
  inv : ℕ
  invM2 : ℕ
  shift : ℕ
deriving DecidableEq, Repr

def primeTab : List PrimeEnt :=
  [⟨7,0x24924925,0x9999999b,2⟩, ⟨13,0x3b13b13c,0x745d1747,3⟩, ⟨31,0x08421085,0x1a7b9612,4⟩,
   ⟨61,0x0c9714fc,0x15b1e5f8,5⟩, ⟨127,0x02040811,0x0624dd30,6⟩, ⟨251,0x05197f7e,0x073260a5,7⟩,
   ⟨509,0x01824366,0x02864fc8,8⟩, ⟨1021,0x00c0906d,0x014191f7,9⟩, ⟨2039,0x0121456f,0x0161e69e,10⟩,
   ⟨4093,0x00300902,0x00501908,11⟩, ⟨8191,0x00080041,0x00180241,12⟩, ⟨16381,0x000c0091,0x00140191,13⟩,
   ⟨32749,0x002605a5,0x002a06e6,14⟩, ⟨65521,0x000f00e2,0x00110122,15⟩, ⟨131071,0x00008001,0x00018003,16⟩,
   ⟨262139,0x00014002,0x0001c004,17⟩, ⟨524287,0x00002001,0x00006001,18⟩, ⟨1048573,0x00003001,0x00005001,19⟩,
   ⟨2097143,0x00004801,0x00005801,20⟩, ⟨4194301,0x00000c01,0x00001401,21⟩, ⟨8388593,0x00001e01,0x00002201,22⟩,
   ⟨16777213,0x00000301,0x00000501,23⟩, ⟨33554393,0x00001381,0x00001481,24⟩, ⟨67108859,0x00000141,0x000001c1,25⟩,
   ⟨134217689,0x000004e1,0x00000521,26⟩, ⟨268435399,0x00000391,0x000003b1,27⟩, ⟨536870909,0x00000019,0x00000029,28⟩,
   ⟨1073741789,0x0000008d,0x00000095,29⟩, ⟨2147483647,0x00000003,0x00000007,30⟩, ⟨0xfffffffb,0x00000006,0x00000008,31⟩]

/-- An entry of the table; there is none from 30 on. -/
def primeAt (i : ℕ) : PrimeEnt := primeTab.getD i ⟨0,0,0,0⟩

/-- The binary search for the first prime that is not below `n`. -/
def searchPrime (n low high : ℕ) : ℕ :=
  if low < high then
    if (primeAt (low + (high - low) / 2)).prime < n then searchPrime n (low + (high - low) / 2 + 1) high
    else searchPrime n low (low + (high - low) / 2)
  else low
termination_by high - low

/-- `higher_prime_index`; when no prime is high enough it aborts at best, since it reads past the table first. -/
def higherPrimeIndex (n : ℕ) : Outcome ℕ :=
  if (primeAt (searchPrime n 0 30)).prime < n then .abort else .done (searchPrime n 0 30)

/-- `htab_mod_1` on 32-bit words. -/
def htabMod1 (x y inv shift : ℕ) : ℕ :=
  let t1 := x * inv / 2 ^ 32
  let t2 := (x + 2 ^ 32 - t1) % 2 ^ 32
  let t3 := t2 / 2
  let t4 := (t1 + t3) % 2 ^ 32
  let q := t4 / 2 ^ shift
  (x + 2 ^ 32 - q * y % 2 ^ 32) % 2 ^ 32

/-- The inverse is right for the divisor. -/
structure Inverse (y inv shift : ℕ) : Prop where
  lt : inv < 2 ^ 32
  le : 2 ^ (33 + shift) ≤ (2 ^ 32 + inv) * y
  le_add : (2 ^ 32 + inv) * y ≤ 2 ^ (33 + shift) + 2 ^ (shift + 1)

/-- The quotient by the product with the inverse. -/
theorem Inverse.div_eq {x y inv shift : ℕ} (h : Inverse y inv shift) (hx : x < 2 ^ 32) :
    (2 ^ 32 + inv) * x / 2 ^ (33 + shift) = x / y := by
  have hy : 0 < y := by
    rcases Nat.eq_zero_or_pos y with rfl | hy
    · have := h.le
      rw [Nat.mul_zero] at this
      exact absurd this (by simp)
    · exact hy
  have hdiv := Nat.div_add_mod x y
  have hmod := Nat.mod_lt x hy
  set q := x / y
  set P := 2 ^ (shift + 1) with hP
  have hword : 2 ^ (33 + shift) = 2 ^ 32 * P := by
    rw [hP, ← pow_add]
    congr 1
    omega
  have hle := h.le
  have hle_add := h.le_add
  rw [hword] at hle hle_add ⊢
  have hpos : 0 < P := by positivity
  apply Nat.div_eq_of_lt_le
  · apply Nat.le_of_mul_le_mul_right _ hy
    calc q * (2 ^ 32 * P) * y = 2 ^ 32 * P * (y * q) := by ring
      _ ≤ (2 ^ 32 + inv) * y * x := Nat.mul_le_mul hle (by omega)
      _ = (2 ^ 32 + inv) * x * y := by ring
  · apply Nat.lt_of_mul_lt_mul_right (a := y)
    calc (2 ^ 32 + inv) * x * y = (2 ^ 32 + inv) * y * x := by ring
      _ ≤ (2 ^ 32 * P + P) * x := Nat.mul_le_mul_right x hle_add
      _ = 2 ^ 32 * P * x + P * x := by ring
      _ < 2 ^ 32 * P * x + P * 2 ^ 32 := Nat.add_lt_add_left (Nat.mul_lt_mul_of_pos_left hx hpos) _
      _ = 2 ^ 32 * P * (x + 1) := by ring
      _ ≤ 2 ^ 32 * P * (y * q + y) := Nat.mul_le_mul_left _ (by omega)
      _ = (q + 1) * (2 ^ 32 * P) * y := by ring

/-- The words do not overflow on the way, and the result is the remainder. -/
theorem Inverse.htabMod1_eq {x y inv shift : ℕ} (h : Inverse y inv shift) (hx : x < 2 ^ 32) :
    htabMod1 x y inv shift = x % y := by
  have ht1 : x * inv / 2 ^ 32 ≤ x := by
    apply Nat.div_le_of_le_mul
    rw [Nat.mul_comm]
    exact Nat.mul_le_mul_right x h.lt.le
  set t1 := x * inv / 2 ^ 32 with ht
  have hq : (t1 + (x - t1) / 2) / 2 ^ shift = x / y := by
    rw [← h.div_eq hx]
    have hhalf : t1 + (x - t1) / 2 = (x + t1) / 2 := by omega
    have hsum : x + t1 = (2 ^ 32 + inv) * x / 2 ^ 32 := by
      rw [Nat.add_mul, Nat.mul_comm inv, Nat.mul_add_div (by norm_num), ht]
    have hpow : 2 ^ 32 * (2 * 2 ^ shift) = 2 ^ (33 + shift) := by
      rw [pow_add]
      ring
    rw [hhalf, hsum, Nat.div_div_eq_div_mul, Nat.div_div_eq_div_mul, hpow]
  have ht2 : (x + 2 ^ 32 - t1) % 2 ^ 32 = x - t1 := by omega
  have ht4 : (t1 + (x - t1) / 2) % 2 ^ 32 = t1 + (x - t1) / 2 := Nat.mod_eq_of_lt (by omega)
  have hdiv := Nat.div_add_mod x y
  have hqy : x / y * y ≤ x := Nat.div_mul_le_self x y
  rw [htabMod1, ← ht]
  rw [ht2, ht4, hq, Nat.mod_eq_of_lt (hqy.trans_lt hx)]
  rw [Nat.mul_comm] at hdiv
  omega

/-- The inverses of the table are right. -/
theorem inverse_primeAt {i : ℕ} (hi : i < 30) :
    Inverse (primeAt i).prime (primeAt i).inv (primeAt i).shift ∧
      Inverse ((primeAt i).prime - 2) (primeAt i).invM2 (primeAt i).shift := by
  interval_cases i <;> exact ⟨⟨by decide,by decide,by decide⟩,⟨by decide,by decide,by decide⟩⟩

/-- None of `m`, `m + 2`, …, 2 ^ k numbers in all, divides `n`; they are tried by halves. -/
def noDivisor (n m : ℕ) : ℕ → Bool
  | 0 => !(n % m).beq 0
  | k + 1 => noDivisor n m k && noDivisor n (m + 2 * 2 ^ k) k

theorem not_dvd_of_noDivisor {n k : ℕ} :
    ∀ {m d : ℕ}, noDivisor n m k = true → m ≤ d → d < m + 2 * 2 ^ k → d % 2 = m % 2 → ¬ d ∣ n := by
  induction k with
  | zero =>
    intro m d h hle hlt hpar hdvd
    obtain rfl : d = m := by omega
    simp only [noDivisor, Nat.mod_eq_zero_of_dvd hdvd] at h
    exact absurd h (by decide)
  | succ k ih =>
    intro m d h hle hlt hpar
    simp only [noDivisor, Bool.and_eq_true] at h
    rw [pow_succ] at hlt
    rcases Nat.lt_or_ge d (m + 2 * 2 ^ k) with hd | hd
    · exact ih h.1 hle hd hpar
    · exact ih h.2 hd (by omega) (by omega)

/-- An odd number is prime when none of the odd numbers up to its root divides it. -/
theorem prime_of_noDivisor {n : ℕ} (k : ℕ) (hodd : n % 2 = 1) (hn : 2 ≤ n) (hk : n < (3 + 2 * 2 ^ k) ^ 2)
    (h : noDivisor n 3 k = true) : n.Prime := by
  refine Nat.prime_def_le_sqrt.mpr ⟨hn,fun d hd hle hdvd => ?_⟩
  have hlt := Nat.sqrt_lt'.mpr hk
  have hdodd : d % 2 = 1 := by
    by_contra heven
    have htwo : 2 ∣ n := (Nat.dvd_of_mod_eq_zero (by omega)).trans hdvd
    omega
  exact not_dvd_of_noDivisor h (by omega) (by omega) (by omega) hdvd

/-- How many odd numbers are tried for each size. -/
def trials : List ℕ := [0, 0, 1, 2, 3, 3, 4, 4, 5, 5, 6, 6, 7, 7, 8, 8, 9, 9, 10, 10, 11, 11, 12, 12, 13, 13, 14, 14, 15]

theorem primeAt_trials : ∀ i < 29, (primeAt i).prime % 2 = 1 ∧ 2 ≤ (primeAt i).prime ∧
    (primeAt i).prime < (3 + 2 * 2 ^ trials.getD i 0) ^ 2 ∧
    noDivisor (primeAt i).prime 3 (trials.getD i 0) = true := by
  decide +kernel

/-- The sizes are primes. -/
theorem prime_primeAt {i : ℕ} (hi : i < 29) : (primeAt i).prime.Prime := by
  obtain ⟨hodd,htwo,hroot,htrials⟩ := primeAt_trials i hi
  exact prime_of_noDivisor _ hodd htwo hroot htrials

theorem primeAt_mono {i j : ℕ} (hij : i < j) (hj : j < 30) : (primeAt i).prime < (primeAt j).prime := by
  have hstep : ∀ i < 29, (primeAt i).prime < (primeAt (i + 1)).prime := by decide
  induction j, hij using Nat.le_induction with
  | base => exact hstep i (by omega)
  | succ j _ ih => exact (ih (by omega)).trans (hstep j (by omega))

/-- The largest size for which the sum of two indices is a 32-bit word. -/
def maxSize : ℕ := 2147483647

theorem primeAt_le {i : ℕ} (hi : i < 29) : (primeAt i).prime ≤ maxSize := by
  rcases Nat.lt_or_ge i 28 with h | h
  · exact (primeAt_mono h (by omega)).le
  · obtain rfl : i = 28 := by omega
    exact le_rfl

theorem seven_le_primeAt {i : ℕ} (hi : i < 29) : 7 ≤ (primeAt i).prime := by
  rcases Nat.eq_zero_or_pos i with rfl | h
  · exact le_rfl
  · exact (primeAt_mono h (by omega)).le

/-- What the binary search has found. -/
structure FirstAbove (n r : ℕ) : Prop where
  below : ∀ j < r, (primeAt j).prime < n
  above : ∀ j, r ≤ j → j < 30 → n ≤ (primeAt j).prime

theorem searchPrime_spec {n : ℕ} (low high : ℕ) (hle : low ≤ high) (hhigh : high ≤ 30)
    (hbelow : ∀ j < low, (primeAt j).prime < n) (habove : ∀ j, high ≤ j → j < 30 → n ≤ (primeAt j).prime) :
    searchPrime n low high ≤ 30 ∧ FirstAbove n (searchPrime n low high) := by
  fun_induction searchPrime n low high with
  | case1 low high hlt hprime ih =>
    refine ih (by omega) hhigh (fun j hj => ?_) habove
    rcases Nat.lt_or_ge j (low + (high - low) / 2) with h | h
    · exact (primeAt_mono h (by omega)).trans hprime
    · obtain rfl : j = low + (high - low) / 2 := by omega
      exact hprime
  | case2 low high hlt hprime ih =>
    refine ih (by omega) (by omega) hbelow fun j hj hj30 => ?_
    rcases Nat.lt_or_ge (low + (high - low) / 2) j with h | h
    · exact (Nat.not_lt.mp hprime).trans (primeAt_mono h hj30).le
    · obtain rfl : j = low + (high - low) / 2 := by omega
      exact Nat.not_lt.mp hprime
  | case3 low high hlt =>
    obtain rfl : low = high := by omega
    exact ⟨hhigh,hbelow,habove⟩

/-- Up to `maxSize` there is a size that is not below `n`. -/
theorem higherPrimeIndex_done {n : ℕ} (hn : n ≤ maxSize) :
    ∃ i < 29, higherPrimeIndex n = .done i ∧ n ≤ (primeAt i).prime := by
  obtain ⟨-,h⟩ := searchPrime_spec (n := n) 0 30 (by omega) le_rfl (fun j hj => absurd hj (Nat.not_lt_zero j))
    fun j hj hj30 => absurd hj (by omega)
  have hlt : searchPrime n 0 30 < 29 := by
    by_contra hge
    exact absurd (h.below 28 (by omega)) (Nat.not_lt.mpr hn)
  have hle := h.above _ le_rfl (by omega)
  exact ⟨_,hlt,by rw [higherPrimeIndex, if_neg (Nat.not_lt.mpr hle)],hle⟩

/-- Beyond it there is only the last size. -/
theorem higherPrimeIndex_last {n : ℕ} (hn : maxSize < n) (hn' : n ≤ 4294967291) : higherPrimeIndex n = .done 29 := by
  obtain ⟨hle,h⟩ := searchPrime_spec (n := n) 0 30 (by omega) le_rfl (fun j hj => absurd hj (Nat.not_lt_zero j))
    fun j hj hj30 => absurd hj (by omega)
  have heq : searchPrime n 0 30 = 29 := by
    rcases Nat.lt_trichotomy (searchPrime n 0 30) 29 with hlt | heq | hgt
    · exact absurd (h.above 28 (by omega) (by omega)) (Nat.not_le.mpr hn)
    · exact heq
    · exact absurd (h.below 29 hgt) (Nat.not_lt.mpr hn')
  rw [higherPrimeIndex, heq]
  exact if_neg (Nat.not_lt.mpr hn')

/-- `htab_mod` for a table of the given size. -/
def htabMod (i hash : ℕ) : ℕ := htabMod1 hash (primeAt i).prime (primeAt i).inv (primeAt i).shift

def htabModM2 (i hash : ℕ) : ℕ :=
  (1 + htabMod1 hash ((primeAt i).prime - 2) (primeAt i).invM2 (primeAt i).shift) % 2 ^ 32

theorem seven_le_prime {i : ℕ} (hi : i < 30) : 7 ≤ (primeAt i).prime := by
  rcases Nat.lt_or_ge i 29 with h | h
  · exact seven_le_primeAt h
  · obtain rfl : i = 29 := by omega
    exact (seven_le_primeAt (i := 0) (by omega)).trans (primeAt_mono (by omega) hi).le

theorem prime_lt_word {i : ℕ} (hi : i < 30) : (primeAt i).prime < 2 ^ 32 := by
  rcases Nat.lt_or_ge i 29 with h | h
  · exact (primeAt_mono h (by omega)).trans (by decide)
  · obtain rfl : i = 29 := by omega
    decide

theorem htabMod_eq {i hash : ℕ} (hi : i < 30) (hh : hash < 2 ^ 32) : htabMod i hash = hash % (primeAt i).prime :=
  (inverse_primeAt hi).1.htabMod1_eq hh

/-- The sum with one does not overflow either. -/
theorem htabModM2_eq {i hash : ℕ} (hi : i < 30) (hh : hash < 2 ^ 32) :
    htabModM2 i hash = 1 + hash % ((primeAt i).prime - 2) := by
  have hseven := seven_le_prime hi
  have hword := prime_lt_word hi
  have hlt := Nat.mod_lt hash (show 0 < (primeAt i).prime - 2 by omega)
  rw [htabModM2, (inverse_primeAt hi).2.htabMod1_eq hh]
  exact Nat.mod_eq_of_lt (by omega)

/-- The search ends at the first size that is high enough. -/
theorem higherPrimeIndex_first {n : ℕ} (hn : n ≤ (primeAt 29).prime) :
    ∃ r < 30, higherPrimeIndex n = .done r ∧ n ≤ (primeAt r).prime ∧ ∀ j < r, (primeAt j).prime < n := by
  obtain ⟨hle,h⟩ := searchPrime_spec (n := n) 0 30 (by omega) le_rfl (fun j hj => absurd hj (Nat.not_lt_zero j))
    fun j hj hj30 => absurd hj (by omega)
  have hlt : searchPrime n 0 30 < 30 := by
    by_contra hge
    exact absurd (h.below 29 (by omega)) (Nat.not_lt.mpr hn)
  have habove := h.above _ le_rfl hlt
  exact ⟨_,hlt,by rw [higherPrimeIndex, if_neg (Nat.not_lt.mpr habove)],habove,h.below⟩

/-- The table is right: both remainders for every word, the ranges of the two hashes, and the search. -/
theorem primeTab_correct :
    (∀ i < primeTab.length, ∀ x < 2 ^ 32,
      htabMod1 x (primeAt i).prime (primeAt i).inv (primeAt i).shift = x % (primeAt i).prime ∧
      htabMod1 x ((primeAt i).prime - 2) (primeAt i).invM2 (primeAt i).shift = x % ((primeAt i).prime - 2)) ∧
    (∀ i < primeTab.length, ∀ hash < 2 ^ 32,
      htabMod i hash < (primeAt i).prime ∧ 1 ≤ htabModM2 i hash ∧ htabModM2 i hash ≤ (primeAt i).prime - 2) ∧
    (∀ n ≤ (primeAt (primeTab.length - 1)).prime, ∃ r < primeTab.length,
      higherPrimeIndex n = .done r ∧ n ≤ (primeAt r).prime ∧ ∀ j < r, (primeAt j).prime < n) := by
  refine ⟨fun i hi x hx => ?_,fun i hi hash hh => ?_,fun n hn => higherPrimeIndex_first hn⟩
  · obtain ⟨hinv,hinv2⟩ := inverse_primeAt hi
    exact ⟨hinv.htabMod1_eq hx,hinv2.htabMod1_eq hx⟩
  · have hseven := seven_le_prime hi
    have hlt := Nat.mod_lt hash (show 0 < (primeAt i).prime - 2 by omega)
    rw [htabMod_eq hi hh, htabModM2_eq hi hh]
    exact ⟨Nat.mod_lt _ (by omega),by omega,by omega⟩

/-- A word in the first size, and the search of a number that is no size. -/
theorem primeTab_correct_first :
    htabMod1 100 7 0x24924925 2 = 100 % 7 ∧ htabModM2 0 100 ≤ 7 - 2 ∧
      ∃ r, higherPrimeIndex 8 = .done r ∧ 8 ≤ (primeAt r).prime := by
  obtain ⟨hmod,hrange,hsearch⟩ := primeTab_correct
  obtain ⟨r,-,hdone,hle,-⟩ := hsearch 8 (by decide)
  exact ⟨(hmod 0 (by decide) 100 (by decide)).1,(hrange 0 (by decide) 100 (by decide)).2.2,r,hdone,hle⟩

/-- `index += hash2; if (index >= size) index -= size;` -/
def nextIndex (size hash2 index : ℕ) : ℕ :=
  if size ≤ (index + hash2) % 2 ^ 32 then (index + hash2) % 2 ^ 32 - size else (index + hash2) % 2 ^ 32

/-- The slots where an element with this hash is looked for, one after the other. -/
def probe (i hash k : ℕ) : ℕ := (nextIndex (primeAt i).prime (htabModM2 i hash))^[k] (htabMod i hash)

theorem probe_succ (i hash k : ℕ) :
    probe i hash (k + 1) = nextIndex (primeAt i).prime (htabModM2 i hash) (probe i hash k) :=
  Function.iterate_succ_apply' _ _ _

/-- No sum of two indices overflows. -/
theorem nextIndex_eq {p s x : ℕ} (hx : x < p) (hs : s < p) (hp : p ≤ maxSize) : nextIndex p s x = (x + s) % p := by
  unfold maxSize at hp
  have hword : (x + s) % 2 ^ 32 = x + s := Nat.mod_eq_of_lt (by omega)
  rw [nextIndex, hword]
  split
  next h => rw [Nat.mod_eq_sub_mod h, Nat.mod_eq_of_lt (by omega)]
  next h => rw [Nat.mod_eq_of_lt (by omega)]

/-- The probes go round the table in equal steps. -/
theorem probe_eq {i hash : ℕ} (hi : i < 29) (hh : hash < 2 ^ 32) (k : ℕ) :
    probe i hash k = (hash + k * (1 + hash % ((primeAt i).prime - 2))) % (primeAt i).prime := by
  have hseven := seven_le_primeAt hi
  have hmax := primeAt_le hi
  have hstep := htabModM2_eq (i := i) (by omega) hh
  induction k with
  | zero => rw [Nat.zero_mul, Nat.add_zero, probe, Function.iterate_zero_apply, htabMod_eq (by omega) hh]
  | succ k ih =>
    rw [probe_succ, ih, hstep]
    set p := (primeAt i).prime
    have hs := Nat.mod_lt hash (show 0 < p - 2 by omega)
    set s := 1 + hash % (p - 2) with hsdef
    have hr := Nat.mod_lt (hash + k * s) (show 0 < p by omega)
    have hnext : nextIndex p s ((hash + k * s) % p) = ((hash + k * s) % p + s) % p :=
      nextIndex_eq hr (by omega) hmax
    rw [hnext, Nat.mod_add_mod, Nat.add_assoc, Nat.add_mul, Nat.one_mul]

theorem probe_lt {i hash : ℕ} (hi : i < 29) (hh : hash < 2 ^ 32) (k : ℕ) : probe i hash k < (primeAt i).prime := by
  rw [probe_eq hi hh]
  exact Nat.mod_lt _ (prime_primeAt hi).pos

/-- Every slot is probed. -/
theorem exists_probe_eq {i hash j : ℕ} (hi : i < 29) (hh : hash < 2 ^ 32) (hj : j < (primeAt i).prime) :
    ∃ k, k < (primeAt i).prime ∧ probe i hash k = j := by
  have hprime := prime_primeAt hi
  have : Fact (primeAt i).prime.Prime := ⟨hprime⟩
  have hseven := seven_le_primeAt hi
  have hlt := Nat.mod_lt hash (show 0 < (primeAt i).prime - 2 by omega)
  set p := (primeAt i).prime
  set s := 1 + hash % (p - 2) with hs
  have hne : ((s : ℕ) : ZMod p) ≠ 0 := by
    rw [Ne, ZMod.natCast_eq_zero_iff]
    intro hdvd
    exact absurd (Nat.le_of_dvd (by omega) hdvd) (by omega)
  refine ⟨(((j : ZMod p) - hash) / s).val,ZMod.val_lt _,?_⟩
  rw [probe_eq hi hh]
  have hcast : ((hash + (((j : ZMod p) - hash) / s).val * s : ℕ) : ZMod p) = (j : ZMod p) := by
    push_cast
    rw [ZMod.natCast_zmod_val, div_mul_cancel₀ _ hne]
    ring
  have hmod := (ZMod.natCast_eq_natCast_iff' _ _ _).mp hcast
  rwa [Nat.mod_eq_of_lt hj] at hmod

end GompUlt.HashTab
