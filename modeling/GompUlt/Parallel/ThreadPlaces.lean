import Mathlib

/-! # The places of the threads of a team

gomp_team_start computes the places of the threads one after the other, first for the threads it takes from the
pool and then for those it creates.  Places are counted from zero; the place of a thread is stored plus one.
-/
namespace GompUlt.ThreadPlaces

/-- `enum omp_proc_bind_t` without false. -/
inductive ProcBind where
  | bindTrue
  | master
  | close
  | spread
deriving DecidableEq, Repr

/-- The team, the partition of its parent, and the place of the master. -/
structure Args where
  bind : ProcBind
  nthreads : ℕ
  prevOff : ℕ
  prevLen : ℕ
  place : ℕ
  two_le : 2 ≤ nthreads
  len_pos : 1 ≤ prevLen
  le_place : prevOff ≤ place
  place_lt : place < prevOff + prevLen

/-- The variables that are carried from one thread to the next. -/
structure Vars where
  s : ℕ
  rest : ℕ
  p : ℕ
  k : ℕ
deriving DecidableEq, Repr

/-- What a thread is given: its place plus one and its partition. -/
structure Placement where
  place : ℕ
  off : ℕ
  len : ℕ
deriving DecidableEq, Repr

namespace Args
variable (A : Args)

/-- The initial switch: the variables, and the partition of the master. -/
def start : Vars × ℕ × ℕ :=
  match A.bind with
  | .bindTrue | .close =>
    (if A.prevLen < A.nthreads then ⟨A.nthreads / A.prevLen,A.nthreads % A.prevLen,A.place,1⟩ else ⟨1,0,A.place,1⟩,
      A.prevOff,A.prevLen)
  | .master => (⟨0,0,A.place,0⟩,A.prevOff,A.prevLen)
  | .spread =>
    if A.nthreads ≤ A.prevLen then
      let s := A.prevLen / A.nthreads
      let rest := (s + 1) * (A.prevLen % A.nthreads) + A.prevOff
      if A.place < rest then
        let p := A.place - (A.place - A.prevOff) % (s + 1)
        (⟨s,rest,p,0⟩,p,s + 1)
      else
        let p := A.place - (A.place - rest) % s
        (⟨s,rest,p,0⟩,p,s)
    else (⟨A.nthreads / A.prevLen,A.nthreads % A.prevLen,A.place,1⟩,A.place,1)

/-- The end of the parent's partition is its beginning. -/
def wrap (p : ℕ) : ℕ := if p = A.prevOff + A.prevLen then A.prevOff else p

/-- The next thread goes to the same place, or to the next one when this place has its threads. -/
def turn (i : ℕ) (v : Vars) : Vars :=
  if v.k = v.s then ⟨if i = A.nthreads - v.rest then 1 else v.s,v.rest,A.wrap (v.p + 1),1⟩ else { v with k := v.k + 1 }

/-- The switch in both loops, for thread `i`. -/
def step (i : ℕ) (v : Vars) : Vars × Placement :=
  match A.bind with
  | .bindTrue | .close => (A.turn i v,⟨(A.turn i v).p + 1,A.start.2.1,A.start.2.2⟩)
  | .master => (v,⟨v.p + 1,A.start.2.1,A.start.2.2⟩)
  | .spread =>
    if v.k = 0 then
      let p := A.wrap (if v.p < v.rest then v.p + (v.s + 1) else v.p + v.s)
      ({ v with p := p },⟨p + 1,p,if p < v.rest then v.s + 1 else v.s⟩)
    else (A.turn i v,⟨(A.turn i v).p + 1,(A.turn i v).p,1⟩)

/-- The variables after thread `i`. -/
def vars : ℕ → Vars
  | 0 => A.start.1
  | i + 1 => (A.step (i + 1) (vars i)).1

/-- What thread `i` is given when the threads are gone through in order. -/
def placement : ℕ → Placement
  | 0 => ⟨A.place + 1,A.start.2.1,A.start.2.2⟩
  | i + 1 => (A.step (i + 1) (A.vars i)).2

/-- Every place receives its threads in one run, apart from the last threads of a large team. -/
def Packed : Prop := A.bind = .bindTrue ∨ A.bind = .close ∨ A.bind = .spread ∧ A.prevLen < A.nthreads

/-- How many threads go to a place at least. -/
def run : ℕ := if A.prevLen < A.nthreads then A.nthreads / A.prevLen else 1

/-- How many threads are left then. -/
def left : ℕ := if A.prevLen < A.nthreads then A.nthreads % A.prevLen else 0

/-- How often the place has changed before thread `i`. -/
def moves (i : ℕ) : ℕ :=
  if i < A.nthreads - A.left then i / A.run else (A.nthreads - A.left) / A.run + (i - (A.nthreads - A.left))

/-- The place that lies `m` places behind the master's, round the partition. -/
def placeAfter (m : ℕ) : ℕ := A.prevOff + (A.place - A.prevOff + m) % A.prevLen

end Args

theorem succ_mod {x n : ℕ} (hn : 0 < n) : (x + 1) % n = if x % n + 1 = n then 0 else x % n + 1 := by
  rw [← Nat.mod_add_mod]
  split
  next h => rw [h, Nat.mod_self]
  next h =>
    have := Nat.mod_lt x hn
    exact Nat.mod_eq_of_lt (by omega)

theorem succ_div {x n : ℕ} (hn : 0 < n) : (x + 1) / n = if x % n + 1 = n then x / n + 1 else x / n := by
  have hx := Nat.div_add_mod x n
  have hlt := Nat.mod_lt x hn
  split
  next h =>
    have hsum : x + 1 = n * (x / n + 1) := by
      rw [Nat.mul_add, Nat.mul_one]
      omega
    rw [hsum, Nat.mul_div_cancel_left _ hn]
  next h =>
    have hsum : x + 1 = n * (x / n) + (x % n + 1) := by omega
    have hzero : (x % n + 1) / n = 0 := Nat.div_eq_of_lt (by omega)
    rw [hsum, Nat.mul_add_div hn, hzero, Nat.add_zero]

namespace Args
variable {A : Args}

theorem run_pos : 0 < A.run := by
  unfold run
  split
  · exact Nat.div_pos (by omega) A.len_pos
  · exact Nat.one_pos

/-- In a large team the full runs take all places. -/
theorem nthreads_eq (h : A.prevLen < A.nthreads) : A.nthreads = A.run * A.prevLen + A.left := by
  rw [run, left, if_pos h, if_pos h, Nat.mul_comm]
  exact (Nat.div_add_mod _ _).symm

theorem left_lt (h : A.prevLen < A.nthreads) : A.left < A.prevLen := by
  rw [left, if_pos h]
  exact Nat.mod_lt _ A.len_pos

theorem wrap_placeAfter (m : ℕ) : A.wrap (A.placeAfter m + 1) = A.placeAfter (m + 1) := by
  have hmod : (A.place - A.prevOff + (m + 1)) % A.prevLen = _ := @succ_mod (A.place - A.prevOff + m) _ A.len_pos
  rw [placeAfter, placeAfter, hmod, wrap]
  split
  next h => rw [if_pos (by omega), Nat.add_zero]
  next h => rw [if_neg (by omega), Nat.add_assoc]

theorem placeAfter_zero : A.placeAfter 0 = A.place := by
  have h1 := A.le_place
  have h2 := A.place_lt
  rw [placeAfter, Nat.add_zero, Nat.mod_eq_of_lt (by omega)]
  omega

theorem Packed.start_eq (h : A.Packed) : A.start.1 = ⟨A.run,A.left,A.place,1⟩ := by
  unfold start run left
  rcases h with h | h | ⟨h,hlt⟩
  · rw [h]
    dsimp only
    split <;> rfl
  · rw [h]
    dsimp only
    split <;> rfl
  · simp only [h, if_pos hlt, if_neg (Nat.not_le.mpr hlt)]

theorem Packed.step_eq (h : A.Packed) {i : ℕ} {v : Vars} (hk : v.k ≠ 0) : (A.step i v).1 = A.turn i v ∧
    (A.step i v).2.place = (A.turn i v).p + 1 := by
  unfold step
  rcases h with h | h | ⟨h,-⟩
  · rw [h]
    exact ⟨rfl,rfl⟩
  · rw [h]
    exact ⟨rfl,rfl⟩
  · rw [h]
    dsimp only
    rw [if_neg hk]
    exact ⟨rfl,rfl⟩

/-- The variables in terms of the number of the thread. -/
theorem Packed.vars_eq (h : A.Packed) {i : ℕ} (hi : i < A.nthreads) :
    A.vars i = ⟨if i < A.nthreads - A.left then A.run else 1,A.left,A.placeAfter (A.moves i),
      if i < A.nthreads - A.left then i % A.run + 1 else 1⟩ := by
  have hrun := @run_pos A
  induction i with
  | zero =>
    have hpos : 0 < A.nthreads - A.left := by
      rcases Nat.lt_or_ge A.prevLen A.nthreads with hlt | hge
      · have := left_lt hlt
        omega
      · rw [left, if_neg (Nat.not_lt.mpr hge)]
        omega
    have hmoves : A.moves 0 = 0 := by rw [moves, if_pos hpos, Nat.zero_div]
    rw [vars, h.start_eq, if_pos hpos, if_pos hpos, hmoves, placeAfter_zero, Nat.zero_mod]
  | succ i ih =>
    have hprev := ih (by omega)
    rw [vars, (h.step_eq (by rw [hprev]; dsimp only; split <;> omega)).1, hprev, turn]
    rcases Nat.lt_trichotomy (i + 1) (A.nthreads - A.left) with hlt | heq | hgt
    · have hi' : i < A.nthreads - A.left := by omega
      have hne : i + 1 ≠ A.nthreads - A.left := by omega
      simp only [hi', hlt, hne, if_true, if_false, moves, @succ_mod i _ hrun, @succ_div i _ hrun]
      split
      next hk => rw [wrap_placeAfter, Nat.zero_add]
      next hk => rfl
    · -- the last run is over: the remaining threads go one by one
      have hlarge : A.prevLen < A.nthreads := by
        by_contra hsmall
        rw [left, if_neg hsmall] at heq
        omega
      have hn := nthreads_eq hlarge
      have hfull : i + 1 = A.run * A.prevLen := by omega
      have hi' : i < A.nthreads - A.left := by omega
      have hmod := @succ_mod i _ hrun
      have hdiv := @succ_div i _ hrun
      have hk : i % A.run + 1 = A.run := by
        by_contra hk
        rw [if_neg hk, hfull, Nat.mul_mod_right] at hmod
        omega
      rw [if_pos hk] at hdiv
      have hmoves : A.moves (i + 1) = A.moves i + 1 := by
        rw [moves, moves, if_pos hi', if_neg (by omega), ← heq, hdiv, Nat.sub_self, Nat.add_zero]
      simp only [if_true, hk, ← heq, Nat.lt_irrefl, if_false, hmoves, wrap_placeAfter]
    · have hi' : ¬ i < A.nthreads - A.left := by omega
      have hlt : ¬ i + 1 < A.nthreads - A.left := by omega
      have hne : i + 1 ≠ A.nthreads - A.left := by omega
      have hmoves : A.moves (i + 1) = A.moves i + 1 := by
        rw [moves, moves, if_neg hi', if_neg hlt]
        omega
      simp only [hi', hlt, hne, if_false, if_true, hmoves, wrap_placeAfter]

theorem Packed.placement_eq (h : A.Packed) {i : ℕ} (hi : i < A.nthreads) :
    (A.placement i).place = A.placeAfter (A.moves i) + 1 := by
  have hvars := h.vars_eq hi
  cases i with
  | zero =>
    have hp : A.start.1.p = A.placeAfter (A.moves 0) := congrArg Vars.p hvars
    rw [h.start_eq] at hp
    exact congrArg (· + 1) hp
  | succ i =>
    have hk : (A.vars i).k ≠ 0 := by
      rw [h.vars_eq (by omega)]
      dsimp only
      split <;> omega
    rw [placement, (h.step_eq hk).2, ← (h.step_eq hk).1]
    exact congrArg (fun v => v.p + 1) hvars

/-- The position of a place in circular order, beginning at the master's. -/
def position (A : Args) (q : ℕ) : ℕ := (q - A.prevOff + A.prevLen - (A.place - A.prevOff)) % A.prevLen

theorem placeAfter_eq_iff {m q : ℕ} (hle : A.prevOff ≤ q) (hlt : q < A.prevOff + A.prevLen) :
    A.placeAfter m = q ↔ m % A.prevLen = A.position q := by
  have h1 := A.le_place
  have h2 := A.place_lt
  have hr := Nat.mod_lt m A.len_pos
  rw [placeAfter, position, ← Nat.add_mod_mod]
  set a := A.place - A.prevOff with ha
  set r := m % A.prevLen
  have hsum : (a + r) % A.prevLen = if a + r < A.prevLen then a + r else a + r - A.prevLen := by
    split
    next h => exact Nat.mod_eq_of_lt h
    next h => rw [Nat.mod_eq_sub_mod (by omega), Nat.mod_eq_of_lt (by omega)]
  have hdiff : (q - A.prevOff + A.prevLen - a) % A.prevLen =
      if q - A.prevOff < a then q - A.prevOff + A.prevLen - a else q - A.prevOff - a := by
    split
    next h => exact Nat.mod_eq_of_lt (by omega)
    next h => rw [Nat.mod_eq_sub_mod (by omega), Nat.mod_eq_of_lt (by omega)]; omega
  rw [hsum, hdiff]
  split <;> split <;> omega

theorem placeAfter_mem (m : ℕ) : A.prevOff ≤ A.placeAfter m ∧ A.placeAfter m < A.prevOff + A.prevLen :=
  ⟨Nat.le_add_right _ _,Nat.add_lt_add_left (Nat.mod_lt _ A.len_pos) _⟩

theorem position_placeAfter (m : ℕ) : A.position (A.placeAfter m) = m % A.prevLen :=
  ((placeAfter_eq_iff (placeAfter_mem m).1 (placeAfter_mem m).2).mp rfl).symm

/-- The position of the place of thread `i`. -/
def turnOf (A : Args) (i : ℕ) : ℕ := if i < A.nthreads - A.left then i / A.run else i - (A.nthreads - A.left)

theorem moves_mod {i : ℕ} (hi : i < A.nthreads) : A.moves i % A.prevLen = A.turnOf i := by
  rcases Nat.lt_or_ge A.prevLen A.nthreads with hlarge | hsmall
  · have hn := nthreads_eq hlarge
    have hleft := left_lt hlarge
    have hfull : A.nthreads - A.left = A.run * A.prevLen := by omega
    rw [moves, turnOf, hfull, Nat.mul_div_cancel_left _ run_pos]
    split
    next h => exact Nat.mod_eq_of_lt (Nat.div_lt_of_lt_mul h)
    next h => rw [Nat.add_mod_left, Nat.mod_eq_of_lt (by omega)]
  · have hleft : A.left = 0 := if_neg (Nat.not_lt.mpr hsmall)
    have hrun : A.run = 1 := if_neg (Nat.not_lt.mpr hsmall)
    rw [moves, turnOf, hleft, hrun, Nat.sub_zero, if_pos hi, if_pos hi, Nat.div_one, Nat.mod_eq_of_lt (by omega)]

/-- How many threads a place receives. -/
theorem Packed.card_place (h : A.Packed) {q : ℕ} (hle : A.prevOff ≤ q) (hlt : q < A.prevOff + A.prevLen)
    (hlarge : A.prevLen < A.nthreads) :
    ((Finset.range A.nthreads).filter fun i => (A.placement i).place = q + 1).card =
      A.nthreads / A.prevLen + if A.position q < A.nthreads % A.prevLen then 1 else 0 := by
  have hn := nthreads_eq hlarge
  have hpos : A.position q < A.prevLen := Nat.mod_lt _ A.len_pos
  have hrun := @run_pos A
  have hrun_eq : A.run = A.nthreads / A.prevLen := if_pos hlarge
  have hleft_eq : A.left = A.nthreads % A.prevLen := if_pos hlarge
  rw [← hrun_eq, ← hleft_eq]
  set d := A.position q with hd
  have hfull : A.nthreads - A.left = A.run * A.prevLen := by omega
  have hbound : A.run * d + A.run ≤ A.run * A.prevLen := by
    rw [← Nat.mul_succ]
    exact Nat.mul_le_mul_left _ hpos
  have hset : (Finset.range A.nthreads).filter (fun i => (A.placement i).place = q + 1) =
      Finset.Ico (A.run * d) (A.run * d + A.run) ∪ if d < A.left then {A.run * A.prevLen + d} else ∅ := by
    ext i
    have hiff : i < A.nthreads → ((A.placement i).place = q + 1 ↔ A.turnOf i = d) := by
      intro hi
      rw [h.placement_eq hi, Nat.add_right_cancel_iff, placeAfter_eq_iff hle hlt, moves_mod hi]
    have hdiv : A.turnOf i = d ↔ (i < A.run * A.prevLen ∧ A.run * d ≤ i ∧ i < A.run * d + A.run) ∨
        (A.run * A.prevLen ≤ i ∧ i = A.run * A.prevLen + d) := by
      rw [turnOf, hfull]
      split
      next hlt =>
        rw [Nat.div_eq_iff hrun, Nat.mul_comm d]
        omega
      next hge => omega
    rw [Finset.mem_filter, Finset.mem_range, Finset.mem_union, Finset.mem_Ico]
    constructor
    · rintro ⟨hi,hp⟩
      rcases hdiv.mp ((hiff hi).mp hp) with h | h
      · exact Or.inl ⟨h.2.1,h.2.2⟩
      · rw [if_pos (by omega), Finset.mem_singleton]
        exact Or.inr h.2
    · rintro (⟨h1,h2⟩ | hlast)
      · exact ⟨by omega,(hiff (by omega)).mpr (hdiv.mpr (Or.inl ⟨by omega,h1,h2⟩))⟩
      · split at hlast
        next hd' =>
          rw [Finset.mem_singleton] at hlast
          exact ⟨by omega,(hiff (by omega)).mpr (hdiv.mpr (Or.inr ⟨by omega,hlast⟩))⟩
        next => exact absurd hlast (Finset.notMem_empty _)
  rw [hset, Finset.card_union_of_disjoint, Nat.card_Ico, Nat.add_sub_cancel_left]
  · split <;> rfl
  · split
    next =>
      rw [Finset.disjoint_singleton_right, Finset.mem_Ico]
      omega
    next => exact Finset.disjoint_empty_right _

/-- In a small team no place receives two threads. -/
theorem Packed.placement_injective (h : A.Packed) (hsmall : A.nthreads ≤ A.prevLen) {i j : ℕ} (hi : i < A.nthreads)
    (hj : j < A.nthreads) (heq : (A.placement i).place = (A.placement j).place) : i = j := by
  have hleft : A.left = 0 := if_neg (Nat.not_lt.mpr hsmall)
  have hrun : A.run = 1 := if_neg (Nat.not_lt.mpr hsmall)
  have hturn : ∀ m < A.nthreads, A.turnOf m = m := by
    intro m hm
    rw [turnOf, hleft, hrun, Nat.sub_zero, if_pos hm, Nat.div_one]
  rw [h.placement_eq hi, h.placement_eq hj, Nat.add_right_cancel_iff] at heq
  have hpos := congrArg A.position heq
  rw [position_placeAfter, position_placeAfter, moves_mod hi, moves_mod hj, hturn i hi, hturn j hj] at hpos
  exact hpos

/-- A thread is not placed before the previous one, unless it is the first of the last threads of a large team. -/
theorem Packed.position_le (h : A.Packed) {i : ℕ} (hi : i + 1 < A.nthreads)
    (hlast : ¬ (A.prevLen < A.nthreads ∧ i + 1 = A.nthreads - A.nthreads % A.prevLen)) :
    A.position ((A.placement i).place - 1) ≤ A.position ((A.placement (i + 1)).place - 1) := by
  have hne : i + 1 ≠ A.nthreads - A.left := by
    intro heq
    rcases Nat.lt_or_ge A.prevLen A.nthreads with hlarge | hsmall
    · rw [left, if_pos hlarge] at heq
      exact hlast ⟨hlarge,heq⟩
    · rw [left, if_neg (Nat.not_lt.mpr hsmall)] at heq
      omega
  rw [h.placement_eq (by omega), h.placement_eq hi, Nat.add_sub_cancel, Nat.add_sub_cancel, position_placeAfter,
    position_placeAfter, moves_mod (by omega), moves_mod hi, turnOf, turnOf]
  rcases Nat.lt_trichotomy (i + 1) (A.nthreads - A.left) with hlt | heq | hgt
  · rw [if_pos (by omega), if_pos hlt]
    exact Nat.div_le_div_right (Nat.le_succ i)
  · exact absurd heq hne
  · rw [if_neg (by omega), if_neg (by omega)]
    omega

/-- The partition is divided among the threads. -/
def Divided (A : Args) : Prop := A.bind = .spread ∧ A.nthreads ≤ A.prevLen

/-- Where sub-partition `j` begins: the first ones have one place more than the others. -/
def begin_ (A : Args) (j : ℕ) : ℕ := A.prevOff + j * (A.prevLen / A.nthreads) + min j (A.prevLen % A.nthreads)

/-- How many places sub-partition `j` has. -/
def length (A : Args) (j : ℕ) : ℕ := A.prevLen / A.nthreads + if j < A.prevLen % A.nthreads then 1 else 0

/-- The sub-partition of the master. -/
def home (A : Args) : ℕ :=
  if A.place < A.begin_ (A.prevLen % A.nthreads) then (A.place - A.prevOff) / (A.prevLen / A.nthreads + 1)
  else A.prevLen % A.nthreads + (A.place - A.begin_ (A.prevLen % A.nthreads)) / (A.prevLen / A.nthreads)

theorem begin_succ (j : ℕ) : A.begin_ (j + 1) = A.begin_ j + A.length j := by
  rw [begin_, begin_, length, Nat.add_mul, Nat.one_mul]
  split <;> omega

theorem begin_zero : A.begin_ 0 = A.prevOff := by
  simp [begin_]

theorem begin_nthreads : A.begin_ A.nthreads = A.prevOff + A.prevLen := by
  have hmod := Nat.mod_lt A.prevLen (show 0 < A.nthreads by have := A.two_le; omega)
  have hdiv := Nat.div_add_mod A.prevLen A.nthreads
  rw [begin_, Nat.min_eq_right hmod.le]
  omega

namespace Divided

theorem div_pos (h : A.Divided) : 0 < A.prevLen / A.nthreads :=
  Nat.div_pos h.2 (by have := A.two_le; omega)

theorem length_pos (h : A.Divided) (j : ℕ) : 0 < A.length j := Nat.add_pos_left h.div_pos _

theorem begin_lt {i j : ℕ} (hij : i < j) : A.begin_ (i + 1) ≤ A.begin_ j := by
  induction j, hij using Nat.le_induction with
  | base => exact le_rfl
  | succ j _ ih =>
    rw [begin_succ j]
    omega

theorem begin_lt_iff (h : A.Divided) {i j : ℕ} : A.begin_ i < A.begin_ j ↔ i < j := by
  constructor
  · intro hlt
    by_contra hge
    rcases Nat.lt_or_ge j i with hji | hij
    · have := begin_lt (A := A) hji
      rw [begin_succ] at this
      omega
    · obtain rfl : i = j := by omega
      exact Nat.lt_irrefl _ hlt
  · intro hij
    have := begin_lt (A := A) hij
    have := h.length_pos i
    rw [begin_succ] at *
    omega

/-- The variable `rest` is where the shorter sub-partitions begin. -/
theorem rest_eq (A : Args) : (A.prevLen / A.nthreads + 1) * (A.prevLen % A.nthreads) + A.prevOff =
    A.begin_ (A.prevLen % A.nthreads) := by
  rw [begin_, Nat.min_self]
  ring

/-- The sub-partition of the master, and that its place is in there. -/
theorem start_eq (h : A.Divided) : A.start = (⟨A.prevLen / A.nthreads,A.begin_ (A.prevLen % A.nthreads),A.begin_ A.home,0⟩,
    A.begin_ A.home,A.length A.home) ∧ A.home < A.nthreads ∧ A.begin_ A.home ≤ A.place ∧
      A.place < A.begin_ A.home + A.length A.home := by
  have hs := h.div_pos
  have hle := A.le_place
  have hlt := A.place_lt
  rw [start, h.1]
  dsimp only
  rw [if_pos h.2, rest_eq]
  set s := A.prevLen / A.nthreads with hsdef
  set r := A.prevLen % A.nthreads with hr
  have hmod : r < A.nthreads := Nat.mod_lt _ (by have := A.two_le; omega)
  by_cases hplace : A.place < A.begin_ r
  · rw [if_pos hplace]
    have hhome : A.home = (A.place - A.prevOff) / (s + 1) := if_pos hplace
    have hdiv := Nat.div_add_mod (A.place - A.prevOff) (s + 1)
    have hrem := Nat.mod_lt (A.place - A.prevOff) (show 0 < s + 1 by omega)
    rw [← hhome] at hdiv
    have hhome_lt : A.home < r := by
      rw [hhome]
      apply Nat.div_lt_of_lt_mul
      have hrest : A.begin_ r = A.prevOff + (s + 1) * r := by
        rw [begin_, ← hr, Nat.min_self, ← hsdef]
        ring
      omega
    have hbegin : A.begin_ A.home = A.prevOff + (s + 1) * A.home := by
      rw [begin_, ← hr, ← hsdef, Nat.min_eq_left hhome_lt.le]
      ring
    have hlen : A.length A.home = s + 1 := by rw [length, ← hr, if_pos hhome_lt]
    have hp : A.place - (A.place - A.prevOff) % (s + 1) = A.begin_ A.home := by omega
    rw [hp, hlen]
    exact ⟨rfl,by omega,by omega,by omega⟩
  · rw [if_neg hplace]
    have hhome : A.home = r + (A.place - A.begin_ r) / s := if_neg hplace
    have hdiv := Nat.div_add_mod (A.place - A.begin_ r) s
    have hrem := Nat.mod_lt (A.place - A.begin_ r) hs
    have hrbegin : A.begin_ r = A.prevOff + r * s + r := by rw [begin_, ← hr, Nat.min_self, ← hsdef]
    have hrle : r ≤ A.home := by
      rw [hhome]
      exact Nat.le_add_right _ _
    have hbegin : A.begin_ A.home = A.begin_ r + s * ((A.place - A.begin_ r) / s) := by
      rw [begin_, ← hr, ← hsdef, Nat.min_eq_right hrle, hhome, Nat.add_mul, Nat.mul_comm s]
      omega
    have hlen : A.length A.home = s := by rw [length, ← hr, if_neg (Nat.not_lt.mpr hrle), Nat.add_zero]
    have hp : A.place - (A.place - A.begin_ r) % s = A.begin_ A.home := by omega
    have hhome_lt : A.home < A.nthreads := by
      rw [← h.begin_lt_iff, begin_nthreads]
      omega
    rw [hp, hlen]
    exact ⟨rfl,hhome_lt,by omega,by omega⟩

theorem step_eq (h : A.Divided) {i j : ℕ} (hj : j < A.nthreads) :
    A.step i ⟨A.prevLen / A.nthreads,A.begin_ (A.prevLen % A.nthreads),A.begin_ j,0⟩ =
      (⟨A.prevLen / A.nthreads,A.begin_ (A.prevLen % A.nthreads),A.begin_ ((j + 1) % A.nthreads),0⟩,
        ⟨A.begin_ ((j + 1) % A.nthreads) + 1,A.begin_ ((j + 1) % A.nthreads),A.length ((j + 1) % A.nthreads)⟩) := by
  have hnext : (if A.begin_ j < A.begin_ (A.prevLen % A.nthreads) then A.begin_ j + (A.prevLen / A.nthreads + 1)
      else A.begin_ j + A.prevLen / A.nthreads) = A.begin_ (j + 1) := by
    rw [begin_succ, length]
    simp only [h.begin_lt_iff]
    split <;> rfl
  have hwrap : A.wrap (A.begin_ (j + 1)) = A.begin_ ((j + 1) % A.nthreads) := by
    rw [wrap, ← begin_nthreads]
    rcases Nat.lt_or_ge (j + 1) A.nthreads with hlt | hge
    · rw [Nat.mod_eq_of_lt hlt, if_neg (h.begin_lt_iff.mpr hlt).ne]
    · obtain heq : j + 1 = A.nthreads := by omega
      rw [heq, Nat.mod_self, if_pos rfl, begin_zero]
  have hlen : ∀ m, (if A.begin_ m < A.begin_ (A.prevLen % A.nthreads) then A.prevLen / A.nthreads + 1
      else A.prevLen / A.nthreads) = A.length m := by
    intro m
    rw [length]
    simp only [h.begin_lt_iff]
    split <;> rfl
  rw [step, h.1]
  dsimp only
  rw [if_pos rfl, hnext, hwrap, hlen]

theorem vars_eq (h : A.Divided) (i : ℕ) : A.vars i =
    ⟨A.prevLen / A.nthreads,A.begin_ (A.prevLen % A.nthreads),A.begin_ ((A.home + i) % A.nthreads),0⟩ := by
  obtain ⟨hstart,hhome,-⟩ := h.start_eq
  induction i with
  | zero => rw [vars, hstart, Nat.add_zero, Nat.mod_eq_of_lt hhome]
  | succ i ih =>
    have hlt := Nat.mod_lt (A.home + i) (show 0 < A.nthreads by omega)
    rw [vars, ih, h.step_eq hlt, Nat.mod_add_mod, Nat.add_assoc]

/-- Every thread gets a sub-partition of its own, in circular order from the master's. -/
theorem placement_eq (h : A.Divided) (i : ℕ) : A.placement i =
    ⟨(if i = 0 then A.place else A.begin_ ((A.home + i) % A.nthreads)) + 1,A.begin_ ((A.home + i) % A.nthreads),
      A.length ((A.home + i) % A.nthreads)⟩ := by
  obtain ⟨hstart,hhome,-⟩ := h.start_eq
  cases i with
  | zero =>
    rw [placement, hstart]
    simp only [Nat.add_zero, Nat.mod_eq_of_lt hhome, if_true]
  | succ i =>
    have hlt := Nat.mod_lt (A.home + i) (show 0 < A.nthreads by omega)
    rw [placement, h.vars_eq, h.step_eq hlt, Nat.mod_add_mod, Nat.add_assoc, if_neg (Nat.succ_ne_zero i)]

/-- Every place is in one sub-partition. -/
theorem existsUnique_begin (h : A.Divided) {x : ℕ} (hle : A.prevOff ≤ x) (hlt : x < A.prevOff + A.prevLen) :
    ∃! j, j < A.nthreads ∧ A.begin_ j ≤ x ∧ x < A.begin_ j + A.length j := by
  have htwo := A.two_le
  have hex : ∃ j, x < A.begin_ (j + 1) := by
    refine ⟨A.nthreads - 1,?_⟩
    rw [Nat.sub_add_cancel (by omega), begin_nthreads]
    exact hlt
  have hfind := Nat.find_spec hex
  have hmin : ∀ m < Nat.find hex, ¬ x < A.begin_ (m + 1) := fun m hm => Nat.find_min hex hm
  set j := Nat.find hex
  have hj : A.begin_ j ≤ x := by
    rcases Nat.eq_zero_or_pos j with h0 | hpos
    · rw [h0, begin_zero]
      exact hle
    · have := hmin (j - 1) (by omega)
      rw [Nat.sub_add_cancel hpos] at this
      omega
  have hjlt : j < A.nthreads := by
    rw [← h.begin_lt_iff, begin_nthreads]
    omega
  refine ⟨j,⟨hjlt,hj,by rwa [← begin_succ]⟩,fun m hm => ?_⟩
  obtain ⟨-,hm1,hm2⟩ := hm
  rw [← begin_succ] at hm2
  have h1 := h.begin_lt_iff.mp (hm1.trans_lt hfind)
  have h2 := h.begin_lt_iff.mp (hj.trans_lt hm2)
  omega

/-- The sub-partitions of the threads are disjoint and cover the partition of the parent. -/
theorem existsUnique_thread (h : A.Divided) {x : ℕ} (hle : A.prevOff ≤ x) (hlt : x < A.prevOff + A.prevLen) :
    ∃! i, i < A.nthreads ∧ (A.placement i).off ≤ x ∧ x < (A.placement i).off + (A.placement i).len := by
  obtain ⟨-,hhome,-⟩ := h.start_eq
  have hpos : 0 < A.nthreads := by omega
  obtain ⟨j,⟨hj,hj1,hj2⟩,hunique⟩ := h.existsUnique_begin hle hlt
  simp only [h.placement_eq]
  refine ⟨(j + A.nthreads - A.home) % A.nthreads,⟨Nat.mod_lt _ hpos,?_⟩,fun i hi => ?_⟩
  · have hback : (A.home + (j + A.nthreads - A.home) % A.nthreads) % A.nthreads = j := by
      rw [Nat.add_mod_mod, Nat.add_sub_cancel' (by omega), Nat.add_mod_right, Nat.mod_eq_of_lt hj]
    rw [hback]
    exact ⟨hj1,hj2⟩
  · obtain rfl := hunique _ ⟨Nat.mod_lt _ hpos,hi.2⟩
    rcases Nat.lt_or_ge (A.home + i) A.nthreads with hlt' | hge
    · rw [Nat.mod_eq_of_lt hlt', Nat.mod_eq_sub_mod (by omega), Nat.mod_eq_of_lt (by omega)]
      omega
    · rw [Nat.mod_eq_sub_mod hge, Nat.mod_eq_of_lt (a := A.home + i - A.nthreads) (by omega),
        Nat.mod_eq_of_lt (by omega)]
      omega

theorem placement_inside (h : A.Divided) (i : ℕ) : A.prevOff ≤ (A.placement i).off ∧
    (A.placement i).off + (A.placement i).len ≤ A.prevOff + A.prevLen := by
  obtain ⟨-,hhome,-⟩ := h.start_eq
  have hlt := Nat.mod_lt (A.home + i) (show 0 < A.nthreads by omega)
  rw [h.placement_eq]
  refine ⟨?_,?_⟩
  · dsimp only [begin_]
    omega
  · dsimp only
    rw [← begin_succ, ← begin_nthreads]
    rcases Nat.lt_or_ge ((A.home + i) % A.nthreads + 1) A.nthreads with hlt' | hge
    · exact (h.begin_lt_iff.mpr hlt').le
    · obtain heq : (A.home + i) % A.nthreads + 1 = A.nthreads := by omega
      rw [heq]

end Divided
end Args
end GompUlt.ThreadPlaces
