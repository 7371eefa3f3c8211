import GompUlt.Parallel.ThreadPlaces

/-! # Pooled threads and new threads

The idle threads of the pool are used again in order as long as they are where the next thread of the team has to
be.  From the first one that is not, the idle threads are sorted by their places and each thread of the team takes
one from its place; if that does not work out, a second round creates the threads that are missing.
-/
namespace GompUlt.ThreadPlaces

/-- `pool->threads`: the places of the threads, plus one, and old_threads_used. -/
structure Pool where
  places : ℕ → ℕ
  used : ℕ

/-- `affinity_thr`: for each place of the parent's partition its idle threads, and affinity_count. -/
structure Affinity where
  slots : ℕ → List ℕ
  count : ℕ

/-- The loop over the idle threads: the next thread, the variables, and the threads that have been used again. -/
structure Reuse where
  i : ℕ
  vars : Vars
  affinity : Option Affinity
  reused : List (ℕ × Placement)

inductive Visit where
  | next (r : Reuse)
  | leave (r : Reuse)

namespace Args
variable (A : Args) (pool : Pool)

/-- The idle threads from `i` on, by their places; each is put before the earlier ones. -/
def gather (i : ℕ) : Affinity where
  slots l := ((List.range' i (pool.used - i)).filter fun j =>
    decide (A.prevOff < pool.places j ∧ pool.places j ≤ A.prevOff + A.prevLen ∧ pool.places j - 1 - A.prevOff = l)).reverse
  count := pool.used - i

/-- Whether the idle thread is somewhere else than the thread has to be. -/
def misplaced (i : ℕ) (pl : Placement) : Bool :=
  (A.bind ≠ .bindTrue && pool.places i ≠ pl.place) || pool.places i ≤ pl.off || pl.off + pl.len < pool.places i

/-- The place that an idle thread is taken from. -/
def choose (a : Affinity) (pl : Placement) : Option ℕ :=
  if a.slots (pl.place - 1 - A.prevOff) ≠ [] then some (pl.place - 1 - A.prevOff)
  else if A.bind ≠ .bindTrue then none
  else ((List.range' pl.off pl.len).find? fun l => a.slots (l - A.prevOff) ≠ []).map (· - A.prevOff)

/-- One round of the loop over the idle threads. -/
def visit (r : Reuse) : Visit :=
  let w := A.step r.i r.vars
  if r.affinity.isSome ∨ A.misplaced pool r.i w.2 then
    let a := r.affinity.getD (A.gather pool r.i)
    if a.count = 0 then .leave { r with vars := w.1, affinity := some a }
    else
      match A.choose a w.2 with
      | none => .next { r with i := r.i + 1, vars := w.1, affinity := some a }
      | some l =>
        .next ⟨r.i + 1,w.1,some ⟨Function.update a.slots l (a.slots l).tail,a.count - 1⟩,(r.i,w.2) :: r.reused⟩
  else .next ⟨r.i + 1,w.1,none,(r.i,w.2) :: r.reused⟩

/-- How far the loop goes; sorting the idle threads extends it to the whole team. -/
def limit (r : Reuse) : ℕ := if r.affinity.isSome then A.nthreads else min A.nthreads pool.used

def reuse : ℕ → Reuse → Reuse
  | 0, r => r
  | fuel + 1, r =>
    if r.i < A.limit pool r then
      match A.visit pool r with
      | .next r' => reuse fuel r'
      | .leave r' => r'
    else r

/-- The variables are set back for a second round. -/
def restart (v : Vars) : Vars :=
  match A.bind with
  | .bindTrue | .close =>
    ⟨if A.start.2.2 < A.nthreads then A.nthreads / A.start.2.2 else v.s,v.rest,A.place,1⟩
  | .master => v
  | .spread => if v.k ≠ 0 then ⟨A.nthreads / A.prevLen,v.rest,A.start.2.1,1⟩ else { v with p := A.start.2.1 }

/-- What follows the loop: the sorting is forgotten when all goes on as without it, else a second round begins. -/
def settle (r : Reuse) : Reuse :=
  match r.affinity with
  | none => r
  | some a =>
    if (if A.nthreads ≤ pool.used then a.count = pool.used - A.nthreads else r.i = pool.used) then
      { r with affinity := none }
    else { r with i := 1, vars := A.restart r.vars }

/-- The loop that creates threads; in a second round those that have been used again are passed over. -/
def create (r : Reuse) : ℕ → ℕ → Vars → List (ℕ × Placement)
  | 0, _, _ => []
  | fuel + 1, i, v =>
    let w := A.step i v
    if r.affinity.isSome ∧ (r.reused.lookup i).isSome then create r fuel (i + 1) w.1
    else (i,w.2) :: create r fuel (i + 1) w.1

/-- The loop over the idle threads, from thread 1. -/
def reused : Reuse := A.reuse pool A.nthreads ⟨1,A.start.1,none,[]⟩

/-- What the threads of the team are given, the master first. -/
def teamStart : List (ℕ × Placement) :=
  let r := A.settle pool (A.reused pool)
  (0,⟨A.place + 1,A.start.2.1,A.start.2.2⟩) :: r.reused ++ A.create r (A.nthreads - r.i) r.i r.vars

/-- More threads are needed than there are in the pool, and all of these have been found after sorting: the loop
is left inside the round of the first thread to be created. -/
def Exhausted : Prop :=
  pool.used < A.nthreads ∧ (A.reused pool).affinity.isSome ∧ (A.reused pool).i = pool.used

instance : Decidable (A.Exhausted pool) := inferInstanceAs (Decidable (_ ∧ _ ∧ _))

end Args

/-- What is known in every round: the variables are those of the previous thread, and every thread that has been
used again is given what it is given in order. -/
structure Kept (A : Args) (pool : Pool) (r : Reuse) : Prop where
  pos : 1 ≤ r.i
  le : r.i ≤ A.nthreads
  vars : r.vars = A.vars (r.i - 1)
  reused : ∀ x ∈ r.reused, 1 ≤ x.1 ∧ x.1 < r.i ∧ x.2 = A.placement x.1
  nodup : (r.reused.map Prod.fst).Nodup
  all : r.affinity = none → r.reused.length + 1 = r.i ∧ (r.i ≤ pool.used ∨ r.i = 1)
  count : ∀ a, r.affinity = some a → a.count + r.reused.length + 1 = pool.used

inductive Ended (A : Args) (pool : Pool) (r : Reuse) : Prop
  | whole (h : Kept A pool r) (hi : A.limit pool r ≤ r.i)
  | left (h : Kept A pool { r with vars := A.vars (r.i - 1) }) (hi : r.i < A.nthreads) (hvars : r.vars = A.vars r.i)
      (ha : ∃ a, r.affinity = some a ∧ a.count = 0)

namespace Args
variable {A : Args} {pool : Pool}

theorem placement_eq {i : ℕ} (hi : 1 ≤ i) : A.step i (A.vars (i - 1)) = (A.vars i,A.placement i) := by
  obtain ⟨j,rfl⟩ : ∃ j, i = j + 1 := ⟨i - 1,by omega⟩
  rfl

theorem kept_start : Kept A pool ⟨1,A.start.1,none,[]⟩ where
  pos := le_rfl
  le := by
    have := A.two_le
    dsimp only
    omega
  vars := rfl
  reused x hx := absurd hx List.not_mem_nil
  nodup := List.nodup_nil
  all _ := ⟨rfl,Or.inr rfl⟩
  count a ha := by cases ha

theorem limit_le (r : Reuse) : A.limit pool r ≤ A.nthreads := by
  unfold limit
  split
  · exact le_rfl
  · exact Nat.min_le_left _ _

end Args

variable {A : Args} {pool : Pool} {r : Reuse}

/-- A thread that has been used again is added. -/
theorem Kept.cons (h : Kept A pool r) : (∀ x ∈ (r.i,A.placement r.i) :: r.reused, 1 ≤ x.1 ∧ x.1 < r.i + 1 ∧
    x.2 = A.placement x.1) ∧ (((r.i,A.placement r.i) :: r.reused).map Prod.fst).Nodup := by
  constructor
  · intro x hx
    rcases List.mem_cons.mp hx with rfl | hx
    · exact ⟨h.pos,Nat.lt_succ_self _,rfl⟩
    · obtain ⟨h1,h2,h3⟩ := h.reused x hx
      exact ⟨h1,Nat.lt_succ_of_lt h2,h3⟩
  · rw [List.map_cons, List.nodup_cons]
    refine ⟨fun hmem => ?_,h.nodup⟩
    obtain ⟨x,hx,hxi⟩ := List.mem_map.mp hmem
    have := (h.reused x hx).2.1
    omega

/-- Sorting keeps the number of the idle threads. -/
theorem Kept.getD_count (h : Kept A pool r) (hi : r.i < A.limit pool r) :
    (r.affinity.getD (A.gather pool r.i)).count + r.reused.length + 1 = pool.used := by
  cases ha : r.affinity with
  | none =>
    have hall := (h.all ha).1
    rw [Args.limit, ha, if_neg (by simp)] at hi
    change pool.used - r.i + r.reused.length + 1 = pool.used
    omega
  | some a => exact h.count a ha

/-- One round keeps what is known, or ends the loop. -/
theorem Kept.visit (h : Kept A pool r) (hi : r.i < A.limit pool r) :
    (∃ r', A.visit pool r = .next r' ∧ Kept A pool r' ∧ r'.i = r.i + 1) ∨
      ∃ r', A.visit pool r = .leave r' ∧ Ended A pool r' := by
  have hlt : r.i < A.nthreads := hi.trans_le (Args.limit_le r)
  have hstep : A.step r.i r.vars = (A.vars r.i,A.placement r.i) := by
    rw [h.vars]
    exact Args.placement_eq h.pos
  have hcount := h.getD_count hi
  rw [Args.visit, hstep]
  dsimp only
  split
  next hsort =>
    split
    next hzero =>
      refine Or.inr ⟨_,rfl,.left ?_ hlt rfl ⟨_,rfl,hzero⟩⟩
      exact ⟨h.pos,h.le,rfl,h.reused,h.nodup,fun ha => (by cases ha),fun a ha => (by cases ha; exact hcount)⟩
    next hzero =>
      split
      next =>
        refine Or.inl ⟨_,rfl,⟨?_,hlt,?_,?_,h.nodup,?_,?_⟩,rfl⟩
        · exact Nat.le_add_left _ _
        · rfl
        · intro x hx
          obtain ⟨h1,h2,h3⟩ := h.reused x hx
          exact ⟨h1,Nat.lt_succ_of_lt h2,h3⟩
        · intro ha
          cases ha
        · intro a ha
          cases ha
          exact hcount
      next =>
        refine Or.inl ⟨_,rfl,⟨?_,hlt,?_,h.cons.1,h.cons.2,?_,?_⟩,rfl⟩
        · exact Nat.le_add_left _ _
        · rfl
        · intro ha
          cases ha
        · intro a ha
          cases ha
          dsimp only
          rw [List.length_cons]
          omega
  next hsort =>
    have hnone : r.affinity = none := by
      cases ha : r.affinity with
      | none => rfl
      | some a => exact absurd (Or.inl (by rw [ha]; rfl)) hsort
    have hused : r.i < pool.used := by
      rw [Args.limit, hnone, if_neg (by simp)] at hi
      omega
    refine Or.inl ⟨_,rfl,⟨?_,hlt,?_,h.cons.1,h.cons.2,?_,?_⟩,rfl⟩
    · exact Nat.le_add_left _ _
    · rfl
    · intro _
      have hall := (h.all hnone).1
      dsimp only
      rw [List.length_cons]
      omega
    · intro a ha
      cases ha

/-- The loop ends after at most one round for each thread. -/
theorem Kept.reuse (fuel : ℕ) : ∀ {r : Reuse}, Kept A pool r → A.nthreads ≤ r.i + fuel →
    Ended A pool (A.reuse pool fuel r) := by
  induction fuel with
  | zero =>
    intro r h hfuel
    exact .whole h ((Args.limit_le r).trans hfuel)
  | succ n ih =>
    intro r h hfuel
    rw [Args.reuse]
    split
    next hi =>
      rcases h.visit hi with ⟨r',hr,hkept,hnext⟩ | ⟨r',hr,hended⟩
      · rw [hr]
        exact ih hkept (by omega)
      · rw [hr]
        exact hended
    next hi => exact .whole h (Nat.not_lt.mp hi)

/-- A list without repetitions that is as long as it can be holds everything. -/
theorem mem_of_length {l : List ℕ} {n j : ℕ} (hnodup : l.Nodup) (hl : ∀ x ∈ l, 1 ≤ x ∧ x < n) (hlen : n ≤ l.length + 1)
    (hj : 1 ≤ j ∧ j < n) : j ∈ l := by
  have hsub : l.toFinset ⊆ Finset.Ico 1 n := by
    intro x hx
    rw [Finset.mem_Ico]
    exact hl x (List.mem_toFinset.mp hx)
  have heq : l.toFinset = Finset.Ico 1 n := by
    apply Finset.eq_of_subset_of_card_le hsub
    rw [Nat.card_Ico, List.toFinset_card_of_nodup hnodup]
    omega
  rw [← List.mem_toFinset, heq, Finset.mem_Ico]
  exact hj

theorem Kept.length_lt (h : Kept A pool r) : r.reused.length < r.i := by
  have hsub : (r.reused.map Prod.fst).toFinset ⊆ Finset.Ico 1 r.i := by
    intro x hx
    obtain ⟨y,hy,rfl⟩ := List.mem_map.mp (List.mem_toFinset.mp hx)
    have := h.reused y hy
    rw [Finset.mem_Ico]
    exact ⟨this.1,this.2.1⟩
  have hcard := Finset.card_le_card hsub
  rw [Nat.card_Ico, List.toFinset_card_of_nodup h.nodup, List.length_map] at hcard
  have := h.pos
  omega

/-- When enough threads have been used again, all have. -/
theorem Kept.mem_reused (h : Kept A pool r) (hlen : r.i ≤ r.reused.length + 1) {j : ℕ} (hj : 1 ≤ j ∧ j < r.i) :
    (j,A.placement j) ∈ r.reused := by
  have hmem := mem_of_length h.nodup (n := r.i) (j := j) (fun x hx => by
    obtain ⟨y,hy,rfl⟩ := List.mem_map.mp hx
    have := h.reused y hy
    exact ⟨this.1,this.2.1⟩) (by rwa [List.length_map]) hj
  obtain ⟨⟨k,pl⟩,hx,hk⟩ := List.mem_map.mp hmem
  have := (h.reused _ hx).2.2
  dsimp only at hk this
  rw [← hk, ← this]
  exact hx

/-- The threads of a packed team that take the places in turn. -/
theorem Args.restart_packed {i : ℕ} (hb : A.bind = .bindTrue ∨ A.bind = .close) (hi : i < A.nthreads) :
    A.restart (A.vars i) = A.start.1 := by
  have hp : A.Packed := hb.imp_right Or.inl
  have hlen : A.start.2.2 = A.prevLen := by rcases hb with hb | hb <;> rw [Args.start, hb]
  have hrestart (v : Vars) : A.restart v =
      ⟨if A.prevLen < A.nthreads then A.nthreads / A.prevLen else v.s,v.rest,A.place,1⟩ := by
    rcases hb with hb | hb <;> rw [Args.restart, hb, hlen]
  rw [hrestart, hp.start_eq, hp.vars_eq hi]
  dsimp only
  by_cases hlarge : A.prevLen < A.nthreads
  · rw [if_pos hlarge, Args.run, if_pos hlarge]
  · have hleft : A.left = 0 := if_neg hlarge
    rw [if_neg hlarge, hleft, Nat.sub_zero, if_pos hi]

/-- Setting the variables back gives those of the beginning. -/
theorem Args.restart_vars {i : ℕ} (hi : i < A.nthreads) : A.restart (A.vars i) = A.start.1 := by
  cases hb : A.bind with
  | bindTrue => exact A.restart_packed (.inl hb) hi
  | close => exact A.restart_packed (.inr hb) hi
  | master =>
    have hvars : A.vars i = A.start.1 := by
      clear hi
      induction i with
      | zero => rfl
      | succ i ih => rw [Args.vars, Args.step, hb, ih]
    rw [hvars, Args.restart, hb]
  | spread =>
    rcases Nat.lt_or_ge A.prevLen A.nthreads with hlarge | hsmall
    · have hp : A.Packed := Or.inr (Or.inr ⟨hb,hlarge⟩)
      have hoff : A.start.2.1 = A.place := by rw [Args.start, hb]; dsimp only; rw [if_neg (Nat.not_le.mpr hlarge)]
      have hk : (if i < A.nthreads - A.left then i % A.run + 1 else 1) ≠ 0 := by split <;> omega
      rw [hp.start_eq, hp.vars_eq hi, Args.restart, hb, hoff]
      dsimp only
      rw [if_pos hk, Args.run, if_pos hlarge]
    · have hd : A.Divided := ⟨hb,hsmall⟩
      rw [hd.vars_eq, Args.restart, hb, hd.start_eq.1]
      rfl

/-- What the second loop creates. -/
theorem Args.create_spec (r : Reuse) (fuel : ℕ) : ∀ {i : ℕ}, 1 ≤ i → i + fuel = A.nthreads →
    (∀ x ∈ A.create r fuel i (A.vars (i - 1)), i ≤ x.1 ∧ x.1 < A.nthreads ∧ x.2 = A.placement x.1) ∧
      ∀ j, i ≤ j → j < A.nthreads → (r.affinity.isSome ∧ (r.reused.lookup j).isSome) ∨
        (j,A.placement j) ∈ A.create r fuel i (A.vars (i - 1)) := by
  induction fuel with
  | zero => exact fun hi hT => ⟨fun x hx => absurd hx List.not_mem_nil,fun j hj hjT => absurd hjT (by omega)⟩
  | succ n ih =>
    intro i hi hT
    obtain ⟨hmem,hall⟩ := @ih (i + 1) (Nat.le_add_left _ _) (by omega)
    rw [Nat.add_sub_cancel] at hmem hall
    rw [Args.create, Args.placement_eq hi]
    dsimp only
    split
    next hskip =>
      refine ⟨fun x hx => ?_,fun j hj hjT => ?_⟩
      · obtain ⟨h1,h2,h3⟩ := hmem x hx
        exact ⟨by omega,h2,h3⟩
      · rcases Nat.lt_or_ge i j with hlt | hge
        · exact hall j hlt hjT
        · obtain rfl : j = i := by omega
          exact Or.inl hskip
    next hskip =>
      refine ⟨fun x hx => ?_,fun j hj hjT => ?_⟩
      · rcases List.mem_cons.mp hx with rfl | hx
        · exact ⟨le_rfl,by dsimp only; omega,rfl⟩
        · obtain ⟨h1,h2,h3⟩ := hmem x hx
          exact ⟨by omega,h2,h3⟩
      · rcases Nat.lt_or_ge i j with hlt | hge
        · exact (hall j hlt hjT).imp_right (List.mem_cons_of_mem _)
        · obtain rfl : j = i := by omega
          exact Or.inr List.mem_cons_self

/-- What is known when the second loop begins. -/
structure Settled (A : Args) (r : Reuse) : Prop where
  pos : 1 ≤ r.i
  le : r.i ≤ A.nthreads
  vars : r.vars = A.vars (r.i - 1)
  reused : ∀ x ∈ r.reused, x.1 < A.nthreads ∧ x.2 = A.placement x.1
  before : ∀ j, 1 ≤ j → j < r.i → (j,A.placement j) ∈ r.reused

theorem Kept.reused_lt (h : Kept A pool r) : ∀ x ∈ r.reused, x.1 < A.nthreads ∧ x.2 = A.placement x.1 :=
  fun x hx => ⟨(h.reused x hx).2.1.trans_le h.le,(h.reused x hx).2.2⟩

/-- A second round begins like the first one. -/
theorem settled_restart {i : ℕ} (hi : i < A.nthreads) (hvars : r.vars = A.vars i)
    (hreused : ∀ x ∈ r.reused, x.1 < A.nthreads ∧ x.2 = A.placement x.1) :
    Settled A { r with i := 1, vars := A.restart r.vars } where
  pos := le_rfl
  le := (Nat.zero_le i).trans_lt hi
  vars := by
    dsimp only
    rw [hvars, Args.restart_vars hi]
    rfl
  reused := hreused
  before j hj hlt := absurd hlt (Nat.not_lt.mpr hj)

/-- After the loop the threads before the next one have been used again, or a second round begins. -/
theorem Ended.settle (h : Ended A pool r) (hex : ¬ (pool.used < A.nthreads ∧ r.affinity.isSome ∧ r.i = pool.used)) :
    Settled A (A.settle pool r) := by
  cases h with
  | whole h hi =>
    rw [Args.settle]
    split
    next hnone => exact ⟨h.pos,h.le,h.vars,h.reused_lt,fun j hj hlt => h.mem_reused (h.all hnone).1.ge ⟨hj,hlt⟩⟩
    next a ha =>
      have hiT : r.i = A.nthreads := by
        rw [Args.limit, ha] at hi
        exact Nat.le_antisymm h.le hi
      have hcount := h.count a ha
      by_cases hkeep : if A.nthreads ≤ pool.used then a.count = pool.used - A.nthreads else r.i = pool.used
      · rw [if_pos hkeep]
        refine ⟨h.pos,h.le,h.vars,h.reused_lt,fun j hj hlt => h.mem_reused ?_ ⟨hj,hlt⟩⟩
        split at hkeep
        next => omega
        next hused => omega
      · rw [if_neg hkeep]
        have htwo := A.two_le
        exact settled_restart (i := r.i - 1) (by omega) h.vars h.reused_lt
  | left h hi hvars ha =>
    obtain ⟨a,ha,hzero⟩ := ha
    have hcount := h.count a ha
    have hlen := h.length_lt
    dsimp only at hcount hlen
    rw [Args.settle, ha]
    dsimp only
    by_cases hkeep : if A.nthreads ≤ pool.used then a.count = pool.used - A.nthreads else r.i = pool.used
    · -- all idle threads would have been found, and there are not enough of them
      split at hkeep
      next hused => omega
      next hused => exact absurd ⟨by omega,by rw [ha]; rfl,hkeep⟩ hex
    · rw [if_neg hkeep, ← ha]
      exact settled_restart hi hvars h.reused_lt

theorem mem_of_lookup {l : List (ℕ × Placement)} {i : ℕ} {pl : Placement} (h : l.lookup i = some pl) : (i,pl) ∈ l := by
  obtain ⟨l₁,l₂,rfl,-⟩ := List.lookup_eq_some_iff.mp h
  exact List.mem_append_right _ List.mem_cons_self

/-- Both loops together give every thread what it is given in order. -/
theorem mem_teamStart (hex : ¬ A.Exhausted pool) (i : ℕ) (pl : Placement) :
    (i,pl) ∈ A.teamStart pool ↔ i < A.nthreads ∧ pl = A.placement i := by
  have htwo := A.two_le
  have hended : Ended A pool (A.reused pool) := Args.kept_start.reuse A.nthreads (by dsimp only; omega)
  have hS := hended.settle hex
  set S := A.settle pool (A.reused pool) with hSdef
  obtain ⟨hmem,hall⟩ := Args.create_spec (A := A) S (A.nthreads - S.i) hS.pos (by have := hS.le; omega)
  rw [Args.teamStart, ← hSdef]
  rw [hS.vars, List.cons_append, List.mem_cons, List.mem_append]
  constructor
  · rintro (h | h | h)
    · cases h
      exact ⟨by omega,rfl⟩
    · exact hS.reused _ h
    · exact (hmem _ h).2
  · rintro ⟨hi,rfl⟩
    rcases Nat.eq_zero_or_pos i with rfl | hpos
    · exact Or.inl rfl
    · refine Or.inr ?_
      rcases Nat.lt_or_ge i S.i with hlt | hge
      · exact Or.inl (hS.before i hpos hlt)
      · rcases hall i hge hi with ⟨-,hlook⟩ | hcreated
        · obtain ⟨pl,hpl⟩ := Option.isSome_iff_exists.mp hlook
          have hin := mem_of_lookup hpl
          obtain rfl : pl = A.placement i := (hS.reused _ hin).2
          exact Or.inl hin
        · exact Or.inr hcreated

/-- Where the threads of a team are placed, whatever the pool: disjoint sub-partitions of almost equal sizes, or
runs of threads on successive places. -/
theorem team_places (A : Args) (pool : Pool) (hex : ¬ A.Exhausted pool) :
    (∀ i pl, (i,pl) ∈ A.teamStart pool ↔ i < A.nthreads ∧ pl = A.placement i) ∧
    (A.bind = .spread → A.nthreads ≤ A.prevLen →
      (∀ x, A.prevOff ≤ x → x < A.prevOff + A.prevLen →
        ∃! i, i < A.nthreads ∧ (A.placement i).off ≤ x ∧ x < (A.placement i).off + (A.placement i).len) ∧
      (∀ i < A.nthreads, A.prevOff ≤ (A.placement i).off ∧
        (A.placement i).off + (A.placement i).len ≤ A.prevOff + A.prevLen ∧
        ((A.placement i).len = A.prevLen / A.nthreads ∨
          A.prevLen % A.nthreads ≠ 0 ∧ (A.placement i).len = A.prevLen / A.nthreads + 1)) ∧
      ((A.placement 0).off ≤ A.place ∧ A.place < (A.placement 0).off + (A.placement 0).len) ∧
      ∀ i, 0 < i → i < A.nthreads → (A.placement i).place = (A.placement i).off + 1) ∧
    (A.bind = .bindTrue ∨ A.bind = .close ∨ A.bind = .spread ∧ A.prevLen < A.nthreads →
      (A.placement 0).place = A.place + 1 ∧
      (∀ i, i + 1 < A.nthreads →
        ¬ (A.prevLen < A.nthreads ∧ i + 1 = A.nthreads - A.nthreads % A.prevLen) →
        A.position ((A.placement i).place - 1) ≤ A.position ((A.placement (i + 1)).place - 1)) ∧
      (A.prevLen < A.nthreads → ∀ q, A.prevOff ≤ q → q < A.prevOff + A.prevLen →
        ((Finset.range A.nthreads).filter fun i => (A.placement i).place = q + 1).card = A.nthreads / A.prevLen ∨
        A.nthreads % A.prevLen ≠ 0 ∧ ((Finset.range A.nthreads).filter fun i => (A.placement i).place = q + 1).card =
          A.nthreads / A.prevLen + 1) ∧
      (A.nthreads ≤ A.prevLen → ∀ i j, i < A.nthreads → j < A.nthreads →
        (A.placement i).place = (A.placement j).place → i = j)) := by
  refine ⟨mem_teamStart hex,fun hb hsmall => ?_,fun hp => ?_⟩
  · have h : A.Divided := ⟨hb,hsmall⟩
    obtain ⟨hstart,-,hle,hlt⟩ := h.start_eq
    refine ⟨fun x => h.existsUnique_thread,fun i _ => ?_,?_,fun i hi _ => ?_⟩
    · refine ⟨(h.placement_inside i).1,(h.placement_inside i).2,?_⟩
      rw [h.placement_eq]
      dsimp only [Args.length]
      split
      next hlt => exact Or.inr ⟨by omega,rfl⟩
      next => exact Or.inl rfl
    · rw [Args.placement, hstart]
      exact ⟨hle,hlt⟩
    · rw [h.placement_eq]
      dsimp only
      rw [if_neg (by omega)]
  · have h : A.Packed := hp
    refine ⟨rfl,fun i hi hlast => h.position_le hi hlast,fun hlarge q hle hlt => ?_,
      fun hsmall i j hi hj => h.placement_injective hsmall hi hj⟩
    rw [h.card_place hle hlt hlarge]
    split
    next hpos => exact Or.inr ⟨by omega,rfl⟩
    next => exact Or.inl rfl

/-- A team whose threads are put close to their master. -/
def closeTeam (nthreads off len place : ℕ) (h : 2 ≤ nthreads ∧ 1 ≤ len ∧ off ≤ place ∧ place < off + len) : Args where
  bind := .close
  nthreads := nthreads
  prevOff := off
  prevLen := len
  place := place
  two_le := h.1
  len_pos := h.2.1
  le_place := h.2.2.1
  place_lt := h.2.2.2

theorem five_three : 2 ≤ 5 ∧ 1 ≤ 3 ∧ 2 ≤ 3 ∧ 3 < 2 + 3 := by decide

/-- Five threads on three places, with two idle threads in the pool. -/
def fiveOnThree : Args := closeTeam 5 2 3 3 five_three

theorem team_places_five : (4,⟨5,2,3⟩) ∈ fiveOnThree.teamStart ⟨fun i => i + 3,3⟩ :=
  ((team_places fiveOnThree ⟨fun i => i + 3,3⟩ (by decide)).1 4 ⟨5,2,3⟩).mpr ⟨by decide,by decide⟩

theorem three_two : 2 ≤ 3 ∧ 1 ≤ 2 ∧ 0 ≤ 0 ∧ 0 < 0 + 2 := by decide

theorem four_two : 2 ≤ 4 ∧ 1 ≤ 2 ∧ 0 ≤ 0 ∧ 0 < 0 + 2 := by decide

/-- Teams of three and of four threads on two places. -/
def threeOnTwo : Args := closeTeam 3 0 2 0 three_two

def fourOnTwo : Args := closeTeam 4 0 2 0 four_two

/-- The third thread goes back to the master's place; and when the team of three is followed by one of four, both
idle threads are found after sorting and the fourth thread is put on the wrong place. -/
theorem team_places_back : threeOnTwo.teamStart ⟨fun _ => 0,0⟩ = [(0,⟨1,0,2⟩),(1,⟨2,0,2⟩),(2,⟨1,0,2⟩)] ∧
    threeOnTwo.position (1 - 1) < threeOnTwo.position (2 - 1) ∧
    fourOnTwo.teamStart ⟨fun i => if i = 1 then 2 else 1,3⟩ = [(0,⟨1,0,2⟩),(2,⟨2,0,2⟩),(1,⟨1,0,2⟩),(3,⟨1,0,2⟩)] := by
  decide

end GompUlt.ThreadPlaces
