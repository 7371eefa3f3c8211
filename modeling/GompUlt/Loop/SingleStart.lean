import Mathlib
import GompUlt.Lib.Run

/-! # `single` constructs

A thread counts the `single` constructs it meets and tries to put the team's counter one further; the thread
for which this succeeds executes the construct.  Nobody waits, so that threads may be many constructs apart.
-/
namespace GompUlt.SingleStart
open Run

def ulong (n : ℕ) : ℕ := n % 2 ^ 64

inductive Pc where
  | returned (ret : Bool)
  /-- The compare and swap, with what `thr->ts.single_count` was. -/
  | exchange (singleCount : ℕ)
deriving DecidableEq

/-- `thr->ts.single_count`, and how many constructs the thread has met. -/
structure Thread where
  pc : Pc
  singleCount : ℕ
  met : ℕ

/-- `team->single_count`, and which thread executed which construct. -/
structure State (ι : Type*) where
  singleCount : ℕ
  thr : ι → Thread
  executed : List (ι × ℕ)

variable {ι : Type*}

def init (ι : Type*) : State ι := ⟨0,fun _ => ⟨.returned false,0,0⟩,[]⟩

variable [DecidableEq ι]

/-- `GOMP_single_start`, one access of shared memory at a time. -/
def step (s : State ι) (t : ι) : Option (State ι) :=
  match (s.thr t).pc with
  | .returned _ =>
    let next : Thread := ⟨.exchange (s.thr t).singleCount,ulong ((s.thr t).singleCount + 1),(s.thr t).met + 1⟩
    some { s with thr := Function.update s.thr t next }
  | .exchange singleCount =>
    if s.singleCount = singleCount then
      some ⟨ulong (singleCount + 1),Function.update s.thr t { s.thr t with pc := .returned true },
        s.executed ++ [(t,(s.thr t).met - 1)]⟩
    else some { s with thr := Function.update s.thr t { s.thr t with pc := .returned false } }

/-- The constructs that a thread has left behind. -/
def Thread.past (r : Thread) : ℕ :=
  match r.pc with
  | .returned _ => r.met
  | .exchange _ => r.met - 1

/-- The team is not so far ahead that its counter has come round to the one of the thread. -/
def Room (s : State ι) (t : ι) : Prop := s.executed.length < (s.thr t).past + 2 ^ 64

omit [DecidableEq ι] in
instance (s : State ι) (t : ι) : Decidable (Room s t) := inferInstanceAs (Decidable (_ < _))

structure ThreadOk (executed : List (ι × ℕ)) (t : ι) (r : Thread) : Prop where
  count : r.singleCount = ulong r.met
  past : r.past ≤ executed.length
  exchange : ∀ c, r.pc = .exchange c → 0 < r.met ∧ c = ulong (r.met - 1)
  own : ∀ j, (t,j) ∈ executed → j < r.past
  told : ∀ ret, r.pc = .returned ret → 0 < r.met → (ret = true ↔ (t,r.met - 1) ∈ executed)

structure Inv (s : State ι) : Prop where
  count : s.singleCount = ulong s.executed.length
  order : s.executed.map Prod.snd = List.range s.executed.length
  thr : ∀ t, ThreadOk s.executed t (s.thr t)

/-- The exchange succeeds for the construct that comes next. -/
theorem exchange_iff {c n : ℕ} (hle : c ≤ n) (hlt : n < c + 2 ^ 64) : ulong n = ulong c ↔ n = c := by
  unfold ulong
  omega

omit [DecidableEq ι] in
theorem ThreadOk.append {executed : List (ι × ℕ)} {t u : ι} {r : Thread} {j : ℕ} (h : ThreadOk executed u r)
    (hut : u ≠ t) : ThreadOk (executed ++ [(t,j)]) u r := by
  have hmem : ∀ k, (u,k) ∈ executed ++ [(t,j)] ↔ (u,k) ∈ executed := by simp [hut]
  refine ⟨h.count,?_,h.exchange,fun k hk => h.own k ((hmem k).mp hk),fun ret hret hmet => ?_⟩
  · rw [List.length_append]
    exact Nat.le_trans h.past (Nat.le_add_right ..)
  · rw [hmem]
    exact h.told ret hret hmet

theorem inv_step {s s' : State ι} {t : ι} (hi : Inv s) (hroom : Room s t) (h : step s t = some s') : Inv s' := by
  obtain ⟨hcount,horder,hthr⟩ := hi
  have ht := hthr t
  unfold step at h
  cases hpc : (s.thr t).pc with
  | returned ret =>
    rw [hpc] at h
    obtain rfl := Option.some.inj h
    refine ⟨hcount,horder,fun u => ?_⟩
    by_cases hut : u = t
    · subst hut
      have hpast : (s.thr u).past = (s.thr u).met := by simp [Thread.past, hpc]
      dsimp only
      rw [Function.update_self]
      refine ⟨?_,hpast ▸ ht.past,?_,fun j hj => hpast ▸ ht.own j hj,fun ret hret => by cases hret⟩
      · rw [ht.count]
        simp [ulong]
      · rintro c hc
        obtain rfl := Pc.exchange.inj hc
        exact ⟨Nat.succ_pos _,ht.count⟩
    · dsimp only
      rw [Function.update_of_ne hut]
      exact hthr u
  | exchange c =>
    rw [hpc] at h
    dsimp only at h
    obtain ⟨hmet,rfl⟩ := ht.exchange c hpc
    have hpast : (s.thr t).past = (s.thr t).met - 1 := by simp [Thread.past, hpc]
    have hle := ht.past
    unfold Room at hroom
    rw [hpast] at hroom hle
    have hnext := exchange_iff hle hroom
    rw [← hcount] at hnext
    split at h
    case isTrue hsame =>
      have hlen := hnext.mp hsame
      obtain rfl := Option.some.inj h
      refine ⟨?_,?_,fun u => ?_⟩
      · dsimp only
        rw [List.length_append, hlen, List.length_singleton]
        simp [ulong]
      · dsimp only
        rw [List.map_append, horder, List.length_append, List.length_singleton, List.range_succ, hlen]
        rfl
      by_cases hut : u = t
      · subst hut
        dsimp only
        rw [Function.update_self]
        refine ⟨ht.count,?_,fun c hc => (by cases hc),fun j hj => ?_,fun ret hret _ => ?_⟩
        · dsimp only [Thread.past]
          rw [List.length_append, List.length_singleton]
          omega
        · dsimp only [Thread.past]
          obtain hj | hj := List.mem_append.mp hj
          · have := ht.own j hj
            omega
          · obtain rfl := (Prod.mk.inj (List.mem_singleton.mp hj)).2
            omega
        · obtain rfl := Pc.returned.inj hret
          simp
      · dsimp only
        rw [Function.update_of_ne hut]
        exact (hthr u).append hut
    case isFalse hother =>
      obtain rfl := Option.some.inj h
      refine ⟨hcount,horder,fun u => ?_⟩
      by_cases hut : u = t
      · subst hut
        dsimp only
        rw [Function.update_self]
        have hlt : (s.thr u).met - 1 < s.executed.length := by
          have hne := mt hnext.mpr hother
          omega
        refine ⟨ht.count,?_,fun c hc => (by cases hc),fun j hj => ?_,fun ret hret _ => ?_⟩
        · dsimp only [Thread.past]
          omega
        · dsimp only [Thread.past]
          have := ht.own j hj
          omega
        · obtain rfl := Pc.returned.inj hret
          have hnot : (u,(s.thr u).met - 1) ∉ s.executed := by
            intro hmem
            have := ht.own _ hmem
            omega
          simp [hnot]
      · dsimp only
        rw [Function.update_of_ne hut]
        exact hthr u

/-- In every run the constructs are executed in their order, each by one thread and none left out: a thread
gets past a construct only when it has been given to some thread, and is told to execute it when this is
the thread itself. -/
theorem single_run {es : List ι} {s : State ι} (hroom : Along step Room (init ι) es)
    (h : run step (init ι) es = some s) :
    s.executed.map Prod.snd = List.range s.executed.length ∧ (∀ t, (s.thr t).past ≤ s.executed.length) ∧
      (∀ t u j, (t,j) ∈ s.executed → (u,j) ∈ s.executed → t = u) ∧
      ∀ t ret, (s.thr t).pc = .returned ret → 0 < (s.thr t).met →
        (ret = true ↔ (t,(s.thr t).met - 1) ∈ s.executed) := by
  have hinit : Inv (init ι) := by
    refine ⟨rfl,rfl,fun t => ⟨rfl,Nat.le_refl 0,fun c hc => ?_,fun j hj => ?_,fun ret _ hmet => ?_⟩⟩
    · cases hc
    · cases hj
    · cases hmet
  have hi : Inv s := run_invariant (fun _ _ _ => inv_step) hinit hroom h
  refine ⟨hi.order,fun t => (hi.thr t).past,fun t u j ht hu => ?_,fun t => (hi.thr t).told⟩
  have hnodup : (s.executed.map Prod.snd).Nodup := hi.order ▸ List.nodup_range
  exact (Prod.mk.inj (List.inj_on_of_nodup_map hnodup ht hu rfl)).1

/-- One thread executes the first construct and the other one the second. -/
def oneEach : List Bool := [false,true,false,true,true,true,false,false]

set_option maxRecDepth 4000 in
theorem single_run_oneEach : ∃ s, run step (init Bool) oneEach = some s ∧ s.executed = [(false,0),(true,1)] ∧
    s.executed.map Prod.snd = List.range s.executed.length ∧ (∀ t, (s.thr t).past ≤ s.executed.length) ∧
    (∀ t u j, (t,j) ∈ s.executed → (u,j) ∈ s.executed → t = u) ∧
    ∀ t ret, (s.thr t).pc = .returned ret → 0 < (s.thr t).met → (ret = true ↔ (t,(s.thr t).met - 1) ∈ s.executed) :=
  ⟨_,rfl,rfl,single_run (along_of_check (by decide)) (show run step (init Bool) oneEach = some _ from rfl)⟩

end GompUlt.SingleStart
