import GompUlt.Lib.Run
import GompUlt.Lib.Counting
import Mathlib

/-! # The thread limit of a contention group

`threads_busy` counts the threads of the contention group.  A nested region reserves its threads by
compare-and-swap before it starts and gives them back after its last barrier; the initial thread
stores the counter without atomicity, because it is alone whenever it is outside of all regions.
-/
namespace GompUlt.Parallel
open Run Counting

/-- An `unsigned` value. -/
def uint (n : ℕ) : ℕ := n % 2 ^ 32

/-- An `unsigned long` value. -/
def ulong (z : ℤ) : ℕ := (z % 2 ^ 64).toNat

/-- What a call of `gomp_resolve_num_threads` reads: its arguments, the control variables of the
task and the load of the machine. -/
structure Request where
  specified : ℕ
  count : ℕ
  nthreadsVar : ℕ
  dynVar : Bool
  nestVar : Bool
  maxActiveLevels : ℕ
  numProcs : ℕ
  loadavg : ℕ
deriving DecidableEq, Repr

namespace Request

def gompDynamicMaxThreads (q : Request) : ℕ :=
  let nOnln := if uint q.nthreadsVar < q.numProcs then uint q.nthreadsVar else q.numProcs
  if nOnln ≤ q.loadavg then 1 else nOnln - q.loadavg

/-- `threads_requested`, an `unsigned` variable that is assigned the `unsigned long` nthreads_var. -/
def threadsRequested (q : Request) : ℕ := if q.specified = 0 then uint q.nthreadsVar else q.specified

def maxNumThreads (q : Request) : ℕ :=
  if q.dynVar then
    let m := if q.gompDynamicMaxThreads < q.threadsRequested then q.gompDynamicMaxThreads else q.threadsRequested
    if q.count ≠ 0 ∧ q.count < m then q.count else m
  else q.threadsRequested

/-- The tests that make the region run on one thread. -/
def serialized (q : Request) (activeLevel : ℕ) : Bool :=
  q.specified = 1 || (1 ≤ activeLevel && !q.nestVar) || q.maxActiveLevels ≤ activeLevel

/-- The body of the compare-and-swap loop, with the counter it has read. -/
def numThreads (q : Request) (limit busy : ℕ) : ℕ :=
  if ulong (limit - busy + 1) < q.maxNumThreads then uint (ulong (limit - busy + 1)) else q.maxNumThreads

end Request

/-- Where a thread stands: in the program, before a load of the counter, before the swap, returned
from `gomp_resolve_num_threads`, and returned from `gomp_team_end` into `GOMP_parallel_end`. -/
inductive Pc where
  | program
  | reserving (q : Request)
  | swapping (q : Request) (busy numThreads : ℕ)
  | launching (q : Request) (numThreads : ℕ)
  | releasing (nthreads : ℕ)
deriving DecidableEq, Repr

/-- A thread outside of both routines. -/
def Pc.outside : Pc → Bool
  | .program | .launching .. => true
  | _ => false

/-- The region a worker belongs to, and the regions the thread is the master of, innermost first. -/
structure Thread where
  base : Option ℕ
  own : List ℕ
  pc : Pc
deriving DecidableEq, Repr

/-- `ts.team`. -/
def Thread.team (x : Thread) : Option ℕ := x.own.head?.or x.base

/-- A team; `workers` are the threads that have not reached its last barrier. -/
structure Region (τ : Type*) where
  nthreads : ℕ
  activeLevel : ℕ
  workers : List τ

structure State (τ : Type*) where
  threadsBusy : Option ℕ
  thread : τ → Thread
  region : ℕ → Region τ
  numRegions : ℕ

variable {τ : Type*} [DecidableEq τ]

/-- The initial thread before its first region: there is no pool yet. -/
def init (τ : Type*) : State τ where
  threadsBusy := none
  thread _ := ⟨none,[],.program⟩
  region _ := ⟨0,0,[]⟩
  numRegions := 0

namespace State

def setThread (s : State τ) (t : τ) (x : Thread) : State τ := { s with thread := Function.update s.thread t x }

def setPc (s : State τ) (t : τ) (p : Pc) : State τ := s.setThread t { s.thread t with pc := p }

/-- `ts.active_level`. -/
def activeLevel (s : State τ) (t : τ) : ℕ :=
  match (s.thread t).team with
  | none => 0
  | some r => (s.region r).activeLevel

/-- `gomp_resolve_num_threads` up to its return or to the loop. -/
def gompResolveNumThreads (s : State τ) (limit : ℕ) (t : τ) (q : Request) : State τ :=
  if q.serialized (s.activeLevel t) then s.setPc t (.launching q 1)
  else if q.maxNumThreads = 1 then s.setPc t (.launching q 1)
  else if (s.thread t).team = none ∨ s.threadsBusy = none then
    let numThreads := if limit < q.maxNumThreads then limit else q.maxNumThreads
    { s with threadsBusy := s.threadsBusy.map fun _ => numThreads }.setPc t (.launching q numThreads)
  else s.setPc t (.reserving q)

/-- `gomp_new_team` and `gomp_team_start`: the pool of the first region, the team and its workers. -/
def gompTeamStart (s : State τ) (t : τ) (nthreads : ℕ) (workers : List τ) : State τ where
  threadsBusy := if (s.thread t).team = none ∧ s.threadsBusy = none then some nthreads else s.threadsBusy
  thread u :=
    if u = t then ⟨(s.thread t).base,s.numRegions :: (s.thread t).own,.program⟩
    else if u ∈ workers then ⟨some s.numRegions,[],.program⟩
    else s.thread u
  region := Function.update s.region s.numRegions
    ⟨nthreads,if 1 < nthreads then s.activeLevel t + 1 else s.activeLevel t,workers⟩
  numRegions := s.numRegions + 1

/-- The end of `GOMP_parallel_end`, after `gomp_team_end` has restored `thr->ts`. -/
def release (s : State τ) (t : τ) (nthreads : ℕ) : State τ :=
  let busy :=
    if 1 < nthreads then
      if (s.thread t).team = none then s.threadsBusy.map fun _ => 1
      else s.threadsBusy.map fun (b : ℕ) => ulong (b + (1 - nthreads))
    else s.threadsBusy
  { s with threadsBusy := busy }.setPc t .program

end State

/-- Calls, and the accesses to the counter they are made of.  The workers of a new team are any
threads that are in no region. -/
inductive Event (τ : Type*) where
  | resolve (t : τ) (q : Request)
  | load (t : τ)
  | swap (t : τ)
  | start (t : τ) (workers : List τ)
  | arrive (t : τ)
  | teamEnd (t : τ)
  | release (t : τ)
deriving DecidableEq, Repr

variable (main : τ) (limit : ℕ)

def step (s : State τ) : Event τ → Option (State τ)
  | .resolve t q =>
    if (s.thread t).pc = .program ∧ (t = main ∨ (s.thread t).base ≠ none) then
      some (s.gompResolveNumThreads limit t q) else none
  | .load t =>
    match (s.thread t).pc, s.threadsBusy with
    | .reserving q, some busy => some (s.setPc t (.swapping q busy (q.numThreads limit busy)))
    | _, _ => none
  | .swap t =>
    match (s.thread t).pc with
    | .swapping q busy n =>
      if s.threadsBusy = some busy then
        some ({ s with threadsBusy := some (ulong (busy + n - 1)) }.setPc t (.launching q n))
      else some (s.setPc t (.reserving q))
    | _ => none
  | .start t workers =>
    match (s.thread t).pc with
    | .launching _ n =>
      if workers.length = n - 1 ∧ workers.Nodup ∧
          ∀ w ∈ workers, w ≠ t ∧ w ≠ main ∧ (s.thread w).base = none ∧ (s.thread w).pc = .program then
        some (s.gompTeamStart t n workers) else none
    | _ => none
  | .arrive t =>
    match s.thread t with
    | ⟨some b,[],.program⟩ =>
      some { s.setThread t ⟨none,[],.program⟩ with
        region := Function.update s.region b { s.region b with workers := (s.region b).workers.erase t } }
    | _ => none
  | .teamEnd t =>
    match s.thread t with
    | ⟨base,r :: own,.program⟩ =>
      if (s.region r).workers = [] then some (s.setThread t ⟨base,own,.releasing (s.region r).nthreads⟩) else none
    | _ => none
  | .release t =>
    match (s.thread t).pc with
    | .releasing n => some (s.release t n)
    | _ => none

/-- The threads a thread has reserved and not given back, besides the masters of the regions. -/
def Pc.pending : Pc → ℕ
  | .launching _ n | .releasing n => n - 1
  | _ => 0

/-- The sum of n - 1 over the regions the thread is the master of or about to start. -/
def State.reservedBy (s : State τ) (t : τ) : ℕ :=
  ((s.thread t).own.map fun r => (s.region r).nthreads - 1).sum + (s.thread t).pc.pending

def State.reserved [Fintype τ] (s : State τ) : ℕ := ∑ t, s.reservedBy t

/-- A size that was asked for or taken from nthreads_var does not become zero when it is stored in
an `unsigned` variable. -/
def Sized (s : State τ) : Event τ → Prop
  | .resolve t q => q.serialized (s.activeLevel t) = true ∨ q.specified ≠ 0 ∨ uint q.nthreadsVar ≠ 0
  | _ => True

instance (s : State τ) : (e : Event τ) → Decidable (Sized s e)
  | .resolve t q => inferInstanceAs (Decidable
      (q.serialized (s.activeLevel t) = true ∨ q.specified ≠ 0 ∨ uint q.nthreadsVar ≠ 0))
  | .load _ | .swap _ | .start .. | .arrive _ | .teamEnd _ | .release _ => inferInstanceAs (Decidable True)

/-- What the local variables of a call promise. -/
def Pc.Ok (limit : ℕ) : Pc → Prop
  | .program | .releasing _ => True
  | .reserving q => 1 ≤ q.maxNumThreads
  | .swapping q busy n => 1 ≤ q.maxNumThreads ∧ n = q.numThreads limit busy
  | .launching q n => 1 ≤ n ∧ n ≤ limit ∧ (q.specified ≠ 0 → n ≤ q.specified)

/-- The regions form a tree whose root is a region of the initial thread, and the counter is one
more than what is reserved. -/
structure Inv [Fintype τ] (s : State τ) : Prop where
  base : ∀ t b, (s.thread t).base = some b → t ≠ main ∧ t ∈ (s.region b).workers ∧
    (∃ u, b ∈ (s.thread u).own) ∧ ∀ r ∈ (s.thread t).own, b < r
  idle : ∀ t, t ≠ main → (s.thread t).base = none → (s.thread t).own = [] ∧ (s.thread t).pc = .program
  own_lt : ∀ t, ∀ r ∈ (s.thread t).own, r < s.numRegions
  pcs : ∀ t, (s.thread t).pc.Ok limit
  counter : ∀ b, s.threadsBusy = some b → b = 1 + s.reserved ∧ b ≤ limit
  noPool : s.threadsBusy = none → ∀ t, (s.thread t).own = [] ∧
    ((s.thread t).pc = .program ∨ ∃ q n, (s.thread t).pc = .launching q n)

section Arithmetic
variable {q : Request} {limit busy : ℕ}

theorem Request.gompDynamicMaxThreads_pos (q : Request) : 1 ≤ q.gompDynamicMaxThreads := by
  unfold gompDynamicMaxThreads
  dsimp only
  split_ifs <;> omega

theorem Request.maxNumThreads_le (q : Request) : q.maxNumThreads ≤ q.threadsRequested := by
  unfold maxNumThreads
  dsimp only
  split_ifs <;> omega

theorem Request.maxNumThreads_pos (h : q.specified ≠ 0 ∨ uint q.nthreadsVar ≠ 0) : 1 ≤ q.maxNumThreads := by
  have hr : 1 ≤ q.threadsRequested := by
    unfold threadsRequested
    split
    · omega
    · omega
  have hd := q.gompDynamicMaxThreads_pos
  unfold maxNumThreads
  dsimp only
  split_ifs <;> omega

theorem Request.maxNumThreads_le_specified (h : q.specified ≠ 0) : q.maxNumThreads ≤ q.specified := by
  have hle := q.maxNumThreads_le
  rwa [threadsRequested,if_neg h] at hle

/-- What the loop takes from a counter within the limit leaves it within the limit. -/
theorem Request.numThreads_spec (hu : limit < 2 ^ 32) (hb : 1 ≤ busy) (hl : busy ≤ limit) (hm : 1 ≤ q.maxNumThreads) :
    1 ≤ q.numThreads limit busy ∧ q.numThreads limit busy ≤ q.maxNumThreads ∧
      busy + q.numThreads limit busy ≤ limit + 1 := by
  have hval : ulong (limit - busy + 1) = limit - busy + 1 := by
    unfold ulong
    omega
  unfold numThreads
  rw [hval,uint,Nat.mod_eq_of_lt (by omega)]
  split <;> omega

end Arithmetic

namespace Inv
variable [Fintype τ] {main limit} {s : State τ} {t : τ} (h : Inv main limit s)
include h

/-- Every region lies below one of the initial thread. -/
theorem main_own {r : ℕ} (hr : r ∈ (s.thread t).own) : (s.thread main).own ≠ [] := by
  induction r using Nat.strongRecOn generalizing t with
  | ind r ih =>
    by_cases ht : t = main
    · subst ht
      exact List.ne_nil_of_mem hr
    · cases hb : (s.thread t).base with
      | none =>
        rw [(h.idle t ht hb).1] at hr
        exact absurd hr (by simp)
      | some b =>
        obtain ⟨_,_,⟨u,hu⟩,hlt⟩ := h.base t b hb
        exact ih b (hlt r hr) hu

/-- Outside of its regions the initial thread is alone. -/
theorem alone (ho : (s.thread main).own = []) {u : τ} (hu : u ≠ main) :
    (s.thread u).base = none ∧ (s.thread u).own = [] ∧ (s.thread u).pc = .program := by
  have hb : (s.thread u).base = none := by
    cases hb : (s.thread u).base with
    | none => rfl
    | some b =>
      obtain ⟨_,_,⟨v,hv⟩,_⟩ := h.base u b hb
      exact absurd ho (h.main_own hv)
  exact ⟨hb,h.idle u hu hb⟩

theorem reserved_alone (ho : (s.thread main).own = []) : s.reserved = (s.thread main).pc.pending := by
  have hsum := sum_change (f := s.reservedBy) (g := fun _ => 0) main fun u hu => by
    obtain ⟨_,hown,hpc⟩ := h.alone ho hu
    simp [State.reservedBy, hown, hpc, Pc.pending]
  have hmain : s.reservedBy main = (s.thread main).pc.pending := by simp [State.reservedBy, ho]
  rw [← hmain]
  simpa [State.reserved] using hsum

/-- A change of one thread's place in its call, with the counter. -/
theorem setPc {w : Option ℕ} {p : Pc} (hact : t = main ∨ (s.thread t).base ≠ none) (hp : p.Ok limit)
    (hc : ∀ n, w = some n → n + (s.thread t).pc.pending = 1 + s.reserved + p.pending ∧ n ≤ limit)
    (hn : w = none → s.threadsBusy = none ∧ (p = .program ∨ ∃ q n, p = .launching q n)) :
    Inv main limit ({ s with threadsBusy := w }.setPc t p) := by
  have hown : ∀ u, (({ s with threadsBusy := w } : State τ).setPc t p).thread u =
      if u = t then { s.thread t with pc := p } else s.thread u := by
    intro u
    simp only [State.setPc, State.setThread, Function.update_apply]
  have hsum := sum_change (f := (({ s with threadsBusy := w } : State τ).setPc t p).reservedBy) (g := s.reservedBy) t
    fun u hu => by simp [State.reservedBy, hu, State.setPc, State.setThread]
  constructor
  case base =>
    intro u b hb
    have hfields : (s.thread u).base = some b := by
      rw [hown] at hb
      split at hb
      · next e => exact e ▸ hb
      · exact hb
    obtain ⟨hne,hw,⟨v,hv⟩,hlt⟩ := h.base u b hfields
    refine ⟨hne,hw,⟨v,?_⟩,?_⟩
    · rw [hown]
      split
      · next e => exact e ▸ hv
      · exact hv
    · rw [hown]
      split
      · next e => exact e ▸ hlt
      · exact hlt
  case idle =>
    intro u hne hb
    rw [hown] at hb ⊢
    split at hb
    · next e =>
      subst e
      exact absurd hb (hact.resolve_left hne)
    · next e =>
      rw [if_neg e]
      exact h.idle u hne hb
  case own_lt =>
    intro u r hr
    rw [hown] at hr
    split at hr
    · exact h.own_lt t r hr
    · exact h.own_lt u r hr
  case pcs =>
    intro u
    rw [hown]
    split
    · exact hp
    · exact h.pcs u
  case counter =>
    intro b hb
    obtain ⟨hval,hle⟩ := hc b hb
    refine ⟨?_,hle⟩
    have hnew : (({ s with threadsBusy := w } : State τ).setPc t p).reservedBy t + (s.thread t).pc.pending =
        s.reservedBy t + p.pending := by
      rw [State.reservedBy,hown,if_pos rfl,State.reservedBy]
      dsimp only [State.setPc, State.setThread]
      omega
    simp only [State.reserved] at hval ⊢
    omega
  case noPool =>
    intro hb u
    obtain ⟨hb,hp⟩ := hn hb
    rw [hown]
    split
    · exact ⟨(h.noPool hb t).1,hp⟩
    · exact h.noPool hb u

/-- The thread of a call in progress belongs to a region or is the initial one. -/
theorem active (hpc : (s.thread t).pc ≠ .program) : t = main ∨ (s.thread t).base ≠ none := by
  by_contra hno
  rw [not_or,not_not] at hno
  exact hpc (h.idle t hno.1 hno.2).2

/-- A return that reserves nothing. -/
theorem resolve_one {q : Request} (hl : 1 ≤ limit) (hpc : (s.thread t).pc = .program)
    (hact : t = main ∨ (s.thread t).base ≠ none) (hq : q.specified ≠ 0 → 1 ≤ q.specified) :
    Inv main limit (s.setPc t (.launching q 1)) := by
  refine h.setPc (w := s.threadsBusy) hact ⟨le_rfl,hl,hq⟩ ?_ fun hn => ⟨hn,.inr ⟨q,1,rfl⟩⟩
  intro b hb
  obtain ⟨hval,hle⟩ := h.counter b hb
  rw [hpc]
  exact ⟨by simp only [Pc.pending]; omega,hle⟩

theorem resolve {q : Request} (hl : 1 ≤ limit) (hpc : (s.thread t).pc = .program)
    (hact : t = main ∨ (s.thread t).base ≠ none) (hq : Sized s (.resolve t q)) :
    Inv main limit (s.gompResolveNumThreads limit t q) := by
  unfold State.gompResolveNumThreads
  generalize hn : (if limit < q.maxNumThreads then limit else q.maxNumThreads) = n
  split_ifs with hser hone hteam
  · exact h.resolve_one hl hpc hact (by omega)
  · exact h.resolve_one hl hpc hact (by omega)
  · -- without a team, or without a pool, the initial thread is alone
    have hmax : 1 ≤ q.maxNumThreads := Request.maxNumThreads_pos (hq.resolve_left hser)
    have hown : (s.thread main).own = [] := by
      rcases hteam with hteam | hpool
      · simp only [Thread.team, Option.or_eq_none_iff, List.head?_eq_none_iff] at hteam
        rw [hact.resolve_right fun hb => hb hteam.2] at hteam
        exact hteam.1
      · exact (h.noPool hpool main).1
    have ht : t = main := by
      by_contra hne
      exact hact.resolve_left hne (h.alone hown hne).1
    subst ht
    have hnl : n ≤ limit ∧ 1 ≤ n ∧ n ≤ q.maxNumThreads := by
      rw [← hn]
      split <;> omega
    refine h.setPc hact ⟨hnl.2.1,hnl.1,fun hs => hnl.2.2.trans (Request.maxNumThreads_le_specified hs)⟩ ?_ ?_
    · intro b hb
      obtain ⟨_,_,rfl⟩ := Option.map_eq_some_iff.mp hb
      rw [h.reserved_alone hown,hpc]
      simp only [Pc.pending]
      omega
    · intro hb
      exact ⟨Option.map_eq_none_iff.mp hb,.inr ⟨q,n,rfl⟩⟩
  · have hmax : 1 ≤ q.maxNumThreads := Request.maxNumThreads_pos (hq.resolve_left hser)
    rw [not_or] at hteam
    refine h.setPc (w := s.threadsBusy) hact hmax ?_ fun hn => absurd hn hteam.2
    intro b hb
    obtain ⟨hval,hle⟩ := h.counter b hb
    rw [hpc]
    exact ⟨by simp only [Pc.pending]; omega,hle⟩

theorem load {q : Request} {busy : ℕ} (hpc : (s.thread t).pc = .reserving q) (hb : s.threadsBusy = some busy) :
    Inv main limit (s.setPc t (.swapping q busy (q.numThreads limit busy))) := by
  have hok := h.pcs t
  rw [hpc] at hok
  refine h.setPc (w := s.threadsBusy) (h.active (by simp [hpc])) ⟨hok,rfl⟩ ?_ (by simp [hb])
  intro b hb
  obtain ⟨hval,hle⟩ := h.counter b hb
  rw [hpc]
  exact ⟨by simp only [Pc.pending]; omega,hle⟩

theorem swap {q : Request} {busy n : ℕ} (hu : limit < 2 ^ 32) (hpc : (s.thread t).pc = .swapping q busy n)
    (hb : s.threadsBusy = some busy) :
    Inv main limit ({ s with threadsBusy := some (ulong (busy + n - 1)) }.setPc t (.launching q n)) := by
  have hok := h.pcs t
  rw [hpc] at hok
  obtain ⟨hmax,rfl⟩ := hok
  obtain ⟨hval,hle⟩ := h.counter busy hb
  obtain ⟨hone,hmaxle,hlim⟩ := Request.numThreads_spec hu (by omega) hle hmax
  generalize q.numThreads limit busy = n at hone hmaxle hlim ⊢
  refine h.setPc (h.active (by simp [hpc])) ⟨hone,by omega,?_⟩ ?_ (by simp)
  · exact fun hs => hmaxle.trans (Request.maxNumThreads_le_specified hs)
  · intro b hb'
    rw [← Option.some.inj hb',hpc]
    simp only [Pc.pending, ulong]
    omega

/-- The counter was changed by another thread. -/
theorem retry {q : Request} {busy n : ℕ} (hpc : (s.thread t).pc = .swapping q busy n) :
    Inv main limit (s.setPc t (.reserving q)) := by
  have hok := h.pcs t
  rw [hpc] at hok
  refine h.setPc (w := s.threadsBusy) (h.active (by simp [hpc])) hok.1 ?_ ?_
  · intro b hb
    obtain ⟨hval,hle⟩ := h.counter b hb
    rw [hpc]
    exact ⟨by simp only [Pc.pending]; omega,hle⟩
  · intro hn
    obtain ⟨_,hp⟩ := h.noPool hn t
    simp [hpc] at hp

theorem release {n : ℕ} (hu : limit < 2 ^ 32) (hpc : (s.thread t).pc = .releasing n) :
    Inv main limit (s.release t n) := by
  have hact := h.active (t := t) (by simp [hpc])
  have hpool : s.threadsBusy ≠ none := by
    intro hn
    obtain ⟨_,hp⟩ := h.noPool hn t
    simp [hpc] at hp
  obtain ⟨busy,hb⟩ := Option.ne_none_iff_exists'.mp hpool
  obtain ⟨hval,hle⟩ := h.counter busy hb
  have hres : n - 1 ≤ s.reserved := by
    have hmem : s.reservedBy t ≤ s.reserved := Finset.single_le_sum (f := s.reservedBy) (by simp) (Finset.mem_univ t)
    have hpend : s.reservedBy t = ((s.thread t).own.map fun r => (s.region r).nthreads - 1).sum + (n - 1) := by
      rw [State.reservedBy,hpc]
      rfl
    omega
  unfold State.release
  refine h.setPc hact trivial ?_ ?_
  · intro b hb'
    rw [hb] at hb'
    rw [hpc]
    split_ifs at hb' with hn hteam
    · -- only the initial thread leaves its last region
      simp only [Thread.team, Option.or_eq_none_iff, List.head?_eq_none_iff] at hteam
      have ht : t = main := hact.resolve_right fun hb => hb hteam.2
      subst ht
      have halone := h.reserved_alone hteam.1
      rw [hpc] at halone
      cases hb'
      simp only [Pc.pending] at halone ⊢
      omega
    · have hb' : ulong (busy + (1 - n)) = b := by simpa using hb'
      rw [← hb']
      simp only [Pc.pending, ulong]
      omega
    · cases hb'
      simp only [Pc.pending]
      omega
  · intro hb'
    rw [hb] at hb'
    split_ifs at hb' <;> simp at hb'

omit [Fintype τ] h in
theorem gompTeamStart_thread (n : ℕ) (workers : List τ) (u : τ) : (s.gompTeamStart t n workers).thread u =
    if u = t then ⟨(s.thread t).base,s.numRegions :: (s.thread t).own,.program⟩
    else if u ∈ workers then ⟨some s.numRegions,[],.program⟩ else s.thread u := rfl

/-- The threads keep their regions; a worker had none. -/
theorem start_own {n : ℕ} {workers : List τ} (hw : ∀ w ∈ workers, w ≠ main ∧ (s.thread w).base = none) (u : τ) {r : ℕ}
    (hr : r ∈ (s.thread u).own) : r ∈ ((s.gompTeamStart t n workers).thread u).own := by
  rw [gompTeamStart_thread]
  split
  · next e => exact List.mem_cons_of_mem _ (e ▸ hr)
  · split
    · next hmem =>
      obtain ⟨hne,hb⟩ := hw u hmem
      rw [(h.idle u hne hb).1] at hr
      exact absurd hr (by simp)
    · exact hr

/-- What was pending is what the region has reserved. -/
theorem start_reserved {q : Request} {n : ℕ} {workers : List τ} (hpc : (s.thread t).pc = .launching q n)
    (hw : ∀ w ∈ workers, w ≠ main ∧ (s.thread w).base = none ∧ (s.thread w).pc = .program) :
    (s.gompTeamStart t n workers).reserved = s.reserved := by
  have hmap : ∀ v, ((s.thread v).own.map fun r => ((s.gompTeamStart t n workers).region r).nthreads - 1) =
      (s.thread v).own.map fun r => (s.region r).nthreads - 1 := fun v =>
    List.map_congr_left fun r hr => by
      have hold : (s.gompTeamStart t n workers).region r = s.region r := Function.update_of_ne (h.own_lt v r hr).ne _ _
      rw [hold]
  refine Finset.sum_congr rfl fun u _ => ?_
  rw [State.reservedBy,State.reservedBy,gompTeamStart_thread]
  split
  · next e =>
    subst e
    have hnew : ((s.gompTeamStart u n workers).region s.numRegions).nthreads = n := by simp [State.gompTeamStart]
    rw [List.map_cons,List.sum_cons,hmap,hnew,hpc]
    simp only [Pc.pending]
    omega
  · split
    · next hmem =>
      obtain ⟨hne,hb,hpw⟩ := hw u hmem
      simp [(h.idle u hne hb).1, hpw]
    · rw [hmap]

theorem start {q : Request} {n : ℕ} {workers : List τ} (hpc : (s.thread t).pc = .launching q n)
    (hw : ∀ w ∈ workers, w ≠ t ∧ w ≠ main ∧ (s.thread w).base = none ∧ (s.thread w).pc = .program) :
    Inv main limit (s.gompTeamStart t n workers) := by
  have hok := h.pcs t
  rw [hpc] at hok
  have hact := h.active (t := t) (by simp [hpc])
  have hth := gompTeamStart_thread (s := s) (t := t) n workers
  have hold : ∀ r, r < s.numRegions → (s.gompTeamStart t n workers).region r = s.region r := fun r hr =>
    Function.update_of_ne hr.ne _ _
  have hown : ∀ u, ∀ r ∈ (s.thread u).own, r ∈ ((s.gompTeamStart t n workers).thread u).own := fun u r =>
    h.start_own (fun w hm => ⟨(hw w hm).2.1,(hw w hm).2.2.1⟩) u
  have hsum := h.start_reserved hpc fun w hm => (hw w hm).2
  constructor
  case base =>
    intro u b hb
    rw [hth] at hb
    split at hb
    · next e =>
      subst e
      obtain ⟨hne,hmem,⟨v,hv⟩,hlt⟩ := h.base u b hb
      have hbr := h.own_lt v b hv
      refine ⟨hne,by rwa [hold b hbr],⟨v,hown v b hv⟩,?_⟩
      intro r hr
      rw [hth,if_pos rfl] at hr
      rcases List.mem_cons.mp hr with rfl | hr
      · exact hbr
      · exact hlt r hr
    · next hut =>
      split at hb
      · next hmem =>
        cases hb
        refine ⟨(hw u hmem).2.1,by simpa [State.gompTeamStart] using hmem,⟨t,by simp [hth]⟩,?_⟩
        simp [hth, hut, hmem]
      · next hmem =>
        obtain ⟨hne,hmem',⟨v,hv⟩,hlt⟩ := h.base u b hb
        refine ⟨hne,by rwa [hold b (h.own_lt v b hv)],⟨v,hown v b hv⟩,?_⟩
        rwa [hth,if_neg hut,if_neg hmem]
  case idle =>
    intro u hne hb
    rw [hth] at hb ⊢
    split at hb
    · next e =>
      subst e
      exact absurd hb (hact.resolve_left hne)
    · next hut =>
      split at hb
      · cases hb
      · next hmem =>
        rw [if_neg hut,if_neg hmem]
        exact h.idle u hne hb
  case own_lt =>
    intro u r hr
    change r < s.numRegions + 1
    rw [hth] at hr
    split at hr
    · rcases List.mem_cons.mp hr with rfl | hr
      · omega
      · have := h.own_lt t r hr
        omega
    · split at hr
      · exact absurd hr (by simp)
      · have := h.own_lt u r hr
        omega
  case pcs =>
    intro u
    rw [hth]
    split_ifs
    · trivial
    · trivial
    · exact h.pcs u
  case counter =>
    intro b hb
    rw [hsum]
    change (if (s.thread t).team = none ∧ s.threadsBusy = none then some n else s.threadsBusy) = some b at hb
    split at hb
    · next hnew =>
      -- the first region creates the pool
      have halone := h.reserved_alone (h.noPool hnew.2 main).1
      have ht : t = main := by
        by_contra hne
        exact hact.resolve_left hne (h.alone (h.noPool hnew.2 main).1 hne).1
      rw [← ht,hpc] at halone
      cases hb
      rw [halone]
      refine ⟨?_,hok.2.1⟩
      have := hok.1
      simp only [Pc.pending]
      omega
    · exact h.counter b hb
  case noPool =>
    intro hb
    change (if (s.thread t).team = none ∧ s.threadsBusy = none then some n else s.threadsBusy) = none at hb
    split at hb
    · cases hb
    · next hteam =>
      have hnil := (h.noPool hb t).1
      have hbase : (s.thread t).base = none := by
        by_contra hne
        obtain ⟨b,hb'⟩ := Option.ne_none_iff_exists'.mp hne
        obtain ⟨_,_,⟨v,hv⟩,_⟩ := h.base t b hb'
        rw [(h.noPool hb v).1] at hv
        exact absurd hv (by simp)
      exact absurd ⟨by simp [Thread.team, hnil, hbase],hb⟩ hteam

theorem arrive {b : ℕ} (hx : s.thread t = ⟨some b,[],.program⟩) :
    Inv main limit { s.setThread t ⟨none,[],.program⟩ with
      region := Function.update s.region b { s.region b with workers := (s.region b).workers.erase t } } := by
  generalize hs' : ({ s.setThread t ⟨none,[],.program⟩ with
      region := Function.update s.region b { s.region b with workers := (s.region b).workers.erase t } } : State τ) = s'
  have hth : ∀ u, s'.thread u = if u = t then ⟨none,[],.program⟩ else s.thread u := by
    intro u
    simp only [← hs', State.setThread, Function.update_apply]
  have hown : ∀ u, (s'.thread u).own = (s.thread u).own := by
    intro u
    rw [hth]
    split
    · next e => simp [e, hx]
    · rfl
  have hpcs : ∀ u, (s'.thread u).pc = (s.thread u).pc := by
    intro u
    rw [hth]
    split
    · next e => simp [e, hx]
    · rfl
  have hsize : ∀ r, (s'.region r).nthreads = (s.region r).nthreads := by
    intro r
    simp only [← hs', Function.update_apply]
    split
    · next e => rw [e]
    · rfl
  have hbusy : s'.threadsBusy = s.threadsBusy := by rw [← hs']; rfl
  have hres : s'.reserved = s.reserved :=
    Finset.sum_congr rfl fun u _ => by simp only [State.reservedBy, hown, hpcs, hsize]
  have htm : t ≠ main := (h.base t b (by rw [hx])).1
  constructor
  case base =>
    intro u c hc
    have hut : u ≠ t := by
      rintro rfl
      rw [hth,if_pos rfl] at hc
      cases hc
    rw [hth,if_neg hut] at hc
    obtain ⟨hne,hmem,⟨v,hv⟩,hlt⟩ := h.base u c hc
    refine ⟨hne,?_,⟨v,by rwa [hown]⟩,by rwa [hown]⟩
    simp only [← hs', Function.update_apply]
    split
    · next e =>
      subst e
      exact (List.mem_erase_of_ne hut).mpr hmem
    · exact hmem
  case idle =>
    intro u hne hb
    rw [hown,hpcs]
    by_cases hut : u = t
    · simp [hut, hx]
    · rw [hth,if_neg hut] at hb
      exact h.idle u hne hb
  case own_lt =>
    intro u r hr
    rw [hown] at hr
    rw [← hs']
    exact h.own_lt u r hr
  case pcs =>
    intro u
    rw [hpcs]
    exact h.pcs u
  case counter =>
    rw [hres,hbusy]
    exact h.counter
  case noPool =>
    intro hb u
    rw [hown,hpcs]
    exact h.noPool (hbusy ▸ hb) u

theorem teamEnd {base : Option ℕ} {r : ℕ} {own : List ℕ} (hx : s.thread t = ⟨base,r :: own,.program⟩)
    (hw : (s.region r).workers = []) :
    Inv main limit (s.setThread t ⟨base,own,.releasing (s.region r).nthreads⟩) := by
  generalize hs' : s.setThread t ⟨base,own,.releasing (s.region r).nthreads⟩ = s'
  have hth : ∀ u, s'.thread u = if u = t then ⟨base,own,.releasing (s.region r).nthreads⟩ else s.thread u := by
    intro u
    simp only [← hs', State.setThread, Function.update_apply]
  have hbase : ∀ u, (s'.thread u).base = (s.thread u).base := by
    intro u
    rw [hth]
    split
    · next e => simp [e, hx]
    · rfl
  have hsub : ∀ u c, c ∈ (s'.thread u).own → c ∈ (s.thread u).own := by
    intro u c hc
    rw [hth] at hc
    split at hc
    · next e =>
      rw [e,hx]
      exact List.mem_cons_of_mem _ hc
    · exact hc
  -- no thread is left in the region that ends
  have hkeep : ∀ u c, c ≠ r → c ∈ (s.thread u).own → c ∈ (s'.thread u).own := by
    intro u c hc hmem
    rw [hth]
    split
    · next e =>
      rw [e,hx] at hmem
      exact (List.mem_cons.mp hmem).resolve_left hc
    · exact hmem
  have hreg : s'.region = s.region := by rw [← hs']; rfl
  have hbusy : s'.threadsBusy = s.threadsBusy := by rw [← hs']; rfl
  have hres : s'.reserved = s.reserved := by
    refine Finset.sum_congr rfl fun u _ => ?_
    rw [State.reservedBy,State.reservedBy,hth,hreg]
    split
    · next e =>
      simp only [e, hx, Pc.pending, List.map_cons, List.sum_cons]
      omega
    · rfl
  have hpool : s.threadsBusy ≠ none := by
    intro hn
    have hnil := (h.noPool hn t).1
    rw [hx] at hnil
    cases hnil
  have hact : t = main ∨ (s.thread t).base ≠ none := by
    by_contra hno
    rw [not_or,not_not] at hno
    have hnil := (h.idle t hno.1 hno.2).1
    rw [hx] at hnil
    cases hnil
  constructor
  case base =>
    intro u c hc
    rw [hbase] at hc
    obtain ⟨hne,hmem,⟨v,hv⟩,hlt⟩ := h.base u c hc
    have hcr : c ≠ r := by
      rintro rfl
      rw [hw] at hmem
      exact absurd hmem (by simp)
    exact ⟨hne,by rwa [hreg],⟨v,hkeep v c hcr hv⟩,fun d hd => hlt d (hsub u d hd)⟩
  case idle =>
    intro u hne hb
    rw [hbase] at hb
    have hut : u ≠ t := by
      rintro rfl
      exact hact.resolve_left hne hb
    rw [hth,if_neg hut]
    exact h.idle u hne hb
  case own_lt =>
    intro u c hc
    rw [← hs']
    exact h.own_lt u c (hsub u c hc)
  case pcs =>
    intro u
    rw [hth]
    split
    · trivial
    · exact h.pcs u
  case counter =>
    rw [hres,hbusy]
    exact h.counter
  case noPool =>
    intro hb
    exact absurd (hbusy ▸ hb) hpool

end Inv

section Runs
variable [Fintype τ]

omit [DecidableEq τ] in
theorem init_inv : Inv main limit (init τ) := by
  constructor
  case base =>
    intro t b hb
    cases hb
  case idle => exact fun _ _ _ => ⟨rfl,rfl⟩
  case own_lt => exact fun t r hr => absurd hr List.not_mem_nil
  case pcs => exact fun _ => trivial
  case counter =>
    intro b hb
    cases hb
  case noPool => exact fun _ _ => ⟨rfl,.inl rfl⟩

variable {main limit}

theorem step_inv {s s' : State τ} {e : Event τ} (hl : 1 ≤ limit) (hu : limit < 2 ^ 32) (h : Inv main limit s)
    (hc : Sized s e) (hs : step main limit s e = some s') : Inv main limit s' := by
  cases e with
  | resolve t q =>
    simp only [step, Option.ite_none_right_eq_some] at hs
    obtain ⟨⟨hpc,hact⟩,hs⟩ := hs
    cases hs
    exact h.resolve hl hpc hact hc
  | load t =>
    simp only [step] at hs
    split at hs
    · next hpc hb =>
      cases hs
      exact h.load hpc hb
    · cases hs
  | swap t =>
    simp only [step] at hs
    split at hs
    · next hpc =>
      split at hs
      · next hb =>
        cases hs
        exact h.swap hu hpc hb
      · cases hs
        exact h.retry hpc
    · cases hs
  | start t workers =>
    simp only [step] at hs
    split at hs
    · next hpc =>
      simp only [Option.ite_none_right_eq_some] at hs
      obtain ⟨⟨_,_,hw⟩,hs⟩ := hs
      cases hs
      exact h.start hpc hw
    · cases hs
  | arrive t =>
    simp only [step] at hs
    split at hs
    · next hx =>
      cases hs
      exact h.arrive hx
    · cases hs
  | teamEnd t =>
    simp only [step] at hs
    split at hs
    · next hx =>
      simp only [Option.ite_none_right_eq_some] at hs
      obtain ⟨hw,hs⟩ := hs
      cases hs
      exact h.teamEnd hx hw
    · cases hs
  | release t =>
    simp only [step] at hs
    split at hs
    · next hpc =>
      cases hs
      exact h.release hu hpc
    · cases hs

/-- What the accounting promises: outside of the two routines the counter is exact, it stays
between one and the limit, and a returned size is positive and not more than was asked for. -/
structure Accounted (limit : ℕ) (s : State τ) : Prop where
  exact : (∀ t, (s.thread t).pc.outside = true) → ∀ b, s.threadsBusy = some b → b = 1 + s.reserved
  within : ∀ b, s.threadsBusy = some b → 1 ≤ b ∧ b ≤ limit
  sizes : ∀ t q n, (s.thread t).pc = .launching q n → 1 ≤ n ∧ (q.specified ≠ 0 → n ≤ q.specified)

variable (main) in
/-- The counter of the contention group in every run in which no default size is a multiple of
2^32. -/
theorem thread_limit_accounting (hl : 1 ≤ limit) (hu : limit < 2 ^ 32 - 1) (es : List (Event τ)) {s : State τ}
    (hc : Along (step main limit) Sized (init τ) es) (hr : run (step main limit) (init τ) es = some s) :
    Accounted limit s := by
  have h : Inv main limit s :=
    run_invariant (fun s e s' hi hc hs => step_inv hl (by omega) hi hc hs) (init_inv main limit) hc hr
  constructor
  case exact => exact fun _ b hb => (h.counter b hb).1
  case within =>
    intro b hb
    obtain ⟨hval,hle⟩ := h.counter b hb
    exact ⟨by omega,hle⟩
  case sizes =>
    intro t q n hpc
    have hok := h.pcs t
    rw [hpc] at hok
    exact ⟨hok.1,hok.2.2⟩

end Runs

/-- A request for the given number of threads. -/
def askFor (specified nthreadsVar : ℕ) : Request := ⟨specified,0,nthreadsVar,false,true,9,4,0⟩

/-- A region of two threads whose worker asks for four and gets the two that are left. -/
def nestedRegion (a b c : Fin 3) : List (Event (Fin 3)) :=
  [.resolve a (askFor 2 4),.start a [b],.resolve b (askFor 4 4),.load b,.swap b,.start b [c],.arrive c,.teamEnd b,
    .release b,.arrive b,.teamEnd a]

theorem thread_limit_nestedRegion : ∃ s, run (step 0 3) (init (Fin 3)) (nestedRegion 0 1 2) = some s ∧ Accounted 3 s :=
  ⟨_,rfl,thread_limit_accounting 0 (by decide) (by decide) (nestedRegion 0 1 2) (along_of_check (by decide)) rfl⟩

/-- OMP_NUM_THREADS=4294967296 is accepted and asks for no thread at all. -/
theorem thread_limit_truncatedDefault : ∃ s, run (step () 3) (init Unit) [.resolve () (askFor 0 (2 ^ 32))] = some s ∧
    ¬ Accounted 3 s := by
  refine ⟨_,rfl,fun h => ?_⟩
  have hsize := (h.sizes () (askFor 0 (2 ^ 32)) 0 (by decide)).1
  omega

end GompUlt.Parallel
