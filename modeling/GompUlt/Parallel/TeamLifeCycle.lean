import GompUlt.Lib.Run
import Mathlib.Data.Nat.Basic

/-! # The task states of a team from one region to the next

The master of a sequence of parallel regions keeps its worker threads in a pool and the last team
for reuse.  A task state pool lives in its team.  A new worker sets up its state and its list
itself, a worker that waits in the dock is only given a new implicit task, and the master sets up
what it does not have yet.
-/
namespace GompUlt.TeamLifeCycle
open Run

/-- `struct gomp_team`: which implicit tasks have a state, and which lists of the pool of states
are initialized. -/
structure Team where
  nthreads : ℕ
  freed : Bool
  hasState : ℕ → Bool
  threadList : ℕ → Bool

/-- `global_task_state_group` and `local_task_state_list` of a thread: the team of the pool, and
the list in it. -/
structure Thread where
  group : Option ℕ
  list : Option (ℕ × ℕ)
deriving DecidableEq, Repr

/-- The master, its pool of threads and the teams.  `current` is the team of the region whose body
is running. -/
structure State where
  team : ℕ → Team
  numTeams : ℕ
  master : Thread
  worker : ℕ → Thread
  threadsUsed : ℕ
  lastTeam : Option ℕ
  current : Option ℕ

/-- The initial thread before its first region. -/
def init : State where
  team _ := ⟨0,false,fun _ => false,fun _ => false⟩
  numTeams := 0
  master := ⟨none,none⟩
  worker _ := ⟨none,none⟩
  threadsUsed := 0
  lastTeam := none
  current := none

namespace State

def setTeam (s : State) (t : ℕ) (x : Team) : State := { s with team := Function.update s.team t x }

def getLastTeam (s : State) (nthreads : ℕ) : Option ℕ := s.lastTeam.filter fun t => (s.team t).nthreads = nthreads

/-- The team that `gomp_new_team` returns. -/
def newTeamId (s : State) (nthreads : ℕ) : ℕ := (s.getLastTeam nthreads).getD s.numTeams

def gompNewTeam (s : State) (nthreads : ℕ) : State :=
  match s.getLastTeam nthreads with
  | some _ => { s with lastTeam := none }
  | none =>
    { s with numTeams := s.numTeams + 1 }.setTeam s.numTeams ⟨nthreads,false,fun _ => false,fun _ => false⟩

/-- `gomp_team_start`.  `old i` is the pooled worker that takes place `i`; a place without one gets
a new thread, which runs the beginning of `gomp_thread_start`. -/
def gompTeamStart (s : State) (t nthreads : ℕ) (old : ℕ → Option ℕ) : State :=
  -- gomp_init_task clears the state of each implicit task
  let x := { s.team t with hasState := fun i => if i < nthreads then false else (s.team t).hasState i }
  if nthreads = 1 then { s.setTeam t x with current := some t }
  else
    let fresh := fun i => decide (1 ≤ i ∧ i < nthreads ∧ old i = none)
    let x := { x with
      hasState := fun i => i = 0 || fresh i || x.hasState i
      threadList := fun i => (i = 0 && s.master.list.isNone) || fresh i || x.threadList i }
    { s.setTeam t x with
      current := some t
      threadsUsed := nthreads
      worker := fun i =>
        if fresh i then ⟨some t,some (t,i)⟩
        else match old i with
          | some j => s.worker j
          | none => s.worker i
      master := if s.master.list = none then ⟨some t,some (t,0)⟩ else s.master }

/-- The lists that are not initialized are null pointers, which `gomp_task_state_list_end` follows. -/
def freeTeam (s : State) (t : ℕ) : Option State :=
  if ∀ i < (s.team t).nthreads, (s.team t).threadList i = true then
    some (s.setTeam t { s.team t with freed := true })
  else none

def gompTeamEnd (s : State) (t : ℕ) : Option State :=
  if (s.team t).nthreads = 1 then (s.freeTeam t).map fun s => { s with current := none }
  else
    match s.lastTeam with
    | none => some { s with lastTeam := some t, current := none }
    | some l => (s.freeTeam l).map fun s => { s with lastTeam := some t, current := none }

end State

inductive Event where
  | start (nthreads : ℕ) (old : ℕ → Option ℕ)
  | finish

/-- The workers that are reused are in the pool, each once. -/
def Event.Valid (s : State) (nthreads : ℕ) (old : ℕ → Option ℕ) : Prop :=
  1 ≤ nthreads ∧ (∀ i < nthreads, 1 ≤ i → (old i).all (fun j => 1 ≤ j ∧ j < s.threadsUsed) = true) ∧
    ∀ i < nthreads, ∀ k < nthreads, 1 ≤ i ∧ 1 ≤ k ∧ old i ≠ none ∧ old i = old k → i = k

instance (s : State) (nthreads : ℕ) (old : ℕ → Option ℕ) : Decidable (Event.Valid s nthreads old) :=
  inferInstanceAs (Decidable (_ ∧ _ ∧ _))

def step (s : State) : Event → Option State
  | .start nthreads old =>
    if s.current = none ∧ Event.Valid s nthreads old then
      some ((s.gompNewTeam nthreads).gompTeamStart (s.newTeamId nthreads) nthreads old)
    else none
  | .finish =>
    match s.current with
    | some t => s.gompTeamEnd t
    | none => none

/-- A thread of a team. -/
def State.member (s : State) (i : ℕ) : Thread := if i = 0 then s.master else s.worker i

/-- What the body of a region may rely on: each thread's implicit task has a state, and its group
and list are those of the team, which has not been freed. -/
def State.Ready (s : State) : Prop :=
  ∀ t, s.current = some t → (s.team t).freed = false ∧ ∀ i < (s.team t).nthreads,
    (s.team t).hasState i = true ∧ (s.member i).group = some t ∧ ∃ k, (s.member i).list = some (t,k)

/-- A region of more than one thread, all workers of which are new, run by a master that has no
list yet or takes again the team its list belongs to. -/
def Fresh (s : State) : Event → Prop
  | .start nthreads old => 2 ≤ nthreads ∧ (∀ i < nthreads, 1 ≤ i → old i = none) ∧
      (s.master.list = none ∨ ∃ t, s.getLastTeam nthreads = some t ∧ s.master.group = some t)
  | .finish => True

/-- The list and the group of the master belong to one team, and the teams that may be used again
have not been freed. -/
structure Inv (s : State) : Prop where
  list : ∀ t k, s.master.list = some (t,k) → s.master.group = some t ∧ t < s.numTeams
  last : ∀ t, s.lastTeam = some t → t < s.numTeams ∧ (s.team t).freed = false ∧ s.current ≠ some t
  current : ∀ t, s.current = some t → t < s.numTeams ∧ (s.team t).freed = false

theorem init_inv : Inv init := by
  constructor
  · intro t k h
    cases h
  · intro t h
    cases h
  · intro t h
    cases h

section Steps
variable {s s' : State} {n : ℕ} {f : ℕ → Option ℕ}

theorem getLastTeam_eq {t : ℕ} (h : s.getLastTeam n = some t) : s.lastTeam = some t ∧ (s.team t).nthreads = n := by
  simpa [State.getLastTeam, Option.filter_eq_some_iff] using h

/-- The team of a new region: it has the right size and has not been freed. -/
theorem gompNewTeam_spec (h : Inv s) :
    s.newTeamId n < (s.gompNewTeam n).numTeams ∧ ((s.gompNewTeam n).team (s.newTeamId n)).nthreads = n ∧
      ((s.gompNewTeam n).team (s.newTeamId n)).freed = false ∧ (s.gompNewTeam n).master = s.master ∧
      s.numTeams ≤ (s.gompNewTeam n).numTeams ∧ (s.gompNewTeam n).lastTeam ≠ some (s.newTeamId n) := by
  cases hl : s.getLastTeam n with
  | some t =>
    obtain ⟨hlast,hn⟩ := getLastTeam_eq hl
    obtain ⟨hlt,hf,_⟩ := h.last t hlast
    simp only [State.newTeamId, State.gompNewTeam, hl, Option.getD_some]
    exact ⟨hlt,hn,hf,by trivial,le_rfl,by simp⟩
  | none =>
    simp only [State.newTeamId, State.gompNewTeam, hl, Option.getD_none, State.setTeam, Function.update_self]
    refine ⟨Nat.lt_succ_self _,by trivial,by trivial,by trivial,Nat.le_succ _,fun hlast => ?_⟩
    exact absurd (h.last _ hlast).1 (lt_irrefl _)

theorem gompNewTeam_last (h : Inv s) {t : ℕ} (hlast : (s.gompNewTeam n).lastTeam = some t) :
    s.lastTeam = some t ∧ (s.gompNewTeam n).team t = s.team t := by
  cases hl : s.getLastTeam n with
  | some u => simp [State.gompNewTeam, hl] at hlast
  | none =>
    simp only [State.gompNewTeam, hl, State.setTeam] at hlast ⊢
    exact ⟨hlast,Function.update_of_ne (Nat.ne_of_lt (h.last t hlast).1) _ _⟩

/-- What the start of a region leaves alone. -/
theorem gompTeamStart_frame (s : State) (t : ℕ) :
    (s.gompTeamStart t n f).numTeams = s.numTeams ∧ (s.gompTeamStart t n f).lastTeam = s.lastTeam ∧
      (s.gompTeamStart t n f).current = some t ∧ (∀ u, ((s.gompTeamStart t n f).team u).freed = (s.team u).freed) ∧
      ((s.gompTeamStart t n f).team t).nthreads = (s.team t).nthreads := by
  unfold State.gompTeamStart
  dsimp only
  split <;> refine ⟨rfl,rfl,rfl,fun u => ?_,?_⟩ <;> simp only [State.setTeam, Function.update_apply]
  all_goals
    split
    · next e => first | rw [e] | rfl
    · rfl

theorem gompTeamStart_master (hn : n ≠ 1) (s : State) (t : ℕ) :
    (s.gompTeamStart t n f).master = if s.master.list = none then ⟨some t,some (t,0)⟩ else s.master := by
  unfold State.gompTeamStart
  rw [if_neg hn]

/-- The threads of a region of more than one thread. -/
theorem gompTeamStart_thread (hn : n ≠ 1) (s : State) (t : ℕ) {i : ℕ} (hi : i < n) :
    ((s.gompTeamStart t n f).team t).hasState i = decide (i = 0 ∨ f i = none) ∧
      (1 ≤ i → f i = none → (s.gompTeamStart t n f).worker i = ⟨some t,some (t,i)⟩) := by
  unfold State.gompTeamStart
  rw [if_neg hn]
  simp only [State.setTeam, Function.update_self, hi]
  constructor
  · by_cases h0 : i = 0
    · simp [h0]
    · have hpos : 1 ≤ i := Nat.one_le_iff_ne_zero.mpr h0
      simp [h0, hpos]
  · intro hpos hold
    simp [hpos, hold]

theorem gompTeamStart_one (s : State) (t : ℕ) : ((s.gompTeamStart t 1 f).team t).hasState 0 = false := by
  simp [State.gompTeamStart, State.setTeam]

/-- A region begins with everything in place exactly when all its threads are new to the pool. -/
theorem start_ready_iff (h : Inv s) (hn : 1 ≤ n) :
    ((s.gompNewTeam n).gompTeamStart (s.newTeamId n) n f).Ready ↔ Fresh s (.start n f) := by
  obtain ⟨hlt,hsize,hfreed,hmaster,_,_⟩ := gompNewTeam_spec (n := n) h
  obtain ⟨_,_,hcur,hfr,hsz⟩ := gompTeamStart_frame (n := n) (f := f) (s.gompNewTeam n) (s.newTeamId n)
  by_cases h1 : n = 1
  · subst h1
    constructor
    · intro hr
      have h0 := ((hr _ hcur).2 0 (by rw [hsz,hsize]; decide)).1
      rw [gompTeamStart_one] at h0
      cases h0
    · intro hf
      exact absurd hf.1 (by decide)
  have hms := gompTeamStart_master (f := f) h1 (s.gompNewTeam n) (s.newTeamId n)
  rw [hmaster] at hms
  constructor
  · intro hr
    have hall := (hr _ hcur).2
    rw [hsz,hsize] at hall
    refine ⟨by omega,?_,?_⟩
    · intro i hi hpos
      have hst := (hall i hi).1
      rw [(gompTeamStart_thread h1 _ _ hi).1,decide_eq_true_eq] at hst
      exact hst.resolve_left (by omega)
    · by_contra hno
      rw [not_or] at hno
      obtain ⟨_,hg,k,hk⟩ := hall 0 (by omega)
      rw [State.member,if_pos rfl,hms,if_neg hno.1] at hg hk
      have hnew : s.getLastTeam n = some (s.newTeamId n) := by
        cases hl : s.getLastTeam n with
        | some u => simp [State.newTeamId, hl]
        | none =>
          have hbad := (h.list _ k hk).2
          simp [State.newTeamId, hl] at hbad
      exact hno.2 ⟨_,hnew,hg⟩
  · rintro ⟨_,hold,hm⟩ t ht
    rw [hcur] at ht
    cases ht
    refine ⟨(hfr _).trans hfreed,fun i hi => ?_⟩
    rw [hsz,hsize] at hi
    obtain ⟨hst,hw⟩ := gompTeamStart_thread (f := f) h1 (s.gompNewTeam n) (s.newTeamId n) hi
    by_cases h0 : i = 0
    · subst h0
      refine ⟨by rw [hst]; simp,?_⟩
      rw [State.member,if_pos rfl,hms]
      split
      · exact ⟨rfl,0,rfl⟩
      · next hne =>
        obtain ⟨u,hu,hg⟩ := hm.resolve_left hne
        have hid : s.newTeamId n = u := by simp [State.newTeamId, hu]
        rw [hid]
        obtain ⟨⟨v,k⟩,hk⟩ := Option.ne_none_iff_exists'.mp hne
        obtain rfl : u = v := by
          have := (h.list v k hk).1
          rw [hg] at this
          exact Option.some.inj this
        exact ⟨hg,k,hk⟩
    · have hpos : 1 ≤ i := Nat.one_le_iff_ne_zero.mpr h0
      have hi' := hold i hi hpos
      refine ⟨by rw [hst]; simp [hi'],?_⟩
      rw [State.member,if_neg h0,hw hpos hi']
      exact ⟨rfl,i,rfl⟩

theorem start_inv (h : Inv s) : Inv ((s.gompNewTeam n).gompTeamStart (s.newTeamId n) n f) := by
  obtain ⟨hlt,_,hfreed,hmaster,hle,hne⟩ := gompNewTeam_spec (n := n) h
  obtain ⟨hnum,hlast,hcur,hfr,_⟩ := gompTeamStart_frame (n := n) (f := f) (s.gompNewTeam n) (s.newTeamId n)
  have hkeep : ∀ t k, s.master.list = some (t,k) → s.master.group = some t ∧ t < (s.gompNewTeam n).numTeams :=
    fun t k hk => ⟨(h.list t k hk).1,lt_of_lt_of_le (h.list t k hk).2 hle⟩
  constructor
  · intro t k hk
    rw [hnum]
    by_cases h1 : n = 1
    · subst h1
      have hm : ((s.gompNewTeam 1).gompTeamStart (s.newTeamId 1) 1 f).master = s.master := by
        rw [State.gompTeamStart,if_pos rfl]
        exact hmaster
      rw [hm] at hk ⊢
      exact hkeep t k hk
    · rw [gompTeamStart_master h1,hmaster] at hk ⊢
      split at hk
      · next hnone =>
        cases hk
        rw [if_pos hnone]
        exact ⟨rfl,hlt⟩
      · next hsome =>
        rw [if_neg hsome]
        exact hkeep t k hk
  · intro t ht
    rw [hlast] at ht
    rw [hnum,hfr,hcur]
    obtain ⟨hold,hteam⟩ := gompNewTeam_last h ht
    obtain ⟨htn,htf,_⟩ := h.last t hold
    rw [hteam]
    refine ⟨lt_of_lt_of_le htn hle,htf,fun e => hne ?_⟩
    rw [ht,Option.some.inj e]
  · intro t ht
    rw [hcur] at ht
    cases ht
    rw [hnum,hfr]
    exact ⟨hlt,hfreed⟩

/-- Freeing a team changes nothing but the team itself. -/
theorem freeTeam_frame {t : ℕ} (hf : s.freeTeam t = some s') :
    s'.master = s.master ∧ s'.numTeams = s.numTeams ∧ s'.lastTeam = s.lastTeam ∧
      ∀ u, u ≠ t → (s'.team u).freed = (s.team u).freed := by
  unfold State.freeTeam at hf
  split at hf
  · cases hf
    exact ⟨rfl,rfl,rfl,fun u hu => by simp [State.setTeam, Function.update_of_ne hu]⟩
  · cases hf

theorem finish_inv {t : ℕ} (h : Inv s) (hc : s.current = some t) (hs : s.gompTeamEnd t = some s') : Inv s' := by
  have htlt := h.current t hc
  unfold State.gompTeamEnd at hs
  split at hs
  · -- a team of one thread is freed at once
    obtain ⟨x,hx,rfl⟩ := Option.map_eq_some_iff.mp hs
    obtain ⟨hm,hnum,hlast,hfr⟩ := freeTeam_frame hx
    refine ⟨fun u k hk => ?_,fun u hu => ?_,fun u hu => by cases hu⟩
    · dsimp only at hk ⊢
      rw [hm] at hk ⊢
      rw [hnum]
      exact h.list u k hk
    · dsimp only at hu ⊢
      rw [hlast] at hu
      obtain ⟨hult,huf,hune⟩ := h.last u hu
      rw [hnum,hfr u (by rintro rfl; exact hune hc)]
      exact ⟨hult,huf,nofun⟩
  · split at hs
    · cases hs
      refine ⟨h.list,fun u hu => ?_,fun u hu => by cases hu⟩
      cases hu
      exact ⟨htlt.1,htlt.2,nofun⟩
    · next l hl =>
      -- the team kept before is freed, which is not the one that ends
      obtain ⟨x,hx,rfl⟩ := Option.map_eq_some_iff.mp hs
      obtain ⟨hm,hnum,_,hfr⟩ := freeTeam_frame hx
      refine ⟨fun u k hk => ?_,fun u hu => ?_,fun u hu => by cases hu⟩
      · dsimp only at hk ⊢
        rw [hm] at hk ⊢
        rw [hnum]
        exact h.list u k hk
      · cases hu
        dsimp only
        rw [hnum,hfr t (by rintro rfl; exact (h.last t hl).2.2 hc)]
        exact ⟨htlt.1,htlt.2,nofun⟩

theorem step_inv {e : Event} (h : Inv s) (hs : step s e = some s') : Inv s' := by
  cases e with
  | start n f =>
    simp only [step] at hs
    split at hs
    · cases hs
      exact start_inv h
    · cases hs
  | finish =>
    simp only [step] at hs
    split at hs
    · next t ht => exact finish_inv h ht hs
    · cases hs

theorem finish_current (h : step s .finish = some s') : s'.current = none := by
  simp only [step] at h
  split at h
  · unfold State.gompTeamEnd at h
    split at h
    · obtain ⟨x,_,rfl⟩ := Option.map_eq_some_iff.mp h
      rfl
    · split at h
      · cases h
        rfl
      · obtain ⟨x,_,rfl⟩ := Option.map_eq_some_iff.mp h
        rfl
  · cases h

/-- One step: its region begins ready exactly when its threads are all new. -/
theorem step_ready_iff {e : Event} (h : Inv s) (hs : step s e = some s') : s'.Ready ↔ Fresh s e := by
  cases e with
  | start n f =>
    simp only [step] at hs
    split at hs
    · next hv =>
      cases hs
      exact start_ready_iff h hv.2.1
    · cases hs
  | finish =>
    refine iff_of_true (fun t ht => ?_) trivial
    rw [finish_current hs] at ht
    cases ht

end Steps

/-- After a step the threads of the region find their states and lists. -/
def BeginsReady (s : State) (e : Event) : Prop := ∀ s', step s e = some s' → s'.Ready

/-- A sequence of regions begins each of them with the states and the lists of its threads in
place if and only if all its regions are run by new threads. -/
theorem regions_ready_iff (es : List Event) (s : State) (hr : run step init es = some s) :
    Along step BeginsReady init es ↔ Along step Fresh init es := by
  refine along_iff (fun s e s' h _ hs => step_inv h hs) (fun s e s' h hs => ?_) init_inv hr
  rw [← step_ready_iff h hs]
  constructor
  · exact fun hb => hb s' hs
  · intro hready x hx
    obtain rfl : s' = x := Option.some.inj (hs.symm.trans hx)
    exact hready

/-- Two regions of two threads each, the second with a new worker for an old one that has left. -/
def twoNewRegions : List Event := [.start 2 fun _ => none, .finish, .start 2 fun _ => none]

theorem regions_ready_twoNewRegions : ∃ s, run step init twoNewRegions = some s ∧
    (Along step BeginsReady init twoNewRegions ↔ Along step Fresh init twoNewRegions) :=
  ⟨_,rfl,regions_ready_iff twoNewRegions _ rfl⟩

/-- The second region gives the worker in the dock its place again. -/
def reusedWorker : List Event := [.start 2 fun _ => none, .finish, .start 2 fun i => some i]

/-- Its new implicit task has no state. -/
theorem regions_ready_reusedWorker : ∃ s, run step init reusedWorker = some s ∧ ¬s.Ready ∧
    s.current = some 0 ∧ (s.team 0).hasState 1 = false := by
  refine ⟨_,rfl,fun h => ?_,rfl,by decide⟩
  have := ((h 0 rfl).2 1 (by decide)).1
  revert this
  decide

end GompUlt.TeamLifeCycle
