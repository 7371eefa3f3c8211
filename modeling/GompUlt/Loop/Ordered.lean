import GompUlt.Lib.Run
import GompUlt.Lib.CircularBuffer
import Mathlib.Data.List.Perm.Subperm

/-! # Ordered regions of dynamic and guided loops

The threads that have a chunk stand in a circular queue, and one semaphore per thread lets the head
of the queue into its ordered region.  The queue is written under the lock of the work share;
`ordered_owner` and the semaphores are also used without it, so the calls are split at every access
to these.
-/
namespace GompUlt.Ordered
open Run CircularBuffer

/-- Where a thread stands.  `next` tells whether `gomp_ordered_sync` was called by the next-chunk
operation; `more` whether the allocation found a chunk. -/
inductive Pc where
  | outside
  | startLock
  | startLocked
  | enqueue
  | body
  | sync (next : Bool)
  | syncWait (next : Bool)
  | syncSet (next : Bool)
  | nextLock
  | nextLocked
  | clearOwner (more : Bool)
  | rotate (more : Bool)
  | posting (target : ℕ) (more : Bool)
  | unlocking (more : Bool)
deriving DecidableEq, Repr

/-- The fields of the work share, the semaphores and the threads.  `allocs` are the threads that
got a chunk, in the order of the allocations, `grants` those that passed their semaphore. -/
structure State where
  orderedTeamIds : ℕ → ℕ
  orderedNumUsed : ℕ
  orderedCur : ℕ
  orderedOwner : Option ℕ
  release : ℕ → ℕ
  lock : Option ℕ
  pc : ℕ → Pc
  allocs : List ℕ
  grants : List ℕ

/-- `gomp_init_work_share` for an ordered loop. -/
def init : State where
  orderedTeamIds _ := 0
  orderedNumUsed := 0
  orderedCur := 0
  orderedOwner := none
  release _ := 0
  lock := none
  pc _ := .outside
  allocs := []
  grants := []

def State.setPc (s : State) (t : ℕ) (p : Pc) : State := { s with pc := Function.update s.pc t p }

/-- An index of the circular buffer that may have run over its end. -/
def wrap (nthreads index : ℕ) : ℕ := if nthreads ≤ index then index - nthreads else index

variable (nthreads : ℕ)

/-- `gomp_ordered_first` up to its post. -/
def orderedFirst (s : State) (t : ℕ) : State :=
  if nthreads = 1 then s.setPc t (.unlocking true)
  else
    let index := wrap nthreads (s.orderedCur + s.orderedNumUsed)
    let s' := { s with
      orderedTeamIds := Function.update s.orderedTeamIds index t
      orderedNumUsed := s.orderedNumUsed + 1 }
    s'.setPc t (if s.orderedNumUsed = 0 then .posting t true else .unlocking true)

/-- `gomp_ordered_next` between the reset of the owner and the post. -/
def orderedNext (s : State) (t : ℕ) : State :=
  if s.orderedNumUsed = 1 then s.setPc t (.posting t true)
  else
    let ids :=
      if s.orderedNumUsed < nthreads then
        Function.update s.orderedTeamIds (wrap nthreads (s.orderedCur + s.orderedNumUsed)) t
      else s.orderedTeamIds
    let index := if s.orderedCur + 1 = nthreads then 0 else s.orderedCur + 1
    { s with orderedTeamIds := ids, orderedCur := index }.setPc t (.posting (ids index) true)

/-- `gomp_ordered_last` between the reset of the owner and the post. -/
def orderedLast (s : State) (t : ℕ) : State :=
  let numUsed := s.orderedNumUsed - 1
  if 0 < numUsed then
    let next := if s.orderedCur + 1 = nthreads then 0 else s.orderedCur + 1
    { s with orderedNumUsed := numUsed, orderedCur := next }.setPc t (.posting (s.orderedTeamIds next) false)
  else { s with orderedNumUsed := numUsed }.setPc t (.unlocking false)

/-- Where `gomp_ordered_sync` returns to. -/
def afterSync : Bool → Pc
  | true => .nextLock
  | false => .body

/-- The next access of a thread to shared data; `more` tells whether an allocation finds a chunk. -/
def advance (s : State) (t : ℕ) (more : Bool) : Option State :=
  match s.pc t with
  | .outside | .body => none
  | .startLock => if s.lock = none then some ({ s with lock := some t }.setPc t .startLocked) else none
  | .startLocked =>
    if more then some ({ s with allocs := s.allocs ++ [t] }.setPc t .enqueue) else some (s.setPc t (.unlocking false))
  | .enqueue => some (orderedFirst nthreads s t)
  | .sync next =>
    if nthreads = 1 ∨ s.orderedOwner = some t then some (s.setPc t (afterSync next))
    else some (s.setPc t (.syncWait next))
  | .syncWait next =>
    if 0 < s.release t then
      some ({ s with release := Function.update s.release t (s.release t - 1), grants := s.grants ++ [t] }.setPc t
        (.syncSet next))
    else none
  | .syncSet next => some ({ s with orderedOwner := some t }.setPc t (afterSync next))
  | .nextLock => if s.lock = none then some ({ s with lock := some t }.setPc t .nextLocked) else none
  | .nextLocked =>
    some ({ s with allocs := if more then s.allocs ++ [t] else s.allocs }.setPc t
      (if nthreads = 1 then .unlocking more else .clearOwner more))
  | .clearOwner more => some ({ s with orderedOwner := none }.setPc t (.rotate more))
  | .rotate true => some (orderedNext nthreads s t)
  | .rotate false => some (orderedLast nthreads s t)
  | .posting target more =>
    some ({ s with release := Function.update s.release target (s.release target + 1) }.setPc t (.unlocking more))
  | .unlocking more => some ({ s with lock := none }.setPc t (if more then .body else .outside))

/-- Calls of the compiled loop, and the accesses they are made of. -/
inductive Event where
  | loopStart (t : ℕ)
  | orderedStart (t : ℕ)
  | loopNext (t : ℕ)
  | advance (t : ℕ) (more : Bool)
deriving DecidableEq, Repr

def step (s : State) : Event → Option State
  | .loopStart t => if t < nthreads ∧ s.pc t = .outside then some (s.setPc t .startLock) else none
  | .orderedStart t => if s.pc t = .body then some (s.setPc t (.sync false)) else none
  | .loopNext t => if s.pc t = .body then some (s.setPc t (.sync true)) else none
  | .advance t more => advance nthreads s t more

/-- The thread ids in the circular buffer, from `ordered_cur` on. -/
def queue (s : State) : List ℕ := window s.orderedTeamIds nthreads s.orderedCur s.orderedNumUsed

/-! ## The right to the ordered region -/

/-- Where the right to the ordered region is: on a semaphore, with a thread that has passed its
semaphore, with the owner, with a thread that gives it up, or in the hands of one that will post. -/
inductive Token where
  | none
  | posted (t : ℕ)
  | taken (t : ℕ)
  | owned (t : ℕ)
  | handing (t : ℕ)
  | toPost (t target : ℕ)
deriving DecidableEq

/-- The value of `ordered_owner`. -/
def Token.owner : Token → Option ℕ
  | .owned t => some t
  | _ => .none

/-- The thread of the queue that has passed its semaphore for its chunk. -/
def Token.granted : Token → List ℕ
  | .taken t | .owned t | .handing t => [t]
  | _ => []

/-- The thread that is to have the region, which is the head of the queue. -/
def Token.head : Token → Option ℕ
  | .none => .none
  | .posted t | .taken t | .owned t | .handing t => some t
  | .toPost _ target => some target

/-- What a thread knows about the token from where it stands. -/
def Pc.claim (t : ℕ) : Pc → Option Token
  | .nextLock | .nextLocked | .clearOwner _ => some (.owned t)
  | .syncSet _ => some (.taken t)
  | .rotate _ => some (.handing t)
  | .posting target _ => some (.toPost t target)
  | _ => none

/-- The thread is in the circular queue. -/
def Pc.queued : Pc → Bool
  | .outside | .startLock | .startLocked | .enqueue => false
  | .posting _ more | .unlocking more => more
  | _ => true

/-- The thread holds the lock of the work share. -/
def Pc.locked : Pc → Bool
  | .startLocked | .enqueue | .nextLocked | .clearOwner _ | .rotate _ | .posting _ _ | .unlocking _ => true
  | _ => false

/-- A chunk allocated to the thread that is not in the queue yet. -/
def Pc.unqueued (t : ℕ) : Pc → List ℕ
  | .enqueue | .clearOwner true | .rotate true => [t]
  | _ => []

/-- The chunk of the holder of the lock that is not in the queue yet. -/
def unqueued (s : State) : List ℕ :=
  match s.lock with
  | some t => (s.pc t).unqueued t
  | none => []

/-- The thread that holds the token is where the token says. -/
def Token.placed (s : State) : Token → Prop
  | .taken t => ∃ next, s.pc t = .syncSet next
  | .handing t => ∃ more, s.pc t = .rotate more
  | .toPost t target => ∃ more, s.pc t = .posting target more
  | _ => True

variable {nthreads}

/-- The queue, the token and the threads fit together; `done` are the chunks handed over. -/
structure Inv (nthreads : ℕ) (s : State) (token : Token) (done : List ℕ) : Prop where
  cur_lt : s.orderedCur < nthreads
  nodup : (queue nthreads s).Nodup
  mem_queue : ∀ t, t ∈ queue nthreads s ↔ (s.pc t).queued = true
  pc_lt : ∀ t, s.pc t ≠ .outside → t < nthreads
  head : (queue nthreads s).head? = token.head
  release : ∀ t, s.release t = if token = .posted t then 1 else 0
  owner : s.orderedOwner = token.owner
  claim : ∀ t τ, (s.pc t).claim t = some τ → token = τ
  placed : token.placed s
  lock : ∀ t, (s.pc t).locked = true ↔ s.lock = some t
  allocs : s.allocs = done ++ queue nthreads s ++ unqueued s
  grants : s.grants = done ++ token.granted

theorem init_inv (hT : 1 < nthreads) : Inv nthreads init .none [] where
  cur_lt := by
    change 0 < nthreads
    omega
  nodup := List.nodup_nil
  mem_queue t := by simp [queue, init, Pc.queued]
  pc_lt t h := absurd rfl h
  head := rfl
  release t := rfl
  owner := rfl
  claim t τ h := by cases h
  placed := trivial
  lock t := by simp [init, Pc.locked]
  allocs := rfl
  grants := rfl

/-! ## One step of one thread -/

variable {s s' : State} {token token' : Token} {done done' : List ℕ} {t : ℕ} {p : Pc}

theorem Inv.step (h : Inv nthreads s token done) (ht : t < nthreads) (hpc : s'.pc = Function.update s.pc t p)
    (hcur : s'.orderedCur < nthreads) (hnodup : (queue nthreads s').Nodup)
    (hmem : ∀ x, x ≠ t → (x ∈ queue nthreads s' ↔ x ∈ queue nthreads s))
    (hmemt : t ∈ queue nthreads s' ↔ p.queued = true) (hhead : (queue nthreads s').head? = token'.head)
    (hrel : ∀ x, s'.release x = if token' = .posted x then 1 else 0) (howner : s'.orderedOwner = token'.owner)
    (hclaim : ∀ τ, p.claim t = some τ → token' = τ)
    (hothers : token' = token ∨ ∀ x, x ≠ t → (s.pc x).claim x = none) (hplaced : token'.placed s')
    (hlock : ∀ x, (Function.update s.pc t p x).locked = true ↔ s'.lock = some x)
    (hallocs : s'.allocs = done' ++ queue nthreads s' ++ unqueued s')
    (hgrants : s'.grants = done' ++ token'.granted) : Inv nthreads s' token' done' := by
  constructor
  case cur_lt => exact hcur
  case nodup => exact hnodup
  case mem_queue =>
    intro x
    rw [hpc]
    by_cases hx : x = t
    · subst hx
      rw [Function.update_self]
      exact hmemt
    · rw [Function.update_of_ne hx,hmem x hx]
      exact h.mem_queue x
  case pc_lt =>
    intro x hx
    by_cases hxt : x = t
    · rwa [hxt]
    · rw [hpc,Function.update_of_ne hxt] at hx
      exact h.pc_lt x hx
  case head => exact hhead
  case release => exact hrel
  case owner => exact howner
  case claim =>
    intro x τ hx
    rw [hpc] at hx
    by_cases hxt : x = t
    · subst hxt
      rw [Function.update_self] at hx
      exact hclaim τ hx
    · rw [Function.update_of_ne hxt] at hx
      obtain rfl | hnone := hothers
      · exact h.claim x τ hx
      · rw [hnone x hxt] at hx
        cases hx
  case placed => exact hplaced
  case lock =>
    rw [hpc]
    exact hlock
  case allocs => exact hallocs
  case grants => exact hgrants

/-- The thread the token has been taken by. -/
def Token.thread : Token → Option ℕ
  | .none | .posted _ => Option.none
  | .taken t | .owned t | .handing t | .toPost t _ => some t

/-- Only the thread of the token claims it. -/
theorem Inv.no_claim (h : Inv nthreads s token done) (ht : ∀ x, token.thread = some x → x = t) (x : ℕ) (hx : x ≠ t) :
    (s.pc x).claim x = none := by
  cases hc : (s.pc x).claim x with
  | none => rfl
  | some τ =>
    have hτ := h.claim x τ hc
    subst hτ
    refine absurd (ht x ?_) hx
    cases hpx : s.pc x <;> simp_all [Pc.claim] <;> subst hc <;> rfl

/-- A token that is not in the hands of the thread stays where it is. -/
theorem Inv.placed_of_ne (h : Inv nthreads s token done) (hpc : s'.pc = Function.update s.pc t p)
    (h1 : ∀ next, s.pc t ≠ .syncSet next) (h2 : ∀ more, s.pc t ≠ .rotate more)
    (h3 : ∀ target more, s.pc t ≠ .posting target more) : token.placed s' := by
  have hold := h.placed
  cases token with
  | none => trivial
  | posted x => trivial
  | owned x => trivial
  | taken x =>
    obtain ⟨next,hx⟩ := hold
    refine ⟨next,?_⟩
    rw [hpc,Function.update_of_ne,hx]
    rintro rfl
    exact h1 next hx
  | handing x =>
    obtain ⟨more,hx⟩ := hold
    refine ⟨more,?_⟩
    rw [hpc,Function.update_of_ne,hx]
    rintro rfl
    exact h2 more hx
  | toPost x target =>
    obtain ⟨more,hx⟩ := hold
    refine ⟨more,?_⟩
    rw [hpc,Function.update_of_ne,hx]
    rintro rfl
    exact h3 target more hx

theorem Inv.lock_same (h : Inv nthreads s token done) (hp : p.locked = (s.pc t).locked) (x : ℕ) :
    (Function.update s.pc t p x).locked = true ↔ s.lock = some x := by
  by_cases hx : x = t
  · subst hx
    rw [Function.update_self,hp]
    exact h.lock x
  · rw [Function.update_of_ne hx]
    exact h.lock x

theorem Inv.lock_acquire (h : Inv nthreads s token done) (hfree : s.lock = none) (hp : p.locked = true) (x : ℕ) :
    (Function.update s.pc t p x).locked = true ↔ some t = some x := by
  by_cases hx : x = t
  · subst hx
    simp [hp]
  · rw [Function.update_of_ne hx,h.lock x,hfree]
    simp [Ne.symm hx]

theorem Inv.lock_release (h : Inv nthreads s token done) (hheld : s.lock = some t) (hp : p.locked = false) (x : ℕ) :
    (Function.update s.pc t p x).locked = true ↔ none = some x := by
  by_cases hx : x = t
  · subst hx
    simp [hp]
  · rw [Function.update_of_ne hx,h.lock x,hheld]
    simp [Ne.symm hx]

/-- A thread without the lock has no part in the chunks that are not queued. -/
theorem Inv.unqueued_eq (h : Inv nthreads s token done) (hpc : s'.pc = Function.update s.pc t p)
    (hl : s'.lock = s.lock) (hu : (s.pc t).locked = true → p.unqueued t = (s.pc t).unqueued t) :
    unqueued s' = unqueued s := by
  unfold unqueued
  rw [hl,hpc]
  cases hlock : s.lock with
  | none => rfl
  | some x =>
    dsimp only
    by_cases hx : x = t
    · subst hx
      rw [Function.update_self]
      exact hu ((h.lock x).mpr hlock)
    · rw [Function.update_of_ne hx]

/-- A step that only moves the thread. -/
theorem Inv.move (h : Inv nthreads s token done) (ht : t < nthreads) (hq : p.queued = (s.pc t).queued)
    (hl : p.locked = (s.pc t).locked) (hu : (s.pc t).locked = true → p.unqueued t = (s.pc t).unqueued t)
    (hclaim : ∀ τ, p.claim t = some τ → token = τ) (h1 : ∀ next, s.pc t ≠ .syncSet next)
    (h2 : ∀ more, s.pc t ≠ .rotate more) (h3 : ∀ target more, s.pc t ≠ .posting target more) :
    Inv nthreads (s.setPc t p) token done := by
  refine h.step (p := p) ht rfl h.cur_lt h.nodup (fun _ _ => Iff.rfl) ?_ h.head h.release h.owner hclaim (Or.inl rfl)
    (h.placed_of_ne rfl h1 h2 h3) (h.lock_same hl) ?_ h.grants
  · rw [hq]
    exact h.mem_queue t
  · have hsame : unqueued (s.setPc t p) = unqueued s := h.unqueued_eq rfl rfl hu
    rw [hsame]
    exact h.allocs

/-- The lock of the work share is taken. -/
theorem Inv.acquire (h : Inv nthreads s token done) (ht : t < nthreads) (hfree : s.lock = none)
    (hq : p.queued = (s.pc t).queued) (hl : p.locked = true) (hu : p.unqueued t = [])
    (hclaim : ∀ τ, p.claim t = some τ → token = τ) (h1 : ∀ next, s.pc t ≠ .syncSet next)
    (h2 : ∀ more, s.pc t ≠ .rotate more) (h3 : ∀ target more, s.pc t ≠ .posting target more) :
    Inv nthreads ({ s with lock := some t }.setPc t p) token done := by
  refine h.step (p := p) ht rfl h.cur_lt h.nodup (fun _ _ => Iff.rfl) ?_ h.head h.release h.owner hclaim (Or.inl rfl)
    (h.placed_of_ne rfl h1 h2 h3) (h.lock_acquire hfree hl) ?_ h.grants
  · rw [hq]
    exact h.mem_queue t
  · have hnew : unqueued ({ s with lock := some t }.setPc t p) = [] := by
      simpa [unqueued, State.setPc] using hu
    have hold : unqueued s = [] := by simp [unqueued, hfree]
    have hal := h.allocs
    rw [hold] at hal
    rw [hnew]
    exact hal

/-- The chunk found under the lock is noted, and the thread goes on. -/
theorem Inv.allocate (h : Inv nthreads s token done) (ht : t < nthreads) {more : Bool} (hheld : s.lock = some t)
    (hold : (s.pc t).unqueued t = []) (hq : p.queued = (s.pc t).queued) (hl : p.locked = true)
    (hu : p.unqueued t = if more then [t] else [])
    (hclaim : ∀ τ, p.claim t = some τ → token = τ) (h1 : ∀ next, s.pc t ≠ .syncSet next)
    (h2 : ∀ more, s.pc t ≠ .rotate more) (h3 : ∀ target more, s.pc t ≠ .posting target more) :
    Inv nthreads ({ s with allocs := if more then s.allocs ++ [t] else s.allocs }.setPc t p) token done := by
  have hlk : p.locked = (s.pc t).locked := by rw [hl,(h.lock t).mpr hheld]
  refine h.step (p := p) ht rfl h.cur_lt h.nodup (fun _ _ => Iff.rfl) ?_ h.head h.release h.owner hclaim (Or.inl rfl)
    (h.placed_of_ne rfl h1 h2 h3) (h.lock_same hlk) ?_ h.grants
  · rw [hq]
    exact h.mem_queue t
  · have hnew : unqueued ({ s with allocs := if more then s.allocs ++ [t] else s.allocs }.setPc t p)
        = if more then [t] else [] := by
      simpa [unqueued, State.setPc, hheld] using hu
    have hal := h.allocs
    rw [show unqueued s = [] by simpa [unqueued, hheld] using hold,List.append_nil] at hal
    rw [hnew]
    change (if more then s.allocs ++ [t] else s.allocs) = done ++ queue nthreads s ++ _
    cases more with
    | true => simp [hal]
    | false => simp [hal]

/-- The semaphore is passed. -/
theorem Inv.grant (h : Inv nthreads s token done) (ht : t < nthreads) {next : Bool} (hpc : s.pc t = .syncWait next)
    (hrel : 0 < s.release t) :
    Inv nthreads ({ s with release := Function.update s.release t (s.release t - 1),
                           grants := s.grants ++ [t] }.setPc t (.syncSet next)) (.taken t) done := by
  obtain rfl : token = .posted t := by
    by_contra hne
    rw [h.release t,if_neg hne] at hrel
    exact absurd hrel (lt_irrefl 0)
  refine h.step (p := .syncSet next) ht rfl h.cur_lt h.nodup (fun _ _ => Iff.rfl) ?_ h.head ?_ h.owner ?_
    (Or.inr (h.no_claim (by simp [Token.thread]))) ⟨next,by simp [State.setPc]⟩ (h.lock_same (by rw [hpc]; rfl)) ?_ ?_
  · rw [show (Pc.syncSet next).queued = (s.pc t).queued by rw [hpc]; rfl]
    exact h.mem_queue t
  · intro x
    by_cases hx : x = t
    · subst hx
      simp [State.setPc, h.release x]
    · simp [State.setPc, hx, h.release x, Ne.symm hx]
  · rintro τ ⟨rfl⟩
    rfl
  · have hsame : unqueued ({ s with release := Function.update s.release t (s.release t - 1),
                                    grants := s.grants ++ [t] }.setPc t (.syncSet next)) = unqueued s :=
      h.unqueued_eq rfl rfl (by rw [hpc]; intro hl; cases hl)
    rw [hsame]
    exact h.allocs
  · change s.grants ++ [t] = _
    rw [h.grants]
    simp [Token.granted]

/-- The thread that passed its semaphore becomes the owner. -/
theorem Inv.own (h : Inv nthreads s token done) (ht : t < nthreads) {next : Bool} (hpc : s.pc t = .syncSet next) :
    Inv nthreads ({ s with orderedOwner := some t }.setPc t (afterSync next)) (.owned t) done := by
  obtain rfl : token = .taken t := h.claim t _ (by rw [hpc]; rfl)
  refine h.step (p := afterSync next) ht rfl h.cur_lt h.nodup (fun _ _ => Iff.rfl) ?_ h.head ?_ rfl ?_
    (Or.inr (h.no_claim (by simp [Token.thread]))) trivial (h.lock_same (by rw [hpc]; cases next <;> rfl)) ?_ h.grants
  · rw [show (afterSync next).queued = (s.pc t).queued by rw [hpc]; cases next <;> rfl]
    exact h.mem_queue t
  · intro x
    change s.release x = _
    rw [h.release x]
    simp
  · intro τ hτ
    cases next with
    | true => exact Option.some.inj hτ
    | false => cases hτ
  · have hsame : unqueued ({ s with orderedOwner := some t }.setPc t (afterSync next)) = unqueued s :=
      h.unqueued_eq rfl rfl (by rw [hpc]; intro hl; cases hl)
    rw [hsame]
    exact h.allocs

/-- The owner gives the region up. -/
theorem Inv.giveUp (h : Inv nthreads s token done) (ht : t < nthreads) {more : Bool}
    (hpc : s.pc t = .clearOwner more) :
    Inv nthreads ({ s with orderedOwner := none }.setPc t (.rotate more)) (.handing t) done := by
  obtain rfl : token = .owned t := h.claim t _ (by rw [hpc]; rfl)
  refine h.step (p := .rotate more) ht rfl h.cur_lt h.nodup (fun _ _ => Iff.rfl) ?_ h.head ?_ rfl ?_
    (Or.inr (h.no_claim (by simp [Token.thread]))) ⟨more,by simp [State.setPc]⟩
    (h.lock_same (by rw [hpc]; rfl)) ?_ h.grants
  · rw [show (Pc.rotate more).queued = (s.pc t).queued by rw [hpc]; rfl]
    exact h.mem_queue t
  · intro x
    change s.release x = _
    rw [h.release x]
    simp
  · rintro τ ⟨rfl⟩
    rfl
  · have hsame : unqueued ({ s with orderedOwner := none }.setPc t (.rotate more)) = unqueued s :=
      h.unqueued_eq rfl rfl (by rw [hpc]; cases more <;> exact fun _ => rfl)
    rw [hsame]
    exact h.allocs

/-- The semaphore of the new head is posted. -/
theorem Inv.post (h : Inv nthreads s token done) (ht : t < nthreads) {target : ℕ} {more : Bool}
    (hpc : s.pc t = .posting target more) :
    Inv nthreads ({ s with release := Function.update s.release target (s.release target + 1) }.setPc t
      (.unlocking more)) (.posted target) done := by
  obtain rfl : token = .toPost t target := h.claim t _ (by rw [hpc]; rfl)
  refine h.step (p := .unlocking more) ht rfl h.cur_lt h.nodup (fun _ _ => Iff.rfl) ?_ h.head ?_ h.owner ?_
    (Or.inr (h.no_claim (by simp [Token.thread]))) trivial (h.lock_same (by rw [hpc]; rfl)) ?_ h.grants
  · rw [show (Pc.unlocking more).queued = (s.pc t).queued by rw [hpc]; rfl]
    exact h.mem_queue t
  · intro x
    by_cases hx : x = target
    · subst hx
      simp [State.setPc, h.release x]
    · simp [State.setPc, hx, h.release x, Ne.symm hx]
  · intro τ hτ
    cases hτ
  · have hsame : unqueued ({ s with release := Function.update s.release target (s.release target + 1) }.setPc t
        (.unlocking more)) = unqueued s :=
      h.unqueued_eq rfl rfl (by rw [hpc]; exact fun _ => rfl)
    rw [hsame]
    exact h.allocs

/-- The lock is released. -/
theorem Inv.unlock (h : Inv nthreads s token done) (ht : t < nthreads) {more : Bool} (hpc : s.pc t = .unlocking more) :
    Inv nthreads ({ s with lock := none }.setPc t (if more then .body else .outside)) token done := by
  have hheld := (h.lock t).mp (by rw [hpc]; rfl)
  refine h.step (p := if more then .body else .outside) ht rfl h.cur_lt h.nodup (fun _ _ => Iff.rfl) ?_ h.head
    h.release h.owner ?_ (Or.inl rfl) (h.placed_of_ne rfl (by simp [hpc]) (by simp [hpc]) (by simp [hpc]))
    (h.lock_release hheld (by cases more <;> rfl)) ?_ h.grants
  · rw [show (if more then Pc.body else Pc.outside).queued = (s.pc t).queued by rw [hpc]; cases more <;> rfl]
    exact h.mem_queue t
  · intro τ hτ
    cases more <;> cases hτ
  · have hold : unqueued s = [] := by
      simp [unqueued, hheld, hpc, Pc.unqueued]
    have hal := h.allocs
    rw [hold] at hal
    exact hal

/-! ## The steps that write the queue -/

theorem wrap_eq_mod {index : ℕ} (h : index < 2 * nthreads) : wrap nthreads index = index % nthreads := by
  unfold wrap
  split
  case isTrue hle =>
    rw [Nat.mod_eq_sub_mod hle,Nat.mod_eq_of_lt (by omega)]
  case isFalse hlt => rw [Nat.mod_eq_of_lt (by omega)]

theorem succ_eq_mod {cur : ℕ} (h : cur < nthreads) :
    (if cur + 1 = nthreads then 0 else cur + 1) = (cur + 1) % nthreads := by
  split
  case isTrue he => rw [he,Nat.mod_self]
  case isFalse he => rw [Nat.mod_eq_of_lt (by omega)]

/-- Different thread ids fit into the team. -/
theorem length_le_of_nodup {l : List ℕ} (hnd : l.Nodup) (hlt : ∀ x ∈ l, x < nthreads) : l.length ≤ nthreads := by
  have hsub : l ⊆ List.range nthreads := fun x hx => List.mem_range.mpr (hlt x hx)
  have hle := (hnd.subperm hsub).length_le
  rwa [List.length_range] at hle

theorem Inv.lt_of_mem (h : Inv nthreads s token done) {x : ℕ} (hx : x ∈ queue nthreads s) : x < nthreads := by
  refine h.pc_lt x fun hout => ?_
  have hq := (h.mem_queue x).mp hx
  rw [hout] at hq
  cases hq

theorem length_queue (nthreads : ℕ) (s : State) : (queue nthreads s).length = s.orderedNumUsed := length_window

theorem Inv.numUsed_le (h : Inv nthreads s token done) : s.orderedNumUsed ≤ nthreads := by
  rw [← length_queue nthreads s]
  exact length_le_of_nodup h.nodup fun x hx => h.lt_of_mem hx

/-- There is room for a thread that is not in the queue. -/
theorem Inv.numUsed_lt (h : Inv nthreads s token done) (ht : t < nthreads) (hq : (s.pc t).queued = false) :
    s.orderedNumUsed < nthreads := by
  have hnot : t ∉ queue nthreads s := fun hm => by
    rw [(h.mem_queue t).mp hm] at hq
    cases hq
  have hlt : ∀ x ∈ t :: queue nthreads s, x < nthreads := by
    intro x hx
    obtain rfl | hx := List.mem_cons.mp hx
    · exact ht
    · exact h.lt_of_mem hx
  have hle := length_le_of_nodup (List.nodup_cons.mpr ⟨hnot,h.nodup⟩) hlt
  rw [List.length_cons,length_queue] at hle
  omega

/-- A thread with its first chunk enters at the end of the queue. -/
theorem Inv.first (h : Inv nthreads s token done) (hT : nthreads ≠ 1) (ht : t < nthreads) (hpc : s.pc t = .enqueue) :
    ∃ token', Inv nthreads (orderedFirst nthreads s t) token' done := by
  have hq : (s.pc t).queued = false := by rw [hpc]; rfl
  have hnum := h.numUsed_lt ht hq
  have hcur := h.cur_lt
  have hheld := (h.lock t).mp (by rw [hpc]; rfl)
  have hnot : t ∉ queue nthreads s := fun hm => by
    rw [(h.mem_queue t).mp hm] at hq
    cases hq
  have hqueue : queue nthreads (orderedFirst nthreads s t) = queue nthreads s ++ [t] := by
    unfold orderedFirst
    rw [if_neg hT]
    dsimp only [queue, State.setPc]
    rw [wrap_eq_mod (by omega)]
    exact window_push hnum
  have hnodup : (queue nthreads s ++ [t]).Nodup :=
    List.nodup_append.mpr ⟨h.nodup,List.nodup_singleton t,fun x hx y hy he => by
      rw [List.mem_singleton.mp hy] at he
      rw [he] at hx
      exact hnot hx⟩
  have hallocs : s.allocs = done ++ (queue nthreads s ++ [t]) := by
    have hal := h.allocs
    rw [show unqueued s = [t] by simp [unqueued, hheld, hpc, Pc.unqueued]] at hal
    rw [hal,List.append_assoc]
  by_cases hz : s.orderedNumUsed = 0
  · -- nobody would release the only thread of the queue, so it posts to itself
    have hnil : queue nthreads s = [] := List.eq_nil_of_length_eq_zero (by rw [length_queue,hz])
    have hnone : token = .none := by
      have hh := h.head
      rw [hnil] at hh
      cases token <;> first | rfl | cases hh
    subst hnone
    have hst : orderedFirst nthreads s t = { s with
        orderedTeamIds := Function.update s.orderedTeamIds (wrap nthreads (s.orderedCur + s.orderedNumUsed)) t
        orderedNumUsed := s.orderedNumUsed + 1 }.setPc t (.posting t true) := by
      simp [orderedFirst, hT, hz]
    rw [hst] at hqueue ⊢
    refine ⟨.toPost t t,h.step (p := .posting t true) ht rfl hcur (by rw [hqueue]; exact hnodup) ?_ ?_ ?_ ?_ h.owner
      ?_ (Or.inr (h.no_claim (by simp [Token.thread]))) ⟨true,by simp [State.setPc]⟩
      (h.lock_same (by rw [hpc]; rfl)) ?_ h.grants⟩
    · intro x hx
      rw [hqueue]
      simp [hx]
    · rw [hqueue]
      simp [Pc.queued]
    · rw [hqueue,hnil]
      rfl
    · intro x
      change s.release x = _
      rw [h.release x]
      simp
    · rintro τ ⟨rfl⟩
      rfl
    · rw [hqueue]
      change s.allocs = _
      rw [hallocs]
      simp [unqueued, State.setPc, hheld, Pc.unqueued]
  · have hst : orderedFirst nthreads s t = { s with
        orderedTeamIds := Function.update s.orderedTeamIds (wrap nthreads (s.orderedCur + s.orderedNumUsed)) t
        orderedNumUsed := s.orderedNumUsed + 1 }.setPc t (.unlocking true) := by
      simp [orderedFirst, hT, hz]
    rw [hst] at hqueue ⊢
    refine ⟨token,h.step (p := .unlocking true) ht rfl hcur (by rw [hqueue]; exact hnodup) ?_ ?_ ?_ h.release h.owner
      (by simp [Pc.claim]) (Or.inl rfl) (h.placed_of_ne rfl (by simp [hpc]) (by simp [hpc]) (by simp [hpc]))
      (h.lock_same (by rw [hpc]; rfl)) ?_ h.grants⟩
    · intro x hx
      rw [hqueue]
      simp [hx]
    · rw [hqueue]
      simp [Pc.queued]
    · rw [hqueue,← h.head]
      cases hQ : queue nthreads s with
      | nil =>
        have hlen := length_queue nthreads s
        rw [hQ] at hlen
        exact absurd hlen.symm hz
      | cons x Q => rfl
    · rw [hqueue]
      change s.allocs = _
      rw [hallocs]
      simp [unqueued, State.setPc, hheld, Pc.unqueued]

/-- The thread that gives the region up is the head of the queue. -/
theorem Inv.queue_handing (h : Inv nthreads s (.handing t) done) :
    ∃ Q, queue nthreads s = t :: Q ∧ s.orderedNumUsed = Q.length + 1 ∧
      s.orderedTeamIds (s.orderedCur % nthreads) = t ∧
      window s.orderedTeamIds nthreads (s.orderedCur + 1) Q.length = Q := by
  cases hQ : queue nthreads s with
  | nil =>
    have hh := h.head
    rw [hQ] at hh
    cases hh
  | cons x Q =>
    have hh := h.head
    rw [hQ] at hh
    obtain rfl : x = t := Option.some.inj hh
    have hlen := length_queue nthreads s
    rw [hQ,List.length_cons] at hlen
    have hwin : window s.orderedTeamIds nthreads s.orderedCur (Q.length + 1) = x :: Q := by
      rw [hlen,← hQ]
      rfl
    rw [window_succ] at hwin
    obtain ⟨h1,h2⟩ := List.cons.inj hwin
    exact ⟨Q,rfl,hlen.symm,h1,h2⟩

/-- What all hand-overs have in common: the head leaves, the chunk counts as done, and the new head
will be released. -/
theorem Inv.handOver (h : Inv nthreads s (.handing t) done) (ht : t < nthreads) {more : Bool} {Q : List ℕ}
    (hpc : s.pc t = .rotate more) (hQ : queue nthreads s = t :: Q)
    (hqueue : queue nthreads s' = Q ++ if more then [t] else []) (hcur : s'.orderedCur < nthreads)
    (hspc : s'.pc = Function.update s.pc t p) (hrel : s'.release = s.release) (hown : s'.orderedOwner = s.orderedOwner)
    (hlock : s'.lock = s.lock) (hal : s'.allocs = s.allocs) (hgr : s'.grants = s.grants)
    (hp : (∃ target, (queue nthreads s').head? = some target ∧ p = .posting target more ∧ token' = .toPost t target) ∨
      (queue nthreads s' = [] ∧ p = .unlocking false ∧ more = false ∧ token' = .none)) :
    Inv nthreads s' token' (done ++ [t]) := by
  have hheld := (h.lock t).mp (by rw [hpc]; rfl)
  have hnd := h.nodup
  rw [hQ] at hnd
  obtain ⟨htQ,hndQ⟩ := List.nodup_cons.mp hnd
  have hpq : p.queued = more := by
    obtain ⟨_,-,rfl,-⟩ | ⟨-,rfl,rfl,-⟩ := hp
    · rfl
    · rfl
  have hpl : p.locked = true := by
    obtain ⟨_,-,rfl,-⟩ | ⟨-,rfl,-,-⟩ := hp <;> rfl
  have hpu : p.unqueued t = [] := by
    obtain ⟨_,-,rfl,-⟩ | ⟨-,rfl,-,-⟩ := hp <;> rfl
  have hnp : ∀ x, token' ≠ .posted x := by
    intro x
    obtain ⟨_,-,-,rfl⟩ | ⟨-,-,-,rfl⟩ := hp <;> simp
  have hgranted : token'.granted = [] := by
    obtain ⟨_,-,-,rfl⟩ | ⟨-,-,-,rfl⟩ := hp <;> rfl
  refine h.step (p := p) ht hspc hcur ?_ ?_ ?_ ?_ ?_ ?_ ?_ (Or.inr (h.no_claim (by simp [Token.thread]))) ?_ ?_ ?_ ?_
  · rw [hqueue]
    cases more with
    | true =>
      refine List.nodup_append.mpr ⟨hndQ,List.nodup_singleton t,fun x hx y hy he => ?_⟩
      rw [List.mem_singleton.mp hy] at he
      rw [he] at hx
      exact htQ hx
    | false => simpa using hndQ
  · intro x hx
    rw [hqueue,hQ]
    cases more <;> simp [hx]
  · rw [hqueue,hpq]
    cases more <;> simp [htQ]
  · obtain ⟨target,hhead,-,rfl⟩ | ⟨hnil,-,-,rfl⟩ := hp
    · exact hhead
    · rw [hnil]
      rfl
  · intro x
    rw [hrel,h.release x,if_neg (by simp),if_neg (hnp x)]
  · rw [hown,h.owner]
    obtain ⟨_,-,-,rfl⟩ | ⟨-,-,-,rfl⟩ := hp <;> rfl
  · intro τ hτ
    obtain ⟨target,-,rfl,rfl⟩ | ⟨-,rfl,-,-⟩ := hp
    · exact Option.some.inj hτ
    · cases hτ
  · obtain ⟨target,-,rfl,rfl⟩ | ⟨-,-,-,rfl⟩ := hp
    · exact ⟨more,by rw [hspc,Function.update_self]⟩
    · trivial
  · rw [hlock]
    exact h.lock_same (by rw [hpl,hpc]; rfl)
  · have hold : unqueued s = if more then [t] else [] := by
      simp only [unqueued, hheld, hpc]
      cases more <;> rfl
    have hnew : unqueued s' = [] := by
      simp only [unqueued, hlock, hheld, hspc, Function.update_self]
      exact hpu
    rw [hal,h.allocs,hold,hnew,hqueue,hQ]
    simp
  · rw [hgr,h.grants,hgranted]
    simp [Token.granted]

theorem Inv.next (h : Inv nthreads s token done) (ht : t < nthreads) (hpc : s.pc t = .rotate true) :
    ∃ token', Inv nthreads (orderedNext nthreads s t) token' (done ++ [t]) := by
  obtain rfl : token = .handing t := h.claim t _ (by rw [hpc]; rfl)
  obtain ⟨Q,hQ,hnum,hhead,htail⟩ := h.queue_handing
  have hcur := h.cur_lt
  have hle := h.numUsed_le
  unfold orderedNext
  split
  case isTrue hone =>
    obtain rfl : Q = [] := List.eq_nil_of_length_eq_zero (by omega)
    refine ⟨.toPost t t,h.handOver ht hpc hQ hQ hcur rfl rfl rfl rfl rfl rfl (Or.inl ⟨t,?_,rfl,rfl⟩)⟩
    change (queue nthreads s).head? = some t
    rw [hQ]
    rfl
  case isFalse hone =>
    rw [succ_eq_mod hcur,wrap_eq_mod (by omega)]
    generalize hids : (if s.orderedNumUsed < nthreads then
      Function.update s.orderedTeamIds ((s.orderedCur + s.orderedNumUsed) % nthreads) t else s.orderedTeamIds) = ids
    -- the thread goes to the end, by a write or because the buffer is full
    have hwin : window ids nthreads ((s.orderedCur + 1) % nthreads) s.orderedNumUsed = Q ++ [t] := by
      rw [window_mod]
      by_cases hlt : s.orderedNumUsed < nthreads
      · rw [if_pos hlt] at hids
        subst hids
        have hpush : window (Function.update s.orderedTeamIds ((s.orderedCur + s.orderedNumUsed) % nthreads) t)
            nthreads s.orderedCur (s.orderedNumUsed + 1) = queue nthreads s ++ [t] := window_push hlt
        rw [hQ,window_succ] at hpush
        exact (List.cons.inj hpush).2
      · rw [if_neg hlt] at hids
        subst hids
        have hfull : s.orderedNumUsed = nthreads := by omega
        have hQ' := hQ
        unfold queue at hQ'
        rw [hfull] at hQ'
        rw [hfull,window_full (by omega),hhead,hQ']
        rfl
    refine ⟨.toPost t (ids ((s.orderedCur + 1) % nthreads)),h.handOver ht hpc hQ hwin (Nat.mod_lt _ (by omega)) rfl rfl
      rfl rfl rfl rfl (Or.inl ⟨_,?_,rfl,rfl⟩)⟩
    change (window ids nthreads ((s.orderedCur + 1) % nthreads) s.orderedNumUsed).head? = _
    rw [hnum,window_succ,Nat.mod_mod]
    rfl

theorem Inv.last (h : Inv nthreads s token done) (ht : t < nthreads) (hpc : s.pc t = .rotate false) :
    ∃ token', Inv nthreads (orderedLast nthreads s t) token' (done ++ [t]) := by
  obtain rfl : token = .handing t := h.claim t _ (by rw [hpc]; rfl)
  obtain ⟨Q,hQ,hnum,hhead,htail⟩ := h.queue_handing
  have hcur := h.cur_lt
  have hsub : s.orderedNumUsed - 1 = Q.length := by omega
  unfold orderedLast
  dsimp only
  rw [hsub]
  split
  case isTrue hpos =>
    rw [succ_eq_mod hcur]
    have hwin : window s.orderedTeamIds nthreads ((s.orderedCur + 1) % nthreads) Q.length = Q ++ [] := by
      rw [window_mod,htail,List.append_nil]
    refine ⟨.toPost t (s.orderedTeamIds ((s.orderedCur + 1) % nthreads)),h.handOver ht hpc hQ hwin
      (Nat.mod_lt _ (by omega)) rfl rfl rfl rfl rfl rfl (Or.inl ⟨_,?_,rfl,rfl⟩)⟩
    change (window s.orderedTeamIds nthreads ((s.orderedCur + 1) % nthreads) Q.length).head? = _
    obtain ⟨k,hk⟩ := Nat.exists_eq_succ_of_ne_zero (Nat.pos_iff_ne_zero.mp hpos)
    rw [hk,window_succ,Nat.mod_mod]
    rfl
  case isFalse hzero =>
    obtain rfl : Q = [] := List.eq_nil_of_length_eq_zero (by omega)
    exact ⟨.none,h.handOver ht hpc hQ rfl hcur rfl rfl rfl rfl rfl rfl (Or.inr ⟨rfl,rfl,rfl,rfl⟩)⟩

/-! ## Runs -/

/-- Some token and some chunks done explain the state. -/
def Explained (nthreads : ℕ) (s : State) : Prop := ∃ token done, Inv nthreads s token done

theorem advance_explained (hT : nthreads ≠ 1) (h : Inv nthreads s token done) {more : Bool}
    (hs : advance nthreads s t more = some s') : Explained nthreads s' := by
  have ht : s.pc t ≠ .outside → t < nthreads := h.pc_lt t
  unfold advance at hs
  split at hs
  case h_1 => cases hs
  case h_2 => cases hs
  case h_3 hpc =>
    obtain ⟨hfree,hs⟩ := Option.ite_none_right_eq_some.mp hs
    obtain rfl := Option.some.inj hs
    exact ⟨token,done,h.acquire (ht (by simp [hpc])) hfree (by rw [hpc]; rfl) rfl rfl (by simp [Pc.claim])
      (by simp [hpc]) (by simp [hpc]) (by simp [hpc])⟩
  case h_4 hpc =>
    have hheld := (h.lock t).mp (by rw [hpc]; rfl)
    have hold : (s.pc t).unqueued t = [] := by rw [hpc]; rfl
    split at hs <;> obtain rfl := Option.some.inj hs
    · have h' : Inv nthreads ({ s with allocs := if true then s.allocs ++ [t] else s.allocs }.setPc t .enqueue)
          token done :=
        h.allocate (ht (by simp [hpc])) hheld hold (by rw [hpc]; rfl) rfl rfl (by simp [Pc.claim])
          (by simp [hpc]) (by simp [hpc]) (by simp [hpc])
      exact ⟨token,done,h'⟩
    · exact ⟨token,done,h.move (ht (by simp [hpc])) (by rw [hpc]; rfl) (by rw [hpc]; rfl) (fun _ => hold.symm)
        (by simp [Pc.claim]) (by simp [hpc]) (by simp [hpc]) (by simp [hpc])⟩
  case h_5 hpc =>
    obtain rfl := Option.some.inj hs
    obtain ⟨token',h'⟩ := h.first hT (ht (by simp [hpc])) hpc
    exact ⟨token',done,h'⟩
  case h_6 next hpc =>
    have hl : (s.pc t).locked = false := by rw [hpc]; rfl
    split at hs <;> obtain rfl := Option.some.inj hs
    case isTrue hown =>
      have howned : token = .owned t := by
        have ho := hown.resolve_left hT
        rw [h.owner] at ho
        cases token <;> simp_all [Token.owner]
      refine ⟨token,done,h.move (ht (by simp [hpc])) ?_ ?_ (by simp [hl]) ?_ (by simp [hpc]) (by simp [hpc])
        (by simp [hpc])⟩
      · rw [hpc]
        cases next <;> rfl
      · rw [hpc]
        cases next <;> rfl
      · intro τ hτ
        rw [howned]
        cases next with
        | true => exact Option.some.inj hτ
        | false => cases hτ
    case isFalse =>
      exact ⟨token,done,h.move (ht (by simp [hpc])) (by rw [hpc]; rfl) (by rw [hpc]; rfl) (by simp [hl])
        (by simp [Pc.claim]) (by simp [hpc]) (by simp [hpc]) (by simp [hpc])⟩
  case h_7 next hpc =>
    obtain ⟨hrel,hs⟩ := Option.ite_none_right_eq_some.mp hs
    obtain rfl := Option.some.inj hs
    exact ⟨_,done,h.grant (ht (by simp [hpc])) hpc hrel⟩
  case h_8 next hpc =>
    obtain rfl := Option.some.inj hs
    exact ⟨_,done,h.own (ht (by simp [hpc])) hpc⟩
  case h_9 hpc =>
    obtain ⟨hfree,hs⟩ := Option.ite_none_right_eq_some.mp hs
    obtain rfl := Option.some.inj hs
    refine ⟨token,done,h.acquire (ht (by simp [hpc])) hfree (by rw [hpc]; rfl) rfl rfl ?_ (by simp [hpc])
      (by simp [hpc]) (by simp [hpc])⟩
    exact fun τ hτ => h.claim t τ (by rw [hpc]; exact hτ)
  case h_10 hpc =>
    obtain rfl := Option.some.inj hs
    have hheld := (h.lock t).mp (by rw [hpc]; rfl)
    rw [if_neg hT]
    refine ⟨token,done,h.allocate (ht (by simp [hpc])) hheld (by rw [hpc]; rfl) (by rw [hpc]; rfl) rfl
      (by cases more <;> rfl) ?_ (by simp [hpc]) (by simp [hpc]) (by simp [hpc])⟩
    exact fun τ hτ => h.claim t τ (by rw [hpc]; exact hτ)
  case h_11 more hpc =>
    obtain rfl := Option.some.inj hs
    exact ⟨_,done,h.giveUp (ht (by simp [hpc])) hpc⟩
  case h_12 hpc =>
    obtain rfl := Option.some.inj hs
    obtain ⟨token',h'⟩ := h.next (ht (by simp [hpc])) hpc
    exact ⟨token',_,h'⟩
  case h_13 hpc =>
    obtain rfl := Option.some.inj hs
    obtain ⟨token',h'⟩ := h.last (ht (by simp [hpc])) hpc
    exact ⟨token',_,h'⟩
  case h_14 target more hpc =>
    obtain rfl := Option.some.inj hs
    exact ⟨_,done,h.post (ht (by simp [hpc])) hpc⟩
  case h_15 more hpc =>
    obtain rfl := Option.some.inj hs
    exact ⟨token,done,h.unlock (ht (by simp [hpc])) hpc⟩

theorem step_explained (hT : nthreads ≠ 1) {e : Event} (h : Explained nthreads s)
    (hs : step nthreads s e = some s') : Explained nthreads s' := by
  obtain ⟨token,done,h⟩ := h
  cases e with
  | loopStart t =>
    obtain ⟨⟨ht,hpc⟩,hs⟩ := Option.ite_none_right_eq_some.mp hs
    obtain rfl := Option.some.inj hs
    exact ⟨token,done,h.move ht (by rw [hpc]; rfl) (by rw [hpc]; rfl) (by simp [hpc, Pc.locked])
      (by simp [Pc.claim]) (by simp [hpc]) (by simp [hpc]) (by simp [hpc])⟩
  | orderedStart t =>
    obtain ⟨hpc,hs⟩ := Option.ite_none_right_eq_some.mp hs
    obtain rfl := Option.some.inj hs
    exact ⟨token,done,h.move (h.pc_lt t (by simp [hpc])) (by rw [hpc]; rfl) (by rw [hpc]; rfl)
      (by simp [hpc, Pc.locked]) (by simp [Pc.claim]) (by simp [hpc]) (by simp [hpc]) (by simp [hpc])⟩
  | loopNext t =>
    obtain ⟨hpc,hs⟩ := Option.ite_none_right_eq_some.mp hs
    obtain rfl := Option.some.inj hs
    exact ⟨token,done,h.move (h.pc_lt t (by simp [hpc])) (by rw [hpc]; rfl) (by rw [hpc]; rfl)
      (by simp [hpc, Pc.locked]) (by simp [Pc.claim]) (by simp [hpc]) (by simp [hpc]) (by simp [hpc])⟩
  | advance t more => exact advance_explained hT h hs

/-- Between passing its semaphore and posting the next one, outside the time it is the owner. -/
def Pc.handsOver : Pc → Bool
  | .syncSet _ | .rotate _ | .posting _ _ => true
  | _ => false

/-- Outstanding releases of a thread, plus one when it is the owner or about to be or about to post. -/
def tokens (s : State) (t : ℕ) : ℕ :=
  s.release t + (if s.orderedOwner = some t then 1 else 0) + (if (s.pc t).handsOver then 1 else 0)

/-- The thread that counts for the token. -/
def Token.holder : Token → Option ℕ
  | .none => Option.none
  | .posted t | .taken t | .owned t | .handing t | .toPost t _ => some t

theorem Inv.handsOver_iff (h : Inv nthreads s token done) (t : ℕ) :
    (s.pc t).handsOver = true ↔ token = .taken t ∨ token = .handing t ∨ ∃ target, token = .toPost t target := by
  constructor
  · intro hb
    cases hpc : s.pc t with
    | syncSet next => exact Or.inl (h.claim t _ (by rw [hpc]; rfl))
    | rotate more => exact Or.inr (Or.inl (h.claim t _ (by rw [hpc]; rfl)))
    | posting target more => exact Or.inr (Or.inr ⟨target,h.claim t _ (by rw [hpc]; rfl)⟩)
    | _ =>
      rw [hpc] at hb
      cases hb
  · have hp := h.placed
    rintro (rfl | rfl | ⟨target,rfl⟩) <;> obtain ⟨_,hpc⟩ := hp <;> rw [hpc] <;> rfl

theorem Inv.tokens_eq (h : Inv nthreads s token done) (t : ℕ) :
    tokens s t = if token.holder = some t then 1 else 0 := by
  have hho := h.handsOver_iff t
  unfold tokens
  rw [h.release t,h.owner]
  by_cases hb : (s.pc t).handsOver = true
  · rw [if_pos hb]
    obtain rfl | rfl | ⟨target,rfl⟩ := hho.mp hb <;> simp [Token.owner, Token.holder]
  · rw [if_neg hb]
    rw [hho] at hb
    cases token <;> simp_all [Token.owner, Token.holder]

theorem Inv.holder_lt (h : Inv nthreads s token done) (ht : token.holder = some t) : t < nthreads := by
  have hhead : token.head = some t → t < nthreads := fun hh =>
    h.lt_of_mem (List.mem_of_head? (h.head.trans hh))
  cases token with
  | none => cases ht
  | posted x => exact hhead ht
  | taken x => exact hhead ht
  | owned x => exact hhead ht
  | handing x => exact hhead ht
  | toPost x target =>
    obtain ⟨more,hpc⟩ := h.placed
    obtain rfl := Option.some.inj ht
    exact h.pc_lt x (by simp [hpc])

/-- A team of one thread never touches the queue. -/
structure Solo (s : State) : Prop where
  numUsed : s.orderedNumUsed = 0
  cur : s.orderedCur = 0
  release : ∀ t, s.release t = 0
  owner : s.orderedOwner = none
  grants : s.grants = []
  pc : ∀ t, (s.pc t).claim t = none ∨ s.pc t = .nextLock ∨ s.pc t = .nextLocked
  wait : ∀ t next, s.pc t ≠ .syncWait next

theorem Solo.setPc (h : Solo s) (hc : p.claim t = none ∨ p = .nextLock ∨ p = .nextLocked)
    (hw : ∀ next, p ≠ .syncWait next) : Solo (s.setPc t p) := by
  refine ⟨h.numUsed,h.cur,h.release,h.owner,h.grants,fun x => ?_,fun x next => ?_⟩
  · by_cases hx : x = t
    · subst hx
      simpa [State.setPc] using hc
    · simpa [State.setPc, hx] using h.pc x
  · by_cases hx : x = t
    · subst hx
      simpa [State.setPc] using hw next
    · simpa [State.setPc, hx] using h.wait x next

theorem Solo.congr (h : Solo s) (l : Option ℕ) (a : List ℕ) : Solo { s with lock := l, allocs := a } :=
  ⟨h.numUsed,h.cur,h.release,h.owner,h.grants,h.pc,h.wait⟩

theorem step_solo {e : Event} (h : Solo s) (hs : step 1 s e = some s') : Solo s' := by
  cases e with
  | loopStart t =>
    obtain ⟨-,hs⟩ := Option.ite_none_right_eq_some.mp hs
    obtain rfl := Option.some.inj hs
    exact h.setPc (Or.inl rfl) (by simp)
  | orderedStart t =>
    obtain ⟨-,hs⟩ := Option.ite_none_right_eq_some.mp hs
    obtain rfl := Option.some.inj hs
    exact h.setPc (Or.inl rfl) (by simp)
  | loopNext t =>
    obtain ⟨-,hs⟩ := Option.ite_none_right_eq_some.mp hs
    obtain rfl := Option.some.inj hs
    exact h.setPc (Or.inl rfl) (by simp)
  | advance t more =>
    have hp := h.pc t
    change advance 1 s t more = some s' at hs
    unfold advance at hs
    split at hs
    case h_1 => cases hs
    case h_2 => cases hs
    case h_3 =>
      obtain ⟨-,hs⟩ := Option.ite_none_right_eq_some.mp hs
      obtain rfl := Option.some.inj hs
      exact (h.congr (some t) s.allocs).setPc (Or.inl rfl) (by simp)
    case h_4 =>
      split at hs <;> obtain rfl := Option.some.inj hs
      · exact (h.congr s.lock (s.allocs ++ [t])).setPc (Or.inl rfl) (by simp)
      · exact h.setPc (Or.inl rfl) (by simp)
    case h_5 =>
      obtain rfl := Option.some.inj hs
      exact h.setPc (Or.inl rfl) (by simp)
    case h_6 next hpc =>
      rw [if_pos (Or.inl rfl)] at hs
      obtain rfl := Option.some.inj hs
      cases next with
      | true => exact h.setPc (Or.inr (Or.inl rfl)) (by simp [afterSync])
      | false => exact h.setPc (Or.inl rfl) (by simp [afterSync])
    case h_7 next hpc => exact absurd hpc (h.wait t next)
    case h_8 hpc => simp [hpc, Pc.claim] at hp
    case h_9 =>
      obtain ⟨-,hs⟩ := Option.ite_none_right_eq_some.mp hs
      obtain rfl := Option.some.inj hs
      exact (h.congr (some t) s.allocs).setPc (Or.inr (Or.inr rfl)) (by simp)
    case h_10 =>
      obtain rfl := Option.some.inj hs
      exact (h.congr s.lock _).setPc (Or.inl rfl) (by simp)
    case h_11 hpc => simp [hpc, Pc.claim] at hp
    case h_12 hpc => simp [hpc, Pc.claim] at hp
    case h_13 hpc => simp [hpc, Pc.claim] at hp
    case h_14 hpc => simp [hpc, Pc.claim] at hp
    case h_15 more hpc =>
      obtain rfl := Option.some.inj hs
      cases more with
      | true => exact (h.congr none s.allocs).setPc (Or.inl rfl) (by simp)
      | false => exact (h.congr none s.allocs).setPc (Or.inl rfl) (by simp)

theorem init_solo : Solo init :=
  ⟨rfl,rfl,fun _ => rfl,rfl,rfl,fun _ => Or.inl rfl,fun _ _ => by simp [init]⟩

/-- What holds of the queue, the releases and the order of entry. -/
structure OrderedOk (nthreads : ℕ) (s : State) : Prop where
  order : s.grants <+: s.allocs
  owner : ∀ t, s.orderedOwner = some t → s.grants.getLast? = some t
  busy : 0 < s.orderedNumUsed → ∃ t < nthreads, tokens s t = 1 ∧ ∀ t', t' ≠ t → tokens s t' = 0
  empty : s.orderedNumUsed = 0 → ∀ t, tokens s t = 0
  cur_lt : s.orderedCur < nthreads
  numUsed_le : s.orderedNumUsed ≤ nthreads
  nodup : (queue nthreads s).Nodup
  lt : ∀ t ∈ queue nthreads s, t < nthreads

theorem Inv.ok (h : Inv nthreads s token done) : OrderedOk nthreads s := by
  have hlen := length_queue nthreads s
  have hhead := h.head
  constructor
  case order =>
    rw [h.grants,h.allocs]
    cases hQ : queue nthreads s with
    | nil =>
      rw [hQ] at hhead
      cases token with
      | none => simp [Token.granted]
      | _ => cases hhead
    | cons x Q =>
      rw [hQ] at hhead
      cases token <;> simp_all [Token.granted, Token.head]
  case owner =>
    intro t ht
    rw [h.owner] at ht
    rw [h.grants]
    cases token <;> simp_all [Token.granted, Token.owner]
  case busy =>
    intro hpos
    cases hh : token.holder with
    | none =>
      have hnone : (queue nthreads s).head? = none := by
        rw [hhead]
        cases token <;> first | rfl | cases hh
      rw [List.head?_eq_none_iff.mp hnone] at hlen
      exact absurd hlen (Nat.ne_of_lt hpos)
    | some t =>
      refine ⟨t,h.holder_lt hh,by rw [h.tokens_eq,if_pos hh],fun t' hne => ?_⟩
      rw [h.tokens_eq,if_neg]
      rw [hh]
      exact fun he => hne (Option.some.inj he).symm
  case empty =>
    intro hz t
    have hnone : token.head = none := by
      rw [← hhead,List.eq_nil_of_length_eq_zero (hlen.trans hz)]
      rfl
    rw [h.tokens_eq,if_neg]
    cases token with
    | none => simp [Token.holder]
    | _ => cases hnone
  case cur_lt => exact h.cur_lt
  case numUsed_le => exact h.numUsed_le
  case nodup => exact h.nodup
  case lt => exact fun t ht => h.lt_of_mem ht

theorem Solo.ok (h : Solo s) : OrderedOk 1 s := by
  have hq : queue 1 s = [] := List.eq_nil_of_length_eq_zero (by rw [length_queue,h.numUsed])
  constructor
  case order =>
    rw [h.grants]
    exact List.nil_prefix
  case owner =>
    intro t ht
    rw [h.owner] at ht
    cases ht
  case busy =>
    intro hpos
    rw [h.numUsed] at hpos
    exact absurd hpos (lt_irrefl 0)
  case empty =>
    intro _ t
    have hh : (s.pc t).handsOver = false := by
      have hp := h.pc t
      cases hpc : s.pc t <;> simp_all [Pc.claim, Pc.handsOver]
    simp [tokens, h.release t, h.owner, hh]
  case cur_lt =>
    rw [h.cur]
    decide
  case numUsed_le =>
    rw [h.numUsed]
    decide
  case nodup =>
    rw [hq]
    exact List.nodup_nil
  case lt =>
    rw [hq]
    simp

/-- In every interleaving the threads pass their semaphores in the order of the allocations of their
chunks; while the queue is not empty one thread has the one release or is the owner, and no other
has any; the circular buffer holds different thread ids from `ordered_cur` on. -/
theorem ordered_regions (nthreads : ℕ) (hT : 0 < nthreads) (es : List Event) (s : State)
    (hr : run (step nthreads) init es = some s) : OrderedOk nthreads s := by
  by_cases h1 : nthreads = 1
  · subst h1
    have hstep : ∀ s e s', Solo s → True → step 1 s e = some s' → Solo s' := fun _ _ _ hi _ hs => step_solo hi hs
    have hinv : Solo s := run_invariant hstep init_solo (along_true _ es) hr
    exact hinv.ok
  · have hstep : ∀ s e s', Explained nthreads s → True → step nthreads s e = some s' → Explained nthreads s' :=
      fun _ _ _ hi _ hs => step_explained h1 hi hs
    have hinv : Explained nthreads s :=
      run_invariant hstep ⟨_,_,init_inv (by omega)⟩ (along_true _ es) hr
    obtain ⟨token,done,h⟩ := hinv
    exact h.ok

/-- Thread 1 gets the second chunk while thread 0 is in the ordered region of the first one, and
thread 0 comes back for a third chunk. -/
def threeChunks : List Event :=
  [.loopStart 0,.advance 0 true,.advance 0 true,.advance 0 true,.advance 0 true,.advance 0 true,
   .loopStart 1,.advance 1 true,.advance 1 true,.orderedStart 0,.advance 0 true,.advance 0 true,.advance 1 true,
   .advance 1 true,.orderedStart 1,.advance 0 true,.loopNext 0,.advance 0 true,.advance 1 true,.advance 0 true,
   .advance 0 true,.advance 0 true,.advance 0 true,.advance 0 true,.advance 1 true,.advance 0 true]

theorem ordered_regions_threeChunks :
    ∃ s, run (step 2) init threeChunks = some s ∧ s.allocs = [0,1,0] ∧ s.grants = [0,1] ∧ OrderedOk 2 s := by
  refine ⟨_,rfl,rfl,rfl,?_⟩
  exact ordered_regions 2 (by decide) threeChunks _ rfl

end GompUlt.Ordered
