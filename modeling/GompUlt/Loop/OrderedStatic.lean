import GompUlt.Loop.StaticSched
import GompUlt.Lib.Run

/-! # Ordered regions of static loops

The chunks are numbered, and the right to the ordered region goes from the thread of one chunk to the thread of
the next one by a post to that thread's semaphore.  The semaphores belong to the team and outlive the loop.
-/
namespace GompUlt.OrderedStatic
open Run Iter

/-- Where a thread stands.  `region` is the value of the loop variable whose ordered region is to be entered, none
when `gomp_ordered_sync` is called by the next-chunk operation; `more` tells whether that one found a chunk. -/
inductive Pc where
  | outside
  | initPost
  | initDone
  | waitInit
  | first
  | body
  | sync (region : Option ℤ)
  | syncWait (region : Option ℤ)
  | syncSet (region : Option ℤ)
  | inside
  | nextLock
  | nextLocked
  | clearOwner (more : Bool)
  | setId (more : Bool)
  | posting (more : Bool)
  | unlocking (more : Bool)
  | finished
deriving DecidableEq, Repr

/-- `static_trip`, the value of the loop variable that comes next in the chunk, and the bound of the chunk. -/
structure Thread where
  pc : Pc
  trip : ℤ
  pos : ℤ
  stop : ℤ
deriving DecidableEq, Repr

/-- The fields of the work share, the semaphores and the threads.  `log` are the values of the loop variable for
which an ordered region was entered. -/
structure State where
  created : Bool
  ready : Bool
  orderedOwner : Option ℕ
  orderedTeamId : ℕ
  release : ℕ → ℕ
  lock : Option ℕ
  thr : ℕ → Thread
  log : List ℤ

/-- Before the first thread arrives, the semaphores being all down. -/
def init : State where
  created := false
  ready := false
  orderedOwner := none
  orderedTeamId := 0
  release _ := 0
  lock := none
  thr _ := ⟨.outside,0,0,0⟩
  log := []

def State.set (s : State) (t : ℕ) (v : Thread) : State := { s with thr := Function.update s.thr t v }

def State.setPc (s : State) (t : ℕ) (p : Pc) : State := s.set t { s.thr t with pc := p }

/-- The stores of `gomp_iter_static_next`. -/
def Thread.receive (v : Thread) (r : Static.Reply) : Thread :=
  match r.range with
  | some c => { v with trip := r.trip, pos := c.1, stop := c.2 }
  | none => { v with trip := r.trip }

section Step
variable (next : ℕ → ℤ → Option Static.Reply) (incr : ℤ) (nthreads : ℕ)

/-- The numerically next thread. -/
def nextId (t : ℕ) : ℕ := if t + 1 = nthreads then 0 else t + 1

/-- What `gomp_ordered_sync` returns to. -/
def enter (s : State) (t : ℕ) : Option ℤ → State
  | none => s.setPc t .nextLock
  | some x => { s with log := s.log ++ [x] }.set t { s.thr t with pc := .inside, pos := x + incr }

/-- Where `gomp_loop_ordered_static_next` goes on with what the iterator returned. -/
def afterNext (ret : ℤ) : Pc :=
  if ret < 0 ∨ nthreads = 1 then .unlocking (ret = 0) else .clearOwner (ret = 0)

/-- The next access of a thread to shared data. -/
def advance (s : State) (t : ℕ) : Option State :=
  match (s.thr t).pc with
  | .outside | .body | .inside | .finished => none
  | .initPost =>
    some ({ s with release := if nthreads = 1 then s.release else Function.update s.release 0 (s.release 0 + 1) }.setPc t
      .initDone)
  | .initDone => some ({ s with ready := true }.setPc t .first)
  | .waitInit => if s.ready = true then some (s.setPc t .first) else none
  | .first =>
    (next t (s.thr t).trip).map fun r =>
      s.set t { (s.thr t).receive r with pc := if r.ret = 0 then .body else .finished }
  | .sync region =>
    if nthreads = 1 ∨ s.orderedOwner = some t then some (enter incr s t region) else some (s.setPc t (.syncWait region))
  | .syncWait region =>
    if 0 < s.release t then
      some ({ s with release := Function.update s.release t (s.release t - 1) }.setPc t (.syncSet region))
    else none
  | .syncSet region => some (enter incr { s with orderedOwner := some t } t region)
  | .nextLock => if s.lock = none then some ({ s with lock := some t }.setPc t .nextLocked) else none
  | .nextLocked =>
    (next t (s.thr t).trip).map fun r => s.set t { (s.thr t).receive r with pc := afterNext nthreads r.ret }
  | .clearOwner more => some ({ s with orderedOwner := none }.setPc t (.setId more))
  | .setId more => some ({ s with orderedTeamId := nextId nthreads t }.setPc t (.posting more))
  | .posting more =>
    let id := nextId nthreads t
    some ({ s with release := Function.update s.release id (s.release id + 1) }.setPc t (.unlocking more))
  | .unlocking more => some ({ s with lock := none }.setPc t (if more then .body else .finished))

/-- Calls of the compiled loop and the accesses they are made of.  A thread enters the ordered region of an
iteration of its chunk after it has skipped some. -/
inductive Event where
  | loopStart (t : ℕ)
  | orderedStart (t skip : ℕ)
  | orderedEnd (t : ℕ)
  | loopNext (t : ℕ)
  | advance (t : ℕ)
deriving DecidableEq, Repr

def step (s : State) : Event → Option State
  | .loopStart t =>
    if t < nthreads ∧ (s.thr t).pc = .outside then
      some ({ s with created := true }.set t
        { s.thr t with pc := if s.created then .waitInit else .initPost, trip := 0 })
    else none
  | .orderedStart t skip =>
    let x := (s.thr t).pos + skip * incr
    if (s.thr t).pc = .body ∧ (if 0 < incr then x < (s.thr t).stop else (s.thr t).stop < x) then
      some (s.setPc t (.sync (some x)))
    else none
  | .orderedEnd t => if (s.thr t).pc = .inside then some (s.setPc t .body) else none
  | .loopNext t => if (s.thr t).pc = .body then some (s.setPc t (.sync none)) else none
  | .advance t => advance next incr nthreads s t

/-- A thread that is in the middle of a call and cannot go on by itself. -/
def Blocked (s : State) (t : ℕ) : Prop :=
  (s.thr t).pc ∉ [Pc.outside,Pc.body,Pc.inside,Pc.finished] ∧ advance next incr nthreads s t = none

end Step

/-! ## The chunks -/
open Static (staticNext)

/-- The loop is dealt out in `C` chunks from cut to cut, chunk `c` to thread `c % nthreads`, and `trip c` is what
`static_trip` is then.  Only the call after the last chunk returns less than zero. -/
structure Dealt (A : Static.Args) (C : ℕ) (cut trip bound : ℕ → ℤ) : Prop where
  pos : 0 < C
  mono : Monotone cut
  zero : cut 0 = 0
  last : cut C = A.n
  bound_iff : ∀ c < C, ∀ y, 0 ≤ y → (before A.incr (A.value y) (bound c) ↔ y < cut (c + 1))
  first : ∀ i < A.nthreads, i < C → A.next i 0 = some ⟨trip i,0,some (A.value (cut i),bound i)⟩
  none : ∀ i < A.nthreads, C ≤ i → ∃ r, A.next i 0 = some r ∧ r.ret = 1
  again : ∀ c, c + A.nthreads < C → A.next (c % A.nthreads) (trip c) =
    some ⟨trip (c + A.nthreads),0,some (A.value (cut (c + A.nthreads)),bound (c + A.nthreads))⟩
  stops : ∀ c < C, C ≤ c + A.nthreads →
    ∃ r, A.next (c % A.nthreads) (trip c) = some r ∧ r.ret = if c + 1 = C then -1 else 1

variable {A : Static.Args}

theorem next_ullMax (i : ℕ) : A.next i ullMax = some ⟨ullMax,-1,none⟩ := by
  rw [Static.Args.next_eq, staticNext, if_pos rfl]

theorem dealt_single (hT : A.nthreads = 1) :
    Dealt A 1 (fun c => if c = 0 then 0 else A.n) (fun _ => ullMax) (fun _ => A.stop) where
  pos := Nat.one_pos
  mono := by
    intro c d hcd
    have hn := A.n_pos
    dsimp only
    split <;> split <;> omega
  zero := rfl
  last := rfl
  bound_iff c hc y hy := by
    obtain rfl : c = 0 := by omega
    have hspace := Bounds.mem_space (B := A.toBounds) (x := A.value y)
    constructor
    · intro hb
      obtain ⟨z,-,hz,hval⟩ := hspace.mp ⟨y.toNat,by rw [Int.toNat_of_nonneg hy]; rfl,hb⟩
      rw [Bounds.value_inj hval]
      exact hz
    · intro hlt
      obtain ⟨-,-,hb⟩ := hspace.mpr ⟨y,hy,hlt,rfl⟩
      exact hb
  first i hi hC := by
    have hne : A.start ≠ A.stop := by
      obtain ⟨-,-,hlt,-⟩ | ⟨-,-,hlt,-⟩ := A.up_or_down <;> omega
    obtain ⟨hstart,hstop⟩ := A.workShare_bounds
    rw [Static.Args.next_eq, staticNext, if_neg (by decide), if_pos (by omega), hstart, hstop, if_neg hne, if_pos (by omega)]
    simp [Bounds.value]
  none i hi hC := by omega
  again c hc := by omega
  stops c hc _ := by
    refine ⟨_,next_ullMax _,?_⟩
    rw [if_pos (by omega)]

/-- The threads that get a block. -/
theorem blockStart_lt_succ {i : ℕ} (hi : i < A.nthreads) :
    A.blockStart i < A.blockStart (i + 1) ↔ i < min A.n.toNat A.nthreads := by
  have hn := A.n_pos
  have hsucc := Static.Args.blockStart_succ (A := A) i
  rw [hsucc]
  obtain hle | hlt := le_or_gt (A.nthreads : ℤ) A.n
  · have hq : 1 ≤ A.n / A.nthreads := (Int.le_ediv_iff_mul_le (by omega)).mpr (by omega)
    split <;> omega
  · rw [Int.ediv_eq_zero_of_lt hn.le hlt, Int.emod_eq_of_lt hn.le hlt]
    split <;> omega

theorem blockStart_last : A.blockStart (min A.n.toNat A.nthreads) = A.n := by
  have hn := A.n_pos
  obtain hle | hlt := le_or_gt (A.nthreads : ℤ) A.n
  · rw [min_eq_right (by omega), Static.Args.blockStart_nthreads]
  · rw [min_eq_left (by omega), Static.Args.blockStart, Int.ediv_eq_zero_of_lt hn.le hlt, Int.emod_eq_of_lt hn.le hlt]
    omega

theorem blockStart_eq_n {i : ℕ} (hi : i < min A.n.toNat A.nthreads) :
    A.blockStart (i + 1) = A.n ↔ i + 1 = min A.n.toNat A.nthreads := by
  constructor
  · intro h
    by_contra hne
    have hlt := (blockStart_lt_succ (A := A) (i := i + 1) (by omega)).mpr (by omega)
    have hmono := Static.Args.blockStart_mono (A := A) (show i + 1 + 1 ≤ min A.n.toNat A.nthreads by omega)
    rw [blockStart_last] at hmono
    omega
  · intro h
    rw [h, blockStart_last]

theorem dealt_blocks (hT : 1 < A.nthreads) (hc : A.chunkSize = 0) (hw : A.NoWrap) :
    Dealt A (min A.n.toNat A.nthreads) (fun c => A.blockStart (min c A.nthreads))
      (fun c => if c + 1 = min A.n.toNat A.nthreads then ullMax else 1)
      (fun c => A.value (A.blockStart (min (c + 1) A.nthreads))) where
  pos := by
    have hn := A.n_pos
    omega
  mono := fun c d hcd => Static.Args.blockStart_mono (min_le_min_right _ hcd)
  zero := by rw [Nat.zero_min, Static.Args.blockStart_zero]
  last := by rw [min_eq_left (min_le_right _ _), blockStart_last]
  bound_iff c hc y hy := Bounds.before_value
  first i hi hC := by
    rw [Static.Args.next_block hT hc hw hi, if_pos ((blockStart_lt_succ hi).mpr hC), min_eq_left hi.le,
      min_eq_left (show i + 1 ≤ A.nthreads from hi)]
    simp only [blockStart_eq_n hC]
  none i hi hC := by
    refine ⟨_,Static.Args.next_block hT hc hw hi,?_⟩
    rw [if_neg]
    rw [blockStart_lt_succ hi]
    omega
  again c hC := by omega
  stops c hC _ := by
    by_cases hlast : c + 1 = min A.n.toNat A.nthreads
    · rw [if_pos hlast, if_pos hlast]
      exact ⟨_,next_ullMax _,rfl⟩
    · rw [if_neg hlast, if_neg hlast]
      refine ⟨⟨1,1,none⟩,?_,rfl⟩
      rw [Static.Args.next_eq, staticNext, if_neg (by decide), if_neg (by omega), Static.Args.workShare_chunkSize,
        if_pos (by omega), if_pos (by decide)]

theorem dealt_chunks (hT : 1 < A.nthreads) (hc : A.chunkSize ≠ 0) (hw : A.NoWrap) :
    Dealt A A.numChunks A.chunkStart (fun c => if c + 1 = A.numChunks then ullMax else (c / A.nthreads + 1 : ℕ))
      (fun c => A.value (A.chunkStart (c + 1))) where
  pos := Static.Args.numChunks_pos hc
  mono := Static.Args.chunkStart_mono
  zero := Static.Args.chunkStart_zero
  last := (Static.Args.chunkStart_eq_n hc).mpr le_rfl
  bound_iff c hc y hy := Bounds.before_value
  first i hi hC := by
    have h := Static.Args.next_chunk (i := i) (k := 0) hT hc hw (by omega)
    rw [Nat.zero_mul, Nat.zero_add] at h
    rw [Nat.div_eq_of_lt hi]
    exact h
  none i hi hC := by
    have hpos := Static.Args.numChunks_pos hc
    exact ⟨_,Static.Args.next_none (i := i) (k := 0) hT hc hw (by omega) (by omega),rfl⟩
  again c hC := by
    have hidx : (c / A.nthreads + 1) * A.nthreads + c % A.nthreads = c + A.nthreads := by
      have hdiv := Nat.div_add_mod' c A.nthreads
      rw [add_mul, one_mul]
      omega
    have h := Static.Args.next_chunk (i := c % A.nthreads) (k := c / A.nthreads + 1) hT hc hw (by omega)
    rw [hidx] at h
    rw [if_neg (by omega), h, Nat.add_div_right _ A.nthreads_pos]
    rfl
  stops c hC hC' := by
    by_cases hlast : c + 1 = A.numChunks
    · rw [if_pos hlast, if_pos hlast]
      exact ⟨_,next_ullMax _,rfl⟩
    · have hidx : (c / A.nthreads + 1) * A.nthreads + c % A.nthreads = c + A.nthreads := by
        have hdiv := Nat.div_add_mod' c A.nthreads
        rw [add_mul, one_mul]
        omega
      rw [if_neg hlast, if_neg hlast]
      exact ⟨_,Static.Args.next_none (i := c % A.nthreads) hT hc hw (by omega) (by omega),rfl⟩

theorem exists_dealt (hw : A.NoWrap) : ∃ C cut trip bound, Dealt A C cut trip bound := by
  have hpos := A.nthreads_pos
  obtain hT | hT := eq_or_lt_of_le (show 1 ≤ A.nthreads from hpos)
  · exact ⟨_,_,_,_,dealt_single hT.symm⟩
  · by_cases hc : A.chunkSize = 0
    · exact ⟨_,_,_,_,dealt_blocks hT hc hw⟩
    · exact ⟨_,_,_,_,dealt_chunks hT hc hw⟩

/-! ## The right to the ordered region -/

/-- Where the right is: not given out yet, on a semaphore, with a thread that has passed its semaphore, with the
owner, with a thread that gives it up, with one that will post, or left behind by the last chunk. -/
inductive Stage where
  | unposted
  | posted
  | taken
  | owned
  | clearing
  | handing
  | passed
deriving DecidableEq

/-- The thread that has the right; `turn` is the number of the chunks that are left behind. -/
def Stage.holder (nthreads turn : ℕ) : Stage → Option ℕ
  | .taken | .owned => some (turn % nthreads)
  | .clearing | .handing => some ((turn - 1) % nthreads)
  | .unposted | .posted | .passed => none

/-- The value of `ordered_owner`. -/
def Stage.owner (nthreads turn : ℕ) : Stage → Option ℕ
  | .owned => some (turn % nthreads)
  | .clearing | .passed => some ((turn - 1) % nthreads)
  | .unposted | .posted | .taken | .handing => none

namespace Pc

/-- What a thread knows of the right from where it stands. -/
def claim : Pc → Option Stage
  | .syncSet _ => some .taken
  | .inside | .nextLock | .nextLocked => some .owned
  | .clearOwner _ => some .clearing
  | .setId _ | .posting _ => some .handing
  | _ => none

/-- The thread has not asked for its first chunk. -/
def early : Pc → Bool
  | .outside | .initPost | .initDone | .waitInit | .first => true
  | _ => false

/-- The thread has a chunk. -/
def within : Pc → Bool
  | .body | .sync _ | .syncWait _ | .syncSet _ | .inside | .nextLock | .nextLocked => true
  | .clearOwner more | .setId more | .posting more | .unlocking more => more
  | _ => false

/-- The thread has been told that there is no chunk left for it. -/
def late : Pc → Bool
  | .finished => true
  | .clearOwner more | .setId more | .posting more | .unlocking more => !more
  | _ => false

/-- The thread holds the lock of the work share. -/
def locked : Pc → Bool
  | .nextLocked | .clearOwner _ | .setId _ | .posting _ | .unlocking _ => true
  | _ => false

/-- The iteration whose ordered region the thread wants to enter. -/
def region : Pc → Option ℤ
  | .sync region | .syncWait region | .syncSet region => region
  | _ => none

end Pc

section Invariant
variable (A : Static.Args) (C : ℕ) (cut trip bound : ℕ → ℤ)

/-- The chunk that a thread has or would have next is `c`, the first of its chunks that is not left behind. -/
structure Seat (turn t : ℕ) (v : Thread) (c : ℕ) : Prop where
  mod : c % A.nthreads = t
  low : turn ≤ c
  high : c < turn + A.nthreads
  early : v.pc.early = true → c = t ∧ (v.pc ≠ .outside → v.trip = 0)
  within : v.pc.within = true →
    c < C ∧ v.trip = trip c ∧ v.stop = bound c ∧ ∃ z, v.pos = A.value z ∧ cut c ≤ z ∧ z ≤ cut (c + 1)
  late : v.pc.late = true → C ≤ c
  region : ∀ x, v.pc.region = some x → ∃ y z, x = A.value y ∧ v.pos = A.value z ∧ z ≤ y ∧ y < cut (c + 1)

/-- What holds of one thread. -/
structure Local (turn : ℕ) (stage : Stage) (owner lock : Option ℕ) (t : ℕ) (v : Thread) : Prop where
  lt : v.pc ≠ .outside → t < A.nthreads
  seat : t < A.nthreads → ∃ c, Seat A C cut trip bound turn t v c
  claim : ∀ st, v.pc.claim = some st → stage = st ∧ st.holder A.nthreads turn = some t
  waiting : ∀ region, v.pc = .syncWait region → A.nthreads ≠ 1 ∧ owner ≠ some t
  locked : v.pc.locked = true ↔ lock = some t
  started : v.pc ∉ [Pc.outside,Pc.initPost,Pc.waitInit] → stage ≠ .unposted
  poster : v.pc = .initPost → stage = .unposted

/-- The regions entered so far come one after the other, before what the thread whose turn it is goes on with. -/
def LogOk (turn : ℕ) (stage : Stage) (v : Thread) (log : List ℤ) : Prop :=
  ∃ ys : List ℤ, log = ys.map A.value ∧ ys.Pairwise (· < ·) ∧ (∀ y ∈ ys, 0 ≤ y ∧ y < A.n) ∧
    ((∀ y ∈ ys, y < cut turn) ∨
      stage = .owned ∧ v.pc.within = true ∧ ∃ z, v.pos = A.value z ∧ ∀ y ∈ ys, y < z)

/-- What the right is and where it shows. -/
structure Right (turn : ℕ) (stage : Stage) (release : ℕ → ℕ) (owner : Option ℕ) : Prop where
  count : if stage = .passed then turn = C else turn < C
  unposted : stage = .unposted → turn = 0
  handed : stage = .clearing ∨ stage = .handing → 0 < turn
  solo : A.nthreads = 1 → stage = .unposted ∨ stage = .owned ∨ stage = .passed
  release : ∀ u, release u = if stage = .posted ∧ u = turn % A.nthreads then 1 else 0
  owner : A.nthreads ≠ 1 → owner = stage.owner A.nthreads turn

/-- The work share is made by the first thread to arrive. -/
structure Start (s : State) (stage : Stage) : Prop where
  fresh : s.created = false → stage = .unposted ∧ ∀ t, (s.thr t).pc = .outside
  creator : s.created = true → s.ready = true ∨ ∃ t, (s.thr t).pc = .initPost ∨ (s.thr t).pc = .initDone
  ready : s.ready = true → stage ≠ .unposted
  poster : ∀ t u, (s.thr t).pc = .initPost → (s.thr u).pc = .initPost → t = u

/-- The threads, the right and the log fit together. -/
structure Inv (s : State) (turn : ℕ) (stage : Stage) : Prop where
  right : Right A C turn stage s.release s.orderedOwner
  placed : ∀ u, stage.holder A.nthreads turn = some u → stage ≠ .owned → (s.thr u).pc.claim = some stage
  threads : ∀ t, Local A C cut trip bound turn stage s.orderedOwner s.lock t (s.thr t)
  start : Start s stage
  log : LogOk A cut turn stage (s.thr (turn % A.nthreads)) s.log

variable {A C cut trip bound}

theorem init_inv (hd : Dealt A C cut trip bound) : Inv A C cut trip bound init 0 .unposted where
  right := by
    refine ⟨?_,fun _ => rfl,by simp,fun _ => Or.inl rfl,fun u => ?_,fun _ => rfl⟩
    · rw [if_neg (by decide)]
      exact hd.pos
    · simp [init]
  placed u h := by cases h
  threads t := by
    refine ⟨fun h => absurd rfl h,fun ht => ⟨t,?_⟩,?_,?_,?_,?_,?_⟩
    · exact ⟨Nat.mod_eq_of_lt ht,Nat.zero_le _,by omega,fun _ => ⟨rfl,fun h => absurd rfl h⟩,by simp [init, Pc.within],
        by simp [init, Pc.late],by simp [init, Pc.region]⟩
    · simp [init, Pc.claim]
    · simp [init]
    · simp [init, Pc.locked]
    · simp [init]
    · simp [init]
  start := ⟨fun _ => ⟨rfl,fun _ => rfl⟩,by simp [init],by simp [init],by simp [init]⟩
  log := ⟨[],rfl,List.Pairwise.nil,by simp,Or.inl (by simp)⟩

/-! ## The threads that do not take the step -/

section Others
variable {turn turn' t u c : ℕ} {stage stage' : Stage} {owner owner' lock lock' : Option ℕ} {v : Thread}

/-- The chunk of the thread whose turn it is. -/
theorem Seat.eq_turn (h : Seat A C cut trip bound turn (turn % A.nthreads) v c) : c = turn := by
  have hsub := Nat.sub_mod_eq_zero_of_mod_eq h.mod
  have hlow := h.low
  have hhigh := h.high
  rw [Nat.mod_eq_of_lt (by omega)] at hsub
  omega

theorem Seat.next (h : Seat A C cut trip bound turn u v c) (hu : u ≠ turn % A.nthreads) :
    Seat A C cut trip bound (turn + 1) u v c := by
  have hmod := h.mod
  have hlow := h.low
  have hhigh := h.high
  have hne : c ≠ turn := by
    rintro rfl
    exact hu hmod.symm
  exact ⟨hmod,by omega,by omega,h.early,h.within,h.late,h.region⟩

theorem Local.other (h : Local A C cut trip bound turn stage owner lock u v)
    (hturn : turn' = turn ∨ turn' = turn + 1 ∧ u ≠ turn % A.nthreads)
    (hclaim : stage' = stage ∧ turn' = turn ∨ v.pc.claim = none)
    (howner : owner' = some u → owner = some u) (hlock : lock' = some u ↔ lock = some u)
    (hposted : stage' = stage ∨ stage' ≠ .unposted ∧ v.pc ≠ .initPost) :
    Local A C cut trip bound turn' stage' owner' lock' u v where
  lt := h.lt
  seat hu := by
    obtain ⟨c,hc⟩ := h.seat hu
    obtain rfl | ⟨rfl,hne⟩ := hturn
    · exact ⟨c,hc⟩
    · exact ⟨c,hc.next hne⟩
  claim st hst := by
    obtain ⟨rfl,rfl⟩ | hnone := hclaim
    · exact h.claim st hst
    · rw [hnone] at hst
      cases hst
  waiting region hp := by
    obtain ⟨hn,hne⟩ := h.waiting region hp
    exact ⟨hn,fun he => hne (howner he)⟩
  locked := h.locked.trans hlock.symm
  started hp := by
    obtain rfl | ⟨hne,-⟩ := hposted
    · exact h.started hp
    · exact hne
  poster hp := by
    obtain rfl | ⟨-,hne⟩ := hposted
    · exact h.poster hp
    · exact absurd hp hne

end Others

section Moves
variable {s s' : State} {turn turn' t c : ℕ} {stage stage' : Stage} {v : Thread} {p : Pc}

theorem Inv.step (h : Inv A C cut trip bound s turn stage) (hthr : s'.thr = Function.update s.thr t v)
    (hturn : turn' = turn ∨ turn' = turn + 1 ∧ t = turn % A.nthreads)
    (hclaim : stage' = stage ∧ turn' = turn ∨ ∀ u, u ≠ t → (s.thr u).pc.claim = none)
    (howner : ∀ u, u ≠ t → s'.orderedOwner = some u → s.orderedOwner = some u)
    (hlock : ∀ u, u ≠ t → (s'.lock = some u ↔ s.lock = some u))
    (hposted : stage' = stage ∨ stage' ≠ .unposted ∧ ∀ u, u ≠ t → (s.thr u).pc ≠ .initPost)
    (hlocal : Local A C cut trip bound turn' stage' s'.orderedOwner s'.lock t v)
    (hright : Right A C turn' stage' s'.release s'.orderedOwner)
    (hplaced : ∀ u, stage'.holder A.nthreads turn' = some u → stage' ≠ .owned → (s'.thr u).pc.claim = some stage')
    (hstart : Start s' stage') (hlog : LogOk A cut turn' stage' (s'.thr (turn' % A.nthreads)) s'.log) :
    Inv A C cut trip bound s' turn' stage' where
  right := hright
  placed := hplaced
  threads u := by
    rw [hthr]
    by_cases hu : u = t
    · subst hu
      rw [Function.update_self]
      exact hlocal
    · rw [Function.update_of_ne hu]
      refine (h.threads u).other ?_ ?_ (howner u hu) (hlock u hu) ?_
      · exact hturn.imp_right fun ⟨h1,h2⟩ => ⟨h1,h2 ▸ hu⟩
      · exact hclaim.imp_right fun h1 => h1 u hu
      · exact hposted.imp_right fun ⟨h1,h2⟩ => ⟨h1,h2 u hu⟩
  start := hstart
  log := hlog

/-- Only the holder claims the right. -/
theorem Inv.no_claim (h : Inv A C cut trip bound s turn stage)
    (ht : ∀ x, stage.holder A.nthreads turn = some x → x = t) (u : ℕ) (hu : u ≠ t) : (s.thr u).pc.claim = none := by
  cases hc : (s.thr u).pc.claim with
  | none => rfl
  | some st =>
    obtain ⟨rfl,hholder⟩ := (h.threads u).claim st hc
    exact absurd (ht u hholder) hu

theorem Inv.not_posting (h : Inv A C cut trip bound s turn stage) (hs : stage ≠ .unposted) (u : ℕ) :
    (s.thr u).pc ≠ .initPost :=
  fun hu => hs ((h.threads u).poster hu)

/-- The lock, seen by the others, when a thread without it takes it or one that has it gives it up. -/
theorem lock_free (hfree : s.lock = none) (u : ℕ) (hu : u ≠ t) :
    some t = some u ↔ s.lock = some u := by
  rw [hfree]
  simp [Ne.symm hu]

theorem Inv.lock_held (h : Inv A C cut trip bound s turn stage) (hpc : (s.thr t).pc.locked = true) (u : ℕ) (hu : u ≠ t) :
    none = some u ↔ s.lock = some u := by
  rw [(h.threads t).locked.mp hpc]
  simp [Ne.symm hu]

/-- The log is as it was when the thread is not within a chunk, or goes on at the same place of it. -/
theorem Inv.log_keep (h : Inv A C cut trip bound s turn stage) (hthr : s'.thr = Function.update s.thr t v)
    (hs : s'.log = s.log) (hpos : (s.thr t).pc.within = true → v.pos = (s.thr t).pos ∧ v.pc.within = true) :
    LogOk A cut turn stage (s'.thr (turn % A.nthreads)) s'.log := by
  obtain ⟨ys,hys,hsorted,hbounds,hlog⟩ := h.log
  refine ⟨ys,hs.trans hys,hsorted,hbounds,hlog.imp_right fun ⟨hst,hw,z,hz,hlt⟩ => ?_⟩
  rw [hthr]
  by_cases ht : turn % A.nthreads = t
  · rw [ht] at hw hz ⊢
    rw [Function.update_self]
    exact ⟨hst,(hpos hw).2,z,(hpos hw).1.trans hz,hlt⟩
  · rw [Function.update_of_ne ht]
    exact ⟨hst,hw,z,hz,hlt⟩

/-- Outside the time it is owned, the right says only that all regions belong to chunks left behind. -/
theorem Inv.log_low (h : Inv A C cut trip bound s turn stage) (hs : stage ≠ .owned) (st : Stage) (x : Thread) :
    LogOk A cut turn st x s.log := by
  obtain ⟨ys,hys,hsorted,hbounds,hlog⟩ := h.log
  exact ⟨ys,hys,hsorted,hbounds,Or.inl (hlog.resolve_right fun hr => hs hr.1)⟩

theorem Start.keep (h : Start s stage) (hthr : s'.thr = Function.update s.thr t v) (hc : s'.created = s.created)
    (hr : s'.ready = s.ready) (hun : stage' = .unposted → stage = .unposted) (hout : (s.thr t).pc ≠ .outside)
    (hinit : (s.thr t).pc ≠ .initPost ∧ (s.thr t).pc ≠ .initDone) (hp : v.pc ≠ .initPost) : Start s' stage' where
  fresh hf := absurd ((h.fresh (hc ▸ hf)).2 t) hout
  creator hcr := by
    rw [hr]
    refine (h.creator (hc ▸ hcr)).imp_right fun ⟨u,hu⟩ => ⟨u,?_⟩
    have hne : u ≠ t := by
      rintro rfl
      exact hu.elim hinit.1 hinit.2
    rwa [hthr, Function.update_of_ne hne]
  ready hre hst := h.ready (hr ▸ hre) (hun hst)
  poster x y hx hy := by
    rw [hthr] at hx hy
    have hxt : x ≠ t := by
      rintro rfl
      rw [Function.update_self] at hx
      exact hp hx
    have hyt : y ≠ t := by
      rintro rfl
      rw [Function.update_self] at hy
      exact hp hy
    rw [Function.update_of_ne hxt] at hx
    rw [Function.update_of_ne hyt] at hy
    exact h.poster x y hx hy

/-- A step that leaves the right where it is. -/
theorem Inv.move (h : Inv A C cut trip bound s turn stage) (hthr : s'.thr = Function.update s.thr t v)
    (howner : s'.orderedOwner = s.orderedOwner) (hrel : s'.release = s.release) (hlog : s'.log = s.log)
    (hlock : ∀ u, u ≠ t → (s'.lock = some u ↔ s.lock = some u))
    (hlocal : Local A C cut trip bound turn stage s.orderedOwner s'.lock t v) (hstart : Start s' stage)
    (hclaim : v.pc.claim = (s.thr t).pc.claim ∨ stage = .owned ∨ (s.thr t).pc.claim = none)
    (hpos : (s.thr t).pc.within = true → v.pos = (s.thr t).pos ∧ v.pc.within = true) :
    Inv A C cut trip bound s' turn stage := by
  refine h.step hthr (Or.inl rfl) (Or.inl ⟨rfl,rfl⟩) (fun _ _ hu => howner ▸ hu) hlock (Or.inl rfl) ?_ ?_ ?_ hstart
    (h.log_keep hthr hlog hpos)
  · rw [howner]
    exact hlocal
  · rw [howner, hrel]
    exact h.right
  · intro u hu hne
    have hold := h.placed u hu hne
    rw [hthr]
    by_cases hut : u = t
    · subst hut
      rw [Function.update_self]
      obtain hsame | hown | hnone := hclaim
      · rw [hsame, hold]
      · exact absurd hown hne
      · rw [hnone] at hold
        cases hold
    · rw [Function.update_of_ne hut]
      exact hold

theorem Seat.setPc (h : Seat A C cut trip bound turn t v c)
    (he : p.early = true → v.pc.early = true ∧ v.pc ≠ .outside) (hw : p.within = true → v.pc.within = true)
    (hl : p.late = true → v.pc.late = true) (hr : ∀ x, p.region = some x → v.pc.region = some x) :
    Seat A C cut trip bound turn t { v with pc := p } c where
  mod := h.mod
  low := h.low
  high := h.high
  early hp := ⟨(h.early (he hp).1).1,fun _ => (h.early (he hp).1).2 (he hp).2⟩
  within hp := h.within (hw hp)
  late hp := h.late (hl hp)
  region x hx := h.region x (hr x hx)

end Moves

end Invariant

end GompUlt.OrderedStatic
