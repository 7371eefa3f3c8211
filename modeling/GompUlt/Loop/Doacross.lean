import GompUlt.Lib.Run
import GompUlt.Lib.LexPrefix
import Mathlib.Data.Fin.VecNotation
import Mathlib.Tactic.FinCases
import Mathlib.Tactic.Linarith

/-! # Doacross posts and waits, word by word

The shared array has one entry per thread (static schedules), per chunk (dynamic) or per outer
iteration (guided), and an entry holds one word per dimension.  A post and a wait are split into
their single loads and stores; the machine below interleaves them in every order.  The code path
is the one taken when `doacross->flattened` is false.
-/
namespace GompUlt.Doacross
open Run LexPrefix

/-- The schedules `gomp_doacross_init` tells apart. -/
inductive Sched where
  | static
  | dynamic
  | guided
deriving DecidableEq, Repr

/-- The zero-based range `[s0, e0)` that `gomp_iter_static_next` gives a thread when the chunk size is zero. -/
def staticRange (n nthreads i : ℕ) : ℕ × ℕ :=
  let q := n / nthreads
  let t := n % nthreads
  if i < t then ((q + 1) * i,(q + 1) * i + (q + 1)) else (q * i + t,q * i + t + q)

/-- Thread `i` gets iteration `v` from `gomp_iter_static_next`, for the whole loop or on some trip. -/
def StaticOwner (n nthreads chunkSize i v : ℕ) : Prop :=
  if chunkSize = 0 then (staticRange n nthreads i).1 ≤ v ∧ v < (staticRange n nthreads i).2
  else ∃ trip, (trip * nthreads + i) * chunkSize ≤ v ∧ v < (trip * nthreads + i) * chunkSize + chunkSize

/-- A doacross loop as `gomp_doacross_init` finds it, and the thread the schedule gave each outer
iteration to.  Under a static schedule the owner is fixed; a dynamic schedule gives a chunk to one
thread. -/
structure Loop (d : ℕ) where
  sched : Sched
  nthreads : ℕ
  chunkSize : ℕ
  counts : Fin (d + 1) → ℕ
  owner : ℕ → ℕ
  one_lt_nthreads : 1 < nthreads
  counts_lt : ∀ i, counts i < 2 ^ 63
  chunk_pos : sched = .dynamic → 0 < chunkSize
  owner_static : sched = .static → ∀ v < counts 0,
    owner v < nthreads ∧ StaticOwner (counts 0) nthreads chunkSize (owner v) v
  owner_dynamic : sched = .dynamic → ∀ u v, u / chunkSize = v / chunkSize → owner u = owner v

variable {d : ℕ} (L : Loop d)

abbrev Loop.Vec := {v : Fin (d + 1) → ℕ // ∀ i, v i < L.counts i}

/-- The entry `GOMP_doacross_post` writes for its caller's vector. -/
def Loop.postEnt (teamId : ℕ) (v : L.Vec) : ℕ :=
  match L.sched with
  | .static => teamId
  | .guided => v.1 0
  | .dynamic => v.1 0 / L.chunkSize

/-- The entry `GOMP_doacross_wait` reads for a sink. -/
def Loop.waitEnt (v : L.Vec) : ℕ :=
  match L.sched with
  | .static =>
    if L.chunkSize = 0 then
      let q := L.counts 0 / L.nthreads
      let t := L.counts 0 % L.nthreads
      let boundary := t * (q + 1)
      if v.1 0 < boundary then v.1 0 / (q + 1) else (v.1 0 - boundary) / q + t
    else v.1 0 / L.chunkSize % L.nthreads
  | .guided => v.1 0
  | .dynamic => v.1 0 / L.chunkSize

/-- The entries `gomp_doacross_init` allocates. -/
def Loop.numEnts : ℕ :=
  match L.sched with
  | .static => L.nthreads
  | .guided => L.counts 0
  | .dynamic => (L.counts 0 - 1) / L.chunkSize + 1

/-- The word stored for a count, `counts[i] + 1UL`. -/
def word (count : ℕ) : ℕ := (count + 1) % 2 ^ 64

/-- Where a thread stands between two memory accesses.  In `posting v i` the words from `i` on are
written, in `storing v i` word `i` was loaded and found different, in `waiting v i` the words below
`i` were loaded and found equal. -/
inductive Pc where
  | work
  | posting (v : L.Vec) (i : ℕ)
  | storing (v : L.Vec) (i : ℕ)
  | waiting (sink : L.Vec) (i : ℕ)
  | passed (sink : L.Vec)

/-- The array, the threads, and for each thread the vectors it has begun to post. -/
structure State where
  array : ℕ → ℕ → ℕ
  pc : ℕ → Pc L
  posts : ℕ → List L.Vec

/-- A thread enters a post or a wait, or makes its next memory access. -/
inductive Event where
  | post (r : ℕ) (v : L.Vec)
  | wait (r : ℕ) (sink : L.Vec)
  | access (r : ℕ)

variable {L}

/-- After `gomp_doacross_init` all words are zero. -/
def init : State L := ⟨fun _ _ => 0,fun _ => .work,fun _ => []⟩

def Pc.inBody : Pc L → Bool
  | .work | .passed _ => true
  | _ => false

def State.setPc (s : State L) (r : ℕ) (p : Pc L) : State L := { s with pc := Function.update s.pc r p }

def State.store (s : State L) (ent i x : ℕ) : State L :=
  { s with array := Function.update s.array ent (Function.update (s.array ent) i x) }

/-- One pass of the loop of `GOMP_doacross_post` up to its load: word `i`, the store follows when it differs. -/
def postLoad (s : State L) (r : ℕ) (v : L.Vec) (i : ℕ) : State L :=
  if h : i < d + 1 then
    if word (v.1 ⟨i,h⟩) ≠ s.array (L.postEnt r v) i then s.setPc r (.storing v i) else s.setPc r (.posting v i)
  else s

/-- One pass of the inner loop of `GOMP_doacross_wait`: a larger word ends the wait, a smaller one restarts it. -/
def waitLoad (s : State L) (r : ℕ) (sink : L.Vec) (i : ℕ) : State L :=
  if h : i < d + 1 then
    let thisv := word (sink.1 ⟨i,h⟩)
    let cur := s.array (L.waitEnt sink) i
    if thisv < cur then s.setPc r (.passed sink)
    else if thisv > cur then s.setPc r (.waiting sink 0)
    else s.setPc r (.waiting sink (i + 1))
  else s.setPc r (.passed sink)

/-- The next memory access of a thread inside the runtime. -/
def access (s : State L) (r : ℕ) : Option (State L) :=
  match s.pc r with
  | .work | .passed _ => none
  | .posting _ 0 => some (s.setPc r .work)
  | .posting v (i + 1) => some (postLoad s r v i)
  | .storing v i =>
    if h : i < d + 1 then some ((s.store (L.postEnt r v) i (word (v.1 ⟨i,h⟩))).setPc r (.posting v i)) else none
  | .waiting sink i => some (waitLoad s r sink i)

/-- A thread posts iterations it owns, in nondecreasing order; any thread may wait for any sink. -/
def step (s : State L) : Event L → Option (State L)
  | .post r v =>
    if (s.pc r).inBody ∧ L.owner (v.1 0) = r ∧ ∀ u ∈ s.posts r, LexLe u.1 v.1 then
      some ({ s with posts := Function.update s.posts r (s.posts r ++ [v]) }.setPc r (.posting v (d + 1)))
    else none
  | .wait r sink => if (s.pc r).inBody then some (s.setPc r (.waiting sink 0)) else none
  | .access r => access s r

/-! ## Entries -/

/-- The range of a thread in the division without chunks, in the form `GOMP_doacross_wait` inverts. -/
theorem staticRange_ent {n nthreads i v : ℕ} (hv : (staticRange n nthreads i).1 ≤ v)
    (hv' : v < (staticRange n nthreads i).2) :
    (if v < n % nthreads * (n / nthreads + 1) then v / (n / nthreads + 1)
      else (v - n % nthreads * (n / nthreads + 1)) / (n / nthreads) + n % nthreads) = i := by
  simp only [staticRange] at hv hv'
  generalize n / nthreads = q at *
  generalize n % nthreads = t at *
  split at hv
  case isTrue hi =>
    simp only [hi, if_true] at hv'
    have hb : (q + 1) * (i + 1) ≤ (q + 1) * t := Nat.mul_le_mul_left _ hi
    rw [if_pos (by linarith)]
    exact Nat.div_eq_of_lt_le (by linarith) (by linarith)
  case isFalse hi =>
    simp only [hi, if_false] at hv'
    obtain ⟨j,rfl⟩ := Nat.exists_eq_add_of_le (not_lt.mp hi)
    have hb : t * (q + 1) + q * j ≤ v := by linarith
    rw [if_neg (by have := Nat.zero_le (q * j); linarith)]
    obtain ⟨w,rfl⟩ := Nat.exists_eq_add_of_le hb
    have hw : w < q := by linarith
    have hsub : t * (q + 1) + q * j + w - t * (q + 1) = w + q * j := by omega
    rw [hsub,Nat.add_mul_div_left _ _ (by omega),Nat.div_eq_of_lt hw]
    omega

/-- The entry of a wait is the owner under a static schedule. -/
theorem Loop.waitEnt_static (hs : L.sched = .static) (v : L.Vec) : L.waitEnt v = L.owner (v.1 0) := by
  obtain ⟨hlt,hown⟩ := L.owner_static hs (v.1 0) (v.2 0)
  simp only [Loop.waitEnt, hs]
  unfold StaticOwner at hown
  split
  case isTrue hc =>
    rw [if_pos hc] at hown
    exact staticRange_ent hown.1 hown.2
  case isFalse hc =>
    rw [if_neg hc] at hown
    obtain ⟨trip,hlo,hhi⟩ := hown
    rw [Nat.div_eq_of_lt_le hlo (by linarith),Nat.mul_add_mod_of_lt hlt]

/-- An owner posts in the entry the waits for its iterations read. -/
theorem Loop.postEnt_eq {r : ℕ} {v : L.Vec} (h : L.owner (v.1 0) = r) : L.postEnt r v = L.waitEnt v := by
  cases hs : L.sched
  case static => simp [Loop.postEnt, hs, L.waitEnt_static hs, h]
  case dynamic => simp [Loop.postEnt, Loop.waitEnt, hs]
  case guided => simp [Loop.postEnt, Loop.waitEnt, hs]

/-- An entry has one writer. -/
theorem Loop.owner_eq {u v : L.Vec} (h : L.waitEnt u = L.waitEnt v) : L.owner (u.1 0) = L.owner (v.1 0) := by
  cases hs : L.sched
  case static => rwa [L.waitEnt_static hs,L.waitEnt_static hs] at h
  case dynamic =>
    simp only [Loop.waitEnt, hs] at h
    exact L.owner_dynamic hs _ _ h
  case guided =>
    simp only [Loop.waitEnt, hs] at h
    rw [h]

theorem Loop.waitEnt_lt (v : L.Vec) : L.waitEnt v < L.numEnts := by
  cases hs : L.sched
  case static =>
    simp only [Loop.numEnts, hs]
    rw [L.waitEnt_static hs]
    exact (L.owner_static hs (v.1 0) (v.2 0)).1
  case dynamic =>
    simp only [Loop.numEnts, Loop.waitEnt, hs]
    have hv := v.2 0
    exact Nat.lt_succ_of_le (Nat.div_le_div_right (by omega))
  case guided =>
    simp only [Loop.numEnts, Loop.waitEnt, hs]
    exact v.2 0

theorem word_eq (v : L.Vec) (i : Fin (d + 1)) : word (v.1 i) = v.1 i + 1 := by
  have hv := v.2 i
  have hc := L.counts_lt i
  exact Nat.mod_eq_of_lt (by omega)

/-! ## The posts behind the words -/

/-- What is known about a thread, given the post `src e k` that word `k` of entry `e` comes from.
A waiting thread has read a prefix that some post `u` is not below, and every later word comes from
`u` or from a later post. -/
def PcOk (posts : ℕ → List L.Vec) (src : ℕ → Fin (d + 1) → Option L.Vec) (r : ℕ) : Pc L → Prop
  | .work => True
  | .posting v i => v ∈ posts r ∧ (∀ u ∈ posts r, LexLe u.1 v.1) ∧
      ∀ k : Fin (d + 1), i ≤ k.val → src (L.waitEnt v) k = some v
  | .storing v i => v ∈ posts r ∧ (∀ u ∈ posts r, LexLe u.1 v.1) ∧
      ∀ k : Fin (d + 1), i < k.val → src (L.waitEnt v) k = some v
  | .waiting sink i => i = 0 ∨ ∃ u ∈ posts (L.owner (sink.1 0)), LexUpTo i sink.1 u.1 ∧
      ∀ k : Fin (d + 1), i ≤ k.val + 1 → ∃ w, src (L.waitEnt sink) k = some w ∧ LexLe u.1 w.1
  | .passed sink => ∃ u ∈ posts (L.owner (sink.1 0)), LexLe sink.1 u.1

/-- The words of an entry come from posts of its owner, later words from later posts. -/
structure Sourced (s : State L) (src : ℕ → Fin (d + 1) → Option L.Vec) : Prop where
  array : ∀ e (k : Fin (d + 1)), s.array e k = (src e k).elim 0 fun v => word (v.1 k)
  posted : ∀ e k v, src e k = some v → v ∈ s.posts (L.owner (v.1 0)) ∧ L.waitEnt v = e
  mono : ∀ e j k u, j ≤ k → src e j = some u → ∃ v, src e k = some v ∧ LexLe u.1 v.1
  owned : ∀ r, ∀ u ∈ s.posts r, L.owner (u.1 0) = r
  pc : ∀ r, PcOk s.posts src r (s.pc r)

theorem init_sourced : Sourced (init : State L) fun _ _ => none where
  array _ _ := rfl
  posted _ _ _ h := by cases h
  mono _ _ _ _ _ h := by cases h
  owned _ _ h := by cases h
  pc _ := trivial

variable {s s' : State L} {src : ℕ → Fin (d + 1) → Option L.Vec} {r : ℕ}

/-- A thread may be moved to a state that is known to be right. -/
theorem Sourced.setPc (h : Sourced s src) {p : Pc L} (hp : PcOk s.posts src r p) :
    Sourced (s.setPc r p) src where
  array := h.array
  posted := h.posted
  mono := h.mono
  owned := h.owned
  pc r' := by
    by_cases hr : r' = r
    · subst hr
      simpa [State.setPc] using hp
    · simpa [State.setPc, hr] using h.pc r'

/-- More posts leave what is known about the other threads. -/
theorem PcOk.mono_posts {posts posts' : ℕ → List L.Vec} {p : Pc L} (h : PcOk posts src r p)
    (hsub : ∀ r', posts r' ⊆ posts' r') (hr : posts' r = posts r) : PcOk posts' src r p := by
  cases p with
  | work => trivial
  | posting v i => simpa only [PcOk, hr] using h
  | storing v i => simpa only [PcOk, hr] using h
  | waiting sink i =>
    obtain h | ⟨u,hu,hrest⟩ := h
    · exact Or.inl h
    · exact Or.inr ⟨u,hsub _ hu,hrest⟩
  | passed sink =>
    obtain ⟨u,hu,hle⟩ := h
    exact ⟨u,hsub _ hu,hle⟩

/-- A thread begins a post of an iteration it owns. -/
theorem Sourced.post (h : Sourced s src) {v : L.Vec} (hown : L.owner (v.1 0) = r)
    (hmax : ∀ u ∈ s.posts r, LexLe u.1 v.1) :
    Sourced ({ s with posts := Function.update s.posts r (s.posts r ++ [v]) }.setPc r (.posting v (d + 1))) src where
  array := h.array
  posted e k u hu := by
    obtain ⟨hmem,he⟩ := h.posted e k u hu
    refine ⟨?_,he⟩
    by_cases hr : L.owner (u.1 0) = r
    · rw [hr] at hmem ⊢
      simp [State.setPc, hmem]
    · simpa [State.setPc, hr] using hmem
  mono := h.mono
  owned r' u hu := by
    by_cases hr : r' = r
    · subst hr
      simp only [State.setPc, Function.update_self, List.mem_append, List.mem_singleton] at hu
      obtain hu | rfl := hu
      · exact h.owned _ u hu
      · exact hown
    · simp only [State.setPc, ne_eq, hr, not_false_eq_true, Function.update_of_ne] at hu
      exact h.owned r' u hu
  pc r' := by
    by_cases hr : r' = r
    · subst hr
      simp only [State.setPc, Function.update_self, PcOk, List.mem_append, List.mem_singleton, or_true, true_and]
      refine ⟨?_,fun k hk => absurd k.isLt (by omega)⟩
      rintro u (hu | rfl)
      · exact hmax u hu
      · exact LexLe.rfl
    · simp only [State.setPc, ne_eq, hr, not_false_eq_true, Function.update_of_ne]
      refine (h.pc r').mono_posts (fun r'' => ?_) (by simp [hr])
      by_cases hr' : r'' = r
      · subst hr'
        simp
      · simp [hr']

/-- Word `i` of entry `e` now comes from the post of `v`. -/
def setSrc (src : ℕ → Fin (d + 1) → Option L.Vec) (v : L.Vec) (i : Fin (d + 1)) :
    ℕ → Fin (d + 1) → Option L.Vec :=
  Function.update src (L.waitEnt v) (Function.update (src (L.waitEnt v)) i (some v))

theorem setSrc_self (v : L.Vec) (i : Fin (d + 1)) : setSrc src v i (L.waitEnt v) i = some v := by
  simp [setSrc]

theorem setSrc_of_ent_ne {v : L.Vec} {i k : Fin (d + 1)} {e : ℕ} (he : e ≠ L.waitEnt v) :
    setSrc src v i e k = src e k := by
  simp [setSrc, he]

theorem setSrc_of_ne {v : L.Vec} {i k : Fin (d + 1)} {e : ℕ} (hk : k ≠ i) : setSrc src v i e k = src e k := by
  by_cases he : e = L.waitEnt v
  · subst he
    simp [setSrc, hk]
  · exact setSrc_of_ent_ne he

theorem setSrc_cases (src : ℕ → Fin (d + 1) → Option L.Vec) (v : L.Vec) (i k : Fin (d + 1)) (e : ℕ) :
    (e = L.waitEnt v ∧ k = i ∧ setSrc src v i e k = some v) ∨
      (¬(e = L.waitEnt v ∧ k = i) ∧ setSrc src v i e k = src e k) := by
  by_cases he : e = L.waitEnt v
  · by_cases hk : k = i
    · subst he hk
      exact Or.inl ⟨rfl,rfl,setSrc_self v k⟩
    · exact Or.inr ⟨fun h => hk h.2,setSrc_of_ne hk⟩
  · exact Or.inr ⟨fun h => he h.1,setSrc_of_ent_ne he⟩

/-- The words above `i` are written for `v`, the last post of the thread. -/
structure Writing (s : State L) (src : ℕ → Fin (d + 1) → Option L.Vec) (r : ℕ) (v : L.Vec) (i : ℕ) : Prop where
  mem : v ∈ s.posts r
  max : ∀ u ∈ s.posts r, LexLe u.1 v.1
  above : ∀ k : Fin (d + 1), i < k.val → src (L.waitEnt v) k = some v

/-- What is known about the other threads survives the write of one word. -/
theorem PcOk.setSrc {p : Pc L} {r' : ℕ} {v : L.Vec} {i : Fin (d + 1)} (hs : Sourced s src)
    (hw : Writing s src r v i) (hr : r' ≠ r) (h : PcOk s.posts src r' p) :
    PcOk s.posts (setSrc src v i) r' p := by
  have hvr := hs.owned r v hw.mem
  -- another thread that writes has its own entry
  have hent : ∀ u ∈ s.posts r', L.waitEnt u ≠ L.waitEnt v := by
    intro u hu he
    exact hr (by rw [← hs.owned r' u hu,L.owner_eq he,hvr])
  cases p with
  | work => trivial
  | posting u j =>
    obtain ⟨hmem,hmax,habove⟩ := h
    refine ⟨hmem,hmax,fun k hk => ?_⟩
    rw [setSrc_of_ent_ne (hent u hmem),habove k hk]
  | storing u j =>
    obtain ⟨hmem,hmax,habove⟩ := h
    refine ⟨hmem,hmax,fun k hk => ?_⟩
    rw [setSrc_of_ent_ne (hent u hmem),habove k hk]
  | waiting sink j =>
    obtain h | ⟨u,hu,hle,hsrc⟩ := h
    · exact Or.inl h
    · refine Or.inr ⟨u,hu,hle,fun k hk => ?_⟩
      obtain ⟨he,-,hset⟩ | ⟨-,hset⟩ := setSrc_cases src v i k (L.waitEnt sink)
      · rw [hset]
        refine ⟨v,rfl,hw.max u ?_⟩
        rwa [L.owner_eq he,hvr] at hu
      · rw [hset]
        exact hsrc k hk
  | passed sink => exact h

/-- The owner writes word `i`: the words stay sourced. -/
theorem Sourced.write (h : Sourced s src) {v : L.Vec} {i : Fin (d + 1)} (hw : Writing s src r v i) :
    Sourced ((s.store (L.waitEnt v) i (word (v.1 i))).setPc r (.posting v i)) (setSrc src v i) where
  array e k := by
    obtain ⟨rfl,rfl,hset⟩ | ⟨hne,hset⟩ := setSrc_cases src v i k e
    · rw [hset]
      simp [State.setPc, State.store]
    · rw [hset,← h.array e k]
      by_cases he : e = L.waitEnt v
      · have hk : k.val ≠ i.val := fun hk => hne ⟨he,Fin.ext hk⟩
        simp [State.setPc, State.store, he, hk]
      · simp [State.setPc, State.store, he]
  posted e k u hu := by
    obtain ⟨rfl,rfl,hset⟩ | ⟨-,hset⟩ := setSrc_cases src v i k e
    · rw [hset,Option.some.injEq] at hu
      subst hu
      refine ⟨?_,rfl⟩
      rw [h.owned r v hw.mem]
      exact hw.mem
    · rw [hset] at hu
      exact h.posted e k u hu
  mono e j k u hjk hu := by
    obtain ⟨rfl,rfl,hset⟩ | ⟨hnk,hset⟩ := setSrc_cases src v i k e
    · refine ⟨v,hset,?_⟩
      obtain ⟨-,-,hset'⟩ | ⟨-,hset'⟩ := setSrc_cases src v k j (L.waitEnt v)
      · rw [hset',Option.some.injEq] at hu
        subst hu
        exact LexLe.rfl
      · rw [hset'] at hu
        obtain ⟨hmem,he⟩ := h.posted _ j u hu
        rw [L.owner_eq he,h.owned r v hw.mem] at hmem
        exact hw.max u hmem
    · obtain ⟨rfl,rfl,hset'⟩ | ⟨-,hset'⟩ := setSrc_cases src v i j e
      · rw [hset',Option.some.injEq] at hu
        subst hu
        have hlt : j.val < k.val := lt_of_le_of_ne hjk fun hk => hnk ⟨rfl,(Fin.ext hk).symm⟩
        exact ⟨v,by rw [hset,hw.above k hlt],LexLe.rfl⟩
      · rw [hset'] at hu
        rw [hset]
        exact h.mono e j k u hjk hu
  owned := h.owned
  pc r' := by
    by_cases hr : r' = r
    · subst hr
      simp only [State.setPc, State.store, Function.update_self]
      refine ⟨hw.mem,hw.max,fun k hk => ?_⟩
      obtain ⟨-,-,hset⟩ | ⟨hne,hset⟩ := setSrc_cases src v i k (L.waitEnt v)
      · exact hset
      · rw [hset]
        exact hw.above k (lt_of_le_of_ne hk fun heq => hne ⟨rfl,(Fin.ext heq).symm⟩)
    · simp only [State.setPc, State.store, ne_eq, hr, not_false_eq_true, Function.update_of_ne]
      exact (h.pc r').setSrc h hw hr

/-! ## The steps of a thread -/

theorem store_eq_self {e i x : ℕ} (h : s.array e i = x) : s.store e i x = s := by
  subst h
  simp [State.store]

theorem postLoad_sourced (h : Sourced s src) {v : L.Vec} {i : ℕ} (hpc : s.pc r = .posting v (i + 1)) :
    ∃ src', Sourced (postLoad s r v i) src' := by
  have hp := h.pc r
  rw [hpc] at hp
  unfold postLoad
  by_cases hi : i < d + 1
  · have hw : Writing s src r v (⟨i,hi⟩ : Fin (d + 1)) := ⟨hp.1,hp.2.1,fun k hk => hp.2.2 k hk⟩
    rw [dif_pos hi]
    split
    case isTrue hne => exact ⟨src,h.setPc ⟨hw.mem,hw.max,hw.above⟩⟩
    case isFalse heq =>
      -- the word has the value already, so the post takes it over without a store
      have hself : s.store (L.waitEnt v) i (word (v.1 ⟨i,hi⟩)) = s := by
        rw [← L.postEnt_eq (h.owned r v hw.mem)]
        exact store_eq_self (not_ne_iff.mp heq).symm
      have hnew := h.write hw
      rw [hself] at hnew
      exact ⟨_,hnew⟩
  · rw [dif_neg hi]
    exact ⟨src,h⟩

/-- A word that does not turn the reader away comes from a post that is not below the prefix read. -/
theorem waiting_word (h : Sourced s src) {sink : L.Vec} {i : Fin (d + 1)}
    (hp : PcOk s.posts src r (.waiting sink i)) (hge : word (sink.1 i) ≤ s.array (L.waitEnt sink) i) :
    ∃ w ∈ s.posts (L.owner (sink.1 0)), src (L.waitEnt sink) i = some w ∧ LexUpTo i sink.1 w.1 ∧
      s.array (L.waitEnt sink) i = w.1 i + 1 := by
  have harr := h.array (L.waitEnt sink) i
  cases hsrc : src (L.waitEnt sink) i with
  | none =>
    rw [hsrc] at harr
    rw [harr,word_eq] at hge
    exact absurd hge (Nat.not_succ_le_zero _)
  | some w =>
    obtain ⟨hmem,hent⟩ := h.posted _ i w hsrc
    rw [L.owner_eq hent] at hmem
    refine ⟨w,hmem,rfl,?_,by rw [harr,hsrc]; exact word_eq w i⟩
    obtain hi | ⟨u,-,hup,hlater⟩ := hp
    · rw [hi]
      exact lexUpTo_zero _ _
    · obtain ⟨w',hw',hle⟩ := hlater i (Nat.le_succ _)
      rw [hsrc,Option.some.injEq] at hw'
      subst hw'
      exact hup.trans hle

theorem waitLoad_sourced (h : Sourced s src) {sink : L.Vec} {i : ℕ} (hpc : s.pc r = .waiting sink i) :
    Sourced (waitLoad s r sink i) src := by
  have hp := h.pc r
  rw [hpc] at hp
  unfold waitLoad
  by_cases hi : i < d + 1
  · rw [dif_pos hi]
    dsimp only
    split
    case isTrue hlt =>
      obtain ⟨w,hw,-,hup,harr⟩ := waiting_word h (i := ⟨i,hi⟩) hp hlt.le
      rw [harr,word_eq] at hlt
      exact h.setPc ⟨w,hw,hup.lexLe_of_lt (by omega)⟩
    case isFalse hge =>
      split
      case isTrue => exact h.setPc (Or.inl rfl)
      case isFalse hle =>
        obtain ⟨w,hw,hsrc,hup,harr⟩ := waiting_word h (i := ⟨i,hi⟩) hp (not_lt.mp hle)
        rw [harr,word_eq] at hge hle
        refine h.setPc (Or.inr ⟨w,hw,hup.succ (by omega),fun k hk => ?_⟩)
        exact h.mono _ ⟨i,hi⟩ k w (Fin.le_def.mpr (Nat.le_of_succ_le_succ hk)) hsrc
  · rw [dif_neg hi]
    obtain rfl | ⟨u,hu,hup,-⟩ := hp
    · exact absurd (Nat.succ_pos d) hi
    · exact h.setPc ⟨u,hu,hup.lexLe (not_lt.mp hi)⟩

theorem access_sourced (h : Sourced s src) (hs : access s r = some s') : ∃ src', Sourced s' src' := by
  unfold access at hs
  split at hs
  case h_1 => cases hs
  case h_2 => cases hs
  case h_3 =>
    obtain rfl := Option.some.inj hs
    exact ⟨src,h.setPc trivial⟩
  case h_4 v i hpc =>
    obtain rfl := Option.some.inj hs
    exact postLoad_sourced h hpc
  case h_5 v i hpc =>
    split at hs
    case isTrue hi =>
      obtain rfl := Option.some.inj hs
      have hp := h.pc r
      rw [hpc] at hp
      rw [L.postEnt_eq (h.owned r v hp.1)]
      exact ⟨_,h.write (i := ⟨i,hi⟩) ⟨hp.1,hp.2.1,hp.2.2⟩⟩
    case isFalse => cases hs
  case h_6 sink i hpc =>
    obtain rfl := Option.some.inj hs
    exact ⟨src,waitLoad_sourced h hpc⟩

def HasSource (s : State L) : Prop := ∃ src, Sourced s src

theorem step_hasSource {e : Event L} (h : HasSource s) (hs : step s e = some s') : HasSource s' := by
  obtain ⟨src,h⟩ := h
  cases e with
  | post r v =>
    simp only [step, Option.ite_none_right_eq_some, Option.some.injEq] at hs
    obtain ⟨⟨-,hown,hmax⟩,rfl⟩ := hs
    exact ⟨src,h.post hown hmax⟩
  | wait r sink =>
    simp only [step, Option.ite_none_right_eq_some, Option.some.injEq] at hs
    obtain ⟨-,rfl⟩ := hs
    exact ⟨src,h.setPc (Or.inl rfl)⟩
  | access r => exact access_sourced h hs

/-- In every interleaving, when a thread has left a wait for a sink, the owner of the sink's outer
iteration has begun to post the sink or a later iteration. -/
theorem doacross_wait_not_early (L : Loop d) (es : List (Event L)) (s : State L)
    (hr : run step init es = some s) (r : ℕ) (sink : L.Vec) (hp : s.pc r = .passed sink) :
    ∃ u ∈ s.posts (L.owner (sink.1 0)), LexLe sink.1 u.1 := by
  have hstep : ∀ (s : State L) e s', HasSource s → True → step s e = some s' → HasSource s' :=
    fun _ _ _ hi _ hs => step_hasSource hi hs
  have hinv : HasSource s := run_invariant hstep ⟨_,init_sourced⟩ (along_true init es) hr
  obtain ⟨src,h⟩ := hinv
  have hpc := h.pc r
  rwa [hp] at hpc

/-- Two threads, an outer loop of two iterations, and inner loops too long for one word. -/
def twoRows : Loop 2 where
  sched := .static
  nthreads := 2
  chunkSize := 0
  counts := ![2,2 ^ 62,2 ^ 62]
  owner v := v
  one_lt_nthreads := by decide
  counts_lt := by decide
  chunk_pos h := by cases h
  owner_static _ v hv := by
    change v < 2 at hv
    refine ⟨hv,?_⟩
    change (staticRange 2 2 v).1 ≤ v ∧ v < (staticRange 2 2 v).2
    simp [staticRange]
  owner_dynamic h := by cases h

def twoRowsVec (i j k : ℕ) (h : i < 2 ∧ j < 2 ^ 62 ∧ k < 2 ^ 62) : twoRows.Vec :=
  ⟨![i,j,k],by
    intro x
    fin_cases x
    · exact h.1
    · exact h.2.1
    · exact h.2.2⟩

/-- Thread 1 reads while thread 0 is between two stores of its second post. -/
def tornRun : List (Event twoRows) :=
  .post 0 (twoRowsVec 0 1 5 (by decide)) :: List.replicate 7 (.access 0) ++
    [.wait 1 (twoRowsVec 0 1 4 (by decide)),.access 1,.access 1,
     .post 0 (twoRowsVec 0 2 7 (by decide)),.access 0,.access 0,.access 1]

theorem doacross_wait_not_early_torn :
    ∃ s : State twoRows, run step init tornRun = some s ∧
      s.pc 1 = .passed (twoRowsVec 0 1 4 (by decide)) ∧
      ∃ u ∈ s.posts 0, LexLe (twoRowsVec 0 1 4 (by decide)).1 u.1 := by
  refine ⟨_,rfl,rfl,?_⟩
  exact doacross_wait_not_early twoRows tornRun _ rfl 1 (twoRowsVec 0 1 4 (by decide)) rfl

end GompUlt.Doacross
