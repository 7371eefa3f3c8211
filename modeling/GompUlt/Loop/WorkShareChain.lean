import GompUlt.Sync.Ptrlock
import GompUlt.Lib.Counting

/-! # The chain of work shares of a team

Each work share points to the next one through the pointer lock `next_ws`; the thread that finds the
pointer missing makes the next work share.  A work share is freed when the last thread ends the
construct after it.  The pointer lock, the free list and the team barrier are taken here as what
`GompUlt.Ptrlock`, `GompUlt.WorkShare` and `GompUlt.TeamBarrier` show of them; every other access to
memory that threads share is a step of its own.
-/
namespace GompUlt.WorkShareChain
open Run

/-- How a construct ends: with `gomp_work_share_end`, with `gomp_work_share_end_nowait`, or it is a
`single` with a copyprivate clause. -/
inductive Kind where
  | wait
  | nowait
  | copy
deriving DecidableEq, Repr

/-- The pointer lock to the next work share, as its users see it. -/
abbrev NextWs := Ptrlock.Cell

/-- Where a thread stands; `first` tells that `gomp_work_share_start` returned true. -/
inductive Pc where
  | outside
  | get
  | alloc
  | initDone
  | inside (first : Bool)
  | stored
  | waiting (first : Bool) (generation : ℕ)
  | lastFree (first : Bool)
  | release (first : Bool)
  | reading
  | copied (ret : ℕ)
  | ending
  | freeLast
deriving DecidableEq, Repr

/-- A thread with the fields of its `ts`; `count` numbers the constructs it has started. -/
structure Thread where
  pc : Pc
  workShare : ℕ
  lastWorkShare : Option ℕ
  count : ℕ
deriving DecidableEq, Repr

/-- The work shares of a team of `n` threads and its barrier.  The work share of construct `k` is
`made k`, up to the newest one, `top`; `linked` is the newest one that another thread can find, `freed`
is how many have been freed, and `firstOf` are the threads that made them. -/
structure State (n : ℕ) where
  thr : Fin n → Thread
  nextWs : ℕ → NextWs
  threadsCompleted : ℕ → ℕ
  copyprivate : ℕ → ℕ
  used : Finset ℕ
  workSharesToFree : Option ℕ
  awaited : ℕ
  generation : ℕ
  made : ℕ → ℕ
  top : ℕ
  linked : ℕ
  freed : ℕ
  firstOf : ℕ → Option (Fin n)

variable {n : ℕ}

/-- A new team: every thread stands after construct 0, whose work share is block 0. -/
def init (n : ℕ) : State n where
  thr _ := { pc := .outside, workShare := 0, lastWorkShare := none, count := 0 }
  nextWs _ := .null
  threadsCompleted _ := 0
  copyprivate _ := 0
  used := {0}
  workSharesToFree := none
  awaited := n
  generation := 0
  made _ := 0
  top := 0
  linked := 0
  freed := 0
  firstOf _ := none

def State.put (s : State n) (t : Fin n) (th : Thread) : State n := { s with thr := Function.update s.thr t th }

/-- `alloc_work_share` returns block `b`, and `gomp_init_work_share`. -/
def newWorkShare (s : State n) (t : Fin n) (b : ℕ) : State n :=
  { s with
    nextWs := Function.update s.nextWs b .null
    threadsCompleted := Function.update s.threadsCompleted b 0
    used := insert b s.used
    made := Function.update s.made (s.top + 1) b
    top := s.top + 1
    firstOf := Function.update s.firstOf (s.top + 1) (some t) }

/-- `gomp_work_share_init_done`. -/
def initDone (s : State n) (t : Fin n) : State n :=
  match (s.thr t).lastWorkShare with
  | none => s
  | some last =>
    { s with nextWs := Function.update s.nextWs last (.ptr (s.thr t).workShare), linked := s.linked + 1 }

/-- The last thread frees its `last_work_share`. -/
def freeWorkShare (s : State n) (t : Fin n) : State n :=
  match (s.thr t).lastWorkShare with
  | none => s
  | some last =>
    { s with workSharesToFree := some (s.thr t).workShare, used := s.used.erase last, freed := s.freed + 1 }

section Put
variable (s : State n) (t : Fin n) (th : Thread)

theorem put_thr (u : Fin n) : (s.put t th).thr u = if u = t then th else s.thr u := Function.update_apply ..

@[simp] theorem put_self : (s.put t th).thr t = th := Function.update_self ..
@[simp] theorem put_nextWs : (s.put t th).nextWs = s.nextWs := rfl
@[simp] theorem put_threadsCompleted : (s.put t th).threadsCompleted = s.threadsCompleted := rfl
@[simp] theorem put_copyprivate : (s.put t th).copyprivate = s.copyprivate := rfl
@[simp] theorem put_used : (s.put t th).used = s.used := rfl
@[simp] theorem put_workSharesToFree : (s.put t th).workSharesToFree = s.workSharesToFree := rfl
@[simp] theorem put_awaited : (s.put t th).awaited = s.awaited := rfl
@[simp] theorem put_generation : (s.put t th).generation = s.generation := rfl
@[simp] theorem put_made : (s.put t th).made = s.made := rfl
@[simp] theorem put_top : (s.put t th).top = s.top := rfl
@[simp] theorem put_linked : (s.put t th).linked = s.linked := rfl
@[simp] theorem put_freed : (s.put t th).freed = s.freed := rfl
@[simp] theorem put_firstOf : (s.put t th).firstOf = s.firstOf := rfl

variable {s t th}

theorem put_other {u : Fin n} (h : u ≠ t) : (s.put t th).thr u = s.thr u := by rw [put_thr, if_neg h]

/-- What holds of the thread that moves and of all others holds of all threads. -/
theorem forall_put {p : Fin n → Thread → Prop} (ht : p t th) (h : ∀ u, u ≠ t → p u (s.thr u)) (u : Fin n) :
    p u ((s.put t th).thr u) := by
  rw [put_thr]
  split
  · next e =>
    subst e
    exact ht
  · next hu => exact h u hu

end Put

section Steps
variable (kind : ℕ → Kind)

/-- `gomp_barrier_wait_start`, and what the last thread does next. -/
def arrive (s : State n) (t : Fin n) (first : Bool) : State n :=
  if s.awaited - 1 = 0 then
    { s with awaited := s.awaited - 1 }.put t
      { s.thr t with pc := if kind (s.thr t).count = Kind.wait then .lastFree first else .release first }
  else { s with awaited := s.awaited - 1 }.put t { s.thr t with pc := .waiting first s.generation }

/-- After the barrier of a construct. -/
def leave (th : Thread) (first : Bool) : Thread :=
  if kind th.count = Kind.copy then { th with pc := if first then .ending else .reading }
  else { th with lastWorkShare := none, pc := .outside }

/-- `gomp_work_share_end_nowait` up to the free. -/
def endNowait (s : State n) (t : Fin n) : State n :=
  if (s.thr t).lastWorkShare = none then s.put t { s.thr t with pc := .outside }
  else
    { s with
      threadsCompleted := Function.update s.threadsCompleted (s.thr t).workShare
        (s.threadsCompleted (s.thr t).workShare + 1) }.put t
      (if s.threadsCompleted (s.thr t).workShare + 1 = n then { s.thr t with pc := .freeLast }
        else { s.thr t with lastWorkShare := none, pc := .outside })

/-- The next step of a thread.  `b` is the block that `alloc_work_share` picks, and `data t k` what
thread `t` passes to `GOMP_single_copy_end` in construct `k`. -/
def step (data : Fin n → ℕ → ℕ) (s : State n) : Fin n × ℕ → Option (State n)
  | (t,b) =>
    match (s.thr t).pc with
    | .outside => some (s.put t { s.thr t with lastWorkShare := some (s.thr t).workShare, pc := .get })
    | .get =>
      match s.nextWs (s.thr t).workShare with
      | .null =>
        some ({ s with nextWs := Function.update s.nextWs (s.thr t).workShare .owned }.put t
          { s.thr t with pc := .alloc })
      | .owned => none
      | .ptr ws => some (s.put t { s.thr t with workShare := ws, count := (s.thr t).count + 1, pc := .inside false })
    | .alloc =>
      if b ∈ s.used then none
      else some ((newWorkShare s t b).put t
        { s.thr t with workShare := b, count := (s.thr t).count + 1, pc := .initDone })
    | .initDone => some ((initDone s t).put t { s.thr t with pc := .inside true })
    | .inside first =>
      match kind (s.thr t).count, first with
      | .nowait, _ => some (endNowait s t)
      | .wait, _ => some (arrive kind s t first)
      | .copy, false => some (arrive kind s t false)
      | .copy, true =>
        some ({ s with copyprivate := Function.update s.copyprivate (s.thr t).workShare (data t (s.thr t).count) }.put t
          { s.thr t with pc := .stored })
    | .stored => some (arrive kind s t true)
    | .waiting first g => if s.generation = g then none else some (s.put t (leave kind (s.thr t) first))
    | .lastFree first => some ((freeWorkShare s t).put t { s.thr t with pc := .release first })
    | .release first =>
      some ({ s with awaited := n, generation := s.generation + 1 }.put t (leave kind (s.thr t) first))
    | .reading => some (s.put t { s.thr t with pc := .copied (s.copyprivate (s.thr t).workShare) })
    | .copied _ | .ending => some (endNowait s t)
    | .freeLast => some ((freeWorkShare s t).put t { s.thr t with lastWorkShare := none, pc := .outside })

end Steps

/-! ## How far a thread has come -/
section Thread
variable (kind : ℕ → Kind)

/-- The number of barriers in the constructs up to `k`. -/
def barriers : ℕ → ℕ
  | 0 => 0
  | k + 1 => barriers k + if kind (k + 1) = Kind.nowait then 0 else 1

/-- The number of constructs the thread no longer needs the work share before of. -/
def Thread.passed (th : Thread) : ℕ :=
  match th.pc with
  | .outside | .get | .alloc => th.count
  | .waiting _ _ | .release _ => if kind th.count = Kind.wait then th.count else th.count - 1
  | .initDone | .inside _ | .stored | .lastFree _ | .reading | .copied _ | .ending | .freeLast => th.count - 1

/-- The same, counting the construct whose end made the thread free the work share before it. -/
def Thread.level (th : Thread) : ℕ :=
  match th.pc with
  | .freeLast | .lastFree _ => th.count
  | .outside | .get | .alloc | .waiting _ _ | .release _ | .initDone | .inside _ | .stored | .reading | .copied _
  | .ending => th.passed kind

/-- The thread has arrived at the barrier of a generation and nobody has left it. -/
def Thread.arrived (generation : ℕ) (th : Thread) : Bool :=
  match th.pc with
  | .waiting _ g => g = generation
  | .lastFree _ | .release _ => true
  | .outside | .get | .alloc | .initDone | .inside _ | .stored | .reading | .copied _ | .ending | .freeLast => false

/-- The thread was the last one to arrive. -/
def Thread.isLast (th : Thread) : Bool :=
  match th.pc with
  | .lastFree _ | .release _ => true
  | .waiting _ _ | .outside | .get | .alloc | .initDone | .inside _ | .stored | .reading | .copied _ | .ending
  | .freeLast => false

/-- The number of barriers the thread has left or may leave. -/
def Thread.left (generation : ℕ) (th : Thread) : ℕ :=
  match th.pc with
  | .outside | .get | .alloc | .reading | .copied _ | .ending | .freeLast => barriers kind th.count
  | .waiting _ g => if g = generation then barriers kind (th.count - 1) else barriers kind th.count
  | .initDone | .inside _ | .stored | .lastFree _ | .release _ => barriers kind (th.count - 1)

/-- A place in the code is only reached in some kinds of constructs. -/
def Thread.KindOk (th : Thread) : Prop :=
  match th.pc with
  | .outside | .get | .alloc => True
  | .initDone | .inside _ => 1 ≤ th.count
  | .stored | .reading | .copied _ | .ending => 1 ≤ th.count ∧ kind th.count = Kind.copy
  | .waiting _ _ | .release _ => 1 ≤ th.count ∧ kind th.count ≠ Kind.nowait
  | .lastFree _ => 1 ≤ th.count ∧ kind th.count = Kind.wait
  | .freeLast => 1 ≤ th.count ∧ kind th.count ≠ Kind.wait

end Thread

/-! ## The barrier -/
section Barrier
open Counting
variable {kind : ℕ → Kind}

variable (kind) in
theorem barriers_eq {k : ℕ} (h : 1 ≤ k) :
    barriers kind k = barriers kind (k - 1) + if kind k = Kind.nowait then 0 else 1 := by
  obtain ⟨k,rfl⟩ : ∃ j, k = j + 1 := ⟨k - 1,by omega⟩
  rfl

variable (kind) in
theorem barriers_mono {j k : ℕ} (h : j ≤ k) : barriers kind j ≤ barriers kind k := by
  induction h with
  | refl => exact le_rfl
  | step _ ih => exact ih.trans (Nat.le_add_right _ _)

/-- How many threads have arrived at the barrier. -/
def numArrived (s : State n) : ℕ := (Finset.univ.filter fun t => (s.thr t).arrived s.generation = true).card

theorem numArrived_put (s s₁ : State n) (t : Fin n) (th : Thread) (hthr : s₁.thr = s.thr)
    (hgen : s₁.generation = s.generation) : numArrived (s₁.put t th) + ((s.thr t).arrived s.generation).toNat =
      numArrived s + (th.arrived s.generation).toNat := by
  have hcard := card_change (p := fun u => ((s₁.put t th).thr u).arrived s.generation)
    (q := fun u => (s.thr u).arrived s.generation) t fun u hu => by rw [put_other hu, hthr]
  simpa only [put_self, numArrived, put_generation, hgen] using hcard

/-- Every thread has left as many barriers as there were, and the last thread to arrive found all others. -/
structure Barrier (kind : ℕ → Kind) (s : State n) : Prop where
  kinds : ∀ t, (s.thr t).KindOk kind
  left : ∀ t, (s.thr t).left kind s.generation = s.generation
  awaited : s.awaited + numArrived s = n
  last : ∀ t, (s.thr t).isLast = true → s.awaited = 0
  lastUnique : ∀ t u, (s.thr t).isLast = true → (s.thr u).isLast = true → t = u

theorem barrier_init : Barrier kind (init n) := by
  constructor <;> simp [init, numArrived, Thread.KindOk, Thread.left, Thread.arrived, Thread.isLast, barriers]

/-- A step of one thread that does not arrive at the barrier or release it. -/
theorem Barrier.move {s s₁ : State n} (h : Barrier kind s) {t : Fin n} {th : Thread} (hthr : s₁.thr = s.thr)
    (hgen : s₁.generation = s.generation) (haw : s₁.awaited = s.awaited) (hk : th.KindOk kind)
    (hleft : th.left kind s.generation = (s.thr t).left kind s.generation)
    (harr : th.arrived s.generation = (s.thr t).arrived s.generation)
    (hlast : th.isLast = true → (s.thr t).isLast = true) : Barrier kind (s₁.put t th) := by
  have hother : ∀ u, u ≠ t → s₁.thr u = s.thr u := fun u _ => congrFun hthr u
  have hlast' : ∀ u, ((s₁.put t th).thr u).isLast = true → (s.thr u).isLast = true :=
    forall_put (p := fun u x => x.isLast = true → (s.thr u).isLast = true) hlast fun u hu hl => hother u hu ▸ hl
  constructor
  case kinds => exact forall_put (p := fun _ x => x.KindOk kind) hk fun u hu => hother u hu ▸ h.kinds u
  case left =>
    rw [put_generation, hgen]
    exact forall_put (p := fun _ x => x.left kind s.generation = s.generation) (hleft.trans (h.left t)) fun u hu =>
      hother u hu ▸ h.left u
  case awaited =>
    have hnum := numArrived_put s s₁ t th hthr hgen
    have hold := h.awaited
    rw [put_awaited, haw]
    rw [harr] at hnum
    omega
  case last =>
    intro u hu
    exact haw.trans (h.last u (hlast' u hu))
  case lastUnique => exact fun u w hu hw => h.lastUnique u w (hlast' u hu) (hlast' w hw)

/-- A thread that has not arrived is still awaited. -/
theorem Barrier.awaited_pos {s : State n} (h : Barrier kind s) {t : Fin n} (ht : (s.thr t).arrived s.generation = false) :
    0 < s.awaited := by
  have hlt : numArrived s < n := by
    have hss : (Finset.univ.filter fun u => (s.thr u).arrived s.generation = true) ⊂ Finset.univ := by
      refine Finset.filter_ssubset.mpr ⟨t,Finset.mem_univ t,?_⟩
      simp [ht]
    simpa [numArrived] using Finset.card_lt_card hss
  have := h.awaited
  omega

/-- When the last thread has arrived, all others wait. -/
theorem Barrier.others_wait {s : State n} (h : Barrier kind s) {t u : Fin n} (ht : (s.thr t).isLast = true) (hu : u ≠ t) :
    ∃ first, (s.thr u).pc = .waiting first s.generation := by
  have harr : (s.thr u).arrived s.generation = true := by
    by_contra hne
    have hpos := h.awaited_pos (Bool.eq_false_iff.mpr hne)
    have hzero := h.last t ht
    omega
  have hnot : (s.thr u).isLast ≠ true := fun hl => hu (h.lastUnique u t hl ht)
  cases hpc : (s.thr u).pc with
  | waiting first g =>
    simp only [Thread.arrived, hpc, decide_eq_true_eq] at harr
    exact ⟨first,by rw [harr]⟩
  | lastFree | release => simp [Thread.isLast, hpc] at hnot
  | outside | get | alloc | initDone | inside | stored | reading | copied | ending | freeLast =>
    simp [Thread.arrived, hpc] at harr

theorem barrier_arrive {s : State n} (h : Barrier kind s) {t : Fin n} {first : Bool}
    (harr : (s.thr t).arrived s.generation = false)
    (hleft : (s.thr t).left kind s.generation = barriers kind ((s.thr t).count - 1)) (hcount : 1 ≤ (s.thr t).count)
    (hkind : kind (s.thr t).count ≠ Kind.nowait) : Barrier kind (arrive kind s t first) := by
  have hpos := h.awaited_pos harr
  have hgen := hleft.symm.trans (h.left t)
  -- whichever way the thread goes on, it has arrived
  have hput : ∀ pc, ({ s.thr t with pc := pc } : Thread).KindOk kind →
      ({ s.thr t with pc := pc } : Thread).left kind s.generation = barriers kind ((s.thr t).count - 1) →
      ({ s.thr t with pc := pc } : Thread).arrived s.generation = true →
      (({ s.thr t with pc := pc } : Thread).isLast = true → s.awaited - 1 = 0) →
      Barrier kind ({ s with awaited := s.awaited - 1 }.put t { s.thr t with pc := pc }) := by
    intro pc hk hl ha hlast
    have hnone : ∀ u, (s.thr u).isLast ≠ true := fun u hu => by
      have := h.last u hu
      omega
    have hlast' : ∀ u, (({ s with awaited := s.awaited - 1 }.put t { s.thr t with pc := pc }).thr u).isLast = true →
        u = t ∧ s.awaited - 1 = 0 :=
      forall_put (p := fun u x => x.isLast = true → u = t ∧ s.awaited - 1 = 0) (fun hl => ⟨rfl,hlast hl⟩) fun u _ hu =>
        absurd hu (hnone u)
    constructor
    case kinds => exact forall_put (p := fun _ x => x.KindOk kind) hk fun u _ => h.kinds u
    case left =>
      exact forall_put (p := fun _ x => x.left kind s.generation = s.generation) (hl.trans hgen) fun u _ => h.left u
    case awaited =>
      have hnum := numArrived_put s { s with awaited := s.awaited - 1 } t { s.thr t with pc := pc } rfl rfl
      have hold := h.awaited
      rw [harr, ha] at hnum
      simp only [put_awaited, Bool.toNat_true, Bool.toNat_false] at hnum ⊢
      omega
    case last => exact fun u hu => (hlast' u hu).2
    case lastUnique => exact fun u w hu hw => (hlast' u hu).1.trans (hlast' w hw).1.symm
  unfold arrive
  by_cases hzero : s.awaited - 1 = 0
  · rw [if_pos hzero]
    by_cases hwait : kind (s.thr t).count = Kind.wait
    · exact hput _ (by simp [Thread.KindOk, hwait, hcount]) (by simp [Thread.left, hwait])
        (by simp [Thread.arrived, hwait]) fun _ => hzero
    · exact hput _ (by simp [Thread.KindOk, hwait, hcount, hkind]) (by simp [Thread.left, hwait])
        (by simp [Thread.arrived, hwait]) fun _ => hzero
  · rw [if_neg hzero]
    exact hput _ ⟨hcount,hkind⟩ (by simp [Thread.left]) (by simp [Thread.arrived]) (by simp [Thread.isLast])

theorem barrier_release {s : State n} (h : Barrier kind s) {t : Fin n} {first : Bool}
    (hpc : (s.thr t).pc = .release first) :
    Barrier kind ({ s with awaited := n, generation := s.generation + 1 }.put t (leave kind (s.thr t) first)) := by
  have hlast : (s.thr t).isLast = true := by simp [Thread.isLast, hpc]
  have hok := h.kinds t
  simp only [Thread.KindOk, hpc] at hok
  have hleft := h.left t
  simp only [Thread.left, hpc] at hleft
  have hnew : ∀ x : Thread, x.pc = .reading ∨ x.pc = .ending ∨ x.pc = .outside → x.arrived (s.generation + 1) = false ∧
      x.isLast = false ∧ x.left kind (s.generation + 1) = barriers kind x.count := by
    rintro x (hx | hx | hx) <;> simp [Thread.arrived, Thread.isLast, Thread.left, hx]
  have hleave : (leave kind (s.thr t) first).count = (s.thr t).count ∧ (leave kind (s.thr t) first).KindOk kind ∧
      ((leave kind (s.thr t) first).pc = .reading ∨ (leave kind (s.thr t) first).pc = .ending ∨
        (leave kind (s.thr t) first).pc = .outside) := by
    unfold leave
    by_cases hcopy : kind (s.thr t).count = Kind.copy
    · cases first <;> simp [hcopy, Thread.KindOk, hok.1]
    · simp [hcopy, Thread.KindOk]
  obtain ⟨hcount,hk,hpc'⟩ := hleave
  obtain ⟨harr,hlast',hleft'⟩ := hnew _ hpc'
  have hother : ∀ u, u ≠ t → (s.thr u).arrived (s.generation + 1) = false ∧ (s.thr u).isLast = false ∧
      (s.thr u).left kind (s.generation + 1) = s.generation + 1 := by
    intro u hu
    obtain ⟨f,hw⟩ := h.others_wait hlast hu
    have hk := h.kinds u
    simp only [Thread.KindOk, hw] at hk
    have hl := h.left u
    simp only [Thread.left, hw, if_true] at hl
    refine ⟨by simp [Thread.arrived, hw],by simp [Thread.isLast, hw],?_⟩
    simp only [Thread.left, hw, if_neg (Nat.ne_of_lt (Nat.lt_succ_self s.generation))]
    rw [barriers_eq kind hk.1, if_neg hk.2, hl]
  have hthis : (leave kind (s.thr t) first).left kind (s.generation + 1) = s.generation + 1 := by
    rw [hleft', hcount, barriers_eq kind hok.1, if_neg hok.2, hleft]
  have hall := forall_put (s := { s with awaited := n, generation := s.generation + 1 })
    (p := fun _ x => x.arrived (s.generation + 1) = false ∧ x.isLast = false ∧
      x.left kind (s.generation + 1) = s.generation + 1) ⟨harr,hlast',hthis⟩ hother
  constructor
  case kinds => exact forall_put (p := fun _ x => x.KindOk kind) hk fun u _ => h.kinds u
  case left => exact fun u => (hall u).2.2
  case awaited => simp [numArrived, hall]
  case last => exact fun u hu => absurd hu (by simp [hall])
  case lastUnique => exact fun u _ hu => absurd hu (by simp [hall])

end Barrier

end GompUlt.WorkShareChain
