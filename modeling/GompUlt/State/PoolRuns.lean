import GompUlt.State.StatePool
import GompUlt.Lib.Counting

/-! # Every task state in one place

A state is handed out, in the local list of a thread, in the global list, or held by a call that is
moving it.  The lists are the segments met from their heads, and only the holder of the lock knows
anything about the global one.
-/
namespace GompUlt.StatePool
open Run ListSegment Arrangement Counting

/-- The places of a state. -/
inductive Place (n : ℕ) where
  | handed
  | localList (t : Fin n)
  | globalList
  | moving (t : Fin n)
deriving DecidableEq

variable {n : ℕ}

/-- The thread is between a successful `gomp_spin_trylock` and the unlock. -/
def Pc.holdsLock : Pc → Bool
  | .getLocked | .getGiveUp | .getCut _ | .getShrink _ | .getUnlock _ => true
  | .freeLocked _ _ | .freeSplice _ | .freePublish _ | .freeGrow _ | .freeUnlock => true
  | _ => false

/-- Fresh states not yet counted in `allocated_tasks`. -/
def Pc.pending : Pc → ℕ
  | .adding num _ => num
  | _ => 0

/-- The batch is the front of the list. -/
def BatchOk (l : List ℕ) (batch : Batch) : Prop :=
  l.head? = some batch.state ∧ ∃ P R, l = (P ++ [batch.stateLast]) ++ R ∧ batch.picked = P.length + 1

/-- The batch is detached, and `m` is where its last state points. -/
def MovingOk (next : ℕ → Option ℕ) (l : List ℕ) (batch : Batch) (m : Option ℕ) : Prop :=
  IsSeg next (some batch.state) l m ∧ ∃ P, l = P ++ [batch.stateLast] ∧ batch.picked = P.length + 1

/-- What a thread knows: `L` is its local list, `B` what it is moving, `G` the global list of fields `gl`. -/
def PcOk (next : ℕ → Option ℕ) (L B G : List ℕ) (gl : TaskStateList) : Pc → Prop
  | .unborn => L = [] ∧ B = []
  | .outside => B = []
  | .adding _ state => B = state.toList
  | .getLoop | .getTry | .getAlloc => L = [] ∧ B = []
  | .getLocked | .getGiveUp => L = [] ∧ B = [] ∧ gl.listSize = UInt32.ofNat G.length
  | .getCut batch => L = [] ∧ B = [] ∧ gl.listSize = UInt32.ofNat G.length ∧ BatchOk G batch
  | .getShrink batch => L = [] ∧ (∃ m, MovingOk next B batch m) ∧
      gl.listSize = UInt32.ofNat (G.length + batch.picked)
  | .getUnlock batch => L = [] ∧ (∃ m, MovingOk next B batch m) ∧ gl.listSize = UInt32.ofNat G.length
  | .getTake batch => L = [] ∧ ∃ m, MovingOk next B batch m
  | .freeLoop none => L ≠ [] ∧ B = []
  | .freeLoop (some batch) => B = [] ∧ BatchOk L batch
  | .freeCheck _ surplus none => L ≠ [] ∧ B = [] ∧ surplus ≠ 0
  | .freeCheck _ _ (some batch) => B = [] ∧ BatchOk L batch
  | .freeTry _ batch => B = [] ∧ BatchOk L batch
  | .freeLocked _ batch => B = [] ∧ BatchOk L batch ∧ gl.listSize = UInt32.ofNat G.length
  | .freeSplice batch => B = [] ∧ BatchOk L batch ∧ gl.listSize = UInt32.ofNat G.length
  | .freePublish batch => MovingOk next B batch gl.list ∧ gl.listSize = UInt32.ofNat G.length
  | .freeGrow batch => B = [] ∧ gl.listSize + UInt32.ofNat batch.picked = UInt32.ofNat G.length
  | .freeUnlock => B = [] ∧ gl.listSize = UInt32.ofNat G.length

/-- Only the holder of the lock depends on the global list. -/
theorem PcOk.global {next : ℕ → Option ℕ} {L B G G' : List ℕ} {gl gl' : TaskStateList} {p : Pc}
    (h : PcOk next L B G gl p) (hp : p.holdsLock = false) : PcOk next L B G' gl' p := by
  cases p with
  | freeLoop b => cases b <;> exact h
  | freeCheck _ _ b => cases b <;> exact h
  | _ => first | exact h | cases hp

/-- The successors of other states do not matter. -/
theorem PcOk.congr {next next' : ℕ → Option ℕ} {L B G : List ℕ} {gl : TaskStateList} {p : Pc}
    (h : PcOk next L B G gl p) (hB : ∀ x ∈ B, next' x = next x) : PcOk next' L B G gl p := by
  have hmove : ∀ batch m, MovingOk next B batch m → MovingOk next' B batch m :=
    fun _ _ hm => ⟨hm.1.congr hB,hm.2⟩
  cases p with
  | freeLoop b => cases b <;> exact h
  | freeCheck _ _ b => cases b <;> exact h
  | getShrink b =>
    obtain ⟨hL,⟨m,hm⟩,hs⟩ := h
    exact ⟨hL,⟨m,hmove _ _ hm⟩,hs⟩
  | getUnlock b =>
    obtain ⟨hL,⟨m,hm⟩,hs⟩ := h
    exact ⟨hL,⟨m,hmove _ _ hm⟩,hs⟩
  | getTake b =>
    obtain ⟨hL,m,hm⟩ := h
    exact ⟨hL,m,hmove _ _ hm⟩
  | freePublish b => exact ⟨hmove _ _ h.1,h.2⟩
  | _ => exact h

/-- The lists of the places describe the pool. -/
structure Inv (s : Pool n) (lists : Place n → List ℕ) : Prop where
  arr : Arranged (· < s.numStates) lists
  handed : lists .handed = s.handed
  localSeg : ∀ t, IsSeg s.next (s.threadList t).list (lists (.localList t)) none
  localSize : ∀ t, (s.threadList t).listSize = UInt32.ofNat (lists (.localList t)).length
  globalSeg : IsSeg s.next s.globalList.list (lists .globalList) none
  globalSize : s.lock = none → s.globalList.listSize = UInt32.ofNat (lists .globalList).length
  lock : ∀ t, (s.pc t).holdsLock = true ↔ s.lock = some t
  pc : ∀ t, PcOk s.next (lists (.localList t)) (lists (.moving t)) (lists .globalList) s.globalList (s.pc t)
  allocated : s.allocatedTasks + UInt32.ofNat (∑ t, (s.pc t).pending) = UInt32.ofNat s.numStates

theorem init_inv (n : ℕ) : Inv (init n) fun _ => [] where
  arr := ⟨by simp [init],by simp,by simp⟩
  handed := rfl
  localSeg _ := rfl
  localSize _ := rfl
  globalSeg := rfl
  globalSize _ := rfl
  lock t := by simp [init, Pc.holdsLock]
  pc t := ⟨rfl,rfl⟩
  allocated := by simp [init, Pc.pending]

variable {s s' : Pool n} {lists lists' : Place n → List ℕ} {t : Fin n}

/-- Not the list of another thread. -/
def Place.near (t : Fin n) : Place n → Prop
  | .handed | .globalList => True
  | .localList t' | .moving t' => t' = t

/-- What a step of thread `t` leaves to the others. -/
structure Frame (t : Fin n) (s s' : Pool n) (lists lists' : Place n → List ℕ) : Prop where
  threadList : ∀ t', t' ≠ t → s'.threadList t' = s.threadList t'
  pc : ∀ t', t' ≠ t → s'.pc t' = s.pc t'
  far : ∀ q : Place n, ¬q.near t → lists' q = lists q
  next : ∀ q : Place n, ¬q.near t → ∀ x ∈ lists q, s'.next x = s.next x
  global : (s.pc t).holdsLock = false →
    s'.globalList = s.globalList ∧ lists' .globalList = lists .globalList

/-- The fields of the invariant that a step of thread `t` must establish itself. -/
structure After (t : Fin n) (s' : Pool n) (lists' : Place n → List ℕ) : Prop where
  arr : Arranged (· < s'.numStates) lists'
  handed : lists' .handed = s'.handed
  localSeg : IsSeg s'.next (s'.threadList t).list (lists' (.localList t)) none
  localSize : (s'.threadList t).listSize = UInt32.ofNat (lists' (.localList t)).length
  globalSeg : IsSeg s'.next s'.globalList.list (lists' .globalList) none
  globalSize : s'.lock = none → s'.globalList.listSize = UInt32.ofNat (lists' .globalList).length
  lock : ∀ t, (s'.pc t).holdsLock = true ↔ s'.lock = some t
  pc : PcOk s'.next (lists' (.localList t)) (lists' (.moving t)) (lists' .globalList) s'.globalList (s'.pc t)
  allocated : s'.allocatedTasks + UInt32.ofNat (∑ t, (s'.pc t).pending) = UInt32.ofNat s'.numStates

/-- The lock is held by one thread at most. -/
theorem Inv.other_not_holds (h : Inv s lists) (ht : (s.pc t).holdsLock = true) {t' : Fin n} (hne : t' ≠ t) :
    (s.pc t').holdsLock = false := by
  by_contra hb
  have h1 := (h.lock t).mp ht
  have h2 := (h.lock t').mp (by simpa using hb)
  rw [h1] at h2
  exact hne (Option.some.inj h2).symm

theorem Inv.step (h : Inv s lists) (hf : Frame t s s' lists lists') (ha : After t s' lists') : Inv s' lists' := by
  constructor
  case arr => exact ha.arr
  case handed => exact ha.handed
  case localSeg =>
    intro t'
    by_cases hne : t' = t
    · subst hne
      exact ha.localSeg
    · rw [hf.threadList t' hne,hf.far (.localList t') hne]
      exact (h.localSeg t').congr (hf.next (.localList t') hne)
  case localSize =>
    intro t'
    by_cases hne : t' = t
    · subst hne
      exact ha.localSize
    · rw [hf.threadList t' hne,hf.far (.localList t') hne]
      exact h.localSize t'
  case globalSeg => exact ha.globalSeg
  case globalSize => exact ha.globalSize
  case lock => exact ha.lock
  case pc =>
    intro t'
    by_cases hne : t' = t
    · subst hne
      exact ha.pc
    · rw [hf.pc t' hne,hf.far (.localList t') hne,hf.far (.moving t') hne]
      have hpc := (h.pc t').congr (hf.next (.moving t') hne)
      cases hl : (s.pc t).holdsLock with
      | true => exact hpc.global (h.other_not_holds hl hne)
      | false =>
        obtain ⟨hg,hG⟩ := hf.global hl
        rwa [hg,hG]
  case allocated => exact ha.allocated

theorem sum_pending_update (f : Fin n → Pc) (t : Fin n) (p : Pc) :
    ∑ t', (Function.update f t p t').pending + (f t).pending = ∑ t', (f t').pending + p.pending := by
  have hsum := sum_change (f := fun t' => (Function.update f t p t').pending) (g := fun t' => (f t').pending) t
    fun u hu => by rw [Function.update_of_ne hu]
  rwa [Function.update_self] at hsum

/-- A step that neither counts nor allocates. -/
theorem Inv.allocated_setPc (h : Inv s lists) {p : Pc} (hp : p.pending = (s.pc t).pending) :
    s.allocatedTasks + UInt32.ofNat (∑ t', (Function.update s.pc t p t').pending) = UInt32.ofNat s.numStates := by
  have hsum := sum_pending_update s.pc t p
  have heq : ∑ t', (Function.update s.pc t p t').pending = ∑ t', (s.pc t').pending := by omega
  rw [heq]
  exact h.allocated

/-- Fresh states wait to be counted. -/
theorem Inv.allocated_fresh (h : Inv s lists) {num : ℕ} {state : Option ℕ} (hp : (s.pc t).pending = 0) :
    s.allocatedTasks + UInt32.ofNat (∑ t', (Function.update s.pc t (.adding num state) t').pending)
      = UInt32.ofNat (s.numStates + num) := by
  have hsum := sum_pending_update s.pc t (.adding num state)
  have hsum' : ∑ t', (Function.update s.pc t (.adding num state) t').pending = ∑ t', (s.pc t').pending + num := by
    rw [hp] at hsum
    exact hsum
  rw [hsum',UInt32.ofNat_add,← UInt32.add_assoc,h.allocated,← UInt32.ofNat_add]

theorem Inv.lock_setPc (h : Inv s lists) {p : Pc} (hp : p.holdsLock = (s.pc t).holdsLock) (t' : Fin n) :
    (Function.update s.pc t p t').holdsLock = true ↔ s.lock = some t' := by
  by_cases hne : t' = t
  · subst hne
    rw [Function.update_self,hp]
    exact h.lock t'
  · rw [Function.update_of_ne hne]
    exact h.lock t'

/-! ## Steps that leave the lists alone -/

theorem Inv.setPc (h : Inv s lists) {p : Pc} (l : Option (Fin n))
    (hl : ∀ t', (Function.update s.pc t p t').holdsLock = true ↔ l = some t')
    (hg : l = none → s.globalList.listSize = UInt32.ofNat (lists .globalList).length)
    (hp : PcOk s.next (lists (.localList t)) (lists (.moving t)) (lists .globalList) s.globalList p)
    (hpend : p.pending = (s.pc t).pending) : Inv ({ s with lock := l }.setPc t p) lists := by
  refine h.step (t := t) ?_ ?_
  · exact ⟨fun _ _ => rfl,fun t' hne => Function.update_of_ne hne _ _,fun _ _ => rfl,fun _ _ _ _ => rfl,
      fun _ => ⟨rfl,rfl⟩⟩
  · refine ⟨h.arr,h.handed,h.localSeg t,h.localSize t,h.globalSeg,hg,hl,?_,h.allocated_setPc hpend⟩
    simpa [Pool.setPc] using hp

/-- The thread moves on and keeps the lock, or keeps being without it. -/
theorem Inv.move (h : Inv s lists) {p : Pc} (hl : p.holdsLock = (s.pc t).holdsLock)
    (hp : PcOk s.next (lists (.localList t)) (lists (.moving t)) (lists .globalList) s.globalList p)
    (hpend : p.pending = (s.pc t).pending) : Inv (s.setPc t p) lists :=
  h.setPc s.lock (h.lock_setPc hl) h.globalSize hp hpend

theorem Inv.acquire (h : Inv s lists) {p : Pc} (hfree : s.lock = none) (hl : p.holdsLock = true)
    (hp : s.globalList.listSize = UInt32.ofNat (lists .globalList).length →
      PcOk s.next (lists (.localList t)) (lists (.moving t)) (lists .globalList) s.globalList p)
    (hpend : p.pending = (s.pc t).pending) : Inv ({ s with lock := some t }.setPc t p) lists := by
  refine h.setPc (some t) (fun t' => ?_) (by simp) (hp (h.globalSize hfree)) hpend
  by_cases hne : t' = t
  · subst hne
    simp [hl]
  · rw [Function.update_of_ne hne,h.lock t',hfree]
    simp [Ne.symm hne]

/-- The unlock, when the size of the global list is right again. -/
theorem Inv.release (h : Inv s lists) {p : Pc} (ht : (s.pc t).holdsLock = true) (hl : p.holdsLock = false)
    (hg : s.globalList.listSize = UInt32.ofNat (lists .globalList).length)
    (hp : PcOk s.next (lists (.localList t)) (lists (.moving t)) (lists .globalList) s.globalList p)
    (hpend : p.pending = (s.pc t).pending) : Inv ({ s with lock := none }.setPc t p) lists := by
  refine h.setPc none (fun t' => ?_) (fun _ => hg) hp hpend
  by_cases hne : t' = t
  · subst hne
    simp [hl]
  · rw [Function.update_of_ne hne,h.other_not_holds ht hne]
    simp

/-! ## The walk -/

theorem walk_spec {next : ℕ → Option ℕ} {k x : ℕ} {l : List ℕ} (hk : 0 < k) (hl : IsSeg next (some x) l none) :
    ∃ P R, l = (P ++ [(walk next k x).1]) ++ R ∧ (walk next k x).2 = P.length + 1 := by
  induction k generalizing x l with
  | zero => exact absurd hk (lt_irrefl 0)
  | succ k ih =>
    cases l with
    | nil => cases hl
    | cons y l =>
      obtain ⟨he,hrest⟩ := hl
      obtain rfl := Option.some.inj he
      unfold walk
      cases hx : next x with
      | none => exact ⟨[],l,rfl,rfl⟩
      | some y =>
        rw [hx] at hrest
        by_cases hk0 : k = 0
        · simp only [hk0, if_true]
          exact ⟨[],l,rfl,rfl⟩
        · simp only [hk0, if_false]
          obtain ⟨P,R,hPR,hlen⟩ := ih (Nat.pos_of_ne_zero hk0) hrest
          refine ⟨x :: P,R,?_,by rw [hlen]; rfl⟩
          rw [hPR]
          rfl

theorem walk_batchOk {next : ℕ → Option ℕ} {k x : ℕ} {l : List ℕ} (hk : 0 < k) (hl : IsSeg next (some x) l none) :
    BatchOk l ⟨x,(walk next k x).1,(walk next k x).2⟩ :=
  ⟨hl.head?_eq.symm,walk_spec hk hl⟩

/-! ## Steps that move states -/

theorem moveTo_far {a b q : Place n} {P R : List ℕ} (ha : a.near t) (hb : b.near t) (hq : ¬q.near t) :
    moveTo lists a b P R q = lists q := by
  apply moveTo_of_ne
  · rintro rfl
    exact hq ha
  · rintro rfl
    exact hq hb

/-- A store to the successor of a state of one's own is not seen by others. -/
theorem Inv.update_far (h : Inv s lists) {a : Place n} {x : ℕ} (hx : x ∈ lists a) (ha : a.near t) (v : Option ℕ)
    (q : Place n) (hq : ¬q.near t) : ∀ y ∈ lists q, Function.update s.next x v y = s.next y := by
  intro y hy
  rw [Function.update_of_ne]
  rintro rfl
  have hqa := h.arr.unique y q a hy hx
  rw [hqa] at hq
  exact hq ha

theorem ofNat_add_sub (a b : ℕ) : UInt32.ofNat (a + b) - UInt32.ofNat b = UInt32.ofNat a := by
  rw [UInt32.ofNat_add,UInt32.add_sub_cancel]

theorem Inv.pop (h : Inv s lists) {state : ℕ} (hpc : s.pc t = .outside) (hl : (s.threadList t).list = some state) :
    ∃ R, lists (.localList t) = state :: R ∧
      Inv { (s.setList t ⟨s.next state,(s.threadList t).listSize - 1⟩).setNext state none with
        handed := state :: s.handed } (moveTo lists (.localList t) .handed [state] R) := by
  have hseg := h.localSeg t
  rw [hl] at hseg
  cases hL : lists (.localList t) with
  | nil =>
    rw [hL] at hseg
    cases hseg
  | cons x R =>
    rw [hL] at hseg
    obtain ⟨he,hrest⟩ := hseg
    obtain rfl := Option.some.inj he
    refine ⟨R,rfl,?_⟩
    have hmem : state ∈ lists (.localList t) := by simp [hL]
    have hnd := h.arr.nodup (.localList t)
    rw [hL] at hnd
    have hfrom : moveTo lists (.localList t) .handed [state] R (.localList t) = R := moveTo_from (by simp)
    have hmov : moveTo lists (.localList t) .handed [state] R (.moving t) = lists (.moving t) :=
      moveTo_of_ne (by simp) (by simp)
    have hglob : moveTo lists (.localList t) .handed [state] R .globalList = lists .globalList :=
      moveTo_of_ne (by simp) (by simp)
    refine h.step (t := t) ?_ ?_
    · refine ⟨fun t' hne => Function.update_of_ne hne _ _,fun _ _ => rfl,?_,?_,fun _ => ⟨rfl,hglob⟩⟩
      · exact fun q hq => moveTo_far (by simp [Place.near]) (by simp [Place.near]) hq
      · exact h.update_far hmem (by simp [Place.near]) none
    · constructor
      case arr => exact h.arr.move (by simp) (by simp [hL])
      case handed =>
        rw [moveTo_to,h.handed]
        rfl
      case localSeg =>
        rw [hfrom]
        simp only [Pool.setNext, Pool.setList, Function.update_self]
        exact hrest.update (List.nodup_cons.mp hnd).1 none
      case localSize =>
        rw [hfrom]
        simp only [Pool.setNext, Pool.setList, Function.update_self]
        rw [h.localSize t,hL]
        exact ofNat_add_sub R.length 1
      case globalSeg =>
        rw [hglob]
        exact h.globalSeg.update (h.arr.notMem hmem (by simp)) none
      case globalSize =>
        rw [hglob]
        exact h.globalSize
      case lock => exact h.lock
      case pc =>
        have hp := h.pc t
        rw [hpc] at hp
        rw [hmov]
        change PcOk _ _ _ _ _ (s.pc t)
        rw [hpc]
        exact hp
      case allocated => exact h.allocated

theorem Inv.push (h : Inv s lists) {state : ℕ} (hpc : s.pc t = .outside) (hmem : state ∈ s.handed) :
    Inv (freeEnter s t state) (moveTo lists .handed (.localList t) [state] (s.handed.erase state)) := by
  have hB : lists (.moving t) = [] := by
    have hp := h.pc t
    rwa [hpc] at hp
  have hmem' : state ∈ lists .handed := by rwa [h.handed]
  have hto : moveTo lists .handed (.localList t) [state] (s.handed.erase state) (.localList t)
      = state :: lists (.localList t) := moveTo_to
  have hmov : moveTo lists .handed (.localList t) [state] (s.handed.erase state) (.moving t)
      = lists (.moving t) := moveTo_of_ne (by simp) (by simp)
  have hglob : moveTo lists .handed (.localList t) [state] (s.handed.erase state) .globalList
      = lists .globalList := moveTo_of_ne (by simp) (by simp)
  refine h.step (t := t) ?_ ?_
  · refine ⟨fun t' hne => Function.update_of_ne hne _ _,fun t' hne => Function.update_of_ne hne _ _,?_,?_,
      fun _ => ⟨rfl,hglob⟩⟩
    · exact fun q hq => moveTo_far (by simp [Place.near]) (by simp [Place.near]) hq
    · exact h.update_far hmem' (by simp [Place.near]) _
  · constructor
    case arr =>
      refine h.arr.move (by simp) ?_
      rw [h.handed]
      exact List.perm_cons_erase hmem
    case handed => exact moveTo_from (by simp)
    case localSeg =>
      rw [hto]
      simp only [freeEnter, Pool.setPc, Pool.setNext, Pool.setList, Function.update_self]
      refine ⟨rfl,?_⟩
      rw [Function.update_self]
      exact (h.localSeg t).update (h.arr.notMem hmem' (by simp)) _
    case localSize =>
      rw [hto]
      simp only [freeEnter, Pool.setPc, Pool.setNext, Pool.setList, Function.update_self]
      rw [h.localSize t,List.length_cons,UInt32.ofNat_add]
      rfl
    case globalSeg =>
      rw [hglob]
      exact h.globalSeg.update (h.arr.notMem hmem' (by simp)) _
    case globalSize =>
      rw [hglob]
      exact h.globalSize
    case lock => exact h.lock_setPc (by simp [hpc, Pc.holdsLock])
    case pc =>
      rw [hto,hmov,hB]
      simp only [freeEnter, Pool.setPc, Pool.setNext, Pool.setList, Function.update_self]
      exact ⟨by simp,rfl⟩
    case allocated => exact h.allocated_setPc (by simp [hpc, Pc.pending])

/-- The walked states are cut off the global list. -/
theorem Inv.cut (h : Inv s lists) {batch : Batch} (hpc : s.pc t = .getCut batch) :
    ∃ lists', Inv (getCut s t batch) lists' := by
  have hp := h.pc t
  rw [hpc] at hp
  obtain ⟨hL,hB,hsize,hhead,P,R,hG,hlen⟩ := hp
  have hseg := h.globalSeg
  rw [hG] at hseg
  obtain ⟨m,hseg₁,hseg₂⟩ := isSeg_append.mp hseg
  obtain ⟨hP,rfl⟩ := isSeg_concat.mp hseg₁
  have hst : s.globalList.list = some batch.state := by rw [h.globalSeg.head?_eq,hhead]
  have hfrom : moveTo lists .globalList (.moving t) (P ++ [batch.stateLast]) R .globalList = R :=
    moveTo_from (by simp)
  have hto : moveTo lists .globalList (.moving t) (P ++ [batch.stateLast]) R (.moving t)
      = P ++ [batch.stateLast] := by rw [moveTo_to,hB,List.append_nil]
  have hloc : moveTo lists .globalList (.moving t) (P ++ [batch.stateLast]) R (.localList t)
      = lists (.localList t) := moveTo_of_ne (by simp) (by simp)
  refine ⟨moveTo lists .globalList (.moving t) (P ++ [batch.stateLast]) R,h.step (t := t) ?_ ?_⟩
  · refine ⟨fun _ _ => rfl,fun t' hne => Function.update_of_ne hne _ _,?_,fun _ _ _ _ => rfl,?_⟩
    · exact fun q hq => moveTo_far (by simp [Place.near]) (by simp [Place.near]) hq
    · simp [hpc, Pc.holdsLock]
  · constructor
    case arr => exact h.arr.move (by simp) (by rw [hG])
    case handed =>
      rw [moveTo_of_ne (by simp) (by simp)]
      exact h.handed
    case localSeg =>
      rw [hloc]
      exact h.localSeg t
    case localSize =>
      rw [hloc]
      exact h.localSize t
    case globalSeg =>
      rw [hfrom]
      exact hseg₂
    case globalSize =>
      intro hl
      have hlock := (h.lock t).mp (by simp [hpc, Pc.holdsLock])
      have hl' : s.lock = none := hl
      rw [hlock] at hl'
      cases hl'
    case lock => exact h.lock_setPc (by simp [hpc, Pc.holdsLock])
    case pc =>
      rw [hto,hloc,hfrom]
      simp only [getCut, Pool.setPc, Function.update_self]
      refine ⟨hL,⟨s.next batch.stateLast,?_,P,rfl,hlen⟩,?_⟩
      · rw [← hst]
        exact hseg₁
      · rw [hsize,hG]
        congr 1
        simp only [List.length_append, List.length_cons, List.length_nil]
        omega
    case allocated => exact h.allocated_setPc (by simp [hpc, Pc.pending])

/-- The sizes of the global list are stored by the holder of the lock. -/
theorem Inv.setGlobalSize (h : Inv s lists) {p : Pc} {size : UInt32} (ht : (s.pc t).holdsLock = true)
    (hl : p.holdsLock = true) (hpend : p.pending = (s.pc t).pending)
    (hp : PcOk s.next (lists (.localList t)) (lists (.moving t)) (lists .globalList) ⟨s.globalList.list,size⟩ p) :
    Inv ({ s with globalList := ⟨s.globalList.list,size⟩ }.setPc t p) lists := by
  refine h.step (t := t) ?_ ?_
  · exact ⟨fun _ _ => rfl,fun t' hne => Function.update_of_ne hne _ _,fun _ _ => rfl,fun _ _ _ _ => rfl,
      by simp [ht]⟩
  · refine ⟨h.arr,h.handed,h.localSeg t,h.localSize t,h.globalSeg,fun hfree => ?_,h.lock_setPc (hl.trans ht.symm),
      ?_,h.allocated_setPc hpend⟩
    · have hlock := (h.lock t).mp ht
      have hfree' : s.lock = none := hfree
      rw [hlock] at hfree'
      cases hfree'
    · simpa [Pool.setPc] using hp

/-- The detached states: the first is handed out, the others become the local list. -/
theorem Inv.take (h : Inv s lists) {batch : Batch} (hpc : s.pc t = .getTake batch) :
    ∃ lists', Inv (getTake s t batch) lists' := by
  have hp := h.pc t
  rw [hpc] at hp
  obtain ⟨hL,m,hseg,P,hB,hlen⟩ := hp
  have hnd := h.arr.nodup (.moving t)
  rw [hB] at hseg hnd
  have hlast : batch.stateLast ∉ P := by
    rw [List.nodup_append] at hnd
    exact fun hm => hnd.2.2 _ hm _ (List.mem_singleton_self _) rfl
  have hcut := hseg.setLast hlast none
  -- the batch by its first state
  obtain ⟨Q,hQ⟩ : ∃ Q, P ++ [batch.stateLast] = batch.state :: Q := by
    cases P with
    | nil =>
      obtain ⟨he,-⟩ := hseg
      exact ⟨[],by rw [Option.some.inj he]; rfl⟩
    | cons x P =>
      obtain ⟨he,-⟩ := hseg
      exact ⟨P ++ [batch.stateLast],by rw [Option.some.inj he]; rfl⟩
  have hmemLast : batch.stateLast ∈ lists (.moving t) := by simp [hB]
  have hmemState : batch.state ∈ lists (.moving t) := by simp [hB, hQ]
  rw [hQ] at hcut hB hnd
  have hQlen : batch.picked - 1 = Q.length := by
    have hl := congrArg List.length hQ
    simp only [List.length_append, List.length_cons, List.length_nil] at hl
    omega
  have hfar : ∀ x, x ∉ lists (.moving t) →
      Function.update (Function.update s.next batch.stateLast none) batch.state none x = s.next x := by
    intro x hx
    rw [Function.update_of_ne,Function.update_of_ne]
    · rintro rfl
      exact hx hmemLast
    · rintro rfl
      exact hx hmemState
  let lists₁ := moveTo lists (.moving t) .handed [batch.state] Q
  have h₁ : lists₁ (.moving t) = Q := moveTo_from (by simp)
  have h₁L : lists₁ (.localList t) = [] := by
    rw [← hL]
    exact moveTo_of_ne (by simp) (by simp)
  have hto : moveTo lists₁ (.moving t) (.localList t) Q [] (.localList t) = Q := by
    rw [moveTo_to,h₁L,List.append_nil]
  have hmov : moveTo lists₁ (.moving t) (.localList t) Q [] (.moving t) = [] := moveTo_from (by simp)
  have hglob : moveTo lists₁ (.moving t) (.localList t) Q [] .globalList = lists .globalList := by
    rw [moveTo_of_ne (by simp) (by simp)]
    exact moveTo_of_ne (by simp) (by simp)
  refine ⟨moveTo lists₁ (.moving t) (.localList t) Q [],h.step (t := t) ?_ ?_⟩
  · refine ⟨fun t' hne => Function.update_of_ne hne _ _,fun t' hne => Function.update_of_ne hne _ _,?_,?_,
      fun _ => ⟨rfl,hglob⟩⟩
    · intro q hq
      rw [moveTo_far (by simp [Place.near]) (by simp [Place.near]) hq]
      exact moveTo_far (by simp [Place.near]) (by simp [Place.near]) hq
    · intro q hq x hx
      refine hfar x fun hm => hq ?_
      rw [h.arr.unique x q _ hx hm]
      rfl
  · constructor
    case arr =>
      have harr : Arranged (· < s.numStates) lists₁ := h.arr.move (by simp) (by rw [hB]; rfl)
      exact harr.move (by simp) (by rw [h₁,List.append_nil])
    case handed =>
      rw [moveTo_of_ne (by simp) (by simp)]
      change moveTo lists (.moving t) .handed [batch.state] Q .handed = batch.state :: s.handed
      rw [moveTo_to,h.handed]
      rfl
    case localSeg =>
      rw [hto]
      simp only [getTake, Pool.setPc, Pool.setNext, Pool.setList, Function.update_self]
      exact hcut.2.update (List.nodup_cons.mp hnd).1 none
    case localSize =>
      rw [hto]
      simp only [getTake, Pool.setPc, Pool.setNext, Pool.setList, Function.update_self]
      rw [h.localSize t,hL,hQlen]
      exact UInt32.zero_add _
    case globalSeg =>
      rw [hglob]
      exact h.globalSeg.congr fun x hx => hfar x (h.arr.notMem hx (by simp))
    case globalSize =>
      rw [hglob]
      exact h.globalSize
    case lock => exact h.lock_setPc (by simp [hpc, Pc.holdsLock])
    case pc =>
      rw [hmov]
      simp only [getTake, Pool.setPc, Pool.setNext, Pool.setList, Function.update_self]
      rfl
    case allocated => exact h.allocated_setPc (by simp [hpc, Pc.pending])

/-- The picked batch leaves the local list. -/
theorem Inv.splice (h : Inv s lists) {batch : Batch} (hpc : s.pc t = .freeSplice batch) :
    ∃ lists', Inv (freeSplice s t batch) lists' := by
  have hp := h.pc t
  rw [hpc] at hp
  obtain ⟨hB,⟨hhead,P,R,hL,hlen⟩,hsize⟩ := hp
  have hseg := h.localSeg t
  have hnd := h.arr.nodup (.localList t)
  have hst : (s.threadList t).list = some batch.state := by rw [hseg.head?_eq,hhead]
  have hmem : batch.stateLast ∈ lists (.localList t) := by simp [hL]
  rw [hL] at hseg hnd
  obtain ⟨m,hseg₁,hseg₂⟩ := isSeg_append.mp hseg
  obtain ⟨-,rfl⟩ := isSeg_concat.mp hseg₁
  obtain ⟨hndP,-,hdis⟩ := List.nodup_append.mp hnd
  have hlastP : batch.stateLast ∉ P :=
    fun hm => (List.nodup_append.mp hndP).2.2 _ hm _ (List.mem_singleton_self _) rfl
  have hlastR : batch.stateLast ∉ R := fun hm => hdis _ (by simp) _ hm rfl
  have hfrom : moveTo lists (.localList t) (.moving t) (P ++ [batch.stateLast]) R (.localList t) = R :=
    moveTo_from (by simp)
  have hto : moveTo lists (.localList t) (.moving t) (P ++ [batch.stateLast]) R (.moving t)
      = P ++ [batch.stateLast] := by rw [moveTo_to,hB,List.append_nil]
  have hglob : moveTo lists (.localList t) (.moving t) (P ++ [batch.stateLast]) R .globalList
      = lists .globalList := moveTo_of_ne (by simp) (by simp)
  refine ⟨moveTo lists (.localList t) (.moving t) (P ++ [batch.stateLast]) R,h.step (t := t) ?_ ?_⟩
  · refine ⟨fun t' hne => Function.update_of_ne hne _ _,fun t' hne => Function.update_of_ne hne _ _,?_,?_,
      fun _ => ⟨rfl,hglob⟩⟩
    · exact fun q hq => moveTo_far (by simp [Place.near]) (by simp [Place.near]) hq
    · exact h.update_far hmem (by simp [Place.near]) _
  · constructor
    case arr => exact h.arr.move (by simp) (by rw [hL])
    case handed =>
      rw [moveTo_of_ne (by simp) (by simp)]
      exact h.handed
    case localSeg =>
      rw [hfrom]
      simp only [freeSplice, Pool.setPc, Pool.setNext, Pool.setList, Function.update_self]
      exact hseg₂.update hlastR _
    case localSize =>
      rw [hfrom]
      simp only [freeSplice, Pool.setPc, Pool.setNext, Pool.setList, Function.update_self]
      rw [h.localSize t,hL,hlen,← ofNat_add_sub R.length (P.length + 1)]
      congr 2
      simp only [List.length_append, List.length_cons, List.length_nil]
      omega
    case globalSeg =>
      rw [hglob]
      exact h.globalSeg.update (h.arr.notMem hmem (by simp)) _
    case globalSize =>
      rw [hglob]
      exact h.globalSize
    case lock => exact h.lock_setPc (by simp [hpc, Pc.holdsLock])
    case pc =>
      rw [hto,hglob]
      simp only [freeSplice, Pool.setPc, Pool.setNext, Pool.setList, Function.update_self]
      refine ⟨⟨?_,P,rfl,hlen⟩,hsize⟩
      rw [← hst]
      exact hseg₁.setLast hlastP _
    case allocated => exact h.allocated_setPc (by simp [hpc, Pc.pending])

/-- The batch becomes the front of the global list. -/
theorem Inv.publish (h : Inv s lists) {batch : Batch} (hpc : s.pc t = .freePublish batch) :
    ∃ lists', Inv (freePublish s t batch) lists' := by
  have hp := h.pc t
  rw [hpc] at hp
  obtain ⟨⟨hseg,P,hB,hlen⟩,hsize⟩ := hp
  have hto : moveTo lists (.moving t) .globalList (lists (.moving t)) [] .globalList
      = lists (.moving t) ++ lists .globalList := moveTo_to
  have hfrom : moveTo lists (.moving t) .globalList (lists (.moving t)) [] (.moving t) = [] :=
    moveTo_from (by simp)
  have hloc : moveTo lists (.moving t) .globalList (lists (.moving t)) [] (.localList t)
      = lists (.localList t) := moveTo_of_ne (by simp) (by simp)
  refine ⟨moveTo lists (.moving t) .globalList (lists (.moving t)) [],h.step (t := t) ?_ ?_⟩
  · refine ⟨fun _ _ => rfl,fun t' hne => Function.update_of_ne hne _ _,?_,fun _ _ _ _ => rfl,?_⟩
    · exact fun q hq => moveTo_far (by simp [Place.near]) (by simp [Place.near]) hq
    · simp [hpc, Pc.holdsLock]
  · constructor
    case arr => exact h.arr.move (by simp) (by simp)
    case handed =>
      rw [moveTo_of_ne (by simp) (by simp)]
      exact h.handed
    case localSeg =>
      rw [hloc]
      exact h.localSeg t
    case localSize =>
      rw [hloc]
      exact h.localSize t
    case globalSeg =>
      rw [hto]
      exact isSeg_append.mpr ⟨_,hseg,h.globalSeg⟩
    case globalSize =>
      intro hl
      have hlock := (h.lock t).mp (by simp [hpc, Pc.holdsLock])
      have hl' : s.lock = none := hl
      rw [hlock] at hl'
      cases hl'
    case lock => exact h.lock_setPc (by simp [hpc, Pc.holdsLock])
    case pc =>
      rw [hto,hfrom,hloc]
      simp only [freePublish, Pool.setPc, Function.update_self]
      refine ⟨rfl,?_⟩
      rw [hsize,← UInt32.ofNat_add,hB,hlen]
      congr 1
      simp only [List.length_append, List.length_cons, List.length_nil]
      omega
    case allocated => exact h.allocated_setPc (by simp [hpc, Pc.pending])

/-- The fresh states are counted, and the first of them may be returned. -/
theorem Inv.add (h : Inv s lists) {num : ℕ} {state : Option ℕ} (hpc : s.pc t = .adding num state) :
    Inv { s.setPc t .outside with
      allocatedTasks := s.allocatedTasks + UInt32.ofNat num, handed := state.toList ++ s.handed }
      (moveTo lists (.moving t) .handed state.toList []) := by
  have hB := h.pc t
  rw [hpc] at hB
  have hfrom : moveTo lists (.moving t) .handed state.toList [] (.moving t) = [] := moveTo_from (by simp)
  have hloc : moveTo lists (.moving t) .handed state.toList [] (.localList t) = lists (.localList t) :=
    moveTo_of_ne (by simp) (by simp)
  have hglob : moveTo lists (.moving t) .handed state.toList [] .globalList = lists .globalList :=
    moveTo_of_ne (by simp) (by simp)
  refine h.step (t := t) ?_ ?_
  · refine ⟨fun _ _ => rfl,fun t' hne => Function.update_of_ne hne _ _,?_,fun _ _ _ _ => rfl,fun _ => ⟨rfl,hglob⟩⟩
    exact fun q hq => moveTo_far (by simp [Place.near]) (by simp [Place.near]) hq
  · constructor
    case arr =>
      refine h.arr.move (by simp) ?_
      rw [hB,List.append_nil]
    case handed =>
      rw [moveTo_to,h.handed]
    case localSeg =>
      rw [hloc]
      exact h.localSeg t
    case localSize =>
      rw [hloc]
      exact h.localSize t
    case globalSeg =>
      rw [hglob]
      exact h.globalSeg
    case globalSize =>
      rw [hglob]
      exact h.globalSize
    case lock => exact h.lock_setPc (by simp [hpc, Pc.holdsLock])
    case pc =>
      rw [hfrom]
      simp only [Pool.setPc, Function.update_self]
      rfl
    case allocated =>
      have hsum := sum_pending_update s.pc t .outside
      rw [hpc] at hsum
      have hsum' : ∑ t', (s.pc t').pending = num + ∑ t', (Function.update s.pc t .outside t').pending := by
        simp only [Pc.pending] at hsum ⊢
        omega
      have halloc := h.allocated
      rw [hsum',UInt32.ofNat_add,← UInt32.add_assoc] at halloc
      exact halloc

theorem Inv.listInit (h : Inv s lists) (hpc : s.pc t = .unborn) : ∃ lists', Inv (listInit s t) lists' := by
  have hp := h.pc t
  rw [hpc] at hp
  obtain ⟨hL,hB⟩ := hp
  have hold : ∀ q, ∀ x ∈ lists q, chain s.next s.numStates (numInitState - 1) x = s.next x :=
    fun q x hx => chain_of_lt (h.arr.holds hx)
  have hto : putIn lists (.localList t) (List.range' s.numStates numInitState) (.localList t)
      = List.range' s.numStates numInitState := by rw [putIn_self,hL,List.append_nil]
  have hmov : putIn lists (.localList t) (List.range' s.numStates numInitState) (.moving t) = [] := by
    rw [putIn_of_ne (by simp),hB]
  have hglob : putIn lists (.localList t) (List.range' s.numStates numInitState) .globalList
      = lists .globalList := putIn_of_ne (by simp)
  refine ⟨putIn lists (.localList t) (List.range' s.numStates numInitState),h.step (t := t) ?_ ?_⟩
  · refine ⟨fun t' hne => Function.update_of_ne hne _ _,fun t' hne => Function.update_of_ne hne _ _,?_,
      fun q _ => hold q,fun _ => ⟨rfl,hglob⟩⟩
    intro q hq
    apply putIn_of_ne
    rintro rfl
    exact hq rfl
  · constructor
    case arr =>
      refine h.arr.put List.nodup_range' (fun x hx => ?_) fun x => ?_
      · rw [List.mem_range'_1] at hx
        omega
      · change x < s.numStates + numInitState ↔ x < s.numStates ∨ _
        rw [List.mem_range'_1]
        omega
    case handed =>
      rw [putIn_of_ne (by simp)]
      exact h.handed
    case localSeg =>
      rw [hto]
      simp only [StatePool.listInit, Pool.setPc, Pool.setList, stateListAlloc, Function.update_self]
      exact chain_isSeg _ _ 1023
    case localSize =>
      rw [hto,List.length_range']
      simp only [StatePool.listInit, Pool.setPc, Pool.setList, Function.update_self]
    case globalSeg =>
      rw [hglob]
      exact h.globalSeg.congr (hold .globalList)
    case globalSize =>
      rw [hglob]
      exact h.globalSize
    case lock => exact h.lock_setPc (by simp [hpc, Pc.holdsLock])
    case pc =>
      rw [hmov]
      simp only [StatePool.listInit, Pool.setPc, Pool.setList, Function.update_self]
      rfl
    case allocated => exact h.allocated_fresh (by simp [hpc, Pc.pending])

/-- Fresh states for a thread that found none: the first is on its way to the caller. -/
theorem Inv.alloc (h : Inv s lists) (hpc : s.pc t = .getAlloc) : ∃ lists', Inv (getAlloc s t) lists' := by
  have hp := h.pc t
  rw [hpc] at hp
  obtain ⟨hL,hB⟩ := hp
  have hold : ∀ q, ∀ x ∈ lists q,
      Function.update (chain s.next s.numStates (numAddState - 1)) s.numStates none x = s.next x := by
    intro q x hx
    have hlt : x < s.numStates := h.arr.holds hx
    rw [Function.update_of_ne (by omega)]
    exact chain_of_lt hlt
  let lists₁ := putIn lists (.moving t) [s.numStates]
  have h₁ : lists₁ (.moving t) = [s.numStates] := by
    change putIn lists (.moving t) [s.numStates] (.moving t) = _
    rw [putIn_self,hB]
    rfl
  have h₁L : lists₁ (.localList t) = [] := by
    rw [← hL]
    exact putIn_of_ne (by simp)
  have hto : putIn lists₁ (.localList t) (List.range' (s.numStates + 1) 63) (.localList t)
      = List.range' (s.numStates + 1) 63 := by rw [putIn_self,h₁L,List.append_nil]
  have hmov : putIn lists₁ (.localList t) (List.range' (s.numStates + 1) 63) (.moving t) = [s.numStates] := by
    rw [putIn_of_ne (by simp),h₁]
  have hglob : putIn lists₁ (.localList t) (List.range' (s.numStates + 1) 63) .globalList
      = lists .globalList := by
    rw [putIn_of_ne (by simp)]
    exact putIn_of_ne (by simp)
  refine ⟨putIn lists₁ (.localList t) (List.range' (s.numStates + 1) 63),h.step (t := t) ?_ ?_⟩
  · refine ⟨fun t' hne => Function.update_of_ne hne _ _,fun t' hne => Function.update_of_ne hne _ _,?_,
      fun q _ => hold q,fun _ => ⟨rfl,hglob⟩⟩
    intro q hq
    have hloc : q ≠ .localList t := by
      rintro rfl
      exact hq rfl
    have hmv : q ≠ .moving t := by
      rintro rfl
      exact hq rfl
    rw [putIn_of_ne hloc]
    exact putIn_of_ne hmv
  · constructor
    case arr =>
      have harr : Arranged (· < s.numStates + 1) lists₁ := by
        refine h.arr.put (List.nodup_singleton _) (fun x hx => ?_) fun x => ?_
        · rw [List.mem_singleton] at hx
          omega
        · rw [List.mem_singleton]
          omega
      refine harr.put List.nodup_range' (fun x hx => ?_) fun x => ?_
      · rw [List.mem_range'_1] at hx
        omega
      · change x < s.numStates + 64 ↔ x < s.numStates + 1 ∨ _
        rw [List.mem_range'_1]
        omega
    case handed =>
      rw [putIn_of_ne (by simp)]
      exact (putIn_of_ne (by simp)).trans h.handed
    case localSeg =>
      rw [hto]
      simp only [getAlloc, Pool.setPc, Pool.setList, Pool.setNext, stateListAlloc, Function.update_self]
      have hseg := chain_isSeg s.next s.numStates 63
      rw [List.range'_succ] at hseg
      exact hseg.2.update (by simp [List.mem_range'_1]) none
    case localSize =>
      rw [hto,List.length_range']
      simp only [getAlloc, Pool.setPc, Pool.setList, Pool.setNext, Function.update_self]
      rfl
    case globalSeg =>
      rw [hglob]
      exact h.globalSeg.congr (hold .globalList)
    case globalSize =>
      rw [hglob]
      exact h.globalSize
    case lock => exact h.lock_setPc (by simp [hpc, Pc.holdsLock])
    case pc =>
      rw [hmov]
      simp only [getAlloc, Pool.setPc, Pool.setList, Pool.setNext, Function.update_self]
      rfl
    case allocated => exact h.allocated_fresh (by simp [hpc, Pc.pending])

/-! ## Runs -/

/-- Some lists describe the pool. -/
def Listed (s : Pool n) : Prop := ∃ lists, Inv s lists

theorem advance_listed (h : Inv s lists) (hs : advance s t = some s') : Listed s' := by
  have hp := h.pc t
  unfold advance at hs
  split at hs
  case h_1 => cases hs
  case h_2 => cases hs
  case h_3 num state hpc =>
    obtain rfl := Option.some.inj hs
    exact ⟨_,h.add hpc⟩
  case h_4 hpc =>
    rw [hpc] at hp
    split at hs <;> obtain rfl := Option.some.inj hs
    · exact ⟨lists,h.move (by rw [hpc]; rfl) hp (by rw [hpc]; rfl)⟩
    · exact ⟨lists,h.move (by rw [hpc]; rfl) hp (by rw [hpc]; rfl)⟩
  case h_5 hpc =>
    rw [hpc] at hp
    split at hs <;> obtain rfl := Option.some.inj hs
    case isTrue => exact ⟨lists,h.move (by rw [hpc]; rfl) hp (by rw [hpc]; rfl)⟩
    case isFalse hl =>
      have hfree : s.lock = none := by simpa using hl
      exact ⟨lists,h.acquire hfree rfl (fun hg => ⟨hp.1,hp.2,hg⟩) (by rw [hpc]; rfl)⟩
  case h_6 hpc =>
    obtain rfl := Option.some.inj hs
    rw [hpc] at hp
    unfold getLocked
    split
    case h_1 => exact ⟨lists,h.move (by rw [hpc]; rfl) hp (by rw [hpc]; rfl)⟩
    case h_2 state hl =>
      have hseg := h.globalSeg
      rw [hl] at hseg
      exact ⟨lists,h.move (by rw [hpc]; rfl) ⟨hp.1,hp.2.1,hp.2.2,walk_batchOk (by decide) hseg⟩ (by rw [hpc]; rfl)⟩
  case h_7 hpc =>
    obtain rfl := Option.some.inj hs
    rw [hpc] at hp
    exact ⟨lists,h.release (by rw [hpc]; rfl) rfl hp.2.2 ⟨hp.1,hp.2.1⟩ (by rw [hpc]; rfl)⟩
  case h_8 batch hpc =>
    obtain rfl := Option.some.inj hs
    exact h.cut hpc
  case h_9 batch hpc =>
    obtain rfl := Option.some.inj hs
    rw [hpc] at hp
    refine ⟨lists,h.setGlobalSize (by rw [hpc]; rfl) rfl (by rw [hpc]; rfl) ⟨hp.1,hp.2.1,?_⟩⟩
    dsimp only
    rw [hp.2.2]
    exact ofNat_add_sub _ _
  case h_10 batch hpc =>
    obtain rfl := Option.some.inj hs
    rw [hpc] at hp
    exact ⟨lists,h.release (by rw [hpc]; rfl) rfl hp.2.2 ⟨hp.1,hp.2.1⟩ (by rw [hpc]; rfl)⟩
  case h_11 batch hpc =>
    obtain rfl := Option.some.inj hs
    exact h.take hpc
  case h_12 hpc =>
    obtain rfl := Option.some.inj hs
    exact h.alloc hpc
  case h_13 batch hpc =>
    obtain rfl := Option.some.inj hs
    rw [hpc] at hp
    unfold freeLoop
    dsimp only
    split
    case isTrue =>
      refine ⟨lists,h.move (by rw [hpc]; rfl) ?_ (by rw [hpc]; rfl)⟩
      cases batch with
      | none => exact hp.2
      | some batch => exact hp.1
    case isFalse hsur =>
      refine ⟨lists,h.move (by rw [hpc]; rfl) ?_ (by rw [hpc]; rfl)⟩
      cases batch with
      | none => exact ⟨hp.1,hp.2,hsur⟩
      | some batch => exact hp
  case h_14 level surplus batch hpc =>
    rw [hpc] at hp
    unfold freeCheck at hs
    dsimp only at hs
    split at hs
    case isTrue =>
      obtain rfl := Option.some.inj hs
      refine ⟨lists,h.move (by rw [hpc]; rfl) ?_ (by rw [hpc]; rfl)⟩
      cases batch with
      | none => exact hp.2.1
      | some batch => exact hp.1
    case isFalse =>
      split at hs
      case h_1 => 
        obtain rfl := Option.some.inj hs
        exact ⟨lists,h.move (by rw [hpc]; rfl) hp (by rw [hpc]; rfl)⟩
      case h_2 state hl =>
        obtain rfl := Option.some.inj hs
        have hseg := h.localSeg t
        rw [hl] at hseg
        have hpos : 0 < surplus.toNat := by
          refine Nat.pos_of_ne_zero fun h0 => hp.2.2 ?_
          exact UInt32.toNat_inj.mp h0
        exact ⟨lists,h.move (by rw [hpc]; rfl) ⟨hp.2.1,walk_batchOk hpos hseg⟩ (by rw [hpc]; rfl)⟩
      case h_3 => cases hs
  case h_15 level batch hpc =>
    rw [hpc] at hp
    split at hs <;> obtain rfl := Option.some.inj hs
    case isTrue => exact ⟨lists,h.move (by rw [hpc]; rfl) hp (by rw [hpc]; rfl)⟩
    case isFalse hl =>
      have hfree : s.lock = none := by simpa using hl
      exact ⟨lists,h.acquire hfree rfl (fun hg => ⟨hp.1,hp.2,hg⟩) (by rw [hpc]; rfl)⟩
  case h_16 level batch hpc =>
    rw [hpc] at hp
    split at hs <;> obtain rfl := Option.some.inj hs
    · exact ⟨lists,h.move (by rw [hpc]; rfl) ⟨hp.1,hp.2.2⟩ (by rw [hpc]; rfl)⟩
    · exact ⟨lists,h.move (by rw [hpc]; rfl) hp (by rw [hpc]; rfl)⟩
  case h_17 batch hpc =>
    obtain rfl := Option.some.inj hs
    exact h.splice hpc
  case h_18 batch hpc =>
    obtain rfl := Option.some.inj hs
    exact h.publish hpc
  case h_19 batch hpc =>
    obtain rfl := Option.some.inj hs
    rw [hpc] at hp
    exact ⟨lists,h.setGlobalSize (by rw [hpc]; rfl) rfl (by rw [hpc]; rfl) ⟨hp.1,hp.2⟩⟩
  case h_20 hpc =>
    obtain rfl := Option.some.inj hs
    rw [hpc] at hp
    exact ⟨lists,h.release (by rw [hpc]; rfl) rfl hp.2 hp.1 (by rw [hpc]; rfl)⟩

theorem pc_eq_outside {p : Pc} (h : p.isOutside = true) : p = .outside := by
  cases p <;> first | rfl | cases h

theorem pc_eq_unborn {p : Pc} (h : p.isUnborn = true) : p = .unborn := by
  cases p <;> first | rfl | cases h

theorem step_listed {e : Event n} (h : Listed s) (hs : step s e = some s') : Listed s' := by
  obtain ⟨lists,h⟩ := h
  cases e with
  | listInit t =>
    simp only [step, Option.ite_none_right_eq_some, Option.some.injEq] at hs
    obtain ⟨hpc,rfl⟩ := hs
    exact h.listInit (pc_eq_unborn hpc)
  | getTaskState t =>
    simp only [step, Option.ite_none_right_eq_some, Option.some.injEq] at hs
    obtain ⟨hpc,rfl⟩ := hs
    have hout := pc_eq_outside hpc
    unfold getEnter
    split
    case h_1 state hl =>
      obtain ⟨R,-,hR⟩ := h.pop hout hl
      exact ⟨_,hR⟩
    case h_2 hl =>
      have hL : lists (.localList t) = [] := by
        have hhead := (h.localSeg t).head?_eq
        rw [hl] at hhead
        exact List.head?_eq_none_iff.mp hhead.symm
      have hp := h.pc t
      rw [hout] at hp
      exact ⟨lists,h.move (by rw [hout]; rfl) ⟨hL,hp⟩ (by rw [hout]; rfl)⟩
  | freeTaskState t state =>
    simp only [step, Option.ite_none_right_eq_some, Option.some.injEq] at hs
    obtain ⟨⟨hpc,hmem⟩,rfl⟩ := hs
    exact ⟨_,h.push (pc_eq_outside hpc) hmem⟩
  | advance t => exact advance_listed h hs

/-- A returned state is not handed out already. -/
theorem Inv.returned (h : Inv s lists) {e : Event n} {state : ℕ} (hr : returned s e = some state) :
    state ∉ s.handed := by
  rw [← h.handed]
  cases e with
  | listInit t => cases hr
  | freeTaskState t x => cases hr
  | getTaskState t =>
    have hhead := (h.localSeg t).head?_eq
    rw [show (s.threadList t).list = some state from hr] at hhead
    exact h.arr.notMem (List.mem_of_head? hhead.symm) (by simp)
  | advance t =>
    have hp := h.pc t
    unfold StatePool.returned at hr
    dsimp only at hr
    split at hr
    case h_1 num x hpc =>
      rw [hpc] at hp
      subst hr
      have hmem : state ∈ lists (.moving t) := by
        rw [show lists (.moving t) = _ from hp]
        simp
      exact h.arr.notMem hmem (by simp)
    case h_2 batch hpc =>
      rw [hpc] at hp
      obtain ⟨-,m,hseg,P,hB,-⟩ := hp
      obtain rfl := Option.some.inj hr
      have hmem : batch.state ∈ lists (.moving t) := by
        rw [hB] at hseg ⊢
        cases P with
        | nil => simp [Option.some.inj hseg.1]
        | cons x P => simp [Option.some.inj hseg.1]
      exact h.arr.notMem hmem (by simp)
    case h_3 => cases hr

/-- A call never follows a NULL pointer: its next access can always be made. -/
theorem Inv.advance_isSome (h : Inv s lists) (t : Fin n) (hu : (s.pc t).isUnborn = false)
    (ho : (s.pc t).isOutside = false) : (advance s t).isSome := by
  have hp := h.pc t
  unfold advance
  split
  case h_1 hpc => simp [hpc, Pc.isUnborn] at hu
  case h_2 hpc => simp [hpc, Pc.isOutside] at ho
  case h_4 => split <;> rfl
  case h_5 => split <;> rfl
  case h_14 level surplus batch hpc =>
    rw [hpc] at hp
    unfold freeCheck
    dsimp only
    split
    · rfl
    · split
      case h_1 => rfl
      case h_2 => rfl
      case h_3 hl =>
        have hhead := (h.localSeg t).head?_eq
        rw [hl] at hhead
        exact absurd (List.head?_eq_none_iff.mp hhead.symm) hp.1
  case h_15 => split <;> rfl
  case h_16 => split <;> rfl
  all_goals rfl

/-- In every interleaving no call is given a state that is handed out, and no call gets stuck.  At
every quiescent point each state allocated for the pool is in exactly one place: handed out, in the
local list of one thread, or in the global list; the lists end, no state occurs twice in them, and
the size fields and `allocated_tasks` hold, as values of their type, the lengths and the total. -/
theorem statePool_places (n : ℕ) (es : List (Event n)) (s : Pool n) (hr : run step (init n) es = some s) :
    (∀ e state, returned s e = some state → state ∉ s.handed) ∧
    (∀ t, (s.pc t).isUnborn = false → (s.pc t).isOutside = false → (step s (.advance t)).isSome) ∧
    (Quiescent s → ∃ lists : Place n → List ℕ,
      lists .handed = s.handed ∧ (∀ t, lists (.moving t) = []) ∧
      (∀ state, state < s.numStates ↔ ∃ q, state ∈ lists q) ∧
      (∀ state < s.numStates, ∃! q, state ∈ lists q) ∧ (∀ q, (lists q).Nodup) ∧
      (∀ t, IsSeg s.next (s.threadList t).list (lists (.localList t)) none ∧
        (s.threadList t).listSize = UInt32.ofNat (lists (.localList t)).length) ∧
      IsSeg s.next s.globalList.list (lists .globalList) none ∧
      s.globalList.listSize = UInt32.ofNat (lists .globalList).length ∧
      s.allocatedTasks = UInt32.ofNat s.numStates) := by
  have hstep : ∀ (s : Pool n) e s', Listed s → True → step s e = some s' → Listed s' :=
    fun _ _ _ hi _ hs => step_listed hi hs
  have hinv : Listed s := run_invariant hstep ⟨_,init_inv n⟩ (along_true _ es) hr
  obtain ⟨lists,h⟩ := hinv
  refine ⟨fun e state hret => h.returned hret,fun t hu ho => h.advance_isSome t hu ho,fun hq => ?_⟩
  -- outside the calls nothing is being moved, counted or locked
  have hquiet : ∀ t, lists (.moving t) = [] ∧ (s.pc t).pending = 0 ∧ (s.pc t).holdsLock = false := by
    intro t
    have hp := h.pc t
    obtain hu | ho := hq t
    · rw [pc_eq_unborn hu] at hp ⊢
      exact ⟨hp.2,rfl,rfl⟩
    · rw [pc_eq_outside ho] at hp ⊢
      exact ⟨hp,rfl,rfl⟩
  have hfree : s.lock = none := by
    cases hl : s.lock with
    | none => rfl
    | some t =>
      have ht := (h.lock t).mpr hl
      rw [(hquiet t).2.2] at ht
      cases ht
  have halloc := h.allocated
  rw [Finset.sum_eq_zero fun t _ => (hquiet t).2.1] at halloc
  refine ⟨lists,h.handed,fun t => (hquiet t).1,fun x => (h.arr.mem_iff x).symm,fun x hx => h.arr.existsUnique hx,
    h.arr.nodup,fun t => ⟨h.localSeg t,h.localSize t⟩,h.globalSeg,h.globalSize hfree,?_⟩
  rw [← halloc]
  exact (UInt32.add_zero _).symm

/-- One thread gives back a state of the other and leaves, its list being short enough. -/
def foreignFree (a b : Fin 2) : List (Event 2) :=
  [.listInit a,.listInit b,.advance a,.getTaskState a,.advance b,.getTaskState b,.getTaskState a,
   .freeTaskState a 1024,.advance a,.advance a]

theorem statePool_places_foreignFree :
    ∃ s, run step (init 2) (foreignFree 0 1) = some s ∧ Quiescent s ∧ s.handed = [1,0] ∧
      s.allocatedTasks = UInt32.ofNat s.numStates := by
  refine ⟨_,rfl,?_⟩
  refine ⟨by decide,rfl,?_⟩
  obtain ⟨lists,-,-,-,-,-,-,-,-,halloc⟩ := (statePool_places 2 (foreignFree 0 1) _ rfl).2.2 (by decide)
  exact halloc

end GompUlt.StatePool
