import GompUlt.Ult.Steps

/-! # The counter that keeps a lock holder on its thread

non_preemptable belongs to the thread, the locks it counts to the task that runs there.  The two
agree as long as no task hands the thread over while it holds a lock.
-/
namespace GompUlt.Ult
open Run

variable {s s' : State} {p n : ℕ} {x : Context} {f : Frame}

section Counts

/-- The copy constructors around which the counter has been incremented. -/
def bumps (frames : List Frame) : ℕ := frames.countP fun f => f.call matches .task (.copying true _)

/-- The functions that still write non_preemptable through their variable. -/
def Call.writesCounter : Call → Bool
  | .setLock _ _ | .testLock _ | .task .entered | .task (.copying _ _) => true
  | _ => false

/-- The calls that still write the counter were entered on the thread; a lock function whose
gomp_locked_task_switch has switched will read gomp_thread. -/
def CountFresh (p : ℕ) : List Frame → Prop
  | [] => True
  | ⟨.lockedSwitch true,_,_,_⟩ :: ⟨.setLock _ _,_,_,_⟩ :: rest => CountFresh p rest
  | f :: rest => (f.call.writesCounter = true → f.thr = p) ∧ CountFresh p rest

/-- The counter of the thread is that of its context: the locks of the task that runs, and the copy
constructors. -/
structure CountOk (p r : ℕ) (x : Context) : Prop where
  count : r = x.current.length + bumps x.frames
  bound : r < uintSize
  outer : ∀ locks ∈ x.held.tail, locks = []
  fresh : CountFresh p x.frames

/-- Nothing of the context counts. -/
def Idle (x : Context) : Prop := (∀ locks ∈ x.held, locks = []) ∧ bumps x.frames = 0

structure CountInv (s : State) : Prop where
  running : ∀ p < s.nthreads, (s.cur p).status = .running p
  ok : ∀ p < s.nthreads, CountOk p (s.thread p).nonPreemptable (s.cur p)
  parked : ∀ c, CanTake s c → Idle (s.ctx c)
  wrapped : s.wrapped = false

theorem init_countInv (n : ℕ) : CountInv (init n) := by
  constructor
  · intro p hp
    simp [init, State.cur, show p < n from hp]
  · intro p hp
    have hcur : (init n).cur p = { status := .running p, place := .app } := by
      simp [init, State.cur, show p < n from hp]
    rw [hcur]
    exact ⟨rfl,show 0 < uintSize by decide,nofun,trivial⟩
  · intro c _
    by_cases hc : c < n <;> simp [init, hc, Idle, bumps]
  · rfl

/-- Only gomp_locked_task_switch after a switch hides the call below it. -/
theorem countFresh_cons {rest : List Frame} (hc : f.call ≠ .lockedSwitch true) :
    CountFresh p (f :: rest) ↔ (f.call.writesCounter = true → f.thr = p) ∧ CountFresh p rest := by
  obtain ⟨c,t,w,m⟩ := f
  cases c with
  | lockedSwitch b =>
    cases b with
    | true => exact absurd rfl hc
    | false => rfl
  | _ => rfl

theorem bumps_cons (rest : List Frame) :
    bumps (f :: rest) = bumps rest + if f.call matches .task (.copying true _) then 1 else 0 := by
  unfold bumps
  rw [List.countP_cons]

theorem bumps_cons_of_not {rest : List Frame} (h : ∀ u, f.call ≠ .task (.copying true u)) :
    bumps (f :: rest) = bumps rest := by
  rw [bumps_cons]
  split
  · next u hc => exact absurd hc (h u)
  · rfl

theorem bumps_of_not_inCopy (h : x.inCopy = false) : bumps x.frames = 0 := by
  refine List.countP_eq_zero.mpr fun f hf hb => ?_
  have := List.any_eq_false.mp h f hf
  split at hb
  · next u hc =>
    rw [hc] at this
    exact this rfl
  · cases hb

theorem CountInv.local_step (h : CountInv s) (hp : p < s.nthreads) (hl : Local s s' p x) (hstatus : x.status = .running p)
    (hother : ∀ q, q ≠ p → (s'.thread q).nonPreemptable = (s.thread q).nonPreemptable)
    (hok : CountOk p (s'.thread p).nonPreemptable x) (hw : s'.wrapped = s.wrapped) : CountInv s' := by
  have hne : ∀ q < s.nthreads, q ≠ p → (s.thread q).task ≠ (s.thread p).task := fun q hq hqp => task_ne h.running hp hq hqp
  constructor
  · intro q hq
    rw [hl.nthreads] at hq
    by_cases hqp : q = p
    · rw [hqp,hl.cur_self]
      exact hstatus
    · rw [hl.cur_other (hne q hq hqp)]
      exact h.running q hq
  · intro q hq
    rw [hl.nthreads] at hq
    by_cases hqp : q = p
    · rw [hqp,hl.cur_self]
      exact hok
    · rw [hl.cur_other (hne q hq hqp),hother q hqp]
      exact h.ok q hq
  · intro c hc
    unfold CanTake at hc
    by_cases hcp : c = (s.thread p).task
    · rw [hcp,hl.self,hstatus] at hc
      rcases hc with hc | hc <;> cases hc
    · rw [hl.other c hcp] at hc ⊢
      exact h.parked c hc
  · rw [hw]
    exact h.wrapped

/-- A step that leaves the counters and the locks alone. -/
theorem CountInv.still (h : CountInv s) (hp : p < s.nthreads) (hl : Local s s' p x) (hstatus : x.status = (s.cur p).status)
    (hcounters : ∀ q, (s'.thread q).nonPreemptable = (s.thread q).nonPreemptable) (hw : s'.wrapped = s.wrapped)
    (hheld : x.held = (s.cur p).held) (hbumps : bumps x.frames = bumps (s.cur p).frames)
    (hfresh : CountFresh p x.frames) : CountInv s' := by
  have hok := h.ok p hp
  refine h.local_step hp hl (hstatus.trans (h.running p hp)) (fun q _ => hcounters q) ?_ hw
  rw [hcounters]
  refine ⟨?_,hok.bound,?_,hfresh⟩
  · unfold Context.current
    rw [hheld,hbumps]
    exact hok.count
  · rw [hheld]
    exact hok.outer

end Counts

section Calls
variable {c : Call}

theorem push_countOk (hfresh : CountFresh p x.frames) (hc : c ≠ .lockedSwitch true) (hb : ∀ u, c ≠ .task (.copying true u))
    {w : Place} {b : Bool} : bumps (x.push ⟨c,p,w,b⟩).frames = bumps x.frames ∧ CountFresh p (x.push ⟨c,p,w,b⟩).frames :=
  ⟨bumps_cons_of_not hb,(countFresh_cons hc).mpr ⟨fun _ => rfl,hfresh⟩⟩

theorem call_countInv (h : CountInv s) (hp : p < s.nthreads) (hc : c ≠ .lockedSwitch true)
    (hb : ∀ u, c ≠ .task (.copying true u)) (b : Bool) : CountInv (s.call p c b) := by
  obtain ⟨hbumps,hfresh⟩ := push_countOk (h.ok p hp).fresh hc hb (w := (s.cur p).place) (b := b)
  exact h.still hp (call_local c b) rfl (fun _ => rfl) rfl rfl hbumps hfresh

theorem enter_countInv (h : CountInv s) (hp : p < s.nthreads) (hc : c ≠ .lockedSwitch true)
    (hb : ∀ u, c ≠ .task (.copying true u)) : CountInv ((s.call p c true).setInLibgomp p true) := by
  obtain ⟨hbumps,hfresh⟩ := push_countOk (h.ok p hp).fresh hc hb (w := (s.cur p).place) (b := true)
  exact h.still hp ((call_local c true).setInLibgomp p true) rfl (fun _ => setInLibgomp_nonPreemptable) rfl rfl hbumps hfresh

/-- The tail of the stack is as fresh as the stack. -/
theorem countFresh_tail {rest : List Frame} (h : CountFresh p (f :: rest)) (hc : f.call ≠ .lockedSwitch true) :
    CountFresh p rest := ((countFresh_cons hc).mp h).2

/-- Another call on top that keeps its variable. -/
theorem countFresh_top {g : Frame} {rest : List Frame} (h : CountFresh p (f :: rest)) (hf : f.call ≠ .lockedSwitch true)
    (hg : g.call ≠ .lockedSwitch true) (hthr : g.thr = f.thr)
    (hw : g.call.writesCounter = true → f.call.writesCounter = true) : CountFresh p (g :: rest) := by
  obtain ⟨h1,h2⟩ := (countFresh_cons hf).mp h
  exact (countFresh_cons hg).mpr ⟨fun hgw => hthr.trans (h1 (hw hgw)),h2⟩

theorem countFresh_marked {rest : List Frame} {m : Bool} (h : CountFresh p (f :: rest)) :
    CountFresh p ({ f with marked := m } :: rest) := by
  obtain ⟨c,t,w,m'⟩ := f
  cases c with
  | lockedSwitch b =>
    cases rest with
    | nil => cases b <;> exact h
    | cons g rest =>
      obtain ⟨d,t',w',m''⟩ := g
      cases b <;> cases d <;> exact h
  | _ => exact h

theorem mark_countInv (h : CountInv s) (hp : p < s.nthreads) (hin : InCall s p f) : CountInv (s.mark p f) := by
  have hfresh := (h.ok p hp).fresh
  rw [hin.frames] at hfresh
  refine h.still hp (local_setCur rfl (fun _ => setInLibgomp_task) rfl) rfl (fun _ => setInLibgomp_nonPreemptable) rfl rfl
    ?_ ?_
  · rw [hin.frames]
    exact (bumps_cons _).trans (bumps_cons _).symm
  · exact countFresh_marked hfresh

theorem returns_not_copying (h : c.returns = true) (u b : Bool) : c ≠ .task (.copying u b) := by
  rintro rfl
  cases h

/-- After gomp_locked_task_switch the lock function has the thread it is on. -/
theorem afterLockedSwitch_fresh {switched : Bool} {w : Place} {t : ℕ} {m : Bool}
    (h : CountFresh p (⟨.lockedSwitch switched,t,w,m⟩ :: x.frames)) :
    CountFresh p ({ x with place := w }.afterLockedSwitch p switched).frames ∧
      bumps ({ x with place := w }.afterLockedSwitch p switched).frames = bumps x.frames := by
  unfold Context.afterLockedSwitch
  dsimp only
  cases hf : x.frames with
  | nil => exact ⟨trivial,rfl⟩
  | cons g rest =>
    rw [hf] at h
    obtain ⟨d,t',w',m'⟩ := g
    cases d with
    | setLock l stage =>
      refine ⟨?_,rfl⟩
      cases switched with
      | true => exact ⟨fun _ => rfl,h⟩
      | false => exact ⟨fun _ => h.2.1 rfl,h.2.2⟩
    | _ => cases switched <;> exact ⟨h.2,rfl⟩

theorem afterLockedSwitch_rest {switched : Bool} :
    (x.afterLockedSwitch p switched).status = x.status ∧ (x.afterLockedSwitch p switched).held = x.held := by
  unfold Context.afterLockedSwitch
  split <;> exact ⟨rfl,rfl⟩

theorem ret_countInv (h : CountInv s) (hp : p < s.nthreads) (hin : InCall s p f) (hr : f.call.returns = true) :
    CountInv (s.ret p f) := by
  have hfresh := (h.ok p hp).fresh
  have hbumps : bumps (s.cur p).frames = bumps (s.cur p).frames.tail := by
    conv => lhs; rw [hin.frames]
    exact bumps_cons_of_not fun u => returns_not_copying hr true u
  rw [hin.frames] at hfresh
  have hgo : ∀ x : Context, x.status = (s.cur p).status ∧ x.held = (s.cur p).held ∧ bumps x.frames = bumps (s.cur p).frames ∧
      CountFresh p x.frames →
      CountInv (if f.call = .dependWait then s.setCur p x else (s.setInLibgomp f.thr false).setCur p x) := by
    rintro x ⟨hstatus,hheld,hb,hfr⟩
    split
    · exact h.still hp (local_setCur rfl (fun _ => rfl) rfl) hstatus (fun _ => rfl) rfl hheld hb hfr
    · exact h.still hp (local_setCur rfl (fun _ => setInLibgomp_task) rfl) hstatus
        (fun _ => setInLibgomp_nonPreemptable) rfl hheld hb hfr
  refine hgo _ ?_
  split
  · next switched hc =>
    have hfr : CountFresh p (⟨.lockedSwitch switched,f.thr,f.caller,f.marked⟩ :: (s.cur p).frames.tail) := by
      rw [← hc]
      exact hfresh
    obtain ⟨h1,h2⟩ := afterLockedSwitch_fresh (x := { s.cur p with frames := (s.cur p).frames.tail }) (w := f.caller) hfr
    exact ⟨afterLockedSwitch_rest.1,afterLockedSwitch_rest.2,h2.trans hbumps.symm,h1⟩
  · next hc => exact ⟨rfl,rfl,hbumps.symm,countFresh_tail hfresh (hc true)⟩

theorem retLockFree_countInv (h : CountInv s) (hp : p < s.nthreads) {g : Frame} {rest : List Frame} {l : ℕ} {stage : LockStage}
    (hf : (s.cur p).frames = f :: g :: rest) (hc : f.call = .lockedSwitch false) (hg : g.call = .setLock l stage) :
    CountInv (s.retLockFree p f g l) := by
  have hfresh := (h.ok p hp).fresh
  rw [hf] at hfresh
  have hg' := countFresh_tail hfresh (by rw [hc]; simp)
  refine h.still hp (x := ((s.cur p).pop f).setTop { g with call := .setLock l .ready })
    (local_setCur rfl (fun _ => rfl) rfl) rfl (fun _ => rfl) rfl rfl ?_ ?_
  · change bumps (_ :: (s.cur p).frames.tail.tail) = _
    rw [hf,bumps_cons_of_not fun u => by simp,bumps_cons_of_not fun u => by rw [hc]; simp,
      bumps_cons_of_not fun u => by rw [hg]; simp]
    rfl
  · change CountFresh p (_ :: (s.cur p).frames.tail.tail)
    rw [hf]
    exact countFresh_top hg' (by rw [hg]; simp) (by simp) rfl fun _ => by rw [hg]; rfl

end Calls

section Tasks

theorem increment_nonPreemptable {t q : ℕ} : ((s.increment t).thread q).nonPreemptable =
    if q = t then ((s.thread q).nonPreemptable + 1) % uintSize else (s.thread q).nonPreemptable := by
  by_cases h : q = t
  · subst h
    simp [State.increment]
  · simp [State.increment, h]

theorem decrement_nonPreemptable {t q : ℕ} : ((s.decrement t).thread q).nonPreemptable =
    if q = t then ((s.thread q).nonPreemptable + (uintSize - 1)) % uintSize else (s.thread q).nonPreemptable := by
  by_cases h : q = t
  · subst h
    simp [State.decrement]
  · simp [State.decrement, h]

theorem pred_mod {r : ℕ} (hr : r < uintSize) : (r + 1 + (uintSize - 1)) % uintSize = r := by
  have hu : uintSize = 2 ^ 32 := rfl
  rw [hu] at hr ⊢
  omega

theorem CountInv.top_thr (h : CountInv s) (hp : p < s.nthreads) (hf : (s.cur p).frames = f :: (s.cur p).frames.tail)
    (hc : f.call ≠ .lockedSwitch true) (hw : f.call.writesCounter = true) : f.thr = p := by
  have hfresh := (h.ok p hp).fresh
  rw [hf] at hfresh
  exact ((countFresh_cons hc).mp hfresh).1 hw

/-- A copy constructor begins: the counter goes up from 0. -/
theorem bump_countInv (h : CountInv s) (hp : p < s.nthreads) (hf : (s.cur p).frames = f :: (s.cur p).frames.tail)
    (hc : f.call = .task .entered) {t : State} (hn : t.nthreads = s.nthreads)
    (htask : ∀ q, (t.thread q).task = (s.thread q).task) (hctx : t.ctx = s.ctx) (hw : t.wrapped = s.wrapped)
    (hcounters : ∀ q, (t.thread q).nonPreemptable = (s.thread q).nonPreemptable) {u m : Bool}
    (hstatus : x.status = (s.cur p).status) (hcurrent : x.current = (s.cur p).current)
    (houter : ∀ locks ∈ x.held.tail, locks = [])
    (hx : x.frames = ⟨.task (.copying (decide ((t.thread f.thr).nonPreemptable = 0)) u),f.thr,f.caller,m⟩ ::
      (s.cur p).frames.tail) :
    CountInv ((if (t.thread f.thr).nonPreemptable = 0 then t.increment f.thr else t).setCur p x) := by
  have hthr := h.top_thr hp hf (by rw [hc]; simp) (by rw [hc]; rfl)
  have hok := h.ok p hp
  have hfresh := hok.fresh
  have hcount := hok.count
  rw [hf,bumps_cons_of_not fun u => by rw [hc]; simp] at hcount
  rw [hf] at hfresh
  have hfresh' : CountFresh p x.frames := by
    rw [hx]
    exact countFresh_top hfresh (by rw [hc]; simp) (by simp) rfl fun _ => by rw [hc]; rfl
  have hthr' : (t.thread f.thr).nonPreemptable = (s.thread p).nonPreemptable := by
    rw [hcounters,hthr]
  rw [hthr'] at hx ⊢
  by_cases hzero : (s.thread p).nonPreemptable = 0
  · rw [if_pos hzero]
    have hself : ((t.increment f.thr).thread p).nonPreemptable = 1 := by
      rw [increment_nonPreemptable,if_pos hthr.symm,hcounters,hzero]
      decide
    refine h.local_step hp (local_setCur hn (fun q => increment_task.trans (htask q)) hctx) (hstatus.trans (h.running p hp))
      (fun q hq => ?_) ⟨?_,?_,houter,hfresh'⟩ hw
    · rw [setCur_thread,increment_nonPreemptable,if_neg (hthr.symm ▸ hq)]
      exact hcounters q
    · rw [setCur_thread,hself,hx,bumps_cons,hcurrent]
      simp only [hzero, decide_true, ↓reduceIte]
      omega
    · rw [setCur_thread,hself]
      decide
  · rw [if_neg hzero]
    refine h.local_step hp (local_setCur hn htask hctx) (hstatus.trans (h.running p hp)) (fun q _ => hcounters q)
      ⟨?_,?_,houter,hfresh'⟩ hw
    · rw [setCur_thread,hcounters,hx,hcurrent,bumps_cons_of_not fun u => by simp [hzero]]
      exact hcount
    · rw [setCur_thread,hcounters]
      exact hok.bound

theorem defer_countInv (h : CountInv s) (hp : p < s.nthreads) (hin : InCall s p f) (hc : f.call = .task .entered)
    (copy : Bool) : CountInv (s.defer p f copy) := by
  have hf := hin.frames
  have hok := h.ok p hp
  cases copy with
  | true =>
    have hcur : ∀ c : Prop, [Decidable c] → (if c then s.increment f.thr else s).cur p = s.cur p := by
      intro c _
      split
      · unfold State.cur
        rw [increment_task]
        rfl
      · rfl
    have hrest : ∀ y : Context, y = s.cur p → ∀ g : Frame,
        { y.setTop g with place := Place.copy } = { (s.cur p).setTop g with place := Place.copy } := by
      rintro y rfl g
      rfl
    unfold State.defer
    dsimp only
    rw [if_pos rfl,hrest _ (hcur _)]
    exact bump_countInv h hp hf hc rfl (fun _ => rfl) rfl rfl (fun _ => rfl) rfl rfl hok.outer rfl
  | false =>
    have hfresh := hok.fresh
    rw [hf] at hfresh
    refine h.still hp (local_setCur rfl (fun _ => rfl) rfl) rfl (fun _ => rfl) rfl rfl ?_ ?_
    · conv => rhs; rw [hf]
      rw [bumps_cons_of_not fun u => by rw [hc]; simp]
      exact bumps_cons_of_not fun u => by simp
    · exact countFresh_top hfresh (by rw [hc]; simp) (by simp) rfl nofun

/-- The task that runs holds no lock and is in no copy constructor. -/
def AtRest (x : Context) : Prop := x.current = [] ∧ x.inCopy = false

instance (x : Context) : Decidable (AtRest x) := inferInstanceAs (Decidable (_ ∧ _))

theorem AtRest.idle (h : AtRest x) (houter : ∀ locks ∈ x.held.tail, locks = []) : Idle x := by
  refine ⟨fun locks hm => ?_,bumps_of_not_inCopy h.2⟩
  cases hh : x.held with
  | nil =>
    rw [hh] at hm
    cases hm
  | cons a rest =>
    rw [hh] at hm houter
    have ha : a = [] := by
      have := h.1
      unfold Context.current at this
      rw [hh] at this
      exact this
    rcases List.mem_cons.mp hm with rfl | hm
    · exact ha
    · exact houter locks hm

theorem runUndeferred_countInv (h : CountInv s) (hp : p < s.nthreads) (hin : InCall s p f) (hc : f.call = .task .entered)
    (hrest : AtRest (s.cur p)) (copy : Bool) : CountInv (s.runUndeferred p f copy) := by
  have hf := hin.frames
  have hok := h.ok p hp
  have hidle := hrest.idle hok.outer
  have hcur : (s.setInLibgomp f.thr false).cur p = s.cur p := by
    unfold State.cur
    rw [setInLibgomp_task]
    rfl
  unfold State.runUndeferred
  dsimp only
  rw [hcur]
  cases copy with
  | true =>
    exact bump_countInv h hp hf hc rfl (fun _ => setInLibgomp_task) rfl rfl (fun _ => setInLibgomp_nonPreemptable) rfl
      hrest.1.symm hidle.1 rfl
  | false =>
    have hfresh := hok.fresh
    rw [hf] at hfresh
    have hcount := hok.count
    rw [hrest.1,hf,bumps_cons_of_not fun u => by rw [hc]; simp] at hcount
    refine h.local_step hp (local_setCur rfl (fun _ => setInLibgomp_task) rfl) (h.running p hp)
      (fun q _ => setInLibgomp_nonPreemptable) ⟨?_,?_,hidle.1,?_⟩ rfl
    · change ((s.setInLibgomp f.thr false).thread p).nonPreemptable = ([] : List ℕ).length + bumps (_ :: _)
      rw [setInLibgomp_nonPreemptable,bumps_cons_of_not fun u => by simp]
      exact hcount
    · change ((s.setInLibgomp f.thr false).thread p).nonPreemptable < _
      rw [setInLibgomp_nonPreemptable]
      exact hok.bound
    · exact countFresh_top hfresh (by rw [hc]; simp) (by simp) rfl nofun

theorem endCopy_countInv (h : CountInv s) (hp : p < s.nthreads) (hf : (s.cur p).frames = f :: (s.cur p).frames.tail)
    {bumped undeferred : Bool} (hc : f.call = .task (.copying bumped undeferred)) :
    CountInv (s.endCopy p f bumped undeferred) := by
  have hok := h.ok p hp
  have hfresh := hok.fresh
  rw [hf] at hfresh
  have hthr := h.top_thr hp hf (by rw [hc]; simp) (by rw [hc]; rfl)
  have hcount := hok.count
  rw [hf,bumps_cons] at hcount
  have hgo : ∀ t : State, t.nthreads = s.nthreads → (∀ q, (t.thread q).task = (s.thread q).task) → t.ctx = s.ctx →
      t.wrapped = s.wrapped → (∀ q, q ≠ p → (t.thread q).nonPreemptable = (s.thread q).nonPreemptable) →
      (t.thread p).nonPreemptable = (s.cur p).current.length + bumps (s.cur p).frames.tail →
      ∀ (stage : TaskStage) (place : Place), (∀ u v, stage ≠ .copying u v) → stage ≠ .entered →
      CountInv (t.setCur p { (t.cur p).setTop { f with call := .task stage } with place }) := by
    intro t hn htask hctx hw hother hself stage place hstage hne
    have hcur : t.cur p = s.cur p := by
      unfold State.cur
      rw [htask,hctx]
    rw [hcur]
    have hb : ∀ rest, bumps ({ f with call := .task stage } :: rest) = bumps rest := fun rest =>
      bumps_cons_of_not fun u e => hstage true u (by simpa using e)
    refine h.local_step hp (local_setCur hn htask hctx) (h.running p hp) hother ⟨?_,?_,hok.outer,?_⟩ hw
    · exact hself.trans (by rw [← hb]; rfl)
    · have := hok.bound
      rw [setCur_thread,hself]
      omega
    · refine countFresh_top hfresh (by rw [hc]; simp) (by simp) rfl fun hwr => ?_
      rw [hc]
      rfl
  have hdec : ∀ (stage : TaskStage) (place : Place), (∀ u v, stage ≠ .copying u v) → stage ≠ .entered →
      CountInv ((if bumped then s.decrement f.thr else s).setCur p
        { ((if bumped then s.decrement f.thr else s).cur p).setTop { f with call := .task stage } with place }) := by
    intro stage place hstage hne
    cases bumped with
    | true =>
      rw [hc] at hcount
      have hpos : (s.thread p).nonPreemptable = (s.cur p).current.length + bumps (s.cur p).frames.tail + 1 := hcount
      refine hgo (s.decrement f.thr) rfl (fun _ => decrement_task) rfl ?_ (fun q hq => ?_) ?_ stage place hstage hne
      · change (s.wrapped || _) = s.wrapped
        rw [hthr,hpos]
        simp
      · rw [decrement_nonPreemptable,if_neg (hthr.symm ▸ hq)]
      · have hbound := hok.bound
        rw [decrement_nonPreemptable,if_pos hthr.symm,hpos,pred_mod (by omega)]
    | false =>
      rw [hc] at hcount
      exact hgo s rfl (fun _ => rfl) rfl rfl (fun _ _ => rfl) hcount stage place hstage hne
  unfold State.endCopy
  dsimp only
  cases undeferred with
  | true => exact hdec .undeferred .app (by simp) (by simp)
  | false => exact hdec .past .runtime (by simp) (by simp)

theorem endUndeferred_countInv (h : CountInv s) (hp : p < s.nthreads) (hf : (s.cur p).frames = f :: (s.cur p).frames.tail)
    (hc : f.call = .task .undeferred) (hrest : AtRest (s.cur p)) : CountInv (s.endUndeferred p f) := by
  have hok := h.ok p hp
  have hfresh := hok.fresh
  rw [hf] at hfresh
  have hcount := hok.count
  rw [hrest.1,hf,bumps_cons_of_not fun u => by rw [hc]; simp] at hcount
  have hcurrent : (s.cur p).held.tail.headD [] = [] := by
    cases ht : (s.cur p).held.tail with
    | nil => rfl
    | cons a rest => exact hok.outer a (by rw [ht]; exact List.mem_cons_self)
  refine h.local_step hp (local_setCur rfl (fun _ => setInLibgomp_task) rfl) (h.running p hp)
    (fun q _ => setInLibgomp_nonPreemptable) ⟨?_,?_,fun locks hm => hok.outer locks (List.mem_of_mem_tail hm),?_⟩ rfl
  · change ((s.setInLibgomp f.thr true).thread p).nonPreemptable = ((s.cur p).held.tail.headD []).length + bumps (_ :: _)
    rw [setInLibgomp_nonPreemptable,hcurrent,bumps_cons_of_not fun u => by simp]
    exact hcount
  · change ((s.setInLibgomp f.thr true).thread p).nonPreemptable < _
    rw [setInLibgomp_nonPreemptable]
    exact hok.bound
  · exact countFresh_top hfresh (by rw [hc]; simp) (by simp) rfl nofun

end Tasks

section Locks

theorem setLock_countInv (h : CountInv s) (hp : p < s.nthreads) (hf : (s.cur p).frames = f :: (s.cur p).frames.tail) {l : ℕ}
    {stage stage' : LockStage} (hc : f.call = .setLock l stage) {t : State} (hn : t.nthreads = s.nthreads)
    (htask : ∀ q, (t.thread q).task = (s.thread q).task) (hctx : t.ctx = s.ctx) (hw : t.wrapped = s.wrapped)
    (hcounters : ∀ q, (t.thread q).nonPreemptable = (s.thread q).nonPreemptable) :
    CountInv (t.setCur p ((s.cur p).setTop { f with call := .setLock l stage' })) := by
  have hfresh := (h.ok p hp).fresh
  rw [hf] at hfresh
  refine h.still hp (local_setCur hn htask hctx) rfl hcounters hw rfl ?_ ?_
  · conv => rhs; rw [hf]
    rw [bumps_cons_of_not fun u => by rw [hc]; simp]
    exact bumps_cons_of_not fun u => by simp
  · exact countFresh_top hfresh (by rw [hc]; simp) (by simp) rfl fun _ => by rw [hc]; rfl

theorem tryLock_countInv (h : CountInv s) (hp : p < s.nthreads) (hin : InCall s p f) {l : ℕ} {again : Bool}
    (hc : f.call = if again then .setLock l .ready else .testLock l)
    (hbound : (s.thread p).nonPreemptable + 1 < uintSize) : CountInv (s.tryLock p f l again) := by
  have hf := hin.frames
  have hok := h.ok p hp
  have hfresh := hok.fresh
  rw [hf] at hfresh
  have hne : f.call ≠ .lockedSwitch true ∧ (∀ u, f.call ≠ .task (.copying true u)) ∧ f.call.writesCounter = true := by
    rw [hc]
    cases again <;> simp [Call.writesCounter]
  have hthr := h.top_thr hp hf hne.1 hne.2.2
  have hcur : (s.increment f.thr).cur p = s.cur p := by
    unfold State.cur
    rw [increment_task]
    rfl
  have hcur' : ((s.increment f.thr).decrement f.thr).cur p = s.cur p := by
    unfold State.cur
    rw [decrement_task,increment_task]
    rfl
  have hup : ((s.increment f.thr).thread p).nonPreemptable = (s.thread p).nonPreemptable + 1 := by
    rw [increment_nonPreemptable,if_pos hthr.symm,Nat.mod_eq_of_lt hbound]
  have hup' : ∀ q, q ≠ p → ((s.increment f.thr).thread q).nonPreemptable = (s.thread q).nonPreemptable := by
    intro q hq
    rw [increment_nonPreemptable,if_neg (hthr.symm ▸ hq)]
  have hdown : ∀ q, (((s.increment f.thr).decrement f.thr).thread q).nonPreemptable = (s.thread q).nonPreemptable := by
    intro q
    rw [decrement_nonPreemptable]
    by_cases hq : q = p
    · rw [hq,if_pos hthr.symm,hup,pred_mod hok.bound]
    · rw [if_neg (hthr.symm ▸ hq),hup' q hq]
  have hwrap : ((s.increment f.thr).decrement f.thr).wrapped = s.wrapped := by
    change (s.wrapped || decide (((s.increment f.thr).thread f.thr).nonPreemptable = 0)) = s.wrapped
    rw [hthr] at hup ⊢
    rw [hup]
    simp
  have htask : ∀ q, (((s.increment f.thr).decrement f.thr).thread q).task = (s.thread q).task := fun _ =>
    decrement_task.trans increment_task
  have hbumps : bumps (s.cur p).frames.tail = bumps (s.cur p).frames := by
    conv => rhs; rw [hf]
    exact (bumps_cons_of_not hne.2.1).symm
  unfold State.tryLock
  dsimp only
  split
  · rw [hcur']
    cases again with
    | true => exact setLock_countInv h hp hf hc rfl htask rfl hwrap hdown
    | false =>
      exact h.still hp (local_setCur rfl htask rfl) rfl hdown hwrap rfl hbumps (countFresh_tail hfresh hne.1)
  · -- the lock is taken, and the counter stays one up
    rw [hcur]
    refine h.local_step hp (local_setCur rfl (fun _ => increment_task) rfl) (h.running p hp) hup'
      ⟨?_,?_,hok.outer,countFresh_tail hfresh hne.1⟩ rfl
    · rw [setCur_thread]
      change ((s.increment f.thr).thread p).nonPreemptable = (l :: (s.cur p).current).length + bumps (s.cur p).frames.tail
      rw [hup,hok.count,hbumps,List.length_cons]
      omega
    · rw [setCur_thread]
      change ((s.increment f.thr).thread p).nonPreemptable < uintSize
      rw [hup]
      exact hbound

theorem unlock_countInv (h : CountInv s) (hp : p < s.nthreads) {l : ℕ} (hl : l ∈ (s.cur p).current) :
    CountInv (s.unlock p l) := by
  have hok := h.ok p hp
  have hlen := List.length_pos_of_mem hl
  have hpos : (s.thread p).nonPreemptable ≠ 0 := by
    have := hok.count
    omega
  obtain ⟨r,hr⟩ := Nat.exists_eq_succ_of_ne_zero hpos
  have hdown : (((s.setMutex l false).decrement p).thread p).nonPreemptable = r := by
    have hbound := hok.bound
    rw [decrement_nonPreemptable,if_pos rfl]
    change ((s.thread p).nonPreemptable + (uintSize - 1)) % uintSize = r
    rw [hr]
    exact pred_mod (by omega)
  have hcur : ((s.setMutex l false).decrement p).cur p = s.cur p := by
    unfold State.cur
    rw [decrement_task]
    rfl
  have hs : s.unlock p l = (((s.setMutex l false).decrement p).setCur p
      ((s.cur p).setCurrent ((s.cur p).current.erase l))).call p .handleLocking false := by
    unfold State.unlock
    dsimp only
    rw [if_pos (show ((s.setMutex l false).thread p).nonPreemptable ≠ 0 from hpos),hcur]
  have h1 : CountInv (((s.setMutex l false).decrement p).setCur p
      ((s.cur p).setCurrent ((s.cur p).current.erase l))) := by
    refine h.local_step hp (local_setCur rfl (fun _ => decrement_task) rfl) (h.running p hp) (fun q hq => ?_)
      ⟨?_,?_,hok.outer,hok.fresh⟩ ?_
    · rw [setCur_thread,decrement_nonPreemptable,if_neg hq]
      rfl
    · rw [setCur_thread,hdown]
      change r = ((s.cur p).current.erase l).length + bumps (s.cur p).frames
      have hcount := hok.count
      rw [List.length_erase_of_mem hl]
      omega
    · have hbound := hok.bound
      rw [setCur_thread,hdown]
      omega
    · change (s.wrapped || decide ((s.thread p).nonPreemptable = 0)) = s.wrapped
      simp [hpos]
  rw [hs]
  exact call_countInv h1 hp (by simp) (by simp) false

end Locks

section Switches

theorem resume_idle (h : Idle x) (p : ℕ) : Idle (x.resume p) := by
  unfold Context.resume
  split
  · exact ⟨h.1,rfl⟩
  · next f rest hf _ =>
    refine ⟨h.1,?_⟩
    have hb := h.2
    rw [hf,bumps_cons] at hb
    change bumps ((if f.call.rereads then { f with thr := p } else f) :: rest) = 0
    split
    · rw [bumps_cons]
      exact hb
    · rw [bumps_cons]
      exact hb
  · exact h

/-- The calls of a context that still write the counter were entered on the thread it goes on on. -/
def CountsFollow (s : State) (p n : ℕ) : Prop := CountFresh p ((s.ctx n).resume p).frames

theorem CountInv.passed (h : CountInv s) (hp : p < s.nthreads) (hs : Passed s s' p x n) (htake : CanTake s n)
    (hfollow : CountsFollow s p n) (hrest : AtRest (s.cur p)) (hx : x.status = .fresh ∨ x.status = .suspended → Idle x) :
    CountInv s' := by
  have hzero : (s.thread p).nonPreemptable = 0 := by
    rw [(h.ok p hp).count,hrest.1,bumps_of_not_inCopy hrest.2]
    rfl
  have hidle := resume_idle (h.parked n htake) p
  have hother : ∀ q < s.nthreads, q ≠ p → s'.cur q = s.cur q := fun q hq hqp => hs.cur_other h.running hp htake hq hqp
  constructor
  · intro q hq
    rw [hs.nthreads] at hq
    by_cases hqp : q = p
    · rw [hqp,hs.cur_self]
      exact resume_status ..
    · rw [hother q hq hqp]
      exact h.running q hq
  · intro q hq
    rw [hs.nthreads] at hq
    by_cases hqp : q = p
    · rw [hqp,hs.cur_self,hs.thread]
      change CountOk p (s.thread p).nonPreemptable _
      rw [hzero]
      refine ⟨?_,by decide,fun locks hm => hidle.1 locks (List.mem_of_mem_tail hm),hfollow⟩
      have hcurrent : ((s.ctx n).resume p).current = [] := by
        unfold Context.current
        cases hh : ((s.ctx n).resume p).held with
        | nil => rfl
        | cons a rest => exact hidle.1 a (by rw [hh]; exact List.mem_cons_self)
      rw [hcurrent,hidle.2]
      rfl
    · rw [hother q hq hqp,hs.threads q hqp]
      exact h.ok q hq
  · intro c hc
    unfold CanTake at hc
    by_cases hcn : c = n
    · rw [hcn,hs.new,resume_status] at hc
      rcases hc with hc | hc <;> cases hc
    · by_cases hcp : c = (s.thread p).task
      · rw [hcp,hs.old] at hc ⊢
        exact hx hc
      · rw [hs.ctx c hcn hcp] at hc ⊢
        exact h.parked c hc
  · rw [hs.wrapped]
    exact h.wrapped

theorem switch_countInv (h : CountInv s) (hp : p < s.nthreads) (hin : InCall s p f) (htake : CanTake s n)
    (hfollow : CountsFollow s p n) (hrest : AtRest (s.cur p)) : CountInv (s.switch p f n) := by
  have hidle := hrest.idle (h.ok p hp).outer
  have hb := hidle.2
  rw [hin.frames,bumps_cons] at hb
  have hgo : ∀ lock, CountInv { s.transfer p { (s.cur p).setTop (if f.call = .lockedSwitch false then
        { f with call := .lockedSwitch true } else f) with status := .suspended } n with teamLock := lock } := by
    intro lock
    refine h.passed hp (transfer_passed h.running hp htake lock) htake hfollow hrest fun _ => ⟨hidle.1,?_⟩
    change bumps ((if f.call = .lockedSwitch false then { f with call := .lockedSwitch true } else f) ::
      (s.cur p).frames.tail) = 0
    split
    · rw [bumps_cons_of_not fun u => by simp]
      omega
    · rw [bumps_cons]
      exact hb
  unfold State.switch
  dsimp only
  split
  · exact hgo none
  · exact hgo s.teamLock

theorem start_countInv (h : CountInv s) (hp : p < s.nthreads) (hin : InCall s p f) (hc : f.call = .boot false) :
    CountInv (s.start p f) := by
  have hfresh := (h.ok p hp).fresh
  rw [hin.frames] at hfresh
  refine h.still hp (local_setCur rfl (fun _ => setInLibgomp_task) rfl) rfl (fun _ => setInLibgomp_nonPreemptable) rfl rfl
    ?_ (countFresh_tail hfresh (by rw [hc]; simp))
  conv => rhs; rw [hin.frames]
  exact (bumps_cons_of_not fun u => by rw [hc]; simp).symm

end Switches

section Steps

/-- The counter of a thread is positive while its task holds a lock and 0 while it holds none, outside
a copy constructor; no counter goes below 0. -/
def State.CountRight (s : State) : Prop :=
  s.wrapped = false ∧ ∀ p < s.nthreads, ((s.cur p).current ≠ [] → 0 < (s.thread p).nonPreemptable) ∧
    ((s.cur p).current = [] → (s.cur p).inCopy = false → (s.thread p).nonPreemptable = 0)

/-- The steps that keep the counter right: a task gives up its thread, to another task or to an
undeferred child, only when it holds no lock and is in no copy constructor; a context goes on on the
thread where its lock functions were entered; and the counter has room. -/
def CountSafe (s : State) : Event → Prop
  | .switch p n | .leave p n => AtRest (s.cur p) ∧ CountsFollow s p n
  | .runUndeferred p _ | .endUndeferred p => AtRest (s.cur p)
  | .tryLock p => (s.thread p).nonPreemptable + 1 < uintSize
  | _ => True

theorem CountInv.right (h : CountInv s) : s.CountRight := by
  refine ⟨h.wrapped,fun p hp => ?_⟩
  have hcount := (h.ok p hp).count
  constructor
  · intro hne
    have := List.length_pos_iff.mpr hne
    omega
  · intro he hcopy
    rw [hcount,he,bumps_of_not_inCopy hcopy]
    rfl

theorem entry_plain {c : Call} (h : c.isEntry = true) : c ≠ .lockedSwitch true ∧ ∀ u, c ≠ .task (.copying true u) := by
  constructor
  · rintro rfl
    cases h
  · rintro u rfl
    cases h

theorem step_countInv {e : Event} (h : CountInv s) (hsafe : CountSafe s e) (hs : s.step e = some s') : CountInv s' := by
  obtain ⟨hp,hmove⟩ := step_moves hs
  cases hmove with
  | call _ hentry => exact call_countInv h hp (entry_plain hentry).1 (entry_plain hentry).2 false
  | dependWait _ _ _ _ => exact call_countInv h hp (by simp) (by simp) true
  | lockedSwitch _ _ => exact call_countInv h hp (by simp) (by simp) false
  | interrupt _ _ => exact enter_countInv h hp (by simp) (by simp)
  | mark hin _ => exact mark_countInv h hp hin
  | acquire _ _ => exact ⟨h.running,h.ok,h.parked,h.wrapped⟩
  | release => exact ⟨h.running,h.ok,h.parked,h.wrapped⟩
  | ret hin hr _ _ => exact ret_countInv h hp hin hr
  | retLockFree _ hf hc hg _ => exact retLockFree_countInv h hp hf hc hg
  | defer copy hin hc _ _ => exact defer_countInv h hp hin hc copy
  | runUndeferred copy hin hc _ => exact runUndeferred_countInv h hp hin hc hsafe copy
  | endCopy _ hf hc => exact endCopy_countInv h hp hf hc
  | endUndeferred _ hf hc => exact endUndeferred_countInv h hp hf hc hsafe
  | create => exact ⟨h.running,h.ok,h.parked,h.wrapped⟩
  | leaveLoop hin hc => exact setLock_countInv h hp hin.frames hc rfl (fun _ => rfl) rfl rfl fun _ => rfl
  | tryLock again hin hc => exact tryLock_countInv h hp hin hc hsafe
  | unlock _ hl => exact unlock_countInv h hp hl
  | switch hin _ _ htake => exact switch_countInv h hp hin htake hsafe.2 hsafe.1
  | start hin hc _ => exact start_countInv h hp hin hc
  | finish _ _ => exact enter_countInv h hp (by simp) (by simp)
  | leave _ _ htake =>
    refine h.passed hp (transfer_passed h.running hp (.inr htake) s.teamLock) (.inr htake) hsafe.2 hsafe.1 fun hx => ?_
    rcases hx with hx | hx <;> cases hx

/-- The counter is right in every state of a run whose steps are safe for it. -/
theorem non_preemptable_right (nthreads : ℕ) (es : List Event) (s : State)
    (hc : Along State.step CountSafe (init nthreads) es) (hrun : run State.step (init nthreads) es = some s) :
    s.CountRight := by
  have hinv : CountInv s :=
    run_invariant (fun _ _ _ hi hsafe hs => step_countInv hi hsafe hs) (init_countInv nthreads) hc hrun
  exact hinv.right

theorem countFresh_iff (f : Frame) (rest : List Frame) :
    (if f.call = .lockedSwitch true ∧ (rest.head?.any fun g => g.call matches .setLock _ _) = true then
      CountFresh p rest.tail
    else (f.call.writesCounter = true → f.thr = p) ∧ CountFresh p rest) ↔ CountFresh p (f :: rest) := by
  by_cases hf : f.call = .lockedSwitch true
  · obtain ⟨c,t,w,m⟩ := f
    obtain rfl : c = .lockedSwitch true := hf
    cases rest with
    | nil => simp [CountFresh]
    | cons g rest =>
      obtain ⟨d,t',w',m'⟩ := g
      cases d <;> simp [CountFresh]
  · rw [if_neg fun h => hf h.1,countFresh_cons hf]

instance decidableCountFresh (p : ℕ) : ∀ frames : List Frame, Decidable (CountFresh p frames)
  | [] => isTrue trivial
  | [f] =>
    have : Decidable (CountFresh p []) := isTrue trivial
    have : Decidable (CountFresh p [].tail) := isTrue trivial
    decidable_of_iff _ (countFresh_iff f [])
  | f :: g :: rest =>
    have : Decidable (CountFresh p (g :: rest)) := decidableCountFresh p (g :: rest)
    have : Decidable (CountFresh p (g :: rest).tail) := decidableCountFresh p rest
    decidable_of_iff _ (countFresh_iff f (g :: rest))

instance (s : State) (p n : ℕ) : Decidable (CountsFollow s p n) := inferInstanceAs (Decidable (CountFresh p _))

instance decidableCountSafe (s : State) : ∀ e : Event, Decidable (CountSafe s e)
  | .switch p n | .leave p n => inferInstanceAs (Decidable (AtRest (s.cur p) ∧ CountsFollow s p n))
  | .runUndeferred p _ | .endUndeferred p => inferInstanceAs (Decidable (AtRest (s.cur p)))
  | .tryLock p => inferInstanceAs (Decidable ((s.thread p).nonPreemptable + 1 < uintSize))
  | .call _ _ | .dependWait _ | .lockedSwitch _ | .interrupt _ | .mark _ | .acquire _ | .release _ | .ret _
  | .retLockFree _ | .defer _ _ | .endCopy _ | .create _ | .leaveLoop _ | .unlock _ _ | .start _ | .finish _ =>
    isTrue trivial

/-- A task takes and gives back a lock, waits for a child, and takes another lock when it goes on on the
other thread. -/
def movedLocker : List Event :=
  createTask 0 ++ [.call 0 .taskwait,.mark 0,.acquire 0,.switch 0 2,.start 0,
    .call 0 (.setLock 0 .ready),.tryLock 0,.unlock 0 0,.mark 0,.ret 0] ++ createTask 0 ++
    [.call 0 .taskwait,.mark 0,.acquire 0,.switch 0 3,.release 0,.start 0,
      .call 1 .taskwait,.mark 1,.acquire 1,.switch 1 2,.ret 1,.call 1 (.setLock 1 .ready),.tryLock 1]

theorem non_preemptable_right_movedLocker :
    ∃ s, run State.step (init 2) movedLocker = some s ∧ s.CountRight :=
  ⟨_,rfl,non_preemptable_right 2 movedLocker _ (along_of_check (by decide)) rfl⟩

/-- A task waits for its child inside a critical construct. -/
def heldAtTaskwait : List Event :=
  createTask 0 ++ [.call 0 (.setLock 0 .ready),.tryLock 0,.call 0 .taskwait,.mark 0,.acquire 0,.switch 0 2,.start 0]

theorem non_preemptable_right_heldAtTaskwait : ¬∀ (nthreads : ℕ) (es : List Event) (s : State),
    run State.step (init nthreads) es = some s → s.CountRight := by
  intro h
  have hcount := ((h 2 heldAtTaskwait _ rfl).2 0 (by decide)).2 (by decide) (by decide)
  exact absurd hcount (by decide)

end Steps

end GompUlt.Ult
