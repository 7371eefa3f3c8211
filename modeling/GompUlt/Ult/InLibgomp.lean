import GompUlt.Ult.Steps

/-! # The flag that a thread is in the runtime

A function of the runtime sets in_libgomp of its thread on entry and clears it on return, through the
thread it has kept in a local variable.  The flag is right as long as this variable is.
-/
namespace GompUlt.Ult
open Run

variable {s s' : State} {p n : ℕ} {x : Context} {f : Frame}

section Expected

/-- What in_libgomp should be while a context is at the place, with the calls in progress. -/
def expected (place : Place) (frames : List Frame) : Bool :=
  match place with
  | .app => false
  | .copy | .runtime => (frames.head?.map Frame.marked).getD false

/-- What a call leaves in the flag when it returns. -/
def Call.leaves : Call → Bool
  | .dependWait => true
  | _ => false

/-- What a call has given to the flag, where its stage tells: the lock functions leave it alone, and a
copy constructor runs with the flag set only for a deferred task. -/
def Frame.Ok (f : Frame) : Prop :=
  match f.call with
  | .boot _ => f.marked = true
  | .setLock _ _ | .testLock _ => f.marked = false
  | .task (.copying _ undeferred) => f.marked = !undeferred
  | _ => True

/-- Every call returns to a place that expects the value it leaves. -/
def Nested : List Frame → Prop
  | [] => True
  | f :: rest => f.Ok ∧ expected f.caller rest = f.call.leaves ∧ Nested rest

/-- The functions that still write in_libgomp through their variable. -/
def Call.writesFlag : Call → Bool
  | .dependWait | .setLock _ _ | .testLock _ => false
  | _ => true

def FlagFresh (p : ℕ) (frames : List Frame) : Prop := ∀ f ∈ frames, f.call.writesFlag = true → f.thr = p

structure FlagInv (s : State) : Prop where
  running : ∀ p < s.nthreads, (s.cur p).status = .running p
  flag : ∀ p < s.nthreads, (s.thread p).inLibgomp = expected (s.cur p).place (s.cur p).frames
  fresh : ∀ p < s.nthreads, FlagFresh p (s.cur p).frames
  nested : ∀ c, Nested (s.ctx c).frames
  parked : ∀ c, (s.ctx c).status = .suspended →
    (s.ctx c).place = .runtime ∧ expected .runtime (s.ctx c).frames = true
  lock : ∀ p < s.nthreads, s.teamLock = some p →
    (s.cur p).place = .runtime ∧ expected .runtime (s.cur p).frames = true

theorem init_flagInv (n : ℕ) : FlagInv (init n) := by
  have hctx : ∀ c, ((init n).ctx c).frames = [] ∧ ((init n).ctx c).status ≠ .suspended := by
    intro c
    by_cases h : c < n <;> simp [init, h]
  constructor
  · intro p hp
    simp [init, State.cur, show p < n from hp]
  · intro p hp
    simp [init, State.cur, show p < n from hp, expected]
  · intro p hp f hf
    simp [init, State.cur, show p < n from hp] at hf
  · intro c
    rw [(hctx c).1]
    trivial
  · exact fun c hc => absurd hc (hctx c).2
  · intro p _ hl
    cases hl

theorem FlagInv.local_step (h : FlagInv s) (hp : p < s.nthreads) (hl : Local s s' p x)
    (hstatus : x.status = .running p)
    (hother : ∀ q, q ≠ p → (s'.thread q).inLibgomp = (s.thread q).inLibgomp)
    (hflag : (s'.thread p).inLibgomp = expected x.place x.frames) (hfresh : FlagFresh p x.frames)
    (hnested : Nested x.frames)
    (hlock : ∀ q, s'.teamLock = some q →
      q = p ∧ x.place = .runtime ∧ expected .runtime x.frames = true ∨ q ≠ p ∧ s.teamLock = some q) : FlagInv s' := by
  have hne : ∀ q < s.nthreads, q ≠ p → (s.thread q).task ≠ (s.thread p).task := fun q hq hqp => task_ne h.running hp hq hqp
  constructor
  · intro q hq
    rw [hl.nthreads] at hq
    by_cases hqp : q = p
    · rw [hqp,hl.cur_self]
      exact hstatus
    · rw [hl.cur_other (hne q hq hqp)]
      exact h.running q hq
  · intro q hq
    rw [hl.nthreads] at hq
    by_cases hqp : q = p
    · rw [hqp,hl.cur_self]
      exact hflag
    · rw [hl.cur_other (hne q hq hqp),hother q hqp]
      exact h.flag q hq
  · intro q hq
    rw [hl.nthreads] at hq
    by_cases hqp : q = p
    · rw [hqp,hl.cur_self]
      exact hfresh
    · rw [hl.cur_other (hne q hq hqp)]
      exact h.fresh q hq
  · intro c
    by_cases hc : c = (s.thread p).task
    · rw [hc,hl.self]
      exact hnested
    · rw [hl.other c hc]
      exact h.nested c
  · intro c hs
    by_cases hc : c = (s.thread p).task
    · rw [hc,hl.self,hstatus] at hs
      cases hs
    · rw [hl.other c hc] at hs ⊢
      exact h.parked c hs
  · intro q hq hlq
    rw [hl.nthreads] at hq
    rcases hlock q hlq with ⟨rfl,hplace⟩ | ⟨hqp,hold⟩
    · rw [hl.cur_self]
      exact hplace
    · rw [hl.cur_other (hne q hq hqp)]
      exact h.lock q hq hold

end Expected

section Calls
variable {c : Call}

/-- A thread whose flag is not set does not hold the team lock. -/
theorem FlagInv.free (h : FlagInv s) (hp : p < s.nthreads) (hexp : expected (s.cur p).place (s.cur p).frames = false) :
    s.teamLock ≠ some p := by
  intro hl
  obtain ⟨hplace,htrue⟩ := h.lock p hp hl
  rw [hplace,htrue] at hexp
  cases hexp

theorem lock_same {P : Prop} (hsame : s'.teamLock = s.teamLock) (hfree : s.teamLock ≠ some p) (q : ℕ)
    (hq : s'.teamLock = some q) : q = p ∧ P ∨ q ≠ p ∧ s.teamLock = some q := by
  rw [hsame] at hq
  exact .inr ⟨fun e => hfree (e ▸ hq),hq⟩

theorem push_fresh (h : FlagInv s) (hp : p < s.nthreads) {w : Place} {b : Bool} :
    FlagFresh p ((s.cur p).push ⟨c,p,w,b⟩).frames := by
  intro g hg hw
  rcases List.mem_cons.mp hg with rfl | hg
  · rfl
  · exact h.fresh p hp g hg hw

/-- A call that leaves the flag as it is. -/
theorem FlagInv.call (h : FlagInv s) (hp : p < s.nthreads) {b : Bool}
    (hexp : expected (s.cur p).place (s.cur p).frames = b) (hleaves : c.leaves = b)
    (hok : Frame.Ok ⟨c,p,(s.cur p).place,b⟩) (hfree : s.teamLock ≠ some p) : FlagInv (s.call p c b) := by
  refine h.local_step hp (call_local c b) (h.running p hp) (fun _ _ => rfl) ?_ (push_fresh h hp) ?_
    (lock_same rfl hfree)
  · change (s.thread p).inLibgomp = b
    rw [h.flag p hp]
    exact hexp
  · exact ⟨hok,hexp.trans hleaves.symm,h.nested _⟩

/-- A call that sets the flag at once. -/
theorem FlagInv.enter (h : FlagInv s) (hp : p < s.nthreads)
    (hexp : expected (s.cur p).place (s.cur p).frames = false) (hleaves : c.leaves = false)
    (hok : Frame.Ok ⟨c,p,(s.cur p).place,true⟩) : FlagInv ((s.call p c true).setInLibgomp p true) := by
  refine h.local_step hp ((call_local c true).setInLibgomp p true) (h.running p hp) (fun q hq => ?_) ?_ (push_fresh h hp) ?_
    (lock_same rfl (h.free hp hexp))
  · rw [setInLibgomp_inLibgomp,if_neg hq]
    rfl
  · rw [setInLibgomp_inLibgomp,if_pos rfl]
    rfl
  · exact ⟨hok,hexp.trans hleaves.symm,h.nested _⟩

/-- The call on top changes its stage. -/
theorem FlagInv.setTop (h : FlagInv s) (hp : p < s.nthreads) (hf : (s.cur p).frames = f :: (s.cur p).frames.tail) {g : Frame}
    (hl : Local s s' p x) (hx : x.frames = g :: (s.cur p).frames.tail) (hstatus : x.status = (s.cur p).status)
    (hothers : ∀ q, q ≠ p → (s'.thread q).inLibgomp = (s.thread q).inLibgomp)
    (hflag : (s'.thread p).inLibgomp = expected x.place x.frames)
    (hok : g.Ok) (hcaller : g.caller = f.caller) (hleaves : g.call.leaves = f.call.leaves)
    (hthr : g.call.writesFlag = true → g.thr = p)
    (hlock : ∀ q, s'.teamLock = some q →
      q = p ∧ x.place = .runtime ∧ expected .runtime x.frames = true ∨ q ≠ p ∧ s.teamLock = some q) : FlagInv s' := by
  refine h.local_step hp hl (hstatus.trans (h.running p hp)) hothers hflag ?_ ?_ hlock
  · intro y hy hw
    rw [hx] at hy
    rcases List.mem_cons.mp hy with rfl | hy
    · exact hthr hw
    · refine h.fresh p hp y ?_ hw
      rw [hf]
      exact List.mem_cons_of_mem f hy
  · have hn : Nested (s.cur p).frames := h.nested _
    rw [hf] at hn
    rw [hx]
    refine ⟨hok,?_,hn.2.2⟩
    rw [hcaller,hleaves]
    exact hn.2.1

/-- The return from the call on top. -/
theorem FlagInv.pop (h : FlagInv s) (hp : p < s.nthreads) (hf : (s.cur p).frames = f :: (s.cur p).frames.tail)
    (hl : Local s s' p x) (hx : x.frames = (s.cur p).frames.tail) (hplace : x.place = f.caller)
    (hstatus : x.status = (s.cur p).status)
    (hother : ∀ q, q ≠ p → (s'.thread q).inLibgomp = (s.thread q).inLibgomp)
    (hflag : (s'.thread p).inLibgomp = f.call.leaves) (hfree : s.teamLock ≠ some p)
    (hsame : s'.teamLock = s.teamLock) : FlagInv s' := by
  have hn : Nested (s.cur p).frames := h.nested _
  rw [hf] at hn
  refine h.local_step hp hl (hstatus.trans (h.running p hp)) hother ?_ ?_ ?_ (lock_same hsame hfree)
  · rw [hflag,hplace,hx]
    exact hn.2.1.symm
  · intro y hy hw
    rw [hx] at hy
    exact h.fresh p hp y (List.mem_of_mem_tail hy) hw
  · rw [hx]
    exact hn.2.2

theorem setInLibgomp_other {q t : ℕ} {b : Bool} (ht : t = p) (hq : q ≠ p) :
    ((s.setInLibgomp t b).thread q).inLibgomp = (s.thread q).inLibgomp := by
  rw [setInLibgomp_inLibgomp,if_neg (ht ▸ hq)]

theorem setInLibgomp_self {t : ℕ} {b : Bool} (ht : t = p) : ((s.setInLibgomp t b).thread p).inLibgomp = b := by
  rw [setInLibgomp_inLibgomp,if_pos ht.symm]

theorem FlagInv.top_thr (h : FlagInv s) (hp : p < s.nthreads) (hf : (s.cur p).frames = f :: (s.cur p).frames.tail)
    (hw : f.call.writesFlag = true) : f.thr = p :=
  h.fresh p hp f (by rw [hf]; exact List.mem_cons_self) hw

theorem FlagInv.top_ok (h : FlagInv s) (hf : (s.cur p).frames = f :: (s.cur p).frames.tail) : f.Ok := by
  have hn : Nested (s.cur p).frames := h.nested _
  rw [hf] at hn
  exact hn.1

theorem expected_runtime (hplace : x.place = .runtime) (hf : x.frames = f :: x.frames.tail) :
    expected x.place x.frames = f.marked := by
  rw [hplace,hf]
  rfl

theorem marks_spec {m : Bool} {t : ℕ} {w : Place} (h : c.marks = true) :
    c.writesFlag = true ∧ Frame.Ok ⟨c,t,w,m⟩ := by
  cases c with
  | task stage => cases stage <;> simp_all [Call.marks, Call.writesFlag, Frame.Ok]
  | _ => simp_all [Call.marks, Call.writesFlag, Frame.Ok]

theorem returns_spec (h : c.returns = true) (hne : c ≠ .dependWait) : c.writesFlag = true ∧ c.leaves = false := by
  cases c <;> simp_all [Call.returns, Call.writesFlag, Call.leaves]

theorem entry_spec {t : ℕ} {w : Place} (h : c.isEntry = true) : c.leaves = false ∧ Frame.Ok ⟨c,t,w,false⟩ := by
  cases c with
  | task stage => cases stage <;> simp_all [Call.isEntry, Call.leaves, Frame.Ok]
  | _ => simp_all [Call.isEntry, Call.leaves, Frame.Ok]

theorem mark_flagInv (h : FlagInv s) (hp : p < s.nthreads) (hin : InCall s p f) (hm : f.call.marks = true) :
    FlagInv (s.mark p f) := by
  obtain ⟨hplace,hf⟩ := hin
  obtain ⟨hw,hok⟩ := marks_spec (t := f.thr) (w := f.caller) (m := true) hm
  have ht := h.top_thr hp hf hw
  refine h.setTop hp hf (local_setCur rfl (fun _ => setInLibgomp_task) rfl) rfl rfl
    (fun q hq => setInLibgomp_other ht hq) ?_ hok rfl rfl (fun _ => ht) fun q hq => ?_
  · unfold State.mark
    rw [setCur_thread,setInLibgomp_self ht]
    change true = expected (s.cur p).place _
    rw [hplace]
    rfl
  · by_cases hqp : q = p
    · exact .inl ⟨hqp,hplace,rfl⟩
    · exact .inr ⟨hqp,hq⟩

theorem ret_flagInv (h : FlagInv s) (hp : p < s.nthreads) (hin : InCall s p f) (hr : f.call.returns = true)
    (hm : f.marked = true) (hfree : s.teamLock ≠ some p) : FlagInv (s.ret p f) := by
  obtain ⟨hplace,hf⟩ := hin
  by_cases hdep : f.call = .dependWait
  · have hs : s.ret p f = s.setCur p ((s.cur p).pop f) := by
      unfold State.ret
      rw [hdep]
      rfl
    rw [hs]
    refine h.pop hp hf (local_setCur rfl (fun _ => rfl) rfl) rfl rfl rfl (fun _ _ => rfl) ?_ hfree rfl
    rw [setCur_thread,h.flag p hp,expected_runtime hplace hf,hm,hdep]
    rfl
  · obtain ⟨hw,hleaves⟩ := returns_spec hr hdep
    have ht := h.top_thr hp hf hw
    have hpop : FlagInv ((s.setInLibgomp f.thr false).setCur p ((s.cur p).pop f)) := by
      refine h.pop hp hf (local_setCur rfl (fun _ => setInLibgomp_task) rfl) rfl rfl rfl
        (fun q hq => setInLibgomp_other ht hq) ?_ hfree rfl
      rw [setCur_thread,setInLibgomp_self ht,hleaves]
    unfold State.ret
    rw [if_neg hdep]
    cases hc : f.call with
    | lockedSwitch switched =>
      -- the lock function below goes on with another stage
      dsimp only
      cases hrest : ((s.cur p).pop f).frames with
      | nil =>
        unfold Context.afterLockedSwitch
        rw [hrest]
        exact hpop
      | cons g rest =>
        cases hg : g.call with
        | setLock l stage =>
          have hx : ((s.cur p).pop f).afterLockedSwitch p switched =
              { (s.cur p).pop f with
                frames := ⟨.setLock l .switched,if switched then p else g.thr,g.caller,g.marked⟩ :: rest } := by
            obtain ⟨c,t,w,m⟩ := g
            subst hg
            unfold Context.afterLockedSwitch
            rw [hrest]
          rw [hx,← setCur_setCur]
          have hcur : ((s.setInLibgomp f.thr false).setCur p ((s.cur p).pop f)).cur p = (s.cur p).pop f := setCur_cur
          have hf1 : ((s.cur p).pop f).frames = g :: ((s.cur p).pop f).frames.tail := by rw [hrest]; rfl
          have hok := hpop.top_ok (f := g) (by rw [hcur]; exact hf1)
          refine hpop.setTop (f := g) (g := ⟨.setLock l .switched,if switched then p else g.thr,g.caller,g.marked⟩) hp
            (by rw [hcur]; exact hf1) (local_setCur rfl (fun _ => rfl) rfl) ?_ (by rw [hcur])
            (fun _ _ => rfl) ?_ ?_ rfl (by rw [hg]; rfl) nofun (lock_same rfl hfree)
          · rw [hcur,hrest]
            rfl
          · rw [setCur_thread,hpop.flag p hp,hcur,hf1]
            dsimp only
            unfold expected
            split <;> rfl
          · unfold Frame.Ok at hok ⊢
            rw [hg] at hok
            exact hok
        | _ =>
          have hx : ((s.cur p).pop f).afterLockedSwitch p switched = (s.cur p).pop f := by
            obtain ⟨c,t,w,m⟩ := g
            subst hg
            unfold Context.afterLockedSwitch
            rw [hrest]
          rw [hx]
          exact hpop
    | _ => exact hpop

end Calls

section Counters
variable {t : State}

/-- The counters and the mutexes may change, nothing else. -/
structure Quiet (s t : State) : Prop where
  nthreads : t.nthreads = s.nthreads
  ctx : t.ctx = s.ctx
  teamLock : t.teamLock = s.teamLock
  task : ∀ q, (t.thread q).task = (s.thread q).task
  inLibgomp : ∀ q, (t.thread q).inLibgomp = (s.thread q).inLibgomp

theorem Quiet.refl (s : State) : Quiet s s := ⟨rfl,rfl,rfl,fun _ => rfl,fun _ => rfl⟩

theorem Quiet.increment (h : Quiet s t) (q : ℕ) : Quiet s (t.increment q) :=
  ⟨h.nthreads,h.ctx,h.teamLock,fun r => by rw [increment_task,h.task],fun r => by rw [increment_inLibgomp,h.inLibgomp]⟩

theorem Quiet.decrement (h : Quiet s t) (q : ℕ) : Quiet s (t.decrement q) :=
  ⟨h.nthreads,h.ctx,h.teamLock,fun r => by rw [decrement_task,h.task],fun r => by rw [decrement_inLibgomp,h.inLibgomp]⟩

theorem Quiet.setMutex (h : Quiet s t) (l : ℕ) (b : Bool) : Quiet s (t.setMutex l b) :=
  ⟨h.nthreads,h.ctx,h.teamLock,h.task,h.inLibgomp⟩

theorem Quiet.ite {c : Prop} [Decidable c] {u : State} (ht : Quiet s t) (hu : Quiet s u) : Quiet s (if c then t else u) := by
  split
  · exact ht
  · exact hu

theorem Quiet.cur (h : Quiet s t) (p : ℕ) : t.cur p = s.cur p := by
  unfold State.cur
  rw [h.task,h.ctx]

theorem Quiet.setCur (h : Quiet s t) : Local s (t.setCur p x) p x := local_setCur h.nthreads h.task h.ctx

/-- The call on top changes its stage, the flag does not. -/
theorem FlagInv.setTop_quiet (h : FlagInv s) (hp : p < s.nthreads) (ht : Quiet s t)
    (hf : (s.cur p).frames = f :: (s.cur p).frames.tail) {g : Frame} (hx : x.frames = g :: (s.cur p).frames.tail)
    (hstatus : x.status = (s.cur p).status)
    (hflag : expected x.place x.frames = expected (s.cur p).place (s.cur p).frames) (hok : g.Ok)
    (hcaller : g.caller = f.caller) (hleaves : g.call.leaves = f.call.leaves)
    (hthr : g.call.writesFlag = true → g.thr = p) (hfree : s.teamLock ≠ some p) : FlagInv (t.setCur p x) := by
  refine h.setTop hp hf ht.setCur hx hstatus (fun q _ => ht.inLibgomp q) ?_ hok hcaller hleaves hthr
    (lock_same ht.teamLock hfree)
  rw [setCur_thread,ht.inLibgomp,h.flag p hp,hflag]

/-- The same after an assignment to the flag. -/
theorem FlagInv.setTop_flag (h : FlagInv s) (hp : p < s.nthreads) {b : Bool} (hthr : f.thr = p)
    (ht : Quiet (s.setInLibgomp f.thr b) t) (hf : (s.cur p).frames = f :: (s.cur p).frames.tail) {g : Frame}
    (hx : x.frames = g :: (s.cur p).frames.tail) (hstatus : x.status = (s.cur p).status)
    (hflag : expected x.place x.frames = b) (hok : g.Ok) (hcaller : g.caller = f.caller)
    (hleaves : g.call.leaves = f.call.leaves) (hgthr : g.thr = p) (hfree : s.teamLock ≠ some p) :
    FlagInv (t.setCur p x) := by
  refine h.setTop hp hf (local_setCur ht.nthreads (fun q => (ht.task q).trans setInLibgomp_task) ht.ctx) hx hstatus
    (fun q hq => ?_) ?_ hok hcaller hleaves (fun _ => hgthr) (lock_same ht.teamLock hfree)
  · rw [setCur_thread,ht.inLibgomp,setInLibgomp_other hthr hq]
  · rw [setCur_thread,ht.inLibgomp,setInLibgomp_self hthr,hflag]

theorem defer_flagInv (h : FlagInv s) (hp : p < s.nthreads) (hin : InCall s p f) (hc : f.call = .task .entered)
    (hm : f.marked = true) (hfree : s.teamLock ≠ some p) (copy : Bool) : FlagInv (s.defer p f copy) := by
  obtain ⟨hplace,hf⟩ := hin
  have ht := h.top_thr hp hf (by rw [hc]; rfl)
  have hexp := expected_runtime hplace hf
  have hbump : Quiet s (if (s.thread f.thr).nonPreemptable = 0 then s.increment f.thr else s) :=
    .ite ((Quiet.refl s).increment f.thr) (.refl s)
  cases copy with
  | true =>
    refine h.setTop_quiet (f := f)
      (g := ⟨.task (.copying (decide ((s.thread f.thr).nonPreemptable = 0)) false),f.thr,f.caller,f.marked⟩) hp hbump hf
      ?_ ?_ ?_ ?_ rfl (by rw [hc]; rfl) (fun _ => ht) hfree
    · change _ :: (State.cur _ p).frames.tail = _
      rw [hbump.cur]
    · change (State.cur _ p).status = _
      rw [hbump.cur]
    · rw [hexp]
      rfl
    · exact hm
  | false =>
    refine h.setTop_quiet (f := f) hp (.refl s) hf (g := ⟨.task .past,f.thr,f.caller,f.marked⟩) rfl rfl ?_ trivial rfl
      (by rw [hc]; rfl) (fun _ => ht) hfree
    rw [hexp]
    change expected (s.cur p).place _ = _
    rw [hplace]
    rfl

theorem runUndeferred_flagInv (h : FlagInv s) (hp : p < s.nthreads) (hin : InCall s p f)
    (hc : f.call = .task .entered) (hfree : s.teamLock ≠ some p) (copy : Bool) : FlagInv (s.runUndeferred p f copy) := by
  obtain ⟨hplace,hf⟩ := hin
  have ht := h.top_thr hp hf (by rw [hc]; rfl)
  have hcur : (s.setInLibgomp f.thr false).cur p = s.cur p := by
    unfold State.cur
    rw [setInLibgomp_task]
    rfl
  have hbump := Quiet.ite (c := ((s.setInLibgomp f.thr false).thread f.thr).nonPreemptable = 0)
    ((Quiet.refl (s.setInLibgomp f.thr false)).increment f.thr) (.refl _)
  cases copy with
  | true =>
    refine h.setTop_flag (f := f) (b := false)
      (g := ⟨.task (.copying (decide (((s.setInLibgomp f.thr false).thread f.thr).nonPreemptable = 0)) true),f.thr,
        f.caller,false⟩) hp ht hbump hf ?_ ?_ rfl rfl rfl (by rw [hc]; rfl) ht hfree
    · change _ :: ((s.setInLibgomp f.thr false).cur p).frames.tail = _
      rw [hcur]
    · change ((s.setInLibgomp f.thr false).cur p).status = _
      rw [hcur]
  | false =>
    refine h.setTop_flag (f := f) (b := false) (g := ⟨.task .undeferred,f.thr,f.caller,false⟩) hp ht (.refl _) hf
      ?_ ?_ rfl trivial rfl (by rw [hc]; rfl) ht hfree
    · change _ :: ((s.setInLibgomp f.thr false).cur p).frames.tail = _
      rw [hcur]
    · change ((s.setInLibgomp f.thr false).cur p).status = _
      rw [hcur]

theorem endCopy_flagInv (h : FlagInv s) (hp : p < s.nthreads) (hf : (s.cur p).frames = f :: (s.cur p).frames.tail)
    (hplace : (s.cur p).place = .copy) {bumped undeferred : Bool} (hc : f.call = .task (.copying bumped undeferred)) :
    FlagInv (s.endCopy p f bumped undeferred) := by
  have ht := h.top_thr hp hf (by rw [hc]; rfl)
  have hmarked : f.marked = !undeferred := by
    have hok := h.top_ok hf
    unfold Frame.Ok at hok
    rw [hc] at hok
    exact hok
  have hexp : expected (s.cur p).place (s.cur p).frames = f.marked := by
    rw [hplace,hf]
    rfl
  have hfree : s.teamLock ≠ some p := by
    intro hl
    rw [(h.lock p hp hl).1] at hplace
    cases hplace
  have hdrop : Quiet s (if bumped then s.decrement f.thr else s) := .ite ((Quiet.refl s).decrement f.thr) (.refl s)
  cases undeferred with
  | true =>
    refine h.setTop_quiet (f := f) hp hdrop hf (g := ⟨.task .undeferred,f.thr,f.caller,f.marked⟩) ?_ ?_ ?_ trivial rfl
      (by rw [hc]; rfl) (fun _ => ht) hfree
    · change _ :: (State.cur _ p).frames.tail = _
      rw [hdrop.cur]
    · change (State.cur _ p).status = _
      rw [hdrop.cur]
    · rw [hexp,hmarked]
      rfl
  | false =>
    refine h.setTop_quiet (f := f) hp hdrop hf (g := ⟨.task .past,f.thr,f.caller,f.marked⟩) ?_ ?_ ?_ trivial rfl
      (by rw [hc]; rfl) (fun _ => ht) hfree
    · change _ :: (State.cur _ p).frames.tail = _
      rw [hdrop.cur]
    · change (State.cur _ p).status = _
      rw [hdrop.cur]
    · rw [hexp]
      rfl

theorem endUndeferred_flagInv (h : FlagInv s) (hp : p < s.nthreads) (hf : (s.cur p).frames = f :: (s.cur p).frames.tail)
    (hplace : (s.cur p).place = .app) (hc : f.call = .task .undeferred) : FlagInv (s.endUndeferred p f) := by
  have ht := h.top_thr hp hf (by rw [hc]; rfl)
  have hfree : s.teamLock ≠ some p := by
    intro hl
    rw [(h.lock p hp hl).1] at hplace
    cases hplace
  exact h.setTop_flag (f := f) (b := true) (g := ⟨.task .past,f.thr,f.caller,true⟩) hp ht (.refl _) hf rfl rfl rfl trivial
    rfl (by rw [hc]; rfl) ht hfree

/-- The lock functions run with the flag cleared. -/
theorem FlagInv.lock_call (h : FlagInv s) (hp : p < s.nthreads) (hin : InCall s p f) {l : ℕ}
    (hc : f.call = .testLock l ∨ ∃ stage, f.call = .setLock l stage) :
    f.marked = false ∧ expected (s.cur p).place (s.cur p).frames = false ∧ s.teamLock ≠ some p := by
  obtain ⟨hplace,hf⟩ := hin
  have hmarked : f.marked = false := by
    have hok := h.top_ok hf
    unfold Frame.Ok at hok
    rcases hc with hc | ⟨stage,hc⟩ <;> rw [hc] at hok <;> exact hok
  have hexp : expected (s.cur p).place (s.cur p).frames = false := by
    rw [expected_runtime hplace hf,hmarked]
  exact ⟨hmarked,hexp,h.free hp hexp⟩

theorem setLock_flagInv (h : FlagInv s) (hp : p < s.nthreads) (hin : InCall s p f) {l : ℕ} {stage stage' : LockStage}
    (hc : f.call = .setLock l stage) (ht : Quiet s t) :
    FlagInv (t.setCur p ((s.cur p).setTop { f with call := .setLock l stage' })) := by
  obtain ⟨hmarked,hexp,hfree⟩ := h.lock_call hp hin (.inr ⟨stage,hc⟩)
  obtain ⟨hplace,hf⟩ := hin
  refine h.setTop_quiet (f := f) (g := ⟨.setLock l stage',f.thr,f.caller,f.marked⟩) hp ht hf rfl rfl ?_ hmarked rfl
    (by rw [hc]; rfl) nofun hfree
  rw [hexp]
  change expected (s.cur p).place _ = false
  rw [hplace]
  exact hmarked

theorem popLock_flagInv (h : FlagInv s) (hp : p < s.nthreads) (hin : InCall s p f) {l : ℕ}
    (hc : f.call = .testLock l ∨ ∃ stage, f.call = .setLock l stage) (ht : Quiet s t)
    (hx : x.frames = (s.cur p).frames.tail) (hplace : x.place = f.caller) (hstatus : x.status = (s.cur p).status) :
    FlagInv (t.setCur p x) := by
  obtain ⟨hmarked,hexp,hfree⟩ := h.lock_call hp hin hc
  obtain ⟨_,hf⟩ := hin
  refine h.pop hp hf ht.setCur hx hplace hstatus (fun q _ => ht.inLibgomp q) ?_ hfree ht.teamLock
  rw [setCur_thread,ht.inLibgomp,h.flag p hp,hexp]
  rcases hc with hc | ⟨stage,hc⟩ <;> rw [hc] <;> rfl

theorem tryLock_flagInv (h : FlagInv s) (hp : p < s.nthreads) (hin : InCall s p f) {l : ℕ} {again : Bool}
    (hc : f.call = if again then .setLock l .ready else .testLock l) : FlagInv (s.tryLock p f l again) := by
  have hc' : f.call = .testLock l ∨ ∃ stage, f.call = .setLock l stage := by
    cases again with
    | true => exact .inr ⟨_,hc⟩
    | false => exact .inl hc
  have hinc : Quiet s (s.increment f.thr) := (Quiet.refl s).increment f.thr
  have hdec : Quiet s ((s.increment f.thr).decrement f.thr) := hinc.decrement f.thr
  unfold State.tryLock
  dsimp only
  split
  · rw [hdec.cur]
    cases again with
    | true => exact setLock_flagInv h hp hin hc hdec
    | false => exact popLock_flagInv h hp hin hc' hdec rfl rfl rfl
  · refine popLock_flagInv h hp hin hc' (hinc.setMutex l true) ?_ rfl ?_
    · change (State.cur _ p).frames.tail = _
      rw [hinc.cur]
    · change (State.cur _ p).status = _
      rw [hinc.cur]

theorem unlock_flagInv (h : FlagInv s) (hp : p < s.nthreads) (hexp : expected (s.cur p).place (s.cur p).frames = false)
    (l : ℕ) : FlagInv (s.unlock p l) := by
  have hfree := h.free hp hexp
  have ht : Quiet s (if ((s.setMutex l false).thread p).nonPreemptable ≠ 0 then (s.setMutex l false).decrement p
      else s.setMutex l false) :=
    .ite (((Quiet.refl s).setMutex l false).decrement p) ((Quiet.refl s).setMutex l false)
  unfold State.unlock
  dsimp only
  rw [ht.cur]
  have h1 : FlagInv ((if ((s.setMutex l false).thread p).nonPreemptable ≠ 0 then (s.setMutex l false).decrement p
      else s.setMutex l false).setCur p ((s.cur p).setCurrent ((s.cur p).current.erase l))) := by
    refine h.local_step hp ht.setCur (h.running p hp) (fun q _ => ht.inLibgomp q) ?_ (h.fresh p hp) (h.nested _)
      (lock_same ht.teamLock hfree)
    rw [setCur_thread,ht.inLibgomp]
    exact h.flag p hp
  refine h1.call ?_ ?_ rfl trivial ?_
  · rw [setCur_nthreads,ht.nthreads]
    exact hp
  · rw [setCur_cur]
    exact hexp
  · rw [setCur_teamLock,ht.teamLock]
    exact hfree

end Counters

section Switches

/-- A context that can be taken goes on in the runtime, with the flag set. -/
theorem resume_spec (hn : Nested x.frames) (hx : x.status = .fresh ∨ x.status = .suspended ∧ x.place = .runtime ∧
    expected .runtime x.frames = true) : Nested (x.resume p).frames ∧ (x.resume p).place = .runtime ∧
      expected .runtime (x.resume p).frames = true := by
  rcases hx with hx | ⟨hx,hplace,hexp⟩
  · have hr : x.resume p = { x with status := .running p, place := .runtime, frames := [⟨.boot false,p,.app,true⟩] } := by
      unfold Context.resume
      rw [hx]
    rw [hr]
    exact ⟨⟨rfl,rfl,trivial⟩,rfl,rfl⟩
  · cases hf : x.frames with
    | nil =>
      rw [hf] at hexp
      cases hexp
    | cons f rest =>
      rw [hf] at hn hexp
      have hr : x.resume p =
          { x with status := .running p, frames := (if f.call.rereads then { f with thr := p } else f) :: rest } := by
        unfold Context.resume
        rw [hx,hf]
      rw [hr]
      refine ⟨?_,hplace,?_⟩
      · dsimp only
        split
        · exact hn
        · exact hn
      · dsimp only
        split
        · exact hexp
        · exact hexp

/-- The calls of a context that still write the flag were entered on the thread it goes on on. -/
def FlagsFollow (s : State) (p n : ℕ) : Prop := FlagFresh p ((s.ctx n).resume p).frames

theorem FlagInv.passed (h : FlagInv s) (hp : p < s.nthreads) (hs : Passed s s' p x n)
    (htake : CanTake s n) (hfollow : FlagsFollow s p n)
    (hplace : (s.cur p).place = .runtime) (hexp : expected .runtime (s.cur p).frames = true)
    (hnested : Nested x.frames)
    (hpark : x.status = .suspended → x.place = .runtime ∧ expected .runtime x.frames = true)
    (hlock : s'.teamLock = none ∨ s'.teamLock = s.teamLock) : FlagInv s' := by
  have hready := resume_spec (x := s.ctx n) (p := p) (h.nested n) (htake.imp_right fun hs => ⟨hs,h.parked n hs⟩)
  have hother : ∀ q < s.nthreads, q ≠ p → s'.cur q = s.cur q := fun q hq hqp => hs.cur_other h.running hp htake hq hqp
  constructor
  · intro q hq
    rw [hs.nthreads] at hq
    by_cases hqp : q = p
    · rw [hqp,hs.cur_self]
      exact resume_status ..
    · rw [hother q hq hqp]
      exact h.running q hq
  · intro q hq
    rw [hs.nthreads] at hq
    by_cases hqp : q = p
    · rw [hqp,hs.cur_self,hs.thread,hready.2.1,hready.2.2]
      change (s.thread p).inLibgomp = true
      rw [h.flag p hp,hplace,hexp]
    · rw [hother q hq hqp,hs.threads q hqp]
      exact h.flag q hq
  · intro q hq
    rw [hs.nthreads] at hq
    by_cases hqp : q = p
    · rw [hqp,hs.cur_self]
      exact hfollow
    · rw [hother q hq hqp]
      exact h.fresh q hq
  · intro c
    by_cases hcn : c = n
    · rw [hcn,hs.new]
      exact hready.1
    · by_cases hcp : c = (s.thread p).task
      · rw [hcp,hs.old]
        exact hnested
      · rw [hs.ctx c hcn hcp]
        exact h.nested c
  · intro c hc
    by_cases hcn : c = n
    · rw [hcn,hs.new,resume_status] at hc
      cases hc
    · by_cases hcp : c = (s.thread p).task
      · rw [hcp,hs.old] at hc ⊢
        exact hpark hc
      · rw [hs.ctx c hcn hcp] at hc ⊢
        exact h.parked c hc
  · intro q hq hl
    rw [hs.nthreads] at hq
    by_cases hqp : q = p
    · rw [hqp,hs.cur_self]
      exact hready.2
    · rw [hother q hq hqp]
      rcases hlock with hlock | hlock
      · rw [hlock] at hl
        cases hl
      · rw [hlock] at hl
        exact h.lock q hq hl

/-- A switch takes place inside a call that has set the flag. -/
theorem switch_flagInv (h : FlagInv s) (hp : p < s.nthreads) (hin : InCall s p f) (hm : f.marked = true)
    (htake : CanTake s n) (hfollow : FlagsFollow s p n) : FlagInv (s.switch p f n) := by
  obtain ⟨hplace,hf⟩ := hin
  have hexp : expected .runtime (s.cur p).frames = true := by
    rw [hf]
    exact hm
  have htop : ∀ g : Frame, g.Ok → g.caller = f.caller → g.call.leaves = f.call.leaves → g.marked = f.marked → ∀ lock,
      lock = none ∨ lock = s.teamLock →
      FlagInv { s.transfer p { (s.cur p).setTop g with status := .suspended } n with teamLock := lock } := by
    intro g hok hcaller hleaves hmarked lock hlock
    refine h.passed hp (transfer_passed h.running hp htake lock) htake hfollow hplace hexp ?_
      (fun _ => ⟨hplace,hmarked.trans hm⟩) hlock
    have hn : Nested (s.cur p).frames := h.nested _
    rw [hf] at hn
    refine ⟨hok,?_,hn.2.2⟩
    rw [hcaller,hleaves]
    exact hn.2.1
  have hgo : ∀ lock, lock = none ∨ lock = s.teamLock →
      FlagInv { s.transfer p { (s.cur p).setTop (if f.call = .lockedSwitch false then
        { f with call := .lockedSwitch true } else f) with status := .suspended } n with teamLock := lock } := by
    intro lock hlock
    split
    · next hc => exact htop { f with call := .lockedSwitch true } trivial rfl (by rw [hc]; rfl) rfl lock hlock
    · exact htop f (h.top_ok hf) rfl rfl rfl lock hlock
  unfold State.switch
  dsimp only
  split
  · exact hgo none (.inl rfl)
  · exact hgo s.teamLock (.inr rfl)

theorem leave_flagInv (h : FlagInv s) (hp : p < s.nthreads) (hin : InCall s p f) (hc : f.call = .boot true)
    (htake : (s.ctx n).status = .suspended) (hfollow : FlagsFollow s p n) : FlagInv (s.leave p n) := by
  obtain ⟨hplace,hf⟩ := hin
  have hexp : expected .runtime (s.cur p).frames = true := by
    have hok := h.top_ok hf
    unfold Frame.Ok at hok
    rw [hc] at hok
    rw [hf]
    exact hok
  exact h.passed hp (transfer_passed h.running hp (.inr htake) s.teamLock) (.inr htake) hfollow hplace hexp (h.nested _) nofun
    (.inr rfl)

theorem start_flagInv (h : FlagInv s) (hp : p < s.nthreads) (hin : InCall s p f) (hc : f.call = .boot false)
    (hfree : s.teamLock ≠ some p) : FlagInv (s.start p f) := by
  obtain ⟨_,hf⟩ := hin
  have ht := h.top_thr hp hf (by rw [hc]; rfl)
  refine h.pop hp hf (local_setCur rfl (fun _ => setInLibgomp_task) rfl) rfl rfl rfl
    (fun q hq => setInLibgomp_other ht hq) ?_ hfree rfl
  unfold State.start
  rw [setCur_thread,setInLibgomp_self ht,hc]
  rfl

end Switches

section Steps

/-- The flag of a thread that runs the application is clear, and that of the thread with the team lock
is set. -/
def State.FlagRight (s : State) : Prop :=
  ∀ p < s.nthreads, ((s.cur p).place = .app → (s.thread p).inLibgomp = false) ∧
    (s.teamLock = some p → (s.thread p).inLibgomp = true)

/-- The copy constructor of a deferred task runs inside GOMP_task, with the flag set. -/
def Context.inDeferredCopy (x : Context) : Prop :=
  x.place = .copy ∧ ¬(x.top.any fun f => f.call matches .task (.copying _ true)) = true

/-- The steps that keep the flag right: gomp_locked_task_switch does not find the lock free, a context
goes on on the thread where its calls were entered, and a copy constructor of a deferred task does
not call the runtime. -/
def FlagSafe (s : State) : Event → Prop
  | .retLockFree _ => False
  | .switch p n | .leave p n => FlagsFollow s p n
  | .call p _ | .unlock p _ => ¬(s.cur p).inDeferredCopy
  | _ => True

theorem FlagInv.right (h : FlagInv s) : s.FlagRight := by
  intro p hp
  rw [h.flag p hp]
  constructor
  · intro hplace
    rw [hplace]
    rfl
  · intro hl
    rw [(h.lock p hp hl).1]
    exact (h.lock p hp hl).2

theorem expected_outside (h : FlagInv s) (hplace : (s.cur p).place ≠ .runtime) (hsafe : ¬(s.cur p).inDeferredCopy) :
    expected (s.cur p).place (s.cur p).frames = false := by
  cases hw : (s.cur p).place with
  | app => rfl
  | runtime => exact absurd hw hplace
  | copy =>
    have hany : ((s.cur p).top.any fun f => f.call matches .task (.copying _ true)) = true := by
      by_contra hn
      exact hsafe ⟨hw,hn⟩
    obtain ⟨f,hf,hc⟩ := (Option.any_eq_true _ _).mp hany
    have hok := h.top_ok (top_frames hf)
    unfold Frame.Ok at hok
    split at hc
    · next b he =>
      rw [he] at hok
      rw [top_frames hf]
      exact hok
    · cases hc

theorem step_flagInv {e : Event} (h : FlagInv s) (hsafe : FlagSafe s e) (hs : s.step e = some s') : FlagInv s' := by
  obtain ⟨hp,hmove⟩ := step_moves hs
  cases hmove with
  | call hplace hentry =>
    have hexp := expected_outside h hplace hsafe
    obtain ⟨hleaves,hok⟩ := entry_spec hentry
    exact h.call hp hexp hleaves hok (h.free hp hexp)
  | dependWait hin hc hm hfree =>
    exact h.call hp ((expected_runtime hin.place hin.frames).trans hm) rfl trivial hfree
  | lockedSwitch hin hc =>
    obtain ⟨_,hexp,hfree⟩ := h.lock_call hp hin (.inr ⟨_,hc⟩)
    exact h.call hp hexp rfl trivial hfree
  | interrupt hflag _ => exact h.enter hp ((h.flag _ hp).symm.trans hflag) rfl trivial
  | mark hin hm => exact mark_flagInv h hp hin hm
  | @acquire p f hin hm =>
    refine ⟨h.running,h.flag,h.fresh,h.nested,h.parked,fun q hq hl => ?_⟩
    obtain rfl : p = q := Option.some.inj hl
    refine ⟨hin.place,?_⟩
    change expected .runtime (s.cur p).frames = true
    rw [hin.frames]
    exact hm
  | release => exact ⟨h.running,h.flag,h.fresh,h.nested,h.parked,nofun⟩
  | ret hin hr hm hfree => exact ret_flagInv h hp hin hr hm hfree
  | retLockFree _ _ _ _ _ => exact hsafe.elim
  | defer copy hin hc hm hfree => exact defer_flagInv h hp hin hc hm hfree copy
  | runUndeferred copy hin hc hfree => exact runUndeferred_flagInv h hp hin hc hfree copy
  | endCopy hplace hf hc => exact endCopy_flagInv h hp hf hplace hc
  | endUndeferred hplace hf hc => exact endUndeferred_flagInv h hp hf hplace hc
  | create => exact ⟨h.running,h.flag,h.fresh,h.nested,h.parked,h.lock⟩
  | leaveLoop hin hc => exact setLock_flagInv h hp hin hc (.refl s)
  | tryLock again hin hc => exact tryLock_flagInv h hp hin hc
  | unlock hplace _ => exact unlock_flagInv h hp (expected_outside h hplace hsafe) _
  | switch hin _ hm htake => exact switch_flagInv h hp hin hm htake hsafe
  | start hin hc hfree => exact start_flagInv h hp hin hc hfree
  | finish hplace hf =>
    refine h.enter hp ?_ rfl rfl
    rw [hplace]
    rfl
  | leave hin hc htake => exact leave_flagInv h hp hin hc htake hsafe

/-- The flag is right in every state of a run whose steps are safe for it. -/
theorem in_libgomp_right (nthreads : ℕ) (es : List Event) (s : State) (hc : Along State.step FlagSafe (init nthreads) es)
    (hrun : run State.step (init nthreads) es = some s) : s.FlagRight := by
  have hinv : FlagInv s := run_invariant (fun _ _ _ hi hsafe hs => step_flagInv hi hsafe hs) (init_flagInv nthreads) hc hrun
  exact hinv.right

instance (x : Context) : Decidable x.inDeferredCopy :=
  inferInstanceAs (Decidable (x.place = .copy ∧ ¬(x.top.any fun f => f.call matches .task (.copying _ true)) = true))

instance (s : State) (p n : ℕ) : Decidable (FlagsFollow s p n) :=
  inferInstanceAs (Decidable (∀ f ∈ ((s.ctx n).resume p).frames, f.call.writesFlag = true → f.thr = p))

instance decidableFlagSafe (s : State) : ∀ e : Event, Decidable (FlagSafe s e)
  | .retLockFree _ => isFalse id
  | .switch p n | .leave p n => inferInstanceAs (Decidable (FlagsFollow s p n))
  | .call p _ | .unlock p _ => inferInstanceAs (Decidable ¬(s.cur p).inDeferredCopy)
  | .dependWait _ | .lockedSwitch _ | .interrupt _ | .mark _ | .acquire _ | .release _ | .ret _ | .defer _ _
  | .runUndeferred _ _ | .endCopy _ | .endUndeferred _ | .create _ | .leaveLoop _ | .tryLock _ | .start _ | .finish _ =>
    isTrue trivial

/-- A task that waits for its child is taken over by the other thread. -/
def movedWaiter : List Event :=
  createTask 0 ++ [.call 0 .taskwait,.mark 0,.acquire 0,.switch 0 2,.start 0] ++ createTask 0 ++
    [.call 0 .taskwait,.mark 0,.acquire 0,.switch 0 3,.release 0,.start 0,
      .call 1 .taskwait,.mark 1,.acquire 1,.switch 1 2,.ret 1]

theorem in_libgomp_right_movedWaiter :
    ∃ s, run State.step (init 2) movedWaiter = some s ∧ s.FlagRight :=
  ⟨_,rfl,in_libgomp_right 2 movedWaiter _ (along_of_check (by decide)) rfl⟩

/-- The lock is given back while gomp_locked_task_switch waits for the team lock. -/
def freedLock : List Event :=
  createTask 1 ++ [.call 1 (.setLock 0 .ready),.tryLock 1,.call 0 (.setLock 0 .ready),.tryLock 0,.lockedSwitch 0,.mark 0,
    .unlock 1 0,.acquire 0,.retLockFree 0,.tryLock 0]

theorem in_libgomp_right_freedLock : ¬∀ (nthreads : ℕ) (es : List Event) (s : State),
    run State.step (init nthreads) es = some s → s.FlagRight := by
  intro h
  have hflag := (h 2 freedLock _ rfl 0 (by decide)).1 rfl
  exact absurd hflag (by decide)

end Steps

end GompUlt.Ult
