import GompUlt.Ult.Contexts

/-! # The steps of a thread

Every event is inverted once.  Most steps change the context of their own thread and write through
its local variable; a switch also moves another context onto the thread.
-/
namespace GompUlt.Ult

section Inversion
variable {s s' : State}

theorem top_frames {x : Context} {f : Frame} (h : x.top = some f) : x.frames = f :: x.frames.tail := by
  obtain ⟨rest,he⟩ := List.head?_eq_some_iff.mp h
  rw [he]
  rfl

/-- The thread executes the call on top. -/
structure InCall (s : State) (p : ℕ) (f : Frame) : Prop where
  place : (s.cur p).place = .runtime
  frames : (s.cur p).frames = f :: (s.cur p).frames.tail

theorem inCall_of {p : ℕ} {f : Frame} (h : s.inCall p f = true) : InCall s p f := by
  simp only [State.inCall, Bool.and_eq_true, decide_eq_true_eq] at h
  exact ⟨h.1,top_frames h.2⟩

/-- The context has not been started, or it has been suspended. -/
def CanTake (s : State) (n : ℕ) : Prop := (s.ctx n).status = .fresh ∨ (s.ctx n).status = .suspended

/-- What every event needs and does. -/
inductive Moves (s : State) : Event → State → Prop
  | call {p c} (hplace : (s.cur p).place ≠ .runtime) (hentry : c.isEntry = true) : Moves s (.call p c) (s.call p c false)
  | dependWait {p f} (hin : InCall s p f) (hc : f.call = .task .entered) (hm : f.marked = true)
      (hfree : s.teamLock ≠ some p) : Moves s (.dependWait p) (s.call p .dependWait true)
  | lockedSwitch {p f l stage} (hin : InCall s p f) (hc : f.call = .setLock l stage) :
      Moves s (.lockedSwitch p) (s.call p (.lockedSwitch false) false)
  | interrupt {p} (hflag : (s.thread p).inLibgomp = false) (hcount : (s.thread p).nonPreemptable = 0) :
      Moves s (.interrupt p) (s.interrupt p)
  | mark {p f} (hin : InCall s p f) (hm : f.call.marks = true) : Moves s (.mark p) (s.mark p f)
  | acquire {p f} (hin : InCall s p f) (hm : f.marked = true) : Moves s (.acquire p) { s with teamLock := some p }
  | release {p} : Moves s (.release p) { s with teamLock := none }
  | ret {p f} (hin : InCall s p f) (hr : f.call.returns = true) (hm : f.marked = true) (hfree : s.teamLock ≠ some p) :
      Moves s (.ret p) (s.ret p f)
  | retLockFree {p f g rest l stage} (hplace : (s.cur p).place = .runtime) (hf : (s.cur p).frames = f :: g :: rest)
      (hc : f.call = .lockedSwitch false) (hg : g.call = .setLock l stage) (hl : s.teamLock = some p) :
      Moves s (.retLockFree p) (s.retLockFree p f g l)
  | defer {p f} (copy : Bool) (hin : InCall s p f) (hc : f.call = .task .entered) (hm : f.marked = true)
      (hfree : s.teamLock ≠ some p) : Moves s (.defer p copy) (s.defer p f copy)
  | runUndeferred {p f} (copy : Bool) (hin : InCall s p f) (hc : f.call = .task .entered)
      (hfree : s.teamLock ≠ some p) : Moves s (.runUndeferred p copy) (s.runUndeferred p f copy)
  | endCopy {p f bumped undeferred} (hplace : (s.cur p).place = .copy)
      (hf : (s.cur p).frames = f :: (s.cur p).frames.tail) (hc : f.call = .task (.copying bumped undeferred)) :
      Moves s (.endCopy p) (s.endCopy p f bumped undeferred)
  | endUndeferred {p f} (hplace : (s.cur p).place = .app) (hf : (s.cur p).frames = f :: (s.cur p).frames.tail)
      (hc : f.call = .task .undeferred) : Moves s (.endUndeferred p) (s.endUndeferred p f)
  | create {p} : Moves s (.create p) s.create
  | leaveLoop {p f l} (hin : InCall s p f) (hc : f.call = .setLock l .switched) :
      Moves s (.leaveLoop p) (s.setCur p ((s.cur p).setTop { f with call := .setLock l .ready }))
  | tryLock {p f l} (again : Bool) (hin : InCall s p f) (hc : f.call = if again then .setLock l .ready else .testLock l) :
      Moves s (.tryLock p) (s.tryLock p f l again)
  | unlock {p l} (hplace : (s.cur p).place ≠ .runtime) (hl : l ∈ (s.cur p).current) : Moves s (.unlock p l) (s.unlock p l)
  | switch {p f n} (hin : InCall s p f) (hc : f.call.canSwitch = true) (hm : f.marked = true) (htake : CanTake s n) :
      Moves s (.switch p n) (s.switch p f n)
  | start {p f} (hin : InCall s p f) (hc : f.call = .boot false) (hfree : s.teamLock ≠ some p) :
      Moves s (.start p) (s.start p f)
  | finish {p} (hplace : (s.cur p).place = .app) (hf : (s.cur p).frames = []) : Moves s (.finish p) (s.finish p)
  | leave {p f n} (hin : InCall s p f) (hc : f.call = .boot true) (htake : (s.ctx n).status = .suspended) :
      Moves s (.leave p n) (s.leave p n)

theorem exec_moves {e : Event} (hs : s.exec e = some s') : Moves s e s' := by
  cases e with
  | call p c =>
    simp only [State.exec, Option.ite_none_right_eq_some, Bool.and_eq_true, decide_eq_true_eq, Option.some.injEq] at hs
    obtain ⟨⟨⟨hplace,hentry⟩,_⟩,rfl⟩ := hs
    exact .call hplace hentry
  | interrupt p =>
    simp only [State.exec, Option.ite_none_right_eq_some, Bool.and_eq_true, Bool.not_eq_true', decide_eq_true_eq,
      Option.some.injEq] at hs
    obtain ⟨⟨⟨hflag,hcount⟩,_⟩,rfl⟩ := hs
    exact .interrupt hflag hcount
  | release p =>
    simp only [State.exec, Option.ite_none_right_eq_some, Option.some.injEq] at hs
    obtain ⟨_,rfl⟩ := hs
    exact .release
  | unlock p l =>
    simp only [State.exec, Option.ite_none_right_eq_some, Bool.and_eq_true, decide_eq_true_eq, Option.some.injEq] at hs
    obtain ⟨⟨hplace,hl⟩,rfl⟩ := hs
    exact .unlock hplace hl
  | finish p =>
    simp only [State.exec, Option.ite_none_right_eq_some, Bool.and_eq_true, decide_eq_true_eq, Option.some.injEq] at hs
    obtain ⟨⟨⟨hplace,hf⟩,_⟩,rfl⟩ := hs
    exact .finish hplace hf
  | retLockFree p =>
    simp only [State.exec] at hs
    split at hs
    case h_2 => cases hs
    case h_1 f g rest hf =>
      split at hs
      case h_2 => cases hs
      case h_1 l stage hg =>
        simp only [Option.ite_none_right_eq_some, Bool.and_eq_true, decide_eq_true_eq, Option.some.injEq] at hs
        obtain ⟨⟨⟨⟨⟨hin,hc⟩,_⟩,hl⟩,_⟩,rfl⟩ := hs
        exact .retLockFree (inCall_of hin).place hf hc hg hl
  | dependWait p =>
    obtain ⟨f,hf,hs⟩ := Option.bind_eq_some_iff.mp hs
    simp only [State.free, Option.ite_none_right_eq_some, Bool.and_eq_true, decide_eq_true_eq, Option.some.injEq] at hs
    obtain ⟨⟨⟨⟨hin,hc⟩,hm⟩,hfree⟩,rfl⟩ := hs
    exact .dependWait (inCall_of hin) hc hm hfree
  | lockedSwitch p =>
    obtain ⟨f,hf,hs⟩ := Option.bind_eq_some_iff.mp hs
    split at hs
    case h_2 => cases hs
    case h_1 l stage hc =>
      simp only [Option.ite_none_right_eq_some, Bool.and_eq_true, Option.some.injEq] at hs
      obtain ⟨⟨hin,_⟩,rfl⟩ := hs
      exact .lockedSwitch (inCall_of hin) hc
  | mark p =>
    obtain ⟨f,hf,hs⟩ := Option.bind_eq_some_iff.mp hs
    simp only [Option.ite_none_right_eq_some, Bool.and_eq_true, Option.some.injEq] at hs
    obtain ⟨⟨⟨hin,hm⟩,_⟩,rfl⟩ := hs
    exact .mark (inCall_of hin) hm
  | acquire p =>
    obtain ⟨f,hf,hs⟩ := Option.bind_eq_some_iff.mp hs
    simp only [Option.ite_none_right_eq_some, Bool.and_eq_true, decide_eq_true_eq, Option.some.injEq] at hs
    obtain ⟨⟨⟨hin,hm⟩,_⟩,rfl⟩ := hs
    exact .acquire (inCall_of hin) hm
  | ret p =>
    obtain ⟨f,hf,hs⟩ := Option.bind_eq_some_iff.mp hs
    simp only [State.free, Option.ite_none_right_eq_some, Bool.and_eq_true, decide_eq_true_eq, Option.some.injEq] at hs
    obtain ⟨⟨⟨⟨hin,hr⟩,hm⟩,hfree⟩,rfl⟩ := hs
    exact .ret (inCall_of hin) hr hm hfree
  | defer p copy =>
    obtain ⟨f,hf,hs⟩ := Option.bind_eq_some_iff.mp hs
    simp only [State.free, Option.ite_none_right_eq_some, Bool.and_eq_true, decide_eq_true_eq, Option.some.injEq] at hs
    obtain ⟨⟨⟨⟨hin,hc⟩,hm⟩,hfree⟩,rfl⟩ := hs
    exact .defer copy (inCall_of hin) hc hm hfree
  | runUndeferred p copy =>
    obtain ⟨f,hf,hs⟩ := Option.bind_eq_some_iff.mp hs
    simp only [State.free, Option.ite_none_right_eq_some, Bool.and_eq_true, decide_eq_true_eq, Option.some.injEq] at hs
    obtain ⟨⟨⟨⟨hin,hc⟩,_⟩,hfree⟩,rfl⟩ := hs
    exact .runUndeferred copy (inCall_of hin) hc hfree
  | endCopy p =>
    obtain ⟨f,hf,hs⟩ := Option.bind_eq_some_iff.mp hs
    split at hs
    case h_2 => cases hs
    case h_1 bumped undeferred hc =>
      simp only [Option.ite_none_right_eq_some, Option.some.injEq] at hs
      obtain ⟨hplace,rfl⟩ := hs
      exact .endCopy hplace (top_frames hf) hc
  | endUndeferred p =>
    obtain ⟨f,hf,hs⟩ := Option.bind_eq_some_iff.mp hs
    simp only [Option.ite_none_right_eq_some, Bool.and_eq_true, decide_eq_true_eq, Option.some.injEq] at hs
    obtain ⟨⟨hplace,hc⟩,rfl⟩ := hs
    exact .endUndeferred hplace (top_frames hf) hc
  | create p =>
    obtain ⟨f,hf,hs⟩ := Option.bind_eq_some_iff.mp hs
    simp only [Option.ite_none_right_eq_some, Option.some.injEq] at hs
    obtain ⟨_,rfl⟩ := hs
    exact .create
  | leaveLoop p =>
    obtain ⟨f,hf,hs⟩ := Option.bind_eq_some_iff.mp hs
    split at hs
    case h_2 => cases hs
    case h_1 l hc =>
      simp only [Option.ite_none_right_eq_some, Bool.and_eq_true, Option.some.injEq] at hs
      obtain ⟨⟨hin,_⟩,rfl⟩ := hs
      exact .leaveLoop (inCall_of hin) hc
  | tryLock p =>
    obtain ⟨f,hf,hs⟩ := Option.bind_eq_some_iff.mp hs
    split at hs
    case h_3 => cases hs
    case h_1 l hc =>
      simp only [Option.ite_none_right_eq_some, Option.some.injEq] at hs
      obtain ⟨hin,rfl⟩ := hs
      exact .tryLock true (inCall_of hin) hc
    case h_2 l hc =>
      simp only [Option.ite_none_right_eq_some, Option.some.injEq] at hs
      obtain ⟨hin,rfl⟩ := hs
      exact .tryLock false (inCall_of hin) hc
  | switch p n =>
    obtain ⟨f,hf,hs⟩ := Option.bind_eq_some_iff.mp hs
    simp only [State.canTake, Option.ite_none_right_eq_some, Bool.and_eq_true, Bool.or_eq_true, decide_eq_true_eq,
      Option.some.injEq] at hs
    obtain ⟨⟨⟨⟨⟨hin,hc⟩,hm⟩,_⟩,_,htake⟩,rfl⟩ := hs
    exact .switch (inCall_of hin) hc hm htake
  | start p =>
    obtain ⟨f,hf,hs⟩ := Option.bind_eq_some_iff.mp hs
    simp only [State.free, Option.ite_none_right_eq_some, Bool.and_eq_true, decide_eq_true_eq, Option.some.injEq] at hs
    obtain ⟨⟨⟨hin,hc⟩,hfree⟩,rfl⟩ := hs
    exact .start (inCall_of hin) hc hfree
  | leave p n =>
    obtain ⟨f,hf,hs⟩ := Option.bind_eq_some_iff.mp hs
    simp only [Option.ite_none_right_eq_some, Bool.and_eq_true, decide_eq_true_eq, Option.some.injEq] at hs
    obtain ⟨⟨⟨⟨⟨hin,hc⟩,_⟩,_⟩,htake⟩,rfl⟩ := hs
    exact .leave (inCall_of hin) hc htake

theorem step_moves {e : Event} (hs : s.step e = some s') : e.thread < s.nthreads ∧ Moves s e s' := by
  unfold State.step at hs
  split at hs
  · next hp => exact ⟨hp,exec_moves hs⟩
  · cases hs

end Inversion

variable {s s' : State} {p n : ℕ} {x : Context}

section Fields
variable {t q l : ℕ} {b : Bool}

@[simp] theorem setCur_thread : (s.setCur p x).thread = s.thread := rfl
@[simp] theorem setCur_nthreads : (s.setCur p x).nthreads = s.nthreads := rfl
@[simp] theorem setCur_teamLock : (s.setCur p x).teamLock = s.teamLock := rfl
@[simp] theorem setCur_cur : (s.setCur p x).cur p = x := Function.update_self ..

@[simp] theorem setInLibgomp_ctx : (s.setInLibgomp t b).ctx = s.ctx := rfl
@[simp] theorem setInLibgomp_nthreads : (s.setInLibgomp t b).nthreads = s.nthreads := rfl
@[simp] theorem setInLibgomp_teamLock : (s.setInLibgomp t b).teamLock = s.teamLock := rfl
@[simp] theorem setMutex_thread : (s.setMutex l b).thread = s.thread := rfl

@[simp] theorem setInLibgomp_task : ((s.setInLibgomp t b).thread q).task = (s.thread q).task := by
  by_cases h : q = t <;> simp [State.setInLibgomp, h]

@[simp] theorem setInLibgomp_nonPreemptable :
    ((s.setInLibgomp t b).thread q).nonPreemptable = (s.thread q).nonPreemptable := by
  by_cases h : q = t <;> simp [State.setInLibgomp, h]

theorem setInLibgomp_inLibgomp :
    ((s.setInLibgomp t b).thread q).inLibgomp = if q = t then b else (s.thread q).inLibgomp := by
  by_cases h : q = t <;> simp [State.setInLibgomp, h]

@[simp] theorem increment_task : ((s.increment t).thread q).task = (s.thread q).task := by
  by_cases h : q = t <;> simp [State.increment, h]

@[simp] theorem increment_inLibgomp : ((s.increment t).thread q).inLibgomp = (s.thread q).inLibgomp := by
  by_cases h : q = t <;> simp [State.increment, h]

@[simp] theorem decrement_task : ((s.decrement t).thread q).task = (s.thread q).task := by
  by_cases h : q = t <;> simp [State.decrement, h]

@[simp] theorem decrement_inLibgomp : ((s.decrement t).thread q).inLibgomp = (s.thread q).inLibgomp := by
  by_cases h : q = t <;> simp [State.decrement, h]

end Fields

/-- A step that only changes the context of its thread. -/
structure Local (s s' : State) (p : ℕ) (x : Context) : Prop where
  nthreads : s'.nthreads = s.nthreads
  task : ∀ q, (s'.thread q).task = (s.thread q).task
  self : s'.ctx (s.thread p).task = x
  other : ∀ c, c ≠ (s.thread p).task → s'.ctx c = s.ctx c

/-- The context is written last. -/
theorem local_setCur {t : State} (hn : t.nthreads = s.nthreads) (ht : ∀ q, (t.thread q).task = (s.thread q).task)
    (hc : t.ctx = s.ctx) : Local s (t.setCur p x) p x := by
  refine ⟨hn,ht,?_,fun c hne => ?_⟩
  · change Function.update t.ctx (t.thread p).task x (s.thread p).task = x
    rw [ht,Function.update_self]
  · change Function.update t.ctx (t.thread p).task x c = s.ctx c
    rw [ht,Function.update_of_ne hne,hc]

section Shape

/-- Two threads run two contexts. -/
theorem task_ne (hr : ∀ p < s.nthreads, (s.cur p).status = .running p) {q : ℕ} (hp : p < s.nthreads)
    (hq : q < s.nthreads) (hne : q ≠ p) : (s.thread q).task ≠ (s.thread p).task := by
  intro he
  have h1 := hr q hq
  unfold State.cur at h1
  rw [he] at h1
  exact hne (Status.running.inj (h1.symm.trans (hr p hp)))

theorem Local.cur_self (hl : Local s s' p x) : s'.cur p = x := by
  unfold State.cur
  rw [hl.task]
  exact hl.self

theorem Local.cur_other (hl : Local s s' p x) {q : ℕ} (hne : (s.thread q).task ≠ (s.thread p).task) :
    s'.cur q = s.cur q := by
  unfold State.cur
  rw [hl.task]
  exact hl.other _ hne

theorem Local.setInLibgomp (hl : Local s s' p x) (t : ℕ) (b : Bool) : Local s (s'.setInLibgomp t b) p x :=
  ⟨hl.nthreads,fun q => by rw [setInLibgomp_task]; exact hl.task q,hl.self,hl.other⟩

theorem call_local (c : Call) (b : Bool) :
    Local s (s.call p c b) p ((s.cur p).push ⟨c,p,(s.cur p).place,b⟩) :=
  local_setCur rfl (fun _ => rfl) rfl

theorem setCur_setCur {y : Context} : (s.setCur p x).setCur p y = s.setCur p y := by
  unfold State.setCur
  rw [Function.update_idem]

end Shape

section Switches

theorem resume_status (x : Context) (p : ℕ) : (x.resume p).status = .running p := by
  unfold Context.resume
  split <;> rfl

/-- What a switch changes. -/
structure Passed (s s' : State) (p : ℕ) (x : Context) (n : ℕ) : Prop where
  nthreads : s'.nthreads = s.nthreads
  wrapped : s'.wrapped = s.wrapped
  thread : s'.thread p = { s.thread p with task := n }
  threads : ∀ q, q ≠ p → s'.thread q = s.thread q
  new : s'.ctx n = (s.ctx n).resume p
  old : s'.ctx (s.thread p).task = x
  ctx : ∀ c, c ≠ n → c ≠ (s.thread p).task → s'.ctx c = s.ctx c

theorem taken_ne (hr : ∀ p < s.nthreads, (s.cur p).status = .running p)
    (htake : CanTake s n) {q : ℕ} (hq : q < s.nthreads) :
    (s.thread q).task ≠ n := by
  intro he
  have := hr q hq
  unfold State.cur at this
  rw [he] at this
  rcases htake with ht | ht <;> rw [ht] at this <;> cases this

theorem transfer_passed (hr : ∀ p < s.nthreads, (s.cur p).status = .running p) (hp : p < s.nthreads)
    (htake : CanTake s n) (lock : Option ℕ) :
    Passed s { s.transfer p x n with teamLock := lock } p x n := by
  have hne := taken_ne hr htake hp
  have hnctx : (s.setCur p x).ctx n = s.ctx n := Function.update_of_ne hne.symm _ _
  refine ⟨rfl,rfl,Function.update_self ..,fun q hq => Function.update_of_ne hq _ _,?_,?_,fun c hcn hcp => ?_⟩
  · unfold State.transfer
    dsimp only
    rw [Function.update_self,hnctx]
  · unfold State.transfer
    dsimp only
    rw [Function.update_of_ne hne]
    exact Function.update_self ..
  · unfold State.transfer
    dsimp only
    rw [Function.update_of_ne hcn]
    exact Function.update_of_ne hcp _ _

theorem Passed.cur_self (h : Passed s s' p x n) : s'.cur p = (s.ctx n).resume p := by
  unfold State.cur
  rw [h.thread]
  exact h.new

theorem Passed.cur_other (h : Passed s s' p x n) (hr : ∀ p < s.nthreads, (s.cur p).status = .running p)
    (hp : p < s.nthreads) (htake : CanTake s n) {q : ℕ}
    (hq : q < s.nthreads) (hqp : q ≠ p) : s'.cur q = s.cur q := by
  unfold State.cur
  rw [h.threads q hqp]
  exact h.ctx _ (taken_ne hr htake hq) (task_ne hr hp hq hqp)

end Switches

end GompUlt.Ult
