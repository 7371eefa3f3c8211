import GompUlt.Ult.TargetTasks

/-! # Target tasks stay out of the contexts and of the tied lists

A target task that is left running on its device is in no tied list because every pointer that the lists
keep to a target task is to one that has finished on its device, or to the one that the thread runs.
-/
namespace GompUlt.TargetTasks
open Run
open Queue (TaskKind)

variable {s s' : State} {p t : ℕ} {x y : TargetTask} {z : Task}

section Invariant

/-- A list may keep a pointer to the task. -/
def Good (s : State) (l : ℕ) : Prop := l < s.numTasks ∧ ∀ x, (s.task l).fnData = some x → x.state = .finished

/-- A target task: what runs on the device is READY_TO_RUN while gomp_target_task_fn goes on, RUNNING
when the task has been left, and has a device. -/
structure TargetOk (z : Task) (x : TargetTask) : Prop where
  type : z.type = .tied ∧ z.undeferred = false
  kind : z.kind = .waiting ∨ z.kind = .tied ∨ z.kind = .asyncRunning ∧ x.state = .running
  flight : x.inFlight = true → x.state = .readyToRun ∧ z.kind = .tied ∨ x.state = .running ∧ z.kind = .asyncRunning
  ready : x.state = .readyToRun → x.inFlight = true
  launched : x.inFlight = true ∨ x.state = .finished → x.fn = true ∧ x.device = true ∧ x.runnable = true

/-- A target task that a queue offers. -/
theorem TargetOk.kind_waiting (h : TargetOk z x)
    (hk : z.kind = .waiting ∨ z.kind = .undeferred ∨ z.kind = .tiedSuspended) : z.kind = .waiting := by
  rcases hk with hk | hk | hk
  · exact hk
  · rcases h.kind with h | h | ⟨h,_⟩ <;> rw [hk] at h <;> cases h
  · rcases h.kind with h | h | ⟨h,_⟩ <;> rw [hk] at h <;> cases h

/-- gomp_target_task_fn runs the task on the thread. -/
structure CallOk (s : State) (w : Thread) (c : TargetCall) : Prop where
  target : ∃ x, (s.task c.task).fnData = some x ∧ (c.async = true → x.state = .readyToRun ∨ x.state = .finished) ∧
    (c.async = false → x.state ≠ .readyToRun)
  kind : (s.task c.task).kind = .tied
  bound : c.task < s.numTasks
  last : w.lastTiedTask = some c.task
  caller : (s.task c.caller).fnData = none
  callerBound : c.caller < s.numTasks

structure ThreadOk (s : State) (w : Thread) : Prop where
  last : ∀ l, w.lastTiedTask = some l → (∃ c, w.call = some c ∧ c.task = l) ∨ Good s l
  call : ∀ c, w.call = some c → CallOk s w c
  plain : w.call = none → (s.task w.task).fnData = none
  bound : w.task < s.numTasks

structure Inv (s : State) : Prop where
  ran : ∀ t, (s.task t).hasRun = true → (s.task t).fnData = none
  target : ∀ t x, (s.task t).fnData = some x → TargetOk (s.task t) x
  async : ∀ t, (s.task t).kind = .asyncRunning → (s.task t).fnData ≠ none
  previous : ∀ u l, (s.task u).previousTiedTask = some l → Good s l
  stack : ∀ t q, (s.task t).onStack = true → (s.task t).parent = some q → (s.task q).fnData = none ∧ q < s.numTasks
  implicit : ∀ p < s.nthreads, (s.task p).fnData = none ∧ p < s.numTasks
  thread : ∀ p < s.nthreads, ThreadOk s (s.thread p)
  unique : ∀ p < s.nthreads, ∀ q < s.nthreads, ∀ c d, (s.thread p).call = some c → (s.thread q).call = some d →
    c.task = d.task → p = q

theorem init_inv (nthreads : ℕ) : Inv (init nthreads) where
  ran _ h := by cases h
  target _ _ h := by cases h
  async _ h := by cases h
  previous _ _ h := by cases h
  stack _ _ h := by cases h
  implicit p hp := ⟨rfl,hp⟩
  thread p hp := ⟨nofun,nofun,fun _ => rfl,hp⟩
  unique _ _ _ _ _ _ h := by cases h

/-- The task that runs on a thread, when it is not gomp_target_task_fn. -/
theorem Inv.plain (h : Inv s) (hp : p < s.nthreads) (hcall : (s.thread p).call = none) :
    (s.task (s.cur p)).fnData = none := (h.thread p hp).plain hcall

/-- What a thread that runs a task has in its list. -/
theorem Inv.last_good (h : Inv s) (hp : p < s.nthreads) (hcall : (s.thread p).call = none) {l : ℕ}
    (hl : (s.thread p).lastTiedTask = some l) : Good s l := by
  refine ((h.thread p hp).last l hl).resolve_left ?_
  rintro ⟨c,hc,_⟩
  rw [hcall] at hc
  cases hc

end Invariant

section Updates

@[simp] theorem modify_self {f : Task → Task} : (s.modify t f).task t = f (s.task t) := by simp [State.modify]

theorem modify_other {f : Task → Task} {u : ℕ} (h : u ≠ t) : (s.modify t f).task u = s.task u := by
  simp [State.modify, h]

@[simp] theorem setThread_self {f : Thread → Thread} : (s.setThread p f).thread p = f (s.thread p) := by
  simp [State.setThread]

theorem setThread_other {f : Thread → Thread} {q : ℕ} (h : q ≠ p) : (s.setThread p f).thread q = s.thread q := by
  simp [State.setThread, h]

@[simp] theorem setThread_task {f : Thread → Thread} : (s.setThread p f).task = s.task := rfl

@[simp] theorem setLast_task {o : Option ℕ} : (s.setLast p o).task = s.task := rfl

/-- What the invariant reads of the tasks, when their targets stay. -/
structure SameTargets (s s' : State) : Prop where
  nthreads : s'.nthreads = s.nthreads
  numTasks : s'.numTasks = s.numTasks
  thread : s'.thread = s.thread
  fnData : ∀ u, (s'.task u).fnData = (s.task u).fnData
  type : ∀ u, (s'.task u).type = (s.task u).type ∧ (s'.task u).undeferred = (s.task u).undeferred
  kind : ∀ u, (s'.task u).kind = (s.task u).kind ∨ (s.task u).fnData = none ∧ (s'.task u).kind ≠ .asyncRunning
  hasRun : ∀ u, (s'.task u).hasRun = true → (s.task u).hasRun = true ∨ (s.task u).fnData = none
  previous : ∀ u l, (s'.task u).previousTiedTask = some l → (s.task u).previousTiedTask = some l ∨ Good s l
  stack : ∀ u q, (s'.task u).onStack = true → (s'.task u).parent = some q →
    (s.task u).onStack = true ∧ (s.task u).parent = some q

theorem SameTargets.good (h : SameTargets s s') {l : ℕ} : Good s' l ↔ Good s l := by
  unfold Good
  rw [h.numTasks,h.fnData]

/-- The kind of a target task has stayed. -/
theorem SameTargets.kind_target (h : SameTargets s s') {u : ℕ} (hu : (s.task u).fnData = some x) :
    (s'.task u).kind = (s.task u).kind := by
  rcases h.kind u with hk | ⟨hn,_⟩
  · exact hk
  · rw [hn] at hu
    cases hu

theorem ThreadOk.same {w : Thread} (h : ThreadOk s w) (hs : SameTargets s s') : ThreadOk s' w where
  last l hl := by
    rw [hs.good]
    exact h.last l hl
  call c hc := by
    obtain ⟨⟨x,hx,hstate⟩,hkind,hbound,hlast,hcaller,hcallerBound⟩ := h.call c hc
    refine ⟨⟨x,(hs.fnData _).trans hx,hstate⟩,?_,?_,hlast,?_,?_⟩
    · rw [hs.kind_target hx]
      exact hkind
    · rw [hs.numTasks]
      exact hbound
    · rw [hs.fnData]
      exact hcaller
    · rw [hs.numTasks]
      exact hcallerBound
  plain hn := by
    rw [hs.fnData]
    exact h.plain hn
  bound := by
    rw [hs.numTasks]
    exact h.bound

theorem Inv.same (h : Inv s) (hs : SameTargets s s') : Inv s' where
  ran t ht := by
    rw [hs.fnData]
    rcases hs.hasRun t ht with ht | ht
    · exact h.ran t ht
    · exact ht
  target t x hx := by
    rw [hs.fnData] at hx
    obtain ⟨h1,h2,h3,h4,h5⟩ := h.target t x hx
    refine ⟨⟨(hs.type t).1.trans h1.1,(hs.type t).2.trans h1.2⟩,?_,?_,h4,h5⟩
    · rw [hs.kind_target hx]
      exact h2
    · rw [hs.kind_target hx]
      exact h3
  async t ht := by
    rw [hs.fnData]
    rcases hs.kind t with hk | ⟨_,hk⟩
    · exact h.async t (hk.symm.trans ht)
    · exact absurd ht hk
  previous u l hl := by
    rw [hs.good]
    rcases hs.previous u l hl with hl | hl
    · exact h.previous u l hl
    · exact hl
  stack t q ht hq := by
    rw [hs.fnData,hs.numTasks]
    obtain ⟨h1,h2⟩ := hs.stack t q ht hq
    exact h.stack t q h1 h2
  implicit p hp := by
    rw [hs.fnData,hs.numTasks]
    exact h.implicit p (hs.nthreads ▸ hp)
  thread p hp := by
    rw [hs.nthreads] at hp
    rw [hs.thread]
    exact (h.thread p hp).same hs
  unique p hp q hq c d hc hd := by
    rw [hs.nthreads] at hp hq
    rw [hs.thread] at hc hd
    exact h.unique p hp q hq c d hc hd

theorem SameTargets.refl (s : State) : SameTargets s s :=
  ⟨rfl,rfl,rfl,fun _ => rfl,fun _ => ⟨rfl,rfl⟩,fun _ => .inl rfl,fun _ => .inl,fun _ _ => .inl,
    fun _ _ h1 h2 => ⟨h1,h2⟩⟩

theorem SameTargets.trans {s₁ s₂ : State} (h1 : SameTargets s s₁) (h2 : SameTargets s₁ s₂) : SameTargets s s₂ where
  nthreads := h2.nthreads.trans h1.nthreads
  numTasks := h2.numTasks.trans h1.numTasks
  thread := h2.thread.trans h1.thread
  fnData u := (h2.fnData u).trans (h1.fnData u)
  type u := ⟨(h2.type u).1.trans (h1.type u).1,(h2.type u).2.trans (h1.type u).2⟩
  kind u := by
    rcases h2.kind u with hk | ⟨hf,hk⟩
    · rw [hk]
      exact h1.kind u
    · exact .inr ⟨(h1.fnData u).symm.trans hf,hk⟩
  hasRun u hu := by
    rcases h2.hasRun u hu with hu | hu
    · exact h1.hasRun u hu
    · exact .inr ((h1.fnData u).symm.trans hu)
  previous u l hl := by
    rcases h2.previous u l hl with hl | hl
    · exact h1.previous u l hl
    · exact .inr (h1.good.mp hl)
  stack u q hu hq := by
    obtain ⟨hu,hq⟩ := h2.stack u q hu hq
    exact h1.stack u q hu hq

/-- A change of one task that is not about its target. -/
theorem modify_same {f : Task → Task} (hfn : (f (s.task t)).fnData = (s.task t).fnData)
    (htype : (f (s.task t)).type = (s.task t).type ∧ (f (s.task t)).undeferred = (s.task t).undeferred)
    (hkind : (f (s.task t)).kind = (s.task t).kind ∨ (s.task t).fnData = none ∧ (f (s.task t)).kind ≠ .asyncRunning)
    (hran : (f (s.task t)).hasRun = true → (s.task t).hasRun = true ∨ (s.task t).fnData = none)
    (hprev : ∀ l, (f (s.task t)).previousTiedTask = some l → (s.task t).previousTiedTask = some l ∨ Good s l)
    (hstack : (f (s.task t)).onStack = (s.task t).onStack ∧ (f (s.task t)).parent = (s.task t).parent) :
    SameTargets s (s.modify t f) := by
  refine ⟨rfl,rfl,rfl,fun u => ?_,fun u => ?_,fun u => ?_,fun u => ?_,fun u => ?_,fun u => ?_⟩ <;> by_cases hu : u = t
  · rw [hu,modify_self]
    exact hfn
  · rw [modify_other hu]
  · rw [hu,modify_self]
    exact htype
  · rw [modify_other hu]
    exact ⟨rfl,rfl⟩
  · rw [hu,modify_self]
    exact hkind
  · rw [modify_other hu]
    exact .inl rfl
  · rw [hu,modify_self]
    exact hran
  · rw [modify_other hu]
    exact .inl
  · rw [hu,modify_self]
    exact hprev
  · rw [modify_other hu]
    exact fun l => .inl
  · rw [hu,modify_self,hstack.1,hstack.2]
    exact fun q h1 h2 => ⟨h1,h2⟩
  · rw [modify_other hu]
    exact fun q h1 h2 => ⟨h1,h2⟩

theorem ThreadOk.setThread {w : Thread} {f : Thread → Thread} (h : ThreadOk s w) : ThreadOk (s.setThread p f) w := by
  refine ⟨h.last,fun c hc => ?_,h.plain,h.bound⟩
  obtain ⟨h1,h2,h3,h4,h5,h6⟩ := h.call c hc
  exact ⟨h1,h2,h3,h4,h5,h6⟩

/-- A change of one thread. -/
theorem Inv.setThread (h : Inv s) {f : Thread → Thread} (hok : ThreadOk s (f (s.thread p)))
    (halone : ∀ c, (f (s.thread p)).call = some c → ∀ q < s.nthreads, q ≠ p → ∀ d, (s.thread q).call = some d →
      d.task ≠ c.task) : Inv (s.setThread p f) where
  ran := h.ran
  target := h.target
  async := h.async
  previous := h.previous
  stack := h.stack
  implicit := h.implicit
  thread q hq := by
    by_cases hqp : q = p
    · subst hqp
      rw [setThread_self]
      exact hok.setThread
    · rw [setThread_other hqp]
      exact (h.thread q hq).setThread
  unique q hq r hr c d hc hd hcd := by
    by_cases hqp : q = p <;> by_cases hrp : r = p
    · rw [hqp,hrp]
    · subst hqp
      rw [setThread_self] at hc
      rw [setThread_other hrp] at hd
      exact absurd hcd.symm (halone c hc r hr hrp d hd)
    · subst hrp
      rw [setThread_other hqp] at hc
      rw [setThread_self] at hd
      exact absurd hcd (halone d hd q hq hqp c hc)
    · rw [setThread_other hqp] at hc
      rw [setThread_other hrp] at hd
      exact h.unique q hq r hr c d hc hd hcd

/-- A thread goes on with a task. -/
theorem Inv.setTask (h : Inv s) (hp : p < s.nthreads) (hcall : (s.thread p).call = none) (hfn : (s.task t).fnData = none)
    (ht : t < s.numTasks) : Inv (s.setThread p fun w => { w with task := t }) := by
  refine h.setThread ⟨(h.thread p hp).last,fun c hc => ?_,fun _ => hfn,ht⟩ fun c hc => ?_
  · rw [hcall] at hc
    cases hc
  · rw [hcall] at hc
    cases hc

end Updates

section Switches

theorem Inv.setLast (h : Inv s) (hp : p < s.nthreads) (hcall : (s.thread p).call = none) {o : Option ℕ}
    (ho : ∀ l, o = some l → Good s l) : Inv (s.setLast p o) := by
  have hok := h.thread p hp
  refine h.setThread ⟨fun l hl => .inr (ho l hl),fun c hc => ?_,hok.plain,hok.bound⟩ fun c hc => ?_
  · rw [hcall] at hc
    cases hc
  · rw [hcall] at hc
    cases hc

theorem setNext_same (s : State) (t : ℕ) (o : Option ℕ) :
    SameTargets s (s.modify t fun x => { x with nextTiedTask := o }) :=
  modify_same rfl ⟨rfl,rfl⟩ (.inl rfl) .inl (fun _ => .inl) ⟨rfl,rfl⟩

theorem setPrevious_same {o : Option ℕ} (ho : ∀ l, o = some l → Good s l) :
    SameTargets s (s.modify t fun x => { x with previousTiedTask := o }) :=
  modify_same rfl ⟨rfl,rfl⟩ (.inl rfl) .inl (fun l hl => .inr (ho l hl)) ⟨rfl,rfl⟩

theorem linkTied_same (h : Inv s) (hp : p < s.nthreads) (hcall : (s.thread p).call = none) : SameTargets s (s.linkTied p t) := by
  unfold State.linkTied
  split
  · exact .refl s
  · next l hl =>
    split
    · exact .refl s
    · refine (setNext_same s l _).trans (setPrevious_same fun k hk => ?_)
      obtain rfl := Option.some.inj hk
      exact (setNext_same s l _).good.mpr (h.last_good hp hcall hl)

/-- What the changes of the lists leave alone. -/
structure Kept (s s' : State) : Prop where
  nthreads : s'.nthreads = s.nthreads
  numTasks : s'.numTasks = s.numTasks
  fnData : ∀ u, (s'.task u).fnData = (s.task u).fnData
  cur : ∀ q, s'.cur q = s.cur q
  call : ∀ q, (s'.thread q).call = (s.thread q).call

theorem SameTargets.kept (h : SameTargets s s') : Kept s s' := by
  refine ⟨h.nthreads,h.numTasks,h.fnData,fun q => ?_,fun q => ?_⟩
  · unfold State.cur
    rw [h.thread]
  · rw [h.thread]

theorem Kept.trans {s₁ s₂ : State} (h1 : Kept s s₁) (h2 : Kept s₁ s₂) : Kept s s₂ :=
  ⟨h2.nthreads.trans h1.nthreads,h2.numTasks.trans h1.numTasks,fun u => (h2.fnData u).trans (h1.fnData u),
    fun q => (h2.cur q).trans (h1.cur q),fun q => (h2.call q).trans (h1.call q)⟩

theorem setLast_kept (s : State) (p : ℕ) (o : Option ℕ) : Kept s (s.setLast p o) := by
  refine ⟨rfl,rfl,fun _ => rfl,fun q => ?_,fun q => ?_⟩ <;> by_cases hq : q = p
  · subst hq
    unfold State.cur State.setLast
    rw [setThread_self]
  · unfold State.cur State.setLast
    rw [setThread_other hq]
  · subst hq
    unfold State.setLast
    rw [setThread_self]
  · unfold State.setLast
    rw [setThread_other hq]

theorem insertTied_kept (h : Inv s) (hp : p < s.nthreads) (hcall : (s.thread p).call = none) (u : ℕ) :
    Kept s (s.insertTied p u t) := by
  unfold State.insertTied State.gompInsertTaskInTiedList
  split
  · split
    · exact setLast_kept ..
    · split
      · exact (linkTied_same h hp hcall).kept.trans (setLast_kept ..)
      · exact (SameTargets.refl s).kept
  · exact (SameTargets.refl s).kept

theorem insertTied_inv (h : Inv s) (hp : p < s.nthreads) (hcall : (s.thread p).call = none) (u : ℕ)
    (hfn : (s.task t).fnData = none) (ht : t < s.numTasks) : Inv (s.insertTied p u t) := by
  have hgood : ∀ l, some t = some l → Good s l := by
    rintro l hl
    obtain rfl := Option.some.inj hl
    exact ⟨ht,fun x hx => by rw [hfn] at hx; cases hx⟩
  unfold State.insertTied State.gompInsertTaskInTiedList
  split
  · split
    · exact h.setLast hp hcall hgood
    · split
      · have hs := linkTied_same h hp hcall (t := t)
        refine (h.same hs).setLast (hs.nthreads ▸ hp) ((hs.kept.call p).trans hcall) fun l hl => ?_
        exact hs.good.mpr (hgood l hl)
      · exact h
  · exact h

theorem unlinkTied_same (h : Inv s) : SameTargets s (s.unlinkTied t) := by
  unfold State.unlinkTied
  dsimp only
  cases (s.task t).nextTiedTask with
  | none =>
    split
    · exact .refl s
    · exact setNext_same _ _ _
  | some n =>
    have h1 : SameTargets s (s.modify n fun x => { x with previousTiedTask := (s.task t).previousTiedTask }) :=
      setPrevious_same fun l hl => h.previous t l hl
    split
    · exact h1
    · exact h1.trans (setNext_same _ _ _)

theorem removeTied_spec (h : Inv s) (hp : p < s.nthreads) (hcall : (s.thread p).call = none) {u : ℕ} :
    Inv (s.removeTied p u t) ∧ Kept s (s.removeTied p u t) := by
  unfold State.removeTied State.gompRemoveTaskFromTiedList
  split
  · split
    · exact ⟨h.setLast hp hcall nofun,setLast_kept ..⟩
    · split
      · split
        · exact ⟨h.setLast hp hcall nofun,setLast_kept ..⟩
        · next l hl =>
          refine ⟨(h.setLast hp hcall fun k hk => ?_).same (setNext_same _ l none),
            (setLast_kept ..).trans (setNext_same _ l none).kept⟩
          obtain rfl := Option.some.inj hk
          exact h.previous t _ hl
      · exact ⟨h.same (unlinkTied_same h),(unlinkTied_same h).kept⟩
  · exact ⟨h,(SameTargets.refl s).kept⟩

theorem gompTaskRunPre_same (hfn : (s.task t).fnData = none) : SameTargets s (s.gompTaskRunPre t) := by
  refine modify_same rfl ⟨rfl,rfl⟩ (.inr ⟨hfn,?_⟩) .inl (fun _ => .inl) ⟨rfl,rfl⟩
  dsimp only
  split <;> decide

theorem setSuspended_same (hfn : (s.task t).fnData = none) : SameTargets s (s.modify t (State.setSuspended p)) := by
  have hcases : State.setSuspended p (s.task t) = s.task t ∨
      ∃ k o, k ≠ .asyncRunning ∧ State.setSuspended p (s.task t) = { s.task t with kind := k, suspendingThread := o } := by
    unfold State.setSuspended
    split
    · exact .inl rfl
    · split
      · exact .inr ⟨.tiedSuspended,some p,by decide,rfl⟩
      · exact .inr ⟨.waiting,some p,by decide,rfl⟩
  rcases hcases with hc | ⟨k,o,hk,hc⟩
  · apply modify_same <;> rw [hc]
    · exact ⟨rfl,rfl⟩
    · exact .inl rfl
    · exact .inl
    · exact fun _ => .inl
    · exact ⟨rfl,rfl⟩
  · apply modify_same <;> rw [hc]
    · exact ⟨rfl,rfl⟩
    · exact .inr ⟨hfn,hk⟩
    · exact .inl
    · exact fun _ => .inl
    · exact ⟨rfl,rfl⟩

theorem contextRestore_inv (h : Inv s) (hp : p < s.nthreads) (hcall : (s.thread p).call = none) (hfn : (s.task t).fnData = none)
    (ht : t < s.numTasks) : Inv (s.contextRestore p t) := by
  have hs : SameTargets s (s.modify t fun x => { x with hasRun := true }) :=
    modify_same rfl ⟨rfl,rfl⟩ (.inl rfl) (fun _ => .inr hfn) (fun _ => .inl) ⟨rfl,rfl⟩
  exact (h.same hs).setTask hp hcall ((hs.fnData t).trans hfn) ht

theorem gompSuspendTaskForSuccessor_inv (h : Inv s) (hp : p < s.nthreads) (hcall : (s.thread p).call = none)
    (hfn : (s.task t).fnData = none) (ht : t < s.numTasks) : Inv (s.gompSuspendTaskForSuccessor p t) := by
  have h1 := insertTied_inv h hp hcall (s.cur p) hfn ht
  have hk : Kept s (s.insertTied p (s.cur p) t) := insertTied_kept h hp hcall (s.cur p)
  have hs : SameTargets (s.insertTied p (s.cur p) t) _ :=
    setSuspended_same (p := p) (t := s.cur p) ((hk.fnData _).trans (h.plain hp hcall))
  have hk2 := hk.trans hs.kept
  exact contextRestore_inv (h1.same hs) (hk2.nthreads ▸ hp) ((hk2.call p).trans hcall) ((hk2.fnData t).trans hfn) (hk2.numTasks ▸ ht)

theorem switchTo_inv (h : Inv s) (hp : p < s.nthreads) (hcall : (s.thread p).call = none)
    (hfn : (s.task t).fnData = none) (ht : t < s.numTasks) : Inv (s.switchTo p t) :=
  gompSuspendTaskForSuccessor_inv (h.same (gompTaskRunPre_same hfn)) hp hcall
    (((gompTaskRunPre_same hfn).fnData t).trans hfn) ht

/-- The end of a task changes only the tasks that it has created. -/
theorem terminate_same (s : State) (t : ℕ) : SameTargets s (s.terminate t) := by
  have h1 : SameTargets s (s.gompClearParent t) := by
    unfold State.gompClearParent
    refine ⟨rfl,rfl,rfl,fun u => ?_,fun u => ?_,fun u => .inl ?_,fun u => ?_,fun u l => ?_,fun u q h1 h2 => ?_⟩
    · dsimp only
      split <;> rfl
    · dsimp only
      split <;> exact ⟨rfl,rfl⟩
    · dsimp only
      split <;> rfl
    · dsimp only
      split <;> exact .inl
    · dsimp only
      split <;> exact .inl
    · dsimp only at h1 h2
      split at h2
      · cases h2
      · next hc =>
        rw [if_neg hc] at h1
        exact ⟨h1,h2⟩
  exact h1.trans (modify_same rfl ⟨rfl,rfl⟩ (.inl rfl) .inl (fun _ => .inl) ⟨rfl,rfl⟩)

theorem finish_inv (h : Inv s) (hp : p < s.nthreads) (hcall : (s.thread p).call = none) {r : ℕ}
    (hfn : (s.task r).fnData = none) (hr : r < s.numTasks) : Inv (s.finish p r) := by
  obtain ⟨h1,hk⟩ := removeTied_spec h hp hcall (u := r) (t := s.cur p)
  have h2 : Inv ((s.removeTied p r (s.cur p)).setThread p fun x => { x with task := r }) :=
    h1.setTask (hk.nthreads ▸ hp) ((hk.call p).trans hcall) ((hk.fnData r).trans hfn) (hk.numTasks ▸ hr)
  unfold State.finish
  dsimp only
  split
  · exact (h2.same (gompTaskRunPre_same ((hk.fnData r).trans hfn))).same (terminate_same ..)
  · exact h2.same (terminate_same ..)

end Switches

section Creation

theorem addTask_self {z : Task} : (s.addTask z).task s.numTasks = z := by simp [State.addTask]

theorem addTask_other {u : ℕ} (h : u ≠ s.numTasks) : (s.addTask z).task u = s.task u := by simp [State.addTask, h]

theorem addTask_good {l : ℕ} (h : Good s l) : Good (s.addTask z) l := by
  refine ⟨Nat.lt_succ_of_lt h.1,fun x hx => h.2 x ?_⟩
  rwa [addTask_other (Nat.ne_of_lt h.1)] at hx

theorem ThreadOk.addTask {w : Thread} (h : ThreadOk s w) : ThreadOk (s.addTask z) w where
  last l hl := (h.last l hl).imp id addTask_good
  call c hc := by
    obtain ⟨h1,h2,h3,h4,h5,h6⟩ := h.call c hc
    refine ⟨?_,?_,Nat.lt_succ_of_lt h3,h4,?_,Nat.lt_succ_of_lt h6⟩
    · rw [addTask_other (Nat.ne_of_lt h3)]
      exact h1
    · rw [addTask_other (Nat.ne_of_lt h3)]
      exact h2
    · rw [addTask_other (Nat.ne_of_lt h6)]
      exact h5
  plain hn := by
    rw [addTask_other (Nat.ne_of_lt h.bound)]
    exact h.plain hn
  bound := Nat.lt_succ_of_lt h.bound

/-- A new task is in no list yet. -/
theorem addTask_inv (h : Inv s) (hran : z.hasRun = false) (hprev : z.previousTiedTask = none)
    (hkind : z.kind ≠ .asyncRunning) (htarget : ∀ x, z.fnData = some x → TargetOk z x)
    (hstack : ∀ q, z.onStack = true → z.parent = some q → (s.task q).fnData = none ∧ q < s.numTasks) :
    Inv (s.addTask z) where
  ran u hu := by
    by_cases hn : u = s.numTasks
    · rw [hn,addTask_self,hran] at hu
      cases hu
    · rw [addTask_other hn] at hu ⊢
      exact h.ran u hu
  target u x hx := by
    by_cases hn : u = s.numTasks
    · rw [hn,addTask_self] at hx ⊢
      exact htarget x hx
    · rw [addTask_other hn] at hx ⊢
      exact h.target u x hx
  async u hu := by
    by_cases hn : u = s.numTasks
    · rw [hn,addTask_self] at hu
      exact absurd hu hkind
    · rw [addTask_other hn] at hu ⊢
      exact h.async u hu
  previous u l hl := by
    by_cases hn : u = s.numTasks
    · rw [hn,addTask_self,hprev] at hl
      cases hl
    · rw [addTask_other hn] at hl
      exact addTask_good (h.previous u l hl)
  stack u q hu hq := by
    have hgo : (s.task q).fnData = none ∧ q < s.numTasks → ((s.addTask z).task q).fnData = none ∧ q < s.numTasks + 1 := by
      rintro ⟨h1,h2⟩
      rw [addTask_other (Nat.ne_of_lt h2)]
      exact ⟨h1,Nat.lt_succ_of_lt h2⟩
    by_cases hn : u = s.numTasks
    · rw [hn,addTask_self] at hu hq
      exact hgo (hstack q hu hq)
    · rw [addTask_other hn] at hu hq
      exact hgo (h.stack u q hu hq)
  implicit q hq := by
    obtain ⟨h1,h2⟩ := h.implicit q hq
    rw [addTask_other (Nat.ne_of_lt h2)]
    exact ⟨h1,Nat.lt_succ_of_lt h2⟩
  thread q hq := (h.thread q hq).addTask
  unique := h.unique

/-- A new task that is not a target task and not on a stack. -/
theorem addPlain_inv (h : Inv s) (hran : z.hasRun = false) (hprev : z.previousTiedTask = none)
    (hkind : z.kind ≠ .asyncRunning) (hfn : z.fnData = none) (hstack : z.onStack = false) : Inv (s.addTask z) := by
  refine addTask_inv h hran hprev hkind (fun x hx => ?_) fun q hq => ?_
  · rw [hfn] at hx
    cases hx
  · rw [hstack] at hq
    cases hq

theorem addPlain_suspend (h : Inv s) (hp : p < s.nthreads) (hcall : (s.thread p).call = none) (hran : z.hasRun = false)
    (hprev : z.previousTiedTask = none) (hkind : z.kind ≠ .asyncRunning) (hfn : z.fnData = none) (hstack : z.onStack = false) :
    Inv ((s.addTask z).gompSuspendTaskForSuccessor p s.numTasks) :=
  gompSuspendTaskForSuccessor_inv (addPlain_inv h hran hprev hkind hfn hstack) hp hcall (by rw [addTask_self]; exact hfn)
    (Nat.lt_succ_self _)

theorem gompSuspendImplicitForUndeferred_inv (h : Inv s) (hp : p < s.nthreads) (hcall : (s.thread p).call = none)
    (priority : ℕ) (unmet : Bool) : Inv (s.gompSuspendImplicitForUndeferred p priority unmet) := by
  unfold State.gompSuspendImplicitForUndeferred
  dsimp only
  split
  · exact addPlain_inv h rfl rfl nofun rfl rfl
  · exact addPlain_suspend h hp hcall rfl rfl nofun rfl rfl

theorem gompTaskUndeferred_inv (h : Inv s) (hp : p < s.nthreads) (hcall : (s.thread p).call = none)
    (type : Team.TaskType) (priority : ℕ) : Inv (s.gompTaskUndeferred p type priority) := by
  unfold State.gompTaskUndeferred
  dsimp only
  have h1 : Inv (s.addTask { s.newTask (s.cur p) (if (s.task (s.cur p)).type = .tied then .tied else type) .undeferred
      priority with undeferred := true, onStack := true }) := by
    refine addTask_inv h rfl rfl nofun nofun fun q _ hq => ?_
    obtain rfl : s.cur p = q := Option.some.inj hq
    exact ⟨h.plain hp hcall,(h.thread p hp).bound⟩
  have h2 := insertTied_inv h1 hp hcall (s.cur p) (by rw [addTask_self]; rfl) (Nat.lt_succ_self s.numTasks)
  have hk := insertTied_kept h1 hp hcall (s.cur p) (t := s.numTasks)
  refine h2.setTask (hk.nthreads ▸ hp) ((hk.call p).trans hcall) ?_ ?_
  · rw [hk.fnData,addTask_self]
    rfl
  · rw [hk.numTasks]
    exact Nat.lt_succ_self _

theorem gompEndTask_inv (h : Inv s) (hp : p < s.nthreads) (hcall : (s.thread p).call = none) {parent : ℕ}
    (hparent : (s.task (s.cur p)).parent = some parent) (hstack : (s.task (s.cur p)).onStack = true) :
    Inv (s.gompEndTask p parent) := by
  obtain ⟨hfn,hbound⟩ := h.stack _ parent hstack hparent
  have hs := terminate_same s (s.cur p)
  have h1 : Inv ((s.terminate (s.cur p)).setThread p fun x => { x with task := parent }) :=
    (h.same hs).setTask hp hcall ((hs.fnData parent).trans hfn) hbound
  refine (removeTied_spec h1 hp ?_).1
  rw [setThread_self]
  exact hcall

end Creation

section Targets

/-- A change of a target task; one that has finished on its device stays so. -/
theorem Inv.setTarget (h : Inv s) {f : Task → Task} (hx : (s.task t).fnData = some x)
    (hy : (f (s.task t)).fnData = some y) (hfinished : x.state = .finished → y.state = .finished)
    (hok : TargetOk (f (s.task t)) y) (hran : (f (s.task t)).hasRun = (s.task t).hasRun)
    (hprev : (f (s.task t)).previousTiedTask = (s.task t).previousTiedTask)
    (hstack : (f (s.task t)).onStack = (s.task t).onStack ∧ (f (s.task t)).parent = (s.task t).parent)
    (hcall : ∀ q < s.nthreads, ∀ c, (s.thread q).call = some c → c.task = t → (f (s.task t)).kind = .tied ∧
      (c.async = true → y.state = .readyToRun ∨ y.state = .finished) ∧ (c.async = false → y.state ≠ .readyToRun)) :
    Inv (s.modify t f) := by
  have hgood : ∀ {l}, Good s l → Good (s.modify t f) l := by
    intro l hl
    refine ⟨hl.1,fun w hw => ?_⟩
    by_cases hlt : l = t
    · rw [hlt,modify_self,hy] at hw
      obtain rfl := Option.some.inj hw
      exact hfinished (hl.2 x (hlt ▸ hx))
    · rw [modify_other hlt] at hw
      exact hl.2 w hw
  have hnone : ∀ u, (s.task u).fnData = none → ((s.modify t f).task u).fnData = none := by
    intro u hu
    have hut : u ≠ t := by
      rintro rfl
      rw [hx] at hu
      cases hu
    rw [modify_other hut]
    exact hu
  constructor
  case ran =>
    intro u hu
    by_cases hut : u = t
    · rw [hut,modify_self,hran] at hu
      have := h.ran t hu
      rw [hx] at this
      cases this
    · rw [modify_other hut] at hu ⊢
      exact h.ran u hu
  case target =>
    intro u w hw
    by_cases hut : u = t
    · rw [hut,modify_self] at hw ⊢
      obtain rfl := Option.some.inj (hy.symm.trans hw)
      exact hok
    · rw [modify_other hut] at hw ⊢
      exact h.target u w hw
  case async =>
    intro u hu
    by_cases hut : u = t
    · rw [hut,modify_self,hy]
      simp
    · rw [modify_other hut] at hu ⊢
      exact h.async u hu
  case previous =>
    intro u l hl
    by_cases hut : u = t
    · rw [hut,modify_self,hprev] at hl
      exact hgood (h.previous t l hl)
    · rw [modify_other hut] at hl
      exact hgood (h.previous u l hl)
  case stack =>
    intro u q hu hq
    have hold : (s.task u).onStack = true ∧ (s.task u).parent = some q := by
      by_cases hut : u = t
      · rw [hut,modify_self] at hu hq
        rw [hut,← hstack.1,← hstack.2]
        exact ⟨hu,hq⟩
      · rw [modify_other hut] at hu hq
        exact ⟨hu,hq⟩
    obtain ⟨h1,h2⟩ := h.stack u q hold.1 hold.2
    exact ⟨hnone q h1,h2⟩
  case implicit => exact fun q hq => ⟨hnone q (h.implicit q hq).1,(h.implicit q hq).2⟩
  case thread =>
    intro q hq
    have hq' := h.thread q hq
    refine ⟨fun l hl => (hq'.last l hl).imp id hgood,fun c hc => ?_,fun hn => hnone _ (hq'.plain hn),hq'.bound⟩
    obtain ⟨⟨w,hw,hstate⟩,hkind,hbound,hlast,hcaller,hcallerBound⟩ := hq'.call c hc
    by_cases hut : c.task = t
    · obtain ⟨hk,hst⟩ := hcall q hq c hc hut
      refine ⟨⟨y,?_,hst⟩,?_,hbound,hlast,hnone _ hcaller,hcallerBound⟩
      · rw [hut,modify_self]
        exact hy
      · rw [hut,modify_self]
        exact hk
    · refine ⟨⟨w,?_,hstate⟩,?_,hbound,hlast,hnone _ hcaller,hcallerBound⟩
      · rw [modify_other hut]
        exact hw
      · rw [modify_other hut]
        exact hkind
  case unique => exact h.unique

/-- A task that is being run by no thread. -/
def Alone (s : State) (t : ℕ) : Prop := ∀ q < s.nthreads, ∀ c, (s.thread q).call = some c → c.task ≠ t

theorem Inv.alone_of_kind (h : Inv s) (hk : (s.task t).kind ≠ .tied) : Alone s t := by
  rintro q hq c hc rfl
  exact hk ((h.thread q hq).call c hc).kind

theorem Inv.alone_new (h : Inv s) : Alone s s.numTasks := fun q hq c hc =>
  Nat.ne_of_lt ((h.thread q hq).call c hc).bound

/-- gomp_target_task_fn goes on with what it has found. -/
theorem gompTargetTaskFn_spec (hok : TargetOk z x) (hk : z.kind = .tied) (hf : x.inFlight = false) :
    TargetOk { z with fnData := some (State.gompTargetTaskFn x).1 } (State.gompTargetTaskFn x).1 ∧
      (x.state = .finished → (State.gompTargetTaskFn x).1.state = .finished) ∧
      ((State.gompTargetTaskFn x).2 = true → (State.gompTargetTaskFn x).1.state = .readyToRun) ∧
      ((State.gompTargetTaskFn x).2 = false → (State.gompTargetTaskFn x).1.state ≠ .readyToRun) := by
  have hready : x.state ≠ .readyToRun := fun h => by
    have := hok.ready h
    rw [hf] at this
    cases this
  have hsame : TargetOk { z with fnData := some x } x := ⟨hok.type,hok.kind,hok.flight,hok.ready,hok.launched⟩
  unfold State.gompTargetTaskFn
  split
  · next hfn =>
    split
    · next hdev =>
      have hne : x.state ≠ .finished := by
        intro h
        obtain ⟨_,h2,h3⟩ := hok.launched (.inr h)
        rw [h2,h3] at hdev
        cases hdev
      refine ⟨⟨hok.type,.inr (.inl hk),fun h => ?_,nofun,fun h => ?_⟩,fun h => absurd h hne,nofun,fun _ => nofun⟩
      · rw [hf] at h
        cases h
      · rcases h with h | h
        · rw [hf] at h
          cases h
        · cases h
    · next hdev =>
      have hrun : x.device = true ∧ x.runnable = true := by
        cases hd : x.device <;> cases hr : x.runnable <;> simp_all
      split
      · next hfin => exact ⟨hsame,fun _ => hfin,nofun,fun _ => hready⟩
      · next hfin =>
        exact ⟨⟨hok.type,.inr (.inl hk),fun _ => .inl ⟨rfl,hk⟩,fun _ => rfl,fun _ => ⟨hfn,hrun.1,hrun.2⟩⟩,
          fun h => absurd h hfin,fun _ => rfl,nofun⟩
  · exact ⟨hsame,id,nofun,fun _ => hready⟩

theorem setLast_setThread {o : Option ℕ} {f : Task → Task} {g : Thread → Thread} :
    ((s.setLast p o).modify t f).setThread p g = (s.modify t f).setThread p fun w => g { w with lastTiedTask := o } := by
  simp [State.setLast, State.setThread, State.modify]

/-- gomp_target_task_fn is called for a task that the list takes up. -/
theorem callTargetTaskFn_inv (h : Inv s) (hp : p < s.nthreads) (hcall : (s.thread p).call = none) {caller : ℕ}
    (hx : (s.task t).fnData = some x) (hk : (s.task t).kind = .tied) (hf : x.inFlight = false) (ht : t < s.numTasks)
    (halone : Alone s t) (hcaller : (s.task caller).fnData = none) (hbound : caller < s.numTasks)
    (hinsert : (s.task caller).kind = .implicit ∨ (s.task t).previousTiedTask = none ∧ (s.task t).nextTiedTask = none)
    (atBarrier : Bool) : Inv (s.callTargetTaskFn p t caller x atBarrier) := by
  have hok := h.target t x hx
  -- the state in which the thread enters the call, but for the thread itself
  have hgo : ∀ s₁, SameTargets s s₁ → Inv s₁ →
      Inv ((s₁.modify t fun z => { z with fnData := some (State.gompTargetTaskFn x).1 }).setThread p fun w =>
        { w with lastTiedTask := some t, task := t, call := some ⟨t,caller,atBarrier,(State.gompTargetTaskFn x).2⟩ }) := by
    intro s₁ hs h1
    have hx1 := (hs.fnData t).trans hx
    have hk1 := (hs.kind_target hx).trans hk
    obtain ⟨hok',hfin,htrue,hfalse⟩ := gompTargetTaskFn_spec (h1.target t x hx1) hk1 hf
    have h2 : Inv (s₁.modify t fun z => { z with fnData := some (State.gompTargetTaskFn x).1 }) := by
      refine h1.setTarget hx1 rfl hfin hok' rfl rfl ⟨rfl,rfl⟩ fun q hq c hc hct => ?_
      rw [hs.nthreads] at hq
      rw [hs.thread] at hc
      exact absurd hct (halone q hq c hc)
    have hne : caller ≠ t := by
      rintro rfl
      rw [hx] at hcaller
      cases hcaller
    refine h2.setThread ⟨fun l hl => .inl ⟨_,rfl,Option.some.inj hl⟩,?_,nofun,hs.numTasks ▸ ht⟩ ?_
    · rintro c hc
      obtain rfl := Option.some.inj hc
      refine ⟨⟨_,by rw [modify_self],fun h => .inl (htrue h),hfalse⟩,?_,hs.numTasks ▸ ht,rfl,?_,hs.numTasks ▸ hbound⟩
      · rw [modify_self]
        exact hk1
      · rw [modify_other hne]
        exact (hs.fnData caller).trans hcaller
    · rintro c hc q hq _ d hd
      obtain rfl := Option.some.inj hc
      refine halone q (hs.nthreads ▸ hq) d ?_
      rw [← hs.thread]
      exact hd
  unfold State.callTargetTaskFn State.insertTied State.gompInsertTaskInTiedList
  dsimp only
  rw [if_pos hok.type.1]
  split
  · rw [setLast_setThread]
    exact hgo s (.refl s) h
  · next himp =>
    rw [if_pos (hinsert.resolve_left himp),setLast_setThread]
    exact hgo _ (linkTied_same h hp hcall) (h.same (linkTied_same h hp hcall))

theorem gompCreateTargetTask_inv (h : Inv s) (hp : p < s.nthreads) (hcall : (s.thread p).call = none)
    (hstate : x.state = .data ∨ x.state = .beforeMap) (hf : x.inFlight = false) (unmet : Bool) :
    Inv (s.gompCreateTargetTask p x unmet) := by
  have hlaunched : x.inFlight = true ∨ x.state = .finished → x.fn = true ∧ x.device = true ∧ x.runnable = true := by
    rintro (h | h)
    · rw [hf] at h
      cases h
    · rw [h] at hstate
      rcases hstate with h | h <;> cases h
  have hready : x.state = .readyToRun → x.inFlight = true := by
    intro h
    rw [h] at hstate
    rcases hstate with h | h <;> cases h
  have hflight : ∀ {P : Prop}, x.inFlight = true → P := by
    intro P h
    rw [hf] at h
    cases h
  unfold State.gompCreateTargetTask
  dsimp only
  split
  · refine addTask_inv h rfl rfl nofun (fun y hy => ?_) nofun
    obtain rfl := Option.some.inj hy
    exact ⟨⟨rfl,rfl⟩,.inl rfl,hflight,hready,hlaunched⟩
  · split
    · exact h
    · split
      · have h1 : Inv (s.addTask { s.newTask (s.cur p) .tied .waiting 0 with kind := .tied, fnData := some x }) := by
          refine addTask_inv h rfl rfl nofun (fun y hy => ?_) nofun
          obtain rfl := Option.some.inj hy
          exact ⟨⟨rfl,rfl⟩,.inr (.inl rfl),hflight,hready,hlaunched⟩
        have hb := (h.thread p hp).bound
        refine callTargetTaskFn_inv h1 hp hcall ?_ ?_ hf (Nat.lt_succ_self _) h.alone_new ?_ (Nat.lt_succ_of_lt hb) (.inr ?_)
          false
        · rw [addTask_self]
        · rw [addTask_self]
        · rw [addTask_other (Nat.ne_of_lt hb)]
          exact h.plain hp hcall
        · rw [addTask_self]
          exact ⟨rfl,rfl⟩
      · refine addTask_inv h rfl rfl nofun (fun y hy => ?_) nofun
        obtain rfl := Option.some.inj hy
        exact ⟨⟨rfl,rfl⟩,.inl rfl,hflight,hready,hlaunched⟩

end Targets

section Returns

/-- The task is left to its device, or has finished there already. -/
theorem leaveAsync_inv (h : Inv s) (hx : (s.task t).fnData = some x) (halone : Alone s t) : Inv (s.leaveAsync t x) := by
  have hok := h.target t x hx
  have hcalls : ∀ {P : ℕ → TargetCall → Prop}, ∀ q < s.nthreads, ∀ c, (s.thread q).call = some c → c.task = t → P q c :=
    fun q hq c hc hct => absurd hct (halone q hq c hc)
  have htwice : ∀ f g : Task → Task, (s.modify t f).modify t g = s.modify t (g ∘ f) := by
    intro f g
    simp [State.modify]
  unfold State.leaveAsync State.gompTargetTaskCompletion
  dsimp only
  split
  · next hfin =>
    rw [htwice]
    refine h.setTarget hx hx (fun _ => hfin) ⟨hok.type,.inl rfl,fun hf => ?_,hok.ready,hok.launched⟩ rfl rfl ⟨rfl,rfl⟩ hcalls
    rcases hok.flight hf with ⟨h1,_⟩ | ⟨h1,_⟩
    · rw [hfin] at h1
      cases h1
    · rw [hfin] at h1
      cases h1
  · next hfin =>
    rw [htwice]
    refine h.setTarget hx rfl (fun hf => absurd hf hfin) ⟨hok.type,.inr (.inr ⟨rfl,rfl⟩),fun _ => .inr ⟨rfl,rfl⟩,nofun,?_⟩ rfl
      rfl ⟨rfl,rfl⟩ hcalls
    rintro (hf | hf)
    · exact hok.launched (.inl hf)
    · cases hf

theorem leaveAsync_setThread {g : Thread → Thread} : (s.leaveAsync t x).setThread p g = (s.setThread p g).leaveAsync t x := by
  unfold State.leaveAsync
  dsimp only
  split <;> rfl

/-- gomp_target_task_fn has returned; the list of the thread is what is left of it. -/
theorem Inv.endCall (h : Inv s) (hp : p < s.nthreads) {c : TargetCall} (hc : (s.thread p).call = some c) {o : Option ℕ}
    (ho : ∀ l, o = some l → Good s l) :
    Inv (s.setThread p fun w => { w with lastTiedTask := o, task := c.caller, call := none }) := by
  have hcall := (h.thread p hp).call c hc
  exact h.setThread ⟨fun l hl => .inr (ho l hl),nofun,fun _ => hcall.caller,hcall.callerBound⟩ nofun

theorem Inv.endCall_alone (h : Inv s) (hp : p < s.nthreads) {c : TargetCall} (hc : (s.thread p).call = some c)
    {f : Thread → Thread} (hf : (f (s.thread p)).call = none) : Alone (s.setThread p f) c.task := by
  intro q hq d hd hdt
  by_cases hqp : q = p
  · subst hqp
    rw [setThread_self,hf] at hd
    cases hd
  · rw [setThread_other hqp] at hd
    exact hqp (h.unique q hq p hp d c hd hc hdt)

/-- The caller takes the target task out of the list, whose last one it is. -/
theorem removeTied_target (h : Inv s) (hp : p < s.nthreads) {c : TargetCall} (hc : (s.thread p).call = some c)
    (g : Thread → Thread) : ∃ o, (∀ l, o = some l → Good s l) ∧
      SameTargets (s.setThread p fun w => g { w with lastTiedTask := o }) ((s.removeTied p c.caller c.task).setThread p g) := by
  have hcall := (h.thread p hp).call c hc
  obtain ⟨x,hx,_⟩ := hcall.target
  have hset : ∀ o, (s.setLast p o).setThread p g = s.setThread p fun w => g { w with lastTiedTask := o } := by
    intro o
    simp [State.setLast, State.setThread]
  unfold State.removeTied State.gompRemoveTaskFromTiedList
  rw [if_pos (h.target _ x hx).type.1]
  split
  · exact ⟨none,nofun,hset none ▸ .refl _⟩
  · rw [if_pos hcall.last]
    split
    · exact ⟨none,nofun,hset none ▸ .refl _⟩
    · next l hl =>
      refine ⟨some l,fun k hk => ?_,?_⟩
      · obtain rfl := Option.some.inj hk
        exact h.previous _ _ hl
      · rw [← hset]
        exact setNext_same ((s.setLast p (some l)).setThread p g) l none

/-- The return from gomp_target_task_fn, but for a task that gomp_barrier_handle_tasks leaves running. -/
theorem endTarget_inv (h : Inv s) (hp : p < s.nthreads) {c : TargetCall} (hc : (s.thread p).call = some c)
    (hx : (s.task c.task).fnData = some x) (hsafe : c.atBarrier = true → x.state ≠ .readyToRun) : Inv (s.endTarget p c x) := by
  have hcall := (h.thread p hp).call c hc
  obtain ⟨o,ho,hs⟩ := removeTied_target h hp hc fun w => { w with task := c.caller, call := none }
  have hend := h.endCall hp hc ho
  unfold State.endTarget
  dsimp only
  split
  · rw [leaveAsync_setThread]
    refine leaveAsync_inv (hend.same hs) ((hs.fnData _).trans hx) fun q hq d hd => ?_
    rw [hs.thread] at hd
    exact h.endCall_alone hp hc rfl q (hs.nthreads ▸ hq) d hd
  · next hb =>
    split
    · next ha =>
      obtain ⟨y,hy,htrue,_⟩ := hcall.target
      obtain rfl := Option.some.inj (hx.symm.trans hy)
      have hfin : x.state = .finished := (htrue ha).resolve_left (hsafe (by simpa using hb))
      rw [leaveAsync_setThread]
      have hlast : (s.setThread p fun w => { w with task := c.caller, call := none }) =
          s.setThread p fun w => { w with lastTiedTask := some c.task, task := c.caller, call := none } := by
        unfold State.setThread
        rw [← hcall.last]
      rw [hlast]
      refine leaveAsync_inv (h.endCall hp hc fun l hl => ?_) hx (h.endCall_alone hp hc rfl)
      obtain rfl := Option.some.inj hl
      refine ⟨hcall.bound,fun y hy => ?_⟩
      obtain rfl := Option.some.inj (hx.symm.trans hy)
      exact hfin
    · exact (hend.same hs).same (terminate_same _ c.task)

theorem pluginCompletion_inv (h : Inv s) (hx : (s.task t).fnData = some x) (hf : x.inFlight = true) :
    Inv (s.pluginCompletion t x) := by
  have hok := h.target t x hx
  have hlaunched := hok.launched (.inl hf)
  have htwice : ∀ f g : Task → Task, (s.modify t f).modify t g = s.modify t (g ∘ f) := by
    intro f g
    simp [State.modify]
  unfold State.pluginCompletion State.gompTargetTaskCompletion
  dsimp only
  rcases hok.flight hf with ⟨hstate,hk⟩ | ⟨hstate,hk⟩
  · rw [if_pos hstate]
    refine h.setTarget hx rfl (fun _ => rfl) ⟨hok.type,.inr (.inl hk),nofun,nofun,fun _ => hlaunched⟩ rfl rfl ⟨rfl,rfl⟩
      fun q hq c hc hct => ⟨hk,fun _ => .inr rfl,fun _ => nofun⟩
  · rw [if_neg (by rw [hstate]; decide),htwice]
    refine h.setTarget hx rfl (fun _ => rfl) ⟨hok.type,.inl rfl,nofun,nofun,fun _ => hlaunched⟩ rfl rfl ⟨rfl,rfl⟩
      fun q hq c hc hct => ?_
    have hkind := ((h.thread q hq).call c hc).kind
    rw [hct,hk] at hkind
    cases hkind

/-- gomp_barrier_handle_tasks calls gomp_target_task_fn for a target task. -/
theorem barrierTask_inv (h : Inv s) (hp : p < s.nthreads) (hcall : (s.thread p).call = none) (ht : t < s.numTasks)
    (hready : (s.task t).kind = .waiting ∨ (s.task t).kind = .undeferred ∨ (s.task t).kind = .tiedSuspended)
    (himp : (s.task (s.cur p)).kind = .implicit) : Inv (s.barrierTask p t) := by
  have hplain := h.plain hp hcall
  unfold State.barrierTask
  split
  · next x hx =>
    have hok := h.target t x hx
    have hk := hok.kind_waiting hready
    have hf : x.inFlight = false := by
      cases hf : x.inFlight with
      | false => rfl
      | true =>
        rcases hok.flight hf with ⟨_,h2⟩ | ⟨_,h2⟩
        · rw [hk] at h2
          cases h2
        · rw [hk] at h2
          cases h2
    have halone : Alone s t := h.alone_of_kind (by rw [hk]; decide)
    have hpre : ((State.gompTaskRunPre s t).task t).kind = .tied := by
      unfold State.gompTaskRunPre
      rw [modify_self,hok.type.2]
      rfl
    have h1 : Inv (s.gompTaskRunPre t) := by
      refine h.setTarget hx hx id ⟨hok.type,.inr (.inl ?_),fun h => ?_,hok.ready,hok.launched⟩ rfl rfl ⟨rfl,rfl⟩
        fun q hq c hc hct => absurd hct (halone q hq c hc)
      · rw [hok.type.2]
        rfl
      · rw [hf] at h
        cases h
    have hne : s.cur p ≠ t := by
      intro he
      rw [he,hx] at hplain
      cases hplain
    have hother : (s.gompTaskRunPre t).task (s.cur p) = s.task (s.cur p) := by
      unfold State.gompTaskRunPre
      exact modify_other hne
    refine callTargetTaskFn_inv h1 hp hcall ?_ ?_ hf ht halone ?_ (h.thread p hp).bound (.inl ?_) true
    · unfold State.gompTaskRunPre
      rw [modify_self]
      exact hx
    · exact hpre
    · exact (congrArg Task.fnData hother).trans hplain
    · exact (congrArg Task.kind hother).trans himp
  · next hx =>
    have hs := gompTaskRunPre_same hx
    have h1 := insertTied_inv (h.same hs) hp hcall (s.cur p) ((hs.fnData t).trans hx) ht
    have hkept := insertTied_kept (h.same hs) hp hcall (s.cur p) (t := t)
    exact contextRestore_inv h1 (hkept.nthreads ▸ hp) ((hkept.call p).trans hcall)
      ((hkept.fnData t).trans ((hs.fnData t).trans hx)) (hkept.numTasks ▸ ht)

end Returns

section Steps

/-- Control has been transferred only to contexts of tasks with a function, and a task that has been left
running on its device is in the list of no thread. -/
def State.TargetsRight (s : State) : Prop :=
  (∀ t, (s.task t).hasRun = true → (s.task t).fn = true) ∧
    ∀ t, (s.task t).kind = .asyncRunning → ∀ p < s.nthreads, ¬s.InTiedList p t

/-- The steps that keep target tasks where they belong: the waits do not take one from their queues, and
the device has finished, or was not asked, when gomp_target_task_fn returns to
gomp_barrier_handle_tasks. -/
def TargetSafe (s : State) : Event → Prop
  | .take _ _ t => (s.task t).fn = true
  | .endTarget p => ∀ c ∈ (s.thread p).call, ∀ x ∈ (s.task c.task).fnData, c.atBarrier = true → x.state ≠ .readyToRun
  | _ => True

/-- A list leads only to its last task and to previous ones. -/
theorem inTiedList_cases (h : s.InTiedList p t) :
    (s.thread p).lastTiedTask = some t ∨ ∃ u, (s.task u).previousTiedTask = some t := by
  obtain ⟨l,hl,hreach⟩ := h
  cases hreach with
  | refl => exact .inl hl
  | tail _ hu => exact .inr ⟨_,hu⟩

theorem Inv.right (h : Inv s) : s.TargetsRight := by
  constructor
  · intro t ht
    unfold Task.fn
    rw [h.ran t ht]
    rfl
  · intro t ht p hp hin
    obtain ⟨x,hx⟩ := Option.ne_none_iff_exists'.mp (h.async t ht)
    have hok := h.target t x hx
    have hbad : ¬Good s t := by
      intro hgood
      have hfin := hgood.2 x hx
      rcases hok.kind with hk | hk | ⟨_,hrun⟩
      · rw [ht] at hk
        cases hk
      · rw [ht] at hk
        cases hk
      · rw [hfin] at hrun
        cases hrun
    rcases inTiedList_cases hin with hl | ⟨u,hu⟩
    · rcases (h.thread p hp).last t hl with ⟨c,hc,rfl⟩ | hgood
      · have hk := ((h.thread p hp).call c hc).kind
        rw [ht] at hk
        cases hk
      · exact hbad hgood
    · exact hbad (h.previous u t hu)

theorem pick_fn {b : Bool} {best o : Option ℕ} (hbest : ∀ t ∈ best, (s.task t).fn = true) :
    ∀ t ∈ s.pick b best o, (s.task t).fn = true := by
  intro t ht
  unfold State.pick at ht
  split at ht
  · exact hbest t ht
  · split at ht
    · next hc =>
      obtain rfl := Option.some.inj ht
      simp only [Bool.and_eq_true] at hc
      exact hc.1.1
    · exact hbest t ht

/-- get_higher_priority_task gives a task with a function, one of those it has been given. -/
theorem foldl_pick_spec {b : Bool} (next : List (Option ℕ)) :
    ∀ best : Option ℕ, (∀ t ∈ best, (s.task t).fn = true) → ∀ t ∈ next.foldl (s.pick b) best,
      (s.task t).fn = true ∧ (best = some t ∨ some t ∈ next) := by
  induction next with
  | nil => exact fun best hbest t ht => ⟨hbest t ht,.inl ht⟩
  | cons o next ih =>
    intro best hbest t ht
    obtain ⟨hfn,hmem⟩ := ih (s.pick b best o) (pick_fn hbest) t ht
    refine ⟨hfn,?_⟩
    rcases hmem with hpick | hmem
    · unfold State.pick at hpick
      split at hpick
      · exact .inl hpick
      · split at hpick
        · exact .inr (hpick ▸ List.mem_cons_self)
        · exact .inl hpick
    · exact .inr (List.mem_cons_of_mem o hmem)

theorem choose_spec {point : Point} {next : List (Option ℕ)} (h : s.choose point next = some t) :
    (s.task t).fn = true ∧ some t ∈ next := by
  have hgo : ∀ b, next.foldl (s.pick b) none = some t → (s.task t).fn = true ∧ some t ∈ next := by
    intro b hb
    obtain ⟨hfn,hmem⟩ := foldl_pick_spec next none nofun t hb
    exact ⟨hfn,hmem.resolve_left nofun⟩
  cases point with
  | interrupt b =>
    cases b with
    | true => exact hgo false h
    | false => exact hgo true h
  | _ => exact hgo false h

theorem isFree_iff : s.isFree p = true ↔ p < s.nthreads ∧ (s.thread p).call = none := by
  unfold State.isFree
  rw [Bool.and_eq_true,decide_eq_true_eq,decide_eq_true_eq]

theorem fn_iff : (s.task t).fn = true ↔ (s.task t).fnData = none := Option.isNone_iff_eq_none

/-- What the queues offer. -/
theorem isReady_spec (h : s.isReady t = true) :
    t < s.numTasks ∧ ((s.task t).kind = .waiting ∨ (s.task t).kind = .undeferred) := by
  unfold State.isReady at h
  simp only [Bool.and_eq_true, Bool.or_eq_true, decide_eq_true_eq] at h
  exact ⟨h.1.1.1,h.2.imp id fun h => h.1.1⟩

theorem isSuspendedOn_spec (h : s.isSuspendedOn p t = true) : t < s.numTasks ∧ (s.task t).kind = .tiedSuspended := by
  unfold State.isSuspendedOn at h
  simp only [Bool.and_eq_true, decide_eq_true_eq] at h
  exact ⟨h.1.1.1,h.1.2⟩

theorem runnable_bound {next : List (Option ℕ)} (h : s.areRunnable p next = true) (ht : some t ∈ next) : t < s.numTasks := by
  have := List.all_eq_true.mp h (some t) ht
  rcases Bool.or_eq_true _ _ |>.mp this with h | h
  · exact (isReady_spec h).1
  · exact (isSuspendedOn_spec h).1

/-- A suspended task is not a target task. -/
theorem Inv.suspended (h : Inv s) (hk : (s.task t).kind = .tiedSuspended) : (s.task t).fnData = none := by
  cases hx : (s.task t).fnData with
  | none => rfl
  | some x =>
    rcases (h.target t x hx).kind with h | h | ⟨h,_⟩ <;> rw [hk] at h <;> cases h

theorem markWait_same (s : State) (p : ℕ) (site : Site) : SameTargets s (s.markWait p site) := by
  unfold State.markWait
  split
  · exact modify_same rfl ⟨rfl,rfl⟩ (.inl rfl) .inl (fun _ => .inl) ⟨rfl,rfl⟩
  · exact .refl s

theorem awaited_same (s : State) (awaited : List ℕ) : SameTargets s { s with
    task := fun u => if u ∈ awaited then { s.task u with parentDependsOn := true } else s.task u } := by
  refine ⟨rfl,rfl,rfl,fun u => ?_,fun u => ?_,fun u => .inl ?_,fun u => ?_,fun u l => ?_,fun u q => ?_⟩ <;>
    dsimp only <;> split
  all_goals first | rfl | exact ⟨rfl,rfl⟩ | exact .inl | exact fun h1 h2 => ⟨h1,h2⟩

theorem modify_fnData {f : Task → Task} (hf : ∀ z, (f z).fnData = z.fnData) (u : ℕ) :
    ((s.modify t f).task u).fnData = (s.task u).fnData := by
  by_cases hu : u = t
  · rw [hu,modify_self]
    exact hf _
  · rw [modify_other hu]

theorem insertTied_fnData (u v : ℕ) : ((s.insertTied p u t).task v).fnData = (s.task v).fnData := by
  unfold State.insertTied State.gompInsertTaskInTiedList
  split
  · split
    · rfl
    · split
      · unfold State.linkTied
        split
        · rfl
        · split
          · rfl
          · rw [setLast_task,modify_fnData,modify_fnData]
            · exact fun _ => rfl
            · exact fun _ => rfl
      · rfl
  · rfl

theorem setSuspended_fnData (p : ℕ) (z : Task) : (State.setSuspended p z).fnData = z.fnData := by
  unfold State.setSuspended
  split
  · rfl
  · split <;> rfl

/-- A switch leaves a context that has run. -/
theorem switchTo_task : ((s.switchTo p t).task t).hasRun = true ∧
    ((s.switchTo p t).task t).fnData = (s.task t).fnData := by
  have htask : ∀ s₁ : State, (s₁.contextRestore p t).task t = { s₁.task t with hasRun := true } := by
    intro s₁
    unfold State.contextRestore
    rw [setThread_task,modify_self]
  unfold State.switchTo State.gompSuspendTaskForSuccessor
  dsimp only
  rw [htask]
  refine ⟨rfl,?_⟩
  calc _ = (((s.gompTaskRunPre t).insertTied p ((s.gompTaskRunPre t).cur p) t).task t).fnData :=
        modify_fnData (setSuspended_fnData p) t
    _ = ((s.gompTaskRunPre t).task t).fnData := insertTied_fnData ..
    _ = (s.task t).fnData := by
        unfold State.gompTaskRunPre
        rw [modify_self]

/-- gomp_barrier_handle_tasks leaves a task that runs on its device in the list. -/
theorem endTarget_not_right (h : Inv s) (hp : p < s.nthreads) {c : TargetCall} (hc : (s.thread p).call = some c)
    (hx : (s.task c.task).fnData = some x) (hb : c.atBarrier = true) (hstate : x.state = .readyToRun) :
    ¬(s.endTarget p c x).TargetsRight := by
  intro hright
  have hcall := (h.thread p hp).call c hc
  obtain ⟨y,hy,_,hfalse⟩ := hcall.target
  obtain rfl := Option.some.inj (hx.symm.trans hy)
  have ha : c.async = true := by
    cases ha : c.async with
    | true => rfl
    | false => exact absurd hstate (hfalse ha)
  have hend : s.endTarget p c x = (s.leaveAsync c.task x).setThread p fun w => { w with task := c.caller, call := none } := by
    unfold State.endTarget
    dsimp only
    rw [hb,ha]
    rfl
  have hleave : s.leaveAsync c.task x = (s.modify c.task fun z => { z with kind := .asyncRunning }).modify c.task
      fun z => { z with fnData := some { x with state := .running } } := by
    unfold State.leaveAsync
    dsimp only
    rw [if_neg (by rw [hstate]; decide)]
  rw [hend,hleave] at hright
  refine hright.2 c.task ?_ p hp ⟨c.task,?_,.refl⟩
  · rw [setThread_task,modify_self,modify_self]
  · rw [setThread_self]
    exact hcall.last

/-- A task that the queues offer to a thread. -/
theorem offered_spec (h : (s.isReady t || s.isSuspendedOn p t) = true) : t < s.numTasks ∧
    ((s.task t).kind = .waiting ∨ (s.task t).kind = .undeferred ∨ (s.task t).kind = .tiedSuspended) := by
  rcases Bool.or_eq_true _ _ |>.mp h with h | h
  · obtain ⟨h1,h2⟩ := isReady_spec h
    exact ⟨h1,h2.imp id .inl⟩
  · obtain ⟨h1,h2⟩ := isSuspendedOn_spec h
    exact ⟨h1,.inr (.inr h2)⟩

theorem step_inv {e : Event} (h : Inv s) (hsafe : TargetSafe s e) (hs : s.step e = some s') : Inv s' := by
  cases e with
  | task p type priority unmet =>
    obtain ⟨_,hs⟩ := Option.ite_none_right_eq_some.mp hs
    obtain rfl := Option.some.inj hs
    exact addPlain_inv h rfl rfl nofun rfl rfl
  | workFirst p type priority =>
    obtain ⟨hg,hs⟩ := Option.ite_none_right_eq_some.mp hs
    obtain rfl := Option.some.inj hs
    simp only [Bool.and_eq_true, isFree_iff] at hg
    exact addPlain_suspend h hg.1.1.1 hg.1.1.2 rfl rfl nofun rfl rfl
  | undeferredImplicit p priority unmet =>
    obtain ⟨hg,hs⟩ := Option.ite_none_right_eq_some.mp hs
    obtain rfl := Option.some.inj hs
    simp only [Bool.and_eq_true, isFree_iff] at hg
    exact gompSuspendImplicitForUndeferred_inv h hg.1.1 hg.1.2 priority unmet
  | undeferred p type priority =>
    obtain ⟨hg,hs⟩ := Option.ite_none_right_eq_some.mp hs
    obtain rfl := Option.some.inj hs
    simp only [Bool.and_eq_true, isFree_iff] at hg
    exact gompTaskUndeferred_inv h hg.1.1.1 hg.1.1.2 type priority
  | endUndeferred p =>
    obtain ⟨parent,hparent,hs⟩ := Option.bind_eq_some_iff.mp hs
    obtain ⟨hg,hs⟩ := Option.ite_none_right_eq_some.mp hs
    obtain rfl := Option.some.inj hs
    simp only [Bool.and_eq_true, isFree_iff] at hg
    exact gompEndTask_inv h hg.1.1 hg.1.2 hparent hg.2
  | target p x unmet =>
    obtain ⟨hg,hs⟩ := Option.ite_none_right_eq_some.mp hs
    obtain rfl := Option.some.inj hs
    simp only [Bool.and_eq_true, isFree_iff, Bool.or_eq_true, decide_eq_true_eq, Bool.not_eq_true'] at hg
    exact gompCreateTargetTask_inv h hg.1.1.1 hg.1.1.2 hg.1.2 hg.2 unmet
  | endTarget p =>
    obtain ⟨hp,hs⟩ := Option.ite_none_right_eq_some.mp hs
    obtain ⟨c,hc,hs⟩ := Option.bind_eq_some_iff.mp hs
    obtain ⟨x,hx,rfl⟩ := Option.map_eq_some_iff.mp hs
    exact endTarget_inv h hp hc hx (hsafe c hc x hx)
  | completion t =>
    obtain ⟨x,hx,hs⟩ := Option.bind_eq_some_iff.mp hs
    obtain ⟨hg,hs⟩ := Option.ite_none_right_eq_some.mp hs
    obtain rfl := Option.some.inj hs
    exact pluginCompletion_inv h hx (Bool.and_eq_true _ _ |>.mp hg).2
  | release t =>
    obtain ⟨_,hs⟩ := Option.ite_none_right_eq_some.mp hs
    obtain rfl := Option.some.inj hs
    exact h.same (modify_same rfl ⟨rfl,rfl⟩ (.inl rfl) .inl (fun _ => .inl) ⟨rfl,rfl⟩)
  | switch p point next =>
    obtain ⟨t,hchoose,hs⟩ := Option.bind_eq_some_iff.mp hs
    obtain ⟨hg,hs⟩ := Option.ite_none_right_eq_some.mp hs
    obtain rfl := Option.some.inj hs
    simp only [Bool.and_eq_true, isFree_iff] at hg
    obtain ⟨hfn,hmem⟩ := choose_spec hchoose
    exact switchTo_inv h hg.1.1.1 hg.1.1.2 (fn_iff.mp hfn) (runnable_bound hg.1.2 hmem)
  | take p site t =>
    obtain ⟨hg,hs⟩ := Option.ite_none_right_eq_some.mp hs
    obtain rfl := Option.some.inj hs
    simp only [Bool.and_eq_true, isFree_iff, State.siteOffers] at hg
    have hw := markWait_same s p site
    exact switchTo_inv (h.same hw) (hw.nthreads ▸ hg.1.1) ((hw.kept.call p).trans hg.1.2)
      ((hw.fnData t).trans (fn_iff.mp hsafe)) (hw.numTasks ▸ (isReady_spec hg.2.1.1.1).1)
  | barrier p t =>
    obtain ⟨hg,hs⟩ := Option.ite_none_right_eq_some.mp hs
    obtain rfl := Option.some.inj hs
    rw [Bool.and_eq_true,Bool.and_eq_true,isFree_iff,decide_eq_true_eq] at hg
    obtain ⟨ht,hk⟩ := offered_spec hg.2
    exact barrierTask_inv h hg.1.1.1 hg.1.1.2 ht hk hg.1.2
  | finish p r =>
    obtain ⟨hg,hs⟩ := Option.ite_none_right_eq_some.mp hs
    obtain rfl := Option.some.inj hs
    simp only [Bool.and_eq_true, isFree_iff, Bool.or_eq_true, decide_eq_true_eq] at hg
    obtain ⟨⟨⟨⟨⟨hp,hcall⟩,_⟩,_⟩,_⟩,hr⟩ := hg
    have hplain : (s.task r).fnData = none ∧ r < s.numTasks := by
      rcases hr with rfl | hr
      · exact h.implicit r hp
      · exact ⟨h.suspended (isSuspendedOn_spec hr).2,(isSuspendedOn_spec hr).1⟩
    exact finish_inv h hp hcall hplain.1 hplain.2
  | taskwait p =>
    obtain ⟨_,hs⟩ := Option.ite_none_right_eq_some.mp hs
    obtain rfl := Option.some.inj hs
    exact h.same (modify_same rfl ⟨rfl,rfl⟩ (.inl rfl) .inl (fun _ => .inl) ⟨rfl,rfl⟩)
  | endTaskwait p =>
    obtain ⟨_,hs⟩ := Option.ite_none_right_eq_some.mp hs
    obtain rfl := Option.some.inj hs
    exact h.same (modify_same rfl ⟨rfl,rfl⟩ (.inl rfl) .inl (fun _ => .inl) ⟨rfl,rfl⟩)
  | dependWait p awaited =>
    obtain ⟨_,hs⟩ := Option.ite_none_right_eq_some.mp hs
    obtain rfl := Option.some.inj hs
    exact h.same (awaited_same s awaited)
  | taskgroupStart p =>
    obtain ⟨_,hs⟩ := Option.ite_none_right_eq_some.mp hs
    obtain rfl := Option.some.inj hs
    refine Inv.same (s := { s with groupPrev := _, numGroups := _ }) ?_
      (modify_same rfl ⟨rfl,rfl⟩ (.inl rfl) .inl (fun _ => .inl) ⟨rfl,rfl⟩)
    exact h.same ⟨rfl,rfl,rfl,fun _ => rfl,fun _ => ⟨rfl,rfl⟩,fun _ => .inl rfl,fun _ => .inl,fun _ _ => .inl,
      fun _ _ h1 h2 => ⟨h1,h2⟩⟩
  | taskgroupEnd p =>
    obtain ⟨g,_,hs⟩ := Option.bind_eq_some_iff.mp hs
    obtain ⟨_,hs⟩ := Option.ite_none_right_eq_some.mp hs
    obtain rfl := Option.some.inj hs
    exact h.same (modify_same rfl ⟨rfl,rfl⟩ (.inl rfl) .inl (fun _ => .inl) ⟨rfl,rfl⟩)

/-- A step that is not safe breaks the property at once. -/
theorem step_not_right {e : Event} (h : Inv s) (hbroken : ¬TargetSafe s e) (hs : s.step e = some s') :
    ¬s'.TargetsRight := by
  cases e with
  | take p site t =>
    obtain ⟨_,hs⟩ := Option.ite_none_right_eq_some.mp hs
    obtain rfl := Option.some.inj hs
    intro hright
    obtain ⟨hrun,hfn⟩ := switchTo_task (s := s.markWait p site) (p := p) (t := t)
    have hnone := fn_iff.mp (hright.1 t hrun)
    rw [hfn,(markWait_same s p site).fnData] at hnone
    exact hbroken (fn_iff.mpr hnone)
  | endTarget p =>
    obtain ⟨hp,hs⟩ := Option.ite_none_right_eq_some.mp hs
    obtain ⟨c,hc,hs⟩ := Option.bind_eq_some_iff.mp hs
    obtain ⟨x,hx,rfl⟩ := Option.map_eq_some_iff.mp hs
    have hbad : c.atBarrier = true ∧ x.state = .readyToRun := by
      by_contra hgood
      refine hbroken fun d hd y hy hb hstate => hgood ?_
      obtain rfl := Option.some.inj (hc.symm.trans hd)
      obtain rfl := Option.some.inj (hx.symm.trans hy)
      exact ⟨hb,hstate⟩
    exact endTarget_not_right h hp hc hx hbad.1 hbad.2
  | _ => exact absurd trivial hbroken

/-- Along every run of a team with ult_var, target tasks stay out of the contexts, and out of the tied
lists while they run on their device, if and only if every step of the run is safe for them. -/
theorem target_tasks_right_iff (nthreads : ℕ) (es : List Event) (s : State)
    (hr : run State.step (init nthreads) es = some s) :
    Along State.step (fun s e => ∀ s', s.step e = some s' → s'.TargetsRight) (init nthreads) es ↔
      Along State.step TargetSafe (init nthreads) es := by
  have hsafe : ∀ s e s', Inv s → s.step e = some s' → (∀ s', s.step e = some s' → s'.TargetsRight) → TargetSafe s e := by
    intro s e s' hi hs hright
    by_contra hn
    exact step_not_right hi hn hs (hright s' hs)
  refine along_iff ?_ ?_ (init_inv nthreads) hr
  · exact fun s e s' hi hright hs => step_inv hi (hsafe s e s' hi hs hright) hs
  · intro s e s' hi hs
    exact ⟨hsafe s e s' hi hs,fun hok u hu => (step_inv hi hok hu).right⟩

instance decidableTargetSafe (s : State) : ∀ e : Event, Decidable (TargetSafe s e)
  | .take _ _ t => inferInstanceAs (Decidable ((s.task t).fn = true))
  | .endTarget p => inferInstanceAs (Decidable (∀ c ∈ (s.thread p).call, ∀ x ∈ (s.task c.task).fnData, c.atBarrier = true →
      x.state ≠ .readyToRun))
  | .task _ _ _ _ | .workFirst _ _ _ | .undeferredImplicit _ _ _ | .undeferred _ _ _ | .endUndeferred _ | .target _ _ _
  | .completion _ | .release _ | .switch _ _ _ | .barrier _ _ | .finish _ _ | .taskwait _ | .endTaskwait _
  | .dependWait _ _ | .taskgroupStart _ | .taskgroupEnd _ => isTrue trivial

/-- A device that runs the function. -/
def offloaded : TargetTask := { fn := true, device := true, runnable := true, state := .beforeMap }

/-- The host runs the function. -/
def onHost : TargetTask := { fn := true, device := false, runnable := false, state := .beforeMap }

/-- A task offloads a target task and yields to a child; the barrier ends the target task when the device
has finished. -/
def mixedTasks : List Event :=
  [.task 0 .tied 0 false,.barrier 0 2,.target 0 offloaded false,.endTarget 0,.completion 3,.task 0 .untied 1 false,
    .switch 0 .taskyield [some 3,some 4],.finish 0 2,.finish 0 0,.barrier 0 3,.endTarget 0]

theorem target_tasks_right_mixedTasks : ∃ s, run State.step (init 2) mixedTasks = some s ∧
    (Along State.step (fun s e => ∀ s', s.step e = some s' → s'.TargetsRight) (init 2) mixedTasks ↔
      Along State.step TargetSafe (init 2) mixedTasks) ∧ Along State.step TargetSafe (init 2) mixedTasks :=
  ⟨_,rfl,target_tasks_right_iff 2 mixedTasks _ rfl,along_of_check (by decide)⟩

/-- GOMP_taskwait takes a target child. -/
def targetAtTaskwait : List Event := [.target 0 onHost false,.take 0 .taskwait 2]

/-- The barrier takes a target task that has waited for another task, and its device goes on with it. -/
def targetAtBarrier : List Event :=
  [.task 0 .tied 0 false,.target 0 offloaded true,.barrier 0 2,.finish 0 0,.release 3,.barrier 0 3,.endTarget 0]

/-- Control goes to a context without a function, and a task that runs on its device stays in a list. -/
theorem target_tasks_right_taken : (∃ s, run State.step (init 2) targetAtTaskwait = some s ∧ ¬s.TargetsRight) ∧
    ∃ s, run State.step (init 2) targetAtBarrier = some s ∧ ¬s.TargetsRight := by
  refine ⟨⟨_,rfl,fun h => ?_⟩,⟨_,rfl,fun h => ?_⟩⟩
  · exact absurd (h.1 2 (by decide)) (by decide)
  · exact h.2 3 (by decide) 0 (by decide) ⟨3,by decide,.refl⟩

end Steps

end GompUlt.TargetTasks
