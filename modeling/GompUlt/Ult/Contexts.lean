import GompUlt.Lib.Run
import Mathlib

/-! # Tasks as user level threads

Every task but an undeferred one has a context of its own, with the calls of the runtime that are in
progress in it.  A call keeps the thread it was entered on in a local variable, while the context
may go on on another thread after a switch.  Which task a scheduling point takes and when an
interrupt arrives are left to the events.
-/
namespace GompUlt.Ult

/-- What a task executes: its function, a copy constructor, or a function of the runtime. -/
inductive Place
  | app | copy | runtime
deriving DecidableEq, Repr

/-- How far GOMP_task has come.  A copy constructor runs for a deferred or an undeferred task, with
or without an increment of non_preemptable around it. -/
inductive TaskStage
  | entered | copying (bumped undeferred : Bool) | past | undeferred
deriving DecidableEq, Repr

/-- The loop around gomp_mutex_trylock: a trylock is next, it has failed, and
gomp_locked_task_switch has returned after it. -/
inductive LockStage
  | ready | failed | switched
deriving DecidableEq, Repr

/-- The functions of the runtime.  GOMP_critical_start and GOMP_critical_name_start are
gomp_set_lock_30 on their own mutex.  `boot` is context_create_boot before and after the function of
the task, and `lockedSwitch` remembers whether it has switched. -/
inductive Call
  | boot (returned : Bool)
  | task (stage : TaskStage)
  | dependWait | taskwait | taskyield | taskgroupEnd | barrier
  | setLock (lock : ℕ) (stage : LockStage)
  | testLock (lock : ℕ)
  | lockedSwitch (switched : Bool)
  | handleLocking | interrupt
deriving DecidableEq, Repr

/-- A call in progress: its local variable thr, where it returns to, and the value that it has last
given to in_libgomp. -/
structure Frame where
  call : Call
  thr : ℕ
  caller : Place
  marked : Bool
deriving DecidableEq, Repr

inductive Status
  | fresh | running (thr : ℕ) | suspended | done
deriving DecidableEq, Repr

/-- A context, with the locks that its tasks hold: those of the task that runs first, then those of
the tasks that wait for an undeferred child. -/
structure Context where
  status : Status := .fresh
  place : Place := .runtime
  frames : List Frame := []
  held : List (List ℕ) := [[]]
deriving DecidableEq, Repr

/-- struct gomp_thread. -/
structure Thread where
  task : ℕ
  inLibgomp : Bool
  nonPreemptable : ℕ
deriving DecidableEq, Repr

/-- The threads of a team and its contexts, the first of them those of the implicit tasks.  Not in
the source: who holds the team lock, and whether a counter has gone below 0. -/
structure State where
  nthreads : ℕ
  thread : ℕ → Thread
  ctx : ℕ → Context
  numCtxs : ℕ
  teamLock : Option ℕ
  mutex : ℕ → Bool
  wrapped : Bool

def init (nthreads : ℕ) : State where
  nthreads
  thread p := ⟨p,false,0⟩
  ctx p := if p < nthreads then { status := .running p, place := .app } else {}
  numCtxs := nthreads
  teamLock := none
  mutex _ := false
  wrapped := false

/-- unsigned int. -/
def uintSize : ℕ := 2 ^ 32

namespace Call

/-- The calls that an application makes. -/
def isEntry : Call → Bool
  | task .entered | taskwait | taskyield | taskgroupEnd | barrier | setLock _ .ready | testLock _ => true
  | _ => false

/-- The functions that set in_libgomp when they are entered. -/
def marks : Call → Bool
  | task .entered | taskwait | taskyield | taskgroupEnd | barrier | lockedSwitch _ | handleLocking => true
  | _ => false

/-- The functions that suspend the task.  GOMP_task does so in gomp_undeferred_task_switch, before it
has decided, and for the work-first strategy or in an implicit task. -/
def canSwitch : Call → Bool
  | task .entered | task .past | dependWait | taskwait | taskyield | taskgroupEnd | barrier
  | lockedSwitch false | interrupt => true
  | _ => false

/-- The functions that read gomp_thread again after a switch; for an interrupt, it is
gomp_interrupt_task_scheduling_post that goes on. -/
def rereads : Call → Bool
  | task .entered | dependWait | taskwait | taskgroupEnd | interrupt => true
  | _ => false

/-- The functions that end by giving in_libgomp back, or leave it as it is. -/
def returns : Call → Bool
  | task .entered | task .past | dependWait | taskwait | taskyield | taskgroupEnd | barrier
  | lockedSwitch _ | handleLocking | interrupt => true
  | _ => false

end Call

namespace Context

def top (x : Context) : Option Frame := x.frames.head?

def push (x : Context) (f : Frame) : Context := { x with frames := f :: x.frames, place := .runtime }

def setTop (x : Context) (f : Frame) : Context := { x with frames := f :: x.frames.tail }

def pop (x : Context) (f : Frame) : Context := { x with frames := x.frames.tail, place := f.caller }

/-- The locks of the task that runs. -/
def current (x : Context) : List ℕ := x.held.headD []

def setCurrent (x : Context) (locks : List ℕ) : Context := { x with held := locks :: x.held.tail }

/-- gomp_set_lock_30 after gomp_locked_task_switch, whose answer 0 makes it read gomp_thread. -/
def afterLockedSwitch (x : Context) (p : ℕ) (switched : Bool) : Context :=
  match x.frames with
  | ⟨.setLock l _,t,caller,m⟩ :: rest =>
    { x with frames := ⟨.setLock l .switched,if switched then p else t,caller,m⟩ :: rest }
  | _ => x

def inCopy (x : Context) : Bool := x.frames.any fun f => f.call matches .task (.copying _ _)

def resume (x : Context) (p : ℕ) : Context :=
  match x.status, x.frames with
  | .fresh, _ => { x with status := .running p, place := .runtime, frames := [⟨.boot false,p,.app,true⟩] }
  | _, f :: rest => { x with status := .running p, frames := (if f.call.rereads then { f with thr := p } else f) :: rest }
  | _, [] => { x with status := .running p }

end Context

namespace State

/-- The context that runs on the thread. -/
def cur (s : State) (p : ℕ) : Context := s.ctx (s.thread p).task

def setCur (s : State) (p : ℕ) (x : Context) : State := { s with ctx := Function.update s.ctx (s.thread p).task x }

def setInLibgomp (s : State) (t : ℕ) (b : Bool) : State :=
  { s with thread := Function.update s.thread t { s.thread t with inLibgomp := b } }

/-- non_preemptable is an unsigned int. -/
def increment (s : State) (t : ℕ) : State :=
  { s with
    thread := Function.update s.thread t
      { s.thread t with nonPreemptable := ((s.thread t).nonPreemptable + 1) % uintSize } }

def decrement (s : State) (t : ℕ) : State :=
  { s with
    thread := Function.update s.thread t
      { s.thread t with nonPreemptable := ((s.thread t).nonPreemptable + (uintSize - 1)) % uintSize }
    wrapped := s.wrapped || (s.thread t).nonPreemptable = 0 }

def setMutex (s : State) (l : ℕ) (b : Bool) : State := { s with mutex := Function.update s.mutex l b }

section Calls

def call (s : State) (p : ℕ) (c : Call) (marked : Bool) : State :=
  s.setCur p ((s.cur p).push ⟨c,p,(s.cur p).place,marked⟩)

/-- The assignment to in_libgomp at the entry of a function. -/
def mark (s : State) (p : ℕ) (f : Frame) : State :=
  (s.setInLibgomp f.thr true).setCur p ((s.cur p).setTop { f with marked := true })

/-- The arrival of an interrupt, with the entry of gomp_interrupt_task_scheduling_pre. -/
def interrupt (s : State) (p : ℕ) : State := (s.call p .interrupt true).setInLibgomp p true

/-- The return from a call; gomp_task_maybe_wait_for_dependencies leaves in_libgomp alone. -/
def ret (s : State) (p : ℕ) (f : Frame) : State :=
  let x := (s.cur p).pop f
  let x :=
    match f.call with
    | .lockedSwitch switched => x.afterLockedSwitch p switched
    | _ => x
  if f.call = .dependWait then s.setCur p x else (s.setInLibgomp f.thr false).setCur p x

/-- The return of gomp_locked_task_switch when the lock is free. -/
def retLockFree (s : State) (p : ℕ) (f g : Frame) (l : ℕ) : State :=
  { s with teamLock := none }.setCur p (((s.cur p).pop f).setTop { g with call := .setLock l .ready })

end Calls

section Tasks

/-- The branch of GOMP_task for a deferred task, up to the team lock. -/
def defer (s : State) (p : ℕ) (f : Frame) (copy : Bool) : State :=
  if copy then
    let bumped := (s.thread f.thr).nonPreemptable = 0
    let s := if bumped then s.increment f.thr else s
    s.setCur p { (s.cur p).setTop { f with call := .task (.copying bumped false) } with place := .copy }
  else s.setCur p ((s.cur p).setTop { f with call := .task .past })

/-- The branch of GOMP_task for an undeferred task, which runs on the stack of its parent. -/
def runUndeferred (s : State) (p : ℕ) (f : Frame) (copy : Bool) : State :=
  let s := s.setInLibgomp f.thr false
  let x := { s.cur p with held := [] :: (s.cur p).held }
  if copy then
    let bumped := (s.thread f.thr).nonPreemptable = 0
    let s := if bumped then s.increment f.thr else s
    s.setCur p { x.setTop { f with call := .task (.copying bumped true), marked := false } with place := .copy }
  else s.setCur p { x.setTop { f with call := .task .undeferred, marked := false } with place := .app }

def endCopy (s : State) (p : ℕ) (f : Frame) (bumped undeferred : Bool) : State :=
  let s := if bumped then s.decrement f.thr else s
  if undeferred then s.setCur p { (s.cur p).setTop { f with call := .task .undeferred } with place := .app }
  else s.setCur p { (s.cur p).setTop { f with call := .task .past } with place := .runtime }

def endUndeferred (s : State) (p : ℕ) (f : Frame) : State :=
  let x := { s.cur p with held := (s.cur p).held.tail, place := .runtime }
  (s.setInLibgomp f.thr true).setCur p (x.setTop { f with call := .task .past, marked := true })

/-- A new task; the context it will get has not been used. -/
def create (s : State) : State := { s with numCtxs := s.numCtxs + 1 }

end Tasks

section Locks

/-- gomp_mutex_trylock between the changes of non_preemptable. -/
def tryLock (s : State) (p : ℕ) (f : Frame) (l : ℕ) (again : Bool) : State :=
  let s := s.increment f.thr
  if s.mutex l then
    let s := s.decrement f.thr
    if again then s.setCur p ((s.cur p).setTop { f with call := .setLock l .failed })
    else s.setCur p ((s.cur p).pop f)
  else (s.setMutex l true).setCur p (((s.cur p).setCurrent (l :: (s.cur p).current)).pop f)

/-- gomp_unset_lock_30 and the ends of the critical constructs, up to gomp_task_handle_locking. -/
def unlock (s : State) (p l : ℕ) : State :=
  let s := s.setMutex l false
  let s := if (s.thread p).nonPreemptable ≠ 0 then s.decrement p else s
  (s.setCur p ((s.cur p).setCurrent ((s.cur p).current.erase l))).call p .handleLocking false

end Locks

section Switches

/-- The context of the thread stops and another one goes on in its place. -/
def transfer (s : State) (p : ℕ) (x : Context) (n : ℕ) : State :=
  let s := s.setCur p x
  { s with
    thread := Function.update s.thread p { s.thread p with task := n }
    ctx := Function.update s.ctx n ((s.ctx n).resume p) }

/-- The switch to another task; only an implicit task gives the team lock back before. -/
def switch (s : State) (p : ℕ) (f : Frame) (n : ℕ) : State :=
  let f := if f.call = .lockedSwitch false then { f with call := .lockedSwitch true } else f
  let implicit := (s.thread p).task < s.nthreads
  let s := s.transfer p { (s.cur p).setTop f with status := .suspended } n
  if implicit then { s with teamLock := none } else s

/-- context_create_boot calls the function of the task. -/
def start (s : State) (p : ℕ) (f : Frame) : State := (s.setInLibgomp f.thr false).setCur p ((s.cur p).pop f)

/-- The function of the task has returned to context_create_boot, which reads gomp_thread. -/
def finish (s : State) (p : ℕ) : State := (s.call p (.boot true) true).setInLibgomp p true

def leave (s : State) (p n : ℕ) : State := s.transfer p { s.cur p with status := .done } n

end Switches

end State

inductive Event
  | call (p : ℕ) (c : Call)
  | dependWait (p : ℕ)
  | lockedSwitch (p : ℕ)
  | interrupt (p : ℕ)
  | mark (p : ℕ)
  | acquire (p : ℕ)
  | release (p : ℕ)
  | ret (p : ℕ)
  | retLockFree (p : ℕ)
  | defer (p : ℕ) (copy : Bool)
  | runUndeferred (p : ℕ) (copy : Bool)
  | endCopy (p : ℕ)
  | endUndeferred (p : ℕ)
  | create (p : ℕ)
  | leaveLoop (p : ℕ)
  | tryLock (p : ℕ)
  | unlock (p l : ℕ)
  | switch (p n : ℕ)
  | start (p : ℕ)
  | finish (p : ℕ)
  | leave (p n : ℕ)
deriving DecidableEq, Repr

def Event.thread : Event → ℕ
  | call p _ | dependWait p | lockedSwitch p | interrupt p | mark p | acquire p | release p | ret p | retLockFree p
  | defer p _ | runUndeferred p _ | endCopy p | endUndeferred p | create p | leaveLoop p | tryLock p | unlock p _
  | switch p _ | start p | finish p | leave p _ => p

namespace State

/-- The call on top of the stack runs. -/
def inCall (s : State) (p : ℕ) (f : Frame) : Bool := (s.cur p).place = .runtime && (s.cur p).top = some f

def free (s : State) (p : ℕ) : Bool := s.teamLock ≠ some p

def canTake (s : State) (n : ℕ) : Bool := n < s.numCtxs && ((s.ctx n).status = .fresh || (s.ctx n).status = .suspended)

/-- What an event does when the thread is where it belongs. -/
def exec (s : State) : Event → Option State
  | .call p c =>
    if (s.cur p).place ≠ .runtime && c.isEntry && (c ≠ .barrier || (s.thread p).task < s.nthreads) then
      some (s.call p c false)
    else none
  | .dependWait p => (s.cur p).top.bind fun f =>
    if s.inCall p f && f.call = .task .entered && f.marked && s.free p then some (s.call p .dependWait true) else none
  | .lockedSwitch p => (s.cur p).top.bind fun f =>
    match f.call with
    | .setLock l stage =>
      if s.inCall p f && (stage = .failed || stage = .switched && s.mutex l) then
        some (s.call p (.lockedSwitch false) false)
      else none
    | _ => none
  | .interrupt p =>
    if !(s.thread p).inLibgomp && (s.thread p).nonPreemptable = 0 && s.nthreads ≤ (s.thread p).task then
      some (s.interrupt p)
    else none
  | .mark p => (s.cur p).top.bind fun f =>
    if s.inCall p f && f.call.marks && !f.marked then some (s.mark p f) else none
  | .acquire p => (s.cur p).top.bind fun f =>
    if s.inCall p f && f.marked && s.teamLock = none then some { s with teamLock := some p } else none
  | .release p => if s.teamLock = some p then some { s with teamLock := none } else none
  | .ret p => (s.cur p).top.bind fun f =>
    if s.inCall p f && f.call.returns && f.marked && s.free p then some (s.ret p f) else none
  | .retLockFree p =>
    match (s.cur p).frames with
    | f :: g :: _ =>
      match g.call with
      | .setLock l _ =>
        if s.inCall p f && f.call = .lockedSwitch false && f.marked && s.teamLock = some p && !s.mutex l then
          some (s.retLockFree p f g l)
        else none
      | _ => none
    | _ => none
  | .defer p copy => (s.cur p).top.bind fun f =>
    if s.inCall p f && f.call = .task .entered && f.marked && s.free p then some (s.defer p f copy) else none
  | .runUndeferred p copy => (s.cur p).top.bind fun f =>
    if s.inCall p f && f.call = .task .entered && f.marked && s.free p then some (s.runUndeferred p f copy) else none
  | .endCopy p => (s.cur p).top.bind fun f =>
    match f.call with
    | .task (.copying bumped undeferred) =>
      if (s.cur p).place = .copy then some (s.endCopy p f bumped undeferred) else none
    | _ => none
  | .endUndeferred p => (s.cur p).top.bind fun f =>
    if (s.cur p).place = .app && f.call = .task .undeferred then some (s.endUndeferred p f) else none
  | .create p => (s.cur p).top.bind fun f =>
    if s.inCall p f && f.call = .task .past && s.teamLock = some p then some s.create else none
  | .leaveLoop p => (s.cur p).top.bind fun f =>
    match f.call with
    | .setLock l .switched =>
      if s.inCall p f && !s.mutex l then some (s.setCur p ((s.cur p).setTop { f with call := .setLock l .ready })) else none
    | _ => none
  | .tryLock p => (s.cur p).top.bind fun f =>
    match f.call with
    | .setLock l .ready => if s.inCall p f then some (s.tryLock p f l true) else none
    | .testLock l => if s.inCall p f then some (s.tryLock p f l false) else none
    | _ => none
  | .unlock p l => if (s.cur p).place ≠ .runtime && l ∈ (s.cur p).current then some (s.unlock p l) else none
  | .switch p n => (s.cur p).top.bind fun f =>
    if s.inCall p f && f.call.canSwitch && f.marked && s.teamLock = some p && s.canTake n then some (s.switch p f n)
    else none
  | .start p => (s.cur p).top.bind fun f =>
    if s.inCall p f && f.call = .boot false && s.free p then some (s.start p f) else none
  | .finish p =>
    if (s.cur p).place = .app && (s.cur p).frames = [] && s.nthreads ≤ (s.thread p).task then some (s.finish p) else none
  | .leave p n => (s.cur p).top.bind fun f =>
    if s.inCall p f && f.call = .boot true && s.free p && n < s.numCtxs && (s.ctx n).status = .suspended then
      some (s.leave p n)
    else none

def step (s : State) (e : Event) : Option State := if e.thread < s.nthreads then s.exec e else none

end State

/-- The steps of GOMP_task for a deferred task. -/
def createTask (p : ℕ) : List Event :=
  [.call p (.task .entered),.mark p,.defer p false,.acquire p,.create p,.release p,.ret p]

end GompUlt.Ult
