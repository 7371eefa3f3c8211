import GompUlt.Lib.Run
import GompUlt.Team.TeamState
import Mathlib.Logic.Relation

/-! # Target tasks among user level threads

A target task has no function of its own: gomp_target_task_fn runs it in the frame of the thread that
takes it, and may leave it running on its device.  The scheduling points of a team with ult_var take
tasks in two ways, through get_higher_priority_task or straight from a queue, and most of them go on in
the context of the task.  Which ready tasks the queues offer, and which task goes on after the end of
another one, are left to the events.
-/
namespace GompUlt.TargetTasks
open Run
open Queue (TaskKind)
open Team (TaskType)

inductive TargetState
  | data | beforeMap | fallback | readyToRun | running | finished
deriving DecidableEq, Repr

/-- struct gomp_target_task: whether it has a function, whether its device has
GOMP_OFFLOAD_CAP_OPENMP_400, and whether that device has the function and can run it.  `inFlight` is
not in the source: the device will call GOMP_PLUGIN_target_task_completion. -/
structure TargetTask where
  fn : Bool
  device : Bool
  runnable : Bool
  state : TargetState
  inFlight : Bool := false
deriving DecidableEq, Repr

/-- struct gomp_task.  `unmet` is a positive num_dependees, `undeferred` an undeferred_ancestor, and
`onStack` marks an undeferred task in the frame of its creator.  Not in the source: `hasRun`, once
control has been transferred to the context of the task, and `freed`. -/
structure Task where
  parent : Option ℕ := none
  taskgroup : Option ℕ := none
  type : TaskType := .tied
  kind : TaskKind := .implicit
  priority : ℕ := 0
  parentDependsOn : Bool := false
  inTaskwait : Bool := false
  undeferred : Bool := false
  ascendingTiedTask : Option ℕ := none
  previousTiedTask : Option ℕ := none
  nextTiedTask : Option ℕ := none
  suspendingThread : Option ℕ := none
  fnData : Option TargetTask := none
  unmet : Bool := false
  onStack : Bool := false
  hasRun : Bool := false
  freed : Bool := false
deriving DecidableEq, Repr

/-- fn is not NULL: only a target task keeps a struct gomp_target_task in its place. -/
def Task.fn (x : Task) : Bool := x.fnData.isNone

/-- gomp_target_task_fn in progress: the task, the one that called it, whether it is
gomp_barrier_handle_tasks that did, and the answer. -/
structure TargetCall where
  task : ℕ
  caller : ℕ
  atBarrier : Bool
  async : Bool
deriving DecidableEq, Repr

structure Thread where
  task : ℕ
  lastTiedTask : Option ℕ := none
  call : Option TargetCall := none
deriving DecidableEq, Repr

/-- A team; the implicit task of a thread has the number of the thread. -/
structure State where
  nthreads : ℕ
  thread : ℕ → Thread
  task : ℕ → Task
  numTasks : ℕ
  groupPrev : ℕ → Option ℕ
  numGroups : ℕ

def init (nthreads : ℕ) : State where
  nthreads
  thread p := { task := p }
  task _ := {}
  numTasks := nthreads
  groupPrev _ := none
  numGroups := 0

namespace State

def modify (s : State) (t : ℕ) (f : Task → Task) : State := { s with task := Function.update s.task t (f (s.task t)) }

def setThread (s : State) (p : ℕ) (f : Thread → Thread) : State :=
  { s with thread := Function.update s.thread p (f (s.thread p)) }

def cur (s : State) (p : ℕ) : ℕ := (s.thread p).task

def setLast (s : State) (p : ℕ) (l : Option ℕ) : State := s.setThread p fun x => { x with lastTiedTask := l }

section TiedList

/-- The pointers between the last task of the list and a new one. -/
def linkTied (s : State) (p nextTask : ℕ) : State :=
  match (s.thread p).lastTiedTask with
  | none => s
  | some l =>
    if l = nextTask then s
    else
      (s.modify l fun x => { x with nextTiedTask := some nextTask }).modify nextTask
        fun x => { x with previousTiedTask := some l }

def gompInsertTaskInTiedList (s : State) (p task nextTask : ℕ) : State :=
  if (s.task task).kind = .implicit then s.setLast p (some nextTask)
  else if (s.task nextTask).previousTiedTask = none ∧ (s.task nextTask).nextTiedTask = none then
    (s.linkTied p nextTask).setLast p (some nextTask)
  else s

/-- A task leaves the middle of the list. -/
def unlinkTied (s : State) (prevTask : ℕ) : State :=
  let s :=
    match (s.task prevTask).nextTiedTask with
    | none => s
    | some n => s.modify n fun x => { x with previousTiedTask := (s.task prevTask).previousTiedTask }
  match (s.task prevTask).previousTiedTask with
  | none => s
  | some l => s.modify l fun x => { x with nextTiedTask := (s.task prevTask).nextTiedTask }

def gompRemoveTaskFromTiedList (s : State) (p task prevTask : ℕ) : State :=
  if (s.task task).kind = .implicit then s.setLast p none
  else if (s.thread p).lastTiedTask = some prevTask then
    match (s.task prevTask).previousTiedTask with
    | none => s.setLast p none
    | some l => (s.setLast p (some l)).modify l fun x => { x with nextTiedTask := none }
  else s.unlinkTied prevTask

/-- The calls stand behind a test of the type. -/
def insertTied (s : State) (p task nextTask : ℕ) : State :=
  if (s.task nextTask).type = .tied then s.gompInsertTaskInTiedList p task nextTask else s

def removeTied (s : State) (p task prevTask : ℕ) : State :=
  if (s.task prevTask).type = .tied then s.gompRemoveTaskFromTiedList p task prevTask else s

/-- The list of the thread: last_tied_task and what previous_tied_task leads to from there. -/
def InTiedList (s : State) (p t : ℕ) : Prop :=
  ∃ l, (s.thread p).lastTiedTask = some l ∧
    Relation.ReflTransGen (fun a b => (s.task a).previousTiedTask = some b) l t

end TiedList

section Selection

/-- The comparison of get_higher_priority_task, whose priority is -1 in the beginning. -/
def better (s : State) (t : ℕ) : Option ℕ → Bool
  | none => true
  | some b =>
    (s.task b).priority < (s.task t).priority ||
      (s.task t).priority = (s.task b).priority && (s.task t).parentDependsOn && !(s.task b).parentDependsOn

/-- One turn of the loops of get_higher_priority_task and get_not_in_taskwait_higher_priority_task. -/
def pick (s : State) (notInTaskwait : Bool) (best : Option ℕ) : Option ℕ → Option ℕ
  | none => best
  | some t =>
    if (s.task t).fn && !(notInTaskwait && (s.task t).inTaskwait) && s.better t best then some t else best

def getHigherPriorityTask (s : State) (next : List (Option ℕ)) : Option ℕ := next.foldl (s.pick false) none

def getNotInTaskwaitHigherPriorityTask (s : State) (next : List (Option ℕ)) : Option ℕ := next.foldl (s.pick true) none

/-- The task is in the queues, its dependences met.  One that an implicit task has created undeferred
keeps its kind. -/
def isReady (s : State) (t : ℕ) : Bool :=
  let x := s.task t
  t < s.numTasks && !x.freed && !x.unmet && (x.kind = .waiting || x.kind = .undeferred && !x.onStack && !x.hasRun)

/-- A TIED task goes on on the thread that has suspended it. -/
def isSuspendedOn (s : State) (p t : ℕ) : Bool :=
  t < s.numTasks && !(s.task t).freed && (s.task t).kind = .tiedSuspended && (s.task t).suspendingThread = some p

/-- The tasks that gomp_get_runnable_tasks may find. -/
def areRunnable (s : State) (p : ℕ) (next : List (Option ℕ)) : Bool :=
  next.all fun t => t.all fun t => s.isReady t || s.isSuspendedOn p t

/-- The test for the Task Scheduling Constraints in the waits of a task. -/
def tiedElsewhere (s : State) (p : ℕ) : Bool :=
  let x := s.task (s.cur p)
  (s.thread p).lastTiedTask.any fun l =>
    match x.type with
    | .tied => l ≠ s.cur p
    | .untied => some l ≠ x.ascendingTiedTask

/-- A child of the task that runs, in the queues that the constraints leave. -/
def isTakenChild (s : State) (p t : ℕ) : Bool :=
  (s.task t).parent = some (s.cur p) && (!s.tiedElsewhere p || (s.task t).type = .untied)

/-- A member of the taskgroup of the task that runs, in the same way. -/
def isTakenMember (s : State) (p t : ℕ) : Bool :=
  (s.task (s.cur p)).taskgroup.isSome && (s.task t).taskgroup = (s.task (s.cur p)).taskgroup &&
    ((s.task t).type = .untied || (s.thread p).lastTiedTask = none ||
      (s.thread p).lastTiedTask = (s.task t).ascendingTiedTask)

end Selection

section Switches

/-- gomp_task_run_pre, without the queues. -/
def gompTaskRunPre (s : State) (t : ℕ) : State :=
  s.modify t fun x => { x with kind := if x.undeferred then .undeferred else .tied }

/-- Control goes to the context of the task. -/
def contextRestore (s : State) (p t : ℕ) : State :=
  (s.modify t fun x => { x with hasRun := true }).setThread p fun x => { x with task := t }

def setSuspended (p : ℕ) (x : Task) : Task :=
  if x.kind = .implicit then x
  else match x.type with
    | .tied => { x with kind := .tiedSuspended, suspendingThread := some p }
    | .untied => { x with kind := .waiting, suspendingThread := some p }

/-- gomp_suspend_tied_task_for_successor and gomp_suspend_untied_task_for_successor; the same steps
stand in gomp_interrupt_task_scheduling_pre. -/
def gompSuspendTaskForSuccessor (s : State) (p nextTask : ℕ) : State :=
  let task := s.cur p
  ((s.insertTied p task nextTask).modify task (setSuspended p)).contextRestore p nextTask

def switchTo (s : State) (p nextTask : ℕ) : State := (s.gompTaskRunPre nextTask).gompSuspendTaskForSuccessor p nextTask

/-- gomp_clear_parent on the children queues of the task. -/
def gompClearParent (s : State) (t : ℕ) : State :=
  { s with
    task := fun u =>
      let x := s.task u
      if x.parent = some t && !x.unmet then
        { x with
          parent := none
          ascendingTiedTask :=
            if x.ascendingTiedTask = some t then (s.task t).ascendingTiedTask else x.ascendingTiedTask }
      else x }

def terminate (s : State) (t : ℕ) : State := (s.gompClearParent t).modify t fun x => { x with freed := true }

/-- context_create_boot after the function of the task has returned, and the task that goes on and
terminates it. -/
def finish (s : State) (p r : ℕ) : State :=
  let task := s.cur p
  let s := (s.removeTied p r task).setThread p fun x => { x with task := r }
  let s := if (s.task r).kind = .tiedSuspended then s.gompTaskRunPre r else s
  s.terminate task

end Switches

section Creation

/-- The assignment to ascending_tied_task of a new task. -/
def ascendingFor (s : State) (parent : ℕ) : Option ℕ :=
  if (s.task parent).kind = .implicit then none
  else match (s.task parent).type with
    | .tied => some parent
    | .untied => (s.task parent).ascendingTiedTask

/-- gomp_init_task, and what every new task gets from its parent. -/
def newTask (s : State) (parent : ℕ) (type : TaskType) (kind : TaskKind) (priority : ℕ) : Task :=
  { parent := some parent, taskgroup := (s.task parent).taskgroup, type, kind, priority,
    ascendingTiedTask := s.ascendingFor parent }

def addTask (s : State) (x : Task) : State :=
  { s with task := Function.update s.task s.numTasks x, numTasks := s.numTasks + 1 }

/-- GOMP_task, deferred. -/
def gompTask (s : State) (p : ℕ) (type : TaskType) (priority : ℕ) (unmet : Bool) : State :=
  s.addTask { s.newTask (s.cur p) type .waiting priority with unmet }

/-- GOMP_task with the work-first strategy. -/
def gompTaskWorkFirst (s : State) (p : ℕ) (type : TaskType) (priority : ℕ) : State :=
  (s.addTask (s.newTask (s.cur p) type .tied priority)).gompSuspendTaskForSuccessor p s.numTasks

/-- gomp_suspend_implicit_for_undeferred; with unmet dependences the task is left to the queues. -/
def gompSuspendImplicitForUndeferred (s : State) (p : ℕ) (priority : ℕ) (unmet : Bool) : State :=
  let x := { s.newTask (s.cur p) .tied .undeferred (max priority (s.task (s.cur p)).priority) with undeferred := true }
  if unmet then s.addTask { x with unmet }
  else (s.addTask x).gompSuspendTaskForSuccessor p s.numTasks

/-- GOMP_task, undeferred, in an explicit task. -/
def gompTaskUndeferred (s : State) (p : ℕ) (type : TaskType) (priority : ℕ) : State :=
  let task := s.cur p
  let x := s.newTask task (if (s.task task).type = .tied then .tied else type) .undeferred priority
  ((s.addTask { x with undeferred := true, onStack := true }).insertTied p task s.numTasks).setThread p
    fun x => { x with task := s.numTasks }

/-- The end of an undeferred task in the frame of its parent. -/
def gompEndTask (s : State) (p parent : ℕ) : State :=
  let task := s.cur p
  let s := (s.terminate task).setThread p fun x => { x with task := parent }
  s.removeTied p parent task

end Creation

section Targets

/-- The task with its answer whether it runs on the device now; mapping and the function itself are
elsewhere. -/
def gompTargetTaskFn (x : TargetTask) : TargetTask × Bool :=
  if x.fn then
    if !x.device || !x.runnable then ({ x with state := .fallback },false)
    else if x.state = .finished then (x,false)
    else ({ x with state := .readyToRun, inFlight := true },true)
  else (x,false)

/-- The call of gomp_target_task_fn in place of a task's function. -/
def callTargetTaskFn (s : State) (p t caller : ℕ) (x : TargetTask) (atBarrier : Bool) : State :=
  let (y,async) := gompTargetTaskFn x
  ((s.insertTied p caller t).modify t fun z => { z with fnData := some y }).setThread p
    fun z => { z with task := t, call := some ⟨t,caller,atBarrier,async⟩ }

/-- gomp_create_target_task.  A task that only maps data and has no dependences is not created. -/
def gompCreateTargetTask (s : State) (p : ℕ) (x : TargetTask) (unmet : Bool) : State :=
  let parent := s.cur p
  let task := s.newTask parent .tied .waiting 0
  if unmet then s.addTask { task with fnData := some x, unmet }
  else if x.state = .data then s
  else if x.device && task.ascendingTiedTask = (s.thread p).lastTiedTask then
    (s.addTask { task with kind := .tied, fnData := some x }).callTargetTaskFn p s.numTasks parent x false
  else s.addTask { task with fnData := some x }

/-- gomp_target_task_completion, without the queues. -/
def gompTargetTaskCompletion (s : State) (t : ℕ) : State := s.modify t fun x => { x with kind := .waiting }

/-- What follows gomp_target_task_fn for a task that runs on its device. -/
def leaveAsync (s : State) (t : ℕ) (x : TargetTask) : State :=
  let s := s.modify t fun z => { z with kind := .asyncRunning }
  if x.state = .finished then s.gompTargetTaskCompletion t
  else s.modify t fun z => { z with fnData := some { x with state := .running } }

/-- The return from gomp_target_task_fn.  gomp_barrier_handle_tasks goes on with the next task when
this one runs on its device. -/
def endTarget (s : State) (p : ℕ) (c : TargetCall) (x : TargetTask) : State :=
  let back (s : State) := s.setThread p fun z => { z with task := c.caller, call := none }
  if !c.atBarrier then back ((s.removeTied p c.caller c.task).leaveAsync c.task x)
  else if c.async then back (s.leaveAsync c.task x)
  else back ((s.removeTied p c.caller c.task).terminate c.task)

/-- GOMP_PLUGIN_target_task_completion. -/
def pluginCompletion (s : State) (t : ℕ) (x : TargetTask) : State :=
  let s' := s.modify t fun z => { z with fnData := some { x with state := .finished, inFlight := false } }
  if x.state = .readyToRun then s' else s'.gompTargetTaskCompletion t

/-- gomp_barrier_handle_tasks with the task that it has taken. -/
def barrierTask (s : State) (p t : ℕ) : State :=
  match (s.task t).fnData with
  | some x => (s.gompTaskRunPre t).callTargetTaskFn p t (s.cur p) x true
  | none => ((s.gompTaskRunPre t).insertTied p (s.cur p) t).contextRestore p t

end Targets

end State

/-- The scheduling points that go through get_higher_priority_task; that of an interrupt may skip the
tasks in GOMP_taskwait. -/
inductive Point
  | taskyield | blocked | locked | undeferred | interrupt (untiedBlockVar : Bool)
deriving DecidableEq, Repr

/-- An implicit task is neither interrupted nor suspended for an undeferred child in this way. -/
def Point.inImplicit : Point → Bool
  | taskyield | blocked | locked => true
  | undeferred | interrupt _ => false

/-- The waits that take a task straight from their queues. -/
inductive Site
  | taskwait | dependWait | taskgroupEnd
deriving DecidableEq, Repr

inductive Event
  | task (p : ℕ) (type : TaskType) (priority : ℕ) (unmet : Bool)
  | workFirst (p : ℕ) (type : TaskType) (priority : ℕ)
  | undeferredImplicit (p priority : ℕ) (unmet : Bool)
  | undeferred (p : ℕ) (type : TaskType) (priority : ℕ)
  | endUndeferred (p : ℕ)
  | target (p : ℕ) (x : TargetTask) (unmet : Bool)
  | endTarget (p : ℕ)
  | completion (t : ℕ)
  | release (t : ℕ)
  | switch (p : ℕ) (point : Point) (next : List (Option ℕ))
  | take (p : ℕ) (site : Site) (t : ℕ)
  | barrier (p t : ℕ)
  | finish (p r : ℕ)
  | taskwait (p : ℕ)
  | endTaskwait (p : ℕ)
  | dependWait (p : ℕ) (awaited : List ℕ)
  | taskgroupStart (p : ℕ)
  | taskgroupEnd (p : ℕ)
deriving DecidableEq, Repr

namespace State

/-- The task that a scheduling point chooses among those it has found. -/
def choose (s : State) (point : Point) (next : List (Option ℕ)) : Option ℕ :=
  match point with
  | .interrupt false => s.getNotInTaskwaitHigherPriorityTask next
  | .taskyield | .blocked | .locked | .undeferred | .interrupt true => s.getHigherPriorityTask next

/-- The thread runs a task of the team, not gomp_target_task_fn. -/
def isFree (s : State) (p : ℕ) : Bool := p < s.nthreads && (s.thread p).call = none

def siteOffers (s : State) (p : ℕ) (site : Site) (t : ℕ) : Bool :=
  s.isReady t && (s.task t).kind = .waiting && !(s.task t).onStack &&
    match site with
    | .taskwait | .dependWait => s.isTakenChild p t
    | .taskgroupEnd => (s.task (s.cur p)).taskgroup.isSome && (s.isTakenMember p t || s.isTakenChild p t)

/-- GOMP_taskwait sets in_taskwait before it switches. -/
def markWait (s : State) (p : ℕ) (site : Site) : State :=
  if site = .taskwait then s.modify (s.cur p) fun x => { x with inTaskwait := true } else s

def step (s : State) : Event → Option State
  | .task p type priority unmet => if s.isFree p then some (s.gompTask p type priority unmet) else none
  | .workFirst p type priority =>
    if s.isFree p && (s.task (s.cur p)).type = .untied && (type = .untied || (s.thread p).lastTiedTask = none ||
        (s.thread p).lastTiedTask = s.ascendingFor (s.cur p)) then
      some (s.gompTaskWorkFirst p type priority)
    else none
  | .undeferredImplicit p priority unmet =>
    if s.isFree p && (s.task (s.cur p)).kind = .implicit then
      some (s.gompSuspendImplicitForUndeferred p priority unmet)
    else none
  | .undeferred p type priority =>
    if s.isFree p && (s.task (s.cur p)).kind ≠ .implicit && !s.tiedElsewhere p then
      some (s.gompTaskUndeferred p type priority)
    else none
  | .endUndeferred p =>
    (s.task (s.cur p)).parent.bind fun parent =>
      if s.isFree p && (s.task (s.cur p)).onStack then some (s.gompEndTask p parent) else none
  | .target p x unmet =>
    if s.isFree p && (x.state = .data || x.state = .beforeMap) && !x.inFlight then
      some (s.gompCreateTargetTask p x unmet)
    else none
  | .endTarget p =>
    if p < s.nthreads then
      (s.thread p).call.bind fun c => (s.task c.task).fnData.map fun x => s.endTarget p c x
    else none
  | .completion t =>
    (s.task t).fnData.bind fun x => if t < s.numTasks && x.inFlight then some (s.pluginCompletion t x) else none
  | .release t =>
    if t < s.numTasks && (s.task t).unmet then some (s.modify t fun x => { x with unmet := false }) else none
  | .switch p point next =>
    (s.choose point next).bind fun t =>
      if s.isFree p && s.areRunnable p next && (point.inImplicit || (s.task (s.cur p)).kind ≠ .implicit) then
        some (s.switchTo p t)
      else none
  | .take p site t =>
    if s.isFree p && s.siteOffers p site t then some ((s.markWait p site).switchTo p t) else none
  | .barrier p t =>
    if s.isFree p && (s.task (s.cur p)).kind = .implicit && (s.isReady t || s.isSuspendedOn p t) then
      some (s.barrierTask p t)
    else none
  | .finish p r =>
    if s.isFree p && (s.task (s.cur p)).kind ≠ .implicit && !(s.task (s.cur p)).onStack && r ≠ s.cur p &&
        (r = p || s.isSuspendedOn p r) then
      some (s.finish p r)
    else none
  | .taskwait p => if s.isFree p then some (s.modify (s.cur p) fun x => { x with inTaskwait := true }) else none
  | .endTaskwait p => if s.isFree p then some (s.modify (s.cur p) fun x => { x with inTaskwait := false }) else none
  | .dependWait p awaited =>
    if s.isFree p && awaited.all fun t => t < s.numTasks && (s.task t).parent = some (s.cur p) then
      some { s with
        task := fun u => if u ∈ awaited then { s.task u with parentDependsOn := true } else s.task u }
    else none
  | .taskgroupStart p =>
    if s.isFree p then
      some ({ s with
        groupPrev := Function.update s.groupPrev s.numGroups (s.task (s.cur p)).taskgroup
        numGroups := s.numGroups + 1 }.modify (s.cur p) fun x => { x with taskgroup := some s.numGroups })
    else none
  | .taskgroupEnd p =>
    (s.task (s.cur p)).taskgroup.bind fun g =>
      if s.isFree p then some (s.modify (s.cur p) fun x => { x with taskgroup := s.groupPrev g }) else none

end State

end GompUlt.TargetTasks
