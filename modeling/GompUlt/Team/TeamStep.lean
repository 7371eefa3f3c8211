import GompUlt.Lib.Run
import GompUlt.Team.TeamState

/-! # The critical sections of the task runtime

Each event is one critical section of team->task_lock, as a composition of the functions of
task.c and task.h.  Which ready task a scheduling point takes, which thread it runs on and in
what order the sections follow each other are left to the events.
-/
namespace GompUlt.Team
open Queue

/-- The places where a task starts or ends: a switch from one context to another, and the loops
of the four waits. -/
inductive Site
  | context | barrier | taskwait | dependWait | taskgroupEnd
  deriving DecidableEq, Repr

namespace TeamState

def insertReady (s : TeamState) (type : TaskType) (parent taskgroup : Option ℕ) (task : ℕ) : TeamState :=
  (s.callFamily type parent taskgroup (.insert false) task).call (.team type) (.insert false) task

section Completion

def notifyParent (s : TeamState) (parent : ℕ) : TeamState :=
  if (s.task parent).inTaskwait then
    if s.ultVar then s.gompTaskHandleBlocking parent
    else s.modifyWait parent fun w => { w with inTaskwait := false }
  else if (s.task parent).inDependWait then
    if s.ultVar then s.gompTaskHandleBlocking parent
    else s.modifyWait parent fun w => { w with inDependWait := false }
  else s

/-- The queues one depender goes to: they are those of the type of the finished task. -/
def callsForDepender (s : TeamState) (childTask task : ℕ) : TeamState :=
  let type := (s.task childTask).type
  let s :=
    match (s.task childTask).parent with
    | none => s
    | some parent => (s.call (.children type parent) (.insert false) task).notifyParent parent
  let s := s.callOpt ((s.task task).taskgroup.map (.taskgroup type)) (.insert false) task
  s.call (.team type) (.insert false) task

def enqueueDepender (s : TeamState) (childTask task : ℕ) : TeamState :=
  (((s.callsForDepender childTask task).modify task fun x =>
    { x with home := if x.kind = .undeferred then .late else .listed }).addCount 1).addQueued 1

/-- One turn of the loop of gomp_task_run_post_handle_dependers. -/
def releaseDepender (childTask : ℕ) (s : TeamState) (task : ℕ) : TeamState :=
  let s := s.modify task fun x =>
    { x with numDependees := x.numDependees - 1, dependees := x.dependees.erase childTask }
  if (s.task task).numDependees ≠ 0 then s else s.enqueueDepender childTask task

def gompTaskRunPostHandleDepend (s : TeamState) (childTask : ℕ) : TeamState :=
  if (s.task childTask).hasDepend then
    ((s.task childTask).dependers.foldl (releaseDepender childTask) s).modify childTask
      fun x => { x with dependers := [] }
  else s

/-- The decrement of n_depend with which gomp_task_run_post_remove_parent begins. -/
def decrementDepend (s : TeamState) (parent childTask : ℕ) : TeamState :=
  if (s.task childTask).parentDependsOn then
    let s := s.modifyWait parent fun w => { w with nDepend := w.nDepend - 1 }
    if (s.task parent).taskwait.any fun w => w.nDepend = 0 && w.inDependWait then
      if s.ultVar then s.gompTaskHandleBlocking parent
      else s.modifyWait parent fun w => { w with inDependWait := false }
    else s
  else s

def gompTaskRunPostRemoveParent (s : TeamState) (childTask : ℕ) : TeamState :=
  match (s.task childTask).parent with
  | none => s
  | some parent =>
    let s := s.decrementDepend parent childTask
    let s := s.call (.children (s.task childTask).type parent) (.remove false) childTask
    if (s.queue (.children .tied parent)).emptyP && (s.queue (.children .untied parent)).emptyP &&
        (s.task parent).inTaskwait then
      if s.ultVar then s.gompTaskHandleBlocking parent
      else s.modifyWait parent fun w => { w with inTaskwait := false }
    else s

/-- The removal from the children queue of the task in whose context the child ends, or from
the one of its parent. -/
def removeFromParent (s : TeamState) (task childTask : ℕ) : TeamState :=
  if (s.task childTask).parent = some task then
    s.call (.children (s.task childTask).type task) (.remove false) childTask
  else s.gompTaskRunPostRemoveParent childTask

/-- gomp_clear_parent on both children queues. -/
def gompClearParent (s : TeamState) (task : ℕ) : TeamState :=
  { s with
    task := fun u =>
      if u ∈ (s.queue (.children .tied task)).members ∨ u ∈ (s.queue (.children .untied task)).members then
        { s.task u with parent := none }
      else s.task u }

/-- gomp_task_run_post_remove_taskgroup; num_children stops at 0. -/
def gompTaskRunPostRemoveTaskgroup (s : TeamState) (childTask : ℕ) : TeamState :=
  match (s.task childTask).taskgroup with
  | none => s
  | some g =>
    let s := s.call (.taskgroup (s.task childTask).type g) (.remove false) childTask
    { s with group := Function.update s.group g { s.group g with numChildren := (s.group g).numChildren - 1 } }

def free (s : TeamState) (task : ℕ) : TeamState :=
  let s := s.modify task fun x => { x with freed := true }
  { s with
    queue := Function.update (Function.update s.queue (.children .tied task) TaskQueue.empty)
      (.children .untied task) TaskQueue.empty }

/-- gomp_terminate_task_pre, and the same steps as they are written out at the other places. -/
def gompTerminateTaskPre (s : TeamState) (site : Site) (task nextTask : ℕ) : TeamState :=
  let s := s.gompTaskRunPostHandleDepend nextTask
  let s :=
    match site with
    | .context | .taskwait => s.removeFromParent task nextTask
    | .dependWait =>
      let s :=
        if (s.task nextTask).parentDependsOn then
          s.modifyWait task fun w => { w with nDepend := w.nDepend - 1 }
        else s
      s.removeFromParent task nextTask
    | .barrier | .taskgroupEnd => s.gompTaskRunPostRemoveParent nextTask
  let s := s.gompClearParent nextTask
  let s := s.gompTaskRunPostRemoveTaskgroup nextTask
  let s := if site = .context && (s.task nextTask).kind = .undeferred then s else s.addCount (-1)
  s.free nextTask

end Completion

section Scheduling

/-- The calls of gomp_task_run_pre for a task that waits in the team queue. -/
def leaveQueues (s : TeamState) (childTask : ℕ) (parent : Option ℕ) : TeamState :=
  let x := s.task childTask
  let s := if x.undeferredAncestor = none then s.callFamily x.type parent x.taskgroup .downgrade childTask else s
  -- a suspending thread is a fatal error for a TIED task here
  let s := if x.type = .untied then s.callSuspended .untied x.suspendingThread (.remove x.isBlocked) childTask else s
  s.call (.team x.type) (.remove x.isBlocked) childTask

def setRunning (s : TeamState) (task : ℕ) : TeamState := s.modify task fun x => { x with kind := x.runKind }

/-- gomp_task_run_pre, without its answer about cancellation. -/
def gompTaskRunPre (s : TeamState) (childTask : ℕ) (parent : Option ℕ) : TeamState :=
  let x := s.task childTask
  if x.kind = .tiedSuspended then
    (s.callSuspended .tied x.suspendingThread (.remove x.isBlocked) childTask).setRunning childTask
  else
    let s := ((s.leaveQueues childTask parent).setRunning childTask).addQueued (-1)
    if x.runKind ≠ .undeferred && s.ultVar then s.handleParent parent else s

def enterLocked (s : TeamState) (task : ℕ) (enter : Bool) (lockedTasks : Option ℕ) : TeamState :=
  if enter then s.callOpt (lockedTasks.map .locked) (.insert false) task else s

def setSuspended (s : TeamState) (thr task : ℕ) (isBlocked : Bool) (kind : TaskKind) (lockedTasks : Option ℕ) :
    TeamState :=
  s.modify task fun x => { x with isBlocked, suspendingThread := some thr, kind, lockedTasks }

/-- gomp_suspend_tied_task_for_successor up to the switch; the same steps stand in
gomp_interrupt_task_scheduling_pre. -/
def gompSuspendTiedTaskForSuccessor (s : TeamState) (thr task : ℕ) (lockedTasks : Option ℕ) : TeamState :=
  if (s.task task).kind = .implicit then s
  else
    let blocked := (s.task task).inTaskwait && s.isBlockedTied task
    let b := blocked || lockedTasks.isSome
    let s := s.enterLocked task (!blocked) lockedTasks
    let s := s.call (.suspended .tied thr) (.insert b) task
    s.setSuspended thr task b .tiedSuspended lockedTasks

/-- The calls of gomp_suspend_untied_task_for_successor; the one on the team queue stands after
the change of the kind, which it does not read. -/
def enterQueues (s : TeamState) (thr task : ℕ) (isBlocked : Bool) : TeamState :=
  let x := s.task task
  let s :=
    if x.kind ≠ .undeferred then
      s.callFamily .untied x.parent x.taskgroup (if isBlocked then .block x.kind else .adjust) task
    else s
  (s.call (.suspended .untied thr) (.insert isBlocked) task).call (.team .untied) (.insert isBlocked) task

/-- gomp_suspend_untied_task_for_successor up to the switch. -/
def gompSuspendUntiedTaskForSuccessor (s : TeamState) (thr task : ℕ) (lockedTasks : Option ℕ) : TeamState :=
  let blocked := (s.task task).inTaskwait && s.isBlockedUntied task
  let b := blocked || lockedTasks.isSome
  let parent := (s.task task).parent
  let s := (s.enterLocked task (!blocked) lockedTasks).enterQueues thr task b
  let s := s.setSuspended thr task b .waiting lockedTasks
  if b then s else (s.addQueued 1).handleParent parent

def gompSuspendTaskForSuccessor (s : TeamState) (thr task : ℕ) (lockedTasks : Option ℕ) : TeamState :=
  match (s.task task).type with
  | .tied => s.gompSuspendTiedTaskForSuccessor thr task lockedTasks
  | .untied => s.gompSuspendUntiedTaskForSuccessor thr task lockedTasks

/-- What a TIED task does when the task it was suspended for has ended, before it terminates it. -/
def resumeContext (s : TeamState) (task : ℕ) : TeamState :=
  let x := s.task task
  if x.kind = .tiedSuspended then
    let s := s.callOpt (x.lockedTasks.map .locked) (.remove false) task
    (s.callSuspended .tied x.suspendingThread (.remove x.isBlocked) task).setRunning task
  else s

/-- gomp_task_handle_locking, once it has found the task. -/
def gompTaskHandleLocking (s : TeamState) (lock task : ℕ) : TeamState :=
  let x := s.task task
  let s := s.call (.locked lock) (.remove false) task
  match x.type with
  | .tied => s.setBlockedTied task false
  | .untied => (s.setBlockedUntied task false).handleParent x.parent

end Scheduling

section Waits

def markTaskwait (s : TeamState) (task : ℕ) : TeamState :=
  s.modify task fun x => { x with taskwait := some { x.taskwait.getD {} with inTaskwait := true } }

def markDependWait (s : TeamState) (task : ℕ) : TeamState :=
  s.modifyWait task fun w => { w with inDependWait := true }

/-- The body of the loop over the depend entries with which
gomp_task_maybe_wait_for_dependencies begins. -/
def awaitChild (task : ℕ) (s : TeamState) (tsk : ℕ) : TeamState :=
  let s := s.modify tsk fun x => { x with parentDependsOn := true }
  let x := s.task tsk
  if x.numDependees = 0 && x.kind = .waiting && !x.isBlocked then s.call (.children x.type task) .upgrade tsk else s

def beginDependWait (s : TeamState) (task : ℕ) (awaited : List ℕ) : TeamState :=
  (awaited.foldl (awaitChild task) s).modify task
    fun x => { x with taskwait := some { nDepend := awaited.length, forDepend := true } }

def returnFromWait (s : TeamState) (task : ℕ) : TeamState := s.modify task fun x => { x with taskwait := none }

def gompTaskgroupStart (s : TeamState) (task : ℕ) : TeamState :=
  let s := { s with
    group := Function.update s.group s.numGroups { prev := (s.task task).taskgroup, numChildren := 0, owner := task }
    numGroups := s.numGroups + 1 }
  s.modify task fun x => { x with taskgroup := some (s.numGroups - 1) }

def gompTaskgroupEnd (s : TeamState) (task g : ℕ) : TeamState :=
  s.modify task fun x => { x with taskgroup := (s.group g).prev }

end Waits

section Creation

def addTask (s : TeamState) (x : Task) : TeamState :=
  { s with task := Function.update s.task s.numTasks x, numTasks := s.numTasks + 1 }

def addChild (s : TeamState) (taskgroup : Option ℕ) : TeamState :=
  match taskgroup with
  | none => s
  | some g =>
    { s with group := Function.update s.group g { s.group g with numChildren := (s.group g).numChildren + 1 } }

/-- gomp_task_handle_depend, given the siblings the task has to wait for. -/
def gompTaskHandleDepend (s : TeamState) (task : ℕ) (dependees : List ℕ) : TeamState :=
  let s := { s with
    task := fun u => if u ∈ dependees then { s.task u with dependers := (s.task u).dependers ++ [task] } else s.task u }
  s.modify task fun x => { x with numDependees := dependees.length, dependees }

def newTask (s : TeamState) (parent : ℕ) (type : TaskType) (kind : TaskKind) (hasDepend : Bool) : Task :=
  let p := s.task parent
  { parent := some parent, taskgroup := p.taskgroup, type, kind, hasDepend, untiedBlockVar := p.untiedBlockVar,
    home := .unmet, createdIn := p.taskgroup }

def createTask (s : TeamState) (x : Task) (dependees : List ℕ) : TeamState :=
  ((s.addTask x).addChild x.taskgroup).gompTaskHandleDepend s.numTasks dependees

/-- The deferred branch of GOMP_task without the work-first strategy. -/
def gompTask (s : TeamState) (parent : ℕ) (type : TaskType) (hasDepend : Bool) (dependees : List ℕ) : TeamState :=
  let task := s.numTasks
  let x := s.newTask parent type .waiting hasDepend
  let s := s.createTask x dependees
  if dependees ≠ [] then s
  else
    (((s.insertReady type x.parent x.taskgroup task).modify task fun x => { x with home := .listed }).addCount
      1).addQueued 1

/-- The children and taskgroup queues get a task that runs at once. -/
def insertRunning (s : TeamState) (task : ℕ) (kind : TaskKind) : TeamState :=
  let x := s.task task
  (s.callFamily x.type x.parent x.taskgroup .insertRunning task).modify task
    fun x => { x with home := .listed, kind }

/-- The deferred branch of GOMP_task with the work-first strategy. -/
def gompTaskWorkFirst (s : TeamState) (thr parent : ℕ) (type : TaskType) (hasDepend : Bool) : TeamState :=
  let task := s.numTasks
  let s := s.createTask (s.newTask parent type .waiting hasDepend) []
  ((s.insertRunning task .tied).addCount 1).gompSuspendUntiedTaskForSuccessor thr parent none

def gompSuspendImplicitForUndeferred (s : TeamState) (implicit : ℕ) (hasDepend : Bool) (dependees : List ℕ) :
    TeamState :=
  let task := s.numTasks
  let s := s.createTask
    { s.newTask implicit .tied .undeferred hasDepend with undeferredAncestor := some task } dependees
  if dependees ≠ [] then s else s.insertRunning task .undeferred

/-- The start of an undeferred task on the stack of its parent. -/
def gompTaskUndeferred (s : TeamState) (parent : ℕ) (type : TaskType) : TeamState :=
  let p := s.task parent
  let ancestor := if s.ultVar then some (p.undeferredAncestor.getD parent) else none
  (s.addTask { s.newTask parent type .undeferred false with undeferredAncestor := ancestor, home := .stack }).modify
    parent fun x => { x with busy := true }

/-- The end of an undeferred task on the stack of its parent. -/
def gompEndTask (s : TeamState) (task : ℕ) : TeamState :=
  let s := (s.gompClearParent task).free task
  match (s.task task).parent with
  | none => s
  | some p => s.modify p fun x => { x with busy := false }

/-- gomp_create_target_task; the task may run its mapping part at once. -/
def gompCreateTargetTask (s : TeamState) (parent : ℕ) (hasDepend : Bool) (dependees : List ℕ) (atOnce : Bool) :
    TeamState :=
  let task := s.numTasks
  let x := { s.newTask parent .tied .waiting hasDepend with isTarget := true }
  let s := s.createTask x dependees
  if dependees ≠ [] then s
  else if atOnce then (s.insertRunning task .tied).addCount 1
  else
    (((s.insertReady .tied x.parent x.taskgroup task).modify task fun x => { x with home := .listed }).addCount
      1).addQueued 1

def gompTargetTaskCompletion (s : TeamState) (task : ℕ) : TeamState :=
  let x := s.task task
  let s := s.callFamily x.type x.parent x.taskgroup (.moveFirst x.isBlocked) task
  let s := s.call (.team x.type) (.insert x.isBlocked) task
  let s := s.modify task fun x => { x with kind := .waiting }
  let s :=
    match x.parent with
    | none => s
    | some parent => s.notifyParent parent
  s.addQueued 1

end Creation

end TeamState

/-- The critical sections.  A start or switch names the queue the next task is taken from. -/
inductive Event
  | create (parent : ℕ) (type : TaskType) (hasDepend : Bool) (dependees : List ℕ)
  | createWorkFirst (thr parent : ℕ) (type : TaskType) (hasDepend : Bool)
  | createUndeferred (parent : ℕ) (type : TaskType)
  | createForImplicit (implicit : ℕ) (hasDepend : Bool) (dependees : List ℕ)
  | createTarget (parent : ℕ) (hasDepend : Bool) (dependees : List ℕ) (atOnce : Bool)
  | start (site : Site) (cur next : ℕ) (src : QRef)
  | switch (site : Site) (thr cur next : ℕ) (src : QRef) (lock : Option ℕ)
  | cancelled (site : Site) (cur next : ℕ) (src : QRef)
  | finish (site : Site) (task nextTask : ℕ)
  | finishUndeferred (task : ℕ)
  | targetAsync (task : ℕ)
  | targetCompletion (task : ℕ)
  | taskwaitBlock (task : ℕ)
  | taskwaitReturn (task : ℕ)
  | dependWaitBegin (task : ℕ) (awaited : List ℕ)
  | dependWaitBlock (task : ℕ)
  | dependWaitReturn (task : ℕ)
  | taskgroupStart (task : ℕ)
  | taskgroupEnd (task g : ℕ)
  | unlock (lock task : ℕ)
  | setUntiedBlock (task : ℕ) (value : Bool)
  deriving DecidableEq, Repr

namespace TeamState

/-- The task runs on some thread: it is thr->task, or a wait of it is on top of the stack. -/
def isRunning (s : TeamState) (t : ℕ) : Bool :=
  let x := s.task t
  t < s.numTasks && !x.freed && !x.busy && !x.isTarget && x.kind ∈ [.implicit, .tied, .undeferred] &&
    x.home ∈ [.implicit, .stack, .listed]

def isActive (s : TeamState) (t : ℕ) : Bool := s.isRunning t && (s.task t).taskwait = none

/-- The next task is ready in the queue it is taken from; only a queue of suspended tasks gives a
TIED task that has been suspended. -/
def isSelectable (s : TeamState) (next : ℕ) (src : QRef) : Bool :=
  let x := s.task next
  next < s.numTasks && !x.freed && !src.isLocked && s.status src next = some .ready &&
    (x.kind = .waiting || x.kind = .tiedSuspended && src.plain)

def siteAllows (s : TeamState) (site : Site) (cur : ℕ) (src : QRef) : Bool :=
  let x := s.task cur
  match site with
  | .context => true
  | .barrier => x.kind = .implicit
  | .taskgroupEnd => x.taskwait = none
  | .taskwait => !x.waitsForDepend && (src = .children .tied cur || src = .children .untied cur)
  | .dependWait => x.waitsForDepend && (src = .children .tied cur || src = .children .untied cur)

/-- The parent handed to gomp_task_run_pre. -/
def parentArg (s : TeamState) (site : Site) (cur next : ℕ) : Option ℕ :=
  match site with
  | .taskwait | .dependWait => some cur
  | .context | .barrier | .taskgroupEnd => (s.task next).parent

def hasReturned (s : TeamState) (t : ℕ) : Bool :=
  let x := s.task t
  t < s.numTasks && !x.freed && !x.busy && x.taskwait = none && x.taskgroup = x.createdIn &&
    x.kind ∈ [.tied, .undeferred]

/-- The task in whose context another one ends. -/
def endsIn (s : TeamState) (site : Site) (task nextTask : ℕ) : Bool :=
  let x := s.task task
  task < s.numTasks && !x.freed && task ≠ nextTask &&
    match site with
    | .context => s.ultVar && !(s.task nextTask).isTarget && x.kind ∈ [.tiedSuspended, .implicit]
    | .barrier => x.kind = .implicit
    | .taskwait => !s.ultVar && !x.waitsForDepend
    | .dependWait => !s.ultVar && x.waitsForDepend && (s.task nextTask).parent = some task
    | .taskgroupEnd => !s.ultVar

/-- Siblings that can be waited for: unfinished children with depend clauses. -/
def areSiblings (s : TeamState) (parent : ℕ) (ts : List ℕ) : Bool :=
  ts.Nodup && ts.all fun t =>
    t < s.numTasks && !(s.task t).freed && (s.task t).parent = some parent && (s.task t).hasDepend

/-- The task a cancelled gomp_task_run_pre terminates. -/
def cancelledTask (s : TeamState) (site : Site) (next : ℕ) : ℕ :=
  if site = .context then (s.task next).undeferredAncestor.getD next else next

/-- Where the program and the runtime can be for an event. -/
def enabled (s : TeamState) : Event → Bool
  | .create p _ d ds => s.isActive p && s.areSiblings p ds && (d || ds = [])
  | .createWorkFirst _ p _ _ => s.ultVar && s.isActive p && (s.task p).type = .untied
  | .createUndeferred p type =>
    s.isActive p && !(s.ultVar && (s.task p).kind = .implicit) &&
      ((s.task p).kind = .implicit || (s.task p).type = .untied || type = .tied)
  | .createForImplicit p d ds =>
    s.ultVar && s.isActive p && (s.task p).kind = .implicit && s.areSiblings p ds && (d || ds = [])
  | .createTarget p d ds _ => s.isActive p && s.areSiblings p ds && (d || ds = [])
  | .start site cur next src =>
    s.isRunning cur && s.isSelectable next src && s.siteAllows site cur src && site ≠ .context &&
      (!s.ultVar || site = .barrier) && (s.task next).kind = .waiting
  | .switch site thr cur next src lock =>
    s.ultVar && s.isRunning cur && s.isSelectable next src && s.siteAllows site cur src && site ≠ .barrier &&
      !(s.task next).isTarget && (src ≠ .suspended .tied thr → (s.task next).kind = .waiting) &&
      (lock = none || site = .context && (s.task cur).taskwait = none)
  | .cancelled site cur next src => s.isRunning cur && s.isSelectable next src && s.siteAllows site cur src
  | .finish site x c => s.hasReturned c && (s.task c).home = .listed && s.endsIn site x c
  | .finishUndeferred t => s.hasReturned t && (s.task t).home = .stack
  | .targetAsync t =>
    t < s.numTasks && !(s.task t).freed && (s.task t).isTarget && (s.task t).kind = .tied
  | .targetCompletion t => t < s.numTasks && !(s.task t).freed && (s.task t).kind = .asyncRunning
  | .taskwaitBlock t | .taskwaitReturn t => s.isRunning t && !(s.task t).waitsForDepend
  | .dependWaitBegin t ms =>
    s.isActive t && s.areSiblings t ms && ms ≠ [] && ms.all fun c => !(s.task c).parentDependsOn
  | .dependWaitBlock t => s.isRunning t && (s.task t).waitsForDepend
  | .dependWaitReturn t => s.isRunning t && (s.task t).taskwait.any fun w => w.forDepend && w.nDepend = 0
  | .taskgroupStart t => s.isActive t
  | .taskgroupEnd t g =>
    s.isActive t && (s.task t).taskgroup = some g && (s.group g).owner = t && (s.group g).numChildren = 0 &&
      g < s.numGroups
  | .unlock lock t => s.status (.locked lock) t = some .ready
  | .setUntiedBlock t _ => s.isActive t

def exec (s : TeamState) : Event → TeamState
  | .create p type d ds => s.gompTask p type d ds
  | .createWorkFirst thr p type d => s.gompTaskWorkFirst thr p type d
  | .createUndeferred p type => s.gompTaskUndeferred p type
  | .createForImplicit p d ds => s.gompSuspendImplicitForUndeferred p d ds
  | .createTarget p d ds atOnce => s.gompCreateTargetTask p d ds atOnce
  | .start site cur next _ => s.gompTaskRunPre next (s.parentArg site cur next)
  | .switch site thr cur next _ lock =>
    let s := s.gompTaskRunPre next (s.parentArg site cur next)
    let s :=
      match site with
      | .taskwait => s.markTaskwait cur
      | .dependWait => s.markDependWait cur
      | .context | .barrier | .taskgroupEnd => s
    s.gompSuspendTaskForSuccessor thr cur lock
  | .cancelled site cur next _ =>
    (s.gompTaskRunPre next (s.parentArg site cur next)).gompTerminateTaskPre site cur (s.cancelledTask site next)
  | .finish site x c =>
    let s := if site = .context then s.resumeContext x else s
    s.gompTerminateTaskPre site x c
  | .finishUndeferred t => s.gompEndTask t
  | .targetAsync t => s.modify t fun x => { x with kind := .asyncRunning }
  | .targetCompletion t => s.gompTargetTaskCompletion t
  | .taskwaitBlock t => s.markTaskwait t
  | .taskwaitReturn t =>
    if (s.queue (.children .tied t)).emptyP && (s.queue (.children .untied t)).emptyP then s.returnFromWait t else s
  | .dependWaitBegin t ms => s.beginDependWait t ms
  | .dependWaitBlock t => s.markDependWait t
  | .dependWaitReturn t => s.returnFromWait t
  | .taskgroupStart t => s.gompTaskgroupStart t
  | .taskgroupEnd t g => s.gompTaskgroupEnd t g
  | .unlock lock t => s.gompTaskHandleLocking lock t
  | .setUntiedBlock t value => s.modify t fun x => { x with untiedBlockVar := value }

def step (s : TeamState) (e : Event) : Option TeamState := if s.enabled e then some (s.exec e) else none

end TeamState

end GompUlt.Team
