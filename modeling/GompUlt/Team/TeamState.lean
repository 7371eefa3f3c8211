import GompUlt.Team.TaskQueue

/-! # The tasks, taskgroups and queues of one team

Tasks, taskgroups, threads and locks are named by numbers; tasks and taskgroups are numbered
in the order in which they are created, and no number is used twice.  A task that is freed
keeps its record, marked so, and loses its queues.
-/
namespace GompUlt.Team
open Queue

/-- enum gomp_task_type. -/
inductive TaskType
  | tied | untied
  deriving DecidableEq, Repr

/-- The queues of a team.  Every queue of the original runtime exists once for each type. -/
inductive QRef
  | children (type : TaskType) (task : ℕ)
  | taskgroup (type : TaskType) (group : ℕ)
  | team (type : TaskType)
  | suspended (type : TaskType) (thread : ℕ)
  | locked (lock : ℕ)
  deriving DecidableEq, Repr

/-- The queues without a running zone. -/
def QRef.plain : QRef → Bool
  | children _ _ | taskgroup _ _ => false
  | team _ | suspended _ _ | locked _ => true

def QRef.isLocked : QRef → Bool
  | locked _ => true
  | children _ _ | taskgroup _ _ | team _ | suspended _ _ => false

/-- struct gomp_taskwait.  The last field tells the variable of
gomp_task_maybe_wait_for_dependencies from that of GOMP_taskwait. -/
structure Taskwait where
  inTaskwait : Bool := false
  inDependWait : Bool := false
  nDepend : ℤ := 0
  forDepend : Bool := false
  deriving DecidableEq, Repr

/-- Where a task lives: an implicit task, an undeferred task on the stack of its parent, a task
that waits for its dependences, one that the queues hold, and an undeferred task of an implicit
task that came to the queues only after it had waited for its dependences. -/
inductive Home
  | implicit | stack | unmet | listed | late
  deriving DecidableEq, Repr

/-- struct gomp_task.  The fields from home on are not in the source: they record where the
task is, the tasks it still waits for, the taskgroup it was created in, the locked_tasks
variable of the switch that suspended it, whether an undeferred child runs on its stack, and
whether it has been freed. -/
structure Task where
  parent : Option ℕ := none
  taskgroup : Option ℕ := none
  type : TaskType := .tied
  kind : TaskKind := .implicit
  isBlocked : Bool := false
  parentDependsOn : Bool := false
  suspendingThread : Option ℕ := none
  undeferredAncestor : Option ℕ := none
  taskwait : Option Taskwait := none
  hasDepend : Bool := false
  numDependees : ℕ := 0
  dependers : List ℕ := []
  untiedBlockVar : Bool := true
  isTarget : Bool := false
  home : Home := .implicit
  dependees : List ℕ := []
  createdIn : Option ℕ := none
  lockedTasks : Option ℕ := none
  busy : Bool := false
  freed : Bool := false
  deriving DecidableEq, Repr

/-- struct gomp_taskgroup, with the task that opened it. -/
structure Taskgroup where
  prev : Option ℕ := none
  numChildren : ℕ := 0
  owner : ℕ := 0
  deriving DecidableEq, Repr

namespace Task

def inTaskwait (x : Task) : Bool := x.taskwait.any (·.inTaskwait)

def inDependWait (x : Task) : Bool := x.taskwait.any (·.inDependWait)

/-- The task waits in gomp_task_maybe_wait_for_dependencies. -/
def waitsForDepend (x : Task) : Bool := x.taskwait.any (·.forDepend)

/-- The kind a task gets when it starts or goes on. -/
def runKind (x : Task) : TaskKind := if x.undeferredAncestor.isSome then .undeferred else .tied

end Task

structure TeamState where
  ultVar : Bool
  task : ℕ → Task
  numTasks : ℕ
  group : ℕ → Taskgroup
  numGroups : ℕ
  queue : QRef → TaskQueue ℕ
  taskCount : ℤ
  taskQueuedCount : ℤ

namespace TeamState

/-- A team of nthreads threads, each in its implicit task. -/
def init (ultVar : Bool) (nthreads : ℕ) : TeamState where
  ultVar
  task _ := {}
  numTasks := nthreads
  group _ := {}
  numGroups := 0
  queue _ := TaskQueue.empty
  taskCount := 0
  taskQueuedCount := 0

def modify (s : TeamState) (t : ℕ) (f : Task → Task) : TeamState :=
  { s with task := Function.update s.task t (f (s.task t)) }

/-- A change of the taskwait variable of a task, where it has one. -/
def modifyWait (s : TeamState) (t : ℕ) (f : Taskwait → Taskwait) : TeamState :=
  s.modify t fun x => { x with taskwait := x.taskwait.map f }

def call (s : TeamState) (q : QRef) (c : Call) (t : ℕ) : TeamState :=
  { s with queue := Function.update s.queue q ((s.queue q).exec q.plain c t) }

/-- A call on a queue behind a pointer that may be NULL. -/
def callOpt (s : TeamState) (q : Option QRef) (c : Call) (t : ℕ) : TeamState :=
  match q with
  | none => s
  | some q => s.call q c t

/-- The same call on a children queue and on a taskgroup queue. -/
def callFamily (s : TeamState) (type : TaskType) (parent taskgroup : Option ℕ) (c : Call) (t : ℕ) : TeamState :=
  (s.callOpt (parent.map (.children type)) c t).callOpt (taskgroup.map (.taskgroup type)) c t

/-- A call on a queue of suspended tasks. -/
def callSuspended (s : TeamState) (type : TaskType) (thread : Option ℕ) (c : Call) (t : ℕ) : TeamState :=
  s.callOpt (thread.map (.suspended type)) c t

def addCount (s : TeamState) (d : ℤ) : TeamState := { s with taskCount := s.taskCount + d }

def addQueued (s : TeamState) (d : ℤ) : TeamState := { s with taskQueuedCount := s.taskQueuedCount + d }

def status (s : TeamState) (q : QRef) (t : ℕ) : Option Zone := (s.queue q).status t

def getNumChildren (s : TeamState) (t : ℕ) : ℤ :=
  (s.queue (.children .tied t)).numPriorityNode + (s.queue (.children .untied t)).numPriorityNode

def getNumWaitingChildren (s : TeamState) (t : ℕ) : ℤ :=
  (s.queue (.children .tied t)).numWaitingPriorityNode + (s.queue (.children .untied t)).numWaitingPriorityNode

/-- IS_BLOCKED_TIED; the counters are unsigned, so greater than 0 means not 0. -/
def isBlockedTied (s : TeamState) (t : ℕ) : Bool := s.getNumChildren t ≠ 0

def isBlockedUntied (s : TeamState) (t : ℕ) : Bool :=
  s.getNumChildren t ≠ 0 && ((s.task t).untiedBlockVar || s.getNumWaitingChildren t = 0)

/-- The TIED branch of gomp_task_handle_blocking: the new is_blocked and the call. -/
def setBlockedTied (s : TeamState) (task : ℕ) (b : Bool) : TeamState :=
  let thread := (s.task task).suspendingThread
  (s.modify task fun x => { x with isBlocked := b }).callSuspended .tied thread
    (if b then .block (s.task task).kind else .unblock) task

/-- The UNTIED branch, up to the look at the parent. -/
def setBlockedUntied (s : TeamState) (task : ℕ) (b : Bool) : TeamState :=
  let x := s.task task
  let c := if b then Call.block x.kind else .unblock
  let s := if x.undeferredAncestor = none then s.callFamily .untied x.parent x.taskgroup c task else s
  let s := s.call (.team .untied) c task
  let s := s.modify task fun x => { x with isBlocked := b }
  let s := s.callSuspended .untied x.suspendingThread c task
  s.addQueued (if b then -1 else 1)

/-- The parent of the task, when it is in GOMP_taskwait. -/
def waitingParent (s : TeamState) (task : ℕ) : Option ℕ :=
  (s.task task).parent.filter fun p => (s.task p).inTaskwait

/-- gomp_task_handle_blocking.  The recursion goes from a task to its parent, which has a smaller
number: the number of the task is fuel enough. -/
def handleBlocking : ℕ → TeamState → ℕ → TeamState
  | 0, s, _ => s
  | fuel + 1, s, task =>
    let x := s.task task
    match x.type with
    | .tied =>
      if x.kind ≠ .tiedSuspended || x.isBlocked = s.isBlockedTied task then s
      else s.setBlockedTied task (!x.isBlocked)
    | .untied =>
      if x.kind ≠ .waiting || x.isBlocked = s.isBlockedUntied task then s
      else
        let s := s.setBlockedUntied task (!x.isBlocked)
        match s.waitingParent task with
        | none => s
        | some p => handleBlocking fuel s p

def gompTaskHandleBlocking (s : TeamState) (task : ℕ) : TeamState := handleBlocking (task + 1) s task

/-- The wake-up of a parent that sits in GOMP_taskwait, as run_pre and the suspensions make it. -/
def handleParent (s : TeamState) (parent : Option ℕ) : TeamState :=
  match parent.filter fun p => (s.task p).inTaskwait with
  | none => s
  | some p => s.gompTaskHandleBlocking p

end TeamState

end GompUlt.Team
