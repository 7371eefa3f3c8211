import GompUlt.Queue.PriorityList
import GompUlt.Queue.SplayTree

/-! # A priority_queue: one list for priority 0, a splay tree of lists otherwise

The functions of priority_queue.c, priority_queue.h, task.h and task.c on a whole queue.
None stands for a step the program does not survive: the NULL list that a failed lookup
returns, and the fatal error on a duplicate tree node.
-/
namespace GompUlt.Queue
open LinkRing

/-- enum gomp_task_kind. -/
inductive TaskKind
  | implicit | undeferred | waiting | tied | tiedSuspended | asyncRunning
  deriving DecidableEq, Repr

/-- The fields of a task that no queue operation changes. -/
structure TaskEnv (α : Type*) where
  priority : α → ℤ
  ultVar : α → Bool

/-- struct priority_queue, with the key.l of every tree node and the pnode of every task. -/
structure PriorityQueue (α : Type*) where
  numPriorityNode : ℤ
  numWaitingPriorityNode : ℤ
  highestPriority : ℤ
  t : SplayTree ℤ
  key : ℤ → PriorityList α
  l : PriorityList α
  links : Links α

variable {α : Type*} [DecidableEq α]

namespace PriorityQueue

def setKey (q : PriorityQueue α) (priority : ℤ) (r : Links α × PriorityList α) : PriorityQueue α :=
  { q with links := r.1, key := Function.update q.key priority r.2 }

def setL (q : PriorityQueue α) (r : Links α × PriorityList α) : PriorityQueue α :=
  { q with links := r.1, l := r.2 }

/-- The store of highest_priority that follows a change of highest_marked. -/
def storeHighest (q : PriorityQueue α) (r : SplayTree ℤ × Bool) : PriorityQueue α :=
  { q with
    t := r.1
    highestPriority := if r.2 then r.1.highestMarked.getD 0 else q.highestPriority }

def addWaiting (q : PriorityQueue α) (d : ℤ) : PriorityQueue α :=
  { q with numWaitingPriorityNode := q.numWaitingPriorityNode + d }

def addNodes (q : PriorityQueue α) (d : ℤ) : PriorityQueue α :=
  { q with numPriorityNode := q.numPriorityNode + d }

end PriorityQueue

def priorityQueueMultiP (q : PriorityQueue α) : Bool := q.t.root ≠ .null

def priorityQueueEmptyP (q : PriorityQueue α) : Bool :=
  if priorityQueueMultiP q then q.t.root = .null else q.l.tasks.isNone && q.l.blockedTasks.isNone

/-- The lookup splays the tree even when the priority is missing. -/
def priorityQueueLookupPriority (q : PriorityQueue α) (priority : ℤ) : PriorityQueue α × Bool :=
  if q.t.root = .null then (q,false)
  else
    let r := splayTreeLookup q.t priority
    ({ q with t := r.1 },r.2)

/-- The transfer of the priority 0 items to the tree, which priority_tree_insert and
priority_tree_insert_running both begin with. -/
def transferPriorityZero (env : TaskEnv α) (kind : α → TaskKind) (q : PriorityQueue α) (node : α) :
    Option (PriorityQueue α) :=
  if q.t.root = .null then
    match q.l.tasks with
    | none => some q
    | some first =>
      let q' := { q with
        key := Function.update q.key 0 { q.l with priority := 0 }
        l := { q.l with tasks := none, blockedTasks := none } }
      if env.ultVar node then
        (splayTreeHpListInsert q.t 0 (kind first = .waiting)).map fun r => { q' with t := r.1 }
      else (splayTreeInsert q.t 0).map fun t => { q' with t }
  else some q

/-- The rest of priority_tree_insert: the list of the priority is found or made, the
HP-LIST brought up to date, and the task put in. -/
def insertInTree (env : TaskEnv α) (type : PQType) (q : PriorityQueue α) (node : α) (priority : ℤ)
    (pos : InsertType) (taskIsParentDependsOn taskIsBlocked : Bool) : Option (PriorityQueue α) :=
  let (q,found) := priorityQueueLookupPriority q priority
  let q? :=
    if found then
      if env.ultVar node && !taskIsBlocked then
        some (q.storeHighest (splayTreeHpListMarkNode q.t priority true))
      else some q
    else
      let q := { q with key := Function.update q.key priority (PriorityList.empty priority) }
      if env.ultVar node then
        (splayTreeHpListInsert q.t priority (!taskIsBlocked)).map fun r =>
          q.storeHighest (r.1,r.2 && !taskIsBlocked)
      else (splayTreeInsert q.t priority).map fun t => { q with t }
  q?.map fun q => q.setKey priority
    (priorityListInsert type q.links (q.key priority) node pos taskIsParentDependsOn taskIsBlocked)

def priorityTreeInsert (env : TaskEnv α) (kind : α → TaskKind) (type : PQType) (q : PriorityQueue α) (node : α)
    (priority : ℤ) (pos : InsertType) (taskIsParentDependsOn taskIsBlocked : Bool) :
    Option (PriorityQueue α) :=
  (transferPriorityZero env kind q node).bind fun q =>
    insertInTree env type q node priority pos taskIsParentDependsOn taskIsBlocked

/-- The rest of priority_tree_insert_running. -/
def insertRunningInTree (env : TaskEnv α) (q : PriorityQueue α) (node : α) (priority : ℤ) :
    Option (PriorityQueue α) :=
  let (q,found) := priorityQueueLookupPriority q priority
  let q? :=
    if found then some q
    else
      let q := { q with key := Function.update q.key priority (PriorityList.empty priority) }
      if env.ultVar node then (splayTreeHpListInsert q.t priority false).map fun r => { q with t := r.1 }
      else (splayTreeInsert q.t priority).map fun t => { q with t }
  q?.map fun q => q.setKey priority (priorityListInsertRunning q.links (q.key priority) node)

def priorityTreeInsertRunning (env : TaskEnv α) (kind : α → TaskKind) (q : PriorityQueue α) (node : α)
    (priority : ℤ) : Option (PriorityQueue α) :=
  (transferPriorityZero env kind q node).bind fun q => insertRunningInTree env q node priority

/-- The test on the first task of a list that leaves its mark alone. -/
def headIsReady (kind : α → TaskKind) (list : PriorityList α) : Bool :=
  match list.tasks with
  | none => false
  | some first => kind first = .waiting || kind first = .tiedSuspended

def priorityTreeRemove (env : TaskEnv α) (kind : α → TaskKind) (type : PQType) (q : PriorityQueue α)
    (node : α) (taskIsBlocked : Bool) : Option (PriorityQueue α) :=
  let priority := env.priority node
  let (q,found) := priorityQueueLookupPriority q priority
  if found then
    let (links,list,empty) := priorityListRemove type q.links (q.key priority) node taskIsBlocked
    let q := q.setKey priority (links,list)
    if empty then
      let q :=
        if env.ultVar node then q.storeHighest (splayTreeHpListRemove q.t priority)
        else { q with t := splayTreeRemove q.t priority }
      some (q.setKey priority (q.links,{ q.key priority with tasks := none, blockedTasks := none }))
    else if env.ultVar node && !taskIsBlocked && !headIsReady kind list then
      some (q.storeHighest (splayTreeHpListMarkNode q.t priority false))
    else some q
  else none

def priorityQueueInsert (env : TaskEnv α) (kind : α → TaskKind) (type : PQType) (q : PriorityQueue α) (task : α)
    (priority : ℤ) (pos : InsertType) (taskIsParentDependsOn taskIsBlocked : Bool) :
    Option (PriorityQueue α) :=
  let q? :=
    if priorityQueueMultiP q || priority > 0 then
      priorityTreeInsert env kind type q task priority pos taskIsParentDependsOn taskIsBlocked
    else some (q.setL (priorityListInsert type q.links q.l task pos taskIsParentDependsOn taskIsBlocked))
  q?.map fun q => (q.addNodes 1).addWaiting (if taskIsBlocked then 0 else 1)

def priorityQueueInsertRunning (env : TaskEnv α) (kind : α → TaskKind) (q : PriorityQueue α) (task : α)
    (priority : ℤ) : Option (PriorityQueue α) :=
  let q? :=
    if priorityQueueMultiP q || priority > 0 then priorityTreeInsertRunning env kind q task priority
    else some (q.setL (priorityListInsertRunning q.links q.l task))
  q?.map fun q => q.addNodes 1

/-- The second component is the returned flag. -/
def priorityQueueRemove (env : TaskEnv α) (kind : α → TaskKind) (type : PQType) (q : PriorityQueue α)
    (task : α) (taskIsBlocked : Bool) : Option (PriorityQueue α × Bool) :=
  let r? :=
    if priorityQueueMultiP q then
      (priorityTreeRemove env kind type q task taskIsBlocked).map fun q => (q,decide (q.t.root = .null))
    else
      let (links,l,empty) := priorityListRemove type q.links q.l task taskIsBlocked
      some (q.setL (links,l),empty)
  r?.map fun r => ((r.1.addNodes (-1)).addWaiting (if !taskIsBlocked && type.plain then -1 else 0),r.2)

def priorityTreeAdjustTask (type : PQType) (policy : ℕ) (q : PriorityQueue α) (task : α) (priority : ℤ)
    (awaitsChildren taskIsParentDependsOn : Bool) : Option (PriorityQueue α) :=
  let (q,found) := priorityQueueLookupPriority q priority
  if found then
    let q := q.setKey priority
      (priorityListAdjustTask type policy q.links (q.key priority) task awaitsChildren taskIsParentDependsOn)
    some (q.storeHighest (splayTreeHpListMarkNode q.t priority true))
  else none

def priorityQueueAdjustTask (env : TaskEnv α) (type : PQType) (policy : ℕ) (q : PriorityQueue α) (task : α)
    (awaitsChildren taskIsParentDependsOn : Bool) : Option (PriorityQueue α) :=
  let q? :=
    if priorityQueueMultiP q || env.priority task > 0 then
      priorityTreeAdjustTask type policy q task (env.priority task) awaitsChildren taskIsParentDependsOn
    else some (q.setL (priorityListAdjustTask type policy q.links q.l task awaitsChildren taskIsParentDependsOn))
  q?.map fun q => q.addWaiting 1

def priorityTreeBlockTask (kind : α → TaskKind) (type : PQType) (q : PriorityQueue α) (node : α)
    (priority : ℤ) : Option (PriorityQueue α) :=
  let (q,found) := priorityQueueLookupPriority q priority
  if found then
    let q := q.setKey priority (priorityListBlockTask type q.links (q.key priority) node)
    if headIsReady kind (q.key priority) then some q
    else some (q.storeHighest (splayTreeHpListMarkNode q.t priority false))
  else none

def priorityQueueBlockTask (env : TaskEnv α) (kind : α → TaskKind) (type : PQType) (q : PriorityQueue α)
    (task : α) : Option (PriorityQueue α) :=
  let q? :=
    if priorityQueueMultiP q || env.priority task > 0 then
      priorityTreeBlockTask kind type q task (env.priority task)
    else some (q.setL (priorityListBlockTask type q.links q.l task))
  q?.map fun q => q.addWaiting (if kind task = .waiting || kind task = .tiedSuspended then -1 else 0)

def priorityTreeUnblockTask (kind : α → TaskKind) (type : PQType) (policy : ℕ) (q : PriorityQueue α) (task : α)
    (priority : ℤ) (awaitsChildren taskIsParentDependsOn : Bool) : Option (PriorityQueue α) :=
  let (q,found) := priorityQueueLookupPriority q priority
  if found then
    let q := q.setKey priority
      (priorityListUnblockTask type policy q.links (q.key priority) task awaitsChildren taskIsParentDependsOn)
    if kind task = .waiting || kind task = .tiedSuspended then
      some (q.storeHighest (splayTreeHpListMarkNode q.t priority true))
    else some q
  else none

def priorityQueueUnblockTask (env : TaskEnv α) (kind : α → TaskKind) (type : PQType) (policy : ℕ)
    (q : PriorityQueue α) (task : α) (awaitsChildren taskIsParentDependsOn : Bool) :
    Option (PriorityQueue α) :=
  let q? :=
    if priorityQueueMultiP q || env.priority task > 0 then
      priorityTreeUnblockTask kind type policy q task (env.priority task) awaitsChildren taskIsParentDependsOn
    else some (q.setL (priorityListUnblockTask type policy q.links q.l task awaitsChildren taskIsParentDependsOn))
  q?.map fun q => q.addWaiting 1

def priorityQueueUpgradeTask (env : TaskEnv α) (q : PriorityQueue α) (task : α) : Option (PriorityQueue α) :=
  if priorityQueueMultiP q then
    let (q,found) := priorityQueueLookupPriority q (env.priority task)
    if found then
      some (q.setKey (env.priority task) (priorityListUpgradeTask q.links (q.key (env.priority task)) task))
    else none
  else some (q.setL (priorityListUpgradeTask q.links q.l task))

def priorityQueueDowngradeTask (env : TaskEnv α) (kind : α → TaskKind) (q : PriorityQueue α) (task : α) :
    Option (PriorityQueue α) :=
  let priority := env.priority task
  let q? :=
    if priorityQueueMultiP q then
      let (q,found) := priorityQueueLookupPriority q priority
      if found then
        let q := q.setKey priority (priorityListDowngradeTask q.links (q.key priority) task)
        -- the first task may be the downgraded one, whose kind is still GOMP_TASK_WAITING
        let ready := (q.key priority).tasks.any fun first => first ≠ task ∧ kind first = .waiting
        if env.ultVar task && !ready then
          some (q.storeHighest (splayTreeHpListMarkNode q.t priority false))
        else some q
      else none
    else some (q.setL (priorityListDowngradeTask q.links q.l task))
  q?.map fun q => q.addWaiting (-1)

/-- The state that priority_queue_init makes; the key and pnode fields are unset memory. -/
def priorityQueueInit (key : ℤ → PriorityList α) (fields : LinkChain.Fields ℤ) (links : Links α) :
    PriorityQueue α :=
  { numPriorityNode := 0
    numWaitingPriorityNode := 0
    highestPriority := 0
    t := { root := .null, numMarked := 0, highestMarked := none, marked := fun _ => false, fields }
    key
    l := PriorityList.empty 0
    links }

end GompUlt.Queue
