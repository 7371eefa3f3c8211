import GompUlt.Lib.Ring

/-! # One priority_list: the ring of ready and running tasks and the ring of blocked ones

The functions of priority_queue.h, task.h and task.c that work on one struct
priority_list, with every pointer store in the order of the source.  A node is named
by its task, so pnode[TYPE] of a task is the next and prev field of a link store that
is private to the queue.
-/
namespace GompUlt.Queue
open LinkRing

/-- enum priority_queue_type. -/
inductive PQType
  | teamTied | teamUntied | childrenTied | childrenUntied | taskgroupTied | taskgroupUntied
  | suspendedTied | suspendedUntied | locked | ignored
  deriving DecidableEq, Repr

/-- The enumerator values, which the source compares with <= and >=. -/
def PQType.toNat : PQType → ℕ
  | teamTied => 0 | teamUntied => 1 | childrenTied => 2 | childrenUntied => 3
  | taskgroupTied => 4 | taskgroupUntied => 5 | suspendedTied => 6 | suspendedUntied => 7
  | locked => 8 | ignored => 999

/-- The test type <= PQ_TEAM_UNTIED || type >= PQ_SUSPENDED_TIED. -/
def PQType.plain (type : PQType) : Bool :=
  decide (type.toNat ≤ PQType.teamUntied.toNat) || decide (type.toNat ≥ PQType.suspendedTied.toNat)

/-- enum priority_insert_type. -/
inductive InsertType
  | insertBegin | insertEnd
  deriving DecidableEq, Repr

/-- The four bits of gomp_queue_policy_var that start at the given index. -/
def policyBits (bitmap shift : ℕ) : InsertType :=
  if (bitmap >>> shift) &&& 0xF ≠ 0 then .insertBegin else .insertEnd

def insSuspChildPolicy (bitmap : ℕ) : InsertType := policyBits bitmap 8
def insSuspGroupPolicy (bitmap : ℕ) : InsertType := policyBits bitmap 12
def insUnblkChildPolicy (bitmap : ℕ) : InsertType := policyBits bitmap 16
def insUnblkGroupPolicy (bitmap : ℕ) : InsertType := policyBits bitmap 20
def insUnblkTeamPolicy (bitmap : ℕ) : InsertType := policyBits bitmap 20

/-- struct priority_list. -/
structure PriorityList (α : Type*) where
  priority : ℤ
  tasks : Option α
  lastParentDependsOn : Option α
  firstRunningTask : Option α
  blockedTasks : Option α
  deriving DecidableEq, Repr

variable {α : Type*} [DecidableEq α]

/-- A new list of a priority, as priority_tree_insert allocates it. -/
def PriorityList.empty (priority : ℤ) : PriorityList α :=
  { priority, tasks := none, lastParentDependsOn := none, firstRunningTask := none, blockedTasks := none }

/-- The branch of priority_list_insert for a blocked task, the same for all types. -/
def insertBlocked (h : Links α) (list : PriorityList α) (node : α) : Links α × PriorityList α :=
  match list.blockedTasks with
  | none => (h.selfLoop node,{ list with blockedTasks := some node })
  | some b => (h.splice node b (h.prev b),list)

def priorityListInsert (type : PQType) (h : Links α) (list : PriorityList α) (node : α) (pos : InsertType)
    (taskIsParentDependsOn taskIsBlocked : Bool) : Links α × PriorityList α :=
  if type.plain then
    if taskIsBlocked then insertBlocked h list node
    else match list.tasks with
      | none => (h.selfLoop node,{ list with tasks := some node })
      | some t =>
        (h.splice node t (h.prev t),if pos = .insertBegin then { list with tasks := some node } else list)
  else if taskIsBlocked then insertBlocked h list node
  else match list.tasks with
    | none =>
      (h.selfLoop node,
        { list with
          tasks := some node
          lastParentDependsOn := if taskIsParentDependsOn then some node else list.lastParentDependsOn })
    | some t =>
      if taskIsParentDependsOn then
        match pos, list.lastParentDependsOn with
        | .insertEnd, some p => (h.splice node (h.next p) p,{ list with lastParentDependsOn := some node })
        | _, none => (h.splice node t (h.prev t),{ list with tasks := some node, lastParentDependsOn := some node })
        | .insertBegin, some _ => (h.splice node t (h.prev t),{ list with tasks := some node })
      else
        match pos, list.lastParentDependsOn, list.firstRunningTask with
        | .insertBegin, none, _ => (h.splice node t (h.prev t),{ list with tasks := some node })
        | .insertEnd, _, none => (h.splice node t (h.prev t),list)
        | .insertBegin, some p, _ => (h.splice node (h.next p) p,list)
        | .insertEnd, _, some r =>
          (h.splice node r (h.prev r),if list.tasks = some r then { list with tasks := some node } else list)

def priorityListInsertRunning (h : Links α) (list : PriorityList α) (node : α) : Links α × PriorityList α :=
  match list.tasks with
  | none => (h.selfLoop node,{ list with tasks := some node, firstRunningTask := some node })
  | some t =>
    (h.splice node t (h.prev t),
      if list.firstRunningTask = none then { list with firstRunningTask := some node } else list)

/-- Removal of a member; the last component is the returned flag, which is set when
neither ring has a member left. -/
def priorityListRemove (type : PQType) (h : Links α) (list : PriorityList α) (node : α)
    (taskIsBlocked : Bool) : Links α × PriorityList α × Bool :=
  if taskIsBlocked then
    if list.blockedTasks = some node ∧ h.next node = node then
      (h,{ list with blockedTasks := none },list.tasks.isNone)
    else
      (h.detach node,
        if list.blockedTasks = some node then { list with blockedTasks := some (h.next node) } else list,
        false)
  else if type.plain then
    if list.tasks = some node ∧ h.next node = node then
      (h,{ list with tasks := none },list.blockedTasks.isNone)
    else
      (h.detach node,if list.tasks = some node then { list with tasks := some (h.next node) } else list,false)
  else if list.tasks = some node ∧ h.next node = node then
    (h,
      if list.firstRunningTask.isSome then { list with tasks := none, firstRunningTask := none }
      else { list with tasks := none, lastParentDependsOn := none },
      list.blockedTasks.isNone)
  else if list.tasks = some node then
    (h.detach node,
      if list.firstRunningTask = some node then
        { list with tasks := some (h.next node), firstRunningTask := some (h.next node) }
      else if list.lastParentDependsOn = some node then
        { list with tasks := some (h.next node), lastParentDependsOn := none }
      else { list with tasks := some (h.next node) },
      false)
  else
    (h.detach node,
      if list.firstRunningTask = some node then
        { list with
          firstRunningTask := if some (h.next node) ≠ list.tasks then some (h.next node) else none }
      else if list.lastParentDependsOn = some node then
        { list with lastParentDependsOn := some (h.prev node) }
      else list,
      false)

def priorityListUpgradeTask (h : Links α) (list : PriorityList α) (node : α) : Links α × PriorityList α :=
  if list.tasks = some node then
    (h,if list.lastParentDependsOn = none then { list with lastParentDependsOn := some node } else list)
  else match list.lastParentDependsOn, list.tasks with
    | none, some t =>
      if h.next node = t then (h,{ list with tasks := some node, lastParentDependsOn := some node })
      else
        let h := h.detach node
        (h.splice node t (h.prev t),{ list with tasks := some node, lastParentDependsOn := some node })
    | some p, _ =>
      if h.prev node = p then (h,{ list with lastParentDependsOn := some node })
      else if some (h.next node) = list.tasks then (h,{ list with tasks := some node })
      else
        let h := h.detach node
        (h.splice node (h.next p) p,{ list with lastParentDependsOn := some node })
    | none, none => (h,list)

def priorityListDowngradeTask (h : Links α) (list : PriorityList α) (node : α) : Links α × PriorityList α :=
  if list.tasks = some node then
    (h,
      { list with
        tasks := if h.next node ≠ node then some (h.next node) else list.tasks
        lastParentDependsOn := if list.lastParentDependsOn = some node then none else list.lastParentDependsOn
        firstRunningTask := if list.firstRunningTask = none then some node else list.firstRunningTask })
  else
    let list :=
      if list.lastParentDependsOn = some node then { list with lastParentDependsOn := some (h.prev node) }
      else list
    if some (h.next node) = list.tasks ∨ some (h.next node) = list.firstRunningTask then
      (h,{ list with firstRunningTask := some node })
    else match list.tasks with
      | some t =>
        let h := h.setNext (h.prev node) (h.next node)
        let h := h.setPrev (h.next node) (h.prev node)
        (h.splice node t (h.prev t),
          if list.firstRunningTask = none then { list with firstRunningTask := some node } else list)
      | none => (h,list)

/-- The position that priority_list_adjust_task asks for.  A task that sits in a taskwait
with children left goes to the end of its zone. -/
def adjustPosition (type : PQType) (policy : ℕ) (awaitsChildren : Bool) : InsertType :=
  if awaitsChildren then .insertEnd
  else if type = .childrenUntied then insSuspChildPolicy policy else insSuspGroupPolicy policy

def priorityListAdjustTask (type : PQType) (policy : ℕ) (h : Links α) (list : PriorityList α) (task : α)
    (awaitsChildren taskIsParentDependsOn : Bool) : Links α × PriorityList α :=
  let (h,list,_) := priorityListRemove type h list task false
  priorityListInsert type h list task (adjustPosition type policy awaitsChildren) taskIsParentDependsOn false

def priorityListBlockTask (type : PQType) (h : Links α) (list : PriorityList α) (node : α) :
    Links α × PriorityList α :=
  let (h,list,_) := priorityListRemove type h list node false
  priorityListInsert type h list node .insertBegin false true

/-- The position that priority_list_unblock_task asks for. -/
def unblockPosition (type : PQType) (policy : ℕ) (awaitsChildren : Bool) : InsertType :=
  if awaitsChildren then .insertEnd
  else if type = .childrenTied ∨ type = .childrenUntied ∨ type.toNat ≥ PQType.suspendedTied.toNat then
    insUnblkChildPolicy policy
  else if type = .taskgroupTied ∨ type = .taskgroupUntied then insUnblkGroupPolicy policy
  else insUnblkTeamPolicy policy

def priorityListUnblockTask (type : PQType) (policy : ℕ) (h : Links α) (list : PriorityList α) (task : α)
    (awaitsChildren taskIsParentDependsOn : Bool) : Links α × PriorityList α :=
  let (h,list,_) := priorityListRemove type h list task true
  priorityListInsert type h list task (unblockPosition type policy awaitsChildren) taskIsParentDependsOn false

end GompUlt.Queue
