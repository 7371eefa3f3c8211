import GompUlt.Lib.Chain
import GompUlt.Lib.Run
import Mathlib

/-! # The dependences among the children of one task

The parent keeps for every address a chain of depend entries, newest first, and a task keeps
the vector of the tasks that wait for it.  The hash table is read as the function from an
address to the first entry of its chain.  An entry is named by its task and its index in
task->depend.
-/
namespace GompUlt.Depend
open LinkChain

/-- The fields of all sibling tasks and depend entries, and the depend_hash of their parent.
The last three fields record the history: the tasks newest first, the completed ones, and the
tasks in the order in which they were put in the ready queues. -/
structure DependState (τ α : Type*) where
  links : Fields (τ × ℕ)
  addr : τ × ℕ → α
  isIn : τ × ℕ → Bool
  redundant : τ × ℕ → Bool
  redundantOut : τ × ℕ → Bool
  dependHash : α → Option (τ × ℕ)
  dependCount : τ → ℕ
  dependers : τ → Option (List τ)
  numDependees : τ → ℤ
  created : List τ
  completed : List τ
  queued : List τ

variable {τ α : Type*} [DecidableEq τ] [DecidableEq α]

namespace DependState

/-- The vector tsk->dependers, empty where the pointer is NULL. -/
def dependersOf (s : DependState τ α) (tsk : τ) : List τ := (s.dependers tsk).getD []

def unfinished (s : DependState τ α) : List τ := s.created.filter (· ∉ s.completed)

/-- How many entries the tasks have in all; no chain is longer. -/
def entryCount (s : DependState τ α) : ℕ := (s.created.map s.dependCount).sum

def enqueue (s : DependState τ α) (task : τ) : DependState τ α := { s with queued := s.queued ++ [task] }

/-- The task appended to tsk->dependers, unless the vector already ends in it. -/
def addDepender (s : DependState τ α) (tsk task : τ) : DependState τ α :=
  match s.dependers tsk with
  | none =>
    { s with
      dependers := Function.update s.dependers tsk (some [task])
      numDependees := Function.update s.numDependees task (s.numDependees task + 1) }
  | some elem =>
    if elem.getLast? = some task then s
    else
      { s with
        dependers := Function.update s.dependers tsk (some (elem ++ [task]))
        numDependees := Function.update s.numDependees task (s.numDependees task + 1) }

/-- The loop over the entries of a chain, up to the first redundant_out one.  It returns the
last out entry and the last entry it met, and none when the chain does not end. -/
def scanChain (task : τ) (isIn : Bool) :
    ℕ → DependState τ α → Option (τ × ℕ) → Option (τ × ℕ) → Option (τ × ℕ) →
      Option (DependState τ α × Option (τ × ℕ) × Option (τ × ℕ))
  | _, s, none, out, last => some (s,out,last)
  | 0, _, some _, _, _ => none
  | fuel + 1, s, some ent, out, last =>
    if s.redundantOut ent then some (s,out,last)
    else if isIn && s.isIn ent then scanChain task isIn fuel s (s.links.next ent) out (some ent)
    else
      scanChain task isIn fuel (s.addDepender ent.1 task) (s.links.next ent)
        (if s.isIn ent then out else some ent) (some ent)

/-- The older out entry moved behind the last entry that is not redundant_out.  Both its
neighbours are dereferenced. -/
def moveOut (h : Fields (τ × ℕ)) (out last : τ × ℕ) : Option (Fields (τ × ℕ)) :=
  match h.next out,h.prev out with
  | some n,some p =>
    let h := h.setPrev n (some p)
    let h := h.setNext p (some n)
    let h := h.setNext out (h.next last)
    let h := h.setPrev out (some last)
    let h := h.setNext last (some out)
    some (h.setPrevOf (h.next out) (some out))
  | _,_ => none

/-- The fields of a new entry, before the hash table is looked at. -/
def initEntry (s : DependState τ α) (e : τ × ℕ) (nout : ℕ) (a : α) : DependState τ α :=
  { s with
    links := (s.links.setNext e none).setPrev e none
    addr := Function.update s.addr e a
    isIn := Function.update s.isIn e (decide (nout ≤ e.2))
    redundant := Function.update s.redundant e false
    redundantOut := Function.update s.redundantOut e false }

/-- An older out entry is no longer needed for deferred tasks once the new entry is out. -/
def retireOut (s : DependState τ α) (e : τ × ℕ) (out last : Option (τ × ℕ)) : Option (DependState τ α) :=
  match out,last with
  | some out,some last =>
    if s.isIn e then some s
    else if out = last then some { s with redundantOut := Function.update s.redundantOut out true }
    else
      (moveOut s.links out last).map fun links =>
        { s with links, redundantOut := Function.update s.redundantOut out true }
  | _,_ => some s

/-- One round of the loop of gomp_task_handle_depend. -/
def handleEntry (s : DependState τ α) (task : τ) (nout i : ℕ) (a : α) : Option (DependState τ α) :=
  let e := (task,i)
  let s := s.initEntry e nout a
  match s.dependHash a with
  | none => some { s with dependHash := Function.update s.dependHash a (some e) }
  | some slot =>
    if slot.1 = task then some { s with redundant := Function.update s.redundant e true }
    else
      (scanChain task (s.isIn e) s.entryCount s (some slot) none none).bind fun (s,out,last) =>
        let s := { s with
          links := (s.links.setNext e (some slot)).setPrev slot (some e)
          dependHash := Function.update s.dependHash a (some e) }
        s.retireOut e out last

def handleEntries (task : τ) (nout : ℕ) : ℕ → List α → DependState τ α → Option (DependState τ α)
  | _, [], s => some s
  | i, a :: depend, s => (s.handleEntry task nout i a).bind (handleEntries task nout (i + 1) depend)

/-- The new task enters the chains of its addresses and the vectors of the tasks it waits for. -/
def gompTaskHandleDepend (s : DependState τ α) (task : τ) (depend : List α) (nout : ℕ) :
    Option (DependState τ α) :=
  handleEntries task nout 0 depend
    { s with
      dependCount := Function.update s.dependCount task depend.length
      numDependees := Function.update s.numDependees task 0 }

/-- GOMP_task for a deferred task: gomp_init_task, the depend branch, and the queues unless
the task has to wait. -/
def gompTask (s : DependState τ α) (task : τ) (depend : List α) (nout : ℕ) : Option (DependState τ α) :=
  let s := { s with
    created := task :: s.created
    dependers := Function.update s.dependers task none
    dependCount := Function.update s.dependCount task 0 }
  if depend = [] then some (s.enqueue task)
  else
    (s.gompTaskHandleDepend task depend nout).map fun s =>
      if s.numDependees task ≠ 0 then s else s.enqueue task

/-- An entry leaves its chain; none stands for the abort. -/
def unlinkEntry (childTask : τ) (s : DependState τ α) (i : ℕ) : Option (DependState τ α) :=
  let e := (childTask,i)
  if s.redundant e then some s
  else
    let links := s.links.setPrevOf (s.links.next e) (s.links.prev e)
    match s.links.prev e with
    | some p => some { s with links := links.setNext p (s.links.next e) }
    | none =>
      if s.dependHash (s.addr e) = some e then
        some { s with links, dependHash := Function.update s.dependHash (s.addr e) (s.links.next e) }
      else none

def gompTaskRunPostHandleDependHash (s : DependState τ α) (childTask : τ) : Option (DependState τ α) :=
  (List.range (s.dependCount childTask)).foldlM (unlinkEntry childTask) s

/-- One dependence of the task is met; the last one makes it ready. -/
def releaseDepender (r : DependState τ α × ℕ) (task : τ) : DependState τ α × ℕ :=
  let s := { r.1 with numDependees := Function.update r.1.numDependees task (r.1.numDependees task - 1) }
  if s.numDependees task ≠ 0 then (s,r.2) else (s.enqueue task,r.2 + 1)

/-- The tasks that wait for the child have one dependence less; the number of those that
became ready is returned. -/
def gompTaskRunPostHandleDependers (s : DependState τ α) (childTask : τ) : DependState τ α × ℕ :=
  let r := (s.dependersOf childTask).foldl releaseDepender (s,0)
  ({ r.1 with dependers := Function.update r.1.dependers childTask none },r.2)

/-- What completion of the child does to the dependences, while its parent is unfinished. -/
def gompTaskRunPostHandleDepend (s : DependState τ α) (childTask : τ) : Option (DependState τ α × ℕ) :=
  if s.dependCount childTask = 0 then some (s,0)
  else
    (s.gompTaskRunPostHandleDependHash childTask).map fun s =>
      if s.dependers childTask = none then (s,0) else s.gompTaskRunPostHandleDependers childTask

end DependState

/-- Creation of a sibling with its depend array, and completion of one. -/
inductive DependOp (τ α : Type*)
  | create (task : τ) (depend : List α) (nout : ℕ)
  | complete (task : τ)
  deriving DecidableEq, Repr

/-- A task is created once, and completes once, when it waits for nothing.  A task without
depend entries never has its num_dependees set. -/
def DependOp.Allowed (s : DependState τ α) : DependOp τ α → Prop
  | .create task _ _ => task ∉ s.created
  | .complete task =>
    task ∈ s.created ∧ task ∉ s.completed ∧ (s.dependCount task = 0 ∨ s.numDependees task = 0)

instance (s : DependState τ α) (op : DependOp τ α) : Decidable (op.Allowed s) := by
  cases op <;> unfold DependOp.Allowed <;> infer_instance

def dependExec (s : DependState τ α) : DependOp τ α → Option (DependState τ α)
  | .create task depend nout => s.gompTask task depend nout
  | .complete task =>
    (s.gompTaskRunPostHandleDepend task).map fun r => { r.1 with completed := task :: r.1.completed }

def dependStep (s : DependState τ α) (op : DependOp τ α) : Option (DependState τ α) :=
  if op.Allowed s then dependExec s op else none

end GompUlt.Depend
