import GompUlt.Lib.Run
import GompUlt.Lib.ListSegment
import GompUlt.Lib.Arrangement
import Mathlib

/-! # The pool of task states

Every thread keeps a local list of free states; surplus states go to a global list that is only
touched under a spin lock.  The size of the global list and the number of allocated states are read
without the lock.  A call is split at every access to what other threads may write; `next` fields
and local lists belong to one thread at a time.
-/
namespace GompUlt.StatePool
open Run ListSegment Arrangement

/-- `NUM_INIT_STATE`, the states a thread starts with. -/
def numInitState : ℕ := 1024

/-- `NUM_ADD_STATE`, the states allocated or fetched at once. -/
def numAddState : ℕ := 64

/-- `struct gomp_task_state_list`, without the chain of blocks to give back at the end. -/
structure TaskStateList where
  list : Option ℕ
  listSize : UInt32

/-- The front of a local list a call of `gomp_free_task_state` has picked: `state`, `state_last`, `picked`. -/
structure Batch where
  state : ℕ
  stateLast : ℕ
  picked : ℕ

/-- Where a thread stands.  `adding` is between the allocation of fresh states and the atomic
addition to `allocated_tasks`; the names with get and free are inside the two calls. -/
inductive Pc where
  | unborn
  | outside
  | adding (num : ℕ) (state : Option ℕ)
  | getLoop
  | getTry
  | getLocked
  | getGiveUp
  | getCut (batch : Batch)
  | getShrink (batch : Batch)
  | getUnlock (batch : Batch)
  | getTake (batch : Batch)
  | getAlloc
  | freeLoop (batch : Option Batch)
  | freeCheck (level surplus : UInt32) (batch : Option Batch)
  | freeTry (level : UInt32) (batch : Batch)
  | freeLocked (level : UInt32) (batch : Batch)
  | freeSplice (batch : Batch)
  | freePublish (batch : Batch)
  | freeGrow (batch : Batch)
  | freeUnlock

/-- The pool of a team of `n` threads.  States are numbered in the order of their allocation and
`handed` are those returned by `gomp_get_task_state` and not yet given back. -/
structure Pool (n : ℕ) where
  next : ℕ → Option ℕ
  threadList : Fin n → TaskStateList
  globalList : TaskStateList
  lock : Option (Fin n)
  allocatedTasks : UInt32
  numStates : ℕ
  handed : List ℕ
  pc : Fin n → Pc

variable {n : ℕ}

/-- `gomp_task_state_list_group_init`. -/
def init (n : ℕ) : Pool n where
  next _ := none
  threadList _ := ⟨none,0⟩
  globalList := ⟨none,0⟩
  lock := none
  allocatedTasks := 0
  numStates := 0
  handed := []
  pc _ := .unborn

def Pool.setPc (s : Pool n) (t : Fin n) (p : Pc) : Pool n := { s with pc := Function.update s.pc t p }

def Pool.setList (s : Pool n) (t : Fin n) (l : TaskStateList) : Pool n :=
  { s with threadList := Function.update s.threadList t l }

def Pool.setNext (s : Pool n) (x : ℕ) (v : Option ℕ) : Pool n := { s with next := Function.update s.next x v }

/-- `gomp_task_state_list_alloc`: `num` fresh states chained in order. -/
def stateListAlloc (s : Pool n) (num : ℕ) : Pool n :=
  { s with next := chain s.next s.numStates (num - 1), numStates := s.numStates + num }

/-- The `do … while (state && count)` walks of both calls: the last state met and how many there were. -/
def walk (next : ℕ → Option ℕ) : ℕ → ℕ → ℕ × ℕ
  | 0, state => (state,1)
  | count + 1, state =>
    match next state with
    | none => (state,1)
    | some state' =>
      if count = 0 then (state,1)
      else
        let w := walk next count state'
        (w.1,w.2 + 1)

/-- `gomp_task_state_list_init` for the list of a thread. -/
def listInit (s : Pool n) (t : Fin n) : Pool n :=
  ((stateListAlloc s numInitState).setList t ⟨some s.numStates,UInt32.ofNat numInitState⟩).setPc t
    (.adding numInitState none)

/-- Entry of `gomp_get_task_state`: the head of the local list when there is one. -/
def getEnter (s : Pool n) (t : Fin n) : Pool n :=
  match (s.threadList t).list with
  | some state =>
    { (s.setList t ⟨s.next state,(s.threadList t).listSize - 1⟩).setNext state none with handed := state :: s.handed }
  | none => s.setPc t .getLoop

/-- Under the lock: the walk to the last of at most `NUM_ADD_STATE` states of the global list. -/
def getLocked (s : Pool n) (t : Fin n) : Pool n :=
  match s.globalList.list with
  | none => s.setPc t .getGiveUp
  | some state =>
    let w := walk s.next numAddState state
    s.setPc t (.getCut ⟨state,w.1,w.2⟩)

/-- The store to `global_list.list`, which cuts the walked states off. -/
def getCut (s : Pool n) (t : Fin n) (batch : Batch) : Pool n :=
  { s with globalList := ⟨s.next batch.stateLast,s.globalList.listSize⟩ }.setPc t (.getShrink batch)

def getShrink (s : Pool n) (t : Fin n) (batch : Batch) : Pool n :=
  { s with globalList := ⟨s.globalList.list,s.globalList.listSize - UInt32.ofNat batch.picked⟩ }.setPc t
    (.getUnlock batch)

/-- After the unlock: the first state is returned, the others become the local list. -/
def getTake (s : Pool n) (t : Fin n) (batch : Batch) : Pool n :=
  let s := s.setNext batch.stateLast none
  let s := s.setList t ⟨s.next batch.state,(s.threadList t).listSize + UInt32.ofNat (batch.picked - 1)⟩
  { (s.setNext batch.state none).setPc t .outside with handed := batch.state :: s.handed }

/-- No state anywhere: `NUM_ADD_STATE` fresh ones, the first of them to be returned. -/
def getAlloc (s : Pool n) (t : Fin n) : Pool n :=
  let state := s.numStates
  let s := stateListAlloc s numAddState
  let s := s.setList t ⟨s.next state,UInt32.ofNat (numAddState - 1)⟩
  (s.setNext state none).setPc t (.adding numAddState (some state))

/-- Entry of `gomp_free_task_state`: the state becomes the head of the local list. -/
def freeEnter (s : Pool n) (t : Fin n) (state : ℕ) : Pool n :=
  let l := s.threadList t
  { ((s.setNext state l.list).setList t ⟨some state,l.listSize + 1⟩).setPc t (.freeLoop none) with
    handed := s.handed.erase state }

/-- The thresholds from one read of `allocated_tasks`. -/
def freeLoop (s : Pool n) (t : Fin n) (batch : Option Batch) : Pool n :=
  let level := s.allocatedTasks / UInt32.ofNat n
  let surplus := level / UInt32.ofNat n
  if surplus = 0 then s.setPc t .outside else s.setPc t (.freeCheck level surplus batch)

/-- The test with the unlocked read of the global size; the batch is picked on the first round only. -/
def freeCheck (s : Pool n) (t : Fin n) (level surplus : UInt32) (batch : Option Batch) : Option (Pool n) :=
  let threshold := level + surplus
  if (s.threadList t).listSize ≤ threshold ∨ level ≤ s.globalList.listSize then some (s.setPc t .outside)
  else
    match batch, (s.threadList t).list with
    | some batch, _ => some (s.setPc t (.freeTry level batch))
    | none, some state =>
      let w := walk s.next surplus.toNat state
      some (s.setPc t (.freeTry level ⟨state,w.1,w.2⟩))
    | none, none => none

/-- Under the lock: the batch leaves the local list and is linked to the head of the global one. -/
def freeSplice (s : Pool n) (t : Fin n) (batch : Batch) : Pool n :=
  let l := s.threadList t
  let s' := s.setList t ⟨s.next batch.stateLast,l.listSize - UInt32.ofNat batch.picked⟩
  (s'.setNext batch.stateLast s.globalList.list).setPc t (.freePublish batch)

def freePublish (s : Pool n) (t : Fin n) (batch : Batch) : Pool n :=
  { s with globalList := ⟨some batch.state,s.globalList.listSize⟩ }.setPc t (.freeGrow batch)

def freeGrow (s : Pool n) (t : Fin n) (batch : Batch) : Pool n :=
  { s with globalList := ⟨s.globalList.list,s.globalList.listSize + UInt32.ofNat batch.picked⟩ }.setPc t .freeUnlock

/-- The next access of a thread inside a call. -/
def advance (s : Pool n) (t : Fin n) : Option (Pool n) :=
  match s.pc t with
  | .unborn | .outside => none
  | .adding num state =>
    some { s.setPc t .outside with
      allocatedTasks := s.allocatedTasks + UInt32.ofNat num, handed := state.toList ++ s.handed }
  | .getLoop =>
    if s.globalList.listSize < UInt32.ofNat numAddState then some (s.setPc t .getAlloc) else some (s.setPc t .getTry)
  | .getTry =>
    if s.lock.isSome then some (s.setPc t .getLoop) else some ({ s with lock := some t }.setPc t .getLocked)
  | .getLocked => some (getLocked s t)
  | .getGiveUp => some ({ s with lock := none }.setPc t .getAlloc)
  | .getCut batch => some (getCut s t batch)
  | .getShrink batch => some (getShrink s t batch)
  | .getUnlock batch => some ({ s with lock := none }.setPc t (.getTake batch))
  | .getTake batch => some (getTake s t batch)
  | .getAlloc => some (getAlloc s t)
  | .freeLoop batch => some (freeLoop s t batch)
  | .freeCheck level surplus batch => freeCheck s t level surplus batch
  | .freeTry level batch =>
    if s.lock.isSome then some (s.setPc t (.freeLoop (some batch)))
    else some ({ s with lock := some t }.setPc t (.freeLocked level batch))
  | .freeLocked level batch =>
    if level ≤ s.globalList.listSize then some (s.setPc t .freeUnlock) else some (s.setPc t (.freeSplice batch))
  | .freeSplice batch => some (freeSplice s t batch)
  | .freePublish batch => some (freePublish s t batch)
  | .freeGrow batch => some (freeGrow s t batch)
  | .freeUnlock => some ({ s with lock := none }.setPc t .outside)

def Pc.isUnborn : Pc → Bool
  | .unborn => true
  | _ => false

def Pc.isOutside : Pc → Bool
  | .outside => true
  | _ => false

/-- A thread sets up its list, calls one of the two functions, or makes its next access. -/
inductive Event (n : ℕ) where
  | listInit (t : Fin n)
  | getTaskState (t : Fin n)
  | freeTaskState (t : Fin n) (state : ℕ)
  | advance (t : Fin n)

def step (s : Pool n) : Event n → Option (Pool n)
  | .listInit t => if (s.pc t).isUnborn then some (listInit s t) else none
  | .getTaskState t => if (s.pc t).isOutside then some (getEnter s t) else none
  | .freeTaskState t state =>
    if (s.pc t).isOutside ∧ state ∈ s.handed then some (freeEnter s t state) else none
  | .advance t => advance s t

/-- The state a call of `gomp_get_task_state` returns with this event. -/
def returned (s : Pool n) : Event n → Option ℕ
  | .getTaskState t => (s.threadList t).list
  | .advance t =>
    match s.pc t with
    | .adding _ state => state
    | .getTake batch => some batch.state
    | _ => none
  | _ => none

def Quiescent (s : Pool n) : Prop := ∀ t, (s.pc t).isUnborn ∨ (s.pc t).isOutside

instance (s : Pool n) : Decidable (Quiescent s) := inferInstanceAs (Decidable (∀ _, _))

end GompUlt.StatePool
