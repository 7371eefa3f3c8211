import Mathlib
import GompUlt.Lib.Layout

/-! # The waiter queue behind a mutex

The queue of the tasks that wait for a lock lies in the same object as the lock word, at the next multiple of 64.
Critical sections allocate the object and clear one pointer of it; `omp_lock_t` has 128 bytes behind the lock word
and clears them all.
-/
namespace GompUlt.WaiterQueue
open Layout

/-! ## Layouts -/

def int : CType := ⟨4,4⟩
def ptr : CType := ⟨8,8⟩
def sizeT : CType := ⟨8,8⟩

/-- `gomp_mutex_t`, and `omp_lock_t` as the library sees it. -/
def gompMutexT : CType := int
def ompLockT : CType := int

/-- `omp_lock_t` as its user sees it. -/
def ompLockObject : CType := struct [⟨ompLockT.size,ompLockT.align⟩,⟨128,64⟩]

def priorityList : List CType := [int,ptr,ptr,ptr,ptr]
def prioSplayTree : List CType := [ptr,int,ptr]
def priorityQueue : List CType := [sizeT,sizeT,int,struct prioSplayTree,struct priorityList]

/-- The members of a `struct priority_queue`. -/
inductive Field where
  | numPriorityNode
  | numWaitingPriorityNode
  | highestPriority
  | root
  | numMarked
  | highestMarked
  | priority
  | tasks
  | lastParentDependsOn
  | firstRunningTask
  | blockedTasks
deriving DecidableEq, Repr

def Field.offset : Field → ℕ
  | .numPriorityNode => Layout.offset priorityQueue 0
  | .numWaitingPriorityNode => Layout.offset priorityQueue 1
  | .highestPriority => Layout.offset priorityQueue 2
  | .root => Layout.offset priorityQueue 3 + Layout.offset prioSplayTree 0
  | .numMarked => Layout.offset priorityQueue 3 + Layout.offset prioSplayTree 1
  | .highestMarked => Layout.offset priorityQueue 3 + Layout.offset prioSplayTree 2
  | .priority => Layout.offset priorityQueue 4 + Layout.offset priorityList 0
  | .tasks => Layout.offset priorityQueue 4 + Layout.offset priorityList 1
  | .lastParentDependsOn => Layout.offset priorityQueue 4 + Layout.offset priorityList 2
  | .firstRunningTask => Layout.offset priorityQueue 4 + Layout.offset priorityList 3
  | .blockedTasks => Layout.offset priorityQueue 4 + Layout.offset priorityList 4

def Field.size : Field → ℕ
  | .numPriorityNode | .numWaitingPriorityNode => sizeT.size
  | .highestPriority | .numMarked | .priority => int.size
  | _ => ptr.size

def read (m : Memory) (q : ℕ) (f : Field) : ℕ := load m (q + f.offset) f.size

/-- The members that `priority_queue_init` writes, in its order. -/
def initFields : List Field :=
  [.numPriorityNode,.numWaitingPriorityNode,.highestPriority,.root,.numMarked,.highestMarked,.tasks,.lastParentDependsOn,
    .firstRunningTask,.blockedTasks]

def priorityQueueInit (m : Memory) (q : ℕ) : Memory := initFields.foldl (fun m f => clear m (q + f.offset) f.size) m

def priorityQueueEmptyP (m : Memory) (q : ℕ) : Bool :=
  if read m q .root ≠ 0 then read m q .root = 0 else read m q .tasks = 0 && read m q .blockedTasks = 0

/-! ## Places -/

def gompGetMutexLockedSize : ℕ :=
  let smutex := gompMutexT.size
  if smutex % 64 = 0 then smutex + 128 else smutex + (64 - smutex % 64) + 128

/-- The common body of the two address computations, for a lock word of a size. -/
def lockedAddress (size p : ℕ) : ℕ :=
  if (p + size) % 2 ^ 64 % 64 = 0 then p + size else p + (size + (64 - (p + size) % 2 ^ 64 % 64))

def gompGetMutexLockedAddress (mutex : ℕ) : ℕ := lockedAddress gompMutexT.size mutex

def gompGetOmpLockLockedAddress (lock : ℕ) : ℕ := lockedAddress ompLockT.size lock

def gompMutexInit (m : Memory) (mutex : ℕ) : Memory := clear m mutex gompMutexT.size

/-- What `GOMP_critical_name_start` does to the block that it allocates. -/
def gompCriticalNameCreate (m : Memory) (nlock : ℕ) : Memory :=
  clear (gompMutexInit m nlock) (gompGetMutexLockedAddress nlock) ptr.size

def gompInitLock30 (m : Memory) (lock : ℕ) : Memory :=
  clear (gompMutexInit m lock) (gompGetOmpLockLockedAddress lock) 128

inductive Kind where
  | critical
  | ompLock
deriving DecidableEq, Repr

/-- The bytes of the block or of the object. -/
def Kind.extent : Kind → ℕ
  | .critical => gompGetMutexLockedSize
  | .ompLock => ompLockObject.size

/-- An aligned allocation lies at a multiple of 64; the user's object need only suit the lock word. -/
def Kind.align : Kind → ℕ
  | .critical => 64
  | .ompLock => ompLockT.align

/-- A block or an object in the address space. -/
structure Site where
  kind : Kind
  base : ℕ
  aligned : kind.align ∣ base
  fits : base + kind.extent ≤ 2 ^ 64

namespace Site
variable (S : Site)

/-- The address of the queue, computed anew at every use. -/
def queue : ℕ :=
  match S.kind with
  | .critical => gompGetMutexLockedAddress S.base
  | .ompLock => gompGetOmpLockLockedAddress S.base

/-- The memory after the creation of the critical section or the initialisation of the lock. -/
def initialise (m : Memory) : Memory :=
  match S.kind with
  | .critical => gompCriticalNameCreate m S.base
  | .ompLock => gompInitLock30 m S.base

/-- The queue lies within its object, apart from the mutex, and is one that `priority_queue_init` could have left. -/
structure Ready (m : Memory) : Prop where
  inside : S.base ≤ S.queue ∧ S.queue + (struct priorityQueue).size ≤ S.base + S.kind.extent
  apart : S.base + gompMutexT.size ≤ S.queue
  initialised : ∀ f ∈ initFields, read (S.initialise m) S.queue f = 0
  empty : priorityQueueEmptyP (S.initialise m) S.queue = true

/-- The members that the creation of a critical section leaves as they were are zero already. -/
def Clean (m : Memory) : Prop := ∀ f ∈ initFields, f ≠ .numPriorityNode → read m S.queue f = 0

end Site

example : (struct priorityQueue).size = 88 ∧ ompLockObject = ⟨192,64⟩ ∧ gompGetMutexLockedSize = 192 := by decide

/-! ## The members -/

theorem Field.bounds (f : Field) : f.offset + f.size ≤ (struct priorityQueue).size := by
  cases f <;> decide

/-- The first pointer of the queue is one member. -/
theorem Field.behind_first {f : Field} (h : f ≠ .numPriorityNode) : ptr.size ≤ f.offset := by
  revert h
  cases f <;> decide

theorem emptyP_of_initialised {m : Memory} {q : ℕ} (h : ∀ f ∈ initFields, read m q f = 0) : priorityQueueEmptyP m q = true := by
  have hroot := h .root (by decide)
  have htasks := h .tasks (by decide)
  have hblocked := h .blockedTasks (by decide)
  simp [priorityQueueEmptyP, hroot, htasks, hblocked]

namespace Site
variable {S : Site} {m : Memory}

/-- The address that the code computes. -/
theorem queue_eq : S.queue = roundUp (S.base + gompMutexT.size) 64 := by
  have hround : ∀ p, lockedAddress 4 p = roundUp (p + 4) 64 := by
    intro p
    unfold lockedAddress roundUp
    split <;> omega
  unfold queue
  cases S.kind with
  | critical => exact hround S.base
  | ompLock => exact hround S.base

/-- A lock word at a multiple of 4 leaves the queue at most 64 bytes behind it. -/
theorem queue_bounds : S.base + gompMutexT.size ≤ S.queue ∧ S.queue ≤ S.base + 64 := by
  have h : 4 ∣ S.base := by
    have haligned := S.aligned
    cases hk : S.kind with
    | critical =>
      rw [hk] at haligned
      exact Nat.dvd_trans (by decide) haligned
    | ompLock =>
      rw [hk] at haligned
      exact haligned
  rw [queue_eq]
  refine ⟨(roundUp_bounds (by decide)).1,?_⟩
  change roundUp (S.base + 4) 64 ≤ S.base + 64
  unfold roundUp
  omega

theorem inside : S.base ≤ S.queue ∧ S.queue + 128 ≤ S.base + S.kind.extent := by
  have h := S.queue_bounds
  have hextent : S.kind.extent = 192 := by
    cases S.kind <;> rfl
  rw [hextent]
  omega

/-- The members behind the first one, after the creation of a critical section. -/
theorem read_critical (hk : S.kind = .critical) {f : Field} (hf : f ≠ .numPriorityNode) :
    read (S.initialise m) S.queue f = read m S.queue f := by
  have hq := S.queue_bounds
  have hbehind := f.behind_first hf
  unfold read initialise gompCriticalNameCreate gompMutexInit
  unfold queue at hq ⊢
  rw [hk] at hq ⊢
  dsimp only at hq ⊢
  rw [load_clear_outside (by omega), load_clear_outside (by omega)]

theorem read_first (hk : S.kind = .critical) : read (S.initialise m) S.queue .numPriorityNode = 0 := by
  unfold read initialise gompCriticalNameCreate queue
  rw [hk]
  exact load_clear_inside (Nat.le_add_right _ _) (Nat.le_refl _)

theorem read_ompLock (hk : S.kind = .ompLock) (f : Field) : read (S.initialise m) S.queue f = 0 := by
  have hf := f.bounds
  have hsize : (struct priorityQueue).size = 88 := by decide
  unfold read initialise gompInitLock30 queue
  rw [hk]
  exact load_clear_inside (Nat.le_add_right _ _) (by dsimp only; omega)

/-- A lock is always made ready; a critical section only where the allocated bytes of the members that its creation
does not clear happen to be zero. -/
theorem waiter_queue_ready (S : Site) (m : Memory) : S.Ready m ↔ (S.kind = .critical → S.Clean m) := by
  have hsize : (struct priorityQueue).size = 88 := by decide
  have hin := S.inside
  have hready : (∀ f ∈ initFields, read (S.initialise m) S.queue f = 0) → S.Ready m := fun h =>
    ⟨by omega,S.queue_bounds.1,h,emptyP_of_initialised h⟩
  constructor
  · intro h hk f hf hne
    rw [← read_critical hk hne]
    exact h.initialised f hf
  · intro h
    refine hready fun f hf => ?_
    cases hk : S.kind with
    | critical =>
      by_cases hne : f = .numPriorityNode
      · rw [hne]
        exact read_first hk
      · rw [read_critical hk hne]
        exact h hk f hf hne
    | ompLock => exact read_ompLock hk f

/-- A block whose bytes were all ones. -/
def staleBlock : Site := ⟨.critical,64,by decide,by decide⟩

/-- Only the number of nodes is zero then, and the queue is not empty. -/
theorem waiter_queue_stale : ¬staleBlock.Ready (fun _ => 255) ∧
    read (staleBlock.initialise fun _ => 255) staleBlock.queue .numPriorityNode = 0 ∧
    read (staleBlock.initialise fun _ => 255) staleBlock.queue .tasks = 2 ^ 64 - 1 ∧
    priorityQueueEmptyP (staleBlock.initialise fun _ => 255) staleBlock.queue = false := by
  have hempty : priorityQueueEmptyP (staleBlock.initialise fun _ => 255) staleBlock.queue = false := by decide
  refine ⟨fun h => ?_,by decide,by decide,hempty⟩
  have := h.empty
  rw [hempty] at this
  contradiction

end Site

end GompUlt.WaiterQueue
