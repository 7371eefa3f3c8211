import Mathlib
import GompUlt.Queue.NextTask
import GompUlt.Team.TeamStep

/-! # The cheap checks and the selection of a task

A thread that waits polls the counters of the queues it may take tasks from, without the team lock.  With the lock it
looks into the rings of the same queues.  The counters count a task by its place, the search asks for its kind as well:
a task that came to the queues without becoming WAITING is counted and never found.
-/
namespace GompUlt.RunnableTasks
open LinkRing Queue Run
open Team (TaskType QRef)

/-- struct gomp_task, as far as the choice of a task reads it.  `fn` tells whether the pointer is not NULL. -/
structure Task where
  priority : ℕ
  type : TaskType
  kind : TaskKind
  parentDependsOn : Bool
  fn : Bool
  ascendingTiedTask : Option ℕ
  deriving DecidableEq, Repr

/-- A team; lastTiedTask is a field of the thread. -/
structure State where
  task : ℕ → Task
  lastTiedTask : ℕ → Option ℕ
  queue : QRef → PriorityQueue ℕ

namespace State
variable (s : State) (thr task : ℕ)

def env : TaskEnv ℕ := { priority := fun n => (s.task n).priority, ultVar := fun _ => true }

def kind (n : ℕ) : TaskKind := (s.task n).kind

def parentDependsOn (n : ℕ) : Bool := (s.task n).parentDependsOn

/-- The test task->type == GOMP_TASK_TYPE_UNTIED && thr->last_tied_task == task->ascending_tied_task. -/
def ownTied (last task : ℕ) : Bool :=
  (s.task task).type = .untied && some last = (s.task task).ascendingTiedTask

section Checks

/-- The value that `num_waiting_priority_node > 0` adds to ret. -/
def counted (q : QRef) : ℕ := if (s.queue q).numWaitingPriorityNode > 0 then 1 else 0

/-- The tests that the three checks have in common. -/
def checkQueues : ℕ :=
  s.counted (.suspended .tied thr) + s.counted (.suspended .untied thr) +
    (match s.lastTiedTask thr with
      | some last =>
        s.counted (.children .tied last) +
          (if s.ownTied last task then s.counted (.children .tied task) else 0) +
          s.counted (.children .untied last)
      | none => s.counted (.children .tied task) + s.counted (.team .tied)) +
    s.counted (.children .untied task) + s.counted (.team .untied)

def gompCheckQueuesWhileLocked : ℕ := s.checkQueues thr task

def gompCheckQueuesWhileUndeferred : ℕ := s.checkQueues thr task

def gompCheckQueuesWhileBlocked : ℤ :=
  if (s.queue (.children .tied task)).numPriorityNode + (s.queue (.children .untied task)).numPriorityNode = 0 then 0
  else
    let ret := s.checkQueues thr task
    if ret ≠ 0 then ret else -1

/-- The tests that gomp_blocked_task_switch makes before it gives the lock away. -/
def blockedTaskTryToSchedule : Bool :=
  let waiting (q : QRef) : Bool := (s.queue q).numWaitingPriorityNode > 0
  waiting (.suspended .tied thr) || waiting (.suspended .untied thr) ||
    (match s.lastTiedTask thr with
      | some last =>
        waiting (.children .tied last) ||
          (s.ownTied last task && waiting (.children .tied task)) ||
          waiting (.children .untied last)
      | none => waiting (.children .tied task) || waiting (.team .tied)) ||
    waiting (.children .untied task) || waiting (.team .untied)

end Checks

section Selection

def nextTask (q1 : QRef) (q2 : Option QRef) : Option ℕ :=
  (priorityQueueNextTask s.env s.kind s.parentDependsOn (s.queue q1) (q2.map s.queue)).1

def emptyP (q : QRef) : Bool := priorityQueueEmptyP (s.queue q)

/-- The entries of the array next, with t of them in use. -/
def gompGetRunnableTasks : List (Option ℕ) :=
  (if !s.emptyP (.suspended .tied thr) then [priorityQueueNextSuspendedTask (s.queue (.suspended .tied thr))]
    else []) ++
  (if !s.emptyP (.suspended .untied thr) then [priorityQueueNextSuspendedTask (s.queue (.suspended .untied thr))]
    else []) ++
  match s.lastTiedTask thr with
  | some last =>
    (if !s.emptyP (.children .tied last) || !s.emptyP (.children .untied last) then
      [s.nextTask (.children .tied last) (some (.children .untied last))] else []) ++
    (if s.ownTied last task && !s.emptyP (.children .tied task) then
      [s.nextTask (.children .tied task) none] else []) ++
    (if !s.emptyP (.children .untied task) || !s.emptyP (.team .untied) then
      [s.nextTask (.children .untied task) (some (.team .untied))] else [])
  | none =>
    (if !s.emptyP (.children .tied task) || !s.emptyP (.children .untied task) then
      [s.nextTask (.children .tied task) (some (.children .untied task))] else []) ++
    (if !s.emptyP (.team .tied) || !s.emptyP (.team .untied) then
      [s.nextTask (.team .tied) (some (.team .untied))] else [])

/-- next_task, priority and task_is_parent_depends_on after one more turn of the loop. -/
def pickHigher (r : Option ℕ × ℤ × Bool) : Option ℕ → Option ℕ × ℤ × Bool
  | none => r
  | some n =>
    let x := s.task n
    if x.fn && (x.priority > r.2.1 || (x.priority = r.2.1 && x.parentDependsOn && !r.2.2)) then
      (some n,x.priority,x.parentDependsOn)
    else r

def getHigherPriorityTask (next : List (Option ℕ)) : Option ℕ := (next.foldl s.pickHigher (none,-1,false)).1

def selected : Option ℕ := s.getHigherPriorityTask (s.gompGetRunnableTasks thr task)

end Selection

/-- The queues from which the thread may take a task while it runs this one.  Once it has TIED tasks, a TIED task must
be a child of the last of them, or of an UNTIED task for which that one is the nearest TIED ancestor. -/
def mayUse (q : QRef) : Prop :=
  match q with
  | .suspended _ t => t = thr
  | .children type t =>
    match s.lastTiedTask thr with
    | none => t = task
    | some last => t = last ∨ (t = task ∧
        (type = .untied ∨ ((s.task task).type = .untied ∧ (s.task task).ascendingTiedTask = some last)))
  | .team type => type = .untied ∨ s.lastTiedTask thr = none
  | .taskgroup _ _ | .locked _ => False

end State

/-- Rings and counters agree in every queue, a running task is not WAITING, and there are no target tasks. -/
structure WellFormed extends State where
  zones : QRef → ℤ → Zones ℕ
  rep : ∀ q, ListRep q.plain toState.env (queue q) (zones q) ∨
    (TreeRep q.plain toState.env (queue q).l (queue q) (zones q) ∧
      ((queue q).t.root = .null → (queue q).l.tasks = none))
  numPriorityNode : ∀ q, (queue q).numPriorityNode = Set.ncard {n | ∃ p, n ∈ (zones q p).members}
  numWaitingPriorityNode : ∀ q, (queue q).numWaitingPriorityNode = Set.ncard {n | ∃ p, n ∈ (zones q p).ready}
  running : ∀ q p, ∀ n ∈ (zones q p).running, (task n).kind ≠ .waiting
  fn : ∀ q p, ∀ n ∈ (zones q p).members, (task n).fn = true

namespace WellFormed
variable (w : WellFormed) (thr task : ℕ)

def zoned (q : QRef) : Zoned w.env := { plain := q.plain, q := w.queue q, zones := w.zones q, rep := w.rep q }

/-- The tasks that the queue counts as ready. -/
def readyIn (q : QRef) : Set ℕ := {n | ∃ p, n ∈ (w.zones q p).ready}

/-- The tasks that are ready in a queue of the thread. -/
def ready : Set ℕ := {n | ∃ q, w.mayUse thr task q ∧ n ∈ w.readyIn q}

def hasChildren : Prop := ∃ type p n, n ∈ (w.zones (.children type task) p).members

/-- The check agrees with the selection, which takes one of the ready tasks of the highest priority. -/
structure Agrees : Prop where
  locked : 0 < w.gompCheckQueuesWhileLocked thr task ↔ w.selected thr task ≠ none
  undeferred : 0 < w.gompCheckQueuesWhileUndeferred thr task ↔ w.selected thr task ≠ none
  blocked : 0 < w.gompCheckQueuesWhileBlocked thr task ↔ w.selected thr task ≠ none ∧ w.hasChildren task
  switch : w.blockedTaskTryToSchedule thr task = true ↔ w.selected thr task ≠ none
  entries : (w.gompGetRunnableTasks thr task).length ≤ 5
  highest : ∀ n, w.selected thr task = some n → Highest w.env (w.ready thr task) n

/-- The test that a search makes of the first task of a list. -/
def canStart (q : QRef) (n : ℕ) : Bool :=
  match q with
  | .suspended _ _ => true
  | _ => (w.task n).kind = .waiting

/-- The first tasks of the lists of a queue, as far as they can start. -/
def leads (q : QRef) : Set ℕ := (w.zoned q).leads (w.canStart q)

/-- The first task of some list can start and has at least the priority of the given task. -/
def Led (n : ℕ) : Prop :=
  ∃ q, w.mayUse thr task q ∧ ∃ m ∈ w.leads q, (w.task n).priority ≤ (w.task m).priority

end WellFormed

section Pick
variable {s : State} {r : Option ℕ × ℤ × Bool} {seen : Set ℕ}

/-- The variables of get_higher_priority_task after the tasks it has seen. -/
def Picked (s : State) (r : Option ℕ × ℤ × Bool) (seen : Set ℕ) : Prop :=
  (r.1 = none ∧ r.2.1 = -1 ∧ seen = ∅) ∨ ∃ b, r.1 = some b ∧ r.2.1 = (s.task b).priority ∧ Highest s.env seen b

theorem Picked.pickHigher (h : Picked s r seen) {n : ℕ} (hn : (s.task n).fn = true) :
    Picked s (s.pickHigher r (some n)) (insert n seen) := by
  have hr : ∀ m ∈ seen, ((s.task m).priority : ℤ) ≤ r.2.1 := by
    rcases h with ⟨-,-,rfl⟩ | ⟨b,-,hp,hb⟩
    · simp
    · exact fun m hm => hp ▸ hb.2 m hm
  simp only [State.pickHigher, hn, Bool.true_and]
  split
  · next hc =>
    have hle : r.2.1 ≤ (s.task n).priority := by
      simp only [gt_iff_lt, Bool.or_eq_true, decide_eq_true_eq, Bool.and_eq_true] at hc
      omega
    refine .inr ⟨n,rfl,rfl,Set.mem_insert n seen,?_⟩
    rintro m (rfl | hm)
    · exact le_rfl
    · exact (hr m hm).trans hle
  · next hc =>
    have hlt : ((s.task n).priority : ℤ) ≤ r.2.1 := by
      simp only [gt_iff_lt, Bool.or_eq_true, decide_eq_true_eq, not_or] at hc
      omega
    rcases h with ⟨-,hp,-⟩ | ⟨b,hb,hp,hbest⟩
    · omega
    · refine .inr ⟨b,hb,hp,.inr hbest.1,?_⟩
      rintro m (rfl | hm)
      · exact hlt.trans hp.le
      · exact hbest.2 m hm

theorem Picked.foldl (next : List (Option ℕ)) (h : Picked s r seen)
    (hfn : ∀ n, some n ∈ next → (s.task n).fn = true) :
    Picked s (next.foldl s.pickHigher r) (seen ∪ {n | some n ∈ next}) := by
  induction next generalizing r seen with
  | nil => simpa using h
  | cons o next ih =>
    have htail : ∀ n, some n ∈ next → (s.task n).fn = true := fun n hn => hfn n (List.mem_cons_of_mem o hn)
    cases o with
    | none => simpa [State.pickHigher] using ih h htail
    | some a =>
      have hnew := ih (h.pickHigher (hfn a List.mem_cons_self)) htail
      have hset : insert a seen ∪ {n | some n ∈ next} = seen ∪ {n | some n ∈ some a :: next} := by
        ext n
        simp [or_assoc, or_left_comm]
      rwa [hset] at hnew

/-- get_higher_priority_task on tasks that have functions. -/
theorem getHigherPriorityTask_spec {next : List (Option ℕ)} (hfn : ∀ n, some n ∈ next → (s.task n).fn = true) :
    (s.getHigherPriorityTask next = none ↔ {n | some n ∈ next} = ∅) ∧
    ∀ n, s.getHigherPriorityTask next = some n → Highest s.env {n | some n ∈ next} n := by
  have h : Picked s (none,-1,false) ∅ := .inl ⟨rfl,rfl,rfl⟩
  have hlast := h.foldl next hfn
  rw [Set.empty_union] at hlast
  unfold State.getHigherPriorityTask
  rcases hlast with ⟨hnone,-,hempty⟩ | ⟨b,hb,-,hbest⟩
  · rw [hnone]
    exact ⟨by simpa using hempty,by simp⟩
  · rw [hb]
    refine ⟨?_,?_⟩
    · simpa using Set.nonempty_iff_ne_empty.mp ⟨b,hbest.1⟩
    · rintro n ⟨⟩
      exact hbest

end Pick

section Queues
variable (w : WellFormed) {thr task : ℕ}

theorem finite_members (q : QRef) : {n | ∃ p, n ∈ (w.zones q p).members}.Finite := by
  obtain ⟨ps,-,-,-,-,hempty⟩ := (w.zoned q).exists_lists fun _ => true
  refine (ps.flatMap fun p => (w.zones q p).members).finite_toSet.subset ?_
  rintro n ⟨p,hn⟩
  have hp : p ∈ ps := by
    by_contra hp
    rw [show (w.zones q p).members = [] from hempty p hp] at hn
    simp at hn
  exact List.mem_flatMap.mpr ⟨p,hp,hn⟩

theorem ready_subset_members (q : QRef) : w.readyIn q ⊆ {n | ∃ p, n ∈ (w.zones q p).members} := by
  rintro n ⟨p,hn⟩
  exact ⟨p,List.mem_append_left _ (List.mem_append_left _ hn)⟩

/-- num_waiting_priority_node tells whether a task is ready in the queue. -/
theorem numWaiting_pos (q : QRef) : 0 < (w.queue q).numWaitingPriorityNode ↔ (w.readyIn q).Nonempty := by
  have hfin : (w.readyIn q).Finite := (finite_members w q).subset (ready_subset_members w q)
  rw [w.numWaitingPriorityNode q, Int.natCast_pos]
  exact Set.ncard_pos hfin

theorem numPriorityNode_eq_zero (q : QRef) :
    (w.queue q).numPriorityNode = 0 ↔ ∀ p n, n ∉ (w.zones q p).members := by
  rw [w.numPriorityNode q, Int.natCast_eq_zero, Set.ncard_eq_zero (finite_members w q)]
  simp only [Set.eq_empty_iff_forall_notMem, Set.mem_ofPred_eq, not_exists]
  exact forall_comm

theorem hasChildren_iff : w.hasChildren task ↔
    (w.queue (.children .tied task)).numPriorityNode + (w.queue (.children .untied task)).numPriorityNode ≠ 0 := by
  have hpos : ∀ q, 0 ≤ (w.queue q).numPriorityNode := fun q => by
    rw [w.numPriorityNode q]
    exact Int.natCast_nonneg _
  have htied := hpos (.children .tied task)
  have huntied := hpos (.children .untied task)
  have hsum :
      (w.queue (.children .tied task)).numPriorityNode + (w.queue (.children .untied task)).numPriorityNode = 0 ↔
        (w.queue (.children .tied task)).numPriorityNode = 0 ∧
          (w.queue (.children .untied task)).numPriorityNode = 0 := by omega
  rw [Ne, hsum, numPriorityNode_eq_zero, numPriorityNode_eq_zero, WellFormed.hasChildren]
  constructor
  · rintro ⟨type,p,n,hn⟩ ⟨h1,h2⟩
    cases type with
    | tied => exact h1 p n hn
    | untied => exact h2 p n hn
  · intro h
    by_contra hnone
    simp only [not_exists] at hnone
    exact h ⟨hnone .tied,hnone .untied⟩

/-- A task at the head of a list that can start is ready. -/
theorem leads_subset_ready (q : QRef) : w.leads q ⊆ w.readyIn q := by
  rintro n ⟨hstart,p,hn⟩
  refine ⟨p,?_⟩
  have hmem : n ∈ (w.zones q p).ready ++ (w.zones q p).running := List.mem_of_head? hn
  rcases List.mem_append.mp hmem with hmem | hmem
  · exact hmem
  · exfalso
    cases q with
    | suspended type t =>
      have hplain : (w.zones (.suspended type t) p).running = [] := (w.zoned (.suspended type t)).running_of_plain rfl p
      rw [hplain] at hmem
      simp at hmem
    | children | taskgroup | team | locked => exact w.running _ p n hmem (by simpa [WellFormed.canStart] using hstart)

end Queues

section Checks
variable {s : State} (w : WellFormed) {thr task : ℕ}

/-- The queues that the checks and the selection go through. -/
def queues (s : State) (thr task : ℕ) : List QRef :=
  [.suspended .tied thr,.suspended .untied thr] ++
    (match s.lastTiedTask thr with
      | some last =>
        [.children .tied last] ++ (if s.ownTied last task then [.children .tied task] else []) ++
          [.children .untied last]
      | none => [.children .tied task,.team .tied]) ++
    [.children .untied task,.team .untied]

theorem mem_queues (q : QRef) : q ∈ queues s thr task ↔ s.mayUse thr task q := by
  unfold queues State.mayUse
  cases hlast : s.lastTiedTask thr with
  | none =>
    cases q with
    | children type t => cases type <;> simp
    | team type => cases type <;> simp
    | suspended type t => cases type <;> simp
    | taskgroup | locked => simp
  | some last =>
    have hown : s.ownTied last task = true ↔
        (s.task task).type = .untied ∧ (s.task task).ascendingTiedTask = some last := by
      simp [State.ownTied, eq_comm (a := some last)]
    dsimp only
    rw [← hown]
    cases q with
    | children type t => cases type <;> cases s.ownTied last task <;> simp
    | team type => cases type <;> cases s.ownTied last task <;> simp
    | suspended type t => cases type <;> cases s.ownTied last task <;> simp
    | taskgroup | locked => cases s.ownTied last task <;> simp

theorem checkQueues_eq : s.checkQueues thr task = ((queues s thr task).map s.counted).sum := by
  unfold State.checkQueues queues
  cases s.lastTiedTask thr with
  | none => simp [add_assoc]
  | some last =>
    dsimp only
    cases s.ownTied last task <;> simp [add_assoc]

theorem checkQueues_pos : 0 < s.checkQueues thr task ↔
    ∃ q ∈ queues s thr task, 0 < (s.queue q).numWaitingPriorityNode := by
  rw [checkQueues_eq, Nat.pos_iff_ne_zero, Ne, List.sum_eq_zero_iff]
  simp [State.counted]

theorem tryToSchedule_eq : s.blockedTaskTryToSchedule thr task =
    (queues s thr task).any fun q => (s.queue q).numWaitingPriorityNode > 0 := by
  unfold State.blockedTaskTryToSchedule queues
  cases s.lastTiedTask thr with
  | none => simp [Bool.or_assoc]
  | some last =>
    dsimp only
    cases s.ownTied last task <;> simp [Bool.or_assoc]

theorem check_iff : 0 < w.checkQueues thr task ↔ (w.ready thr task).Nonempty := by
  rw [checkQueues_pos]
  constructor
  · rintro ⟨q,hq,hpos⟩
    obtain ⟨n,hn⟩ := (numWaiting_pos w q).mp hpos
    exact ⟨n,q,(mem_queues q).mp hq,hn⟩
  · rintro ⟨n,q,hq,hn⟩
    exact ⟨q,(mem_queues q).mpr hq,(numWaiting_pos w q).mpr ⟨n,hn⟩⟩

end Checks

section Entries
variable (w : WellFormed) {thr task : ℕ} {next next' : List (Option ℕ)} {qs qs' : List QRef}

/-- The entries of the array are the right ones for the queues. -/
structure Covers (next : List (Option ℕ)) (qs : List QRef) : Prop where
  sound : ∀ n, some n ∈ next → ∃ q ∈ qs, n ∈ w.leads q
  best : ∀ q ∈ qs, ∀ n ∈ w.leads q, ∃ m, some m ∈ next ∧ (w.task n).priority ≤ (w.task m).priority

variable {w}

theorem Covers.append (h : Covers w next qs) (h' : Covers w next' qs') : Covers w (next ++ next') (qs ++ qs') := by
  constructor
  · intro n hn
    rcases List.mem_append.mp hn with hn | hn
    · obtain ⟨q,hq,hn⟩ := h.sound n hn
      exact ⟨q,List.mem_append_left _ hq,hn⟩
    · obtain ⟨q,hq,hn⟩ := h'.sound n hn
      exact ⟨q,List.mem_append_right _ hq,hn⟩
  · intro q hq n hn
    rcases List.mem_append.mp hq with hq | hq
    · obtain ⟨m,hm,hle⟩ := h.best q hq n hn
      exact ⟨m,List.mem_append_left _ hm,hle⟩
    · obtain ⟨m,hm,hle⟩ := h'.best q hq n hn
      exact ⟨m,List.mem_append_right _ hm,hle⟩

theorem Covers.empty (h : ∀ q ∈ qs, w.leads q = ∅) : Covers w [] qs :=
  ⟨by simp,fun q hq n hn => by simp [h q hq] at hn⟩

theorem Covers.one {c : Option ℕ} (hnone : c = none ↔ {n | ∃ q ∈ qs, n ∈ w.leads q} = ∅)
    (hsome : ∀ n, c = some n → Highest w.env {n | ∃ q ∈ qs, n ∈ w.leads q} n) : Covers w [c] qs := by
  constructor
  · intro n hn
    exact (hsome n (by simpa [eq_comm] using hn)).1
  · intro q hq n hn
    cases c with
    | none =>
      have hempty := hnone.mp rfl
      exact absurd (show n ∈ {n | ∃ q ∈ qs, n ∈ w.leads q} from ⟨q,hq,hn⟩) (hempty ▸ Set.notMem_empty n)
    | some m => exact ⟨m,List.mem_singleton.mpr rfl,Int.ofNat_le.mp ((hsome m rfl).2 n ⟨q,hq,hn⟩)⟩

theorem leads_of_emptyP {q : QRef} (h : w.emptyP q = true) : w.leads q = ∅ := (w.zoned q).leads_of_emptyP h

/-- The guards leave out an entry of empty queues only. -/
theorem Covers.guarded {b : Bool} {c : Option ℕ} (h : Covers w [c] qs) (hb : b = false → ∀ q ∈ qs, w.emptyP q = true) :
    Covers w (if b then [c] else []) qs := by
  cases b with
  | true => exact h
  | false => exact Covers.empty fun q hq => leads_of_emptyP (hb rfl q hq)

theorem covers_suspended (thr : ℕ) (type : TaskType) :
    Covers w (if !w.emptyP (.suspended type thr) then [priorityQueueNextSuspendedTask (w.queue (.suspended type thr))]
      else []) [.suspended type thr] := by
  have hspec : (priorityQueueNextSuspendedTask (w.queue (.suspended type thr)) = none ↔
      w.leads (.suspended type thr) = ∅) ∧
      ∀ n, priorityQueueNextSuspendedTask (w.queue (.suspended type thr)) = some n →
        Highest w.env (w.leads (.suspended type thr)) n :=
    priorityQueueNextSuspendedTask_spec (w.zoned (.suspended type thr))
  refine Covers.guarded (Covers.one ?_ ?_) (by simp)
  · simpa using hspec.1
  · simpa using hspec.2

/-- The candidate of one queue that is not a queue of suspended tasks. -/
theorem candidate_leads {q : QRef} (hq : ∀ n, w.canStart q n = decide (w.kind n = .waiting)) :
    (candidate w.env w.kind w.parentDependsOn (w.queue q) = none ↔ w.leads q = ∅) ∧
      ∀ n, candidate w.env w.kind w.parentDependsOn (w.queue q) = some n → Highest w.env (w.leads q) n := by
  have hleads : w.leads q = (w.zoned q).leads fun n => w.kind n = .waiting := by
    unfold WellFormed.leads
    congr 1
    funext n
    exact hq n
  rw [hleads]
  exact candidate_spec (w.zoned q) w.kind w.parentDependsOn

theorem covers_one {q : QRef} (hq : ∀ n, w.canStart q n = decide (w.kind n = .waiting)) :
    Covers w [w.nextTask q none] [q] := by
  have hspec := candidate_leads hq
  refine Covers.one ?_ ?_
  · simpa [State.nextTask, candidate] using hspec.1
  · simpa [State.nextTask, candidate] using hspec.2

theorem covers_two {q q' : QRef} (hq : ∀ n, w.canStart q n = decide (w.kind n = .waiting))
    (hq' : ∀ n, w.canStart q' n = decide (w.kind n = .waiting)) : Covers w [w.nextTask q (some q')] [q,q'] := by
  have hspec := candidate_leads hq
  have hspec' := candidate_leads hq'
  have hboth : Chosen w.env w.parentDependsOn (w.leads q) (w.leads q') _ _ _ :=
    chooseTask_chosen hspec.1 hspec.2 hspec'.1 hspec'.2
  have hset : {n | ∃ x ∈ [q,q'], n ∈ w.leads x} = w.leads q ∪ w.leads q' := by
    ext n
    simp
  have hnext : w.nextTask q (some q') = (chooseTask w.env w.parentDependsOn
      (candidate w.env w.kind w.parentDependsOn (w.queue q))
      (candidate w.env w.kind w.parentDependsOn (w.queue q'))).1 := by
    rw [State.nextTask, priorityQueueNextTask_eq]
    rfl
  refine Covers.one ?_ ?_
  · rw [hset, hnext]
    exact hboth.none_iff
  · rw [hset, hnext]
    exact hboth.highest

theorem Covers.congr (h : Covers w next qs) (hq : ∀ q, q ∈ qs' ↔ q ∈ qs) : Covers w next qs' := by
  constructor
  · intro n hn
    obtain ⟨q,hmem,hn⟩ := h.sound n hn
    exact ⟨q,(hq q).mpr hmem,hn⟩
  · exact fun q hmem n hn => h.best q ((hq q).mp hmem) n hn

theorem covers_guarded_two {q q' : QRef} (hq : ∀ n, w.canStart q n = decide (w.kind n = .waiting))
    (hq' : ∀ n, w.canStart q' n = decide (w.kind n = .waiting)) :
    Covers w (if !w.emptyP q || !w.emptyP q' then [w.nextTask q (some q')] else []) [q,q'] :=
  (covers_two hq hq').guarded (by simp)

theorem covers_runnable : Covers w (w.gompGetRunnableTasks thr task) (queues w.toState thr task) := by
  have htied : ∀ t n, w.canStart (.children .tied t) n = decide (w.kind n = .waiting) := fun _ _ => rfl
  have huntied : ∀ t n, w.canStart (.children .untied t) n = decide (w.kind n = .waiting) := fun _ _ => rfl
  have hteam : ∀ type n, w.canStart (.team type) n = decide (w.kind n = .waiting) := fun _ _ => rfl
  have hsuspended := (covers_suspended (w := w) thr .tied).append (covers_suspended thr .untied)
  unfold State.gompGetRunnableTasks queues
  cases w.lastTiedTask thr with
  | none =>
    have hall := hsuspended.append
      ((covers_guarded_two (htied task) (huntied task)).append (covers_guarded_two (hteam .tied) (hteam .untied)))
    refine hall.congr fun q => ?_
    simp
    tauto
  | some last =>
    dsimp only
    have hown : Covers w (if w.ownTied last task && !w.emptyP (.children .tied task) then
        [w.nextTask (.children .tied task) none] else [])
        (if w.ownTied last task then [.children .tied task] else []) := by
      cases w.ownTied last task with
      | true => exact (covers_one (htied task)).guarded (by simp)
      | false => exact Covers.empty (by simp)
    have hall := hsuspended.append (((covers_guarded_two (htied last) (huntied last)).append hown).append
      (covers_guarded_two (huntied task) (hteam .untied)))
    refine hall.congr fun q => ?_
    simp
    tauto

end Entries

section Result
variable (w : WellFormed) (thr task : ℕ)

/-- The first tasks that the thread may start. -/
def starters : Set ℕ := {n | ∃ q, w.mayUse thr task q ∧ n ∈ w.leads q}

theorem starters_subset : starters w thr task ⊆ w.ready thr task := by
  rintro n ⟨q,hq,hn⟩
  exact ⟨q,hq,leads_subset_ready w q hn⟩

theorem selected_spec : (w.selected thr task = none ↔ starters w thr task = ∅) ∧
    ∀ n, w.selected thr task = some n → Highest w.env (starters w thr task) n := by
  have hcovers : Covers w (w.gompGetRunnableTasks thr task) (queues w.toState thr task) := covers_runnable
  have hsound : ∀ n, some n ∈ w.gompGetRunnableTasks thr task → n ∈ starters w thr task := by
    intro n hn
    obtain ⟨q,hq,hn⟩ := hcovers.sound n hn
    exact ⟨q,(mem_queues q).mp hq,hn⟩
  have hbest : ∀ n ∈ starters w thr task, ∃ m, some m ∈ w.gompGetRunnableTasks thr task ∧
      (w.task n).priority ≤ (w.task m).priority := by
    rintro n ⟨q,hq,hn⟩
    exact hcovers.best q ((mem_queues q).mpr hq) n hn
  have hfn : ∀ n, some n ∈ w.gompGetRunnableTasks thr task → (w.task n).fn = true := by
    intro n hn
    obtain ⟨q,-,p,hn⟩ := starters_subset w thr task (hsound n hn)
    exact w.fn q p n (List.mem_append_left _ (List.mem_append_left _ hn))
  obtain ⟨hnone,hsome⟩ := getHigherPriorityTask_spec hfn
  constructor
  · refine hnone.trans ?_
    rw [Set.eq_empty_iff_forall_notMem, Set.eq_empty_iff_forall_notMem]
    refine ⟨fun h n hn => ?_,fun h n hn => h n (hsound n hn)⟩
    obtain ⟨m,hm,-⟩ := hbest n hn
    exact h m hm
  · intro n hn
    obtain ⟨hmem,hhigh⟩ := hsome n hn
    refine ⟨hsound n hmem,fun m hm => ?_⟩
    obtain ⟨m',hm',hle⟩ := hbest m hm
    exact (Int.ofNat_le.mpr hle).trans (hhigh m' hm')

theorem entries_le : (w.gompGetRunnableTasks thr task).length ≤ 5 := by
  have hif : ∀ (b : Bool) (c : Option ℕ), (if b = true then [c] else []).length ≤ 1 := by
    intro b c
    cases b <;> simp
  unfold State.gompGetRunnableTasks
  cases w.lastTiedTask thr with
  | none =>
    simp only [List.length_append]
    calc _ ≤ 1 + 1 + (1 + 1) := Nat.add_le_add (Nat.add_le_add (hif _ _) (hif _ _)) (Nat.add_le_add (hif _ _) (hif _ _))
      _ ≤ 5 := by norm_num
  | some last =>
    simp only [List.length_append]
    exact Nat.add_le_add (Nat.add_le_add (hif _ _) (hif _ _))
      (Nat.add_le_add (Nat.add_le_add (hif _ _) (hif _ _)) (hif _ _))

theorem blocked_iff : 0 < w.gompCheckQueuesWhileBlocked thr task ↔
    0 < w.checkQueues thr task ∧ w.hasChildren task := by
  rw [hasChildren_iff, State.gompCheckQueuesWhileBlocked]
  split
  · next h => simp [h]
  · next h =>
    simp only [Ne, h, not_false_eq_true, and_true]
    split
    · exact Int.natCast_pos
    · next hret => simp_all

theorem switch_iff : w.blockedTaskTryToSchedule thr task = true ↔ 0 < w.checkQueues thr task := by
  rw [tryToSchedule_eq, checkQueues_pos]
  simp

/-- The checks and the selection agree, and the selected task has the highest priority of all that are ready, exactly
when every ready task has a task that can start at the head of a list of at least its priority. -/
theorem checks_agree_iff : w.Agrees thr task ↔ ∀ n ∈ w.ready thr task, w.Led thr task n := by
  obtain ⟨hnone,hsome⟩ := selected_spec w thr task
  constructor
  · intro h n hn
    have hne : w.selected thr task ≠ none := h.locked.mp ((check_iff w).mpr ⟨n,hn⟩)
    obtain ⟨m,hm⟩ := Option.ne_none_iff_exists'.mp hne
    obtain ⟨q,hq,hlead⟩ := (hsome m hm).1
    exact ⟨q,hq,m,hlead,Int.ofNat_le.mp ((h.highest m hm).2 n hn)⟩
  · intro h
    have hcheck : 0 < w.checkQueues thr task ↔ w.selected thr task ≠ none := by
      rw [check_iff, Ne, hnone, ← Ne, ← Set.nonempty_iff_ne_empty]
      constructor
      · rintro ⟨n,hn⟩
        obtain ⟨q,hq,m,hm,-⟩ := h n hn
        exact ⟨m,q,hq,hm⟩
      · exact fun hne => hne.mono (starters_subset w thr task)
    refine ⟨hcheck,hcheck,?_,?_,entries_le w thr task,fun n hn => ?_⟩
    · rw [blocked_iff, hcheck]
    · rw [switch_iff, hcheck]
    · obtain ⟨hmem,hhigh⟩ := hsome n hn
      refine ⟨starters_subset w thr task hmem,fun m hm => ?_⟩
      obtain ⟨q,hq,m',hm',hle⟩ := h m hm
      exact (Int.ofNat_le.mpr hle).trans (hhigh m' ⟨q,hq,hm'⟩)

/-- They do where the tasks that the queues count as ready are WAITING. -/
theorem led_of_waiting
    (h : ∀ q, q.plain = false ∨ (∃ type, q = .team type) → ∀ n ∈ w.readyIn q, w.kind n = .waiting) :
    ∀ n ∈ w.ready thr task, w.Led thr task n := by
  rintro n ⟨q,hq,p,hn⟩
  have hpriority : ∀ m ∈ (w.zones q p).ready, ((w.task m).priority : ℤ) = p := fun m hm =>
    (w.zoned q).priority_eq (List.mem_append_left _ (List.mem_append_left _ hm))
  obtain ⟨m,ms,hm⟩ := List.exists_cons_of_ne_nil (List.ne_nil_of_mem hn)
  have hmem : m ∈ (w.zones q p).ready := by simp [hm]
  have hhead : (w.zones q p).order.head? = some m := by
    rw [show (w.zones q p).order = (w.zones q p).ready ++ (w.zones q p).running from rfl, hm]
    rfl
  have hstart : w.canStart q m = true := by
    cases q with
    | suspended => rfl
    | children => exact decide_eq_true (h _ (.inl rfl) m ⟨p,hmem⟩)
    | team type => exact decide_eq_true (h _ (.inr ⟨type,rfl⟩) m ⟨p,hmem⟩)
    | taskgroup | locked => exact hq.elim
  refine ⟨q,hq,m,⟨hstart,p,hhead⟩,?_⟩
  have hp := hpriority n hn
  have hp' := hpriority m hmem
  omega

end Result

section Late

/-- Task 2 is deferred; task 3, undeferred, depends on it and is created by implicit task 0.  Thread 1 runs task 2 at
the barrier. -/
def lateEvents : List Team.Event :=
  [.create 0 .tied true [],.createForImplicit 0 true [2],.start .barrier 1 2 (.team .tied),.finish .barrier 1 2]

/-- The queues that hold task 3 afterwards. -/
def holdsLate (q : QRef) : Bool := q = .children .tied 0 || q = .team .tied

def emptyQueue : PriorityQueue ℕ :=
  priorityQueueInit (fun _ => PriorityList.empty 0) ⟨fun _ => none,fun _ => none⟩ ⟨id,id⟩

def lateQueue : PriorityQueue ℕ :=
  { emptyQueue with
    numPriorityNode := 1
    numWaitingPriorityNode := 1
    l := { PriorityList.empty 0 with tasks := some 3 }
    links := emptyQueue.links.selfLoop 3 }

/-- Task 3 is still UNDEFERRED. -/
def lateState : State where
  task n :=
    { priority := 0, type := .tied, kind := if n = 3 then .undeferred else .implicit, parentDependsOn := false,
      fn := true, ascendingTiedTask := none }
  lastTiedTask _ := none
  queue q := if holdsLate q then lateQueue else emptyQueue

example : priorityQueueInsert lateState.env lateState.kind .childrenTied emptyQueue 3 0 .insertEnd false false =
    some lateQueue := rfl

def lateZones (q : QRef) (p : ℤ) : Zones ℕ :=
  if holdsLate q ∧ p = 0 then { Zones.empty with waiting := [3] } else Zones.empty

/-- The list of the queue, which may be empty. -/
theorem late_rep (q : QRef) : ListRep q.plain lateState.env (lateState.queue q) (lateZones q) := by
  cases hq : holdsLate q with
  | true =>
    have hqueue : lateState.queue q = lateQueue := if_pos hq
    rw [hqueue]
    refine ⟨rfl,?_,fun p hp => by simp [lateZones, hp],fun p n hn => ?_⟩
    · have hz : lateZones q 0 = { Zones.empty with waiting := [3] } := if_pos ⟨hq,rfl⟩
      rw [hz]
      exact ⟨Rings.selfLoop isRing_nil List.not_mem_nil,rfl,rfl,rfl,rfl,fun _ => ⟨rfl,rfl⟩⟩
    · by_cases hp : p = 0
      · rw [hp]
        rfl
      · exact absurd hn (by simp [lateZones, hp, Zones.empty, Zones.members, Zones.order])
  | false =>
    have hqueue : lateState.queue q = emptyQueue := if_neg (by simp [hq])
    have hz : lateZones q = fun _ => Zones.empty := by
      funext p
      simp [lateZones, hq]
    rw [hqueue, hz]
    exact ⟨rfl,rep_empty _ _ _,fun _ _ => rfl,fun p n hn => absurd hn mem_members_empty⟩

theorem late_ncard (f : Zones ℕ → List ℕ) (h3 : f { Zones.empty with waiting := [3] } = [3]) (h0 : f Zones.empty = [])
    (q : QRef) : (Set.ncard {n | ∃ p, n ∈ f (lateZones q p)} : ℤ) = if holdsLate q then 1 else 0 := by
  cases hq : holdsLate q with
  | true =>
    have hset : {n | ∃ p, n ∈ f (lateZones q p)} = {3} := by
      ext n
      constructor
      · rintro ⟨p,hn⟩
        unfold lateZones at hn
        split at hn
        · simpa [h3] using hn
        · simp [h0] at hn
      · rintro rfl
        exact ⟨0,by simp [lateZones, hq, h3]⟩
    simp [hset]
  | false =>
    have hset : {n | ∃ p, n ∈ f (lateZones q p)} = ∅ := by
      ext n
      simp [lateZones, hq, h0]
    simp [hset]

def lateTeam : WellFormed where
  toState := lateState
  zones := lateZones
  rep q := .inl (late_rep q)
  numPriorityNode q := by
    rw [late_ncard Zones.members rfl rfl,
      show lateState.queue q = if holdsLate q then lateQueue else emptyQueue from rfl]
    cases holdsLate q <;> rfl
  numWaitingPriorityNode q := by
    rw [late_ncard Zones.ready rfl rfl,
      show lateState.queue q = if holdsLate q then lateQueue else emptyQueue from rfl]
    cases holdsLate q <;> rfl
  running q p n hn := by
    unfold lateZones at hn
    split at hn <;> simp [Zones.empty] at hn
  fn _ _ _ _ := rfl

/-- Every check of implicit task 0 finds two tasks to run, and the selection none. -/
theorem checks_disagree : (∃ s, run Team.TeamState.step (Team.TeamState.init true 2) lateEvents = some s ∧
      s.status (.children .tied 0) 3 = some .ready ∧ s.status (.team .tied) 3 = some .ready ∧
      (s.task 3).kind = .undeferred) ∧
    lateTeam.gompCheckQueuesWhileBlocked 0 0 = 2 ∧ lateTeam.selected 0 0 = none ∧ ¬lateTeam.Agrees 0 0 := by
  have hnone : lateTeam.selected 0 0 = none := by decide
  refine ⟨⟨_,rfl,by decide⟩,by decide,hnone,fun h => ?_⟩
  exact h.locked.mp (by decide) hnone

end Late
end GompUlt.RunnableTasks
