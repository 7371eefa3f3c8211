import GompUlt.Queue.NextTask
import GompUlt.Team.TeamState

/-! # The selection of GOMP_taskgroup_end and the list of tied tasks

A team without user level threads keeps the list of tied tasks at every place where a task is run, but gives no task
an ascending TIED task.  GOMP_taskgroup_end compares the two whether or not the team has user level threads.
-/
namespace GompUlt.TaskgroupProgress
open Queue Run
open Team (TaskType)

/-- A team, with what a task has from its creation. -/
structure Team where
  ultVar : Bool
  policy : ℕ
  priority : ℕ → ℤ
  type : ℕ → TaskType
  implicit : ℕ → Bool

def Team.env (T : Team) : TaskEnv ℕ := { priority := T.priority, ultVar := fun _ => T.ultVar }

/-- The part of struct gomp_task that the list of tied tasks is made of. -/
structure Task where
  ascendingTiedTask : Option ℕ := none
  previousTiedTask : Option ℕ := none
  nextTiedTask : Option ℕ := none
  parentDependsOn : Bool := false
  deriving DecidableEq, Repr

/-- The threads' lists of tied tasks and a taskgroup with its two queues.  Of the queues of children nothing is known
here. -/
structure State where
  task : ℕ → Task
  lastTiedTask : ℕ → Option ℕ
  queue : TaskType → QueueState ℕ
  numChildren : ℕ
  children : ℕ → TaskType → PriorityQueue ℕ

def taskgroupType : TaskType → PQType
  | .tied => .taskgroupTied
  | .untied => .taskgroupUntied

namespace State

def modify (s : State) (t : ℕ) (f : Task → Task) : State := { s with task := Function.update s.task t (f (s.task t)) }

def setLast (s : State) (thr : ℕ) (last : Option ℕ) : State :=
  { s with lastTiedTask := Function.update s.lastTiedTask thr last }

/-- task->kind; the queue of its type tells it. -/
def kind (T : Team) (s : State) (n : ℕ) : TaskKind := (s.queue (T.type n)).kind n

def parentDependsOn (s : State) (n : ℕ) : Bool := (s.task n).parentDependsOn

section TiedList
variable (T : Team) (s : State) (thr : ℕ)

/-- gomp_init_task, and the assignment to ascending_tied_task of a new task. -/
def create (task parent : ℕ) : State :=
  let ascending :=
    if T.ultVar && !T.implicit parent then
      match T.type parent with
      | .tied => some parent
      | .untied => (s.task parent).ascendingTiedTask
    else none
  s.modify task fun _ => { ascendingTiedTask := ascending }

/-- gomp_clear_parent for one child of a task that has ended. -/
def clearParent (child parent : ℕ) : State :=
  if T.ultVar && (s.task child).ascendingTiedTask = some parent then
    s.modify child fun x => { x with ascendingTiedTask := (s.task parent).ascendingTiedTask }
  else s

def gompInsertTaskInTiedList (task nextTask : ℕ) : State :=
  if T.implicit task then s.setLast thr (some nextTask)
  else if (s.task nextTask).previousTiedTask = none ∧ (s.task nextTask).nextTiedTask = none then
    let s :=
      match s.lastTiedTask thr with
      | none => s
      | some last =>
        if last = nextTask then s
        else
          (s.modify last fun x => { x with nextTiedTask := some nextTask }).modify nextTask
            fun x => { x with previousTiedTask := some last }
    s.setLast thr (some nextTask)
  else s

def gompRemoveTaskFromTiedList (task prevTask : ℕ) : State :=
  if T.implicit task then s.setLast thr none
  else if s.lastTiedTask thr = some prevTask then
    match (s.task prevTask).previousTiedTask with
    | none => s.setLast thr none
    | some last => (s.setLast thr (some last)).modify last fun x => { x with nextTiedTask := none }
  else
    let next := (s.task prevTask).nextTiedTask
    let s :=
      match next with
      | none => s
      | some n => s.modify n fun x => { x with previousTiedTask := (s.task prevTask).previousTiedTask }
    match (s.task prevTask).previousTiedTask with
    | none => s
    | some l => s.modify l fun x => { x with nextTiedTask := (s.task prevTask).nextTiedTask }

end TiedList

section Selection
variable (T : Team) (s : State) (thr task : ℕ)

def nextTask (q1 : PriorityQueue ℕ) (q2 : Option (PriorityQueue ℕ)) : Option ℕ :=
  (priorityQueueNextTask T.env (s.kind T) s.parentDependsOn q1 q2).1

/-- The test for the children of the task, when the queues of the taskgroup are empty. -/
def mayTakeTied : Bool :=
  match s.lastTiedTask thr with
  | none => true
  | some last =>
    match T.type task with
    | .tied => last = task
    | .untied => some last = (s.task task).ascendingTiedTask

/-- What the loop of GOMP_taskgroup_end does next; `wait` is the label do_wait, where a thread of a team without user
level threads goes to sleep on taskgroup_sem. -/
inductive Choice
  | run (child : ℕ) | wait | finish
  deriving DecidableEq, Repr

/-- The test child_task && child_task->kind == GOMP_TASK_WAITING. -/
def runOrWait (child : Option ℕ) : Choice :=
  match child with
  | none => .wait
  | some child => if s.kind T child = .waiting then .run child else .wait

/-- The task from the queues of the taskgroup. -/
def taskgroupTask : Option ℕ :=
  let child := s.nextTask T (s.queue .tied).q (some (s.queue .untied).q)
  if child.any fun n => T.type n = .tied ∧ s.lastTiedTask thr ≠ none ∧
      s.lastTiedTask thr ≠ (s.task n).ascendingTiedTask then
    s.nextTask T (s.queue .untied).q none
  else child

/-- The selection of GOMP_taskgroup_end. -/
def gompTaskgroupEnd : Choice :=
  if priorityQueueEmptyP (s.queue .tied).q && priorityQueueEmptyP (s.queue .untied).q then
    if s.numChildren = 0 then .finish
    else if priorityQueueEmptyP (s.children task .tied) && priorityQueueEmptyP (s.children task .untied) then .wait
    else if T.ultVar && !s.mayTakeTied T thr task then
      s.runOrWait T (s.nextTask T (s.children task .untied) none)
    else s.runOrWait T (s.nextTask T (s.children task .tied) (some (s.children task .untied)))
  else s.runOrWait T (s.taskgroupTask T thr)

end Selection

/-- The steps of the team; a task is put into, moved in and taken from the queue of its type.  The insertions of
gomp_task_run_post_handle_dependers, which are into the queue of the type of the task that has ended, are steps only
where the two types are the same. -/
inductive Label
  | create (task parent : ℕ)
  | clearParent (child parent : ℕ)
  | insertTied (thr task nextTask : ℕ)
  | removeTied (thr task prevTask : ℕ)
  | queue (op : QueueOp ℕ)
  | setParentDependsOn (task : ℕ) (b : Bool)
  | setChildren (task : ℕ) (type : TaskType) (q : PriorityQueue ℕ)
  | setNumChildren (n : ℕ)

/-- The calls on the queues of a taskgroup that stand outside of the code for user level threads. -/
def plainCall : QueueOp ℕ → Bool
  | .insert _ _ _ blocked _ | .remove _ blocked => !blocked
  | .adjustTask _ _ _ _ | .blockTask _ _ | .unblockTask _ _ _ => false
  | .insertRunning _ _ | .upgradeTask _ | .downgradeTask _ _ | .setKind _ _ => true

def setQueue (s : State) (type : TaskType) (q : QueueState ℕ) : State :=
  { s with queue := Function.update s.queue type q }

def step (T : Team) (s : State) : Label → Option State
  | .create task parent => some (s.create T task parent)
  | .clearParent child parent => some (s.clearParent T child parent)
  | .insertTied thr task nextTask =>
    if T.type nextTask = .tied then some (s.gompInsertTaskInTiedList T thr task nextTask) else none
  | .removeTied thr task prevTask =>
    if T.type prevTask = .tied then some (s.gompRemoveTaskFromTiedList T thr task prevTask) else none
  | .queue op =>
    let type := T.type op.task
    if (T.ultVar = true ∨ plainCall op = true) ∧ CallerKinds (taskgroupType type) (s.queue type) op then
      (queueStep T.env (taskgroupType type) T.policy (s.queue type) op).map (s.setQueue type)
    else none
  | .setParentDependsOn task b => some (s.modify task fun x => { x with parentDependsOn := b })
  | .setChildren task type q =>
    some { s with children := Function.update s.children task (Function.update (s.children task) type q) }
  | .setNumChildren n => some { s with numChildren := n }

/-- The team before it has created a task; its threads may come with tied tasks of an outer team. -/
structure Initial (s : State) : Prop where
  ascending : ∀ t, (s.task t).ascendingTiedTask = none
  queue : ∀ type, ∃ key fields links kind, s.queue type = QueueState.init key fields links kind

/-- The transfer of the items of priority 0 to the tree, if the step makes one, leaves nothing behind. -/
def Transfers (T : Team) (s : State) : Label → Prop
  | .queue op => TransferSafe T.env (s.queue (T.type op.task)) op
  | _ => True

instance (T : Team) (s : State) (l : Label) : Decidable (Transfers T s l) :=
  match l with
  | .queue op => inferInstanceAs (Decidable (TransferSafe T.env (s.queue (T.type op.task)) op))
  | .create _ _ | .clearParent _ _ | .insertTied _ _ _ | .removeTied _ _ _ | .setParentDependsOn _ _
  | .setChildren _ _ _ | .setNumChildren _ => inferInstanceAs (Decidable True)

/-- The tasks of the queue of a type that are of kind WAITING. -/
def Waiting (T : Team) (s : State) (type : TaskType) : Set ℕ :=
  {n | (s.queue type).status n ≠ none ∧ s.kind T n = .waiting}

/-- A WAITING task of the taskgroup is selected if there is one, and a thread sleeps only if there is none. -/
structure Progress (T : Team) (s : State) (thr task : ℕ) : Prop where
  runs : ∀ type, (s.Waiting T type).Nonempty →
    ∃ type' n, n ∈ s.Waiting T type' ∧ s.gompTaskgroupEnd T thr task = .run n
  waits : s.gompTaskgroupEnd T thr task = .wait → ∀ type, s.Waiting T type = ∅

section Queues
variable {env : TaskEnv ℕ} {type : PQType} {policy : ℕ} {q q' : QueueState ℕ} {Z : ℤ → Zones ℕ} {op : QueueOp ℕ}

/-- A queue none of whose tasks is blocked. -/
structure GroupInv (env : TaskEnv ℕ) (type : PQType) (q : QueueState ℕ) (Z : ℤ → Zones ℕ) : Prop where
  inv : QueueInv env type q Z
  kinds : ∀ n st, q.status n = some st → st.kindOk type (q.kind n) = true
  unblocked : ∀ n, q.status n ≠ some .blocked

theorem put_unblocked (plain d : Bool) : Status.put plain d false ≠ .blocked := by
  cases plain <;> cases d <;> decide

/-- A call for tasks that are not blocked leaves the task so. -/
theorem statusOp_unblocked (hu : ∀ n, q.status n ≠ some .blocked) (hplain : plainCall op = true) :
    statusOp type q.status op ≠ some .blocked := by
  cases op with
  | insert n pos d b k =>
    obtain rfl : b = false := by simpa [plainCall] using hplain
    simpa [statusOp] using put_unblocked type.plain d
  | setKind n k => exact hu n
  | adjustTask n c d k => simp [plainCall] at hplain
  | blockTask n k => simp [plainCall] at hplain
  | unblockTask n c d => simp [plainCall] at hplain
  | insertRunning | remove | upgradeTask | downgradeTask => simp [statusOp]

theorem queueStep_groupInv (hi : GroupInv env type q Z) (hplain : plainCall op = true)
    (hc : CallerKinds type q op) (hsafe : TransferSafe env q op) (hs : queueStep env type policy q op = some q') :
    GroupInv env type q' (mapOp env type policy Z op) := by
  refine ⟨queueStep_inv hi.inv hsafe hs,?_,?_⟩
  all_goals
    simp only [queueStep,Option.ite_none_right_eq_some,Option.map_eq_some_iff] at hs
    obtain ⟨hok,_,-,rfl⟩ := hs
  · intro n st hst
    simp only at hst ⊢
    by_cases hn : n = op.task
    · subst hn
      rw [Function.update_self] at hst ⊢
      exact statusOp_kindOk hi.kinds hok hc st hst
    · rw [Function.update_of_ne hn] at hst ⊢
      exact hi.kinds n st hst
  · intro n
    simp only
    by_cases hn : n = op.task
    · subst hn
      rw [Function.update_self]
      exact statusOp_unblocked hi.unblocked hplain
    · rw [Function.update_of_ne hn]
      exact hi.unblocked n

/-- Only the task of the call changes its place. -/
theorem queueStep_status (hs : queueStep env type policy q op = some q') {n : ℕ} (hn : n ≠ op.task) :
    q'.status n = q.status n := by
  simp only [queueStep,Option.ite_none_right_eq_some,Option.map_eq_some_iff] at hs
  obtain ⟨-,_,-,rfl⟩ := hs
  exact Function.update_of_ne hn ..

end Queues

section Invariant
variable {T : Team} {s s' : State}

/-- No task has an ascending TIED task, and a queue holds tasks of its type. -/
structure Inv (T : Team) (s : State) : Prop where
  ascending : ∀ t, (s.task t).ascendingTiedTask = none
  queue : ∀ type, ∃ Z, GroupInv T.env (taskgroupType type) (s.queue type) Z
  typed : ∀ type n, (s.queue type).status n ≠ none → T.type n = type

theorem Initial.inv (h : Initial s) : Inv T s := by
  refine ⟨h.ascending,fun type => ?_,fun type n hn => ?_⟩
  · obtain ⟨key,fields,links,kind,hq⟩ := h.queue type
    rw [hq]
    exact ⟨_,queueInv_init key fields links kind,by simp [QueueState.init],by simp [QueueState.init]⟩
  · obtain ⟨key,fields,links,kind,hq⟩ := h.queue type
    simp [hq,QueueState.init] at hn

/-- A step that leaves the queues of the taskgroup and what the tasks have from their creation. -/
def Keeps (s s' : State) : Prop :=
  s'.queue = s.queue ∧ ∀ t, (s'.task t).ascendingTiedTask = (s.task t).ascendingTiedTask

theorem Keeps.inv (hk : Keeps s s') (hi : Inv T s) : Inv T s' := by
  obtain ⟨hqueue,htask⟩ := hk
  refine ⟨fun t => (htask t).trans (hi.ascending t),fun type => ?_,fun type n hn => ?_⟩
  · rw [hqueue]
    exact hi.queue type
  · rw [hqueue] at hn
    exact hi.typed type n hn

theorem Keeps.refl (s : State) : Keeps s s := ⟨rfl,fun _ => rfl⟩

theorem Keeps.trans {s'' : State} (h : Keeps s s') (h' : Keeps s' s'') : Keeps s s'' :=
  ⟨h'.1.trans h.1,fun t => (h'.2 t).trans (h.2 t)⟩

theorem keeps_modify (s : State) (t : ℕ) {f : Task → Task}
    (hf : (f (s.task t)).ascendingTiedTask = (s.task t).ascendingTiedTask) : Keeps s (s.modify t f) := by
  refine ⟨rfl,fun u => ?_⟩
  by_cases hu : u = t
  · subst hu
    simpa [modify] using hf
  · simp [modify,hu]

theorem keeps_setLast (s : State) (thr : ℕ) (last : Option ℕ) : Keeps s (s.setLast thr last) := ⟨rfl,fun _ => rfl⟩

theorem keeps_insertTied (T : Team) (s : State) (thr task nextTask : ℕ) :
    Keeps s (s.gompInsertTaskInTiedList T thr task nextTask) := by
  unfold gompInsertTaskInTiedList
  split
  · exact keeps_setLast ..
  · split
    · refine Keeps.trans ?_ (keeps_setLast ..)
      split
      · exact .refl s
      · split
        · exact .refl s
        · exact (keeps_modify s _ rfl).trans (keeps_modify _ _ rfl)
    · exact .refl s

theorem keeps_removeTied (T : Team) (s : State) (thr task prevTask : ℕ) :
    Keeps s (s.gompRemoveTaskFromTiedList T thr task prevTask) := by
  unfold gompRemoveTaskFromTiedList
  split
  · exact keeps_setLast ..
  · split
    · split
      · exact keeps_setLast ..
      · exact (keeps_setLast ..).trans (keeps_modify _ _ rfl)
    · have hnext : Keeps s (match (s.task prevTask).nextTiedTask with
          | none => s
          | some n => s.modify n fun x => { x with previousTiedTask := (s.task prevTask).previousTiedTask }) := by
        split
        · exact .refl s
        · exact keeps_modify s _ rfl
      dsimp only
      split
      · exact hnext
      · exact hnext.trans (keeps_modify _ _ rfl)

/-- Without user level threads a new task gets no ascending TIED task. -/
theorem create_inv (hult : T.ultVar = false) (hi : Inv T s) (task parent : ℕ) : Inv T (s.create T task parent) := by
  refine ⟨fun t => ?_,hi.queue,hi.typed⟩
  by_cases ht : t = task
  · subst ht
    simp [create,modify,hult]
  · simpa [create,modify,ht] using hi.ascending t

theorem setQueue_inv (hi : Inv T s) (hult : T.ultVar = false) {op : QueueOp ℕ} {q : QueueState ℕ}
    (hcall : T.ultVar = true ∨ plainCall op = true)
    (hc : CallerKinds (taskgroupType (T.type op.task)) (s.queue (T.type op.task)) op)
    (hsafe : TransferSafe T.env (s.queue (T.type op.task)) op)
    (hs : queueStep T.env (taskgroupType (T.type op.task)) T.policy (s.queue (T.type op.task)) op = some q) :
    Inv T (s.setQueue (T.type op.task) q) := by
  have hplain : plainCall op = true := by simpa [hult] using hcall
  refine ⟨hi.ascending,fun type => ?_,fun type n hn => ?_⟩
  · by_cases ht : type = T.type op.task
    · subst ht
      obtain ⟨Z,hZ⟩ := hi.queue (T.type op.task)
      rw [show (s.setQueue (T.type op.task) q).queue (T.type op.task) = q from Function.update_self ..]
      exact ⟨_,queueStep_groupInv hZ hplain hc hsafe hs⟩
    · rw [show (s.setQueue (T.type op.task) q).queue type = s.queue type from Function.update_of_ne ht ..]
      exact hi.queue type
  · by_cases ht : type = T.type op.task
    · subst ht
      rw [show (s.setQueue (T.type op.task) q).queue (T.type op.task) = q from Function.update_self ..] at hn
      by_cases hop : n = op.task
      · rw [hop]
      · rw [queueStep_status hs hop] at hn
        exact hi.typed _ n hn
    · rw [show (s.setQueue (T.type op.task) q).queue type = s.queue type from Function.update_of_ne ht ..] at hn
      exact hi.typed type n hn

theorem step_inv (hult : T.ultVar = false) (l : Label) (hi : Inv T s) (hsafe : Transfers T s l)
    (hs : step T s l = some s') : Inv T s' := by
  cases l with
  | create task parent =>
    obtain rfl := Option.some.inj hs
    exact create_inv hult hi task parent
  | clearParent child parent =>
    obtain rfl := Option.some.inj hs
    simpa [clearParent,hult] using hi
  | insertTied thr task nextTask =>
    obtain ⟨-,rfl⟩ := by simpa [step] using hs
    exact (keeps_insertTied T s thr task nextTask).inv hi
  | removeTied thr task prevTask =>
    obtain ⟨-,rfl⟩ := by simpa [step] using hs
    exact (keeps_removeTied T s thr task prevTask).inv hi
  | queue op =>
    simp only [step,Option.ite_none_right_eq_some,Option.map_eq_some_iff] at hs
    obtain ⟨⟨hcall,hc⟩,q,hq,rfl⟩ := hs
    exact setQueue_inv hi hult hcall hc hsafe hq
  | setParentDependsOn task b =>
    obtain rfl := Option.some.inj hs
    exact (keeps_modify s task rfl).inv hi
  | setChildren task type q =>
    obtain rfl := Option.some.inj hs
    exact @Keeps.inv T s _ ⟨rfl,fun _ => rfl⟩ hi
  | setNumChildren n =>
    obtain rfl := Option.some.inj hs
    exact @Keeps.inv T s _ ⟨rfl,fun _ => rfl⟩ hi

end Invariant

section Choice
variable {T : Team} {s : State} {thr task : ℕ}

/-- The queues have their WAITING tasks first. -/
theorem Inv.waitingFirst (hi : Inv T s) (type : TaskType) :
    ∃ w : WaitingFirst T.env (s.kind T), w.q = (s.queue type).q ∧ w.ready = s.Waiting T type := by
  obtain ⟨Z,hZ⟩ := hi.queue type
  obtain ⟨hrep,htracks⟩ := hZ.inv
  have hkind : ∀ n, (s.queue type).status n ≠ none → s.kind T n = (s.queue type).kind n := fun n hn => by
    rw [kind,hi.typed type n hn]
  have horder : ∀ p n, n ∈ (Z p).order → (s.queue type).status n ≠ none := by
    intro p n hn hnone
    have hslice := ((htracks p).mem_order.1 hn).1
    simp [slice,hnone] at hslice
  have hzoned : ListRep (taskgroupType type).plain T.env (s.queue type).q Z ∨
      (TreeRep (taskgroupType type).plain T.env (s.queue type).q.l (s.queue type).q Z ∧
        ((s.queue type).q.t.root = .null → (s.queue type).q.l.tasks = none)) := by
    by_cases hroot : (s.queue type).q.t.root = .null
    · exact .inl (hrep.listRep hroot)
    · exact .inr ⟨(hrep.treeRep hroot).1,fun h => absurd h hroot⟩
  have hfirst : ∀ p, (Z p).order.Pairwise fun a b => s.kind T b = .waiting → s.kind T a = .waiting := by
    intro p
    have hlocal := (htracks.kindOk hZ.kinds p).waitingFirst (by cases type <;> decide)
    refine hlocal.imp_of_mem fun ha hb h => ?_
    rwa [hkind _ (horder p _ ha),hkind _ (horder p _ hb)]
  refine ⟨⟨⟨_,_,Z,hzoned⟩,hfirst⟩,rfl,Set.ext fun n => ⟨?_,?_⟩⟩
  · rintro ⟨hk,p,hn⟩
    exact ⟨horder p n hn,hk⟩
  · rintro ⟨hn,hk⟩
    refine ⟨hk,T.env.priority n,(htracks _).mem_order.2 ?_⟩
    rw [slice_self]
    exact ⟨hn,hZ.unblocked n⟩

/-- The search in both queues. -/
theorem nextTask_both (hi : Inv T s) : (s.nextTask T (s.queue .tied).q (some (s.queue .untied).q) = none ↔
      s.Waiting T .tied = ∅ ∧ s.Waiting T .untied = ∅) ∧
    ∀ n, s.nextTask T (s.queue .tied).q (some (s.queue .untied).q) = some n →
      n ∈ s.Waiting T .tied ∨ n ∈ s.Waiting T .untied := by
  obtain ⟨w1,hq1,hr1⟩ := hi.waitingFirst .tied
  obtain ⟨w2,hq2,hr2⟩ := hi.waitingFirst .untied
  have hchosen := nextTask_chosen s.parentDependsOn w1 w2
  rw [hq1,hq2,hr1,hr2] at hchosen
  refine ⟨hchosen.none_iff.trans Set.union_empty_iff,fun n hn => ?_⟩
  exact (Set.mem_union ..).1 (hchosen.highest n hn).1

/-- The search in the UNTIED queue. -/
theorem nextTask_untied (hi : Inv T s) :
    (s.nextTask T (s.queue .untied).q none = none ↔ s.Waiting T .untied = ∅) ∧
    ∀ n, s.nextTask T (s.queue .untied).q none = some n → n ∈ s.Waiting T .untied := by
  obtain ⟨w,hq,hr⟩ := hi.waitingFirst .untied
  obtain ⟨hnone,hsome⟩ := w.candidate_ready s.parentDependsOn
  rw [hq,hr] at hnone
  rw [hq,hr] at hsome
  exact ⟨hnone,fun n hn => (hsome n hn).1⟩

/-- When the list of tied tasks is not empty no TIED task passes the test. -/
theorem taskgroupTask_none (hi : Inv T s) : s.taskgroupTask T thr = none ↔
    s.Waiting T .untied = ∅ ∧ (s.Waiting T .tied = ∅ ∨ s.lastTiedTask thr ≠ none) := by
  obtain ⟨hnone,hmem⟩ := nextTask_both hi
  unfold taskgroupTask
  dsimp only
  cases hnext : s.nextTask T (s.queue .tied).q (some (s.queue .untied).q) with
  | none =>
    obtain ⟨htied,huntied⟩ := hnone.1 hnext
    simp [htied,huntied]
  | some n =>
    by_cases hcond : T.type n = .tied ∧ s.lastTiedTask thr ≠ none
    · have hasc : s.lastTiedTask thr ≠ (s.task n).ascendingTiedTask := by
        rw [hi.ascending n]
        exact hcond.2
      simp [hcond.1,hcond.2,hasc,(nextTask_untied hi).1]
    · have htest : ¬(T.type n = .tied ∧ s.lastTiedTask thr ≠ none ∧
          s.lastTiedTask thr ≠ (s.task n).ascendingTiedTask) := fun h => hcond ⟨h.1,h.2.1⟩
      simp only [Option.any_some,htest,decide_false,Bool.false_eq_true,if_false,reduceCtorEq,false_iff]
      rintro ⟨huntied,htied⟩
      rcases hmem n hnext with hn | hn
      · refine hcond ⟨hi.typed .tied n hn.1,htied.resolve_left fun he => ?_⟩
        simp [he] at hn
      · simp [huntied] at hn

theorem taskgroupTask_mem (hi : Inv T s) {n : ℕ} (hn : s.taskgroupTask T thr = some n) :
    n ∈ s.Waiting T .tied ∨ n ∈ s.Waiting T .untied := by
  unfold taskgroupTask at hn
  dsimp only at hn
  split at hn
  · exact .inr ((nextTask_untied hi).2 n hn)
  · exact (nextTask_both hi).2 n hn

theorem waiting_of_emptyP (hi : Inv T s) {type : TaskType} (he : priorityQueueEmptyP (s.queue type).q = true) :
    s.Waiting T type = ∅ := by
  obtain ⟨w,hq,hr⟩ := hi.waitingFirst type
  rw [← hq] at he
  rw [← hr,Set.eq_empty_iff_forall_notMem]
  intro m hm
  obtain ⟨n,hn,-⟩ := w.exists_lead hm
  rw [w.leads_of_emptyP he] at hn
  exact hn

/-- The filter drops the only WAITING tasks exactly when the list of tied tasks is not empty and none of them is
UNTIED. -/
theorem progress_iff (hi : Inv T s) : Progress T s thr task ↔
    s.lastTiedTask thr = none ∨ s.Waiting T .tied = ∅ ∨ (s.Waiting T .untied).Nonempty := by
  by_cases he : (priorityQueueEmptyP (s.queue .tied).q && priorityQueueEmptyP (s.queue .untied).q) = true
  · have hempty : ∀ type, s.Waiting T type = ∅ := by
      rw [Bool.and_eq_true] at he
      intro type
      cases type with
      | tied => exact waiting_of_emptyP hi he.1
      | untied => exact waiting_of_emptyP hi he.2
    refine ⟨fun _ => .inr (.inl (hempty .tied)),fun _ => ⟨fun type hn => ?_,fun _ => hempty⟩⟩
    simp [hempty type] at hn
  · have hchoice : s.gompTaskgroupEnd T thr task = s.runOrWait T (s.taskgroupTask T thr) := if_neg he
    constructor
    · intro hp
      by_contra hcon
      push Not at hcon
      obtain ⟨hlast,htied,huntied⟩ := hcon
      have hnone : s.taskgroupTask T thr = none := (taskgroupTask_none hi).2 ⟨huntied,.inr hlast⟩
      have hwait : s.gompTaskgroupEnd T thr task = .wait := by rw [hchoice,hnone]; rfl
      have hempty := hp.waits hwait .tied
      simp [hempty] at htied
    · intro hok
      cases htask : s.taskgroupTask T thr with
      | none =>
        obtain ⟨huntied,htied⟩ := (taskgroupTask_none hi).1 htask
        have hempty : ∀ type, s.Waiting T type = ∅ := by
          intro type
          cases type with
          | untied => exact huntied
          | tied =>
            rcases hok with hlast | htied' | hn
            · exact htied.resolve_right fun h => h hlast
            · exact htied'
            · simp [huntied] at hn
        exact ⟨fun type hn => by simp [hempty type] at hn,fun _ => hempty⟩
      | some n =>
        have hmem := taskgroupTask_mem hi htask
        have hk : s.kind T n = .waiting := hmem.elim (·.2) (·.2)
        have hrun : s.gompTaskgroupEnd T thr task = .run n := by simp [hchoice,htask,runOrWait,hk]
        refine ⟨fun _ _ => ?_,fun hwait => ?_⟩
        · rcases hmem with hn | hn
          · exact ⟨.tied,n,hn,hrun⟩
          · exact ⟨.untied,n,hn,hrun⟩
        · rw [hrun] at hwait
          cases hwait

end Choice

section Runs

/-- In every run of a team without user level threads whose transfers are safe, the selection makes progress exactly
when no TIED task is on the list of the thread, or when the list does not matter. -/
theorem taskgroup_progress (T : Team) (hult : T.ultVar = false) (s₀ s : State) (h₀ : Initial s₀) (ls : List Label)
    (hsafe : Along (step T) (Transfers T) s₀ ls) (hs : run (step T) s₀ ls = some s) (thr task : ℕ) :
    Progress T s thr task ↔
      s.lastTiedTask thr = none ∨ s.Waiting T .tied = ∅ ∨ (s.Waiting T .untied).Nonempty :=
  progress_iff (run_invariant (fun _ l _ hi hc hstep => step_inv hult l hi hc hstep) h₀.inv hsafe hs)

/-- A team of one thread, whose implicit task is 0; all tasks are TIED. -/
def serialTeam : Team where
  ultVar := false
  policy := 0
  priority _ := 0
  type _ := .tied
  implicit t := t = 0

def serialInit : State where
  task _ := {}
  lastTiedTask _ := none
  queue _ := .init (fun _ => PriorityList.empty 0) ⟨fun _ => none,fun _ => none⟩ ⟨id,id⟩ fun _ => .implicit
  numChildren := 0
  children _ _ := priorityQueueInit (fun _ => PriorityList.empty 0) ⟨fun _ => none,fun _ => none⟩ ⟨id,id⟩

theorem serialInit_initial : Initial serialInit :=
  ⟨fun _ => rfl,fun _ => ⟨_,_,_,_,rfl⟩⟩

/-- Task 1 opens the taskgroup and puts task 2 into it. -/
def serialLabels : List Label :=
  [.create 1 0,.create 2 1,.setNumChildren 1,.queue (.insert 2 .insertEnd false false .waiting)]

/-- Task 1 is not on the list of the thread. -/
theorem taskgroup_progress_serial :
    ∃ s, run (step serialTeam) serialInit serialLabels = some s ∧ Progress serialTeam s 0 1 := by
  obtain ⟨s,hs⟩ := Option.isSome_iff_exists.mp
    (show (run (step serialTeam) serialInit serialLabels).isSome = true by decide)
  have hsafe : Along (step serialTeam) (Transfers serialTeam) serialInit serialLabels := along_of_check (by decide)
  have hlast : (run (step serialTeam) serialInit serialLabels).all (fun s => s.lastTiedTask 0 = none) = true := by
    decide
  rw [hs,Option.all_some,decide_eq_true_eq] at hlast
  exact ⟨s,hs,(taskgroup_progress serialTeam rfl _ s serialInit_initial _ hsafe hs 0 1).2 (.inl hlast)⟩

/-- Before that the thread has taken task 1 from the queues at its barrier. -/
def barrierLabels : List Label :=
  [.create 1 0,.insertTied 0 0 1,.create 2 1,.setNumChildren 1,.queue (.insert 2 .insertEnd false false .waiting)]

/-- At the end of the taskgroup the thread sleeps beside task 2. -/
theorem taskgroup_sleeps : ¬∀ (T : Team) (s₀ s : State) (ls : List Label), T.ultVar = false → Initial s₀ →
    Along (step T) (Transfers T) s₀ ls → run (step T) s₀ ls = some s → ∀ thr task, Progress T s thr task := by
  intro h
  obtain ⟨s,hs⟩ := Option.isSome_iff_exists.mp
    (show (run (step serialTeam) serialInit barrierLabels).isSome = true by decide)
  have hsafe : Along (step serialTeam) (Transfers serialTeam) serialInit barrierLabels :=
    along_of_check (by decide)
  have hbad : (run (step serialTeam) serialInit barrierLabels).all (fun s =>
      s.gompTaskgroupEnd serialTeam 0 1 = .wait ∧ (s.queue .tied).status 2 ≠ none ∧
        s.kind serialTeam 2 = .waiting) = true := by decide
  rw [hs,Option.all_some,decide_eq_true_eq] at hbad
  obtain ⟨hwait,hmem⟩ := hbad
  have hempty := (h serialTeam serialInit s _ rfl serialInit_initial hsafe hs 0 1).waits hwait .tied
  exact (Set.eq_empty_iff_forall_notMem.1 hempty 2) hmem

end Runs

end State

end GompUlt.TaskgroupProgress
