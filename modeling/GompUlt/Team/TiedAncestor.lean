import GompUlt.Team.TeamState
import GompUlt.Lib.Run

/-! # The nearest TIED ancestor of a task

Every task keeps a pointer to the nearest ancestor that is TIED and explicit.  Each way to create a
task sets it in its own place, and a task that finishes repairs it for the children it still has in
its queues.
-/
namespace GompUlt.TiedAncestor
open Run
open Team (TaskType)

/-- struct gomp_task.  The two children queues are one list, `unmet` is a positive num_dependees and
`onStack` marks an undeferred task that lives in the frame of its creator.  `creator` and `finished`
are not in the source: the task that created this one, whether or not it still exists, and whether
this one has been freed. -/
structure Task where
  creator : Option ℕ := none
  parent : Option ℕ := none
  type : TaskType := .tied
  implicit : Bool := false
  ascendingTiedTask : Option ℕ := none
  children : List ℕ := []
  unmet : Bool := false
  onStack : Bool := false
  finished : Bool := false
deriving DecidableEq, Repr

/-- The task can bind others to its thread. -/
def Task.isTied (x : Task) : Bool := !x.finished && !x.implicit && x.type = .tied

/-- The tasks of a team; they are numbered in the order of creation. -/
structure State where
  task : ℕ → Task
  numTasks : ℕ

def init (nthreads : ℕ) : State where
  task _ := { implicit := true }
  numTasks := nthreads

namespace State

def modify (s : State) (t : ℕ) (f : Task → Task) : State := { s with task := Function.update s.task t (f (s.task t)) }

section Creation

/-- gomp_init_task, once the kind is no longer that of an implicit task. -/
def gompInitTask (parent : ℕ) : Task := { creator := some parent, parent := some parent }

/-- The assignment to ascending_tied_task in GOMP_task and gomp_create_target_task; the latter skips
it when the value is NULL, which gomp_init_task has stored already. -/
def ascendingFor (s : State) (parent : ℕ) : Option ℕ :=
  let p := s.task parent
  if p.implicit then none
  else match p.type with
    | .tied => some parent
    | .untied => p.ascendingTiedTask

def addTask (s : State) (x : Task) : State :=
  { task := Function.update s.task s.numTasks x, numTasks := s.numTasks + 1 }

def insertChild (s : State) (parent task : ℕ) : State :=
  s.modify parent fun x => { x with children := x.children ++ [task] }

/-- A task with unmet dependences goes to no queue, and so does one on the stack. -/
def create (s : State) (parent : ℕ) (x : Task) : State :=
  if x.unmet || x.onStack then s.addTask x else (s.addTask x).insertChild parent s.numTasks

/-- GOMP_task, deferred. -/
def gompTask (s : State) (parent : ℕ) (type : TaskType) (unmet : Bool) : State :=
  s.create parent { gompInitTask parent with type, ascendingTiedTask := s.ascendingFor parent, unmet }

/-- GOMP_task, undeferred, in an explicit task. -/
def gompTaskUndeferred (s : State) (parent : ℕ) (taskType : TaskType) (final : Bool) : State :=
  s.create parent { gompInitTask parent with
    type := if final || (s.task parent).type = .tied then .tied else taskType
    ascendingTiedTask := s.ascendingFor parent
    onStack := true }

/-- GOMP_task, undeferred, in an implicit task. -/
def gompSuspendImplicitForUndeferred (s : State) (implicit : ℕ) (unmet : Bool) : State :=
  s.create implicit { gompInitTask implicit with unmet }

/-- One task of GOMP_taskloop. -/
def gompTaskloop (s : State) (parent : ℕ) (onStack : Bool) : State :=
  s.create parent { gompInitTask parent with onStack }

def gompCreateTargetTask (s : State) (parent : ℕ) (unmet : Bool) : State :=
  s.create parent { gompInitTask parent with ascendingTiedTask := s.ascendingFor parent, unmet }

end Creation

section Completion

/-- One turn of the loop of gomp_task_run_post_handle_dependers, for a task that has no other
dependence. -/
def releaseDepender (childTask : ℕ) (s : State) (task : ℕ) : State :=
  let s := s.modify task fun x => { x with unmet := false }
  match (s.task childTask).parent with
  | some parent => s.insertChild parent task
  | none => s

def gompTaskRunPostHandleDependers (s : State) (childTask : ℕ) (released : List ℕ) : State :=
  released.foldl (releaseDepender childTask) s

def gompTaskRunPostRemoveParent (s : State) (childTask : ℕ) : State :=
  match (s.task childTask).parent with
  | some parent => s.modify parent fun x => { x with children := x.children.erase childTask }
  | none => s

/-- The body of the loops of gomp_clear_parent_in_list.  The parent of a task in the list is not in
the list itself. -/
def clearedParent (s : State) (x : Task) : Task :=
  { x with
    ascendingTiedTask :=
      if x.parent = x.ascendingTiedTask then x.parent.bind fun p => (s.task p).ascendingTiedTask
      else x.ascendingTiedTask
    parent := none }

def gompClearParent (s : State) (task : ℕ) : State :=
  { s with
    task := fun u => if u ∈ (s.task task).children then s.clearedParent (s.task u) else s.task u }

def free (s : State) (task : ℕ) : State := s.modify task fun x => { x with finished := true }

/-- The end of a task that the queues hold. -/
def gompTerminateTask (s : State) (task : ℕ) (released : List ℕ) : State :=
  (((s.gompTaskRunPostHandleDependers task released).gompTaskRunPostRemoveParent task).gompClearParent task).free task

/-- The end of an undeferred task on the stack. -/
def gompEndTask (s : State) (task : ℕ) : State := (s.gompClearParent task).free task

end Completion

end State

inductive Event where
  | task (parent : ℕ) (type : TaskType) (unmet : Bool)
  | undeferred (parent : ℕ) (type : TaskType) (final : Bool)
  | undeferredImplicit (implicit : ℕ) (unmet : Bool)
  | taskloop (parent : ℕ) (onStack : Bool)
  | target (parent : ℕ) (unmet : Bool)
  | finish (task : ℕ) (released : List ℕ)
  | finishUndeferred (task : ℕ)
deriving DecidableEq, Repr

namespace State

/-- The task may create another one. -/
def isActive (s : State) (t : ℕ) : Bool := t < s.numTasks && !(s.task t).finished && !(s.task t).unmet

/-- The task may return: nothing runs in its frame any more. -/
def hasReturned (s : State) (t : ℕ) : Bool :=
  s.isActive t && !(s.task t).implicit && (List.range s.numTasks).all fun u =>
    (s.task u).onStack → (s.task u).creator = some t → (s.task u).finished

/-- Siblings whose dependences are all met once the task has finished. -/
def canRelease (s : State) (t : ℕ) (released : List ℕ) : Bool :=
  released.Nodup && released.all fun u =>
    u < s.numTasks && (s.task u).unmet && (s.task u).creator = (s.task t).creator

def enabled (s : State) : Event → Bool
  | .task p _ _ | .taskloop p _ | .target p _ => s.isActive p
  | .undeferred p _ _ => s.isActive p && !(s.task p).implicit
  | .undeferredImplicit p _ => s.isActive p && (s.task p).implicit
  | .finish t released => s.hasReturned t && !(s.task t).onStack && s.canRelease t released
  | .finishUndeferred t => s.hasReturned t && (s.task t).onStack

def exec (s : State) : Event → State
  | .task p type unmet => s.gompTask p type unmet
  | .undeferred p type final => s.gompTaskUndeferred p type final
  | .undeferredImplicit p unmet => s.gompSuspendImplicitForUndeferred p unmet
  | .taskloop p onStack => s.gompTaskloop p onStack
  | .target p unmet => s.gompCreateTargetTask p unmet
  | .finish t released => s.gompTerminateTask t released
  | .finishUndeferred t => s.gompEndTask t

def step (s : State) (e : Event) : Option State := if s.enabled e then some (s.exec e) else none

/-- The first unfinished TIED explicit task on the way from a task to the root; a creator has a
smaller number than its children, so the number of the task is fuel enough. -/
def nearestTied (s : State) : ℕ → ℕ → Option ℕ
  | 0, _ => none
  | fuel + 1, t =>
    match (s.task t).creator with
    | none => none
    | some c => if (s.task c).isTied then some c else nearestTied s fuel c

def nearest (s : State) (t : ℕ) : Option ℕ := s.nearestTied t t

/-- What ascending_tied_task is for. -/
def Correct (s : State) : Prop :=
  ∀ t < s.numTasks, (s.task t).implicit = false → (s.task t).finished = false →
    (s.task t).ascendingTiedTask = s.nearest t

end State

/-- The shape of the task tree.  A child in the queue of an unfinished task points to it, and a task
that waits for its dependences has kept the pointer to its creator. -/
structure Shape (s : State) : Prop where
  creator_lt : ∀ t c, (s.task t).creator = some c → c < t ∧ t < s.numTasks
  implicit : ∀ t, (s.task t).implicit = true → (s.task t).creator = none
  parent : ∀ t p, (s.task t).parent = some p → (s.task t).creator = some p
  child : ∀ q u, (s.task q).finished = false → u ∈ (s.task q).children →
    (s.task u).parent = some q ∧ (s.task u).unmet = false
  unmet : ∀ t, (s.task t).unmet = true → (s.task t).parent = (s.task t).creator

theorem Shape.child_lt {s : State} (h : Shape s) {q u : ℕ} (hq : (s.task q).finished = false)
    (hu : u ∈ (s.task q).children) : q < u ∧ u < s.numTasks :=
  h.creator_lt u q (h.parent u q (h.child q u hq hu).1)

theorem init_shape (nthreads : ℕ) : Shape (init nthreads) := by
  constructor <;> simp [init]

section Nearest
variable {s s' : State}

theorem nearestTied_fuel (h : Shape s) {n m t : ℕ} (hn : t ≤ n) (hm : t ≤ m) :
    s.nearestTied n t = s.nearestTied m t := by
  have root : ∀ k, s.nearestTied k 0 = none := by
    intro k
    cases k with
    | zero => rfl
    | succ k =>
      cases hc : (s.task 0).creator with
      | none => simp [State.nearestTied, hc]
      | some c => exact absurd (h.creator_lt 0 c hc).1 (Nat.not_lt_zero c)
  induction n generalizing m t with
  | zero =>
    obtain rfl := Nat.le_zero.mp hn
    rw [root,root]
  | succ n ih =>
    cases m with
    | zero =>
      obtain rfl := Nat.le_zero.mp hm
      rw [root,root]
    | succ m =>
      cases hc : (s.task t).creator with
      | none => simp [State.nearestTied, hc]
      | some c =>
        have hlt := (h.creator_lt t c hc).1
        simp only [State.nearestTied, hc]
        rw [ih (by omega) (show c ≤ m by omega)]

theorem nearest_root {t : ℕ} (hc : (s.task t).creator = none) : s.nearest t = none := by
  cases t with
  | zero => rfl
  | succ t => simp [State.nearest, State.nearestTied, hc]

theorem nearest_child (h : Shape s) {t c : ℕ} (hc : (s.task t).creator = some c) :
    s.nearest t = if (s.task c).isTied then some c else s.nearest c := by
  have hlt := (h.creator_lt t c hc).1
  obtain ⟨n,rfl⟩ : ∃ n, t = n + 1 := ⟨t - 1,by omega⟩
  simp only [State.nearest, State.nearestTied, hc]
  rw [nearestTied_fuel h (show c ≤ n by omega) le_rfl]

/-- An induction along the creators of a task. -/
theorem creator_induction (h : Shape s) {P : ℕ → Prop} (root : ∀ t, (s.task t).creator = none → P t)
    (child : ∀ t c, (s.task t).creator = some c → P c → P t) (t : ℕ) : P t := by
  induction t using Nat.strong_induction_on with
  | _ t ih =>
    cases hc : (s.task t).creator with
    | none => exact root t hc
    | some c => exact child t c hc (ih c (h.creator_lt t c hc).1)

theorem nearest_lt (h : Shape s) {t q : ℕ} (hq : s.nearest t = some q) : q < t := by
  induction t using creator_induction h with
  | root t hc =>
    rw [nearest_root hc] at hq
    cases hq
  | child t c hc ih =>
    have hlt := (h.creator_lt t c hc).1
    rw [nearest_child h hc] at hq
    split at hq
    · cases hq
      exact hlt
    · exact (ih hq).trans hlt

/-- The walk reads the creators and which tasks are TIED. -/
theorem nearest_congr (h : Shape s) (h' : Shape s') {n : ℕ}
    (hc : ∀ t < n, (s'.task t).creator = (s.task t).creator ∧ (s'.task t).isTied = (s.task t).isTied) {t : ℕ}
    (ht : t < n) : s'.nearest t = s.nearest t := by
  induction t using creator_induction h with
  | root t hroot => rw [nearest_root hroot,nearest_root ((hc t ht).1.trans hroot)]
  | child t c hcr ih =>
    have hlt := (h.creator_lt t c hcr).1
    rw [nearest_child h hcr,nearest_child h' ((hc t ht).1.trans hcr),(hc c (hlt.trans ht)).2,ih (hlt.trans ht)]

/-- When a task finishes, the tasks below it pass on to its own nearest TIED ancestor. -/
theorem nearest_finish (h : Shape s) (h' : Shape s') {q : ℕ}
    (hc : ∀ t, (s'.task t).creator = (s.task t).creator)
    (ht : ∀ t, (s'.task t).isTied = (decide (t ≠ q) && (s.task t).isTied)) (t : ℕ) :
    s'.nearest t = if s.nearest t = some q then s.nearest q else s.nearest t := by
  induction t using Nat.strong_induction_on with
  | _ t ih =>
    cases hcr : (s.task t).creator with
    | none =>
      rw [nearest_root hcr,nearest_root ((hc t).trans hcr)]
      simp
    | some c =>
      have hlt := (h.creator_lt t c hcr).1
      rw [nearest_child h' ((hc t).trans hcr),nearest_child h hcr,ht,ih c hlt]
      by_cases hcq : c = q
      · subst hcq
        have hself : s.nearest c ≠ some c := fun e => absurd (nearest_lt h e) (lt_irrefl c)
        cases (s.task c).isTied <;> simp [hself]
      · cases (s.task c).isTied <;> simp [hcq]

end Nearest

section Creation
variable {s : State} {p : ℕ} {x : Task}

/-- The record of a task that is being created. -/
structure IsNew (p : ℕ) (x : Task) : Prop where
  creator : x.creator = some p
  parent : x.parent = some p
  implicit : x.implicit = false
  finished : x.finished = false
  children : x.children = []

theorem create_numTasks : (s.create p x).numTasks = s.numTasks + 1 := by
  unfold State.create
  split <;> rfl

theorem create_new (hp : p < s.numTasks) : (s.create p x).task s.numTasks = x := by
  unfold State.create
  split
  · simp [State.addTask]
  · simp [State.addTask, State.insertChild, State.modify, Function.update_apply, hp.ne']

/-- The other tasks only get the new child into their list. -/
theorem create_old {t : ℕ} (ht : t ≠ s.numTasks) :
    ∃ l, (s.create p x).task t = { s.task t with children := l } ∧
      ∀ u ∈ l, u ∈ (s.task t).children ∨ u = s.numTasks ∧ t = p ∧ x.unmet = false := by
  unfold State.create
  split
  · exact ⟨(s.task t).children,by simp [State.addTask, ht],fun u hu => Or.inl hu⟩
  · next hx =>
    by_cases htp : t = p
    · subst htp
      refine ⟨(s.task t).children ++ [s.numTasks],?_,fun u hu => ?_⟩
      · simp [State.addTask, State.insertChild, State.modify, ht]
      · rcases List.mem_append.mp hu with h | h
        · exact Or.inl h
        · exact Or.inr ⟨List.mem_singleton.mp h,rfl,by simp_all⟩
    · exact ⟨(s.task t).children,by simp [State.addTask, State.insertChild, State.modify, Function.update_apply, ht, htp],
        fun u hu => Or.inl hu⟩

theorem create_shape (h : Shape s) (hp : p < s.numTasks) (hx : IsNew p x) : Shape (s.create p x) := by
  constructor
  · intro t c hc
    rw [create_numTasks]
    by_cases ht : t = s.numTasks
    · subst ht
      rw [create_new hp,hx.creator] at hc
      cases hc
      exact ⟨hp,Nat.lt_succ_self _⟩
    · obtain ⟨l,hl,_⟩ := create_old (p := p) (x := x) ht
      rw [hl] at hc
      have hold := h.creator_lt t c hc
      exact ⟨hold.1,hold.2.trans (Nat.lt_succ_self _)⟩
  · intro t hi
    by_cases ht : t = s.numTasks
    · subst ht
      rw [create_new hp,hx.implicit] at hi
      cases hi
    · obtain ⟨l,hl,_⟩ := create_old (p := p) (x := x) ht
      rw [hl] at hi ⊢
      exact h.implicit t hi
  · intro t q hq
    by_cases ht : t = s.numTasks
    · subst ht
      rw [create_new hp] at hq ⊢
      rw [hx.parent] at hq
      rw [hx.creator,hq]
    · obtain ⟨l,hl,_⟩ := create_old (p := p) (x := x) ht
      rw [hl] at hq ⊢
      exact h.parent t q hq
  · intro q u hq hu
    by_cases hqn : q = s.numTasks
    · subst hqn
      rw [create_new hp,hx.children] at hu
      cases hu
    · obtain ⟨l,hl,hmem⟩ := create_old (p := p) (x := x) hqn
      rw [hl] at hq hu
      rcases hmem u hu with hold | ⟨rfl,rfl,hun⟩
      · have hun := (h.child_lt hq hold).2.ne
        obtain ⟨l',hl',_⟩ := create_old (p := p) (x := x) hun
        rw [hl']
        exact h.child q u hq hold
      · rw [create_new hp]
        exact ⟨hx.parent,hun⟩
  · intro t hun
    by_cases ht : t = s.numTasks
    · subst ht
      rw [create_new hp,hx.parent,hx.creator]
    · obtain ⟨l,hl,_⟩ := create_old (p := p) (x := x) ht
      rw [hl] at hun ⊢
      exact h.unmet t hun

/-- A new task has the right pointer when it is its creator's own, or the creator itself. -/
theorem create_correct_iff (h : Shape s) (hok : s.Correct) (hp : p < s.numTasks) (hx : IsNew p x) :
    (s.create p x).Correct ↔ x.ascendingTiedTask = if (s.task p).isTied then some p else s.nearest p := by
  have h' := create_shape h hp hx
  have hsame : ∀ t < s.numTasks, ((s.create p x).task t).creator = (s.task t).creator ∧
      ((s.create p x).task t).isTied = (s.task t).isTied := by
    intro t ht
    obtain ⟨l,hl,_⟩ := create_old (p := p) (x := x) ht.ne
    rw [hl]
    exact ⟨rfl,rfl⟩
  have hnew : (s.create p x).nearest s.numTasks = if (s.task p).isTied then some p else s.nearest p := by
    rw [nearest_child h' (c := p) (by rw [create_new hp,hx.creator]),(hsame p hp).2,nearest_congr h h' hsame hp]
  constructor
  · intro hc
    have := hc s.numTasks (by rw [create_numTasks]; omega)
    rw [create_new hp] at this
    rw [← hnew]
    exact this hx.implicit hx.finished
  · intro hasc t ht hi hf
    rw [create_numTasks] at ht
    by_cases htn : t = s.numTasks
    · subst htn
      rw [hnew,create_new hp,hasc]
    · have htl : t < s.numTasks := by omega
      rw [nearest_congr h h' hsame htl]
      obtain ⟨l,hl,_⟩ := create_old (p := p) (x := x) htn
      rw [hl] at hi hf ⊢
      exact hok t htl hi hf

/-- GOMP_task and gomp_create_target_task take the right pointer from the creator. -/
theorem ascendingFor_eq (h : Shape s) (hok : s.Correct) (hp : s.isActive p = true) :
    s.ascendingFor p = if (s.task p).isTied then some p else s.nearest p := by
  simp only [State.isActive, Bool.and_eq_true, decide_eq_true_eq, Bool.not_eq_true'] at hp
  obtain ⟨⟨hlt,hf⟩,_⟩ := hp
  unfold State.ascendingFor Task.isTied
  cases hi : (s.task p).implicit with
  | true => simp [hi, nearest_root (h.implicit p hi)]
  | false =>
    cases ht : (s.task p).type with
    | tied => simp [hi, hf, ht]
    | untied => simp [hi, ht, hok p hlt hi hf]

end Creation

section Completion
variable {s s' : State} {q : ℕ}

/-- The second state differs from the first in the children lists and in what is unmet. -/
structure Relinked (s s' : State) (q : ℕ) : Prop where
  numTasks : s'.numTasks = s.numTasks
  task : ∀ t, ∃ l b, s'.task t = { s.task t with children := l, unmet := b }
  children : (s'.task q).children = (s.task q).children

theorem Relinked.refl (s : State) (q : ℕ) : Relinked s s q :=
  ⟨rfl,fun t => ⟨(s.task t).children,(s.task t).unmet,rfl⟩,rfl⟩

theorem Relinked.trans {s'' : State} (h : Relinked s s' q) (h' : Relinked s' s'' q) : Relinked s s'' q := by
  refine ⟨h'.numTasks.trans h.numTasks,fun t => ?_,h'.children.trans h.children⟩
  obtain ⟨l,b,hl⟩ := h.task t
  obtain ⟨l',b',hl'⟩ := h'.task t
  exact ⟨l',b',by rw [hl',hl]⟩

theorem Relinked.shape (hr : Relinked s s' q) (h : Shape s)
    (hchild : ∀ p u, (s.task p).finished = false → u ∈ (s'.task p).children →
      (s.task u).parent = some p ∧ (s'.task u).unmet = false)
    (hunmet : ∀ t, (s'.task t).unmet = true → (s.task t).unmet = true) : Shape s' := by
  have hsame : ∀ t, (s'.task t).creator = (s.task t).creator ∧ (s'.task t).implicit = (s.task t).implicit ∧
      (s'.task t).parent = (s.task t).parent ∧ (s'.task t).finished = (s.task t).finished := by
    intro t
    obtain ⟨l,b,hl⟩ := hr.task t
    rw [hl]
    exact ⟨rfl,rfl,rfl,rfl⟩
  constructor
  · intro t c hc
    rw [(hsame t).1] at hc
    rw [hr.numTasks]
    exact h.creator_lt t c hc
  · intro t hi
    rw [(hsame t).2.1] at hi
    rw [(hsame t).1]
    exact h.implicit t hi
  · intro t p hp
    rw [(hsame t).2.2.1] at hp
    rw [(hsame t).1]
    exact h.parent t p hp
  · intro p u hf hu
    rw [(hsame p).2.2.2] at hf
    rw [(hsame u).2.2.1]
    exact hchild p u hf hu
  · intro t ht
    rw [(hsame t).1,(hsame t).2.2.1]
    exact h.unmet t (hunmet t ht)

theorem releaseDepender_numTasks (u : ℕ) : (State.releaseDepender q s u).numTasks = s.numTasks := by
  unfold State.releaseDepender
  dsimp only
  split <;> rfl

theorem releaseDepender_task (u v : ℕ) : (State.releaseDepender q s u).task v =
    { s.task v with
      children := if (s.task q).parent = some v then (s.task v).children ++ [u] else (s.task v).children
      unmet := if v = u then false else (s.task v).unmet } := by
  have hparent : ((s.modify u fun x => { x with unmet := false }).task q).parent = (s.task q).parent := by
    by_cases hq : q = u <;> simp [State.modify, hq]
  unfold State.releaseDepender
  dsimp only
  rw [hparent]
  cases hpq : (s.task q).parent with
  | none => by_cases hv : v = u <;> simp [State.modify, hv]
  | some parent =>
    by_cases hp : v = parent
    · subst hp
      by_cases hv : v = u <;> simp [State.modify, State.insertChild, hv]
    · have hp' : parent ≠ v := fun e => hp e.symm
      by_cases hv : v = u
      · subst hv
        simp [State.modify, State.insertChild, hp, hp']
      · simp [State.modify, State.insertChild, Function.update_apply, hv, hp, hp']

/-- A depender that has no other dependence becomes a child of its own creator. -/
theorem releaseDepender_spec (h : Shape s) {u : ℕ} (hu : (s.task u).unmet = true)
    (hc : (s.task u).creator = (s.task q).creator) :
    Shape (State.releaseDepender q s u) ∧ Relinked s (State.releaseDepender q s u) q := by
  have hr : Relinked s (State.releaseDepender q s u) q := by
    refine ⟨releaseDepender_numTasks u,fun t => ⟨_,_,releaseDepender_task u t⟩,?_⟩
    rw [releaseDepender_task]
    refine if_neg fun hp => ?_
    exact absurd (h.creator_lt q q (h.parent q q hp)).1 (lt_irrefl q)
  refine ⟨hr.shape h ?_ ?_,hr⟩
  · intro p v hf hv
    rw [releaseDepender_task] at hv ⊢
    dsimp only at hv ⊢
    have hold : v ∈ (s.task p).children → (s.task v).parent = some p ∧
        (if v = u then false else (s.task v).unmet) = false := by
      intro hm
      obtain ⟨hpar,hun⟩ := h.child p v hf hm
      exact ⟨hpar,by simp [hun]⟩
    split at hv
    · next hp =>
      rcases List.mem_append.mp hv with hm | hm
      · exact hold hm
      · obtain rfl := List.mem_singleton.mp hm
        rw [h.unmet v hu,hc]
        exact ⟨h.parent q p hp,if_pos rfl⟩
    · exact hold hv
  · intro t ht
    rw [releaseDepender_task] at ht
    dsimp only at ht
    split at ht
    · cases ht
    · exact ht

theorem handleDependers_spec (h : Shape s) {released : List ℕ} (hnd : released.Nodup)
    (hrel : ∀ u ∈ released, (s.task u).unmet = true ∧ (s.task u).creator = (s.task q).creator) :
    Shape (s.gompTaskRunPostHandleDependers q released) ∧
      Relinked s (s.gompTaskRunPostHandleDependers q released) q := by
  induction released generalizing s with
  | nil => exact ⟨h,Relinked.refl s q⟩
  | cons u rest ih =>
    obtain ⟨hnot,hrest⟩ := List.nodup_cons.mp hnd
    obtain ⟨hu,hc⟩ := hrel u List.mem_cons_self
    obtain ⟨hshape,hlink⟩ := releaseDepender_spec h hu hc
    have hnext : ∀ v ∈ rest, ((State.releaseDepender q s u).task v).unmet = true ∧
        ((State.releaseDepender q s u).task v).creator = ((State.releaseDepender q s u).task q).creator := by
      intro v hv
      have hne : v ≠ u := fun e => hnot (e ▸ hv)
      obtain ⟨hun,hcr⟩ := hrel v (List.mem_cons_of_mem u hv)
      rw [releaseDepender_task,releaseDepender_task]
      exact ⟨by simp [hne, hun],hcr⟩
    obtain ⟨hfinal,hlinks⟩ := ih hshape hrest hnext
    exact ⟨hfinal,hlink.trans hlinks⟩

theorem removeParent_spec (h : Shape s) : Shape (s.gompTaskRunPostRemoveParent q) ∧
    Relinked s (s.gompTaskRunPostRemoveParent q) q := by
  unfold State.gompTaskRunPostRemoveParent
  cases hpq : (s.task q).parent with
  | none => exact ⟨h,Relinked.refl s q⟩
  | some p =>
    have hne : q ≠ p := (h.creator_lt q p (h.parent q p hpq)).1.ne'
    have htask : ∀ t, (s.modify p fun x => { x with children := x.children.erase q }).task t =
        { s.task t with
          children := if t = p then (s.task t).children.erase q else (s.task t).children
          unmet := (s.task t).unmet } := by
      intro t
      by_cases ht : t = p <;> simp [State.modify, ht]
    have hr : Relinked s (s.modify p fun x => { x with children := x.children.erase q }) q :=
      ⟨rfl,fun t => ⟨_,_,htask t⟩,by rw [htask,if_neg hne]⟩
    refine ⟨hr.shape h ?_ ?_,hr⟩
    · intro t u hf hu
      rw [htask] at hu ⊢
      dsimp only at hu ⊢
      refine h.child t u hf ?_
      split at hu
      · exact List.mem_of_mem_erase hu
      · exact hu
    · intro t ht
      rw [htask] at ht
      exact ht

/-- The last two steps of a completion. -/
theorem gompEndTask_task (s : State) (q t : ℕ) : (s.gompEndTask q).task t =
    { (if t ∈ (s.task q).children then s.clearedParent (s.task t) else s.task t) with
      finished := (s.task t).finished || decide (t = q) } := by
  unfold State.gompEndTask State.free State.gompClearParent State.modify
  by_cases ht : t = q
  · subst ht
    by_cases hm : t ∈ (s.task t).children <;> simp [hm, State.clearedParent]
  · by_cases hm : t ∈ (s.task q).children <;> simp [hm, ht, State.clearedParent]

theorem gompEndTask_fields (s : State) (q t : ℕ) :
    ((s.gompEndTask q).task t).creator = (s.task t).creator ∧
      ((s.gompEndTask q).task t).implicit = (s.task t).implicit ∧
      ((s.gompEndTask q).task t).unmet = (s.task t).unmet ∧
      ((s.gompEndTask q).task t).children = (s.task t).children ∧
      ((s.gompEndTask q).task t).finished = ((s.task t).finished || decide (t = q)) ∧
      ((s.gompEndTask q).task t).isTied = (decide (t ≠ q) && (s.task t).isTied) := by
  rw [gompEndTask_task]
  unfold Task.isTied
  by_cases hm : t ∈ (s.task q).children
  · simp only [if_pos hm, State.clearedParent]
    by_cases ht : t = q <;> simp [ht]
  · simp only [if_neg hm]
    by_cases ht : t = q <;> simp [ht]

theorem gompEndTask_shape (h : Shape s) (hq : (s.task q).finished = false) : Shape (s.gompEndTask q) := by
  constructor
  · intro t c hc
    rw [(gompEndTask_fields s q t).1] at hc
    exact h.creator_lt t c hc
  · intro t hi
    rw [(gompEndTask_fields s q t).2.1] at hi
    rw [(gompEndTask_fields s q t).1]
    exact h.implicit t hi
  · intro t p hp
    rw [(gompEndTask_fields s q t).1]
    rw [gompEndTask_task] at hp
    dsimp only at hp
    split at hp
    · cases hp
    · exact h.parent t p hp
  · intro p u hf hu
    obtain ⟨_,_,hun,_,_,_⟩ := gompEndTask_fields s q u
    rw [hun]
    obtain ⟨_,_,_,hch,hfin,_⟩ := gompEndTask_fields s q p
    rw [hch] at hu
    rw [hfin] at hf
    simp only [Bool.or_eq_false_iff, decide_eq_false_iff_not] at hf
    obtain ⟨hpar,hmet⟩ := h.child p u hf.1 hu
    -- the children of another task are not among those that have been cleared
    have hnot : u ∉ (s.task q).children := by
      intro hm
      have := (h.child q u hq hm).1
      rw [hpar] at this
      exact hf.2 (Option.some.inj this)
    rw [gompEndTask_task,if_neg hnot]
    exact ⟨hpar,hmet⟩
  · intro t hun
    rw [(gompEndTask_fields s q t).2.2.1] at hun
    have hnot : t ∉ (s.task q).children := by
      intro hm
      rw [(h.child q t hq hm).2] at hun
      cases hun
    rw [gompEndTask_task,if_neg hnot]
    exact h.unmet t hun

/-- The tasks whose pointer leads to the one that finishes are children it still has in its
queues. -/
def OnlyChildren (s : State) (q : ℕ) : Prop :=
  ∀ u < s.numTasks, (s.task u).finished = false → s.nearest u = some q → u ∈ (s.task q).children

theorem gompEndTask_correct_iff (h : Shape s) (hok : s.Correct) (hlt : q < s.numTasks)
    (hi : (s.task q).implicit = false) (hf : (s.task q).finished = false) :
    (s.gompEndTask q).Correct ↔ OnlyChildren s q := by
  have hnear := nearest_finish h (gompEndTask_shape h hf) (fun t => (gompEndTask_fields s q t).1)
    (fun t => (gompEndTask_fields s q t).2.2.2.2.2)
  constructor
  · intro hc u hu huf hnq
    by_contra hnot
    have hne : u ≠ q := (nearest_lt h hnq).ne'
    have hui : (s.task u).implicit = false := by
      rw [Bool.eq_false_iff]
      intro hi
      rw [nearest_root (h.implicit u hi)] at hnq
      cases hnq
    have := hc u hu (by rw [(gompEndTask_fields s q u).2.1]; exact hui)
      (by rw [(gompEndTask_fields s q u).2.2.2.2.1]; simp [huf, hne])
    rw [hnear,if_pos hnq,gompEndTask_task,if_neg hnot] at this
    dsimp only at this
    rw [hok u hu hui huf,hnq] at this
    exact absurd (nearest_lt h this.symm) (lt_irrefl q)
  · intro hall u hu hui huf
    rw [(gompEndTask_fields s q u).2.1] at hui
    rw [(gompEndTask_fields s q u).2.2.2.2.1] at huf
    simp only [Bool.or_eq_false_iff, decide_eq_false_iff_not] at huf
    have hasc := hok u hu hui huf.1
    rw [hnear,gompEndTask_task]
    dsimp only
    by_cases hm : u ∈ (s.task q).children
    · rw [if_pos hm]
      unfold State.clearedParent
      dsimp only
      rw [(h.child q u hf hm).1,hasc]
      simp only [Option.bind_some, hok q hlt hi hf, eq_comm]
    · rw [if_neg hm,if_neg fun hnq => hm (hall u hu huf.1 hnq)]
      exact hasc

/-- What a completion does before its last two steps changes no pointer. -/
theorem Relinked.correct_iff (hr : Relinked s s' q) (h : Shape s) (h' : Shape s') :
    (s'.Correct ↔ s.Correct) ∧ (OnlyChildren s' q ↔ OnlyChildren s q) := by
  have hsame : ∀ t, (s'.task t).ascendingTiedTask = (s.task t).ascendingTiedTask ∧
      (s'.task t).implicit = (s.task t).implicit ∧ (s'.task t).finished = (s.task t).finished ∧
      (s'.task t).creator = (s.task t).creator ∧ (s'.task t).isTied = (s.task t).isTied := by
    intro t
    obtain ⟨l,b,hl⟩ := hr.task t
    rw [hl]
    exact ⟨rfl,rfl,rfl,rfl,rfl⟩
  have hnear : ∀ t, s'.nearest t = s.nearest t := fun t =>
    nearest_congr h h' (fun u _ => (hsame u).2.2.2) (Nat.lt_succ_self t)
  constructor
  · unfold State.Correct
    simp only [hr.numTasks, hnear, (hsame _).1, (hsame _).2.1, (hsame _).2.2.1]
  · unfold OnlyChildren
    simp only [hr.numTasks, hnear, (hsame _).2.2.1, hr.children]

end Completion

/-- A taskloop is run by a task without TIED ancestors that is not TIED itself, and a task that
finishes is the nearest TIED ancestor of children in its queues only. -/
def Repairable (s : State) : Event → Prop
  | .task _ _ _ | .undeferred _ _ _ | .undeferredImplicit _ _ | .target _ _ => True
  | .taskloop p _ => (s.task p).implicit = true ∨ (s.task p).type = .untied ∧ s.nearest p = none
  | .finish t _ | .finishUndeferred t => OnlyChildren s t

instance (s : State) (q : ℕ) : Decidable (OnlyChildren s q) :=
  inferInstanceAs (Decidable (∀ u < s.numTasks, _))

instance (s : State) (e : Event) : Decidable (Repairable s e) :=
  match e with
  | .task _ _ _ | .undeferred _ _ _ | .undeferredImplicit _ _ | .target _ _ => isTrue trivial
  | .taskloop _ _ => inferInstanceAs (Decidable (_ ∨ _ ∧ _))
  | .finish t _ | .finishUndeferred t => inferInstanceAs (Decidable (OnlyChildren s t))

section Runs
variable {s s' : State} {e : Event}

theorem isActive_iff {t : ℕ} : s.isActive t = true ↔
    t < s.numTasks ∧ (s.task t).finished = false ∧ (s.task t).unmet = false := by
  simp [State.isActive, and_assoc]

theorem hasReturned_active {t : ℕ} (h : s.hasReturned t = true) :
    s.isActive t = true ∧ (s.task t).implicit = false := by
  simp only [State.hasReturned, Bool.and_eq_true, Bool.not_eq_true'] at h
  exact h.1

/-- One creation: the pointer of the new task is the one of its creator, unless it is a task of a
loop. -/
theorem create_step {p : ℕ} {x : Task} (h : Shape s) (hok : s.Correct) (hp : s.isActive p = true) (hx : IsNew p x)
    {P : Prop} (hP : (x.ascendingTiedTask = if (s.task p).isTied then some p else s.nearest p) ↔ P) :
    Shape (s.create p x) ∧ ((s.create p x).Correct ↔ P) := by
  have hlt := (isActive_iff.mp hp).1
  exact ⟨create_shape h hlt hx,(create_correct_iff h hok hlt hx).trans hP⟩

theorem taskloop_correct {p : ℕ} (h : Shape s) (hp : s.isActive p = true) :
    (none = if (s.task p).isTied then some p else s.nearest p) ↔
      (s.task p).implicit = true ∨ (s.task p).type = .untied ∧ s.nearest p = none := by
  obtain ⟨_,hf,_⟩ := isActive_iff.mp hp
  unfold Task.isTied
  cases hi : (s.task p).implicit with
  | true => simp [nearest_root (h.implicit p hi)]
  | false => cases (s.task p).type <;> simp [hf, eq_comm]

theorem step_correct_iff (h : Shape s) (hok : s.Correct) (hs : s.step e = some s') :
    Shape s' ∧ (s'.Correct ↔ Repairable s e) := by
  unfold State.step at hs
  split at hs
  case isFalse => cases hs
  case isTrue he =>
    cases hs
    cases e with
    | task p type unmet =>
      refine create_step h hok he ?_ (iff_true_intro ?_)
      · exact ⟨rfl,rfl,rfl,rfl,rfl⟩
      · exact ascendingFor_eq h hok he
    | undeferred p type final =>
      simp only [State.enabled, Bool.and_eq_true] at he
      simp only [State.exec, State.gompTaskUndeferred, Repairable]
      refine create_step h hok he.1 ?_ (iff_true_intro ?_)
      · exact ⟨rfl,rfl,rfl,rfl,rfl⟩
      · exact ascendingFor_eq h hok he.1
    | undeferredImplicit p unmet =>
      simp only [State.enabled, Bool.and_eq_true] at he
      refine create_step h hok he.1 ?_ (iff_true_intro ?_)
      · exact ⟨rfl,rfl,rfl,rfl,rfl⟩
      · exact (taskloop_correct h he.1).mpr (Or.inl he.2)
    | taskloop p onStack =>
      refine create_step h hok he ?_ (taskloop_correct h he)
      exact ⟨rfl,rfl,rfl,rfl,rfl⟩
    | target p unmet =>
      refine create_step h hok he ?_ (iff_true_intro ?_)
      · exact ⟨rfl,rfl,rfl,rfl,rfl⟩
      · exact ascendingFor_eq h hok he
    | finish t released =>
      simp only [State.enabled, State.canRelease, Bool.and_eq_true, decide_eq_true_eq, List.all_eq_true] at he
      obtain ⟨⟨hret,_⟩,hnd,hrel⟩ := he
      obtain ⟨hact,hi⟩ := hasReturned_active hret
      obtain ⟨hlt,hf,_⟩ := isActive_iff.mp hact
      obtain ⟨h1,hl1⟩ := handleDependers_spec (q := t) h hnd fun u hu => ⟨(hrel u hu).1.2,(hrel u hu).2⟩
      obtain ⟨h2,hl2⟩ := removeParent_spec (q := t) h1
      have hl := hl1.trans hl2
      obtain ⟨l,b,ht⟩ := hl.task t
      obtain ⟨hcor,honly⟩ := hl.correct_iff h h2
      have hi2 := (congrArg Task.implicit ht).trans hi
      have hf2 := (congrArg Task.finished ht).trans hf
      refine ⟨gompEndTask_shape h2 hf2,?_⟩
      exact (gompEndTask_correct_iff h2 (hcor.mpr hok) (hl.numTasks ▸ hlt) hi2 hf2).trans honly
    | finishUndeferred t =>
      simp only [State.enabled, Bool.and_eq_true] at he
      obtain ⟨hact,hi⟩ := hasReturned_active he.1
      obtain ⟨hlt,hf,_⟩ := isActive_iff.mp hact
      exact ⟨gompEndTask_shape h hf,gompEndTask_correct_iff h hok hlt hi hf⟩

end Runs

structure Inv (s : State) : Prop where
  shape : Shape s
  correct : s.Correct

theorem init_inv (nthreads : ℕ) : Inv (init nthreads) := by
  refine ⟨init_shape nthreads,fun t _ hi => ?_⟩
  cases hi

/-- A TIED task, its UNTIED child and a TIED child of that one end from the last to the first. -/
def innermostFirst : List Event :=
  [.task 0 .tied false,.task 2 .untied false,.undeferred 3 .tied false,.finishUndeferred 4,.finish 3 [],.finish 2 []]

/-- A TIED task ends before the child of its UNTIED child. -/
def grandchildOutlives : List Event := [.task 0 .tied false,.task 2 .untied false,.task 3 .untied false,.finish 2 []]

end GompUlt.TiedAncestor
