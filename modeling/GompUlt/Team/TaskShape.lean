import GompUlt.Team.Frames

/-! # What holds of the fields of one task

The kind, the home, the type and the fields that suspension sets agree with each other in
every task, at all times and whatever the program does.
-/
namespace GompUlt.Team
open Queue

/-- The fields of task number t of a team agree. -/
structure TaskShape (ult : Bool) (t : ℕ) (x : Task) : Prop where
  implicit : x.home = .implicit ↔ x.kind = .implicit
  implicitTied : x.home = .implicit → x.type = .tied
  busy : x.busy = true → x.kind = .implicit ∨ x.kind = .tied ∨ x.kind = .undeferred
  tiedSuspended : x.kind = .tiedSuspended →
    x.type = .tied ∧ x.suspendingThread ≠ none ∧ (x.home = .stack ∨ x.home = .listed)
  tiedWaiting : x.kind = .waiting → x.type = .tied → x.suspendingThread = none ∧ x.isBlocked = false ∧ x.home ≠ .stack
  untiedWaiting : x.kind = .waiting → x.suspendingThread = none →
    x.isBlocked = false ∧ x.taskwait = none ∧ x.home ≠ .stack
  unmet : x.home = .unmet ∨ x.home = .late → x.suspendingThread = none ∧ x.isBlocked = false ∧ x.taskwait = none ∧
    (x.kind = .waiting ∧ x.undeferredAncestor = none ∨ x.kind = .undeferred ∧ x.undeferredAncestor ≠ none)
  late : x.home = .late → x.kind = .undeferred
  stack : x.home = .stack →
    (x.kind = .undeferred ∨ (x.kind = .waiting ∨ x.kind = .tiedSuspended) ∧ x.undeferredAncestor ≠ none) ∧
    (ult = true → x.undeferredAncestor ≠ none)
  ancestor : x.home ≠ .stack → x.undeferredAncestor = none ∨ x.undeferredAncestor = some t ∧ x.type = .tied
  listed : x.home = .listed → (x.kind = .undeferred → x.undeferredAncestor ≠ none) ∧
    (x.kind = .waiting ∨ x.kind = .tied ∨ x.kind = .asyncRunning → x.undeferredAncestor = none)
  target : x.isTarget = true → x.type = .tied ∧ x.taskwait = none ∧ x.suspendingThread = none ∧ x.isBlocked = false ∧
    (x.home = .unmet ∨ x.home = .listed) ∧ x.undeferredAncestor = none ∧ x.kind ≠ .undeferred ∧
    x.busy = false
  async : x.kind = .asyncRunning → x.isTarget = true
  unopened : x.suspendingThread = none → (x.kind = .waiting ∨ x.home = .unmet ∨ x.home = .late ∨ x.isTarget = true) →
    x.taskgroup = x.createdIn
  gone : x.freed = true → (x.kind = .tied ∨ x.kind = .undeferred) ∧ (x.home = .listed ∨ x.home = .stack)

theorem TaskShape.default (ult : Bool) (t : ℕ) : TaskShape ult t {} := by
  constructor <;> simp

namespace TaskShape

variable {ult : Bool} {t : ℕ} {x : Task} (h : TaskShape ult t x)
include h

theorem reblocks {x' : Task} (hr : TeamState.Reblocks x x') : TaskShape ult t x' := by
  obtain ⟨he,hb⟩ := hr
  by_cases hne : x'.isBlocked = x.isBlocked
  · have hx : x' = x := by rw [he, hne]
    rwa [hx]
  · obtain ⟨hw,hk⟩ := hb hne
    rw [he]
    constructor <;> grind [TaskShape]

/-- A task that waits or is suspended starts or goes on. -/
theorem running (hk : x.kind = .waiting ∨ x.kind = .tiedSuspended) (hh : x.home = .listed ∨ x.home = .stack) :
    TaskShape ult t { x with kind := x.runKind } := by
  have hr : x.runKind = .undeferred ∧ x.undeferredAncestor ≠ none ∨
      x.runKind = .tied ∧ x.undeferredAncestor = none := by
    unfold Task.runKind
    cases x.undeferredAncestor <;> simp
  rcases hk with hk | hk <;> constructor <;> grind [TaskShape]

theorem suspendTied (ht : x.type = .tied) (hh : x.home = .listed ∨ x.home = .stack) (hbusy : x.busy = false)
    (htarget : x.isTarget = false) (hfreed : x.freed = false) (hult : ult = true) (b : Bool) (thr : ℕ) (l : Option ℕ) :
    TaskShape ult t
      { x with isBlocked := b, suspendingThread := some thr, kind := .tiedSuspended, lockedTasks := l } := by
  constructor <;> grind [TaskShape]

theorem suspendUntied (hk : x.kind = .tied ∨ x.kind = .undeferred) (ht : x.type = .untied)
    (hh : x.home = .listed ∨ x.home = .stack) (hbusy : x.busy = false) (htarget : x.isTarget = false)
    (hfreed : x.freed = false) (hult : ult = true) (b : Bool) (thr : ℕ) (l : Option ℕ) :
    TaskShape ult t { x with isBlocked := b, suspendingThread := some thr, kind := .waiting, lockedTasks := l } := by
  constructor <;> grind [TaskShape]

/-- A running task enters or leaves a wait. -/
theorem wait (hk : x.kind = .implicit ∨ x.kind = .tied ∨ x.kind = .undeferred)
    (hh : x.home = .implicit ∨ x.home = .listed ∨ x.home = .stack) (htarget : x.isTarget = false)
    (w : Option Taskwait) : TaskShape ult t { x with taskwait := w } := by
  constructor <;> grind [TaskShape]

theorem mapWait (f : Taskwait → Taskwait) : TaskShape ult t { x with taskwait := x.taskwait.map f } := by
  have hw : x.taskwait.map f = none ↔ x.taskwait = none := Option.map_eq_none_iff
  constructor <;> grind [TaskShape]

/-- A running task opens or closes a taskgroup. -/
theorem setTaskgroup (hk : x.kind = .implicit ∨ x.kind = .tied ∨ x.kind = .undeferred)
    (hh : x.home = .implicit ∨ x.home = .listed ∨ x.home = .stack) (htarget : x.isTarget = false)
    (g : Option ℕ) : TaskShape ult t { x with taskgroup := g } := by
  constructor <;> grind [TaskShape]

/-- A task that waited for its dependences comes to the queues. -/
theorem enqueue (hh : x.home = .unmet) :
    TaskShape ult t { x with home := if x.kind = .undeferred then .late else .listed } := by
  constructor <;> grind [TaskShape]

/-- A new task runs at once. -/
theorem insertRunning {k : TaskKind} (hh : x.home = .unmet)
    (hk : x.kind = .waiting ∧ k = .tied ∨ x.kind = .undeferred ∧ k = .undeferred) :
    TaskShape ult t { x with home := .listed, kind := k } := by
  rcases hk with ⟨hk,rfl⟩ | ⟨hk,rfl⟩ <;> constructor <;> grind [TaskShape]

theorem unblock : TaskShape ult t { x with isBlocked := false } := by
  constructor <;> grind [TaskShape]

theorem setBusy (hk : x.kind = .implicit ∨ x.kind = .tied ∨ x.kind = .undeferred) (htarget : x.isTarget = false) :
    TaskShape ult t { x with busy := true } := by
  constructor <;> grind [TaskShape]

theorem free (hk : x.kind = .tied ∨ x.kind = .undeferred) (hh : x.home = .listed ∨ x.home = .stack) :
    TaskShape ult t { x with freed := true } := by
  constructor <;> grind [TaskShape]

theorem clearBusy : TaskShape ult t { x with busy := false } := by
  constructor <;> grind [TaskShape]

theorem toAsync (hk : x.kind = .tied) (htarget : x.isTarget = true) (hfreed : x.freed = false) :
    TaskShape ult t { x with kind := .asyncRunning } := by
  constructor <;> grind [TaskShape]

theorem completion (hk : x.kind = .asyncRunning) : TaskShape ult t { x with kind := .waiting } := by
  constructor <;> grind [TaskShape]

/-- The fields the shape does not speak of. -/
theorem congr {x' : Task} (hx : { x' with
      parent := x.parent, parentDependsOn := x.parentDependsOn, hasDepend := x.hasDepend,
      numDependees := x.numDependees, dependers := x.dependers, untiedBlockVar := x.untiedBlockVar,
      dependees := x.dependees, lockedTasks := x.lockedTasks } = x) :
    TaskShape ult t x' := by
  rw [← hx] at h
  exact ⟨h.implicit,h.implicitTied,h.busy,h.tiedSuspended,h.tiedWaiting,h.untiedWaiting,h.unmet,h.late,h.stack,
    h.ancestor,h.listed,h.target,h.async,h.unopened,h.gone⟩

end TaskShape

/-- Every task of the team is in shape, and the numbers not used yet have an empty record. -/
structure Shaped (s : TeamState) : Prop where
  task : ∀ t, TaskShape s.ultVar t (s.task t)
  fresh : ∀ t, s.numTasks ≤ t → s.task t = {}

namespace TeamState

variable {s s' : TeamState} {t u : ℕ} {f : Task → Task} {q : QRef} {c : Call}

theorem isRunning_iff : s.isRunning t = true ↔ t < s.numTasks ∧ (s.task t).freed = false ∧ (s.task t).busy = false ∧
    (s.task t).isTarget = false ∧
    ((s.task t).kind = .implicit ∨ (s.task t).kind = .tied ∨ (s.task t).kind = .undeferred) ∧
    ((s.task t).home = .implicit ∨ (s.task t).home = .stack ∨ (s.task t).home = .listed) := by
  simp [isRunning, and_assoc]

theorem isActive_iff : s.isActive t = true ↔ s.isRunning t = true ∧ (s.task t).taskwait = none := by
  simp [isActive]

theorem isSelectable_iff {src : QRef} : s.isSelectable t src = true ↔ t < s.numTasks ∧ (s.task t).freed = false ∧
    src.isLocked = false ∧ s.status src t = some .ready ∧
    ((s.task t).kind = .waiting ∨ (s.task t).kind = .tiedSuspended ∧ src.plain = true) := by
  simp [isSelectable, and_assoc]

theorem hasReturned_iff : s.hasReturned t = true ↔ t < s.numTasks ∧ (s.task t).freed = false ∧ (s.task t).busy = false ∧
    (s.task t).taskwait = none ∧ (s.task t).taskgroup = (s.task t).createdIn ∧
    ((s.task t).kind = .tied ∨ (s.task t).kind = .undeferred) := by
  simp [hasReturned, and_assoc]

theorem areSiblings_iff {p : ℕ} {ts : List ℕ} : s.areSiblings p ts = true ↔ ts.Nodup ∧
    ∀ t ∈ ts, t < s.numTasks ∧ (s.task t).freed = false ∧ (s.task t).parent = some p ∧ (s.task t).hasDepend = true := by
  simp [areSiblings, and_assoc]

end TeamState

namespace Shaped
open TeamState

variable {s s' : TeamState} {t u : ℕ} {f : Task → Task}

theorem init (ult : Bool) (n : ℕ) : Shaped (TeamState.init ult n) :=
  ⟨fun t => .default ult t,fun _ _ => rfl⟩

section
variable (h : Shaped s)
include h

theorem lt_of_home (hh : (s.task t).home ≠ .implicit) : t < s.numTasks := by
  by_contra hge
  rw [h.fresh t (not_lt.mp hge)] at hh
  exact hh rfl

theorem modify (ht : t < s.numTasks) (hf : TaskShape s.ultVar t (f (s.task t))) : Shaped (s.modify t f) where
  task u := by
    by_cases hu : u = t
    · subst hu
      simpa using hf
    · simpa [hu] using h.task u
  fresh u hu := by
    have hne : u ≠ t := by
      rintro rfl
      exact absurd hu (not_le.mpr ht)
    simpa [hne] using h.fresh u hu

/-- Nothing but queues and counters has changed. -/
theorem of_task_eq (htask : s'.task = s.task) (hnum : s'.numTasks = s.numTasks) (hult : s'.ultVar = s.ultVar) :
    Shaped s' := by
  constructor
  · rw [htask,hult]
    exact h.task
  · rw [htask,hnum]
    exact h.fresh

theorem reblocked (hr : Reblocked s s') : Shaped s' where
  task u := by
    rw [hr.ultVar]
    exact (h.task u).reblocks (hr.task u)
  fresh u hu := by
    rw [hr.numTasks] at hu
    obtain ⟨he,hb⟩ := hr.task u
    rw [h.fresh u hu] at he hb
    by_cases hx : (s'.task u).isBlocked = false
    · rw [he,hx]
    · exact absurd rfl (hb hx).1

theorem modifyWait (t : ℕ) (f : Taskwait → Taskwait) : Shaped (s.modifyWait t f) := by
  by_cases ht : t < s.numTasks
  · exact h.modify ht ((h.task t).mapWait f)
  · have hsame : s.modifyWait t f = s := by
      have hfresh := h.fresh t (not_lt.mp ht)
      unfold TeamState.modifyWait TeamState.modify
      rw [hfresh]
      simp only [Option.map_none]
      rw [← hfresh,Function.update_eq_self]
    rwa [hsame]

end

end Shaped

end GompUlt.Team
