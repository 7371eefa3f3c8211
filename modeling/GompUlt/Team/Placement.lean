import GompUlt.Team.Lineage
import GompUlt.Team.TaskShape

/-! # Where the queues hold a task

The fields of a task say in which queues it belongs and in which zone of each of them.  The
operations of the runtime keep the queues in agreement with the fields, and which calls fit
their queue follows from the agreement.
-/
namespace GompUlt.Team
open Queue

/-- The zone of a task that is or is not blocked. -/
def zoneOf (b : Bool) : Zone := if b then .blocked else .ready

namespace Task

/-- The zone of a task that waits in a queue. -/
def waitZone (x : Task) : Zone := zoneOf x.isBlocked

/-- The zone of a task among the children of its parent. -/
def zone (x : Task) : Zone := if x.kind = .waiting ∨ x.home = .late then x.waitZone else .running

/-- The task is in the queues of its parent and of its taskgroup. -/
def isListed (x : Task) : Bool := !x.freed && x.home ∈ [.listed, .late]

/-- The task has been allocated and has not been freed. -/
def isHeap (x : Task) : Bool := !x.freed && x.home ∈ [.unmet, .listed, .late]

/-- The task waits in the team queue. -/
def isQueued (x : Task) : Bool := !x.freed && (x.home = .late || x.kind = .waiting && x.home ∈ [.listed, .stack])

/-- The task has been suspended by a switch. -/
def isSuspended (x : Task) : Bool :=
  !x.freed && x.home ∈ [.listed, .stack] && x.kind = (match x.type with | .tied => .tiedSuspended | .untied => .waiting)

end Task

/-- The queues a task may be in: those of a parent, a taskgroup, a thread and a lock, beside that of the team. -/
structure Address where
  type : TaskType
  parent : Option ℕ
  group : Option ℕ
  thread : Option ℕ
  lock : Option ℕ

/-- The zones of a task in these queues. -/
@[ext] structure View where
  family : Option Zone := none
  group : Option Zone := none
  team : Option Zone := none
  thread : Option Zone := none
  lock : Option Zone := none

/-- What the queues show of a task with this address and view. -/
def expect (a : Address) (v : View) : QRef → Option Zone
  | .children type p => if a.type = type ∧ a.parent = some p then v.family else none
  | .taskgroup type g => if a.type = type ∧ a.group = some g then v.group else none
  | .team type => if a.type = type then v.team else none
  | .suspended type thr => if a.type = type ∧ a.thread = some thr then v.thread else none
  | .locked l => if a.lock = some l then v.lock else none

theorem expect_empty (a : Address) (q : QRef) : expect a {} q = none := by
  cases q <;> simp [expect]

/-- Where the fields of a task put it.  In the queue of the taskgroup it was created in, a task
that is suspended inside a taskgroup of its own is not moved. -/
def Task.view (x : Task) : View where
  family := if x.isListed then some x.zone else none
  group := if x.isListed then some (if x.taskgroup = x.createdIn then x.zone else .running) else none
  team := if x.isQueued then some x.waitZone else none
  thread := if x.isSuspended then some x.waitZone else none
  lock := if x.isSuspended ∧ x.isBlocked ∧ x.taskwait = none then some .ready else none

namespace TeamState

/-- The parent of a task, unless it has been freed. -/
def liveParent (s : TeamState) (t : ℕ) : Option ℕ := (s.task t).parent.filter fun p => !(s.task p).freed

def address (s : TeamState) (t : ℕ) : Address where
  type := (s.task t).type
  parent := s.liveParent t
  group := (s.task t).createdIn
  thread := (s.task t).suspendingThread
  lock := (s.task t).lockedTasks

theorem address_group (s : TeamState) (t : ℕ) : (s.address t).group = (s.task t).createdIn := rfl

/-- The queues show this of the task. -/
def At (s : TeamState) (t : ℕ) (a : Address) (v : View) : Prop := ∀ q, s.status q t = expect a v q

/-- The queues hold the task where its fields put it. -/
def PlacedAt (s : TeamState) (t : ℕ) : Prop := s.At t (s.address t) (s.task t).view

end TeamState

/-- Which queues are watched besides those of the team and of the threads, and whether the counters are. -/
structure Watch where
  children : Bool
  taskgroup : Bool
  locked : Bool
  counters : Bool

def Watch.on (w : Watch) : QRef → Prop
  | .children _ _ => w.children
  | .taskgroup _ _ => w.taskgroup
  | .locked _ => w.locked
  | .team _ | .suspended _ _ => True

/-- Every call on a watched queue so far was one for a member that the lists allow, and moved the counters as it
moved the task. -/
def Flags (w : Watch) (s : TeamState) : Prop :=
  ∀ q, w.on q → (s.queue q).sound = true ∧ (w.counters → (s.queue q).exact = true)

/-- How far the ready count is from the sum of the counters of the two team queues. -/
def TeamState.drift (s : TeamState) : ℤ :=
  s.taskQueuedCount - (s.queue (.team .tied)).numWaitingPriorityNode -
    (s.queue (.team .untied)).numWaitingPriorityNode

/-- The parents of the unfinished tasks are there. -/
def Family (s : TeamState) : Prop :=
  ∀ t p, (s.task t).isHeap → (s.task t).parent = some p → (s.task p).freed = false

/-- A listed task that waits is in no taskgroup of its own. -/
def Regrouped (s : TeamState) : Prop :=
  ∀ t, (s.task t).isListed → (s.task t).kind = .waiting → (s.task t).taskgroup = (s.task t).createdIn

theorem Call.allowed_of_exact {c : Call} {plain : Bool} {z : Option Zone} (h : c.exact plain z = true) :
    c.allowed plain z = true := by
  simp only [Call.exact, Bool.and_eq_true] at h
  exact h.1.1

section Flags
open TeamState
variable {w : Watch} {s s' : TeamState} {q : QRef} {c : Call} {t : ℕ}

theorem Flags.call (h : Flags w s) (hc : w.on q → c.exact q.plain (s.status q t) = true) : Flags w (s.call q c t) := by
  intro q' hq'
  by_cases e : q' = q
  · subst e
    obtain ⟨hs,he⟩ := h q' hq'
    have hex := hc hq'
    have hal := Call.allowed_of_exact hex
    simp only [status] at hex hal
    simp only [TeamState.call, Function.update_self, TaskQueue.exec, hs, hal, hex, Bool.and_true, Bool.and_self, true_and]
    exact he
  · rw [call_queue_of_ne e]
    exact h q' hq'

theorem Flags.callOpt {oq : Option QRef} (h : Flags w s)
    (hc : ∀ q, oq = some q → w.on q → c.exact q.plain (s.status q t) = true) : Flags w (s.callOpt oq c t) := by
  cases oq with
  | none => exact h
  | some q => exact h.call (hc q rfl)

theorem Flags.modify {f : Task → Task} (h : Flags w s) : Flags w (s.modify t f) := h

theorem Flags.of_queue_eq (h : Flags w s) (hq : s'.queue = s.queue) : Flags w s' := by
  intro q hw
  rw [hq]
  exact h q hw

end Flags

namespace TeamState
variable {s : TeamState} {q : QRef} {c : Call} {t : ℕ} {f : Task → Task} {d : ℤ} {type : TaskType} {p g : Option ℕ}

@[simp] theorem modify_drift : (s.modify t f).drift = s.drift := rfl
@[simp] theorem addCount_drift : (s.addCount d).drift = s.drift := rfl

@[simp] theorem addQueued_drift : (s.addQueued d).drift = s.drift + d := by
  simp only [drift, addQueued]
  omega

theorem call_drift (hq : ∀ type, q ≠ .team type) : (s.call q c t).drift = s.drift := by
  unfold drift
  rw [call_queue_of_ne (hq .tied).symm,call_queue_of_ne (hq .untied).symm]
  rfl

@[simp] theorem callTeam_drift : (s.call (.team type) c t).drift = s.drift - c.waiting true := by
  cases type <;> simp [drift, call, TaskQueue.exec, QRef.plain] <;> omega

@[simp] theorem callChildren_drift {n : ℕ} : (s.call (.children type n) c t).drift = s.drift :=
  call_drift fun _ => QRef.noConfusion

@[simp] theorem callTaskgroup_drift {n : ℕ} : (s.call (.taskgroup type n) c t).drift = s.drift :=
  call_drift fun _ => QRef.noConfusion

@[simp] theorem callLocked_drift {n : ℕ} : (s.call (.locked n) c t).drift = s.drift :=
  call_drift fun _ => QRef.noConfusion

@[simp] theorem callThread_drift {n : ℕ} : (s.call (.suspended type n) c t).drift = s.drift :=
  call_drift fun _ => QRef.noConfusion

@[simp] theorem callFamily_drift : (s.callFamily type p g c t).drift = s.drift := by
  cases p <;> cases g <;> simp [callFamily, callOpt]

@[simp] theorem callSuspended_drift : (s.callSuspended type p c t).drift = s.drift := by
  cases p <;> simp [callSuspended, callOpt]

end TeamState

/-- A task after a wake-up: nothing but its blocking and the flags of its wait has changed. -/
def Nudges (x x' : Task) : Prop :=
  x' = { x with isBlocked := x'.isBlocked, taskwait := x'.taskwait } ∧ (x'.taskwait = none ↔ x.taskwait = none) ∧
    (x.taskwait = none → x' = x)

theorem Nudges.refl (x : Task) : Nudges x x := ⟨rfl,Iff.rfl,fun _ => rfl⟩

theorem Nudges.trans {x x' x'' : Task} (h : Nudges x x') (h' : Nudges x' x'') : Nudges x x'' := by
  obtain ⟨he,hn,hs⟩ := h
  obtain ⟨he',hn',hs'⟩ := h'
  refine ⟨?_,hn'.trans hn,fun h0 => ?_⟩
  · rw [he',he]
  · rw [hs' (hn.mpr h0),hs h0]

/-- What the wake-ups of waiting tasks keep: every task that is where it belongs stays so, and
only tasks in a wait are moved. -/
structure Nudged (w : Watch) (s s' : TeamState) : Prop where
  task : ∀ u, Nudges (s.task u) (s'.task u)
  numTasks : s'.numTasks = s.numTasks
  ultVar : s'.ultVar = s.ultVar
  group : s'.group = s.group
  numGroups : s'.numGroups = s.numGroups
  shaped : Shaped s → Shaped s'
  placed : ∀ u, s.PlacedAt u → s'.PlacedAt u
  still : ∀ u, (s.task u).taskwait = none → ∀ q, s'.status q u = s.status q u
  flags : Flags w s → Flags w s'
  drift : s'.drift = s.drift

namespace Nudged
variable {w : Watch} {s s' s'' : TeamState}

theorem refl (w : Watch) (s : TeamState) : Nudged w s s where
  task _ := .refl _
  numTasks := rfl
  ultVar := rfl
  group := rfl
  numGroups := rfl
  shaped h := h
  placed _ h := h
  still _ _ _ := rfl
  flags h := h
  drift := rfl

theorem trans (h : Nudged w s s') (h' : Nudged w s' s'') : Nudged w s s'' where
  task u := (h.task u).trans (h'.task u)
  numTasks := h'.numTasks.trans h.numTasks
  ultVar := h'.ultVar.trans h.ultVar
  group := h'.group.trans h.group
  numGroups := h'.numGroups.trans h.numGroups
  shaped hs := h'.shaped (h.shaped hs)
  placed u hu := h'.placed u (h.placed u hu)
  still u hu q := by
    rw [h'.still u ((h.task u).2.1.mpr hu),h.still u hu]
  flags hf := h'.flags (h.flags hf)
  drift := h'.drift.trans h.drift

section
variable (h : Nudged w s s') (u : ℕ)
include h

theorem parent : (s'.task u).parent = (s.task u).parent := by rw [(h.task u).1]
theorem type : (s'.task u).type = (s.task u).type := by rw [(h.task u).1]
theorem kind : (s'.task u).kind = (s.task u).kind := by rw [(h.task u).1]
theorem taskgroup : (s'.task u).taskgroup = (s.task u).taskgroup := by rw [(h.task u).1]
theorem createdIn : (s'.task u).createdIn = (s.task u).createdIn := by rw [(h.task u).1]
theorem isListed : (s'.task u).isListed = (s.task u).isListed := by
  rw [(h.task u).1]
  rfl
theorem isHeap : (s'.task u).isHeap = (s.task u).isHeap := by
  rw [(h.task u).1]
  rfl
theorem freed : (s'.task u).freed = (s.task u).freed := by rw [(h.task u).1]
theorem lineage : (s'.task u).lineage = (s.task u).lineage := by
  rw [(h.task u).1]
  rfl

end

end Nudged

namespace TeamState
variable {w : Watch} {s s' : TeamState} {q q' : QRef} {c : Call} {t u : ℕ} {oq : Option QRef} {type : TaskType}
  {p g : Option ℕ} {b : Bool}

section Others
variable (hu : u ≠ t)
include hu

theorem call_status_ne : (s.call q c t).status q' u = s.status q' u := by
  simp [call_status, hu]

theorem callOpt_status_ne : (s.callOpt oq c t).status q' u = s.status q' u := by
  simp [callOpt_status, hu]

theorem callFamily_status_ne : (s.callFamily type p g c t).status q' u = s.status q' u := by
  simp [callFamily_status, hu]

theorem callSuspended_status_ne : (s.callSuspended type p c t).status q' u = s.status q' u := callOpt_status_ne hu

end Others

theorem callSuspended_status (q' : QRef) (u : ℕ) :
    (s.callSuspended type p c t).status q' u =
      if u = t ∧ p.map (.suspended type) = some q' then c.result q'.plain (s.status q' t) else s.status q' u := by
  rw [callSuspended,callOpt_status]
  simp only [and_comm]

theorem PlacedAt.congr (h : s.PlacedAt u) (hu : s'.task u = s.task u)
    (hf : ∀ p, (s'.task p).freed = (s.task p).freed) (hq : ∀ q, s'.status q u = s.status q u) : s'.PlacedAt u := by
  intro q
  simp only [hq, address, liveParent, hu, hf]
  exact h q

end TeamState

section At
open TeamState
variable {s s' : TeamState} {t : ℕ} {a : Address} {v v' : View} {c : Call} {f : Task → Task} {type : TaskType}

theorem TeamState.At.of_status (h : s.At t a v) (hq : ∀ q, s'.status q t = s.status q t) : s'.At t a v := by
  intro q
  rw [hq,h q]

theorem TeamState.At.view_eq (h : s.At t a v) (hv : v = v') : s.At t a v' := hv ▸ h

namespace TeamState.At
variable (h : s.At t a v)
include h

theorem modify {u : ℕ} : (s.modify u f).At t a v := h.of_status fun _ => rfl

theorem addQueued (d : ℤ) : (s.addQueued d).At t a v := h.of_status fun _ => rfl

theorem callTeam (hty : a.type = type) : (s.call (.team type) c t).At t a { v with team := c.result true v.team } := by
  intro q
  rw [call_status,h q,h (.team type)]
  cases q with
  | team type' =>
    by_cases e : type' = type
    · simp [expect, QRef.plain, hty, e]
    · simp [expect, hty, e, Ne.symm e]
  | _ => simp [expect]

theorem callThread (hty : a.type = type) {thread : Option ℕ} (hth : a.thread = thread) :
    (s.callSuspended type thread c t).At t a { v with thread := c.result true v.thread } := by
  intro q
  rw [callSuspended_status,h q]
  cases q with
  | suspended type' thr =>
    by_cases e : a.type = type' ∧ a.thread = some thr
    · simp [expect, QRef.plain, e, ← hth, ← hty]
    · have hne : ¬(thread = some thr ∧ type = type') := by
        rw [← hth,← hty]
        exact fun hh => e hh.symm
      simp [expect, e, hne]
  | _ => simp [expect]

/-- The same with the queue of the thread written out. -/
theorem callOnThread (hty : a.type = type) {thr : ℕ} (hth : a.thread = some thr) :
    (s.call (.suspended type thr) c t).At t a { v with thread := c.result true v.thread } := h.callThread hty hth

theorem callLock {lock : Option ℕ} (hl : a.lock = lock) :
    (s.callOpt (lock.map .locked) c t).At t a { v with lock := c.result true v.lock } := by
  intro q
  rw [callOpt_status,h q]
  cases q with
  | locked l => by_cases e : lock = some l <;> simp [expect, QRef.plain, hl, e]
  | _ => simp [expect]

/-- A call on the queues of the parent and of the taskgroup, each of which may be another than the
one of the address: there the task is not found, and nothing happens. -/
theorem callFamily (hty : a.type = type) {parent g : Option ℕ} (taskgroup : Option ℕ) (hg : a.group = g)
    (hc : c.result false none = none) (hp : parent = a.parent ∨ a.parent = none) :
    (s.callFamily type parent taskgroup c t).At t a
      { v with
        family := c.result false v.family
        group := if taskgroup = g then c.result false v.group else v.group } := by
  subst hg
  intro q
  rw [callFamily_status,h q]
  cases q with
  | children type' p =>
    by_cases e : a.type = type' ∧ a.parent = some p
    · have hpp : parent = some p := by
        rcases hp with hp | hp
        · rw [hp,e.2]
        · rw [hp] at e
          cases e.2
      simp [expect, QRef.plain, e, hpp, ← hty]
    · simp [expect, QRef.plain, e, hc]
  | taskgroup type' g =>
    by_cases e : a.type = type' ∧ a.group = some g
    · by_cases hg : taskgroup = some g
      · simp [expect, QRef.plain, e, hg, ← hty]
      · simp [expect, e, hg]
    · simp [expect, QRef.plain, e, hc]
  | _ => simp [expect]

/-- Any call on the queue of the parent. -/
theorem callParent (hty : a.type = type) {parent : Option ℕ} (hp : a.parent = parent) :
    (s.callOpt (parent.map (.children type)) c t).At t a { v with family := c.result false v.family } := by
  intro q
  rw [callOpt_status,h q]
  cases q with
  | children type' p =>
    by_cases e : a.type = type' ∧ a.parent = some p
    · simp [expect, QRef.plain, e, ← hp, ← hty]
    · have hne : ¬(parent = some p ∧ type = type') := by
        rw [← hp,← hty]
        exact fun hh => e hh.symm
      simp [expect, e, hne]
  | _ => simp [expect]

/-- A call on the queue of a parent that may have been freed. -/
theorem callParentOr (hty : a.type = type) {parent : Option ℕ} (hc : c.result false none = none)
    (hp : parent = a.parent ∨ a.parent = none) :
    (s.callOpt (parent.map (.children type)) c t).At t a { v with family := c.result false v.family } := by
  rcases hp with hp | hp
  · exact h.callParent hty hp.symm
  · intro q
    rw [callOpt_status,h q]
    cases q with
    | children type' p => simp [expect, QRef.plain, hp, hc]
    | _ => simp [expect]

/-- Any call on the queue of the taskgroup. -/
theorem callGroup (hty : a.type = type) {g : Option ℕ} (hg : a.group = g) :
    (s.callOpt (g.map (.taskgroup type)) c t).At t a { v with group := c.result false v.group } := by
  intro q
  rw [callOpt_status,h q]
  cases q with
  | taskgroup type' n =>
    by_cases e : a.type = type' ∧ a.group = some n
    · simp [expect, QRef.plain, e, ← hg, ← hty]
    · have hne : ¬(g = some n ∧ type = type') := by
        rw [← hg,← hty]
        exact fun hh => e hh.symm
      simp [expect, e, hne]
  | _ => simp [expect]

/-- Without a thread there is no queue of it. -/
theorem setThread (hth : a.thread = none) (z : Option Zone) : s.At t a { v with thread := z } := by
  intro q
  rw [h q]
  cases q <;> simp [expect, hth]

/-- A zone that is not there may be asked for anywhere. -/
theorem readdress {a' : Address} (hty : a'.type = a.type) (hp : a'.parent = a.parent ∨ v.family = none)
    (hg : a'.group = a.group ∨ v.group = none) (hth : a'.thread = a.thread ∨ v.thread = none)
    (hl : a'.lock = a.lock ∨ v.lock = none) : s.At t a' v := by
  intro q
  rw [h q]
  cases q with
  | children type p => rcases hp with e | e <;> simp [expect, e, hty]
  | taskgroup type g => rcases hg with e | e <;> simp [expect, e, hty]
  | team type => simp [expect, hty]
  | suspended type thr => rcases hth with e | e <;> simp [expect, e, hty]
  | locked l => rcases hl with e | e <;> simp [expect, e]

end TeamState.At

/-! Which of these calls fit their queues. -/

namespace Flags
variable {w : Watch} (hf : Flags w s) (h : s.At t a v)
include hf h

theorem callTeam (hty : a.type = type) (hc : c.exact true v.team = true) : Flags w (s.call (.team type) c t) := by
  refine hf.call fun _ => ?_
  rw [h]
  simpa [expect, QRef.plain, hty] using hc

theorem callThread (hty : a.type = type) {thread : Option ℕ} (hth : a.thread = thread)
    (hc : thread ≠ none → c.exact true v.thread = true) : Flags w (s.callSuspended type thread c t) := by
  refine hf.callOpt fun q hq _ => ?_
  obtain ⟨thr,rfl,rfl⟩ := Option.map_eq_some_iff.mp hq
  rw [h]
  simpa [expect, QRef.plain, hth, hty] using hc

theorem callOnThread (hty : a.type = type) {thr : ℕ} (hth : a.thread = some thr)
    (hc : c.exact true v.thread = true) : Flags w (s.call (.suspended type thr) c t) :=
  callThread hf h hty hth fun _ => hc

theorem callLock {lock : Option ℕ} (hl : a.lock = lock) (hc : w.locked → lock ≠ none → c.exact true v.lock = true) :
    Flags w (s.callOpt (lock.map .locked) c t) := by
  refine hf.callOpt fun q hq hw => ?_
  obtain ⟨l,rfl,rfl⟩ := Option.map_eq_some_iff.mp hq
  rw [h]
  simpa [expect, QRef.plain, hl] using hc hw

theorem callParent (hty : a.type = type) {parent : Option ℕ} (hp : a.parent = parent)
    (hc : w.children → parent ≠ none → c.exact false v.family = true) :
    Flags w (s.callOpt (parent.map (.children type)) c t) := by
  refine Flags.callOpt hf fun q hq hw => ?_
  obtain ⟨p,rfl,rfl⟩ := Option.map_eq_some_iff.mp hq
  rw [h]
  simpa [expect, QRef.plain, hp, hty] using hc hw

theorem callGroup (hty : a.type = type) {g : Option ℕ} (hg : a.group = g)
    (hc : w.taskgroup → g ≠ none → c.exact false v.group = true) :
    Flags w (s.callOpt (g.map (.taskgroup type)) c t) := by
  refine Flags.callOpt hf fun q hq hw => ?_
  obtain ⟨n,rfl,rfl⟩ := Option.map_eq_some_iff.mp hq
  rw [h]
  simpa [expect, QRef.plain, hg, hty] using hc hw

theorem callFamily (hty : a.type = type) {parent taskgroup : Option ℕ}
    (hp : w.children → parent ≠ none → parent = a.parent ∧ c.exact false v.family = true)
    (hg : w.taskgroup → taskgroup ≠ none → taskgroup = a.group ∧ c.exact false v.group = true) :
    Flags w (s.callFamily type parent taskgroup c t) := by
  refine Flags.callOpt (Flags.callOpt hf fun q hq hw => ?_) fun q hq hw => ?_
  · obtain ⟨p,rfl,rfl⟩ := Option.map_eq_some_iff.mp hq
    obtain ⟨he,hc⟩ := hp hw (by simp)
    rw [h]
    simpa [expect, QRef.plain, ← he, hty] using hc
  · obtain ⟨g,rfl,rfl⟩ := Option.map_eq_some_iff.mp hq
    obtain ⟨he,hc⟩ := hg hw (by simp)
    rw [callOpt_status,h]
    simpa [expect, QRef.plain, ← he, hty] using hc

end Flags

end At

/-! ## The views -/

namespace Task

/-- The view of a task that runs. -/
def runView (x : Task) : View where
  family := if x.home = .listed then some .running else none
  group := if x.home = .listed then some .running else none

/-- The view of an UNTIED task that waits, blocked or not. -/
def untiedView (x : Task) (b : Bool) (lock : Option Zone) : View where
  family := if x.home = .listed then some (zoneOf b) else none
  group := if x.home = .listed then some (if x.taskgroup = x.createdIn then zoneOf b else .running) else none
  team := some (zoneOf b)
  thread := some (zoneOf b)
  lock := lock

variable {x : Task} (hf : x.freed = false)
include hf

/-- A task that runs. -/
theorem view_running (hk : x.kind ≠ .waiting) (hs : x.kind ≠ .tiedSuspended) (hh : x.home = .listed ∨ x.home = .stack) :
    x.view = x.runView := by
  have hnot : x.isSuspended = false := by
    unfold isSuspended
    cases x.type <;> simp [hk, hs]
  ext1 <;> rcases hh with e | e <;> simp [view, runView, isListed, zone, isQueued, hf, hk, hnot, e]

omit hf in
/-- A task that is in no queue. -/
theorem view_unmet (hh : x.home = .unmet ∨ x.home = .implicit) : x.view = {} := by
  ext1 <;> rcases hh with e | e <;> simp [view, isListed, isQueued, isSuspended, e]

omit hf in
/-- A task that has been freed. -/
theorem view_freed (hf : x.freed = true) : x.view = {} := by
  ext1 <;> simp [view, isListed, isQueued, isSuspended, hf]

/-- A TIED task that has been suspended. -/
theorem view_tiedSuspended (ht : x.type = .tied) (hk : x.kind = .tiedSuspended) (hh : x.home = .listed ∨ x.home = .stack) :
    x.view = { x.runView with
      thread := some x.waitZone
      lock := if x.isBlocked ∧ x.taskwait = none then some .ready else none } := by
  have hsusp : x.isSuspended = true := by
    rcases hh with e | e <;> simp [isSuspended, hf, ht, hk, e]
  ext1 <;> rcases hh with e | e <;> simp [view, runView, isListed, zone, isQueued, hf, hk, hsusp, e]

/-- A TIED task that waits for its first start. -/
theorem view_tiedWaiting (ht : x.type = .tied) (hk : x.kind = .waiting) (hg : x.taskgroup = x.createdIn)
    (hh : x.home = .listed) :
    x.view = { family := some x.waitZone, group := some x.waitZone, team := some x.waitZone } := by
  have hnot : x.isSuspended = false := by simp [isSuspended, ht, hk]
  ext1 <;> simp [view, isListed, zone, isQueued, hf, hk, hg, hnot, hh]

/-- An UNTIED task that waits for its first start or has been suspended. -/
theorem view_untiedWaiting (ht : x.type = .untied) (hk : x.kind = .waiting) (hh : x.home = .listed ∨ x.home = .stack) :
    x.view = x.untiedView x.isBlocked (if x.isBlocked ∧ x.taskwait = none then some .ready else none) := by
  have hsusp : x.isSuspended = true := by
    rcases hh with e | e <;> simp [isSuspended, hf, ht, hk, e]
  ext1 <;> rcases hh with e | e <;> simp [view, untiedView, isListed, zone, isQueued, waitZone, hf, hk, hsusp, e]

end Task

/-! ## Blocking -/

namespace TeamState
variable {w : Watch} {s s' : TeamState} {t u : ℕ} {b : Bool}

theorem not_freed_of_waits (hsh : TaskShape s.ultVar t (s.task t))
    (hk : (s.task t).kind = .waiting ∨ (s.task t).kind = .tiedSuspended) : (s.task t).freed = false := by
  cases hf : (s.task t).freed with
  | false => rfl
  | true => rcases (hsh.gone hf).1 with h | h <;> simp [h] at hk

/-- The call that blocks or unblocks a task takes it from one zone to the other. -/
theorem result_block (b plain : Bool) (kind : TaskKind) :
    (if b then Call.block kind else .unblock).result plain (some (zoneOf !b)) = some (zoneOf b) := by
  cases b <;> simp [Call.result, Call.allowed, Call.target, zoneOf]

theorem result_block_none (b plain : Bool) (kind : TaskKind) :
    (if b then Call.block kind else .unblock).result plain none = none := by
  cases b <;> simp [Call.result, Call.allowed]

theorem exact_block (b plain : Bool) {kind : TaskKind} (hk : kind = .waiting ∨ kind = .tiedSuspended) :
    (if b then Call.block kind else .unblock).exact plain (some (zoneOf !b)) = true := by
  rcases hk with rfl | rfl <;> cases b <;> cases plain <;> decide

theorem setBlockedTied_task : (s.setBlockedTied t b).task u =
    if u = t then { s.task t with isBlocked := b } else s.task u := by
  simp [setBlockedTied]

theorem setBlockedTied_status_ne (hu : u ≠ t) (q : QRef) : (s.setBlockedTied t b).status q u = s.status q u := by
  rw [setBlockedTied,callSuspended_status_ne hu,modify_status]

section SetBlockedTied
variable {v : View} (h : s.At t (s.address t) v) (ht : (s.task t).type = .tied) (hz : v.thread = some (zoneOf !b))
include h ht hz

theorem setBlockedTied_at : (s.setBlockedTied t b).At t (s.address t) { v with thread := some (zoneOf b) } := by
  refine (h.modify.callThread ht rfl).view_eq ?_
  rw [hz,result_block]

theorem setBlockedTied_flags (hk : (s.task t).kind = .tiedSuspended) (hf : Flags w s) :
    Flags w (s.setBlockedTied t b) := by
  unfold setBlockedTied
  dsimp only
  refine Flags.callThread hf.modify h.modify ht rfl fun _ => ?_
  rw [hz]
  exact exact_block b true (Or.inr hk)

end SetBlockedTied

/-- The parent of the address is the parent of the task, or the parent has been freed. -/
theorem parent_or_none (s : TeamState) (t : ℕ) :
    (s.task t).parent = (s.address t).parent ∨ (s.address t).parent = none := by
  simp only [address, liveParent]
  cases hp : (s.task t).parent with
  | none => exact Or.inl rfl
  | some p => cases hf : (s.task p).freed <;> simp [Option.filter, hf]

theorem isHeap_of_isListed {x : Task} (h : x.isListed = true) : x.isHeap = true := by
  simp only [Task.isListed, Task.isHeap, Bool.and_eq_true, decide_eq_true_eq, List.mem_cons] at h ⊢
  exact ⟨h.1,Or.inr h.2⟩

/-- Where the children queues are watched, a listed task is in the queue of its parent. -/
theorem parent_eq_of_family (h : Family s) (hl : (s.task t).isListed = true) :
    (s.task t).parent = (s.address t).parent := by
  rcases parent_or_none s t with e | e
  · exact e
  · cases hp : (s.task t).parent with
    | none => exact e.symm
    | some p =>
      have hfr := h t p (isHeap_of_isListed hl) hp
      simp [address, liveParent, hp, Option.filter, hfr] at e

theorem setBlockedUntied_task : (s.setBlockedUntied t b).task u =
    if u = t then { s.task t with isBlocked := b } else s.task u := by
  by_cases ha : (s.task t).undeferredAncestor = none <;> simp [setBlockedUntied, ha]

theorem setBlockedUntied_status_ne (hu : u ≠ t) (q : QRef) : (s.setBlockedUntied t b).status q u = s.status q u := by
  unfold setBlockedUntied
  simp only [addQueued_status, callSuspended_status_ne hu, modify_status, call_status_ne hu]
  split
  · rw [callFamily_status_ne hu]
  · rfl

theorem setBlockedUntied_drift (hk : (s.task t).kind = .waiting) : (s.setBlockedUntied t b).drift = s.drift := by
  unfold setBlockedUntied
  by_cases ha : (s.task t).undeferredAncestor = none <;> cases b <;> simp [ha, hk, Call.waiting]

section SetBlockedUntied
variable {v : View} (h : s.At t (s.address t) v) (ht : (s.task t).type = .untied)
  (hteam : v.team = some (zoneOf !b)) (hthread : v.thread = some (zoneOf !b))
  (hfamily : (s.task t).undeferredAncestor = none → v.family = some (zoneOf !b))
  (hgroup : (s.task t).undeferredAncestor = none → (s.task t).taskgroup = (s.task t).createdIn →
    v.group = some (zoneOf !b))
include h ht hteam hthread hfamily hgroup

theorem setBlockedUntied_at : (s.setBlockedUntied t b).At t (s.address t)
    { v with
      family := if (s.task t).undeferredAncestor = none then some (zoneOf b) else v.family
      group := if (s.task t).undeferredAncestor = none ∧ (s.task t).taskgroup = (s.task t).createdIn then
        some (zoneOf b) else v.group
      team := some (zoneOf b)
      thread := some (zoneOf b) } := by
  unfold setBlockedUntied
  dsimp only
  apply TeamState.At.addQueued
  split
  case isTrue ha =>
    have hfam := h.callFamily ht (s.task t).taskgroup (address_group s t) (result_block_none b false (s.task t).kind)
      (parent_or_none s t)
    refine ((hfam.callTeam ht).modify.callThread ht rfl).view_eq ?_
    have hgr : (if (s.task t).taskgroup = (s.task t).createdIn then
        (if b then Call.block (s.task t).kind else .unblock).result false v.group else v.group) =
        if (s.task t).taskgroup = (s.task t).createdIn then some (zoneOf b) else v.group := by
      by_cases e : (s.task t).taskgroup = (s.task t).createdIn
      · rw [if_pos e,if_pos e,hgroup ha e,result_block]
      · rw [if_neg e,if_neg e]
    simp only [hteam, hthread, hfamily ha, result_block, hgr, ha, true_and]
  case isFalse ha =>
    refine ((h.callTeam ht).modify.callThread ht rfl).view_eq ?_
    simp only [hteam, hthread, result_block, ha, false_and, if_false]

theorem setBlockedUntied_flags (hk : (s.task t).kind = .waiting) (hf : Flags w s)
    (hw : w.children → (s.task t).undeferredAncestor = none → (s.task t).parent = (s.address t).parent)
    (hg : w.taskgroup → (s.task t).undeferredAncestor = none → (s.task t).taskgroup = (s.task t).createdIn) :
    Flags w (s.setBlockedUntied t b) := by
  unfold setBlockedUntied
  dsimp only
  refine Flags.of_queue_eq ?_ rfl
  have hex : ∀ plain, (if b then Call.block (s.task t).kind else .unblock).exact plain (some (zoneOf !b)) = true :=
    fun plain => exact_block b plain (Or.inl hk)
  split
  case isTrue ha =>
    have hfam := h.callFamily ht (s.task t).taskgroup (address_group s t) (result_block_none b false (s.task t).kind)
      (parent_or_none s t)
    have hfl := Flags.callFamily hf h ht (c := if b then Call.block (s.task t).kind else .unblock)
      (fun hc hne => ⟨hw hc ha,by rw [hfamily ha]; exact hex false⟩)
      (fun hc hne => ⟨hg hc ha,by rw [hgroup ha (hg hc ha)]; exact hex false⟩)
    refine Flags.callThread (Flags.modify (Flags.callTeam hfl hfam ht ?_)) (hfam.callTeam ht).modify ht rfl ?_
    · rw [hteam]
      exact hex true
    · intro _
      rw [hthread]
      exact hex true
  case isFalse ha =>
    refine Flags.callThread (Flags.modify (Flags.callTeam hf h ht ?_)) (h.callTeam ht).modify ht rfl ?_
    · rw [hteam]
      exact hex true
    · intro _
      rw [hthread]
      exact hex true

end SetBlockedUntied

/-- A listed task that waits stands on no stack. -/
theorem listed_iff_of_waiting (hsh : TaskShape s.ultVar t (s.task t)) (hk : (s.task t).kind = .waiting)
    (hh : (s.task t).home = .listed ∨ (s.task t).home = .stack) :
    (s.task t).home = .listed ↔ (s.task t).undeferredAncestor = none := by
  rcases hh with e | e
  · exact ⟨fun _ => (hsh.listed e).2 (Or.inl hk),fun _ => e⟩
  · constructor
    · intro h
      rw [h] at e
      cases e
    · intro h
      rcases (hsh.stack e).1 with h' | h'
      · rw [hk] at h'
        cases h'
      · exact absurd h h'.2

/-- The whole of an UNTIED task changes its zone. -/
theorem setBlockedUntied_moves {lock : Option Zone} (hsh : TaskShape s.ultVar t (s.task t))
    (ht : (s.task t).type = .untied) (hk : (s.task t).kind = .waiting)
    (hh : (s.task t).home = .listed ∨ (s.task t).home = .stack)
    (h : s.At t (s.address t) ((s.task t).untiedView (!b) lock)) :
    (s.setBlockedUntied t b).At t (s.address t) ((s.task t).untiedView b lock) ∧
    (Flags w s → (w.children → Family s) → (w.taskgroup → Regrouped s) → Flags w (s.setBlockedUntied t b)) := by
  have hlisted := listed_iff_of_waiting hsh hk hh
  have hfreed := not_freed_of_waits hsh (Or.inl hk)
  have hfam : (s.task t).undeferredAncestor = none → ((s.task t).untiedView (!b) lock).family = some (zoneOf !b) :=
    fun e => if_pos (hlisted.mpr e)
  have hgr : (s.task t).undeferredAncestor = none → (s.task t).taskgroup = (s.task t).createdIn →
      ((s.task t).untiedView (!b) lock).group = some (zoneOf !b) := by
    intro e e'
    simp only [Task.untiedView]
    rw [if_pos (hlisted.mpr e),if_pos e']
  have hisListed : (s.task t).undeferredAncestor = none → (s.task t).isListed = true := by
    intro e
    simp [Task.isListed, hfreed, hlisted.mpr e]
  constructor
  · refine (setBlockedUntied_at h ht rfl rfl hfam hgr).view_eq ?_
    ext1 <;> simp only [Task.untiedView, hlisted]
    · split <;> rfl
    · by_cases e1 : (s.task t).undeferredAncestor = none <;>
        by_cases e2 : (s.task t).taskgroup = (s.task t).createdIn <;> simp [e1, e2]
  · intro hf hwc hwg
    exact setBlockedUntied_flags h ht rfl rfl hfam hgr hk hf (fun hw ha => parent_eq_of_family (hwc hw) (hisListed ha))
      fun hw ha => hwg hw t (hisListed ha) hk

/-- What gomp_task_handle_blocking relies on: the tasks in a wait are where they belong, with their parents and
taskgroups as far as these are watched. -/
structure WaitersPlaced (w : Watch) (s : TeamState) : Prop where
  shaped : Shaped s
  placed : ∀ u, (s.task u).taskwait ≠ none → s.PlacedAt u
  family : w.children → Family s
  regrouped : w.taskgroup → Regrouped s

theorem family_nudged (h : Family s) (hr : Nudged w s s') : Family s' := by
  intro t p hl hp
  rw [hr.isHeap] at hl
  rw [hr.parent] at hp
  rw [hr.freed]
  exact h t p hl hp

theorem regrouped_nudged (h : Regrouped s) (hr : Nudged w s s') : Regrouped s' := by
  intro t hl hk
  rw [hr.isListed] at hl
  rw [hr.kind] at hk
  rw [hr.taskgroup,hr.createdIn]
  exact h t hl hk

theorem WaitersPlaced.nudged (h : WaitersPlaced w s) (hr : Nudged w s s') : WaitersPlaced w s' where
  shaped := hr.shaped h.shaped
  placed u hu := hr.placed u (h.placed u fun h0 => hu ((hr.task u).2.1.mpr h0))
  family hw := family_nudged (h.family hw) hr
  regrouped hw := regrouped_nudged (h.regrouped hw) hr

theorem Reblocks.nudges {x x' : Task} (h : Reblocks x x') : Nudges x x' := by
  obtain ⟨he,hb⟩ := h
  have hw : x'.taskwait = x.taskwait := by rw [he]
  refine ⟨?_,by rw [hw],fun h0 => ?_⟩
  · rw [hw]
    exact he
  · by_cases e : x'.isBlocked = x.isBlocked
    · rw [he,e]
    · exact absurd h0 (hb e).1

/-- Where a task whose blocking alone has changed is placed. -/
theorem PlacedAt.of_at {v : View} (h : s'.At t (s.address t) v) (ht : s'.task t = { s.task t with isBlocked := b })
    (hf : ∀ p, (s'.task p).freed = (s.task p).freed) (hv : v = { s.task t with isBlocked := b }.view) :
    s'.PlacedAt t := by
  unfold PlacedAt
  have ha : s'.address t = s.address t := by simp only [address, liveParent, ht, hf]
  rw [ha,ht,← hv]
  exact h

/-- A suspended TIED task changes its zone in the queue of its thread. -/
theorem setBlockedTied_nudged (h : WaitersPlaced w s) (ht : (s.task t).type = .tied)
    (hk : (s.task t).kind = .tiedSuspended) (hw : (s.task t).taskwait ≠ none) (hb : (s.task t).isBlocked = !b) :
    Nudged w s (s.setBlockedTied t b) := by
  have hsh := h.shaped.task t
  obtain ⟨-,-,hhome⟩ := hsh.tiedSuspended hk
  have hfreed := not_freed_of_waits hsh (Or.inr hk)
  have hreb := setBlockedTied_reblocked (b := b) hw hk ht
  have hview := Task.view_tiedSuspended hfreed ht hk hhome.symm
  have hat := h.placed t hw
  unfold PlacedAt at hat
  rw [hview,Task.waitZone,hb] at hat
  refine ⟨fun u => (hreb.task u).nudges,hreb.numTasks,hreb.ultVar,hreb.group,hreb.numGroups,
    fun hs => hs.reblocked hreb,fun u hu => ?_,fun u hu => ?_,setBlockedTied_flags hat ht rfl hk,
    by simp [setBlockedTied]⟩
  · by_cases e : u = t
    · subst e
      refine PlacedAt.of_at (b := b) (setBlockedTied_at hat ht rfl) (by simp [setBlockedTied_task]) ?_ ?_
      · intro p
        rw [(hreb.task p).1]
      · rw [Task.view_tiedSuspended (x := { s.task u with isBlocked := b }) hfreed ht hk hhome.symm]
        simp [Task.waitZone, Task.runView, hw]
    · refine hu.congr (by simp [setBlockedTied_task, e]) (fun p => ?_) (setBlockedTied_status_ne e)
      rw [(hreb.task p).1]
  · have e : u ≠ t := by
      rintro rfl
      exact hw hu
    exact setBlockedTied_status_ne e

/-- An UNTIED task that waits in a wait of its own has been suspended. -/
theorem home_of_waits (hsh : TaskShape s.ultVar t (s.task t)) (hk : (s.task t).kind = .waiting)
    (hw : (s.task t).taskwait ≠ none) : (s.task t).home = .listed ∨ (s.task t).home = .stack := by
  cases hh : (s.task t).home with
  | implicit =>
    rw [hsh.implicit] at hh
    rw [hk] at hh
    cases hh
  | stack => exact Or.inr rfl
  | unmet => exact absurd (hsh.unmet (Or.inl hh)).2.2.1 hw
  | listed => exact Or.inl rfl
  | late => exact absurd (hsh.unmet (Or.inr hh)).2.2.1 hw

/-- A suspended UNTIED task changes its zone in all its queues. -/
theorem setBlockedUntied_nudged (h : WaitersPlaced w s) (ht : (s.task t).type = .untied)
    (hk : (s.task t).kind = .waiting) (hw : (s.task t).taskwait ≠ none) (hb : (s.task t).isBlocked = !b) :
    Nudged w s (s.setBlockedUntied t b) := by
  have hsh := h.shaped.task t
  have hhome := home_of_waits hsh hk hw
  have hfreed := not_freed_of_waits hsh (Or.inl hk)
  have hreb := setBlockedUntied_reblocked (b := b) hw hk ht
  have hat := h.placed t hw
  unfold PlacedAt at hat
  rw [Task.view_untiedWaiting hfreed ht hk hhome,hb] at hat
  obtain ⟨hmoved,hfl⟩ := setBlockedUntied_moves (w := w) hsh ht hk hhome hat
  refine ⟨fun u => (hreb.task u).nudges,hreb.numTasks,hreb.ultVar,hreb.group,hreb.numGroups,
    fun hs => hs.reblocked hreb,fun u hu => ?_,fun u hu => ?_,fun hf => hfl hf h.family h.regrouped,
    setBlockedUntied_drift hk⟩
  · by_cases e : u = t
    · subst e
      refine PlacedAt.of_at (b := b) hmoved (by simp [setBlockedUntied_task]) ?_ ?_
      · intro p
        rw [(hreb.task p).1]
      · rw [Task.view_untiedWaiting (x := { s.task u with isBlocked := b }) hfreed ht hk hhome]
        simp [Task.untiedView, hw]
    · refine hu.congr (by simp [setBlockedUntied_task, e]) (fun p => ?_) (setBlockedUntied_status_ne e)
      rw [(hreb.task p).1]
  · have e : u ≠ t := by
      rintro rfl
      exact hw hu
    exact setBlockedUntied_status_ne e

/-- The recursion of gomp_task_handle_blocking, step by step. -/
theorem handleBlocking_nudged (fuel : ℕ) (h : WaitersPlaced w s) (hw : (s.task t).taskwait ≠ none) :
    Nudged w s (handleBlocking fuel s t) := by
  induction fuel generalizing s t with
  | zero => exact .refl w s
  | succ fuel ih =>
    rcases handleBlocking_cases fuel s t with he | ⟨ht,hk,hb,he⟩ | ⟨ht,hk,hb,he⟩
    · rw [he]
      exact .refl w s
    · rw [he]
      exact setBlockedTied_nudged h ht hk hw hb
    · rw [he]
      have hs := setBlockedUntied_nudged h ht hk hw hb
      cases hp : (s.setBlockedUntied t (s.isBlockedUntied t)).waitingParent t with
      | none => exact hs
      | some p => exact hs.trans (ih (h.nudged hs) (inTaskwait_taskwait (waitingParent_eq.mp hp).2))

theorem gompTaskHandleBlocking_nudged (h : WaitersPlaced w s) (hw : (s.task t).taskwait ≠ none) :
    Nudged w s (s.gompTaskHandleBlocking t) := handleBlocking_nudged _ h hw

theorem handleParent_nudged (h : WaitersPlaced w s) (p : Option ℕ) : Nudged w s (s.handleParent p) := by
  unfold handleParent
  cases hp : p.filter fun p => (s.task p).inTaskwait with
  | none => exact .refl w s
  | some p => exact gompTaskHandleBlocking_nudged h (inTaskwait_taskwait (Option.filter_eq_some_iff.mp hp).2)

/-- A change of the flags of a wait. -/
theorem modifyWait_nudged (t : ℕ) (f : Taskwait → Taskwait) : Nudged w s (s.modifyWait t f) := by
  have htask : ∀ u, Nudges (s.task u) ((s.modifyWait t f).task u) := by
    intro u
    by_cases e : u = t
    · subst e
      simp only [modifyWait, modify_task, if_true]
      refine ⟨rfl,Option.map_eq_none_iff,fun h0 => ?_⟩
      have hmap : (s.task u).taskwait.map f = (s.task u).taskwait := by
        rw [h0]
        rfl
      rw [hmap]
    · simp only [modifyWait, modify_task, if_neg e]
      exact .refl _
  have hfreed : ∀ p, ((s.modifyWait t f).task p).freed = (s.task p).freed := by
    intro p
    rw [(htask p).1]
  refine ⟨htask,rfl,rfl,rfl,rfl,fun hs => hs.modifyWait t f,fun u hu => ?_,fun u _ q => rfl,fun hf => hf,rfl⟩
  have haddr : (s.modifyWait t f).address u = s.address u := by
    simp only [address, liveParent, hfreed]
    rw [(htask u).1]
  have hview : ((s.modifyWait t f).task u).view = (s.task u).view := by
    by_cases e : u = t
    · subst e
      simp only [modifyWait, modify_task, if_true, Task.view, Option.map_eq_none_iff]
      rfl
    · simp only [modifyWait, modify_task, if_neg e]
  unfold PlacedAt
  rw [haddr,hview]
  exact hu

theorem notifyParent_nudged (h : WaitersPlaced w s) (p : ℕ) : Nudged w s (s.notifyParent p) := by
  unfold notifyParent
  split
  · next hw =>
    split
    · exact gompTaskHandleBlocking_nudged h (inTaskwait_taskwait hw)
    · exact modifyWait_nudged p _
  · split
    · next hw =>
      split
      · exact gompTaskHandleBlocking_nudged h (inDependWait_taskwait hw)
      · exact modifyWait_nudged p _
    · exact .refl w s

end TeamState

end GompUlt.Team
