import GompUlt.Team.TeamRuns

/-! # The counters of the queues

num_priority_node and num_waiting_priority_node count the members and the ready members of a
queue as long as every call that moves a task moves the counters with it, which
priority_queue_move_task_first does not.
-/
namespace GompUlt.Team
open Queue TeamState Run

namespace TeamState
variable {w : Watch} {s : TeamState} {t : ℕ} {q : QRef}

/-- The task is not blocked and, where the queue has running members, it does not run. -/
def readyIn (s : TeamState) (q : QRef) (t : ℕ) : Prop :=
  (s.task t).isBlocked = false ∧ (q.plain = true ∨ (s.task t).kind = .waiting ∨ (s.task t).home = .late)

instance (s : TeamState) (q : QRef) (t : ℕ) : Decidable (s.readyIn q t) := by
  unfold readyIn
  infer_instance

/-- The counters of a queue hold the numbers of its members and of its ready members. -/
structure Counted (s : TeamState) (q : QRef) : Prop where
  nodes : (s.queue q).numPriorityNode = (s.queue q).members.card
  waiting : (s.queue q).numWaitingPriorityNode = ((s.queue q).members.filter fun t => s.readyIn q t).card
  nonneg : 0 ≤ (s.queue q).numPriorityNode ∧ 0 ≤ (s.queue q).numWaitingPriorityNode

theorem waitZone_ready {x : Task} : x.waitZone = .ready ↔ x.isBlocked = false := by
  cases h : x.isBlocked <;> simp [Task.waitZone, zoneOf, h]

theorem zone_ready {x : Task} : x.zone = .ready ↔ x.isBlocked = false ∧ (x.kind = .waiting ∨ x.home = .late) := by
  unfold Task.zone
  split
  · next h => simp [waitZone_ready, h]
  · next h => simp [h]

/-- The zone of a member says whether it is ready. -/
theorem member_ready (h : Placed w s) (hw : w.taskgroup = true) (hq : q.isLocked = false) {z : Zone}
    (hz : s.status q t = some z) : z = .ready ↔ s.readyIn q t := by
  have hsh := h.shaped.task t
  rw [h.placed t] at hz
  unfold readyIn
  cases q with
  | children type p =>
    simp only [expect, Task.view, Option.ite_none_right_eq_some, Option.some.injEq] at hz
    rw [← hz.2.2,zone_ready]
    simp [QRef.plain]
  | taskgroup type g =>
    simp only [expect, Task.view, Option.ite_none_right_eq_some, Option.some.injEq] at hz
    obtain ⟨-,hl,hz⟩ := hz
    rw [← hz]
    split
    · rw [zone_ready]
      simp [QRef.plain]
    · next hne =>
      -- inside a taskgroup of its own a task runs
      have hkind : (s.task t).kind ≠ .waiting := fun hk => hne (h.regrouped hw t hl hk)
      have hlate : (s.task t).home ≠ .late := fun he =>
        hne (hsh.unopened (hsh.unmet (Or.inr he)).1 (Or.inr (Or.inr (Or.inl he))))
      simp [QRef.plain, hkind, hlate]
  | team type =>
    simp only [expect, Task.view, Option.ite_none_right_eq_some, Option.some.injEq] at hz
    rw [← hz.2.2,waitZone_ready]
    simp [QRef.plain]
  | suspended type thr =>
    simp only [expect, Task.view, Option.ite_none_right_eq_some, Option.some.injEq] at hz
    rw [← hz.2.2,waitZone_ready]
    simp [QRef.plain]
  | locked l => cases hq

theorem counted_of_placed (h : Placed w s) (hw : w.taskgroup = true) (hc : w.counters = true) (hon : w.on q)
    (hq : q.isLocked = false) : s.Counted q := by
  obtain ⟨hn,hr⟩ := (s.queue q).counted ((h.flags q hon).2 hc)
  have hsame : ((s.queue q).members.filter fun t => (s.queue q).status t = some .ready) =
      (s.queue q).members.filter fun t => s.readyIn q t := by
    refine Finset.filter_congr fun t ht => ?_
    obtain ⟨z,hz⟩ := Option.isSome_iff_exists.mp (((s.queue q).mem_members t).mp ht)
    have hst : s.status q t = some z := hz
    rw [hz,← member_ready h hw hq hst,Option.some.injEq]
  rw [hsame] at hr
  exact ⟨hn,hr,by omega,by omega⟩

/-- The children, taskgroup, team and suspended queues, with their counters. -/
def countedQueues : Watch := ⟨true,true,false,true⟩

/-- A target task is mapped asynchronously and put back among the children of an implicit task. -/
def targetPutBack : List Event :=
  [.createTarget 0 false [] false,.start .barrier 0 1 (.team .tied),.targetAsync 1,.targetCompletion 1]

/-- A task with a child of its own, suspended in a taskwait and resumed. -/
def waitingPair : List Event :=
  [.create 0 .tied false [],.start .barrier 0 2 (.team .tied),.create 2 .untied false [],
   .switch .taskwait 0 2 3 (.children .untied 2) none]

end TeamState

end GompUlt.Team
