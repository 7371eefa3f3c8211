import GompUlt.Team.Steady

/-! # Which queue a task is a member of

The type of a task chooses between the two variants of every queue, its parent and the taskgroup
it was created in choose the queue.  The three choices hold in every run that keeps away from the
places where the source makes them from other fields.
-/
namespace GompUlt.Team
open Queue TeamState Run

namespace TeamState
variable {w : Watch} {s : TeamState} {t : ℕ}

/-! ## The type -/

/-- A task that is found in a children, taskgroup or team queue is there in the variant of its type, and every call on
these queues so far was for a member. -/
structure TypedQueues (s : TeamState) : Prop where
  children : ∀ type p t, s.status (.children type p) t ≠ none → type = (s.task t).type
  taskgroup : ∀ type g t, s.status (.taskgroup type g) t ≠ none → type = (s.task t).type
  team : ∀ type t, s.status (.team type) t ≠ none → type = (s.task t).type
  calls : ∀ type n, (s.queue (.children type n)).sound = true ∧ (s.queue (.taskgroup type n)).sound = true ∧
    (s.queue (.team type)).sound = true

/-- The queues of the families and of the team. -/
def familyQueues : Watch := ⟨true,true,false,false⟩

/-- An UNTIED task waits for a TIED sibling, which completes. -/
def mixedSiblings : List Event :=
  [.create 0 .tied true [],.create 0 .untied true [1],.start .barrier 0 1 (.team .tied),.finish .barrier 0 1]

/-- Two siblings of one type. -/
def likeSiblings : List Event :=
  [.create 0 .untied true [],.create 0 .untied true [1],.start .barrier 0 1 (.team .untied),.finish .barrier 0 1]

/-- The parent of an unfinished task is NULL or there, a task in the queues is a member of one of the children queues of
its parent, and no call was made on the queues of a freed task. -/
structure ParentsThere (s : TeamState) : Prop where
  parent : ∀ t p, t < s.numTasks → (s.task t).freed = false → (s.task t).home ≠ .implicit →
    (s.task t).home ≠ .stack → (s.task t).parent = some p → (s.task p).freed = false
  member : ∀ t p, (s.task t).isListed = true → (s.task t).parent = some p →
    ∃ type, s.status (.children type p) t ≠ none
  gone : ∀ p type t, (s.task p).freed = true → s.status (.children type p) t = none
  calls : ∀ type p, (s.queue (.children type p)).sound = true

/-- The children queues. -/
def childrenQueues : Watch := ⟨true,false,false,false⟩

/-- A task completes while one of its children waits for another, which then completes and lets it start. -/
def abandonedChild : List Event :=
  [.create 0 .tied false [],.start .barrier 0 1 (.team .tied),.create 1 .tied true [],.create 1 .tied true [2],
   .finish .barrier 0 1,.start .barrier 0 2 (.team .tied),.finish .barrier 0 2,.start .barrier 0 3 (.team .tied)]

/-- A task completes after its child has come to the queues. -/
def adoptedChild : List Event :=
  [.create 0 .tied false [],.start .barrier 0 1 (.team .tied),.create 1 .tied true [],.finish .barrier 0 1]

/-- A task is in the queue of the taskgroup it was created in, from the moment it is queued until it completes, and in
no other, and every call on these queues so far was for a member. -/
structure GroupedQueues (s : TeamState) : Prop where
  member : ∀ t type g, (s.task t).isListed = true →
    (s.status (.taskgroup type g) t ≠ none ↔ type = (s.task t).type ∧ (s.task t).createdIn = some g)
  others : ∀ t type g, (s.task t).isListed = false → s.status (.taskgroup type g) t = none
  calls : ∀ type g, (s.queue (.taskgroup type g)).sound = true

/-- The taskgroup queues. -/
def taskgroupQueues : Watch := ⟨false,true,false,false⟩

/-- An UNTIED task is suspended at the end of a taskgroup it has opened. -/
def ownGroup : List Event :=
  [.create 0 .untied false [],.start .barrier 0 2 (.team .untied),.taskgroupStart 2,.create 2 .tied false [],
   .switch .taskgroupEnd 0 2 3 (.team .tied) none]

/-- A TIED task is suspended there. -/
def ownGroupTied : List Event :=
  [.create 0 .tied false [],.start .barrier 0 2 (.team .tied),.taskgroupStart 2,.create 2 .tied false [],
   .switch .taskgroupEnd 0 2 3 (.team .tied) none]

end TeamState

end GompUlt.Team
