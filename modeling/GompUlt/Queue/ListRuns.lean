import GompUlt.Lib.Run
import GompUlt.Queue.ListZones

/-! # Runs of operations on one priority_list of a children or taskgroup queue

Every operation is allowed where the runtime may call it: an insertion takes a node that
is no member, a removal says rightly which ring holds the node, and a move takes a node
of the zone it moves from.
-/
namespace GompUlt.Queue
open LinkRing Run

/-- What a member of the list is, by the last operation applied to it. -/
inductive Status
  | dependsOn | waiting | running | blocked
  deriving DecidableEq, Repr

/-- The status that priority_list_insert gives; only a children or taskgroup list tells the
parent_depends_on tasks from the others. -/
def Status.put (plain taskIsParentDependsOn taskIsBlocked : Bool) : Status :=
  if taskIsBlocked then blocked else if taskIsParentDependsOn && !plain then dependsOn else waiting

structure ListState (α : Type*) where
  links : Links α
  list : PriorityList α
  status : α → Option Status

/-- The operations on one list.  A task's parent_depends_on field and the question whether
it awaits children are read when it is put back among the waiting tasks. -/
inductive ListOp (α : Type*)
  | insert (node : α) (pos : InsertType) (taskIsParentDependsOn taskIsBlocked : Bool)
  | insertRunning (node : α)
  | remove (node : α) (taskIsBlocked : Bool)
  | upgradeTask (node : α)
  | downgradeTask (node : α)
  | adjustTask (node : α) (awaitsChildren taskIsParentDependsOn : Bool)
  | blockTask (node : α)
  | unblockTask (node : α) (awaitsChildren taskIsParentDependsOn : Bool)
  deriving DecidableEq, Repr

variable {α : Type*} [DecidableEq α]

def ListState.empty (links : Links α) (priority : ℤ) : ListState α :=
  { links, list := PriorityList.empty priority, status := fun _ => none }

/-- The list after an operation that leaves the node with the given status. -/
def ListState.put (s : ListState α) (node : α) (status : Option Status) (r : Links α × PriorityList α) :
    ListState α :=
  { links := r.1, list := r.2, status := Function.update s.status node status }

def listStep (type : PQType) (policy : ℕ) (s : ListState α) : ListOp α → Option (ListState α)
  | .insert n pos d b =>
    if s.status n = none then
      some (s.put n (some (.put type.plain d b)) (priorityListInsert type s.links s.list n pos d b))
    else none
  | .insertRunning n =>
    if s.status n = none then some (s.put n (some .running) (priorityListInsertRunning s.links s.list n))
    else none
  | .remove n b =>
    if s.status n ≠ none ∧ (s.status n = some .blocked ↔ b = true) then
      let r := priorityListRemove type s.links s.list n b
      some (s.put n none (r.1,r.2.1))
    else none
  | .upgradeTask n =>
    if s.status n = some .waiting then
      some (s.put n (some .dependsOn) (priorityListUpgradeTask s.links s.list n))
    else none
  | .downgradeTask n =>
    if s.status n = some .dependsOn ∨ s.status n = some .waiting then
      some (s.put n (some .running) (priorityListDowngradeTask s.links s.list n))
    else none
  | .adjustTask n c d =>
    if s.status n = some .running then
      some (s.put n (some (.put type.plain d false)) (priorityListAdjustTask type policy s.links s.list n c d))
    else none
  | .blockTask n =>
    if s.status n ≠ none ∧ s.status n ≠ some .blocked then
      some (s.put n (some .blocked) (priorityListBlockTask type s.links s.list n))
    else none
  | .unblockTask n c d =>
    if s.status n = some .blocked then
      some (s.put n (some (.put type.plain d false)) (priorityListUnblockTask type policy s.links s.list n c d))
    else none

namespace Zones

omit [DecidableEq α] in
/-- The zone that holds the members of a status. -/
def zone (z : Zones α) : Status → List α
  | .dependsOn => z.dependsOn
  | .waiting => z.waiting
  | .running => z.running
  | .blocked => z.blocked

end Zones

/-- The zones hold exactly the nodes of their status. -/
def Tracks (z : Zones α) (status : α → Option Status) : Prop := ∀ n st, n ∈ z.zone st ↔ status n = some st

section Tracking
variable {z : Zones α} {status : α → Option Status} {n : α}

omit [DecidableEq α] in
theorem Tracks.mem_members (ht : Tracks z status) : n ∈ z.members ↔ status n ≠ none := by
  have hd := ht n .dependsOn
  have hw := ht n .waiting
  have hr := ht n .running
  have hb := ht n .blocked
  simp only [Zones.zone] at hd hw hr hb
  simp only [Zones.members, Zones.order, List.mem_append, hd, hw, hr, hb]
  cases status n with
  | none => simp
  | some st => cases st <;> simp

omit [DecidableEq α] in
theorem Tracks.mem_order (ht : Tracks z status) :
    n ∈ z.order ↔ status n ≠ none ∧ status n ≠ some .blocked := by
  have hd := ht n .dependsOn
  have hw := ht n .waiting
  have hr := ht n .running
  simp only [Zones.zone] at hd hw hr
  simp only [Zones.order, List.mem_append, hd, hw, hr]
  cases status n with
  | none => simp
  | some st => cases st <;> simp

theorem tracks_insert (plain : Bool) (ht : Tracks z status) (hn : status n = none) (pos : InsertType)
    (d b : Bool) :
    Tracks (z.insert plain n pos d b) (Function.update status n (some (.put plain d b))) := by
  intro m st
  have hm := ht m st
  by_cases e : m = n
  · subst e
    rw [hn] at hm
    cases st <;> cases pos <;> cases d <;> cases b <;> cases plain <;>
      simp_all [Zones.insert, Zones.zone, Status.put]
  · rw [Function.update_of_ne e, ← hm]
    cases st <;> cases pos <;> cases d <;> cases b <;> cases plain <;> simp [Zones.insert, Zones.zone, e]

theorem tracks_insertRunning (ht : Tracks z status) (hn : status n = none) :
    Tracks (z.insertRunning n) (Function.update status n (some .running)) := by
  intro m st
  have hm := ht m st
  by_cases e : m = n
  · subst e
    rw [hn] at hm
    cases st <;> simp_all [Zones.insertRunning, Zones.zone]
  · rw [Function.update_of_ne e, ← hm]
    cases st <;> simp [Zones.insertRunning, Zones.zone, e]

omit [DecidableEq α] in
/-- The zones are free of duplicates one by one. -/
private theorem zones_nodup (hnd : z.members.Nodup) (st : Status) : (z.zone st).Nodup := by
  simp only [Zones.members, Zones.order, List.nodup_append] at hnd
  cases st <;> simp [Zones.zone, hnd]

theorem tracks_erase (ht : Tracks z status) (hnd : z.members.Nodup) (n : α) :
    Tracks (z.erase n) (Function.update status n none) := by
  have hz : ∀ st, (z.erase n).zone st = (z.zone st).erase n := fun st => by cases st <;> rfl
  intro m st
  rw [hz, (zones_nodup hnd st).mem_erase_iff, ht m st]
  by_cases e : m = n
  · simp [e]
  · simp [e]

theorem tracks_upgrade (ht : Tracks z status) (hnd : z.members.Nodup) (hn : status n = some .waiting) :
    Tracks (z.upgrade n) (Function.update status n (some .dependsOn)) := by
  have hw : ∀ m, m ∈ z.waiting.erase n ↔ m ≠ n ∧ m ∈ z.waiting := fun m =>
    (zones_nodup hnd .waiting).mem_erase_iff
  intro m st
  have hm := ht m st
  by_cases e : m = n
  · subst e
    rw [hn] at hm
    cases st with
    | dependsOn => simp [Zones.zone, Zones.mem_upgrade_dependsOn]
    | waiting => simp [Zones.zone, Zones.upgrade, hw]
    | running | blocked => simpa [Zones.zone, Zones.upgrade] using hm
  · rw [Function.update_of_ne e, ← hm]
    cases st with
    | dependsOn => simp [Zones.zone, Zones.mem_upgrade_dependsOn, e]
    | waiting => simp [Zones.zone, Zones.upgrade, hw, e]
    | running | blocked => simp [Zones.zone, Zones.upgrade]

theorem tracks_downgrade (ht : Tracks z status) (hnd : z.members.Nodup)
    (hn : status n = some .dependsOn ∨ status n = some .waiting) :
    Tracks (z.downgrade n) (Function.update status n (some .running)) := by
  have hd : ∀ m, m ∈ z.dependsOn.erase n ↔ m ≠ n ∧ m ∈ z.dependsOn := fun m =>
    (zones_nodup hnd .dependsOn).mem_erase_iff
  have hw : ∀ m, m ∈ z.waiting.erase n ↔ m ≠ n ∧ m ∈ z.waiting := fun m =>
    (zones_nodup hnd .waiting).mem_erase_iff
  intro m st
  have hm := ht m st
  by_cases e : m = n
  · subst e
    cases st with
    | dependsOn => simp [Zones.zone, Zones.downgrade, hd]
    | waiting => simp [Zones.zone, Zones.downgrade, hw]
    | running => simp [Zones.zone, Zones.mem_downgrade_running]
    | blocked => rcases hn with hn | hn <;> simpa [Zones.zone, Zones.downgrade, hn] using hm
  · rw [Function.update_of_ne e, ← hm]
    cases st with
    | dependsOn => simp [Zones.zone, Zones.downgrade, hd, e]
    | waiting => simp [Zones.zone, Zones.downgrade, hw, e]
    | running => simp [Zones.zone, Zones.mem_downgrade_running, e]
    | blocked => simp [Zones.zone, Zones.downgrade]

end Tracking

/-- The invariant of a run: the pointers stand for zones that hold the nodes by status. -/
def ListInv (plain : Bool) (s : ListState α) : Prop := ∃ z, Rep plain s.links s.list z ∧ Tracks z s.status

omit [DecidableEq α] in
theorem listInv_empty (plain : Bool) (h : Links α) (priority : ℤ) :
    ListInv plain (ListState.empty h priority) := by
  refine ⟨Zones.empty,rep_empty plain h priority,?_⟩
  intro n st
  cases st <;> simp [Zones.empty, Zones.zone, ListState.empty]

/-- A task taken out of its zone and put back has the status of its new zone. -/
theorem tracks_reinsert (plain : Bool) {z : Zones α} {status : α → Option Status} (ht : Tracks z status)
    (hnd : z.members.Nodup) (n : α) (pos : InsertType) (d b : Bool) :
    Tracks ((z.erase n).insert plain n pos d b) (Function.update status n (some (.put plain d b))) := by
  have hins := tracks_insert plain (tracks_erase ht hnd n) (Function.update_self n none status) pos d b
  rwa [Function.update_idem] at hins

theorem listStep_inv {type : PQType} (hp : type.plain = false) (policy : ℕ) {s s' : ListState α}
    {op : ListOp α} (hi : ListInv type.plain s) (hs : listStep type policy s op = some s') :
    ListInv type.plain s' := by
  obtain ⟨z,hr,ht⟩ := hi
  have hnd : z.members.Nodup := hr.rings.nodup
  have hr' : Rep false s.links s.list z := hp ▸ hr
  cases op <;> simp only [listStep, Option.ite_none_right_eq_some, Option.some.injEq] at hs
  case insert n pos d b =>
    obtain ⟨hn,rfl⟩ := hs
    have hm : n ∉ z.members := by simp [ht.mem_members, hn]
    exact ⟨_,priorityListInsert_rep type hr hm pos d b,tracks_insert type.plain ht hn pos d b⟩
  case insertRunning n =>
    obtain ⟨hn,rfl⟩ := hs
    have hm : n ∉ z.members := by simp [ht.mem_members, hn]
    exact ⟨_,hp ▸ priorityListInsertRunning_rep hr' hm,tracks_insertRunning ht hn⟩
  case remove n b =>
    obtain ⟨⟨hn,hb⟩,rfl⟩ := hs
    have hm : n ∈ if b then z.blocked else z.order := by
      cases b with
      | true => exact (ht n .blocked).mpr (hb.mpr rfl)
      | false => exact ht.mem_order.mpr ⟨hn,by simpa using hb⟩
    exact ⟨_,(priorityListRemove_rep type hr b hm).1,tracks_erase ht hnd n⟩
  case upgradeTask n =>
    obtain ⟨hn,rfl⟩ := hs
    exact ⟨_,hp ▸ priorityListUpgradeTask_rep hr' ((ht n .waiting).mpr hn),tracks_upgrade ht hnd hn⟩
  case downgradeTask n =>
    obtain ⟨hn,rfl⟩ := hs
    have hm : n ∈ z.dependsOn ++ z.waiting :=
      List.mem_append.mpr (hn.imp (ht n .dependsOn).mpr (ht n .waiting).mpr)
    exact ⟨_,hp ▸ priorityListDowngradeTask_rep hr' hm,tracks_downgrade ht hnd hn⟩
  case adjustTask n c d =>
    obtain ⟨hn,rfl⟩ := hs
    have hm : n ∈ z.order := ht.mem_order.mpr (by simp [hn])
    exact ⟨_,priorityListAdjustTask_rep type policy hr hm c d,tracks_reinsert type.plain ht hnd n _ d false⟩
  case blockTask n =>
    obtain ⟨hn,rfl⟩ := hs
    have hrep := priorityListBlockTask_rep type hr (ht.mem_order.mpr hn)
    exact ⟨_,hrep,tracks_reinsert type.plain ht hnd n _ false true⟩
  case unblockTask n c d =>
    obtain ⟨hn,rfl⟩ := hs
    have hrep := priorityListUnblockTask_rep type policy hr ((ht n .blocked).mpr hn) c d
    exact ⟨_,hrep,tracks_reinsert type.plain ht hnd n _ d false⟩

/-- After every run from the empty list the two rings are well formed and disjoint, hold
exactly the members, and the ring of tasks reads: the waiting parent_depends_on members,
the other waiting ones, the running ones, with the two boundary pointers in step. -/
theorem priorityList_run_zones {type : PQType} (hp : type.plain = false) (policy : ℕ) (h : Links α)
    (priority : ℤ) (ops : List (ListOp α)) (s : ListState α)
    (hs : run (listStep type policy) (ListState.empty h priority) ops = some s) :
    ∃ dependsOn waiting running blocked : List α,
      Rings s.links (dependsOn ++ waiting ++ running) blocked ∧
      (dependsOn ++ waiting ++ running ++ blocked).Nodup ∧
      (∀ n ∈ dependsOn ++ waiting ++ running ++ blocked,
        s.links.next (s.links.prev n) = n ∧ s.links.prev (s.links.next n) = n) ∧
      (∀ n, n ∈ dependsOn ++ waiting ++ running ++ blocked ↔ s.status n ≠ none) ∧
      (∀ n, n ∈ dependsOn ↔ s.status n = some .dependsOn) ∧
      (∀ n, n ∈ waiting ↔ s.status n = some .waiting) ∧
      (∀ n, n ∈ running ↔ s.status n = some .running) ∧
      (∀ n, n ∈ blocked ↔ s.status n = some .blocked) ∧
      s.list.tasks = (dependsOn ++ waiting ++ running).head? ∧
      s.list.blockedTasks = blocked.head? ∧
      s.list.lastParentDependsOn = dependsOn.getLast? ∧
      s.list.firstRunningTask = running.head? := by
  have hinv : ListInv type.plain s := run_invariant (fun _ _ _ hi _ hs => listStep_inv hp policy hi hs)
    (listInv_empty type.plain h priority) (along_true _ _) hs
  obtain ⟨z,hr,ht⟩ := hinv
  refine ⟨z.dependsOn,z.waiting,z.running,z.blocked,hr.rings,hr.rings.nodup,?_,fun n => ht.mem_members,
    fun n => ht n .dependsOn,fun n => ht n .waiting,fun n => ht n .running,fun n => ht n .blocked,hr.tasks,
    hr.blockedTasks,hr.lastParentDependsOn,hr.firstRunningTask⟩
  intro n hn
  rcases List.mem_append.mp hn with hn | hn
  · exact hr.rings.left.next_prev_inverse hn
  · exact hr.rings.right.next_prev_inverse hn

/-- A run that passes through all four zones. -/
theorem priorityList_run_zones_mixed :
    ∃ s : ListState ℕ,
      run (listStep .childrenUntied 0) (ListState.empty ⟨id,id⟩ 0)
        [.insert 1 .insertEnd false false,.insert 2 .insertBegin true false,.insertRunning 3,
          .insert 4 .insertEnd false true,.upgradeTask 1,.downgradeTask 2,.adjustTask 3 false false,
          .unblockTask 4 true false,.blockTask 2,.remove 2 true] = some s ∧
      ∃ dependsOn waiting running blocked : List ℕ,
        Rings s.links (dependsOn ++ waiting ++ running) blocked ∧
        (∀ n, n ∈ waiting ↔ s.status n = some .waiting) ∧
        s.list.lastParentDependsOn = dependsOn.getLast? := by
  obtain ⟨s,hs⟩ := Option.isSome_iff_exists.mp (show (run (listStep .childrenUntied 0)
    (ListState.empty (⟨id,id⟩ : Links ℕ) 0)
    [.insert 1 .insertEnd false false,.insert 2 .insertBegin true false,.insertRunning 3,
      .insert 4 .insertEnd false true,.upgradeTask 1,.downgradeTask 2,.adjustTask 3 false false,
      .unblockTask 4 true false,.blockTask 2,.remove 2 true]).isSome = true by decide)
  obtain ⟨d,w,r,b,hrings,_,_,_,_,hw,_,_,_,_,hl,_⟩ := priorityList_run_zones rfl 0 _ 0 _ s hs
  exact ⟨s,hs,d,w,r,b,hrings,hw,hl⟩

end GompUlt.Queue
