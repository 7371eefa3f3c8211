import GompUlt.Queue.QueueRuns
import Mathlib.Data.Finset.Card

/-! # A priority_queue as its callers see it

Of a queue the task runtime uses the members, the zone each of them is in, and the two
counters.  A queue here keeps these and two flags that remember whether every call so far
was one the lists survive, and whether every call moved the counters as it moved the task.
-/
namespace GompUlt.Team
open Queue

/-- The part of a queue a member is in. -/
inductive Zone
  | ready | running | blocked
  deriving DecidableEq, Repr

/-- A call on a queue for one task. -/
inductive Call
  | insert (taskIsBlocked : Bool)
  | insertRunning
  | remove (taskIsBlocked : Bool)
  | adjust
  | block (kind : TaskKind)
  | unblock
  | upgrade
  | downgrade
  | moveFirst (isBlocked : Bool)
  deriving DecidableEq, Repr

namespace Call

/-- Where the task goes. -/
def target (z : Option Zone) : Call → Option Zone
  | insert b => if b then some .blocked else some .ready
  | insertRunning => some .running
  | remove _ => none
  | adjust => some .ready
  | block _ => some .blocked
  | unblock => some .ready
  | upgrade => some .ready
  | downgrade => some .running
  | moveFirst b => if b then z else some .ready

/-- Where the lists allow the call; a plain queue (team, suspended, locked) has no running tasks. -/
def allowed (plain : Bool) (z : Option Zone) : Call → Bool
  | insert _ => z = none
  | insertRunning => !plain && z = none
  | remove b => z ≠ none && decide (z = some .blocked) == b
  | adjust => !plain && z = some .running
  | block _ => z = some .ready || z = some .running
  | unblock => z = some .blocked
  | upgrade => !plain && z = some .ready
  | downgrade => !plain && z = some .ready
  | moveFirst b => !plain && z ≠ none && decide (z = some .blocked) == b

/-- What is added to num_priority_node. -/
def nodes : Call → ℤ
  | insert _ | insertRunning => 1
  | remove _ => -1
  | adjust | block _ | unblock | upgrade | downgrade | moveFirst _ => 0

/-- What is added to num_waiting_priority_node. -/
def waiting (plain : Bool) : Call → ℤ
  | insert b => if b then 0 else 1
  | insertRunning => 0
  | remove b => if !b && plain then -1 else 0
  | adjust => 1
  | block kind => if kind = .waiting || kind = .tiedSuspended then -1 else 0
  | unblock => 1
  | upgrade => 0
  | downgrade => -1
  | moveFirst _ => 0

/-- A call the lists do not survive is taken to leave the task where it is. -/
def result (plain : Bool) (z : Option Zone) (c : Call) : Option Zone := if c.allowed plain z then c.target z else z

/-- The counters move as the task does. -/
def exact (plain : Bool) (z : Option Zone) (c : Call) : Bool :=
  c.allowed plain z && c.nodes = (c.target z).isSome.toNat - z.isSome.toNat &&
    c.waiting plain = (decide (c.target z = some .ready)).toNat - (decide (z = some .ready)).toNat

end Call

variable {α : Type*} [DecidableEq α]

structure TaskQueue (α : Type*) [DecidableEq α] where
  status : α → Option Zone
  members : Finset α
  numPriorityNode : ℤ
  numWaitingPriorityNode : ℤ
  sound : Bool
  exact : Bool
  mem_members : ∀ t, t ∈ members ↔ (status t).isSome = true
  counted : exact = true → numPriorityNode = members.card ∧
    numWaitingPriorityNode = (members.filter fun t => status t = some .ready).card

namespace TaskQueue

def empty : TaskQueue α where
  status _ := none
  members := ∅
  numPriorityNode := 0
  numWaitingPriorityNode := 0
  sound := true
  exact := true
  mem_members := by simp
  counted := by simp

/-- priority_queue_empty_p. -/
def emptyP (q : TaskQueue α) : Bool := q.members = ∅

def place (members : Finset α) (t : α) (z : Option Zone) : Finset α :=
  if z.isSome then insert t members else members.erase t

theorem mem_place (q : TaskQueue α) (t u : α) (z : Option Zone) :
    u ∈ place q.members t z ↔ (Function.update q.status t z u).isSome = true := by
  by_cases e : u = t
  · subst e
    cases z <;> simp [place]
  · cases z <;> simp [place, e, q.mem_members]

theorem card_place (q : TaskQueue α) (t : α) (z : Option Zone) :
    ((place q.members t z).card : ℤ) = q.members.card + z.isSome.toNat - (q.status t).isSome.toNat := by
  by_cases hm : t ∈ q.members
  · have hs := (q.mem_members t).mp hm
    have hpos := Finset.card_pos.mpr ⟨t,hm⟩
    cases z with
    | none => simp [place, hs, Finset.card_erase_of_mem hm]; omega
    | some z => simp [place, hs, Finset.insert_eq_of_mem hm]
  · have hs : (q.status t).isSome = false := by simpa [q.mem_members] using hm
    cases z with
    | none => simp [place, hs, Finset.erase_eq_of_notMem hm]
    | some z => simp [place, hs, Finset.card_insert_of_notMem hm]

/-- The ready members after one task has moved. -/
theorem filter_place (q : TaskQueue α) (t : α) (z : Option Zone) :
    ((place q.members t z).filter fun u => Function.update q.status t z u = some .ready) =
      if z = some .ready then insert t (q.members.filter fun u => q.status u = some .ready)
      else (q.members.filter fun u => q.status u = some .ready).erase t := by
  ext u
  by_cases e : u = t
  · subst e
    by_cases hz : z = some .ready <;> simp [mem_place, hz]
  · by_cases hz : z = some .ready <;> simp [mem_place, hz, e, q.mem_members]

theorem card_filter_place (q : TaskQueue α) (t : α) (z : Option Zone) :
    (((place q.members t z).filter fun u => Function.update q.status t z u = some .ready).card : ℤ) =
      (q.members.filter fun u => q.status u = some .ready).card + (decide (z = some .ready)).toNat -
        (decide (q.status t = some .ready)).toNat := by
  rw [filter_place]
  have hmem : (t ∈ q.members.filter fun u => q.status u = some .ready) ↔ q.status t = some .ready := by
    rw [Finset.mem_filter, q.mem_members]
    constructor
    · exact And.right
    · intro h
      exact ⟨by simp [h],h⟩
  by_cases hr : q.status t = some .ready
  · have hm := hmem.mpr hr
    have hpos := Finset.card_pos.mpr ⟨t,hm⟩
    split
    · next hz => simp [hz, hr, Finset.insert_eq_of_mem hm]
    · next hz => simp [hz, hr, Finset.card_erase_of_mem hm]; omega
  · have hm := fun h => hr (hmem.mp h)
    split
    · next hz => simp [hz, hr, Finset.card_insert_of_notMem hm]
    · next hz => simp [hz, hr]

/-- The call, made on the queue. -/
def exec (q : TaskQueue α) (plain : Bool) (c : Call) (t : α) : TaskQueue α where
  status := Function.update q.status t (c.result plain (q.status t))
  members := place q.members t (c.result plain (q.status t))
  numPriorityNode := q.numPriorityNode + c.nodes
  numWaitingPriorityNode := q.numWaitingPriorityNode + c.waiting plain
  sound := q.sound && c.allowed plain (q.status t)
  exact := q.exact && c.exact plain (q.status t)
  mem_members u := mem_place q t u _
  counted he := by
    simp only [Bool.and_eq_true, Call.exact, decide_eq_true_eq] at he
    obtain ⟨hq,⟨hok,hn⟩,hw⟩ := he
    obtain ⟨hnodes,hwaiting⟩ := q.counted hq
    have hres : c.result plain (q.status t) = c.target (q.status t) := by simp [Call.result, hok]
    rw [card_filter_place, card_place, hres, hnodes, hwaiting]
    omega

@[simp] theorem exec_status (q : TaskQueue α) (plain : Bool) (c : Call) (t u : α) :
    (q.exec plain c t).status u = if u = t then c.result plain (q.status t) else q.status u := by
  simp [exec, Function.update_apply]

end TaskQueue

section Refinement
variable {env : TaskEnv α} {type : PQType} {policy : ℕ} {kind : α → TaskKind} {q q' : PriorityQueue α} {n : α} {p : ℤ}

/-- The counters are the same. -/
def SameCounts (q q' : PriorityQueue α) : Prop :=
  q'.numPriorityNode = q.numPriorityNode ∧ q'.numWaitingPriorityNode = q.numWaitingPriorityNode

omit [DecidableEq α] in
theorem sameCounts_lookup : SameCounts q (priorityQueueLookupPriority q p).1 := by
  unfold priorityQueueLookupPriority
  split <;> exact ⟨rfl,rfl⟩

omit [DecidableEq α] in
theorem sameCounts_transfer (h : transferPriorityZero env kind q n = some q') : SameCounts q q' := by
  unfold transferPriorityZero at h
  split at h
  · cases hl : q.l.tasks with
    | none =>
      simp only [hl, Option.some.injEq] at h
      exact h ▸ ⟨rfl,rfl⟩
    | some first =>
      simp only [hl] at h
      split at h
      · obtain ⟨r,_,rfl⟩ := Option.map_eq_some_iff.mp h
        exact ⟨rfl,rfl⟩
      · obtain ⟨r,_,rfl⟩ := Option.map_eq_some_iff.mp h
        exact ⟨rfl,rfl⟩
  · exact Option.some.inj h ▸ ⟨rfl,rfl⟩

omit [DecidableEq α] in
theorem SameCounts.trans {q'' : PriorityQueue α} (h : SameCounts q q') (h' : SameCounts q' q'') : SameCounts q q'' :=
  ⟨h'.1.trans h.1,h'.2.trans h.2⟩

theorem sameCounts_insertInTree {pos : InsertType} {d b : Bool}
    (h : insertInTree env type q n p pos d b = some q') : SameCounts q q' := by
  unfold insertInTree at h
  refine (sameCounts_lookup (p := p)).trans ?_
  simp only [Option.map_eq_some_iff] at h
  obtain ⟨q₁,hq₁,rfl⟩ := h
  split at hq₁
  · split at hq₁ <;> exact Option.some.inj hq₁ ▸ ⟨rfl,rfl⟩
  · split at hq₁ <;>
    · obtain ⟨r,_,rfl⟩ := Option.map_eq_some_iff.mp hq₁
      exact ⟨rfl,rfl⟩

theorem sameCounts_insertRunningInTree (h : insertRunningInTree env q n p = some q') : SameCounts q q' := by
  unfold insertRunningInTree at h
  refine (sameCounts_lookup (p := p)).trans ?_
  simp only [Option.map_eq_some_iff] at h
  obtain ⟨q₁,hq₁,rfl⟩ := h
  split at hq₁
  · exact Option.some.inj hq₁ ▸ ⟨rfl,rfl⟩
  · split at hq₁ <;>
    · obtain ⟨r,_,rfl⟩ := Option.map_eq_some_iff.mp hq₁
      exact ⟨rfl,rfl⟩

theorem sameCounts_remove {b : Bool} (h : priorityTreeRemove env kind type q n b = some q') : SameCounts q q' := by
  unfold priorityTreeRemove at h
  refine (sameCounts_lookup (p := env.priority n)).trans ?_
  dsimp only at h
  split at h
  · split at h
    · split at h <;> exact Option.some.inj h ▸ ⟨rfl,rfl⟩
    · split at h <;> exact Option.some.inj h ▸ ⟨rfl,rfl⟩
  · cases h

theorem sameCounts_adjust {c d : Bool} (h : priorityTreeAdjustTask type policy q n p c d = some q') :
    SameCounts q q' := by
  unfold priorityTreeAdjustTask at h
  refine (sameCounts_lookup (p := p)).trans ?_
  dsimp only at h
  split at h
  · exact Option.some.inj h ▸ ⟨rfl,rfl⟩
  · cases h

theorem sameCounts_block (h : priorityTreeBlockTask kind type q n p = some q') : SameCounts q q' := by
  unfold priorityTreeBlockTask at h
  refine (sameCounts_lookup (p := p)).trans ?_
  dsimp only at h
  split at h
  · split at h <;> exact Option.some.inj h ▸ ⟨rfl,rfl⟩
  · cases h

theorem sameCounts_unblock {c d : Bool} (h : priorityTreeUnblockTask kind type policy q n p c d = some q') :
    SameCounts q q' := by
  unfold priorityTreeUnblockTask at h
  refine (sameCounts_lookup (p := p)).trans ?_
  dsimp only at h
  split at h
  · split at h <;> exact Option.some.inj h ▸ ⟨rfl,rfl⟩
  · cases h

theorem sameCounts_upgrade (h : priorityQueueUpgradeTask env q n = some q') : SameCounts q q' := by
  unfold priorityQueueUpgradeTask at h
  dsimp only at h
  split at h
  · refine (sameCounts_lookup (p := env.priority n)).trans ?_
    split at h
    · exact Option.some.inj h ▸ ⟨rfl,rfl⟩
    · cases h
  · exact Option.some.inj h ▸ ⟨rfl,rfl⟩

/-- The call an operation of the queue model is, none for a change of kind alone. -/
def Call.ofOp (kind : TaskKind) : QueueOp α → Option Call
  | .insert _ _ _ b _ => some (.insert b)
  | .insertRunning _ _ => some .insertRunning
  | .remove _ b => some (.remove b)
  | .adjustTask _ _ _ _ => some .adjust
  | .blockTask _ _ => some (.block kind)
  | .unblockTask _ _ _ => some .unblock
  | .upgradeTask _ => some .upgrade
  | .downgradeTask _ _ => some .downgrade
  | .setKind _ _ => none

theorem execOp_counts {op : QueueOp α} (h : execOp env type policy kind q op = some q') :
    q'.numPriorityNode = q.numPriorityNode + ((Call.ofOp (kind op.task) op).map Call.nodes).getD 0 ∧
    q'.numWaitingPriorityNode =
      q.numWaitingPriorityNode + ((Call.ofOp (kind op.task) op).map (Call.waiting type.plain)).getD 0 := by
  cases op <;> simp only [execOp, QueueOp.task] at h ⊢
  case insert n pos d b k =>
    simp only [priorityQueueInsert, Option.map_eq_some_iff] at h
    obtain ⟨q₁,hq₁,rfl⟩ := h
    have hc : SameCounts q q₁ := by
      split at hq₁
      · obtain ⟨q₂,htr,hin⟩ := Option.bind_eq_some_iff.mp hq₁
        exact (sameCounts_transfer htr).trans (sameCounts_insertInTree hin)
      · exact Option.some.inj hq₁ ▸ ⟨rfl,rfl⟩
    simp [Call.ofOp, Call.nodes, Call.waiting, PriorityQueue.addNodes, PriorityQueue.addWaiting, hc.1, hc.2]
  case insertRunning n k =>
    simp only [priorityQueueInsertRunning, Option.map_eq_some_iff] at h
    obtain ⟨q₁,hq₁,rfl⟩ := h
    have hc : SameCounts q q₁ := by
      split at hq₁
      · obtain ⟨q₂,htr,hin⟩ := Option.bind_eq_some_iff.mp hq₁
        exact (sameCounts_transfer htr).trans (sameCounts_insertRunningInTree hin)
      · exact Option.some.inj hq₁ ▸ ⟨rfl,rfl⟩
    simp [Call.ofOp, Call.nodes, Call.waiting, PriorityQueue.addNodes, hc.1, hc.2]
  case remove n b =>
    simp only [priorityQueueRemove, Option.map_eq_some_iff] at h
    obtain ⟨_,⟨⟨q₁,e⟩,hq₁,rfl⟩,rfl⟩ := h
    have hc : SameCounts q q₁ := by
      split at hq₁
      · obtain ⟨q₂,hrm,he⟩ := Option.map_eq_some_iff.mp hq₁
        obtain rfl : q₂ = q₁ := congrArg Prod.fst he
        exact sameCounts_remove hrm
      · obtain rfl := congrArg Prod.fst (Option.some.inj hq₁)
        exact ⟨rfl,rfl⟩
    simp [Call.ofOp, Call.nodes, Call.waiting, PriorityQueue.addNodes, PriorityQueue.addWaiting, hc.1, hc.2]
  case adjustTask n c d k =>
    simp only [priorityQueueAdjustTask, Option.map_eq_some_iff] at h
    obtain ⟨q₁,hq₁,rfl⟩ := h
    have hc : SameCounts q q₁ := by
      split at hq₁
      · exact sameCounts_adjust hq₁
      · exact Option.some.inj hq₁ ▸ ⟨rfl,rfl⟩
    simp [Call.ofOp, Call.nodes, Call.waiting, PriorityQueue.addWaiting, hc.1, hc.2]
  case blockTask n k =>
    simp only [priorityQueueBlockTask, Option.map_eq_some_iff] at h
    obtain ⟨q₁,hq₁,rfl⟩ := h
    have hc : SameCounts q q₁ := by
      split at hq₁
      · exact sameCounts_block hq₁
      · exact Option.some.inj hq₁ ▸ ⟨rfl,rfl⟩
    simp [Call.ofOp, Call.nodes, Call.waiting, PriorityQueue.addWaiting, hc.1, hc.2]
  case unblockTask n c d =>
    simp only [priorityQueueUnblockTask, Option.map_eq_some_iff] at h
    obtain ⟨q₁,hq₁,rfl⟩ := h
    have hc : SameCounts q q₁ := by
      split at hq₁
      · exact sameCounts_unblock hq₁
      · exact Option.some.inj hq₁ ▸ ⟨rfl,rfl⟩
    simp [Call.ofOp, Call.nodes, Call.waiting, PriorityQueue.addWaiting, hc.1, hc.2]
  case upgradeTask n =>
    have hc := sameCounts_upgrade h
    simp [Call.ofOp, Call.nodes, Call.waiting, hc.1, hc.2]
  case downgradeTask n k =>
    simp only [priorityQueueDowngradeTask, Option.map_eq_some_iff] at h
    obtain ⟨q₁,hq₁,rfl⟩ := h
    have hc : SameCounts q q₁ := by
      split at hq₁
      · refine (sameCounts_lookup (p := env.priority n)).trans ?_
        split at hq₁
        · split at hq₁ <;> exact Option.some.inj hq₁ ▸ ⟨rfl,rfl⟩
        · cases hq₁
      · exact Option.some.inj hq₁ ▸ ⟨rfl,rfl⟩
    simp [Call.ofOp, Call.nodes, Call.waiting, PriorityQueue.addWaiting, hc.1, hc.2]
  case setKind n k =>
    obtain rfl := Option.some.inj h
    simp [Call.ofOp]

/-- The zone of a status. -/
def Zone.ofStatus : Status → Zone
  | .dependsOn | .waiting => .ready
  | .running => .running
  | .blocked => .blocked

/-- What the callers see of a queue of the queue model. -/
structure Abstracts (s : QueueState α) (q : TaskQueue α) : Prop where
  status : ∀ t, q.status t = (s.status t).map Zone.ofStatus
  nodes : q.numPriorityNode = s.q.numPriorityNode
  waiting : q.numWaitingPriorityNode = s.q.numWaitingPriorityNode

/-- A step of the queue model is the call, allowed, or leaves what the callers see alone. -/
theorem queueStep_abstracts {s s' : QueueState α} {op : QueueOp α} {q : TaskQueue α} (ha : Abstracts s q)
    (hs : queueStep env type policy s op = some s') :
    match Call.ofOp (s.kind op.task) op with
    | none => Abstracts s' q
    | some c => c.allowed type.plain (q.status op.task) = true ∧ Abstracts s' (q.exec type.plain c op.task) := by
  simp only [queueStep, Option.ite_none_right_eq_some, Option.map_eq_some_iff] at hs
  obtain ⟨hok,q₁,hex,rfl⟩ := hs
  obtain ⟨hn,hw⟩ := execOp_counts hex
  cases hc : Call.ofOp (s.kind op.task) op with
  | none =>
    cases op <;> simp only [Call.ofOp, reduceCtorEq] at hc
    case setKind n k =>
      refine ⟨fun t => ?_,?_,?_⟩
      · simpa [QueueOp.task, statusOp] using ha.status t
      · simpa [Call.ofOp, ha.nodes] using hn.symm
      · simpa [Call.ofOp, ha.waiting] using hw.symm
  | some c =>
    rw [hc] at hn hw
    have hallowed : c.allowed type.plain (q.status op.task) = true ∧
        c.target (q.status op.task) = (statusOp type s.status op).map Zone.ofStatus := by
      rw [ha.status op.task]
      cases op <;> simp only [Call.ofOp, reduceCtorEq, Option.some.injEq] at hc <;> subst hc <;>
        simp only [QueueOp.task, OpAllowed, statusOp, Call.allowed, Call.target] at hok ⊢
      case insert n pos d b k => cases b <;> cases d <;> cases type.plain <;> simp [hok.1, Status.put, Zone.ofStatus]
      case insertRunning n k => simp [hok.1, hok.2.1, Zone.ofStatus]
      case remove n b =>
        obtain ⟨hmem,hb⟩ := hok
        obtain ⟨st,hst⟩ := Option.ne_none_iff_exists'.mp hmem
        rw [hst] at hb
        cases st <;> cases b <;> simp [hst, Zone.ofStatus] at hb ⊢
      case adjustTask n c d k => cases d <;> simp [hok.1, hok.2, Status.put, Zone.ofStatus]
      case blockTask n k =>
        obtain ⟨hmem,hb⟩ := hok
        obtain ⟨st,hst⟩ := Option.ne_none_iff_exists'.mp hmem
        rw [hst] at hb
        cases st <;> simp [hst, Zone.ofStatus] at hb ⊢
      case unblockTask n c d => cases d <;> cases type.plain <;> simp [hok, Status.put, Zone.ofStatus]
      case upgradeTask n => simp [hok.1, hok.2, Zone.ofStatus]
      case downgradeTask n k => rcases hok.2 with h | h <;> simp [hok.1, h, Zone.ofStatus]
    refine ⟨hallowed.1,⟨fun t => ?_,?_,?_⟩⟩
    · rw [TaskQueue.exec_status]
      by_cases e : t = op.task
      · subst e
        simp [Call.result, hallowed.1, hallowed.2]
      · simpa [e] using ha.status t
    · simpa [TaskQueue.exec, ha.nodes] using hn.symm
    · simpa [TaskQueue.exec, ha.waiting] using hw.symm

end Refinement

end GompUlt.Team
