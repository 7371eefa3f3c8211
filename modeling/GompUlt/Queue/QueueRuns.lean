import GompUlt.Queue.ListRuns
import GompUlt.Queue.QueueOps

/-! # Runs of operations on one priority_queue

The runs refine runs over a map from priorities to zones, as long as no transfer of the
priority 0 items to the tree finds blocked items alone or a boundary pointer it would
leave behind.
-/
namespace GompUlt.Queue
open LinkRing Run

/-- The operations on a queue.  A kind is the one the caller leaves the task with. -/
inductive QueueOp (α : Type*)
  | insert (task : α) (pos : InsertType) (taskIsParentDependsOn taskIsBlocked : Bool) (kind : TaskKind)
  | insertRunning (task : α) (kind : TaskKind)
  | remove (task : α) (taskIsBlocked : Bool)
  | adjustTask (task : α) (awaitsChildren taskIsParentDependsOn : Bool) (kind : TaskKind)
  | blockTask (task : α) (kind : TaskKind)
  | unblockTask (task : α) (awaitsChildren taskIsParentDependsOn : Bool)
  | upgradeTask (task : α)
  | downgradeTask (task : α) (kind : TaskKind)
  | setKind (task : α) (kind : TaskKind)
  deriving DecidableEq, Repr

variable {α : Type*} [DecidableEq α]

/-- The operation on the queue itself. -/
def execOp (env : TaskEnv α) (type : PQType) (policy : ℕ) (kind : α → TaskKind) (q : PriorityQueue α) :
    QueueOp α → Option (PriorityQueue α)
  | .insert n pos d b _ => priorityQueueInsert env kind type q n (env.priority n) pos d b
  | .insertRunning n _ => priorityQueueInsertRunning env kind q n (env.priority n)
  | .remove n b => (priorityQueueRemove env kind type q n b).map (·.1)
  | .adjustTask n c d _ => priorityQueueAdjustTask env type policy q n c d
  | .blockTask n _ => priorityQueueBlockTask env kind type q n
  | .unblockTask n c d => priorityQueueUnblockTask env kind type policy q n c d
  | .upgradeTask n => priorityQueueUpgradeTask env q n
  | .downgradeTask n _ => priorityQueueDowngradeTask env kind q n
  | .setKind _ _ => some q

/-- The task an operation is applied to. -/
def QueueOp.task : QueueOp α → α
  | insert n _ _ _ _ | insertRunning n _ | remove n _ | adjustTask n _ _ _ | blockTask n _
  | unblockTask n _ _ | upgradeTask n | downgradeTask n _ | setKind n _ => n

/-- The same operation on the zones of the task's priority. -/
def zonesOp (type : PQType) (policy : ℕ) (z : Zones α) : QueueOp α → Zones α
  | .insert n pos d b _ => z.insert type.plain n pos d b
  | .insertRunning n _ => z.insertRunning n
  | .remove n _ => z.erase n
  | .adjustTask n c d _ => (z.erase n).insert type.plain n (adjustPosition type policy c) d false
  | .blockTask n _ => (z.erase n).insert type.plain n .insertBegin false true
  | .unblockTask n c d => (z.erase n).insert type.plain n (unblockPosition type policy c) d false
  | .upgradeTask n => z.upgrade n
  | .downgradeTask n _ => z.downgrade n
  | .setKind _ _ => z

/-- The abstract queue: a map from priorities to zones. -/
def mapOp (env : TaskEnv α) (type : PQType) (policy : ℕ) (Z : ℤ → Zones α) (op : QueueOp α) : ℤ → Zones α :=
  Function.update Z (env.priority op.task) (zonesOp type policy (Z (env.priority op.task)) op)

/-- Where the zones allow an operation. -/
def ZonesAllow (type : PQType) (z : Zones α) : QueueOp α → Prop
  | .insert n _ _ _ _ => n ∉ z.members
  | .insertRunning n _ => type.plain = false ∧ n ∉ z.members
  | .remove n b => n ∈ if b then z.blocked else z.order
  | .adjustTask n _ _ _ => type.plain = false ∧ n ∈ z.running
  | .blockTask n _ => n ∈ z.order
  | .unblockTask n _ _ => n ∈ z.blocked
  | .upgradeTask n => type.plain = false ∧ n ∈ z.waiting
  | .downgradeTask n _ => type.plain = false ∧ n ∈ z.ready
  | .setKind _ _ => True

/-- An insertion that goes to the tree whatever the mode. -/
def QueueOp.opensTree (env : TaskEnv α) : QueueOp α → Prop
  | insert n _ _ _ _ | insertRunning n _ => 0 < env.priority n
  | _ => False

instance (env : TaskEnv α) (op : QueueOp α) : Decidable (op.opensTree env) :=
  match op with
  | .insert n _ _ _ _ | .insertRunning n _ => inferInstanceAs (Decidable (0 < env.priority n))
  | .remove _ _ | .adjustTask _ _ _ _ | .blockTask _ _ | .unblockTask _ _ _ | .upgradeTask _ | .downgradeTask _ _
  | .setKind _ _ => inferInstanceAs (Decidable False)

variable {env : TaskEnv α} {type : PQType} {policy : ℕ} {kind : α → TaskKind} {l : PriorityList α}
  {q : PriorityQueue α} {Z : ℤ → Zones α} {op : QueueOp α}

section Tree

omit [DecidableEq α] in
theorem transferPriorityZero_of_ne {n : α} (hroot : q.t.root ≠ .null) : transferPriorityZero env kind q n = some q := by
  simp [transferPriorityZero, hroot]

omit [DecidableEq α] in
theorem transferPriorityZero_of_none {n : α} (ht : q.l.tasks = none) : transferPriorityZero env kind q n = some q := by
  simp [transferPriorityZero, ht]

/-- The conditions on the kinds under which an operation keeps the marks right. -/
def MarksKeep (type : PQType) (z : Zones α) : QueueOp α → Prop
  | .remove n b => type.plain = true ∨ b = true ∨ n ∈ z.running
  | .blockTask _ _ => type.tiedZones = false
  | _ => True

section Insertion
variable {q₁ : PriorityQueue α} {n : α}

/-- priority_queue_insert through the tree, once the priority 0 items are there. -/
theorem priorityQueueInsert_tree (htr : transferPriorityZero env kind q n = some q₁)
    (hq : TreeRep type.plain env l q₁ Z) (hopen : q.t.root ≠ .null ∨ 0 < env.priority n)
    (hn : n ∉ (Z (env.priority n)).members) (pos : InsertType) (d b : Bool) :
    ∃ q', priorityQueueInsert env kind type q n (env.priority n) pos d b = some q' ∧
      TreeRep type.plain env l q' (Function.update Z (env.priority n)
        ((Z (env.priority n)).insert type.plain n pos d b)) ∧
      (env.ultVar n = true → HpRep q₁ Z → HpRep q' (Function.update Z (env.priority n)
        ((Z (env.priority n)).insert type.plain n pos d b))) := by
  obtain ⟨q',hex,-,hq',hh⟩ := insertInTree_rep hq hn pos d b rfl
  have hc : (priorityQueueMultiP q || decide (env.priority n > 0)) = true := by
    simpa [priorityQueueMultiP] using hopen
  refine ⟨(q'.addNodes 1).addWaiting (if b then 0 else 1),?_,hq'.addNodes.addWaiting,
    fun hult h => (hh hult h).addNodes.addWaiting⟩
  simp [priorityQueueInsert, hc, priorityTreeInsert, htr, hex]

/-- priority_queue_insert_running through the tree. -/
theorem priorityQueueInsertRunning_tree (htr : transferPriorityZero env kind q n = some q₁)
    (hq : TreeRep false env l q₁ Z) (hopen : q.t.root ≠ .null ∨ 0 < env.priority n)
    (hn : n ∉ (Z (env.priority n)).members) :
    ∃ q', priorityQueueInsertRunning env kind q n (env.priority n) = some q' ∧
      TreeRep false env l q' (Function.update Z (env.priority n) ((Z (env.priority n)).insertRunning n)) ∧
      (env.ultVar n = true → HpRep q₁ Z →
        HpRep q' (Function.update Z (env.priority n) ((Z (env.priority n)).insertRunning n))) := by
  obtain ⟨q',hex,-,hq',hh⟩ := insertRunningInTree_rep hq hn rfl
  have hc : (priorityQueueMultiP q || decide (env.priority n > 0)) = true := by
    simpa [priorityQueueMultiP] using hopen
  refine ⟨q'.addNodes 1,?_,hq'.addNodes,fun hult h => (hh hult h).addNodes⟩
  simp [priorityQueueInsertRunning, hc, priorityTreeInsertRunning, htr, hex]

end Insertion

variable (policy kind) in
/-- Every allowed operation succeeds in tree mode and does to the zones what it should. -/
theorem execOp_tree (hq : TreeRep type.plain env l q Z)
    (hopen : q.t.root ≠ .null ∨ (q.l.tasks = none ∧ op.opensTree env) ∨ ∃ n k, op = .setKind n k)
    (hok : ZonesAllow type (Z (env.priority op.task)) op) :
    ∃ q', execOp env type policy kind q op = some q' ∧ TreeRep type.plain env l q' (mapOp env type policy Z op) ∧
      (env.ultVar op.task = true → KindOk type kind (Z (env.priority op.task)) →
        MarksKeep type (Z (env.priority op.task)) op → HpRep q Z → HpRep q' (mapOp env type policy Z op)) := by
  have hmulti : q.t.root ≠ .null → priorityQueueMultiP q = true := fun h => by simpa [priorityQueueMultiP] using h
  have htr : ∀ n, q.t.root ≠ .null ∨ q.l.tasks = none → transferPriorityZero env kind q n = some q := fun n h =>
    h.elim transferPriorityZero_of_ne transferPriorityZero_of_none
  cases op <;> simp only [QueueOp.task, ZonesAllow, execOp, mapOp, zonesOp, MarksKeep] at hok ⊢
  case insert n pos d b k =>
    have hopen' : q.t.root ≠ .null ∨ (q.l.tasks = none ∧ 0 < env.priority n) := by simpa [QueueOp.opensTree] using hopen
    obtain ⟨q',hex,hq',hh⟩ := priorityQueueInsert_tree (htr n (hopen'.imp_right And.left)) hq
      (hopen'.imp_right And.right) hok pos d b
    exact ⟨q',hex,hq',fun hult _ _ => hh hult⟩
  case insertRunning n k =>
    have hopen' : q.t.root ≠ .null ∨ (q.l.tasks = none ∧ 0 < env.priority n) := by simpa [QueueOp.opensTree] using hopen
    rw [hok.1] at hq ⊢
    obtain ⟨q',hex,hq',hh⟩ := priorityQueueInsertRunning_tree (htr n (hopen'.imp_right And.left)) hq
      (hopen'.imp_right And.right) hok.2
    exact ⟨q',hex,hq',fun hult _ _ => hh hult⟩
  case setKind n k =>
    rw [Function.update_eq_self]
    exact ⟨q,rfl,hq,fun _ _ _ h => h⟩
  all_goals
    have hroot : q.t.root ≠ .null := by simpa [QueueOp.opensTree] using hopen
    have hm := hmulti hroot
  case remove n b =>
    obtain ⟨q',hex,hq',hh⟩ := priorityTreeRemove_rep kind hq hok
    refine ⟨(q'.addNodes (-1)).addWaiting (if !b && type.plain then -1 else 0),?_,hq'.addNodes.addWaiting,
      fun hult hk hrun h => (hh hult hk hrun h).addNodes.addWaiting⟩
    simp [priorityQueueRemove, hm, hex]
  case adjustTask n c d k =>
    have hn : n ∈ (Z (env.priority n)).order := by simp [Zones.order, hok.2]
    obtain ⟨q',hex,hq',hh⟩ := priorityTreeAdjustTask_rep policy hq hn c d rfl
    refine ⟨q'.addWaiting 1,?_,hq'.addWaiting,fun _ _ _ h => (hh h).addWaiting⟩
    simp [priorityQueueAdjustTask, hm, hex]
  case blockTask n k =>
    obtain ⟨q',hex,hq',hh⟩ := priorityTreeBlockTask_rep kind hq hok rfl
    refine ⟨q'.addWaiting (if kind n = .waiting || kind n = .tiedSuspended then -1 else 0),?_,hq'.addWaiting,
      fun _ hk htied h => (hh htied hk h).addWaiting⟩
    simp [priorityQueueBlockTask, hm, hex]
  case unblockTask n c d =>
    obtain ⟨q',hex,hq',hh⟩ := priorityTreeUnblockTask_rep kind policy hq hok c d rfl
    refine ⟨q'.addWaiting 1,?_,hq'.addWaiting,fun _ hk _ h => (hh hk h).addWaiting⟩
    simp [priorityQueueUnblockTask, hm, hex]
  case upgradeTask n =>
    rw [hok.1] at hq ⊢
    obtain ⟨q',hex,hq',hh⟩ := upgradeInTree_rep hq hok.2 hm
    exact ⟨q',hex,hq',fun _ _ _ => hh⟩
  case downgradeTask n k =>
    have hplain := hok.1
    rw [hplain] at hq ⊢
    obtain ⟨q',hex,hq',hh⟩ := downgradeInTree_rep kind hplain hq hok.2 hm
    exact ⟨q',hex,hq',fun hult hk _ => hh hult hk⟩

end Tree

section List

variable (policy kind) in
/-- Every allowed operation that stays in list mode does to the zones what it should. -/
theorem execOp_list (hq : ListRep type.plain env q Z) (hp : env.priority op.task = 0)
    (hok : ZonesAllow type (Z (env.priority op.task)) op) :
    ∃ q', execOp env type policy kind q op = some q' ∧ ListRep type.plain env q' (mapOp env type policy Z op) := by
  have hm : priorityQueueMultiP q = false := by simp [priorityQueueMultiP, hq.root]
  have hr := hq.list
  cases op <;> simp only [QueueOp.task] at hp <;>
    simp only [QueueOp.task, ZonesAllow, execOp, mapOp, zonesOp, hp] at hok ⊢
  case insert n pos d b k =>
    have hl := hq.setL hp (priorityListInsert_rep type hr hok pos d b) fun m => (mem_members_insert _ _ _ _).mp
    refine ⟨_,?_,(hl.addNodes (d := 1)).addWaiting (d := if b then 0 else 1)⟩
    simp [priorityQueueInsert, hm]
  case insertRunning n k =>
    rw [hok.1] at hq hr ⊢
    have hl := hq.setL hp (priorityListInsertRunning_rep hr hok.2) fun m => mem_members_insertRunning.mp
    refine ⟨_,?_,hl.addNodes (d := 1)⟩
    simp [priorityQueueInsertRunning, hm]
  case remove n b =>
    have hl := hq.setL (r := ((priorityListRemove type q.links q.l n b).1,(priorityListRemove type q.links q.l n b).2.1))
      hp (priorityListRemove_rep type hr b hok).1 fun m hm => .inr (mem_members_erase hm)
    refine ⟨_,?_,(hl.addNodes (d := -1)).addWaiting (d := if !b && type.plain then -1 else 0)⟩
    simp [priorityQueueRemove, hm]
  case adjustTask n c d k =>
    have hn : n ∈ (Z 0).order := by simp [Zones.order, hok.2]
    have hl := hq.setL hp (priorityListAdjustTask_rep type policy hr hn c d) fun m => mem_members_reinsert _ _ _ _
    refine ⟨_,?_,hl.addWaiting (d := 1)⟩
    simp [priorityQueueAdjustTask, hm, hp]
  case blockTask n k =>
    have hl := hq.setL hp (priorityListBlockTask_rep type hr hok) fun m => mem_members_reinsert _ _ _ _
    refine ⟨_,?_,hl.addWaiting (d := if kind n = .waiting || kind n = .tiedSuspended then -1 else 0)⟩
    simp [priorityQueueBlockTask, hm, hp]
  case unblockTask n c d =>
    have hl := hq.setL hp (priorityListUnblockTask_rep type policy hr hok c d) fun m => mem_members_reinsert _ _ _ _
    refine ⟨_,?_,hl.addWaiting (d := 1)⟩
    simp [priorityQueueUnblockTask, hm, hp]
  case upgradeTask n =>
    rw [hok.1] at hq hr ⊢
    have hl := hq.setL hp (priorityListUpgradeTask_rep hr hok.2) fun m => mem_members_upgrade
    exact ⟨_,by simp [priorityQueueUpgradeTask, hm],hl⟩
  case downgradeTask n k =>
    rw [hok.1] at hq hr ⊢
    have hl := hq.setL hp (priorityListDowngradeTask_rep hr hok.2) fun m => mem_members_downgrade
    refine ⟨_,?_,hl.addWaiting (d := -1)⟩
    simp [priorityQueueDowngradeTask, hm]
  case setKind n k =>
    rw [Function.update_eq_self]
    exact ⟨q,rfl,hq⟩

end List

/-- A queue with the status and the kind of every task. -/
structure QueueState (α : Type*) where
  q : PriorityQueue α
  status : α → Option Status
  kind : α → TaskKind

def QueueState.init (key : ℤ → PriorityList α) (fields : LinkChain.Fields ℤ) (links : Links α)
    (kind : α → TaskKind) : QueueState α :=
  { q := priorityQueueInit key fields links, status := fun _ => none, kind }

/-- Where the runtime may call an operation. -/
def OpAllowed (env : TaskEnv α) (type : PQType) (status : α → Option Status) : QueueOp α → Prop
  | .insert n _ _ _ _ => status n = none ∧ 0 ≤ env.priority n
  | .insertRunning n _ => type.plain = false ∧ status n = none ∧ 0 ≤ env.priority n
  | .remove n b => status n ≠ none ∧ (status n = some .blocked ↔ b = true)
  | .adjustTask n _ _ _ => type.plain = false ∧ status n = some .running
  | .blockTask n _ => status n ≠ none ∧ status n ≠ some .blocked
  | .unblockTask n _ _ => status n = some .blocked
  | .upgradeTask n => type.plain = false ∧ status n = some .waiting
  | .downgradeTask n _ => type.plain = false ∧ (status n = some .dependsOn ∨ status n = some .waiting)
  | .setKind _ _ => True

instance (env : TaskEnv α) (type : PQType) (status : α → Option Status) (op : QueueOp α) :
    Decidable (OpAllowed env type status op) :=
  match op with
  | .insert n _ _ _ _ => inferInstanceAs (Decidable (status n = none ∧ 0 ≤ env.priority n))
  | .insertRunning n _ =>
    inferInstanceAs (Decidable (type.plain = false ∧ status n = none ∧ 0 ≤ env.priority n))
  | .remove n b => inferInstanceAs (Decidable (status n ≠ none ∧ (status n = some .blocked ↔ b = true)))
  | .adjustTask n _ _ _ => inferInstanceAs (Decidable (type.plain = false ∧ status n = some .running))
  | .blockTask n _ => inferInstanceAs (Decidable (status n ≠ none ∧ status n ≠ some .blocked))
  | .unblockTask n _ _ => inferInstanceAs (Decidable (status n = some .blocked))
  | .upgradeTask n => inferInstanceAs (Decidable (type.plain = false ∧ status n = some .waiting))
  | .downgradeTask n _ =>
    inferInstanceAs (Decidable (type.plain = false ∧ (status n = some .dependsOn ∨ status n = some .waiting)))
  | .setKind _ _ => inferInstanceAs (Decidable True)

def statusOp (type : PQType) (status : α → Option Status) : QueueOp α → Option Status
  | .insert _ _ d b _ => some (.put type.plain d b)
  | .insertRunning _ _ => some .running
  | .remove _ _ => none
  | .adjustTask _ _ d _ => some (.put type.plain d false)
  | .blockTask _ _ => some .blocked
  | .unblockTask _ _ d => some (.put type.plain d false)
  | .upgradeTask _ => some .dependsOn
  | .downgradeTask _ _ => some .running
  | .setKind n _ => status n

def kindOp (kind : α → TaskKind) : QueueOp α → TaskKind
  | .insert _ _ _ _ k | .insertRunning _ k | .adjustTask _ _ _ k | .blockTask _ k | .downgradeTask _ k
  | .setKind _ k => k
  | .remove n _ | .unblockTask n _ _ | .upgradeTask n => kind n

def queueStep (env : TaskEnv α) (type : PQType) (policy : ℕ) (s : QueueState α) (op : QueueOp α) :
    Option (QueueState α) :=
  if OpAllowed env type s.status op then
    (execOp env type policy s.kind s.q op).map fun q =>
      { q
        status := Function.update s.status op.task (statusOp type s.status op)
        kind := Function.update s.kind op.task (kindOp s.kind op) }
  else none

section Tracking
variable {status : α → Option Status}

/-- The status of the tasks of one priority. -/
def slice (env : TaskEnv α) (status : α → Option Status) (p : ℤ) (n : α) : Option Status :=
  if env.priority n = p then status n else none

/-- The map holds every task in the zone of its status at its priority. -/
def TracksMap (env : TaskEnv α) (Z : ℤ → Zones α) (status : α → Option Status) : Prop :=
  ∀ p, Tracks (Z p) (slice env status p)

omit [DecidableEq α] in
@[simp] theorem slice_self (n : α) : slice env status (env.priority n) n = status n := by simp [slice]

theorem slice_update (n : α) (x : Option Status) :
    slice env (Function.update status n x) (env.priority n) =
      Function.update (slice env status (env.priority n)) n x := by
  funext m
  by_cases e : m = n
  · subst e
    simp [slice]
  · simp [slice, Function.update_of_ne e]

theorem slice_update_of_ne {n : α} {p : ℤ} (hp : p ≠ env.priority n) (x : Option Status) :
    slice env (Function.update status n x) p = slice env status p := by
  funext m
  by_cases e : m = n
  · subst e
    simp [slice, Ne.symm hp]
  · simp [slice, Function.update_of_ne e]

theorem TracksMap.update {n : α} {z : Zones α} {x : Option Status} (ht : TracksMap env Z status)
    (hz : Tracks z (Function.update (slice env status (env.priority n)) n x)) :
    TracksMap env (Function.update Z (env.priority n) z) (Function.update status n x) := by
  intro p
  by_cases e : p = env.priority n
  · subst e
    rw [Function.update_self, slice_update]
    exact hz
  · rw [Function.update_of_ne e, slice_update_of_ne e]
    exact ht p

omit [DecidableEq α] in
/-- The status allows what the zones allow. -/
theorem zonesAllow_of_opAllowed (ht : TracksMap env Z status) (hok : OpAllowed env type status op) :
    ZonesAllow type (Z (env.priority op.task)) op := by
  have ht' := ht (env.priority op.task)
  cases op <;> simp only [QueueOp.task, OpAllowed, ZonesAllow] at hok ht' ⊢
  case insert n pos d b k => simp [ht'.mem_members, hok.1]
  case insertRunning n k => exact ⟨hok.1,by simp [ht'.mem_members, hok.2.1]⟩
  case remove n b =>
    cases b with
    | true => exact (ht' n .blocked).mpr (by simpa using hok.2)
    | false => exact ht'.mem_order.mpr ⟨by simpa using hok.1,by simpa using hok.2⟩
  case adjustTask n c d k => exact ⟨hok.1,(ht' n .running).mpr (by simpa using hok.2)⟩
  case blockTask n k => exact ht'.mem_order.mpr (by simpa using hok)
  case unblockTask n c d => exact (ht' n .blocked).mpr (by simpa using hok)
  case upgradeTask n => exact ⟨hok.1,(ht' n .waiting).mpr (by simpa using hok.2)⟩
  case downgradeTask n k =>
    refine ⟨hok.1,List.mem_append.mpr (hok.2.imp (fun h => ?_) fun h => ?_)⟩
    · exact (ht' n .dependsOn).mpr (by simpa using h)
    · exact (ht' n .waiting).mpr (by simpa using h)

theorem tracksMap_step (ht : TracksMap env Z status) (hok : OpAllowed env type status op)
    (hnd : (Z (env.priority op.task)).members.Nodup) :
    TracksMap env (mapOp env type policy Z op)
      (Function.update status op.task (statusOp type status op)) := by
  have ht' := ht (env.priority op.task)
  refine ht.update ?_
  cases op <;> simp only [QueueOp.task, OpAllowed, zonesOp, statusOp] at hok ht' hnd ⊢
  case insert n pos d b k => exact tracks_insert _ ht' (by simpa using hok.1) pos d b
  case insertRunning n k => exact tracks_insertRunning ht' (by simpa using hok.2.1)
  case remove n b => exact tracks_erase ht' hnd n
  case adjustTask n c d k => exact tracks_reinsert _ ht' hnd n _ d false
  case blockTask n k => exact tracks_reinsert _ ht' hnd n _ false true
  case unblockTask n c d => exact tracks_reinsert _ ht' hnd n _ d false
  case upgradeTask n => exact tracks_upgrade ht' hnd (by simpa using hok.2)
  case downgradeTask n k => exact tracks_downgrade ht' hnd (by simpa using hok.2)
  case setKind n k =>
    have hself : slice env status (env.priority n) n = status n := slice_self n
    rwa [← hself, Function.update_eq_self]

end Tracking

omit [DecidableEq α] in
theorem QueueRep.members_nodup {plain : Bool} (hq : QueueRep plain env q Z) (p : ℤ) : (Z p).members.Nodup := by
  by_cases he : (Z p).members = []
  · rw [he]
    exact List.nodup_nil
  · obtain ⟨n,hn⟩ := List.exists_mem_of_ne_nil _ he
    obtain ⟨list,_,hr⟩ := hq.lookup hn
    exact hr.rings.nodup

/-- What an insertion of a positive priority relies on when it finds the queue in list mode. -/
def TransferSafe (env : TaskEnv α) (s : QueueState α) (op : QueueOp α) : Prop :=
  op.opensTree env → s.q.t.root = .null → TransferOk s.q

omit [DecidableEq α] in
/-- In list mode the tasks an operation may be applied to without a transfer have priority 0. -/
private theorem priority_eq_zero {plain : Bool} {status : α → Option Status} (hq : ListRep plain env q Z)
    (ht : TracksMap env Z status) (hok : OpAllowed env type status op) (hopen : ¬op.opensTree env)
    (hkind : ∀ n k, op ≠ .setKind n k) : env.priority op.task = 0 := by
  have hmember : status op.task ≠ none → env.priority op.task = 0 := by
    intro hs
    by_contra hne
    have hm : op.task ∈ (Z (env.priority op.task)).members := (ht _).mem_members.mpr (by simpa using hs)
    rw [hq.others _ hne] at hm
    exact mem_members_empty hm
  cases op <;> simp only [QueueOp.task, OpAllowed, QueueOp.opensTree] at hok hopen hmember ⊢
  case insert n pos d b k => omega
  case insertRunning n k => omega
  case remove n b => exact hmember hok.1
  case adjustTask n c d k => exact hmember (by simp [hok.2])
  case blockTask n k => exact hmember hok.1
  case unblockTask n c d => exact hmember (by simp [hok])
  case upgradeTask n => exact hmember (by simp [hok.2])
  case downgradeTask n k => exact hmember (by rcases hok.2 with h | h <;> simp [h])
  case setKind n k => exact absurd rfl (hkind n k)

instance (env : TaskEnv α) (s : QueueState α) (op : QueueOp α) : Decidable (TransferSafe env s op) :=
  inferInstanceAs (Decidable (op.opensTree env → s.q.t.root = .null → TransferOk s.q))

variable (policy kind) in
/-- Every allowed operation whose transfer is safe succeeds and keeps the refinement. -/
theorem execOp_rep {status : α → Option Status} (hq : QueueRep type.plain env q Z) (ht : TracksMap env Z status)
    (hok : OpAllowed env type status op) (hsafe : op.opensTree env → q.t.root = .null → TransferOk q) :
    ∃ q', execOp env type policy kind q op = some q' ∧ QueueRep type.plain env q' (mapOp env type policy Z op) := by
  have hallow := zonesAllow_of_opAllowed ht hok
  by_cases hroot : q.t.root = .null
  · have hl := hq.listRep hroot
    by_cases hopen : op.opensTree env
    · obtain ⟨q₁,htr,hq₁,hclear⟩ := transferPriorityZero_rep kind hl (hsafe hopen hroot) op.task
      cases op <;> simp only [QueueOp.opensTree] at hopen <;>
        simp only [QueueOp.task, ZonesAllow] at hallow htr
      case insert n pos d b k =>
        obtain ⟨q',hex,hq',_⟩ := priorityQueueInsert_tree htr hq₁ (.inr hopen) hallow pos d b
        exact ⟨q',hex,hq'.queueRep hclear⟩
      case insertRunning n k =>
        obtain ⟨hplain,hn⟩ := hallow
        rw [hplain] at hq₁ ⊢
        obtain ⟨q',hex,hq',_⟩ := priorityQueueInsertRunning_tree htr hq₁ (.inr hopen) hn
        exact ⟨q',hex,hq'.queueRep hclear⟩
    · by_cases hkind : ∃ n k, op = .setKind n k
      · obtain ⟨n,k,rfl⟩ := hkind
        refine ⟨q,rfl,?_⟩
        simpa only [mapOp, zonesOp, QueueOp.task, Function.update_eq_self] using hq
      · have hp := priority_eq_zero hl ht hok hopen fun n k e => hkind ⟨n,k,e⟩
        obtain ⟨q',hex,hq'⟩ := execOp_list policy kind hl hp hallow
        exact ⟨q',hex,hq'.queueRep⟩
  · obtain ⟨htree,hclear⟩ := hq.treeRep hroot
    obtain ⟨q',hex,hq',_⟩ := execOp_tree policy kind htree (.inl hroot) hallow
    exact ⟨q',hex,hq'.queueRep hclear⟩

/-- The refinement relation of a run. -/
def QueueInv (env : TaskEnv α) (type : PQType) (s : QueueState α) (Z : ℤ → Zones α) : Prop :=
  QueueRep type.plain env s.q Z ∧ TracksMap env Z s.status

theorem queueStep_inv {s s' : QueueState α} (hi : QueueInv env type s Z) (hsafe : TransferSafe env s op)
    (hs : queueStep env type policy s op = some s') : QueueInv env type s' (mapOp env type policy Z op) := by
  obtain ⟨hq,ht⟩ := hi
  simp only [queueStep, Option.ite_none_right_eq_some, Option.map_eq_some_iff] at hs
  obtain ⟨hok,q',hex,rfl⟩ := hs
  obtain ⟨q'',hex',hq'⟩ := execOp_rep policy s.kind hq ht hok hsafe
  obtain rfl : q' = q'' := Option.some.inj (hex.symm.trans hex')
  exact ⟨hq',tracksMap_step ht hok (hq.members_nodup _)⟩

omit [DecidableEq α] in
theorem queueInv_init (key : ℤ → PriorityList α) (fields : LinkChain.Fields ℤ) (links : Links α)
    (kind : α → TaskKind) :
    QueueInv env type (QueueState.init key fields links kind) fun _ => Zones.empty := by
  refine ⟨ListRep.queueRep ⟨rfl,rep_empty _ _ _,fun _ _ => rfl,?_⟩,?_⟩
  · exact fun p n hn => absurd hn mem_members_empty
  · intro p n st
    have hs : slice env (QueueState.init key fields links kind).status p n = none := by simp [slice, QueueState.init]
    rw [hs]
    cases st <;> simp [Zones.empty, Zones.zone]

/-- A task met on one of the two rings of a list. -/
def OnList (h : Links α) (list : PriorityList α) (n : α) : Prop :=
  ∃ t k, (list.tasks = some t ∨ list.blockedTasks = some t) ∧ h.next^[k] t = n

omit [DecidableEq α] in
theorem Rep.onList {plain : Bool} {h : Links α} {list : PriorityList α} {z : Zones α} {n : α}
    (hr : Rep plain h list z) (hn : n ∈ z.members) : OnList h list n := by
  rcases List.mem_append.mp hn with hn | hn
  · obtain ⟨t,u,ho⟩ := List.exists_cons_of_ne_nil (List.ne_nil_of_mem hn)
    obtain ⟨k,hk⟩ := hr.rings.left.iterate_next (t := t) (by simp [ho]) hn
    exact ⟨t,k,.inl (by simp [hr.tasks, ho]),hk⟩
  · obtain ⟨t,u,ho⟩ := List.exists_cons_of_ne_nil (List.ne_nil_of_mem hn)
    obtain ⟨k,hk⟩ := hr.rings.right.iterate_next (t := t) (by simp [ho]) hn
    exact ⟨t,k,.inr (by simp [hr.blockedTasks, ho]),hk⟩

/-- Every member is on the list in which the code looks for it, and head->l points to members
in list mode and nowhere in tree mode. -/
structure QueueSound (env : TaskEnv α) (s : QueueState α) : Prop where
  found : ∀ n, s.status n ≠ none →
    ∃ list, lookupList s.q (env.priority n) = some list ∧ OnList s.q.links list n
  fresh : ∀ n, s.q.l.tasks = some n ∨ s.q.l.blockedTasks = some n ∨ s.q.l.lastParentDependsOn = some n ∨
    s.q.l.firstRunningTask = some n → s.q.t.root = .null ∧ s.status n ≠ none

omit [DecidableEq α] in
theorem QueueInv.sound {s : QueueState α} (hi : QueueInv env type s Z) : QueueSound env s := by
  obtain ⟨hq,ht⟩ := hi
  refine ⟨fun n hn => ?_,fun n hn => ?_⟩
  · have hm : n ∈ (Z (env.priority n)).members := (ht _).mem_members.mpr (by simpa using hn)
    obtain ⟨list,hl,hr⟩ := hq.lookup hm
    exact ⟨list,hl,hr.onList hm⟩
  · by_cases hroot : s.q.t.root = .null
    · have hl := hq.listRep hroot
      have hm : n ∈ (Z 0).members := by
        rcases hn with hn | hn | hn | hn
        · exact hl.list.tasks_mem hn
        · exact hl.list.blockedTasks_mem hn
        · exact hl.list.lastParentDependsOn_mem hn
        · exact hl.list.firstRunningTask_mem hn
      have hs := (ht 0).mem_members.mp hm
      rw [← hl.priority 0 n hm, slice_self] at hs
      exact ⟨hroot,hs⟩
    · obtain ⟨h1,h2,h3,h4⟩ := (hq.treeRep hroot).2
      simp [h1, h2, h3, h4] at hn

/-- In every run all of whose transfers are safe the queue refines the map from priorities
to zones: every member is where the code looks for it, head->l keeps no stale pointer, and
no allowed operation fails. -/
theorem priorityQueue_run_refines (env : TaskEnv α) (type : PQType) (policy : ℕ) (key : ℤ → PriorityList α)
    (fields : LinkChain.Fields ℤ) (links : Links α) (kind : α → TaskKind) (ops : List (QueueOp α))
    (s : QueueState α)
    (hsafe : Along (queueStep env type policy) (TransferSafe env) (.init key fields links kind) ops)
    (hs : run (queueStep env type policy) (.init key fields links kind) ops = some s) :
    QueueSound env s ∧
    QueueRep type.plain env s.q (ops.foldl (mapOp env type policy) fun _ => Zones.empty) ∧
    (∀ n st, n ∈ (ops.foldl (mapOp env type policy) (fun _ => Zones.empty) (env.priority n)).zone st ↔
      s.status n = some st) ∧
    ∀ op, OpAllowed env type s.status op → TransferSafe env s op →
      (queueStep env type policy s op).isSome = true := by
  have hinv : QueueInv env type s (ops.foldl (mapOp env type policy) fun _ => Zones.empty) :=
    run_simulates (f := mapOp env type policy) (R := QueueInv env type)
      (fun _ _ _ _ hi hc hs => queueStep_inv hi hc hs) (queueInv_init key fields links kind) hsafe hs
  refine ⟨hinv.sound,hinv.1,fun n st => ?_,fun op hok hsafe => ?_⟩
  · simpa using hinv.2 (env.priority n) n st
  · obtain ⟨q',hex,_⟩ := execOp_rep policy s.kind hinv.1 hinv.2 hok hsafe
    simp [queueStep, hok, hex]

section ModeSwitch

/-- Task 2 has priority 5, all others priority 0. -/
def modeSwitchEnv : TaskEnv ℕ := { priority := fun n => if n = 2 then 5 else 0, ultVar := fun _ => true }

def modeSwitchInit : QueueState ℕ :=
  .init (fun _ => PriorityList.empty 0) ⟨fun _ => none,fun _ => none⟩ ⟨id,id⟩ fun _ => .waiting

def modeSwitchOps : List (QueueOp ℕ) :=
  [.insert 1 .insertEnd false false .waiting,.insert 2 .insertEnd false false .waiting,.blockTask 1 .waiting,
    .remove 2 false,.unblockTask 1 false false,.remove 1 false]

/-- A queue that changes to tree mode and back. -/
theorem priorityQueue_run_refines_modeSwitch :
    ∃ s, run (queueStep modeSwitchEnv .teamUntied 0) modeSwitchInit modeSwitchOps = some s ∧
      QueueSound modeSwitchEnv s := by
  obtain ⟨s,hs⟩ := Option.isSome_iff_exists.mp
    (show (run (queueStep modeSwitchEnv .teamUntied 0) modeSwitchInit modeSwitchOps).isSome = true by decide)
  have hsafe : Along (queueStep modeSwitchEnv .teamUntied 0) (TransferSafe modeSwitchEnv) modeSwitchInit
      modeSwitchOps := along_of_check (by decide)
  exact ⟨s,hs,(priorityQueue_run_refines modeSwitchEnv .teamUntied 0 _ _ _ _ modeSwitchOps s hsafe hs).1⟩

/-- A blocked task alone in head->l is left behind by the transfer: the tree has no node of
its priority. -/
theorem priorityQueue_loses_blocked_task :
    ¬∀ (ops : List (QueueOp ℕ)) (s : QueueState ℕ),
      run (queueStep modeSwitchEnv .teamUntied 0) modeSwitchInit ops = some s → QueueSound modeSwitchEnv s := by
  intro h
  have hbad : (run (queueStep modeSwitchEnv .teamUntied 0) modeSwitchInit
      [.insert 1 .insertEnd false true .waiting,.insert 2 .insertEnd false false .waiting]).any
      (fun s => decide (s.status 1 ≠ none) && (lookupList s.q 0).isNone) = true := by decide
  obtain ⟨s,hs,hlost⟩ := (Option.any_eq_true _ _).mp hbad
  simp only [Bool.and_eq_true, decide_eq_true_eq, Option.isNone_iff_eq_none] at hlost
  obtain ⟨list,hlist,_⟩ := (h _ s hs).found 1 hlost.1
  exact absurd (hlist.symm.trans hlost.2) (by simp)

end ModeSwitch

end GompUlt.Queue
