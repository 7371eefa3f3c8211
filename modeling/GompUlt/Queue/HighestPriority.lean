import GompUlt.Queue.QueueRuns

/-! # highest_priority is the highest priority of a task that waits to be run

From an empty queue whose first task has a positive priority, until it is empty again, the
queue stays in tree mode, and a tree node is marked exactly when one of its tasks waits, as
long as every task is put in with a kind that waits.
-/
namespace GompUlt.Queue
open LinkRing Run

variable {α : Type*}

/-- The kinds that go with a status. -/
def Status.kindOk (type : PQType) : Status → TaskKind → Bool
  | running, k => type.runningKind k
  | _, k => type.readyKind k

/-- A task that waits to be run: GOMP_TASK_WAITING outside the running zone, or suspended in
a suspended queue, and not blocked. -/
def QueueState.Ready (type : PQType) (s : QueueState α) (n : α) : Prop :=
  (s.status n = some .dependsOn ∨ s.status n = some .waiting) ∧ type.readyKind (s.kind n) = true

/-- An empty queue, fresh or used before: the boundary pointers of head->l may be stale. -/
structure QueueState.Empty (s : QueueState α) : Prop where
  status : ∀ n, s.status n = none
  root : s.q.t.root = .null
  tasks : s.q.l.tasks = none
  blockedTasks : s.q.l.blockedTasks = none
  numMarked : s.q.t.numMarked = 0
  highestMarked : s.q.t.highestMarked = none
  highestPriority : s.q.highestPriority = 0

/-- An insertion. -/
def QueueOp.inserts : QueueOp α → Bool
  | insert _ _ _ _ _ | insertRunning _ _ => true
  | _ => false

/-- The condition under which the marks are right: every task is put in with a kind of a ready
task, as it is but for the UNDEFERRED tasks `gomp_task_run_post_handle_dependers` puts in; the
kind changes and the removals are the callers'.  Only UNTIED tasks are blocked. -/
def CallerKinds (type : PQType) (s : QueueState α) : QueueOp α → Prop
  | .insert _ _ _ _ k => type.readyKind k = true
  | .insertRunning _ k => type.runningKind k = true
  | .remove n _ => type.plain = true ∨ s.status n = some .running
  | .adjustTask _ _ _ k => type.readyKind k = true
  | .blockTask _ k => type.tiedZones = false ∧ type.readyKind k = true
  | .unblockTask _ _ _ => True
  | .upgradeTask _ => True
  | .downgradeTask _ k => type.runningKind k = true
  | .setKind n k => s.status n = none ∨ (s.status n = some .running ∧ type.runningKind k = true)

/-- A step of the runs in question: the first insertion into the empty queue has a positive
priority. -/
def HpSafe (env : TaskEnv α) (type : PQType) (s : QueueState α) (op : QueueOp α) : Prop :=
  (priorityQueueEmptyP s.q = true → op.inserts = true → op.opensTree env) ∧ CallerKinds type s op

instance (type : PQType) (s : QueueState α) (op : QueueOp α) : Decidable (CallerKinds type s op) :=
  match op with
  | .insert _ _ _ _ k => inferInstanceAs (Decidable (type.readyKind k = true))
  | .insertRunning _ k => inferInstanceAs (Decidable (type.runningKind k = true))
  | .remove n _ => inferInstanceAs (Decidable (type.plain = true ∨ s.status n = some .running))
  | .adjustTask _ _ _ k => inferInstanceAs (Decidable (type.readyKind k = true))
  | .blockTask _ k => inferInstanceAs (Decidable (type.tiedZones = false ∧ type.readyKind k = true))
  | .unblockTask _ _ _ => inferInstanceAs (Decidable True)
  | .upgradeTask _ => inferInstanceAs (Decidable True)
  | .downgradeTask _ k => inferInstanceAs (Decidable (type.runningKind k = true))
  | .setKind n k =>
    inferInstanceAs (Decidable (s.status n = none ∨ (s.status n = some .running ∧ type.runningKind k = true)))

instance (env : TaskEnv α) (type : PQType) (s : QueueState α) (op : QueueOp α) :
    Decidable (HpSafe env type s op) :=
  inferInstanceAs (Decidable ((priorityQueueEmptyP s.q = true → op.inserts = true → op.opensTree env) ∧ _))

/-- The invariant of these runs. -/
structure HpStateInv (env : TaskEnv α) (type : PQType) (s : QueueState α) (Z : ℤ → Zones α) : Prop where
  tree : TreeRep type.plain env s.q.l s.q Z
  tasks : s.q.l.tasks = none
  blockedTasks : s.q.l.blockedTasks = none
  tracks : TracksMap env Z s.status
  marks : HpRep s.q Z
  kinds : ∀ n st, s.status n = some st → st.kindOk type (s.kind n) = true

variable {env : TaskEnv α} {type : PQType} {s : QueueState α} {Z : ℤ → Zones α}

theorem QueueState.Empty.inv (hs : s.Empty) : HpStateInv env type s fun _ => Zones.empty := by
  refine ⟨⟨by simp [hs.root],by simp [hs.root],fun _ _ => rfl,?_,rfl⟩,hs.tasks,hs.blockedTasks,?_,⟨?_,?_,?_⟩,?_⟩
  · exact fun p n hn => absurd hn mem_members_empty
  · intro p n st
    have hn : slice env s.status p n = none := by simp [slice, hs.status]
    rw [hn]
    cases st <;> simp [Zones.empty, Zones.zone]
  · exact hpInv_null hs.root hs.numMarked hs.highestMarked
  · rw [hs.highestPriority, hs.highestMarked]
    rfl
  · simp [hs.root]
  · simp [hs.status]

/-- The kinds that go with the statuses go with the zones. -/
theorem TracksMap.kindOk (ht : TracksMap env Z s.status)
    (hk : ∀ n st, s.status n = some st → st.kindOk type (s.kind n) = true) (p : ℤ) : KindOk type s.kind (Z p) := by
  have hz : ∀ n st, n ∈ (Z p).zone st → st.kindOk type (s.kind n) = true := by
    intro n st hn
    have hs := (ht p n st).mp hn
    refine hk n st ?_
    unfold slice at hs
    split at hs
    · exact hs
    · cases hs
  refine ⟨fun n hn => ?_,fun n hn => hz n .running hn,fun n hn => hz n .blocked hn⟩
  rcases List.mem_append.mp hn with hn | hn
  · exact hz n .dependsOn hn
  · exact hz n .waiting hn

theorem HpStateInv.kindOk (hi : HpStateInv env type s Z) (p : ℤ) : KindOk type s.kind (Z p) :=
  hi.tracks.kindOk hi.kinds p

/-- A member of the queue keeps it in tree mode. -/
theorem HpStateInv.root_ne_null (hi : HpStateInv env type s Z) {n : α} (hn : s.status n ≠ none) :
    s.q.t.root ≠ .null := by
  intro hroot
  have hm : n ∈ (Z (env.priority n)).members := (hi.tracks _).mem_members.mpr (by simpa using hn)
  rw [hi.tree.others _ (by simp [hroot])] at hm
  exact mem_members_empty hm

variable [DecidableEq α] {policy : ℕ} {op : QueueOp α}

omit [DecidableEq α] in
/-- In an empty queue only an insertion is allowed, and it opens the tree. -/
theorem HpStateInv.opens (hi : HpStateInv env type s Z) (hok : OpAllowed env type s.status op)
    (hsafe : HpSafe env type s op) :
    s.q.t.root ≠ .null ∨ (s.q.l.tasks = none ∧ op.opensTree env) ∨ ∃ n k, op = .setKind n k := by
  by_cases hroot : s.q.t.root = .null
  · have hempty : priorityQueueEmptyP s.q = true := by
      simp [priorityQueueEmptyP, priorityQueueMultiP, hroot, hi.tasks, hi.blockedTasks]
    cases op <;> simp only [OpAllowed] at hok
    case insert => exact .inr (.inl ⟨hi.tasks,hsafe.1 hempty rfl⟩)
    case insertRunning => exact .inr (.inl ⟨hi.tasks,hsafe.1 hempty rfl⟩)
    case remove => exact .inl (hi.root_ne_null hok.1)
    case adjustTask => exact .inl (hi.root_ne_null (by rw [hok.2]; simp))
    case blockTask => exact .inl (hi.root_ne_null hok.1)
    case unblockTask => exact .inl (hi.root_ne_null (by rw [hok]; simp))
    case upgradeTask => exact .inl (hi.root_ne_null (by rw [hok.2]; simp))
    case downgradeTask => exact .inl (hi.root_ne_null (by rcases hok.2 with h | h <;> rw [h] <;> simp))
    case setKind n k => exact .inr (.inr ⟨n,k,rfl⟩)
  · exact .inl hroot

omit [DecidableEq α] in
theorem HpStateInv.marksKeep (hi : HpStateInv env type s Z) (hsafe : HpSafe env type s op) :
    MarksKeep type (Z (env.priority op.task)) op := by
  have hc := hsafe.2
  cases op <;> simp only [CallerKinds, MarksKeep] at hc ⊢
  case remove n b =>
    refine hc.imp_right fun hrun => .inr ?_
    exact (hi.tracks (env.priority n) n .running).mpr (by simpa using hrun)
  case blockTask n k => exact hc.1

omit [DecidableEq α] in
/-- The kind the caller leaves the task with fits its new status. -/
theorem statusOp_kindOk (hk : ∀ n st, s.status n = some st → st.kindOk type (s.kind n) = true)
    (hok : OpAllowed env type s.status op) (hc : CallerKinds type s op) (st : Status)
    (hst : statusOp type s.status op = some st) : st.kindOk type (kindOp s.kind op) = true := by
  have hput : ∀ d b k, type.readyKind k = true → (Status.put type.plain d b).kindOk type k = true := by
    intro d b k hk
    cases d <;> cases b <;> cases type.plain <;> exact hk
  cases op <;> simp only [OpAllowed, CallerKinds, statusOp, kindOp, Option.some.injEq] at hok hc hst ⊢
  case insert n pos d b k => exact hst ▸ hput d b k hc
  case insertRunning n k => exact hst ▸ hc
  case remove => cases hst
  case adjustTask n c d k => exact hst ▸ hput d false k hc
  case blockTask n k => exact hst ▸ hc.2
  case unblockTask n c d => exact hst ▸ hput d false _ (hk n .blocked hok)
  case upgradeTask n => exact hst ▸ hk n .waiting hok.2
  case downgradeTask n k => exact hst ▸ hc
  case setKind n k =>
    rcases hc with hn | ⟨hn,hrun⟩
    · rw [hn] at hst
      cases hst
    · rw [hn] at hst
      cases hst
      exact hrun

theorem queueStep_hpStateInv (hult : ∀ n, env.ultVar n = true) {s' : QueueState α}
    (hi : HpStateInv env type s Z) (hsafe : HpSafe env type s op)
    (hs : queueStep env type policy s op = some s') :
    HpStateInv env type s' (mapOp env type policy Z op) := by
  simp only [queueStep, Option.ite_none_right_eq_some, Option.map_eq_some_iff] at hs
  obtain ⟨hok,q',hex,rfl⟩ := hs
  have hallow := zonesAllow_of_opAllowed hi.tracks hok
  obtain ⟨q'',hex',hq',hh⟩ := execOp_tree policy s.kind hi.tree (hi.opens hok hsafe) hallow
  obtain rfl : q' = q'' := Option.some.inj (hex.symm.trans hex')
  have hl : q'.l = s.q.l := hq'.l_eq
  have hnd : (Z (env.priority op.task)).members.Nodup := by
    by_cases hp : env.priority op.task ∈ s.q.t.root.toList
    · exact (hi.tree.lists _ hp).1.rings.nodup
    · rw [hi.tree.others _ hp]
      exact List.nodup_nil
  refine ⟨hl ▸ hq',hl ▸ hi.tasks,hl ▸ hi.blockedTasks,tracksMap_step hi.tracks hok hnd,?_,?_⟩
  · exact hh (hult _) (hi.kindOk _) (hi.marksKeep hsafe) hi.marks
  · intro n st hst
    simp only at hst ⊢
    by_cases e : n = op.task
    · subst e
      rw [Function.update_self] at hst ⊢
      exact statusOp_kindOk hi.kinds hok hsafe.2 st hst
    · rw [Function.update_of_ne e] at hst ⊢
      exact hi.kinds n st hst

section Max

/-- The last element of a sorted list bounds the others. -/
private theorem le_getLast? {u : List ℤ} (hs : u.Pairwise (· < ·)) {x : ℤ} (hx : x ∈ u) :
    x ≤ u.getLast?.getD 0 := by
  rcases List.eq_nil_or_concat u with rfl | ⟨v,y,rfl⟩
  · simp at hx
  · rw [List.concat_eq_append] at hs hx ⊢
    rw [List.getLast?_append, List.getLast?_singleton]
    rcases List.mem_append.mp hx with hx | hx
    · exact ((List.pairwise_append.mp hs).2.2 x hx y (by simp)).le
    · simp_all

omit [DecidableEq α] in
theorem HpStateInv.mem_ready (hi : HpStateInv env type s Z) {n : α} {p : ℤ} :
    n ∈ (Z p).ready ↔ s.Ready type n ∧ env.priority n = p := by
  have hd := hi.tracks p n .dependsOn
  have hw := hi.tracks p n .waiting
  simp only [Zones.zone, slice] at hd hw
  rw [Zones.ready, List.mem_append, hd, hw]
  by_cases hp : env.priority n = p
  · simp only [hp, and_true, QueueState.Ready]
    refine ⟨fun h => ⟨h,?_⟩,And.left⟩
    rcases h with h | h
    · exact hi.kinds n .dependsOn h
    · exact hi.kinds n .waiting h
  · simp [hp]

omit [DecidableEq α] in
/-- A priority is marked in the tree exactly when one of its tasks is ready. -/
theorem HpStateInv.mem_marked (hi : HpStateInv env type s Z) (p : ℤ) :
    p ∈ s.q.t.root.toList.filter s.q.t.marked ↔ ∃ n, s.Ready type n ∧ env.priority n = p := by
  rw [List.mem_filter]
  refine ⟨fun ⟨hp,hm⟩ => ?_,fun ⟨n,hn⟩ => ?_⟩
  · obtain ⟨n,hn⟩ := List.exists_mem_of_ne_nil _ ((hi.marks.marked p hp).mp hm)
    exact ⟨n,hi.mem_ready.mp hn⟩
  · have hm := hi.mem_ready.mpr hn
    have hp : p ∈ s.q.t.root.toList := by
      by_contra hne
      rw [hi.tree.others p hne] at hm
      simp [Zones.empty, Zones.ready] at hm
    exact ⟨hp,(hi.marks.marked p hp).mpr (List.ne_nil_of_mem hm)⟩

end Max

/-- The invariant of the runs from an empty queue. -/
theorem run_hpStateInv (hult : ∀ n, env.ultVar n = true) {s₀ : QueueState α} (h₀ : s₀.Empty)
    {ops : List (QueueOp α)} (hsafe : Along (queueStep env type policy) (HpSafe env type) s₀ ops)
    (hs : run (queueStep env type policy) s₀ ops = some s) :
    HpStateInv env type s (ops.foldl (mapOp env type policy) fun _ => Zones.empty) :=
  run_simulates (f := mapOp env type policy) (R := HpStateInv env type)
    (fun _ _ _ _ hi hc hs => queueStep_hpStateInv hult hi hc hs) h₀.inv hsafe hs

/-- In every run from an empty queue that begins with a positive priority and keeps to the kinds
of `CallerKinds`, highest_priority is the maximum over the ready tasks, and 0 when there is none. -/
theorem highestPriority_eq_max (env : TaskEnv α) (type : PQType) (policy : ℕ)
    (hult : ∀ n, env.ultVar n = true) (s₀ : QueueState α) (h₀ : s₀.Empty) (ops : List (QueueOp α))
    (s : QueueState α) (hsafe : Along (queueStep env type policy) (HpSafe env type) s₀ ops)
    (hs : run (queueStep env type policy) s₀ ops = some s) :
    (∀ n, s.Ready type n → env.priority n ≤ s.q.highestPriority) ∧
    ((∃ n, s.Ready type n) → ∃ n, s.Ready type n ∧ env.priority n = s.q.highestPriority) ∧
    ((∀ n, ¬s.Ready type n) → s.q.highestPriority = 0) := by
  have hi := run_hpStateInv hult h₀ hsafe hs
  have hhigh : s.q.highestPriority = (s.q.t.root.toList.filter s.q.t.marked).getLast?.getD 0 := by
    rw [hi.marks.highest, hi.marks.inv.highestMarked]
  have hsorted := hi.marks.inv.sorted.filter s.q.t.marked
  rw [hhigh]
  refine ⟨fun n hn => ?_,fun ⟨n,hn⟩ => ?_,fun hnone => ?_⟩
  · exact le_getLast? hsorted ((hi.mem_marked _).mpr ⟨n,hn,rfl⟩)
  · have hm := (hi.mem_marked _).mpr ⟨n,hn,rfl⟩
    have hlast := List.getLast?_eq_some_getLast (List.ne_nil_of_mem hm)
    rw [hlast]
    exact (hi.mem_marked _).mp (List.getLast_mem _)
  · have hnil : s.q.t.root.toList.filter s.q.t.marked = [] := by
      rw [List.eq_nil_iff_forall_not_mem]
      intro p hp
      obtain ⟨n,hn,_⟩ := (hi.mem_marked p).mp hp
      exact hnone n hn
    rw [hnil]
    rfl

section FourTasks

/-- The priority of a task is its number. -/
def numberedEnv : TaskEnv ℕ := { priority := fun n => n, ultVar := fun _ => true }

def numberedInit : QueueState ℕ :=
  .init (fun _ => PriorityList.empty 0) ⟨fun _ => none,fun _ => none⟩ ⟨id,id⟩ fun _ => .waiting

def numberedOps : List (QueueOp ℕ) :=
  [.insert 2 .insertEnd false false .waiting,.insert 7 .insertEnd true false .waiting,.insertRunning 9 .tied,
    .insert 5 .insertBegin false false .waiting,.downgradeTask 7 .tied,.adjustTask 9 false false .waiting,
    .blockTask 9 .waiting,.remove 7 false,.unblockTask 9 true false,.blockTask 9 .waiting]

/-- Tasks 2 and 5 wait, task 9 is blocked: the highest ready priority is 5. -/
theorem highestPriority_eq_max_numbered :
    ∃ s, run (queueStep numberedEnv .childrenUntied 0) numberedInit numberedOps = some s ∧
      s.q.highestPriority = 5 ∧ ∀ n, s.Ready .childrenUntied n → numberedEnv.priority n ≤ 5 := by
  have hrun : (run (queueStep numberedEnv .childrenUntied 0) numberedInit numberedOps).any
      (fun s => s.q.highestPriority = 5) = true := by decide
  obtain ⟨s,hs,hfive⟩ := (Option.any_eq_true _ _).mp hrun
  have hfive : s.q.highestPriority = 5 := by simpa using hfive
  have hempty : numberedInit.Empty := ⟨fun _ => rfl,rfl,rfl,rfl,rfl,rfl,rfl⟩
  have hsafe : Along (queueStep numberedEnv .childrenUntied 0) (HpSafe numberedEnv .childrenUntied) numberedInit
      numberedOps := along_of_check (by decide)
  have hmax := (highestPriority_eq_max numberedEnv .childrenUntied 0 (fun _ => rfl) numberedInit hempty
    numberedOps s hsafe hs).1
  exact ⟨s,hs,hfive,hfive ▸ hmax⟩

/-- Task 2 is created, taken and completes, which puts in task 5, still UNDEFERRED. -/
def dependerOps : List (QueueOp ℕ) :=
  [.insert 2 .insertBegin false false .waiting,.downgradeTask 2 .tied,.insert 5 .insertBegin false false .undeferred]

/-- The UNDEFERRED task is marked like one that waits: no task is ready, yet the highest priority is 5. -/
theorem highestPriority_eq_max_undeferredDepender :
    numberedInit.Empty ∧ (∀ op ∈ dependerOps.head?, op.opensTree numberedEnv) ∧
      ∃ s, run (queueStep numberedEnv .childrenTied 0x00FFFF0F) numberedInit dependerOps = some s ∧
        (∀ n, ¬s.Ready .childrenTied n) ∧ s.q.highestPriority = 5 := by
  have hrun : (run (queueStep numberedEnv .childrenTied 0x00FFFF0F) numberedInit dependerOps).map
      (fun s => (s.status,s.kind,s.q.highestPriority)) =
      some (Function.update (Function.update (Function.update (fun _ => none) 2 (some .waiting)) 2 (some .running)) 5
        (some .waiting),Function.update (Function.update (Function.update (fun _ => .waiting) 2 .waiting) 2 .tied) 5
        .undeferred,5) := rfl
  obtain ⟨s,hs,hshape⟩ := Option.map_eq_some_iff.mp hrun
  obtain ⟨hstatus,hkind,hhigh⟩ : s.status = _ ∧ s.kind = _ ∧ s.q.highestPriority = 5 := by simpa using hshape
  refine ⟨⟨fun _ => rfl,rfl,rfl,rfl,rfl,rfl,rfl⟩,by decide,s,hs,fun n hn => ?_,hhigh⟩
  rw [QueueState.Ready, hstatus, hkind] at hn
  by_cases h5 : n = 5
  · subst h5
    exact absurd hn.2 (by decide)
  · by_cases h2 : n = 2
    · subst h2
      exact absurd hn.1 (by decide)
    · simp [Function.update_of_ne h5, Function.update_of_ne h2] at hn

end FourTasks

end GompUlt.Queue
