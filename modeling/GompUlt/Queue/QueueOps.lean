import GompUlt.Queue.QueueRep

/-! # The queue operations in tree mode and in list mode

Every operation changes the zones of one priority.  In tree mode it also keeps the marks
right, as long as the kinds of the tasks agree with their zones.
-/
namespace GompUlt.Queue
open LinkRing

variable {α : Type*} [DecidableEq α]

section Members
variable {z : Zones α} {n m : α}

omit [DecidableEq α] in
theorem mem_members_insert (plain : Bool) (pos : InsertType) (d b : Bool) :
    m ∈ (z.insert plain n pos d b).members ↔ m = n ∨ m ∈ z.members := by
  simp only [Zones.insert, Zones.members, Zones.order]
  split_ifs <;> simp <;> tauto

omit [DecidableEq α] in
theorem mem_members_insertRunning : m ∈ (z.insertRunning n).members ↔ m = n ∨ m ∈ z.members := by
  simp only [Zones.insertRunning, Zones.members, Zones.order, List.mem_append, List.mem_singleton]
  tauto

theorem mem_members_erase (hm : m ∈ (z.erase n).members) : m ∈ z.members := by
  simp only [Zones.members, Zones.order, Zones.erase, List.mem_append] at hm ⊢
  exact hm.imp (Or.imp (Or.imp List.mem_of_mem_erase List.mem_of_mem_erase) List.mem_of_mem_erase)
    List.mem_of_mem_erase

theorem mem_members_reinsert (plain : Bool) (pos : InsertType) (d b : Bool)
    (hm : m ∈ ((z.erase n).insert plain n pos d b).members) : m = n ∨ m ∈ z.members :=
  ((mem_members_insert plain pos d b).mp hm).imp_right mem_members_erase

theorem mem_members_upgrade : m ∈ (z.upgrade n).members → m = n ∨ m ∈ z.members := by
  have hw : m ∈ z.waiting.erase n → m ∈ z.waiting := List.mem_of_mem_erase
  simp only [Zones.members, Zones.order, List.mem_append, Zones.mem_upgrade_dependsOn]
  simp only [Zones.upgrade]
  tauto

theorem self_mem_upgrade : n ∈ (z.upgrade n).members := by
  simp [Zones.members, Zones.order, Zones.mem_upgrade_dependsOn]

theorem mem_members_downgrade : m ∈ (z.downgrade n).members → m = n ∨ m ∈ z.members := by
  have hd : m ∈ z.dependsOn.erase n → m ∈ z.dependsOn := List.mem_of_mem_erase
  have hw : m ∈ z.waiting.erase n → m ∈ z.waiting := List.mem_of_mem_erase
  simp only [Zones.members, Zones.order, List.mem_append, Zones.mem_downgrade_running]
  simp only [Zones.downgrade]
  tauto

theorem self_mem_downgrade : n ∈ (z.downgrade n).members := by
  simp [Zones.members, Zones.order, Zones.mem_downgrade_running]

omit [DecidableEq α] in
/-- A task put among those that wait is ready. -/
theorem ready_insert (plain : Bool) (pos : InsertType) (d : Bool) : (z.insert plain n pos d false).ready ≠ [] := by
  simp only [Zones.insert, Zones.ready, Bool.false_eq_true, if_false]
  split_ifs <;> simp

omit [DecidableEq α] in
theorem ready_insert_blocked (plain : Bool) (pos : InsertType) (d : Bool) :
    (z.insert plain n pos d true).ready = z.ready := by simp [Zones.insert, Zones.ready]

theorem mem_ready_erase (hm : m ∈ (z.erase n).ready) : m ∈ z.ready := by
  simp only [Zones.ready, Zones.erase, List.mem_append] at hm ⊢
  exact hm.imp List.mem_of_mem_erase List.mem_of_mem_erase

end Members

section Kinds

/-- The kinds of a task that waits to be run: a suspended TIED task waits in a suspended
queue, and any other task that waits is GOMP_TASK_WAITING. -/
def PQType.readyKind (type : PQType) (kind : TaskKind) : Bool :=
  kind = .waiting || (type.toNat ≥ PQType.suspendedTied.toNat && kind = .tiedSuspended)

/-- The queues whose running tasks may be suspended where they are. -/
def PQType.tiedZones (type : PQType) : Bool := type = .childrenTied || type = .taskgroupTied

/-- The kinds of a task in the running zone.  A suspended UNTIED task has left that zone. -/
def PQType.runningKind (type : PQType) (kind : TaskKind) : Bool :=
  kind ≠ .waiting && (type.tiedZones || kind ≠ .tiedSuspended)

/-- The kinds of the members agree with their zones. -/
structure KindOk (type : PQType) (kind : α → TaskKind) (z : Zones α) : Prop where
  ready : ∀ n ∈ z.ready, type.readyKind (kind n)
  running : ∀ n ∈ z.running, type.runningKind (kind n)
  blocked : ∀ n ∈ z.blocked, type.readyKind (kind n)

variable {type : PQType} {kind : α → TaskKind} {plain : Bool} {h : Links α} {list : PriorityList α}
  {z : Zones α}

omit [DecidableEq α] in
theorem readyKind_cases {k : TaskKind} (hk : type.readyKind k = true) : k = .waiting ∨ k = .tiedSuspended := by
  simp only [PQType.readyKind, Bool.or_eq_true, Bool.and_eq_true, decide_eq_true_eq] at hk
  exact hk.imp_right And.right

omit [DecidableEq α] in
/-- The first task of the ring is one that waits to be run, if there is one. -/
theorem headIsReady_of_ready (hr : Rep plain h list z) (hk : ∀ n ∈ z.ready, type.readyKind (kind n))
    (hne : z.ready ≠ []) : headIsReady kind list = true := by
  obtain ⟨a,l,ha⟩ := List.exists_cons_of_ne_nil hne
  have ht : list.tasks = some a := by
    rw [hr.tasks, Zones.order, show z.dependsOn ++ z.waiting = a :: l from ha]
    rfl
  have hka := readyKind_cases (hk a (by simp [ha]))
  simpa [headIsReady, ht] using hka

omit [DecidableEq α] in
theorem headIsReady_of_empty (hr : Rep plain h list z) (hk : ∀ n ∈ z.running, type.runningKind (kind n))
    (htied : type.tiedZones = false) (he : z.ready = []) : headIsReady kind list = false := by
  have ho : z.order = z.running := by rw [Zones.order, show z.dependsOn ++ z.waiting = [] from he]; rfl
  unfold headIsReady
  rw [hr.tasks, ho]
  cases hrun : z.running with
  | nil => rfl
  | cons a l =>
    have hka := hk a (by simp [hrun])
    simp only [PQType.runningKind, htied, Bool.false_or, Bool.and_eq_true, decide_eq_true_eq] at hka
    simp [hka]

theorem readyKind_zoned (hplain : type.plain = false) {k : TaskKind} (hk : type.readyKind k = true) :
    k = .waiting := by
  cases type <;> simp_all [PQType.plain, PQType.readyKind, PQType.toNat]

/-- The test after a downgrade: the first task of the ring is another one that waits. -/
theorem downgrade_ready_iff {n : α} (hplain : type.plain = false) (hr : Rep false h list z)
    (hk : KindOk type kind z) :
    (z.downgrade n).ready ≠ [] ↔
      ((z.downgrade n).order.head?.any fun first => first ≠ n ∧ kind first = .waiting) = true := by
  have hfresh := hr.not_mem_erase n
  have ho : (z.downgrade n).order = (z.downgrade n).ready ++ (z.downgrade n).running := rfl
  cases hz : (z.downgrade n).ready with
  | nil =>
    rw [ho, hz]
    cases hrun : (z.downgrade n).running with
    | nil => simp
    | cons a l =>
      have ha : a ∈ (z.downgrade n).running := by simp [hrun]
      rcases Zones.mem_downgrade_running.mp ha with rfl | ha
      · simp
      · have hka := hk.running a ha
        simp only [PQType.runningKind, Bool.and_eq_true, decide_eq_true_eq] at hka
        simp [hka.1]
  | cons a l =>
    have ha : a ∈ (z.erase n).ready := by
      have hm : a ∈ (z.downgrade n).ready := by simp [hz]
      exact hm
    have hne : a ≠ n := by
      rintro rfl
      exact hfresh (List.mem_append_left _ (List.mem_append_left _ ha))
    have hka := readyKind_zoned hplain (hk.ready a (mem_ready_erase ha))
    simp [ho, hz, hne, hka]

/-- The removal of a task that is not ready leaves the ready ones. -/
theorem ready_erase_of_not_mem {n : α} (hn : n ∉ z.ready) : (z.erase n).ready = z.ready := by
  simp only [Zones.ready, List.mem_append, not_or] at hn
  simp [Zones.ready, Zones.erase, List.erase_of_not_mem hn.1, List.erase_of_not_mem hn.2]

theorem erase_eq_empty {n : α} (he : (z.erase n).members = []) : z.erase n = Zones.empty := by
  cases hz : z.erase n with
  | mk d w r b =>
    rw [hz] at he
    simp only [Zones.members, Zones.order, List.append_eq_nil_iff] at he
    obtain ⟨⟨⟨rfl,rfl⟩,rfl⟩,rfl⟩ := he
    rfl

end Kinds

variable {env : TaskEnv α} {l : PriorityList α} {q : PriorityQueue α} {Z : ℤ → Zones α} {n : α} {p : ℤ} {type : PQType}
  {kind : α → TaskKind}

section Found

omit [DecidableEq α] in
/-- The lookup of the priority of a member succeeds. -/
theorem TreeRep.found {plain : Bool} (hq : TreeRep plain env l q Z) (hn : n ∈ (Z p).members) :
    ∃ q₁, priorityQueueLookupPriority q p = (q₁,true) ∧ TreeRep plain env l q₁ Z ∧ p ∈ q₁.t.root.toList ∧
      (HpRep q Z → HpRep q₁ Z) := by
  have hp : p ∈ q.t.root.toList := by
    by_contra hne
    rw [hq.others p hne] at hn
    exact mem_members_empty hn
  obtain ⟨h1,h2,h3⟩ := priorityQueueLookupPriority_spec hq.sorted p
  refine ⟨(priorityQueueLookupPriority q p).1,Prod.ext rfl (h3.mpr hp),?_,h2 ▸ hp,fun hh => hh.lookup p⟩
  exact hq.congr h2 (by rw [h1]) (by rw [h1]) (by rw [h1])

omit [DecidableEq α] in
theorem TreeRep.notFound {plain : Bool} (hq : TreeRep plain env l q Z) (hp : p ∉ q.t.root.toList) :
    ∃ q₁, priorityQueueLookupPriority q p = (q₁,false) ∧ TreeRep plain env l q₁ Z ∧ p ∉ q₁.t.root.toList ∧
      (HpRep q Z → HpRep q₁ Z) := by
  obtain ⟨h1,h2,h3⟩ := priorityQueueLookupPriority_spec hq.sorted p
  have hf : (priorityQueueLookupPriority q p).2 = false := by
    rw [← Bool.not_eq_true, h3]
    exact hp
  refine ⟨(priorityQueueLookupPriority q p).1,Prod.ext rfl hf,?_,h2 ▸ hp,fun hh => hh.lookup p⟩
  exact hq.congr h2 (by rw [h1]) (by rw [h1]) (by rw [h1])

omit [DecidableEq α] in
/-- A priority new in the tree, with the list of its first task. -/
theorem TreeRep.newKey {plain : Bool} {q' : PriorityQueue α} {r : Links α × PriorityList α} {z : Zones α}
    (hq : TreeRep plain env l q Z) (hs : q'.t.root.toList.Pairwise (· < ·))
    (hkeys : ∀ x, x ∈ q'.t.root.toList ↔ x = p ∨ x ∈ q.t.root.toList)
    (hkey : q'.key = Function.update q.key p (PriorityList.empty p)) (hl : q'.l = q.l)
    (hn : env.priority n = p) (hr : Rep plain r.1 r.2 z) (hframe : AgreeOff (Zones.empty.Scope n) q.links r.1)
    (hz : ∀ m ∈ z.members, m = n) (hne : z.members ≠ []) :
    TreeRep plain env l (q'.setKey p r) (Function.update Z p z) := by
  refine hq.update (S := Zones.empty.Scope n) hs hkeys ?_ hl hframe ?_ ?_ hne ?_
  · intro x hx
    simp [hkey, hx]
  · exact fun a ha => ha.elim (fun e => e ▸ hn) fun hm => absurd hm mem_members_empty
  · simpa using hr
  · exact fun m hm => hz m hm ▸ hn

end Found

variable (kind) in
/-- priority_tree_block_task. -/
theorem priorityTreeBlockTask_rep (hq : TreeRep type.plain env l q Z) (hn : n ∈ (Z p).order)
    {z : Zones α} (hz : z = ((Z p).erase n).insert type.plain n .insertBegin false true) :
    ∃ q', priorityTreeBlockTask kind type q n p = some q' ∧
      TreeRep type.plain env l q' (Function.update Z p z) ∧
      (type.tiedZones = false → KindOk type kind (Z p) → HpRep q Z → HpRep q' (Function.update Z p z)) := by
  have hm : n ∈ (Z p).members := List.mem_append_left _ hn
  obtain ⟨q₁,hlook,hq₁,hp,hh₁⟩ := hq.found hm
  have hr := (hq₁.lists p hp).1
  have hrep : Rep type.plain _ _ z := hz ▸ priorityListBlockTask_rep type hr hn
  have hmem : ∀ m ∈ z.members, m = n ∨ m ∈ (Z p).members := by
    subst hz
    exact fun m => mem_members_reinsert type.plain .insertBegin false true
  have hself : n ∈ z.members := hz ▸ (mem_members_insert type.plain .insertBegin false true).mpr (.inl rfl)
  have hset := hq₁.setKey hp (hq₁.priority p n hm) hrep (priorityListBlockTask_frame type hr hn) hmem
    (List.ne_nil_of_mem hself)
  have hready : ∀ m ∈ z.ready, m ∈ (Z p).ready := by
    subst hz
    rw [ready_insert_blocked]
    exact fun m => mem_ready_erase
  simp only [priorityTreeBlockTask, hlook, if_true, setKey_key, Function.update_self]
  split
  · next hhead =>
    refine ⟨_,rfl,hset,fun htied hk hh => (hh₁ hh).keep ?_⟩
    have hrun : ∀ m ∈ z.running, m ∈ (Z p).running := by
      subst hz
      exact fun m => List.mem_of_mem_erase
    have hne : z.ready ≠ [] := fun he => by
      rw [headIsReady_of_empty hrep (fun m hm => hk.running m (hrun m hm)) htied he] at hhead
      exact Bool.false_ne_true hhead
    obtain ⟨m,hm⟩ := List.exists_mem_of_ne_nil _ hne
    exact iff_of_true hne (List.ne_nil_of_mem (hready m hm))
  · next hhead =>
    refine ⟨_,rfl,hset.storeHighest (by simp),fun htied hk hh => (hh₁ hh).mark hp ?_⟩
    have he : z.ready = [] := by
      by_contra hne
      exact hhead (headIsReady_of_ready hrep (fun m hm => hk.ready m (hready m hm)) hne)
    simp [he]

variable (kind) in
/-- priority_tree_unblock_task. -/
theorem priorityTreeUnblockTask_rep (policy : ℕ) (hq : TreeRep type.plain env l q Z) (hn : n ∈ (Z p).blocked)
    (awaitsChildren dependsOn : Bool) {z : Zones α}
    (hz : z = ((Z p).erase n).insert type.plain n (unblockPosition type policy awaitsChildren) dependsOn false) :
    ∃ q', priorityTreeUnblockTask kind type policy q n p awaitsChildren dependsOn = some q' ∧
      TreeRep type.plain env l q' (Function.update Z p z) ∧
      (KindOk type kind (Z p) → HpRep q Z → HpRep q' (Function.update Z p z)) := by
  have hm : n ∈ (Z p).members := List.mem_append_right _ hn
  obtain ⟨q₁,hlook,hq₁,hp,hh₁⟩ := hq.found hm
  have hr := (hq₁.lists p hp).1
  have hrep : Rep type.plain _ _ z := hz ▸ priorityListUnblockTask_rep type policy hr hn awaitsChildren dependsOn
  have hmem : ∀ m ∈ z.members, m = n ∨ m ∈ (Z p).members := by
    subst hz
    exact fun m => mem_members_reinsert type.plain _ dependsOn false
  have hself : n ∈ z.members := hz ▸ (mem_members_insert type.plain _ dependsOn false).mpr (.inl rfl)
  have hset := hq₁.setKey hp (hq₁.priority p n hm) hrep
    (priorityListUnblockTask_frame type policy hr hn awaitsChildren dependsOn) hmem (List.ne_nil_of_mem hself)
  have hready : z.ready ≠ [] := hz ▸ ready_insert type.plain _ dependsOn
  simp only [priorityTreeUnblockTask, hlook, if_true]
  split
  · exact ⟨_,rfl,hset.storeHighest (by simp),fun _ hh => (hh₁ hh).mark hp (by simp [hready])⟩
  · next hkind =>
    refine ⟨_,rfl,hset,fun hk _ => absurd ?_ hkind⟩
    simpa using readyKind_cases (hk.blocked n hn)

/-- priority_tree_adjust_task. -/
theorem priorityTreeAdjustTask_rep (policy : ℕ) (hq : TreeRep type.plain env l q Z) (hn : n ∈ (Z p).order)
    (awaitsChildren dependsOn : Bool) {z : Zones α}
    (hz : z = ((Z p).erase n).insert type.plain n (adjustPosition type policy awaitsChildren) dependsOn false) :
    ∃ q', priorityTreeAdjustTask type policy q n p awaitsChildren dependsOn = some q' ∧
      TreeRep type.plain env l q' (Function.update Z p z) ∧ (HpRep q Z → HpRep q' (Function.update Z p z)) := by
  have hm : n ∈ (Z p).members := List.mem_append_left _ hn
  obtain ⟨q₁,hlook,hq₁,hp,hh₁⟩ := hq.found hm
  have hr := (hq₁.lists p hp).1
  have hrep : Rep type.plain _ _ z := hz ▸ priorityListAdjustTask_rep type policy hr hn awaitsChildren dependsOn
  have hmem : ∀ m ∈ z.members, m = n ∨ m ∈ (Z p).members := by
    subst hz
    exact fun m => mem_members_reinsert type.plain _ dependsOn false
  have hself : n ∈ z.members := hz ▸ (mem_members_insert type.plain _ dependsOn false).mpr (.inl rfl)
  have hset := hq₁.setKey hp (hq₁.priority p n hm) hrep
    (priorityListAdjustTask_frame type policy hr hn awaitsChildren dependsOn) hmem (List.ne_nil_of_mem hself)
  have hready : z.ready ≠ [] := hz ▸ ready_insert type.plain _ dependsOn
  simp only [priorityTreeAdjustTask, hlook, if_true]
  exact ⟨_,rfl,hset.storeHighest (by simp),fun hh => (hh₁ hh).mark hp (by simp [hready])⟩

/-- The tree branch of priority_queue_upgrade_task, which leaves the marks alone. -/
theorem upgradeInTree_rep (hq : TreeRep false env l q Z) (hn : n ∈ (Z (env.priority n)).waiting)
    (hmulti : priorityQueueMultiP q = true) :
    ∃ q', priorityQueueUpgradeTask env q n = some q' ∧
      TreeRep false env l q' (Function.update Z (env.priority n) ((Z (env.priority n)).upgrade n)) ∧
      (HpRep q Z → HpRep q' (Function.update Z (env.priority n) ((Z (env.priority n)).upgrade n))) := by
  have hm : n ∈ (Z (env.priority n)).members := by simp [Zones.members, Zones.order, hn]
  obtain ⟨q₁,hlook,hq₁,hp,hh₁⟩ := hq.found hm
  have hr := (hq₁.lists _ hp).1
  have hset := hq₁.setKey hp rfl (priorityListUpgradeTask_rep hr hn) (priorityListUpgradeTask_frame hr hm)
    (fun m => mem_members_upgrade) (List.ne_nil_of_mem self_mem_upgrade)
  simp only [priorityQueueUpgradeTask, hmulti, hlook, if_true]
  refine ⟨_,rfl,hset,fun hh => (hh₁ hh).keep (iff_of_true ?_ ?_)⟩
  · have hself : n ∈ ((Z (env.priority n)).upgrade n).dependsOn := Zones.mem_upgrade_dependsOn.mpr (.inl rfl)
    exact List.ne_nil_of_mem (List.mem_append_left _ hself)
  · exact List.ne_nil_of_mem (List.mem_append_right _ hn)

variable (kind) in
/-- The tree branch of priority_queue_downgrade_task. -/
theorem downgradeInTree_rep (hplain : type.plain = false) (hq : TreeRep false env l q Z)
    (hn : n ∈ (Z (env.priority n)).ready) (hmulti : priorityQueueMultiP q = true) :
    ∃ q', priorityQueueDowngradeTask env kind q n = some q' ∧
      TreeRep false env l q' (Function.update Z (env.priority n) ((Z (env.priority n)).downgrade n)) ∧
      (env.ultVar n = true → KindOk type kind (Z (env.priority n)) → HpRep q Z →
        HpRep q' (Function.update Z (env.priority n) ((Z (env.priority n)).downgrade n))) := by
  have hm : n ∈ (Z (env.priority n)).members := List.mem_append_left _ (List.mem_append_left _ hn)
  obtain ⟨q₁,hlook,hq₁,hp,hh₁⟩ := hq.found hm
  have hr := (hq₁.lists _ hp).1
  have hrep := priorityListDowngradeTask_rep hr hn
  have hset := hq₁.setKey hp rfl hrep (priorityListDowngradeTask_frame hr hm)
    (fun m => mem_members_downgrade) (List.ne_nil_of_mem self_mem_downgrade)
  simp only [priorityQueueDowngradeTask, hmulti, hlook, if_true, setKey_key, Function.update_self]
  generalize hflag : (Option.any _ (priorityListDowngradeTask q₁.links (q₁.key (env.priority n)) n).2.tasks) = ready
  have hready : KindOk type kind (Z (env.priority n)) →
      (((Z (env.priority n)).downgrade n).ready ≠ [] ↔ ready = true) := by
    intro hk
    rw [← hflag, hrep.tasks]
    exact downgrade_ready_iff hplain hr hk
  split
  · next hcond =>
    refine ⟨_,rfl,(hset.storeHighest (by simp)).addWaiting,fun _ hk hh => ((hh₁ hh).mark hp ?_).addWaiting⟩
    simp only [Bool.and_eq_true, Bool.not_eq_true'] at hcond
    rw [hready hk, hcond.2]
  · next hcond =>
    refine ⟨_,rfl,hset.addWaiting,fun hult hk hh => ((hh₁ hh).keep (iff_of_true ?_ ?_)).addWaiting⟩
    · rw [hready hk]
      simpa [hult] using hcond
    · exact List.ne_nil_of_mem hn

section Remove

/-- The marks after a removal that leaves tasks of the priority. -/
private theorem remove_mark {h : Links α} {list : PriorityList α} {z : Zones α} {blocked : Bool}
    (hr : Rep type.plain h list (z.erase n)) (hnd : z.members.Nodup) (hk : KindOk type kind z)
    (hn : if blocked then n ∈ z.blocked else n ∈ z.order) (hrun : type.plain = true ∨ blocked = true ∨ n ∈ z.running) :
    if (!blocked && !headIsReady kind list) = true then (z.erase n).ready = []
    else ((z.erase n).ready ≠ [] ↔ z.ready ≠ []) := by
  have hready : ∀ m ∈ (z.erase n).ready, type.readyKind (kind m) := fun m hm => hk.ready m (mem_ready_erase hm)
  split
  · next hcond =>
    simp only [Bool.and_eq_true, Bool.not_eq_true'] at hcond
    by_contra hne
    rw [headIsReady_of_ready hr hready hne] at hcond
    exact Bool.noConfusion hcond.2
  · next hcond =>
    simp only [Zones.members, Zones.order, List.nodup_append, List.mem_append] at hnd
    have hblocked : n ∈ z.blocked → n ∉ z.ready := fun hb hm =>
      hnd.2.2 n (.inl (List.mem_append.mp hm)) n hb rfl
    have hrunning : n ∈ z.running → n ∉ z.ready := fun hr hm => hnd.1.2.2 n (List.mem_append.mp hm) n hr rfl
    cases blocked with
    | true => rw [ready_erase_of_not_mem (hblocked hn)]
    | false =>
      rcases hrun with hplain | hb | hrun
      · have htied : type.tiedZones = false := by cases type <;> simp_all [PQType.plain, PQType.tiedZones, PQType.toNat]
        have hhead : headIsReady kind list = true := by simpa using hcond
        have hne : (z.erase n).ready ≠ [] := fun he => by
          have hrunk : ∀ m ∈ (z.erase n).running, type.runningKind (kind m) := fun m hm =>
            hk.running m (List.mem_of_mem_erase hm)
          rw [headIsReady_of_empty hr hrunk htied he] at hhead
          exact Bool.noConfusion hhead
        obtain ⟨m,hm⟩ := List.exists_mem_of_ne_nil _ hne
        exact iff_of_true hne (List.ne_nil_of_mem (mem_ready_erase hm))
      · exact Bool.noConfusion hb
      · rw [ready_erase_of_not_mem (hrunning hrun)]

variable (kind) in
/-- priority_tree_remove. -/
theorem priorityTreeRemove_rep (hq : TreeRep type.plain env l q Z) {blocked : Bool}
    (hn : n ∈ if blocked then (Z (env.priority n)).blocked else (Z (env.priority n)).order) :
    ∃ q', priorityTreeRemove env kind type q n blocked = some q' ∧
      TreeRep type.plain env l q' (Function.update Z (env.priority n) ((Z (env.priority n)).erase n)) ∧
      (env.ultVar n = true → KindOk type kind (Z (env.priority n)) →
        (type.plain = true ∨ blocked = true ∨ n ∈ (Z (env.priority n)).running) → HpRep q Z →
        HpRep q' (Function.update Z (env.priority n) ((Z (env.priority n)).erase n))) := by
  have hm : n ∈ (Z (env.priority n)).members := by
    cases blocked with
    | true => exact List.mem_append_right _ hn
    | false => exact List.mem_append_left _ hn
  have hn' : if blocked then n ∈ (Z (env.priority n)).blocked else n ∈ (Z (env.priority n)).order := by
    cases blocked <;> exact hn
  obtain ⟨q₁,hlook,hq₁,hp,hh₁⟩ := hq.found hm
  obtain ⟨a,b,hab⟩ := List.append_of_mem hp
  have hr := (hq₁.lists _ hp).1
  obtain ⟨hrep,hempty⟩ := priorityListRemove_rep type hr blocked hn
  have hframe := priorityListRemove_frame type hr hm blocked
  have hscope : ∀ x, (Z (env.priority n)).Scope n x → env.priority x = env.priority n := fun x hx =>
    hx.elim (fun e => e ▸ rfl) (hq₁.priority _ x)
  have hdel : ∀ x, x ∈ a ++ b ↔ x ≠ env.priority n ∧ x ∈ q₁.t.root.toList := by
    have hnd := sorted_nodup (hab ▸ hq₁.sorted)
    have hnm := (List.nodup_cons.mp (List.nodup_middle.mp hnd)).1
    intro x
    rw [hab]
    simp only [List.mem_append, List.mem_cons] at hnm ⊢
    constructor
    · rintro (hx | hx)
      · exact ⟨by rintro rfl; exact hnm (.inl hx),.inl hx⟩
      · exact ⟨by rintro rfl; exact hnm (.inr hx),.inr (.inr hx)⟩
    · rintro ⟨hne,hx | hx | hx⟩
      · exact .inl hx
      · exact absurd hx hne
      · exact .inr hx
  have hsub : (a ++ b).Pairwise (· < ·) := (hab ▸ hq₁.sorted).sublist (by simp)
  have hroot := splayTreeRemove_spec hq₁.sorted hab
  simp only [priorityTreeRemove, hlook, if_true]
  split
  · next hflag =>
    have hz := erase_eq_empty (hempty.mp hflag)
    have hdelete : ∀ q' : PriorityQueue α, q'.t.root.toList = a ++ b →
        (∀ x, x ≠ env.priority n → q'.key x = q₁.key x) → q'.l = q₁.l →
        q'.links = (priorityListRemove type q₁.links (q₁.key (env.priority n)) n blocked).1 →
        TreeRep type.plain env l q' (Function.update Z (env.priority n) ((Z (env.priority n)).erase n)) := by
      intro q' ht hkey hl hlinks
      exact hq₁.delete (ht ▸ hsub) (fun x => by rw [ht, hdel]) hkey hl (hlinks ▸ hframe) hscope hz
    cases hult : env.ultVar n with
    | true =>
      simp only [if_true]
      refine ⟨_,rfl,hdelete _ ?_ ?_ rfl rfl,fun _ _ _ hh => ?_⟩
      · simp only [PriorityQueue.storeHighest, setKey_t]
        rw [splayTreeHpListRemove_root, hroot]
      · intro x hx
        simp [PriorityQueue.storeHighest, hx]
      · obtain ⟨hmarks,hlist⟩ := splayTreeHpListRemove_marks (hh₁ hh).inv hab
        exact (hh₁ hh).delete hmarks (fun x => by rw [hlist, hdel]) rfl rfl
    | false =>
      simp only [Bool.false_eq_true, if_false]
      refine ⟨_,rfl,hdelete _ hroot ?_ rfl rfl,fun h => absurd h (by simp)⟩
      intro x hx
      simp [hx]
  · next hflag =>
    have hne : ((Z (env.priority n)).erase n).members ≠ [] := fun he => hflag (hempty.mpr he)
    have hset := hq₁.setKey (r := ((priorityListRemove type q₁.links (q₁.key (env.priority n)) n blocked).1,
      (priorityListRemove type q₁.links (q₁.key (env.priority n)) n blocked).2.1)) hp rfl hrep hframe
      (fun m hm => .inr (mem_members_erase hm)) hne
    split
    · next hcond =>
      refine ⟨_,rfl,hset.storeHighest (by simp),fun _ hk hrun hh => (hh₁ hh).mark hp ?_⟩
      have hmark := remove_mark hrep hr.rings.nodup hk hn' hrun
      simp only [Bool.and_assoc, Bool.and_eq_true] at hcond
      rw [if_pos (by simpa using hcond.2)] at hmark
      simp [hmark]
    · next hcond =>
      refine ⟨_,rfl,hset,fun hult hk hrun hh => (hh₁ hh).keep ?_⟩
      have hmark := remove_mark hrep hr.rings.nodup hk hn' hrun
      rwa [if_neg (by simpa [hult] using hcond)] at hmark

end Remove

section Insert

/-- priority_tree_insert after the transfer. -/
theorem insertInTree_rep (hq : TreeRep type.plain env l q Z) (hn : n ∉ (Z (env.priority n)).members)
    (pos : InsertType) (dependsOn blocked : Bool) {z : Zones α}
    (hz : z = (Z (env.priority n)).insert type.plain n pos dependsOn blocked) :
    ∃ q', insertInTree env type q n (env.priority n) pos dependsOn blocked = some q' ∧ q'.t.root ≠ .null ∧
      TreeRep type.plain env l q' (Function.update Z (env.priority n) z) ∧
      (env.ultVar n = true → HpRep q Z → HpRep q' (Function.update Z (env.priority n) z)) := by
  have hmem : ∀ m ∈ z.members, m = n ∨ m ∈ (Z (env.priority n)).members := by
    subst hz
    exact fun m => (mem_members_insert type.plain pos dependsOn blocked).mp
  have hself : n ∈ z.members := hz ▸ (mem_members_insert type.plain pos dependsOn blocked).mpr (.inl rfl)
  have hready : blocked = false → z.ready ≠ [] := by
    rintro rfl
    exact hz ▸ ready_insert type.plain pos dependsOn
  by_cases hp : env.priority n ∈ q.t.root.toList
  · obtain ⟨m,hm⟩ := List.exists_mem_of_ne_nil _ (hq.lists _ hp).2
    obtain ⟨q₁,hlook,hq₁,hp₁,hh₁⟩ := hq.found hm
    have hr := (hq₁.lists _ hp₁).1
    have hset := hq₁.setKey hp₁ rfl (hz ▸ priorityListInsert_rep type hr hn pos dependsOn blocked)
      (priorityListInsert_frame type hr pos dependsOn blocked) hmem (List.ne_nil_of_mem hself)
    have hroot : q₁.t.root ≠ .null := fun e => by simp [e] at hp₁
    simp only [insertInTree, hlook, if_true]
    split
    · next hcond =>
      simp only [Bool.and_eq_true, Bool.not_eq_true'] at hcond
      refine ⟨_,rfl,by simpa [PriorityQueue.storeHighest] using hroot,?_,fun _ hh => ?_⟩
      · exact hset.storeHighest (splayTreeHpListMarkNode_root _ _ true)
      · exact (hh₁ hh).mark hp₁ (by simp [hready hcond.2])
    · next hcond =>
      refine ⟨_,rfl,hroot,hset,fun hult hh => (hh₁ hh).keep ?_⟩
      obtain rfl : blocked = true := by simpa [hult] using hcond
      rw [hz, ready_insert_blocked]
  · obtain ⟨q₁,hlook,hq₁,hp₁,hh₁⟩ := hq.notFound hp
    have hZ := hq.others _ hp
    have hr : Rep type.plain q₁.links (PriorityList.empty (env.priority n)) (Z (env.priority n)) :=
      hZ ▸ rep_empty type.plain q₁.links _
    have hrep : Rep type.plain _ _ z := hz ▸ priorityListInsert_rep type hr hn pos dependsOn blocked
    have hframe := priorityListInsert_frame (n := n) type hr pos dependsOn blocked
    have hmem' : ∀ m ∈ z.members, m = n := fun m hm =>
      (hmem m hm).resolve_right (by rw [hZ]; exact mem_members_empty)
    obtain ⟨t,ht,hs,hnull,hkeys⟩ := splayTreeInsert_spec hq₁.sorted hp₁
    simp only [insertInTree, hlook, Bool.false_eq_true, if_false]
    cases hult : env.ultVar n with
    | true =>
      have hroots := splayTreeHpListInsert_root q₁.t (env.priority n) (!blocked)
      rw [ht, Option.map_some, Option.map_eq_some_iff] at hroots
      obtain ⟨sp,hsp,hroot⟩ := hroots
      simp only [if_true, hsp, Option.map_some]
      refine ⟨_,rfl,?_,?_,fun _ hh => ?_⟩
      · rw [setKey_t]
        exact hroot ▸ hnull
      · refine hq₁.newKey ?_ ?_ rfl rfl rfl ?_ ?_ hmem' (List.ne_nil_of_mem hself)
        · exact hroot ▸ hs
        · exact hroot ▸ hkeys
        · simpa [PriorityQueue.storeHighest] using hrep
        · simpa [PriorityQueue.storeHighest, hZ] using hframe
      · obtain ⟨sp',hsp',hmarks,hret,-,hkeys'⟩ := splayTreeHpListInsert_marks (hh₁ hh).inv hp₁ (!blocked)
        obtain rfl : sp = sp' := Option.some.inj (hsp.symm.trans hsp')
        refine (hh₁ hh).place hmarks hkeys' rfl ?_ ?_
        · cases blocked with
          | true => simp [PriorityQueue.storeHighest, hret]
          | false => simp [PriorityQueue.storeHighest]
        · cases blocked with
          | true =>
            rw [hz, ready_insert_blocked, hZ]
            simp [Zones.empty, Zones.ready]
          | false => simp [hready]
    | false =>
      simp only [Bool.false_eq_true, if_false, ht, Option.map_some]
      refine ⟨_,rfl,hnull,?_,fun h => absurd h (by simp)⟩
      refine hq₁.newKey hs hkeys rfl rfl rfl ?_ ?_ hmem' (List.ne_nil_of_mem hself)
      · simpa using hrep
      · simpa [hZ] using hframe

/-- priority_tree_insert_running after the transfer: a running task does not mark the node. -/
theorem insertRunningInTree_rep (hq : TreeRep false env l q Z) (hn : n ∉ (Z (env.priority n)).members)
    {z : Zones α} (hz : z = (Z (env.priority n)).insertRunning n) :
    ∃ q', insertRunningInTree env q n (env.priority n) = some q' ∧ q'.t.root ≠ .null ∧
      TreeRep false env l q' (Function.update Z (env.priority n) z) ∧
      (env.ultVar n = true → HpRep q Z → HpRep q' (Function.update Z (env.priority n) z)) := by
  have hmem : ∀ m ∈ z.members, m = n ∨ m ∈ (Z (env.priority n)).members := by
    subst hz
    exact fun m => mem_members_insertRunning.mp
  have hself : n ∈ z.members := hz ▸ mem_members_insertRunning.mpr (.inl rfl)
  have hready : z.ready = (Z (env.priority n)).ready := by rw [hz]; rfl
  by_cases hp : env.priority n ∈ q.t.root.toList
  · obtain ⟨m,hm⟩ := List.exists_mem_of_ne_nil _ (hq.lists _ hp).2
    obtain ⟨q₁,hlook,hq₁,hp₁,hh₁⟩ := hq.found hm
    have hr := (hq₁.lists _ hp₁).1
    have hset := hq₁.setKey hp₁ rfl (hz ▸ priorityListInsertRunning_rep hr hn)
      (priorityListInsertRunning_frame hr) hmem (List.ne_nil_of_mem hself)
    have hroot : q₁.t.root ≠ .null := fun e => by simp [e] at hp₁
    simp only [insertRunningInTree, hlook, if_true]
    exact ⟨_,rfl,hroot,hset,fun _ hh => (hh₁ hh).keep (by rw [hready])⟩
  · obtain ⟨q₁,hlook,hq₁,hp₁,hh₁⟩ := hq.notFound hp
    have hZ := hq.others _ hp
    have hr : Rep false q₁.links (PriorityList.empty (env.priority n)) (Z (env.priority n)) :=
      hZ ▸ rep_empty false q₁.links _
    have hrep : Rep false _ _ z := hz ▸ priorityListInsertRunning_rep hr hn
    have hframe := priorityListInsertRunning_frame (n := n) hr
    have hmem' : ∀ m ∈ z.members, m = n := fun m hm =>
      (hmem m hm).resolve_right (by rw [hZ]; exact mem_members_empty)
    obtain ⟨t,ht,hs,hnull,hkeys⟩ := splayTreeInsert_spec hq₁.sorted hp₁
    simp only [insertRunningInTree, hlook, Bool.false_eq_true, if_false]
    cases hult : env.ultVar n with
    | true =>
      have hroots := splayTreeHpListInsert_root q₁.t (env.priority n) false
      rw [ht, Option.map_some, Option.map_eq_some_iff] at hroots
      obtain ⟨sp,hsp,hroot⟩ := hroots
      simp only [if_true, hsp, Option.map_some]
      refine ⟨_,rfl,?_,?_,fun _ hh => ?_⟩
      · rw [setKey_t]
        exact hroot ▸ hnull
      · refine hq₁.newKey ?_ ?_ rfl rfl rfl ?_ ?_ hmem' (List.ne_nil_of_mem hself)
        · exact hroot ▸ hs
        · exact hroot ▸ hkeys
        · simpa using hrep
        · simpa [hZ] using hframe
      · obtain ⟨sp',hsp',hmarks,hret,-,hkeys'⟩ := splayTreeHpListInsert_marks (hh₁ hh).inv hp₁ false
        obtain rfl : sp = sp' := Option.some.inj (hsp.symm.trans hsp')
        refine (hh₁ hh).place hmarks hkeys' rfl ?_ ?_
        · simp [hret]
        · rw [hready, hZ]
          simp [Zones.empty, Zones.ready]
    | false =>
      simp only [Bool.false_eq_true, if_false, ht, Option.map_some]
      refine ⟨_,rfl,hnull,?_,fun h => absurd h (by simp)⟩
      refine hq₁.newKey hs hkeys rfl rfl rfl ?_ ?_ hmem' (List.ne_nil_of_mem hself)
      · simpa using hrep
      · simpa [hZ] using hframe

/-- What the transfer of the priority 0 items relies on: no blocked task without a ready or
running one, and no boundary pointer that would stay behind. -/
def TransferOk (q : PriorityQueue α) : Prop :=
  (q.l.blockedTasks ≠ none → q.l.tasks ≠ none) ∧ q.l.lastParentDependsOn = none ∧ q.l.firstRunningTask = none

instance (q : PriorityQueue α) : Decidable (TransferOk q) :=
  inferInstanceAs (Decidable ((q.l.blockedTasks ≠ none → q.l.tasks ≠ none) ∧ _ ∧ _))

omit [DecidableEq α] in
private theorem zones_empty_of_rep {plain : Bool} {h : Links α} {list : PriorityList α} {z : Zones α}
    (hr : Rep plain h list z) (ht : list.tasks = none) (hb : list.blockedTasks = none) : z = Zones.empty := by
  have ho := List.head?_eq_none_iff.mp (hr.tasks.symm.trans ht)
  have hbl := List.head?_eq_none_iff.mp (hr.blockedTasks.symm.trans hb)
  obtain ⟨hd,hw,hrun⟩ := Zones.order_eq_nil.mp ho
  cases z
  simp_all [Zones.empty]

variable (kind) in
omit [DecidableEq α] in
/-- The transfer turns list mode into tree mode. -/
theorem transferPriorityZero_rep {plain : Bool} (hq : ListRep plain env q Z) (hok : TransferOk q) (n : α) :
    ∃ q', transferPriorityZero env kind q n = some q' ∧ TreeRep plain env q'.l q' Z ∧ q'.l.Cleared := by
  obtain ⟨hblocked,hlast,hfirst⟩ := hok
  simp only [transferPriorityZero, hq.root, if_true]
  cases ht : q.l.tasks with
  | none =>
    have hb : q.l.blockedTasks = none := by
      by_contra hne
      exact hblocked hne ht
    have hz : ∀ p, Z p = Zones.empty := by
      intro p
      by_cases e : p = 0
      · exact e ▸ zones_empty_of_rep hq.list ht hb
      · exact hq.others p e
    refine ⟨q,rfl,⟨?_,?_,fun p _ => hz p,hq.priority,rfl⟩,ht,hb,hlast,hfirst⟩
    · simp [hq.root]
    · simp [hq.root]
  | some first =>
    have hr : ∀ q' : PriorityQueue α, q'.t.root = .node .null 0 .null → q'.links = q.links →
        q'.key 0 = { q.l with priority := 0, tasks := some first } →
        TreeRep plain env q'.l q' Z := by
      intro q' htree hlinks hkey
      refine ⟨by simp [htree],?_,?_,hq.priority,rfl⟩
      · intro p hp
        obtain rfl : p = 0 := by simpa [htree] using hp
        have hl := hq.list
        rw [hlinks, hkey]
        exact ⟨⟨hl.rings,ht ▸ hl.tasks,hl.lastParentDependsOn,hl.firstRunningTask,hl.blockedTasks,hl.plainZones⟩,
          List.ne_nil_of_mem (hl.tasks_mem ht)⟩
      · intro p hp
        exact hq.others p (by simpa [htree] using hp)
    have hsplay : (q.t.splay 0).root = .null := by simp [SplayTree.splay, splayTreeSplay, hq.root]; rfl
    simp only
    split
    · simp only [splayTreeHpListInsert, hsplay, Option.map_some]
      exact ⟨_,rfl,hr _ (place_root _ _ _ _ _) rfl (by simp),rfl,rfl,hlast,hfirst⟩
    · simp only [splayTreeInsert, hsplay, Option.map_some]
      exact ⟨_,rfl,hr _ rfl rfl (by simp),rfl,rfl,hlast,hfirst⟩

end Insert

end GompUlt.Queue
