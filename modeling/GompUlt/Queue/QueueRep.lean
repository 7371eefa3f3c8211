import GompUlt.Queue.HpList
import GompUlt.Queue.ListFrame
import GompUlt.Queue.PriorityQueue

/-! # A priority_queue stands for a map from priorities to zones

In tree mode every tree node holds the zones of its priority and the list head->l stays
as it was left, cleared.  In list mode head->l holds priority 0 and there is nothing else.
-/
namespace GompUlt.Queue
open LinkRing

variable {α : Type*}

/-- Tree mode, with head->l as it was when the mode began.  The tree may be empty: then so is
the queue. -/
structure TreeRep (plain : Bool) (env : TaskEnv α) (l : PriorityList α) (q : PriorityQueue α)
    (Z : ℤ → Zones α) : Prop where
  sorted : q.t.root.toList.Pairwise (· < ·)
  lists : ∀ p ∈ q.t.root.toList, Rep plain q.links (q.key p) (Z p) ∧ (Z p).members ≠ []
  others : ∀ p ∉ q.t.root.toList, Z p = Zones.empty
  priority : ∀ p, ∀ n ∈ (Z p).members, env.priority n = p
  l_eq : q.l = l

/-- List mode. -/
structure ListRep (plain : Bool) (env : TaskEnv α) (q : PriorityQueue α) (Z : ℤ → Zones α) : Prop where
  root : q.t.root = .null
  list : Rep plain q.links q.l (Z 0)
  others : ∀ p, p ≠ 0 → Z p = Zones.empty
  priority : ∀ p, ∀ n ∈ (Z p).members, env.priority n = p

/-- A list none of whose pointers points anywhere. -/
def PriorityList.Cleared (l : PriorityList α) : Prop :=
  l.tasks = none ∧ l.blockedTasks = none ∧ l.lastParentDependsOn = none ∧ l.firstRunningTask = none

def QueueRep (plain : Bool) (env : TaskEnv α) (q : PriorityQueue α) (Z : ℤ → Zones α) : Prop :=
  if q.t.root = .null then ListRep plain env q Z else TreeRep plain env q.l q Z ∧ q.l.Cleared

variable {plain : Bool} {env : TaskEnv α} {l : PriorityList α} {q q' : PriorityQueue α} {Z : ℤ → Zones α}
  {n : α} {p : ℤ}

theorem mem_members_empty : n ∉ (Zones.empty : Zones α).members := by simp [Zones.empty, Zones.members, Zones.order]

/-- An emptied tree leaves a list without tasks. -/
theorem TreeRep.queueRep (hq : TreeRep plain env l q Z) (hl : l.Cleared) : QueueRep plain env q Z := by
  unfold QueueRep
  rw [← hq.l_eq] at hl
  split
  · next hroot =>
    have hz : ∀ p, Z p = Zones.empty := fun p => hq.others p (by simp [hroot])
    obtain ⟨h1,h2,h3,h4⟩ := hl
    refine ⟨hroot,?_,fun p _ => hz p,hq.priority⟩
    rw [hz 0]
    refine ⟨Rings.nil_left isRing_nil,?_,?_,?_,?_,?_⟩ <;> simp [Zones.empty, Zones.order, h1, h2, h3, h4]
  · exact ⟨⟨hq.sorted,hq.lists,hq.others,hq.priority,rfl⟩,hl⟩

theorem ListRep.queueRep (hq : ListRep plain env q Z) : QueueRep plain env q Z := by
  rw [QueueRep, if_pos hq.root]
  exact hq

theorem QueueRep.treeRep (hq : QueueRep plain env q Z) (hroot : q.t.root ≠ .null) :
    TreeRep plain env q.l q Z ∧ q.l.Cleared := by
  rwa [QueueRep, if_neg hroot] at hq

theorem QueueRep.listRep (hq : QueueRep plain env q Z) (hroot : q.t.root = .null) : ListRep plain env q Z := by
  rwa [QueueRep, if_pos hroot] at hq

theorem QueueRep.priority (hq : QueueRep plain env q Z) (hn : n ∈ (Z p).members) : env.priority n = p := by
  by_cases hroot : q.t.root = .null
  · exact (hq.listRep hroot).priority p n hn
  · exact (hq.treeRep hroot).1.priority p n hn

/-- The list in which the code looks for the tasks of a priority. -/
def lookupList (q : PriorityQueue α) (priority : ℤ) : Option (PriorityList α) :=
  if q.t.root = .null then some q.l
  else if priority ∈ q.t.root.toList then some (q.key priority) else none

theorem QueueRep.lookup (hq : QueueRep plain env q Z) (hn : n ∈ (Z p).members) :
    ∃ list, lookupList q p = some list ∧ Rep plain q.links list (Z p) := by
  unfold lookupList
  split
  · next hroot =>
    have hl := hq.listRep hroot
    have hp : p = 0 := by
      by_contra hne
      rw [hl.others p hne] at hn
      exact mem_members_empty hn
    exact ⟨_,rfl,hp ▸ hl.list⟩
  · next hroot =>
    have ht := (hq.treeRep hroot).1
    have hp : p ∈ q.t.root.toList := by
      by_contra hne
      rw [ht.others p hne] at hn
      exact mem_members_empty hn
    rw [if_pos hp]
    exact ⟨_,rfl,(ht.lists p hp).1⟩

section Tree

/-- What the tree mode says depends on the order of the keys only, not on the shape. -/
theorem TreeRep.congr (hq : TreeRep plain env l q Z) (ht : q'.t.root.toList = q.t.root.toList)
    (hlinks : q'.links = q.links) (hkey : q'.key = q.key) (hl : q'.l = q.l) : TreeRep plain env l q' Z := by
  refine ⟨ht ▸ hq.sorted,?_,ht ▸ hq.others,hq.priority,hl.trans hq.l_eq⟩
  intro p hp
  rw [hlinks, hkey]
  exact hq.lists p (ht ▸ hp)

/-- A change of the list of one priority, which may be new in the tree. -/
theorem TreeRep.update (hq : TreeRep plain env l q Z) {z : Zones α} {S : α → Prop}
    (hs : q'.t.root.toList.Pairwise (· < ·))
    (hkeys : ∀ x, x ∈ q'.t.root.toList ↔ x = p ∨ x ∈ q.t.root.toList) (hkey : ∀ x, x ≠ p → q'.key x = q.key x)
    (hl : q'.l = q.l) (hframe : AgreeOff S q.links q'.links) (hS : ∀ a, S a → env.priority a = p)
    (hrep : Rep plain q'.links (q'.key p) z) (hne : z.members ≠ [])
    (hz : ∀ m ∈ z.members, env.priority m = p) : TreeRep plain env l q' (Function.update Z p z) := by
  refine ⟨hs,?_,?_,?_,hl.trans hq.l_eq⟩
  · intro x hx
    by_cases e : x = p
    · subst e
      rw [Function.update_self]
      exact ⟨hrep,hne⟩
    · have hx' := ((hkeys x).mp hx).resolve_left e
      rw [Function.update_of_ne e, hkey x e]
      obtain ⟨hr,hm⟩ := hq.lists x hx'
      exact ⟨hr.frame hframe fun a ha hs => e ((hq.priority x a ha).symm.trans (hS a hs)),hm⟩
  · intro x hx
    rw [hkeys, not_or] at hx
    rw [Function.update_of_ne hx.1]
    exact hq.others x hx.2
  · intro x m hm
    by_cases e : x = p
    · subst e
      rw [Function.update_self] at hm
      exact hz m hm
    · rw [Function.update_of_ne e] at hm
      exact hq.priority x m hm

/-- The removal of a priority whose last task is gone. -/
theorem TreeRep.delete (hq : TreeRep plain env l q Z) {S : α → Prop}
    (hs : q'.t.root.toList.Pairwise (· < ·))
    (hkeys : ∀ x, x ∈ q'.t.root.toList ↔ x ≠ p ∧ x ∈ q.t.root.toList) (hkey : ∀ x, x ≠ p → q'.key x = q.key x)
    (hl : q'.l = q.l) (hframe : AgreeOff S q.links q'.links) (hS : ∀ a, S a → env.priority a = p)
    {z : Zones α} (hz : z = Zones.empty) : TreeRep plain env l q' (Function.update Z p z) := by
  subst hz
  refine ⟨hs,?_,?_,?_,hl.trans hq.l_eq⟩
  · intro x hx
    obtain ⟨e,hx⟩ := (hkeys x).mp hx
    rw [Function.update_of_ne e, hkey x e]
    obtain ⟨hr,hm⟩ := hq.lists x hx
    exact ⟨hr.frame hframe fun a ha hs => e ((hq.priority x a ha).symm.trans (hS a hs)),hm⟩
  · intro x hx
    by_cases e : x = p
    · rw [e, Function.update_self]
    · rw [Function.update_of_ne e]
      exact hq.others x fun hm => hx ((hkeys x).mpr ⟨e,hm⟩)
  · intro x m hm
    by_cases e : x = p
    · subst e
      rw [Function.update_self] at hm
      exact absurd hm mem_members_empty
    · rw [Function.update_of_ne e] at hm
      exact hq.priority x m hm

end Tree

/-- A change of the one list of list mode. -/
theorem ListRep.update (hq : ListRep plain env q Z) {z : Zones α} (hroot : q'.t.root = .null)
    (hrep : Rep plain q'.links q'.l z) (hz : ∀ m ∈ z.members, env.priority m = 0) :
    ListRep plain env q' (Function.update Z 0 z) := by
  refine ⟨hroot,by simpa using hrep,fun p hp => ?_,fun p m hm => ?_⟩
  · rw [Function.update_of_ne hp]
    exact hq.others p hp
  · by_cases e : p = 0
    · subst e
      rw [Function.update_self] at hm
      exact hz m hm
    · rw [Function.update_of_ne e] at hm
      exact hq.priority p m hm

/-- The one list of list mode replaced by another one. -/
theorem ListRep.setL {r : Links α × PriorityList α} {z : Zones α} (hq : ListRep plain env q Z)
    (hn : env.priority n = 0) (hr : Rep plain r.1 r.2 z) (hz : ∀ m ∈ z.members, m = n ∨ m ∈ (Z 0).members) :
    ListRep plain env (q.setL r) (Function.update Z 0 z) :=
  hq.update hq.root hr fun m hm => (hz m hm).elim (fun e => e ▸ hn) (hq.priority 0 m)

/-- A lookup only splays. -/
theorem priorityQueueLookupPriority_spec (hs : q.t.root.toList.Pairwise (· < ·)) (p : ℤ) :
    (priorityQueueLookupPriority q p).1 = { q with t := (priorityQueueLookupPriority q p).1.t } ∧
    (priorityQueueLookupPriority q p).1.t.root.toList = q.t.root.toList ∧
    ((priorityQueueLookupPriority q p).2 = true ↔ p ∈ q.t.root.toList) := by
  unfold priorityQueueLookupPriority
  split
  · next hroot => simp [hroot]
  · obtain ⟨h1,h2⟩ := splayTreeLookup_spec hs p
    exact ⟨rfl,h1,h2⟩

/-- The tasks of one priority that wait to be run. -/
def Zones.ready (z : Zones α) : List α := z.dependsOn ++ z.waiting

/-- The HP-LIST is right: a tree node is marked when it has a task that waits to be run, and
highest_priority is the key of the highest marked one. -/
structure HpRep (q : PriorityQueue α) (Z : ℤ → Zones α) : Prop where
  inv : HpInv q.t
  highest : q.highestPriority = q.t.highestMarked.getD 0
  marked : ∀ p ∈ q.t.root.toList, q.t.marked p = true ↔ (Z p).ready ≠ []

theorem HpRep.lookup (hh : HpRep q Z) (p : ℤ) : HpRep (priorityQueueLookupPriority q p).1 Z := by
  unfold priorityQueueLookupPriority
  split
  · exact hh
  · refine ⟨hh.inv.splay p,hh.highest,fun x hx => hh.marked x ?_⟩
    rwa [← splay_toList hh.inv.sorted p]

section SetKey
variable {r : Links α × PriorityList α} {z : Zones α}

@[simp] theorem setKey_t : (q.setKey p r).t = q.t := rfl
@[simp] theorem setKey_l : (q.setKey p r).l = q.l := rfl
@[simp] theorem setKey_links : (q.setKey p r).links = r.1 := rfl
@[simp] theorem setKey_key : (q.setKey p r).key = Function.update q.key p r.2 := rfl
@[simp] theorem setKey_highestPriority : (q.setKey p r).highestPriority = q.highestPriority := rfl

/-- The list of a priority of the tree replaced by another one. -/
theorem TreeRep.setKey (hq : TreeRep plain env l q Z) (hp : p ∈ q.t.root.toList) (hn : env.priority n = p)
    (hr : Rep plain r.1 r.2 z) (hframe : AgreeOff ((Z p).Scope n) q.links r.1)
    (hz : ∀ m ∈ z.members, m = n ∨ m ∈ (Z p).members) (hne : z.members ≠ []) :
    TreeRep plain env l (q.setKey p r) (Function.update Z p z) := by
  have hprio : ∀ a, (Z p).Scope n a → env.priority a = p := fun a ha =>
    ha.elim (fun e => e ▸ hn) (hq.priority p a)
  refine hq.update hq.sorted ?_ ?_ rfl hframe hprio ?_ hne fun m hm => hprio m (hz m hm)
  · intro x
    refine ⟨fun hx => .inr hx,fun hx => ?_⟩
    rcases hx with rfl | hx
    · exact hp
    · exact hx
  · intro x hx
    simp [hx]
  · simpa using hr

/-- The store of highest_priority changes no list. -/
theorem TreeRep.storeHighest {t : SplayTree ℤ × Bool} (hq : TreeRep plain env l q Z) (ht : t.1.root = q.t.root) :
    TreeRep plain env l (q.storeHighest t) Z := by
  have hl : (q.storeHighest t).t.root.toList = q.t.root.toList := by simp [PriorityQueue.storeHighest, ht]
  exact hq.congr hl rfl rfl rfl

/-- New zones of one priority with the mark they had. -/
theorem HpRep.keep (hh : HpRep q Z) (hm : z.ready ≠ [] ↔ (Z p).ready ≠ []) :
    HpRep (q.setKey p r) (Function.update Z p z) := by
  refine ⟨hh.inv,hh.highest,fun x hx => ?_⟩
  rw [setKey_t] at hx ⊢
  rw [hh.marked x hx]
  by_cases e : x = p
  · subst e
    rw [Function.update_self, hm]
  · rw [Function.update_of_ne e]

/-- New zones of one priority whose node is marked accordingly. -/
theorem HpRep.mark (hh : HpRep q Z) (hp : p ∈ q.t.root.toList) {b : Bool} (hm : z.ready ≠ [] ↔ b = true) :
    HpRep ((q.setKey p r).storeHighest (splayTreeHpListMarkNode q.t p b)) (Function.update Z p z) := by
  have hmarks := splayTreeHpListMarkNode_marks hh.inv hp b
  refine ⟨hmarks.inv,?_,fun x hx => ?_⟩
  · simp only [PriorityQueue.storeHighest, setKey_highestPriority]
    split
    · rfl
    · next hret => rw [hmarks.ret (by simpa using hret), hh.highest]
  · simp only [PriorityQueue.storeHighest, splayTreeHpListMarkNode_root] at hx ⊢
    rw [hmarks.marked_eq]
    by_cases e : x = p
    · subst e
      rw [Function.update_self, Function.update_self, hm]
    · rw [Function.update_of_ne e, Function.update_of_ne e, hh.marked x hx]

/-- A priority new in the tree, marked when its first task waits to be run. -/
theorem HpRep.place {sp : SplayTree ℤ × Bool} {b : Bool} (hh : HpRep q Z)
    (hm : Marks q.t (Function.update q.t.marked p b) sp)
    (hkeys : ∀ x, x ∈ sp.1.root.toList ↔ x = p ∨ x ∈ q.t.root.toList) (ht : q'.t = sp.1)
    (hhigh : q'.highestPriority = if sp.2 then sp.1.highestMarked.getD 0 else q.highestPriority)
    (hz : z.ready ≠ [] ↔ b = true) : HpRep q' (Function.update Z p z) := by
  refine ⟨ht ▸ hm.inv,?_,fun x hx => ?_⟩
  · rw [hhigh, ht]
    split
    · rfl
    · next hret => rw [hm.ret (by simpa using hret), hh.highest]
  · rw [ht, hkeys] at hx
    rw [ht, hm.marked_eq]
    by_cases e : x = p
    · subst e
      rw [Function.update_self, Function.update_self, hz]
    · rw [Function.update_of_ne e, Function.update_of_ne e, hh.marked x (hx.resolve_left e)]

/-- A priority taken out of the tree. -/
theorem HpRep.delete {sp : SplayTree ℤ × Bool} (hh : HpRep q Z) (hm : Marks q.t q.t.marked sp)
    (hkeys : ∀ x, x ∈ sp.1.root.toList ↔ x ≠ p ∧ x ∈ q.t.root.toList) (ht : q'.t = sp.1)
    (hhigh : q'.highestPriority = if sp.2 then sp.1.highestMarked.getD 0 else q.highestPriority) :
    HpRep q' (Function.update Z p z) := by
  refine ⟨ht ▸ hm.inv,?_,fun x hx => ?_⟩
  · rw [hhigh, ht]
    split
    · rfl
    · next hret => rw [hm.ret (by simpa using hret), hh.highest]
  · rw [ht, hkeys] at hx
    rw [ht, hm.marked_eq, Function.update_of_ne hx.1, hh.marked x hx.2]

end SetKey

section Counters
variable {d : ℤ}

theorem TreeRep.addWaiting (hq : TreeRep plain env l q Z) : TreeRep plain env l (q.addWaiting d) Z :=
  hq.congr rfl rfl rfl rfl

theorem TreeRep.addNodes (hq : TreeRep plain env l q Z) : TreeRep plain env l (q.addNodes d) Z :=
  hq.congr rfl rfl rfl rfl

theorem ListRep.addWaiting (hq : ListRep plain env q Z) : ListRep plain env (q.addWaiting d) Z :=
  ⟨hq.root,hq.list,hq.others,hq.priority⟩

theorem ListRep.addNodes (hq : ListRep plain env q Z) : ListRep plain env (q.addNodes d) Z :=
  ⟨hq.root,hq.list,hq.others,hq.priority⟩

theorem HpRep.addWaiting (hh : HpRep q Z) : HpRep (q.addWaiting d) Z := ⟨hh.inv,hh.highest,hh.marked⟩
theorem HpRep.addNodes (hh : HpRep q Z) : HpRep (q.addNodes d) Z := ⟨hh.inv,hh.highest,hh.marked⟩

end Counters

end GompUlt.Queue
