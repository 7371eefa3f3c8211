import GompUlt.Queue.HighestPriority

/-! # The next task of one or of two queues

priority_queue_next_task looks at the heads of the lists only.  That is enough where every
list has its WAITING members before its other ones, which the operations on the queues see to.
-/
namespace GompUlt.Queue
open Run

variable {α : Type*}

section Model
variable (env : TaskEnv α) (kind : α → TaskKind) (parentDependsOn : α → Bool)

/-- The recursion of priority_tree_next_task_1 and priority_tree_next_suspended_task.  The goto becomes a second
call, on the left subtree. -/
def treeSearch (head : ℤ → Option α) : Tree ℤ → Option α
  | .null => none
  | .node left k right =>
    match treeSearch head right with
    | some ret => some ret
    | none =>
      match head k with
      | some ret => some ret
      | none => treeSearch head left

/-- The first task of a list, if there is one and it is WAITING. -/
def waitingHead (l : PriorityList α) : Option α := l.tasks.filter fun task => kind task = .waiting

def priorityTreeNextTask1 (key : ℤ → PriorityList α) (node : Tree ℤ) : Option α :=
  treeSearch (fun priority => waitingHead kind (key priority)) node

def priorityTreeNextSuspendedTask (key : ℤ → PriorityList α) (node : Tree ℤ) : Option α :=
  treeSearch (fun priority => (key priority).tasks) node

/-- The comparison of the two tasks found, with *Q1_CHOSEN_P, which priority_tree_next_task and
priority_queue_next_task both end with. -/
def chooseTask : Option α → Option α → Option α × Bool
  | some task1, some task2 =>
    if env.priority task2 > env.priority task1 ||
        (env.priority task2 = env.priority task1 && parentDependsOn task2 && !parentDependsOn task1) then
      (some task2,false)
    else (some task1,true)
  | some task1, none => (some task1,true)
  | none, some task2 => (some task2,false)
  | none, none => (none,true)

def priorityTreeNextTask (q1 : PriorityQueue α) (q2 : Option (PriorityQueue α)) : Option α × Bool :=
  let t1 := priorityTreeNextTask1 kind q1.key q1.t.root
  let t2 := q2.bind fun q2 => priorityTreeNextTask1 kind q2.key q2.t.root
  chooseTask env parentDependsOn t1 t2

def priorityQueueNextTask [DecidableEq α] (q1 : PriorityQueue α) (q2 : Option (PriorityQueue α)) :
    Option α × Bool :=
  let b1 := priorityQueueMultiP q1
  let b2 := q2.any priorityQueueMultiP
  if b1 && b2 then priorityTreeNextTask env kind parentDependsOn q1 q2
  else
    let task1 :=
      if b1 then (priorityTreeNextTask env kind parentDependsOn q1 none).1 else waitingHead kind q1.l
    let task2 := q2.bind fun q2 =>
      if b2 then (priorityTreeNextTask env kind parentDependsOn q2 none).1 else waitingHead kind q2.l
    chooseTask env parentDependsOn task1 task2

def priorityQueueNextSuspendedTask [DecidableEq α] (q : PriorityQueue α) : Option α :=
  if priorityQueueMultiP q then priorityTreeNextSuspendedTask q.key q.t.root else q.l.tasks

end Model

/-- A member of the set with the highest priority in it. -/
def Highest (env : TaskEnv α) (s : Set α) (n : α) : Prop := n ∈ s ∧ ∀ m ∈ s, env.priority m ≤ env.priority n

/-- A queue in list or in tree mode, with its zones.  An emptied tree leaves no tasks in head->l. -/
structure Zoned (env : TaskEnv α) where
  plain : Bool
  q : PriorityQueue α
  zones : ℤ → Zones α
  rep : ListRep plain env q zones ∨ (TreeRep plain env q.l q zones ∧ (q.t.root = .null → q.l.tasks = none))

variable {env : TaskEnv α} {kind : α → TaskKind} {parentDependsOn : α → Bool}

section Search

/-- The search goes through the lists from the highest priority to the lowest. -/
theorem treeSearch_eq {head : ℤ → Option α} (t : Tree ℤ) : treeSearch head t = t.toList.reverse.findSome? head := by
  induction t with
  | null => rfl
  | node l k r ihl ihr =>
    simp only [treeSearch, Tree.toList_node, List.reverse_append, List.reverse_cons, List.findSome?_append,
      List.findSome?_cons, List.findSome?_nil, ihl, ihr]
    cases r.toList.reverse.findSome? head with
    | some ret => rfl
    | none => cases head k <;> rfl

/-- The first hit in a descending list of priorities is the highest one. -/
theorem findSome?_descending {f : ℤ → Option α} {ps : List ℤ} {n : α} (hs : ps.Pairwise (· > ·))
    (h : ps.findSome? f = some n) : ∃ p ∈ ps, f p = some n ∧ ∀ p' ∈ ps, p < p' → f p' = none := by
  obtain ⟨above,p,below,rfl,hp,hnone⟩ := List.findSome?_eq_some_iff.mp h
  refine ⟨p,by simp,hp,fun p' hp' hlt => ?_⟩
  rcases List.mem_append.mp hp' with hp' | hp'
  · exact hnone p' hp'
  · rcases List.mem_cons.mp hp' with rfl | hp'
    · omega
    · have hgt := List.rel_of_pairwise_cons (List.pairwise_append.mp hs).2.1 hp'
      omega

end Search

namespace Zoned
variable (w : Zoned env) {f : α → Bool}

/-- The first tasks of the lists that pass a test. -/
def leads (f : α → Bool) : Set α := {n | f n = true ∧ ∃ p, (w.zones p).order.head? = some n}

theorem priority_eq {n : α} {p : ℤ} (hn : n ∈ (w.zones p).members) : env.priority n = p := by
  rcases w.rep with hl | ⟨ht,-⟩
  · exact hl.priority p n hn
  · exact ht.priority p n hn

/-- A plain queue has no running zone. -/
theorem running_of_plain (hplain : w.plain = true) (p : ℤ) : (w.zones p).running = [] := by
  have hempty : w.zones p = Zones.empty → (w.zones p).running = [] := fun h => by rw [h]; rfl
  rcases w.rep with hl | ⟨ht,-⟩
  · by_cases hp : p = 0
    · exact hp ▸ (hl.list.plainZones hplain).2
    · exact hempty (hl.others p hp)
  · by_cases hp : p ∈ w.q.t.root.toList
    · exact ((ht.lists p hp).1.plainZones hplain).2
    · exact hempty (ht.others p hp)

theorem leads_of_emptyP [DecidableEq α] (h : priorityQueueEmptyP w.q = true) : w.leads f = ∅ := by
  have hq : w.q.t.root = .null ∧ w.q.l.tasks = none := by
    unfold priorityQueueEmptyP priorityQueueMultiP at h
    split at h <;> simp_all
  rw [Set.eq_empty_iff_forall_notMem]
  rintro n ⟨-,p,hn⟩
  have hempty : w.zones p ≠ Zones.empty := by
    intro he
    simp [he, Zones.empty, Zones.order] at hn
  rcases w.rep with hl | ⟨ht,-⟩
  · have hp : p = 0 := by
      by_contra hp
      exact hempty (hl.others p hp)
    rw [hp, ← hl.list.tasks, hq.2] at hn
    simp at hn
  · exact hempty (ht.others p (by simp [hq.1]))

/-- The lists in which a search looks for a first task that passes the test. -/
theorem exists_lists [DecidableEq α] (f : α → Bool) : ∃ (ps : List ℤ) (list : ℤ → PriorityList α),
    ps.Pairwise (· > ·) ∧
    (if priorityQueueMultiP w.q then treeSearch (fun p => (w.q.key p).tasks.filter f) w.q.t.root
      else w.q.l.tasks.filter f) = ps.findSome? (fun p => (list p).tasks.filter f) ∧
    (∀ p ∈ ps, (list p).tasks = (w.zones p).order.head?) ∧ ∀ p ∉ ps, (w.zones p).members = [] := by
  have hempty : ∀ {p}, w.zones p = Zones.empty → (w.zones p).members = [] := fun h => by rw [h]; rfl
  rcases w.rep with hl | ⟨ht,htasks⟩
  · have hmode : priorityQueueMultiP w.q = false := by simp [priorityQueueMultiP, hl.root]
    refine ⟨[0],fun _ => w.q.l,List.pairwise_singleton _ _,?_,?_,fun p hp => hempty (hl.others p (by simpa using hp))⟩
    · rw [hmode]
      cases h : w.q.l.tasks.filter f <;> simp [h]
    · intro p hp
      rw [List.mem_singleton.mp hp]
      exact hl.list.tasks
  · refine ⟨w.q.t.root.toList.reverse,w.q.key,List.pairwise_reverse.mpr ht.sorted,?_,?_,?_⟩
    · rw [← treeSearch_eq]
      by_cases hroot : w.q.t.root = .null
      · simp [priorityQueueMultiP, hroot, htasks hroot, treeSearch]
      · simp [priorityQueueMultiP, hroot]
    · exact fun p hp => (ht.lists p (List.mem_reverse.mp hp)).1.tasks
    · exact fun p hp => hempty (ht.others p (by simpa using hp))

theorem order_eq_nil_of_members {z : Zones α} (h : z.members = []) : z.order = [] := (List.append_eq_nil_iff.mp h).1

/-- A search yields none when no list begins with a task that passes the test, and else such a task of the
highest priority. -/
theorem search_spec [DecidableEq α] (f : α → Bool) {r : Option α}
    (hr : r = if priorityQueueMultiP w.q then treeSearch (fun p => (w.q.key p).tasks.filter f) w.q.t.root
      else w.q.l.tasks.filter f) :
    (r = none ↔ w.leads f = ∅) ∧ ∀ n, r = some n → Highest env (w.leads f) n := by
  obtain ⟨ps,list,hs,hsearch,htasks,hempty⟩ := w.exists_lists f
  have hmem : ∀ {n p}, (w.zones p).order.head? = some n → p ∈ ps := by
    intro n p hn
    by_contra hp
    simp [order_eq_nil_of_members (hempty p hp)] at hn
  have hhead : ∀ {n p}, (w.zones p).order.head? = some n → env.priority n = p := fun hn =>
    w.priority_eq (List.mem_append_left _ (List.mem_of_head? hn))
  rw [hr, hsearch]
  constructor
  · rw [List.findSome?_eq_none_iff, Set.eq_empty_iff_forall_notMem]
    constructor
    · rintro h n ⟨hf,p,hn⟩
      have := h p (hmem hn)
      rw [htasks p (hmem hn), hn] at this
      simp [hf] at this
    · intro h p hp
      rw [htasks p hp, Option.filter_eq_none_iff]
      exact fun n hn hf => h n ⟨hf,p,hn⟩
  · intro n hn
    obtain ⟨p,hp,hfound,habove⟩ := findSome?_descending hs hn
    rw [htasks p hp, Option.filter_eq_some_iff] at hfound
    refine ⟨⟨hfound.2,p,hfound.1⟩,?_⟩
    rintro m ⟨hf,p',hm⟩
    rw [hhead hfound.1, hhead hm]
    by_contra hlt
    have := habove p' (hmem hm) (by omega)
    rw [htasks p' (hmem hm), hm] at this
    simp [hf] at this

end Zoned

section Candidates
variable [DecidableEq α] (w : Zoned env)

omit [DecidableEq α] in
theorem chooseTask_none (t1 : Option α) : (chooseTask env parentDependsOn t1 none).1 = t1 := by
  cases t1 <;> rfl

/-- What priority_queue_next_task finds in one queue alone. -/
def candidate (env : TaskEnv α) (kind : α → TaskKind) (parentDependsOn : α → Bool) (q : PriorityQueue α) : Option α :=
  (priorityQueueNextTask env kind parentDependsOn q none).1

theorem candidate_eq (q : PriorityQueue α) : candidate env kind parentDependsOn q =
    if priorityQueueMultiP q then priorityTreeNextTask1 kind q.key q.t.root else waitingHead kind q.l := by
  simp only [candidate, priorityQueueNextTask, priorityTreeNextTask, Option.any_none, Bool.and_false,
    Bool.false_eq_true, if_false, Option.bind_none, chooseTask_none]

/-- Whatever the modes, the two candidates are compared. -/
theorem priorityQueueNextTask_eq (q1 : PriorityQueue α) (q2 : Option (PriorityQueue α)) :
    priorityQueueNextTask env kind parentDependsOn q1 q2 =
      chooseTask env parentDependsOn (candidate env kind parentDependsOn q1)
        (q2.bind (candidate env kind parentDependsOn)) := by
  rw [candidate_eq]
  cases q2 with
  | none =>
    simp only [priorityQueueNextTask, priorityTreeNextTask, Option.any_none, Bool.and_false,
      Bool.false_eq_true, if_false, Option.bind_none, chooseTask_none]
  | some q2 =>
    rw [Option.bind_some, candidate_eq]
    simp only [priorityQueueNextTask, priorityTreeNextTask, Option.any_some, Option.bind_some,
      Option.bind_none, chooseTask_none]
    cases priorityQueueMultiP q1 <;> cases priorityQueueMultiP q2 <;> rfl

theorem candidate_spec (kind : α → TaskKind) (parentDependsOn : α → Bool) :
    (candidate env kind parentDependsOn w.q = none ↔ w.leads (fun n => kind n = .waiting) = ∅) ∧
      ∀ n, candidate env kind parentDependsOn w.q = some n → Highest env (w.leads fun n => kind n = .waiting) n :=
  w.search_spec (fun n => kind n = .waiting) (candidate_eq w.q)

omit [DecidableEq α] in
private theorem filter_any (o : Option α) : (o.filter fun _ => true) = o := by
  cases o <;> rfl

theorem priorityQueueNextSuspendedTask_spec :
    (priorityQueueNextSuspendedTask w.q = none ↔ w.leads (fun _ => true) = ∅) ∧
      ∀ n, priorityQueueNextSuspendedTask w.q = some n → Highest env (w.leads fun _ => true) n := by
  refine w.search_spec (fun _ => true) ?_
  simp only [priorityQueueNextSuspendedTask, priorityTreeNextSuspendedTask, filter_any]

end Candidates

/-- A queue whose lists have their WAITING members first. -/
structure WaitingFirst (env : TaskEnv α) (kind : α → TaskKind) extends Zoned env where
  waitingFirst : ∀ p, (zones p).order.Pairwise fun a b => kind b = .waiting → kind a = .waiting

namespace WaitingFirst
variable (w : WaitingFirst env kind)

/-- The tasks that are WAITING and not blocked. -/
def ready : Set α := {n | kind n = .waiting ∧ ∃ p, n ∈ (w.zones p).order}

theorem leads_subset : w.leads (fun n => kind n = .waiting) ⊆ w.ready := by
  rintro n ⟨hf,p,hn⟩
  exact ⟨by simpa using hf,p,List.mem_of_head? hn⟩

/-- The list of a ready task begins with one. -/
theorem exists_lead {m : α} (hm : m ∈ w.ready) :
    ∃ n ∈ w.leads (fun n => kind n = .waiting), env.priority n = env.priority m := by
  obtain ⟨hk,p,hm⟩ := hm
  have hw := w.waitingFirst p
  have hpriority : ∀ n ∈ (w.zones p).order, env.priority n = p := fun n hn =>
    w.priority_eq (List.mem_append_left _ hn)
  cases ho : (w.zones p).order with
  | nil => simp [ho] at hm
  | cons a as =>
    rw [ho] at hw hm
    have ha : kind a = .waiting := by
      rcases List.mem_cons.mp hm with rfl | hm
      · exact hk
      · exact List.rel_of_pairwise_cons hw hm hk
    refine ⟨a,⟨by simpa using ha,p,by rw [ho]; rfl⟩,?_⟩
    rw [hpriority a (by rw [ho]; exact List.mem_cons_self), hpriority m (by rw [ho]; exact hm)]

theorem candidate_ready [DecidableEq α] (parentDependsOn : α → Bool) :
    (candidate env kind parentDependsOn w.q = none ↔ w.ready = ∅) ∧
      ∀ n, candidate env kind parentDependsOn w.q = some n → Highest env w.ready n := by
  obtain ⟨hnone,hsome⟩ := candidate_spec w.toZoned kind parentDependsOn
  constructor
  · rw [hnone, Set.eq_empty_iff_forall_notMem, Set.eq_empty_iff_forall_notMem]
    refine ⟨fun h m hm => ?_,fun h n hn => h n (w.leads_subset hn)⟩
    obtain ⟨n,hn,-⟩ := w.exists_lead hm
    exact h n hn
  · intro n hn
    obtain ⟨hlead,hhigh⟩ := hsome n hn
    refine ⟨w.leads_subset hlead,fun m hm => ?_⟩
    obtain ⟨a,ha,he⟩ := w.exists_lead hm
    exact he ▸ hhigh a ha

end WaitingFirst

/-- What a call promises for the sets of ready tasks of the two queues and their candidates. -/
structure Chosen (env : TaskEnv α) (parentDependsOn : α → Bool) (s1 s2 : Set α) (c1 c2 : Option α)
    (r : Option α × Bool) : Prop where
  none_iff : r.1 = none ↔ s1 ∪ s2 = ∅
  chosen_none : r.1 = none → r.2 = true
  highest : ∀ n, r.1 = some n → Highest env (s1 ∪ s2) n
  taken : ∀ n, r.1 = some n → if r.2 then n ∈ s1 ∧ c1 = some n else n ∈ s2 ∧ c2 = some n
  preferred : ∀ n, r.1 = some n → (∃ m ∈ s1, env.priority m = env.priority n) →
    (∃ m ∈ s2, env.priority m = env.priority n) →
    (r.2 = false ↔ c2.any parentDependsOn = true ∧ c1.any parentDependsOn = false)

/-- The comparison of two candidates each of which is right for its queue. -/
theorem chooseTask_chosen {s1 s2 : Set α} {c1 c2 : Option α} (hn1 : c1 = none ↔ s1 = ∅)
    (hh1 : ∀ n, c1 = some n → Highest env s1 n) (hn2 : c2 = none ↔ s2 = ∅)
    (hh2 : ∀ n, c2 = some n → Highest env s2 n) :
    Chosen env parentDependsOn s1 s2 c1 c2 (chooseTask env parentDependsOn c1 c2) := by
  cases c1 with
  | none =>
    obtain rfl : s1 = ∅ := hn1.mp rfl
    cases c2 with
    | none =>
      obtain rfl : s2 = ∅ := hn2.mp rfl
      constructor <;> simp [chooseTask]
    | some b =>
      have hb : Highest env s2 b := hh2 b rfl
      refine ⟨?_,by simp [chooseTask],?_,?_,?_⟩
      · simpa [chooseTask] using Set.nonempty_iff_ne_empty.mp ⟨b,hb.1⟩
      · rintro n ⟨⟩
        rwa [Set.empty_union]
      · rintro n ⟨⟩
        exact ⟨hb.1,rfl⟩
      · rintro n - ⟨m,hm,-⟩
        exact absurd hm (Set.notMem_empty m)
  | some a =>
    have ha : Highest env s1 a := hh1 a rfl
    have hne : s1 ∪ s2 ≠ ∅ := Set.nonempty_iff_ne_empty.mp ⟨a,.inl ha.1⟩
    cases c2 with
    | none =>
      obtain rfl : s2 = ∅ := hn2.mp rfl
      refine ⟨by simpa [chooseTask] using hne,fun _ => rfl,?_,?_,?_⟩
      · rintro n ⟨⟩
        rwa [Set.union_empty]
      · rintro n ⟨⟩
        exact ⟨ha.1,rfl⟩
      · rintro n - - ⟨m,hm,-⟩
        exact absurd hm (Set.notMem_empty m)
    | some b =>
      have hb : Highest env s2 b := hh2 b rfl
      rw [chooseTask]
      split
      · next hcond =>
        simp only [gt_iff_lt, Bool.or_eq_true, decide_eq_true_eq, Bool.and_eq_true, Bool.not_eq_true'] at hcond
        refine ⟨by simpa using hne,by simp,?_,?_,?_⟩
        · rintro n ⟨⟩
          refine ⟨.inr hb.1,fun m hm => hm.elim (fun hm => ?_) (hb.2 m)⟩
          have := ha.2 m hm
          omega
        · rintro n ⟨⟩
          exact ⟨hb.1,rfl⟩
        · rintro n ⟨⟩ ⟨m,hm,he⟩ -
          have := ha.2 m hm
          have htie := hcond.resolve_left (by omega)
          simp [htie.1.2, htie.2]
      · next hcond =>
        simp only [gt_iff_lt, Bool.or_eq_true, decide_eq_true_eq, Bool.and_eq_true, Bool.not_eq_true'] at hcond
        refine ⟨by simpa using hne,fun _ => rfl,?_,?_,?_⟩
        · rintro n ⟨⟩
          refine ⟨.inl ha.1,fun m hm => hm.elim (ha.2 m) fun hm => ?_⟩
          have := hb.2 m hm
          omega
        · rintro n ⟨⟩
          exact ⟨ha.1,rfl⟩
        · rintro n ⟨⟩ - ⟨m,hm,he⟩
          have := hb.2 m hm
          have heq : env.priority b = env.priority a := by omega
          simpa [heq] using hcond

variable (parentDependsOn) in
/-- The search in two queues. -/
theorem nextTask_chosen [DecidableEq α] (q1 q2 : WaitingFirst env kind) :
    Chosen env parentDependsOn q1.ready q2.ready (candidate env kind parentDependsOn q1.q)
      (candidate env kind parentDependsOn q2.q) (priorityQueueNextTask env kind parentDependsOn q1.q (some q2.q)) := by
  rw [priorityQueueNextTask_eq, Option.bind_some]
  obtain ⟨hn1,hh1⟩ := q1.candidate_ready parentDependsOn
  obtain ⟨hn2,hh2⟩ := q2.candidate_ready parentDependsOn
  exact chooseTask_chosen hn1 hh1 hn2 hh2

/-- The task priority_queue_next_task returns. -/
theorem priority_queue_next_task_chosen [DecidableEq α] (q1 : WaitingFirst env kind)
    (q2 : Option (WaitingFirst env kind)) :
    Chosen env parentDependsOn q1.ready {n | ∃ w ∈ q2, n ∈ w.ready} (candidate env kind parentDependsOn q1.q)
      (q2.bind fun w => candidate env kind parentDependsOn w.q)
      (priorityQueueNextTask env kind parentDependsOn q1.q (q2.map (·.q))) := by
  cases q2 with
  | none =>
    rw [priorityQueueNextTask_eq]
    obtain ⟨hn1,hh1⟩ := q1.candidate_ready parentDependsOn
    exact chooseTask_chosen hn1 hh1 (by simp) (by simp)
  | some q2 =>
    have hready : {n | ∃ w ∈ some q2, n ∈ w.ready} = q2.ready := by simp
    rw [hready]
    exact nextTask_chosen parentDependsOn q1 q2

section Runs
variable [DecidableEq α] {type : PQType} {s : QueueState α} {Z : ℤ → Zones α}

omit [DecidableEq α] in
theorem readyKind_waiting (htype : type.toNat < PQType.suspendedTied.toNat) {k : TaskKind}
    (hk : type.readyKind k = true) : k = .waiting := by
  rcases readyKind_cases hk with hk' | hk'
  · exact hk'
  · subst hk'
    simp [PQType.readyKind, Nat.not_le.mpr htype] at hk

omit [DecidableEq α] in
theorem KindOk.not_running {z : Zones α} (hk : KindOk type kind z) {n : α} (hn : n ∈ z.running) :
    kind n ≠ .waiting := by
  have hkind := hk.running n hn
  simp only [PQType.runningKind, Bool.and_eq_true, decide_eq_true_eq] at hkind
  exact hkind.1

omit [DecidableEq α] in
/-- The zones come in the right order. -/
theorem KindOk.waitingFirst {z : Zones α} (htype : type.toNat < PQType.suspendedTied.toNat)
    (hk : KindOk type kind z) : z.order.Pairwise fun a b => kind b = .waiting → kind a = .waiting := by
  have hready : ∀ n ∈ z.ready, kind n = .waiting := fun n hn => readyKind_waiting htype (hk.ready n hn)
  rw [show z.order = z.ready ++ z.running from rfl, List.pairwise_append]
  refine ⟨?_,?_,fun a ha _ _ _ => hready a ha⟩
  · exact List.pairwise_of_forall_mem_list fun a ha _ _ _ => hready a ha
  · exact List.pairwise_of_forall_mem_list fun _ _ b hb hw => absurd hw (hk.not_running hb)

end Runs

end GompUlt.Queue
