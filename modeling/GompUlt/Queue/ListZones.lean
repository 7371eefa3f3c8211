import GompUlt.Queue.PriorityList

/-! # The zones of a priority_list and the operations on them

What the source's comment on struct priority_list promises: a block of
parent_depends_on waiting tasks, a block of other waiting tasks, a block of running
tasks, and apart from them the blocked tasks.  Each pointer operation refines the
operation of the same name on these four lists.
-/
namespace GompUlt.Queue
open LinkRing

/-- The four zones of one priority. -/
structure Zones (α : Type*) where
  dependsOn : List α
  waiting : List α
  running : List α
  blocked : List α
  deriving DecidableEq, Repr

variable {α : Type*}

namespace Zones

def empty : Zones α := ⟨[],[],[],[]⟩

/-- The ring read from tasks. -/
def order (z : Zones α) : List α := z.dependsOn ++ z.waiting ++ z.running

def members (z : Zones α) : List α := z.order ++ z.blocked

theorem order_eq_nil {z : Zones α} : z.order = [] ↔ z.dependsOn = [] ∧ z.waiting = [] ∧ z.running = [] := by
  simp [order]

/-- A plain list has no parent_depends_on block and no running block. -/
def insert (plain : Bool) (z : Zones α) (n : α) (pos : InsertType) (dependsOn blocked : Bool) : Zones α :=
  if blocked then { z with blocked := z.blocked ++ [n] }
  else if dependsOn && !plain then
    { z with dependsOn := if pos = .insertBegin then n :: z.dependsOn else z.dependsOn ++ [n] }
  else { z with waiting := if pos = .insertBegin then n :: z.waiting else z.waiting ++ [n] }

def insertRunning (z : Zones α) (n : α) : Zones α := { z with running := z.running ++ [n] }

variable [DecidableEq α]

def erase (z : Zones α) (n : α) : Zones α :=
  ⟨z.dependsOn.erase n,z.waiting.erase n,z.running.erase n,z.blocked.erase n⟩

/-- The upgraded task closes the parent_depends_on block, unless it was the tail of the
whole ring: then it opens that block. -/
def upgrade (z : Zones α) (n : α) : Zones α :=
  { z with
    dependsOn :=
      if z.waiting.head? = some n then z.dependsOn ++ [n]
      else if z.waiting.getLast? = some n ∧ z.running = [] then n :: z.dependsOn
      else z.dependsOn ++ [n]
    waiting := z.waiting.erase n }

/-- The task about to run closes the running block, unless it was the last waiting task
and not the head: then it opens that block. -/
def downgrade (z : Zones α) (n : α) : Zones α :=
  { z with
    dependsOn := z.dependsOn.erase n
    waiting := z.waiting.erase n
    running :=
      if z.order.head? = some n then z.running ++ [n]
      else if (z.dependsOn ++ z.waiting).getLast? = some n then n :: z.running
      else z.running ++ [n] }

theorem mem_upgrade_dependsOn {z : Zones α} {n m : α} :
    m ∈ (z.upgrade n).dependsOn ↔ m = n ∨ m ∈ z.dependsOn := by
  simp only [upgrade]
  split
  · simp [or_comm]
  · split <;> simp [or_comm]

theorem mem_downgrade_running {z : Zones α} {n m : α} :
    m ∈ (z.downgrade n).running ↔ m = n ∨ m ∈ z.running := by
  simp only [downgrade]
  split
  · simp [or_comm]
  · split <;> simp [or_comm]

end Zones

/-- The pointers of a list stand for its zones. -/
structure Rep (plain : Bool) (h : Links α) (list : PriorityList α) (z : Zones α) : Prop where
  rings : Rings h z.order z.blocked
  tasks : list.tasks = z.order.head?
  lastParentDependsOn : list.lastParentDependsOn = z.dependsOn.getLast?
  firstRunningTask : list.firstRunningTask = z.running.head?
  blockedTasks : list.blockedTasks = z.blocked.head?
  plainZones : plain = true → z.dependsOn = [] ∧ z.running = []

theorem rep_empty (plain : Bool) (h : Links α) (priority : ℤ) :
    Rep plain h (PriorityList.empty priority) Zones.empty := by
  refine ⟨Rings.nil_left isRing_nil,?_,?_,?_,?_,?_⟩ <;>
    simp [Zones.empty, Zones.order, PriorityList.empty]

variable [DecidableEq α] {plain : Bool} {h : Links α} {list : PriorityList α} {z : Zones α} {n : α}

theorem insertBlocked_rep (hr : Rep plain h list z) (hn : n ∉ z.members) :
    Rep plain (insertBlocked h list n).1 (insertBlocked h list n).2 { z with blocked := z.blocked ++ [n] } := by
  have hno : n ∉ z.order := fun hm => hn (List.mem_append_left _ hm)
  have hnb : n ∉ z.blocked := fun hm => hn (List.mem_append_right _ hm)
  cases hb : z.blocked with
  | nil =>
    have hl : list.blockedTasks = none := by simp [hr.blockedTasks, hb]
    simp only [insertBlocked, hl]
    exact ⟨(Rings.selfLoop hr.rings.left hno).symm,hr.tasks,hr.lastParentDependsOn,hr.firstRunningTask,
      by simp,hr.plainZones⟩
  | cons b bs =>
    have hl : list.blockedTasks = some b := by simp [hr.blockedTasks, hb]
    simp only [insertBlocked, hl]
    have hrings : Rings h (z.blocked ++ []) z.order := by simpa using hr.rings.symm
    have hnew := hrings.insertBefore (n := n) (t := b) (by simpa using hnb) hno (by simp [hb])
    rw [hb] at hnew
    exact ⟨hnew.symm,hr.tasks,hr.lastParentDependsOn,hr.firstRunningTask,by simp [hl],hr.plainZones⟩

section Ready
variable {u v : List α}

private theorem Rep.selfLoop (hr : Rep plain h list z) (hn : n ∉ z.members) :
    Rings (h.selfLoop n) [n] z.blocked :=
  Rings.selfLoop hr.rings.right (fun hm => hn (List.mem_append_right _ hm))

private theorem Rep.spliceBefore (hr : Rep plain h list z) (hn : n ∉ z.members) {t : α}
    (ho : z.order = u ++ v) (ht : (v ++ u).head? = some t) :
    Rings (h.splice n t (h.prev t)) (u ++ n :: v) z.blocked := by
  refine Rings.insertBefore (ho ▸ hr.rings) ?_ ?_ ht
  · exact fun hm => hn (List.mem_append_left _ (ho ▸ hm))
  · exact fun hm => hn (List.mem_append_right _ hm)

private theorem Rep.spliceAfter (hr : Rep plain h list z) (hn : n ∉ z.members) {p : α}
    (ho : z.order = u ++ v) (hp : (v ++ u).getLast? = some p) :
    Rings (h.splice n (h.next p) p) (u ++ n :: v) z.blocked := by
  refine Rings.insertAfter (ho ▸ hr.rings) ?_ ?_ hp
  · exact fun hm => hn (List.mem_append_left _ (ho ▸ hm))
  · exact fun hm => hn (List.mem_append_right _ hm)

end Ready

private theorem insert_plain_rep {type : PQType} (hp : type.plain = true) (hr : Rep true h list z)
    (hn : n ∉ z.members) (pos : InsertType) (dependsOn : Bool) :
    Rep true (priorityListInsert type h list n pos dependsOn false).1
      (priorityListInsert type h list n pos dependsOn false).2 (z.insert true n pos dependsOn false) := by
  obtain ⟨hd,hrun⟩ := hr.plainZones rfl
  have ho : z.order = z.waiting := by simp [Zones.order, hd, hrun]
  simp only [priorityListInsert, Zones.insert, hp, if_true, Bool.false_eq_true, if_false, Bool.not_true,
    Bool.and_false]
  cases ht : list.tasks with
  | none =>
    have hw : z.waiting = [] := by rw [← ho]; exact List.head?_eq_none_iff.mp (hr.tasks ▸ ht)
    have hs := hr.selfLoop hn
    refine ⟨?_,?_,hr.lastParentDependsOn,hr.firstRunningTask,hr.blockedTasks,hr.plainZones⟩
    · cases pos <;> simpa [Zones.order, hd, hrun, hw] using hs
    · cases pos <;> simp [Zones.order, hd, hrun, hw]
  | some t =>
    have hh : z.waiting.head? = some t := by rw [← ho, ← hr.tasks, ht]
    cases pos with
    | insertBegin =>
      have hs := hr.spliceBefore (n := n) hn (u := []) (v := z.waiting) (by simp [ho]) (by simpa using hh)
      refine ⟨?_,?_,hr.lastParentDependsOn,hr.firstRunningTask,hr.blockedTasks,hr.plainZones⟩
      · simpa [Zones.order, hd, hrun] using hs
      · simp [Zones.order, hd]
    | insertEnd =>
      have hs := hr.spliceBefore (n := n) hn (u := z.waiting) (v := []) (by simp [ho]) (by simpa using hh)
      refine ⟨?_,?_,hr.lastParentDependsOn,hr.firstRunningTask,hr.blockedTasks,hr.plainZones⟩
      · simpa [Zones.order, hd, hrun] using hs
      · simp [Zones.order, hd, hrun, ht, hh]

/-- Insertion among the parent_depends_on tasks of a children or taskgroup list. -/
private theorem insert_dependsOn_rep {type : PQType} (hp : type.plain = false) (hr : Rep false h list z)
    (hn : n ∉ z.members) (pos : InsertType) :
    Rep false (priorityListInsert type h list n pos true false).1
      (priorityListInsert type h list n pos true false).2 (z.insert false n pos true false) := by
  have hl := hr.lastParentDependsOn
  simp only [priorityListInsert, Zones.insert, hp, if_true, Bool.false_eq_true, if_false, Bool.not_false,
    Bool.and_true]
  cases ht : list.tasks with
  | none =>
    have ho : z.order = [] := List.head?_eq_none_iff.mp (hr.tasks ▸ ht)
    obtain ⟨hd,hw,hrun⟩ := Zones.order_eq_nil.mp ho
    have hs := hr.selfLoop hn
    refine ⟨?_,?_,?_,hr.firstRunningTask,hr.blockedTasks,by simp⟩
    · cases pos <;> simpa [Zones.order, hd, hrun, hw] using hs
    · cases pos <;> simp [Zones.order, hd, hrun, hw]
    · cases pos <;> simp [hd]
  | some t =>
    have hh : z.order.head? = some t := hr.tasks ▸ ht
    have hfront := hr.spliceBefore (n := n) hn (u := []) (v := z.order) rfl (by simpa using hh)
    have hf : z.dependsOn = [] ∨ ∃ p, z.dependsOn.getLast? = some p := by
      cases hd : z.dependsOn with
      | nil => exact .inl rfl
      | cons a l => exact .inr ⟨_,List.getLast?_eq_some_getLast (by simp)⟩
    rcases hf with hd | ⟨p,hd⟩
    · rw [hl, hd]
      refine ⟨?_,?_,?_,?_,?_,by simp⟩
      · cases pos <;> simpa [Zones.order, hd] using hfront
      · cases pos <;> simp [Zones.order]
      · cases pos <;> simp
      · cases pos <;> exact hr.firstRunningTask
      · cases pos <;> exact hr.blockedTasks
    · rw [hl, hd]
      cases pos with
      | insertBegin =>
        refine ⟨?_,?_,?_,hr.firstRunningTask,hr.blockedTasks,by simp⟩
        · simpa [Zones.order] using hfront
        · simp [Zones.order]
        · simp [List.getLast?_cons, hd]
      | insertEnd =>
        have ho : z.order = z.dependsOn ++ (z.waiting ++ z.running) := by simp [Zones.order]
        have hs := hr.spliceAfter (n := n) (p := p) hn ho (by simp [List.getLast?_append, hd])
        refine ⟨?_,?_,?_,hr.firstRunningTask,hr.blockedTasks,by simp⟩
        · simpa [Zones.order] using hs
        · have hne : z.dependsOn ≠ [] := fun e => by simp [e] at hd
          simpa [Zones.order, List.head?_append_of_ne_nil _ hne, ht] using hh.symm
        · simp

/-- Insertion among the other waiting tasks of a children or taskgroup list. -/
private theorem insert_waiting_rep {type : PQType} (hp : type.plain = false) (hr : Rep false h list z)
    (hn : n ∉ z.members) (pos : InsertType) :
    Rep false (priorityListInsert type h list n pos false false).1
      (priorityListInsert type h list n pos false false).2 (z.insert false n pos false false) := by
  have hl := hr.lastParentDependsOn
  have hf := hr.firstRunningTask
  simp only [priorityListInsert, Zones.insert, hp, Bool.false_eq_true, if_false, Bool.false_and]
  cases ht : list.tasks with
  | none =>
    have ho : z.order = [] := List.head?_eq_none_iff.mp (hr.tasks ▸ ht)
    obtain ⟨hd,hw,hrun⟩ := Zones.order_eq_nil.mp ho
    have hs := hr.selfLoop hn
    refine ⟨?_,?_,hl,hf,hr.blockedTasks,by simp⟩
    · cases pos <;> simpa [Zones.order, hd, hrun, hw] using hs
    · cases pos <;> simp [Zones.order, hd, hrun, hw]
  | some t =>
    have hh : z.order.head? = some t := hr.tasks ▸ ht
    cases pos with
    | insertBegin =>
      cases hd : z.dependsOn.getLast? with
      | none =>
        have hd' : z.dependsOn = [] := List.getLast?_eq_none_iff.mp hd
        have hs := hr.spliceBefore (n := n) hn (u := []) (v := z.order) rfl (by simpa using hh)
        simp only [hl, hd]
        refine ⟨?_,?_,?_,hf,hr.blockedTasks,by simp⟩
        · simpa [Zones.order, hd'] using hs
        · simp [Zones.order, hd']
        · simp [hd]
      | some p =>
        have ho : z.order = z.dependsOn ++ (z.waiting ++ z.running) := by simp [Zones.order]
        have hs := hr.spliceAfter (n := n) (p := p) hn ho (by simp [List.getLast?_append, hd])
        have hne : z.dependsOn ≠ [] := fun e => by simp [e] at hd
        simp only [hl, hd]
        refine ⟨?_,?_,hl,hf,hr.blockedTasks,by simp⟩
        · simpa [Zones.order] using hs
        · simpa [Zones.order, List.head?_append_of_ne_nil _ hne, ht] using hh.symm
    | insertEnd =>
      cases hrun : z.running with
      | nil =>
        have ho : z.order = (z.dependsOn ++ z.waiting) ++ [] := by simp [Zones.order, hrun]
        have hs := hr.spliceBefore (n := n) (t := t) hn ho (by simpa [Zones.order, hrun] using hh)
        have hne : z.dependsOn ++ z.waiting ≠ [] := by
          intro e
          simp [ho, e] at hh
        simp only [hf, hrun, List.head?_nil]
        refine ⟨?_,?_,hl,by simp [hf, hrun],hr.blockedTasks,by simp⟩
        · simpa [Zones.order, hrun] using hs
        · rw [ht, ← hh]
          cases h1 : z.dependsOn <;> cases h2 : z.waiting <;> simp_all [Zones.order]
      | cons r rs =>
        have ho : z.order = (z.dependsOn ++ z.waiting) ++ (r :: rs) := by simp [Zones.order, hrun]
        have hs := hr.spliceBefore (n := n) (t := r) hn ho (by simp)
        simp only [hf, hrun, List.head?_cons]
        by_cases he : z.dependsOn ++ z.waiting = []
        · obtain ⟨hd,hw⟩ := List.append_eq_nil_iff.mp he
          have htr : t = r := by simpa [ho, he] using hh.symm
          rw [if_pos (by rw [htr])]
          refine ⟨?_,?_,hl,rfl,hr.blockedTasks,by simp⟩
          · simpa [Zones.order, hrun] using hs
          · simp [Zones.order, hd, hw]
        · rw [ho, List.head?_append_of_ne_nil _ he] at hh
          -- the head is a waiting task, so it is not the first running one
          have htr : t ≠ r := by
            have hnd := hr.rings.left.nodup
            rw [ho] at hnd
            exact (List.nodup_append.mp hnd).2.2 t (List.mem_of_head? hh) r (by simp)
          rw [if_neg (by simpa using htr)]
          refine ⟨?_,?_,hl,by rw [hf, hrun],hr.blockedTasks,by simp⟩
          · simpa [Zones.order, hrun] using hs
          · rw [ht, ← hh]
            cases h1 : z.dependsOn <;> cases h2 : z.waiting <;> simp_all [Zones.order]

/-- priority_list_insert refines the insertion in the zones. -/
theorem priorityListInsert_rep (type : PQType) (hr : Rep type.plain h list z) (hn : n ∉ z.members)
    (pos : InsertType) (dependsOn blocked : Bool) :
    Rep type.plain (priorityListInsert type h list n pos dependsOn blocked).1
      (priorityListInsert type h list n pos dependsOn blocked).2
      (z.insert type.plain n pos dependsOn blocked) := by
  cases blocked with
  | true =>
    simp only [priorityListInsert, Zones.insert, if_true, ite_self]
    exact insertBlocked_rep hr hn
  | false =>
    cases hp : type.plain with
    | true => exact insert_plain_rep hp (hp ▸ hr) hn pos dependsOn
    | false =>
      rw [hp] at hr
      cases dependsOn with
      | true => exact insert_dependsOn_rep hp hr hn pos
      | false => exact insert_waiting_rep hp hr hn pos

/-- priority_list_insert_running refines the insertion at the end of the running zone. -/
theorem priorityListInsertRunning_rep (hr : Rep false h list z) (hn : n ∉ z.members) :
    Rep false (priorityListInsertRunning h list n).1 (priorityListInsertRunning h list n).2
      (z.insertRunning n) := by
  have hf := hr.firstRunningTask
  simp only [priorityListInsertRunning, Zones.insertRunning]
  cases ht : list.tasks with
  | none =>
    have ho : z.order = [] := List.head?_eq_none_iff.mp (hr.tasks ▸ ht)
    obtain ⟨hd,hw,hrun⟩ := Zones.order_eq_nil.mp ho
    refine ⟨?_,?_,hr.lastParentDependsOn,?_,hr.blockedTasks,by simp⟩
    · simpa [Zones.order, hd, hw, hrun] using hr.selfLoop hn
    · simp [Zones.order, hd, hw, hrun]
    · simp [hrun]
  | some t =>
    have hh : z.order.head? = some t := hr.tasks ▸ ht
    have hne : z.order ≠ [] := fun e => by simp [e] at hh
    have hs := hr.spliceBefore (n := n) hn (u := z.order) (v := []) (by simp) (by simpa using hh)
    have ho : (Zones.mk z.dependsOn z.waiting (z.running ++ [n]) z.blocked).order = z.order ++ [n] := by
      simp [Zones.order]
    have ht' : list.tasks = (z.order ++ [n]).head? := by rw [List.head?_append_of_ne_nil _ hne, hh, ht]
    cases hrun : z.running with
    | nil =>
      rw [hrun] at ho
      simp only [hf, hrun, List.head?_nil, if_true]
      exact ⟨ho ▸ hs,ho ▸ ht ▸ ht',hr.lastParentDependsOn,rfl,hr.blockedTasks,by simp⟩
    | cons r rs =>
      rw [hrun] at ho
      simp only [hf, hrun, List.head?_cons, reduceCtorEq, if_false]
      exact ⟨ho ▸ hs,ho ▸ ht',hr.lastParentDependsOn,by simp [hf, hrun],hr.blockedTasks,by simp⟩

section Remove

omit [DecidableEq α] in
/-- What the head test and the next field say about a member of a ring. -/
private theorem ring_position {xs ys : List α} (hr : IsRing h (xs ++ n :: ys)) :
    (xs = [] ∧ ys = [] ∧ h.next n = n) ∨
    (∃ y l, xs = [] ∧ ys = y :: l ∧ h.next n = y ∧ y ≠ n) ∨
    (∃ x l, xs = x :: l ∧ x ≠ n) := by
  have hnx := hr.next_prev_mid.1
  have hnd := hr.nodup
  cases xs with
  | nil =>
    cases ys with
    | nil => exact .inl ⟨rfl,rfl,by simpa using hnx⟩
    | cons y l => exact .inr (.inl ⟨y,l,rfl,rfl,by simpa using hnx,by rintro rfl; simp at hnd⟩)
  | cons x l => exact .inr (.inr ⟨x,l,rfl,by rintro rfl; simp at hnd⟩)

/-- Removal from the blocked ring. -/
theorem remove_blocked_rep (type : PQType) (hr : Rep plain h list z) (hn : n ∈ z.blocked) :
    Rep plain (priorityListRemove type h list n true).1 (priorityListRemove type h list n true).2.1
      (z.erase n) ∧
    ((priorityListRemove type h list n true).2.2 = true ↔ (z.erase n).members = []) := by
  have hno : n ∉ z.order := fun hm => hr.rings.disjoint hn hm
  have hz : z.erase n = { z with blocked := z.blocked.erase n } := by
    simp only [Zones.order, List.mem_append, not_or] at hno
    simp [Zones.erase, List.erase_of_not_mem hno.1.1, List.erase_of_not_mem hno.1.2, List.erase_of_not_mem hno.2]
  obtain ⟨A,B,hb⟩ := List.append_of_mem hn
  have hrings : Rings h (A ++ n :: B) z.order := hb ▸ hr.rings.symm
  have hnA : n ∉ A := fun hm => (List.nodup_append.mp hrings.left.nodup).2.2 n hm n (by simp) rfl
  have he : z.blocked.erase n = A ++ B := by rw [hb, List.erase_append_right _ hnA, List.erase_cons_head]
  have hbt : list.blockedTasks = (A ++ n :: B).head? := hb ▸ hr.blockedTasks
  rw [hz, he]
  have hnew := hrings.erase.symm
  rcases ring_position hrings.left with ⟨rfl,rfl,hx⟩ | ⟨y,l,rfl,rfl,hx,hy⟩ | ⟨x,l,rfl,hx⟩
  · have hc : list.blockedTasks = some n ∧ h.next n = n := ⟨by simpa using hbt,hx⟩
    simp only [priorityListRemove, if_true, if_pos hc]
    refine ⟨⟨(Rings.nil_left hr.rings.left).symm,hr.tasks,hr.lastParentDependsOn,hr.firstRunningTask,rfl,
      hr.plainZones⟩,?_⟩
    simp [hr.tasks, Zones.members, Zones.order]
  · have hc : list.blockedTasks = some n := by simpa using hbt
    simp only [priorityListRemove, if_true, hc, hx, hy, and_false, if_false]
    refine ⟨⟨hnew,hr.tasks,hr.lastParentDependsOn,hr.firstRunningTask,by simp,hr.plainZones⟩,?_⟩
    simp [Zones.members]
  · have hc : list.blockedTasks ≠ some n := by simpa [hbt] using hx
    simp only [priorityListRemove, if_true, hc, false_and, if_false]
    refine ⟨⟨hnew,hr.tasks,hr.lastParentDependsOn,hr.firstRunningTask,by simpa using hbt,hr.plainZones⟩,?_⟩
    simp [Zones.members]

/-- Removal from the only zone of a plain list. -/
private theorem remove_plain_rep {type : PQType} (hp : type.plain = true) (hr : Rep true h list z)
    (hn : n ∈ z.order) :
    Rep true (priorityListRemove type h list n false).1 (priorityListRemove type h list n false).2.1
      (z.erase n) ∧
    ((priorityListRemove type h list n false).2.2 = true ↔ (z.erase n).members = []) := by
  obtain ⟨hd,hrun⟩ := hr.plainZones rfl
  have ho : z.order = z.waiting := by simp [Zones.order, hd, hrun]
  have hnb : n ∉ z.blocked := fun hm => hr.rings.disjoint hm hn
  have hz : z.erase n = { z with waiting := z.waiting.erase n } := by
    simp [Zones.erase, hd, hrun, List.erase_of_not_mem hnb]
  obtain ⟨A,B,hw⟩ := List.append_of_mem (ho ▸ hn)
  have hrings : Rings h (A ++ n :: B) z.blocked := hw ▸ ho ▸ hr.rings
  have hnA : n ∉ A := fun hm => (List.nodup_append.mp hrings.left.nodup).2.2 n hm n (by simp) rfl
  have he : z.waiting.erase n = A ++ B := by rw [hw, List.erase_append_right _ hnA, List.erase_cons_head]
  have hbt : list.tasks = (A ++ n :: B).head? := hw ▸ ho ▸ hr.tasks
  have ho' : ∀ ws, (Zones.mk z.dependsOn ws z.running z.blocked).order = ws := by
    intro ws
    simp [Zones.order, hd, hrun]
  rw [hz, he]
  have hnew := hrings.erase
  rcases ring_position hrings.left with ⟨rfl,rfl,hx⟩ | ⟨y,l,rfl,rfl,hx,hy⟩ | ⟨x,l,rfl,hx⟩
  · have hc : list.tasks = some n ∧ h.next n = n := ⟨by simpa using hbt,hx⟩
    simp only [priorityListRemove, Bool.false_eq_true, if_false, hp, if_true, if_pos hc]
    refine ⟨⟨by rw [ho']; exact Rings.nil_left hr.rings.right,by rw [ho']; rfl,hr.lastParentDependsOn,
      hr.firstRunningTask,hr.blockedTasks,hr.plainZones⟩,?_⟩
    simp [hr.blockedTasks, Zones.members, ho']
  · have hc : list.tasks = some n := by simpa using hbt
    simp only [priorityListRemove, Bool.false_eq_true, hp, if_true, hc, hx, hy, and_false, if_false]
    refine ⟨⟨by rw [ho']; exact hnew,by rw [ho']; simp,hr.lastParentDependsOn,
      hr.firstRunningTask,hr.blockedTasks,hr.plainZones⟩,?_⟩
    simp [Zones.members, ho']
  · have hc : list.tasks ≠ some n := by simpa [hbt] using hx
    simp only [priorityListRemove, Bool.false_eq_true, hp, if_true, hc, false_and, if_false]
    refine ⟨⟨by rw [ho']; exact hnew,by rw [ho']; simpa using hbt,hr.lastParentDependsOn,
      hr.firstRunningTask,hr.blockedTasks,hr.plainZones⟩,?_⟩
    simp [Zones.members, ho']

private theorem head?_without {A B : List α} (hA : n ∉ A) :
    (A ++ B).head? = if (A ++ n :: B).head? = some n then B.head? else (A ++ n :: B).head? := by
  cases A with
  | nil => simp
  | cons a A =>
    have ha : a ≠ n := fun e => hA (by simp [e])
    simp [ha]

private theorem getLast?_without {A B : List α} (hB : n ∉ B) :
    (A ++ B).getLast? = if (A ++ n :: B).getLast? = some n then A.getLast? else (A ++ n :: B).getLast? := by
  rcases List.eq_nil_or_concat B with rfl | ⟨B,b,rfl⟩
  · simp
  · have hb : b ≠ n := fun e => hB (by simp [e])
    simp [List.getLast?_append, List.getLast?_cons, hb]

/-- What the removal of a ready or running task does to a children or taskgroup list: the
boundary pointers step inwards when they point to the removed task. -/
private theorem remove_ready {type : PQType} (hp : type.plain = false) {A B b : List α}
    (hrings : Rings h (A ++ n :: B) b) (ht : list.tasks = (A ++ n :: B).head?)
    (hbt : list.blockedTasks = b.head?)
    (hl : ∀ m, list.lastParentDependsOn = some m → m ∈ A ++ n :: B)
    (hf : ∀ m, list.firstRunningTask = some m → m ∈ A ++ n :: B)
    (hx : ¬(list.lastParentDependsOn = some n ∧ list.firstRunningTask = some n)) :
    Rings (priorityListRemove type h list n false).1 (A ++ B) b ∧
    (priorityListRemove type h list n false).2.1 =
      { list with
        tasks := (A ++ B).head?
        lastParentDependsOn :=
          if list.lastParentDependsOn = some n then A.getLast? else list.lastParentDependsOn
        firstRunningTask := if list.firstRunningTask = some n then B.head? else list.firstRunningTask } ∧
    ((priorityListRemove type h list n false).2.2 = true ↔ A ++ B ++ b = []) := by
  rcases list with ⟨priority,tasks,lastPD,firstRun,blockedTasks⟩
  simp only at ht hbt hl hf hx
  obtain ⟨hnx,hpv⟩ := hrings.left.next_prev_mid
  have hnew := hrings.erase
  rcases ring_position hrings.left with ⟨rfl,rfl,hsame⟩ | ⟨y,l,rfl,rfl,hy,hyn⟩ | ⟨x,l,rfl,hxn⟩
  · have hc : tasks = some n ∧ h.next n = n := ⟨by simpa using ht,hsame⟩
    simp only [priorityListRemove, Bool.false_eq_true, if_false, hp, if_pos hc]
    refine ⟨Rings.nil_left hrings.right,?_,by simp [hbt]⟩
    have hl' : lastPD = none ∨ lastPD = some n := by
      cases lastPD with
      | none => exact .inl rfl
      | some m => exact .inr (by simpa using hl m rfl)
    have hf' : firstRun = none ∨ firstRun = some n := by
      cases firstRun with
      | none => exact .inl rfl
      | some m => exact .inr (by simpa using hf m rfl)
    rcases hl' with rfl | rfl <;> rcases hf' with rfl | rfl <;> simp_all
  · have hc : tasks = some n := by simpa using ht
    simp only [priorityListRemove, Bool.false_eq_true, if_false, hp, hc, hy, hyn, and_false, if_true]
    refine ⟨hnew,?_,by simp⟩
    by_cases h1 : firstRun = some n
    · have h2 : lastPD ≠ some n := fun e => hx ⟨e,h1⟩
      simp [h1, h2]
    · by_cases h2 : lastPD = some n <;> simp [h1, h2]
  · have hc : tasks ≠ some n := by simpa [ht] using hxn
    simp only [priorityListRemove, Bool.false_eq_true, if_false, hp, hc, false_and]
    refine ⟨hnew,?_,by simp⟩
    by_cases h1 : firstRun = some n
    · have h2 : lastPD ≠ some n := fun e => hx ⟨e,h1⟩
      rw [if_pos h1]
      cases B with
      | nil => simp [h1, h2, hnx, ht]
      | cons c B =>
        -- the successor is the head only when the removed task closes the ring
        have hcx : c ≠ x := by
          rintro rfl
          have hnd := hrings.left.nodup
          simp at hnd
        simp [h1, h2, hnx, ht, hcx]
    · by_cases h2 : lastPD = some n
      · simp [h1, h2, hpv, ht, List.getLast?_append, List.getLast?_cons]
      · simp [h1, h2, ht]

/-- Removal from one of the three zones of the ring of a children or taskgroup list. -/
private theorem remove_zoned_rep {type : PQType} (hp : type.plain = false) (hr : Rep false h list z)
    (hn : n ∈ z.order) :
    Rep false (priorityListRemove type h list n false).1 (priorityListRemove type h list n false).2.1
      (z.erase n) ∧
    ((priorityListRemove type h list n false).2.2 = true ↔ (z.erase n).members = []) := by
  rcases z with ⟨d,w,r,b⟩
  have hnd : (d ++ w ++ r ++ b).Nodup := hr.rings.nodup
  have hl := hr.lastParentDependsOn
  have hf := hr.firstRunningTask
  have hl' : ∀ m, list.lastParentDependsOn = some m → m ∈ d := fun m e => List.mem_of_getLast? (hl ▸ e)
  have hf' : ∀ m, list.firstRunningTask = some m → m ∈ r := fun m e => List.mem_of_head? (hf ▸ e)
  have hx : ¬(list.lastParentDependsOn = some n ∧ list.firstRunningTask = some n) := by
    rintro ⟨h1,h2⟩
    have := hl' n h1
    have := hf' n h2
    grind
  -- the three cases differ in the zone that n splits
  have key : ∀ {A B}, d ++ w ++ r = A ++ n :: B →
      ∀ {z' : Zones α}, z'.order = A ++ B → z'.blocked = b →
      z'.dependsOn.getLast? = (if d.getLast? = some n then A.getLast? else d.getLast?) →
      z'.running.head? = (if r.head? = some n then B.head? else r.head?) →
      Rep false (priorityListRemove type h list n false).1 (priorityListRemove type h list n false).2.1 z' ∧
      ((priorityListRemove type h list n false).2.2 = true ↔ z'.members = []) := by
    intro A B ho z' ho' hb hd hrun
    have hmem : ∀ m, m ∈ d ∨ m ∈ r → m ∈ A ++ n :: B := by
      intro m hm
      rw [← ho]
      rcases hm with hm | hm <;> simp [hm]
    have hrings : Rings h (A ++ n :: B) b := ho ▸ hr.rings
    obtain ⟨h1,h2,h3⟩ := remove_ready hp hrings (ho ▸ hr.tasks) hr.blockedTasks
      (fun m e => hmem m (.inl (hl' m e))) (fun m e => hmem m (.inr (hf' m e))) hx
    refine ⟨⟨?_,?_,?_,?_,?_,by simp⟩,?_⟩
    · rw [ho', hb]
      exact h1
    · rw [h2, ho']
    · rw [h2, hd, hl]
    · rw [h2, hrun, hf]
    · rw [h2, hb]
      exact hr.blockedTasks
    · rw [h3, Zones.members, ho', hb]
  simp only [Zones.order, List.mem_append] at hn
  have hns : ∀ {l : List α}, n ∉ l → l.getLast? ≠ some n ∧ l.head? ≠ some n := fun hn =>
    ⟨fun e => hn (List.mem_of_getLast? e),fun e => hn (List.mem_of_head? e)⟩
  rcases hn with (hn | hn) | hn <;> obtain ⟨A,B,rfl⟩ := List.append_of_mem hn
  · obtain ⟨hA,hB,hw,hrr,hb⟩ : n ∉ A ∧ n ∉ B ∧ n ∉ w ∧ n ∉ r ∧ n ∉ b := by grind
    have hz : Zones.erase ⟨A ++ n :: B,w,r,b⟩ n = ⟨A ++ B,w,r,b⟩ := by
      simp [Zones.erase, List.erase_append_right _ hA, List.erase_of_not_mem, hw, hrr, hb]
    rw [hz]
    exact key (A := A) (B := B ++ w ++ r) (by simp) (by simp [Zones.order]) rfl (getLast?_without hB)
      (by rw [if_neg (hns hrr).2])
  · obtain ⟨hA,hd,hrr,hb⟩ : n ∉ A ∧ n ∉ d ∧ n ∉ r ∧ n ∉ b := by grind
    have hz : Zones.erase ⟨d,A ++ n :: B,r,b⟩ n = ⟨d,A ++ B,r,b⟩ := by
      simp [Zones.erase, List.erase_append_right _ hA, List.erase_of_not_mem, hd, hrr, hb]
    rw [hz]
    exact key (A := d ++ A) (B := B ++ r) (by simp) (by simp [Zones.order]) rfl (by rw [if_neg (hns hd).1])
      (by rw [if_neg (hns hrr).2])
  · obtain ⟨hA,hd,hw,hb⟩ : n ∉ A ∧ n ∉ d ∧ n ∉ w ∧ n ∉ b := by grind
    have hz : Zones.erase ⟨d,w,A ++ n :: B,b⟩ n = ⟨d,w,A ++ B,b⟩ := by
      simp [Zones.erase, List.erase_append_right _ hA, List.erase_of_not_mem, hd, hw, hb]
    rw [hz]
    exact key (A := d ++ w ++ A) (B := B) (by simp) (by simp [Zones.order]) rfl (by rw [if_neg (hns hd).1])
      (head?_without hA)

/-- priority_list_remove refines the removal from the zones, and its result tells whether a
task is left. -/
theorem priorityListRemove_rep (type : PQType) (hr : Rep type.plain h list z) (blocked : Bool)
    (hn : n ∈ if blocked then z.blocked else z.order) :
    Rep type.plain (priorityListRemove type h list n blocked).1 (priorityListRemove type h list n blocked).2.1
      (z.erase n) ∧
    ((priorityListRemove type h list n blocked).2.2 = true ↔ (z.erase n).members = []) := by
  cases blocked with
  | true => exact remove_blocked_rep type hr hn
  | false =>
    cases hp : type.plain with
    | true => exact remove_plain_rep hp (hp ▸ hr) hn
    | false => exact remove_zoned_rep hp (hp ▸ hr) hn

end Remove

section Move
variable {d A B r b : List α}

omit [DecidableEq α] in
private theorem head?_mid_iff (hA : n ∉ A) : (A ++ n :: B).head? = some n ↔ A = [] := by
  cases A with
  | nil => simp
  | cons a A =>
    have ha : a ≠ n := fun e => hA (by simp [e])
    simp [ha]

omit [DecidableEq α] in
private theorem getLast?_mid_iff (hB : n ∉ B) : (A ++ n :: B).getLast? = some n ↔ B = [] := by
  rcases List.eq_nil_or_concat B with rfl | ⟨B,c,rfl⟩
  · simp
  · have hc : c ≠ n := fun e => hB (by simp [e])
    simp [List.getLast?_append, List.getLast?_cons, hc]

private theorem upgrade_mid (hA : n ∉ A) (hB : n ∉ B) :
    Zones.upgrade ⟨d,A ++ n :: B,r,b⟩ n =
      if A = [] then ⟨d ++ [n],B,r,b⟩
      else if B = [] ∧ r = [] then ⟨n :: d,A,[],b⟩
      else ⟨d ++ [n],A ++ B,r,b⟩ := by
  have he : (A ++ n :: B).erase n = A ++ B := by rw [List.erase_append_right _ hA, List.erase_cons_head]
  simp only [Zones.upgrade, he, head?_mid_iff hA, getLast?_mid_iff hB]
  split
  · next h1 => simp [h1]
  · split
    · next h2 => simp [h2]
    · rfl

/-- priority_list_upgrade_task refines the move into the parent_depends_on block. -/
theorem priorityListUpgradeTask_rep (hr : Rep false h list z) (hn : n ∈ z.waiting) :
    Rep false (priorityListUpgradeTask h list n).1 (priorityListUpgradeTask h list n).2 (z.upgrade n) := by
  rcases z with ⟨d,w,r,b⟩
  obtain ⟨A,B,rfl⟩ := List.append_of_mem hn
  have hrings : Rings h (d ++ A ++ n :: (B ++ r)) b := by simpa [Zones.order] using hr.rings
  have hnd := hrings.nodup
  obtain ⟨hA,hB,hd,hb⟩ : n ∉ A ∧ n ∉ B ∧ n ∉ d ∧ n ∉ b := by grind
  have hne : n ∉ d ++ A ++ (B ++ r) := by grind
  have ht : list.tasks = (d ++ A ++ n :: (B ++ r)).head? := by simpa [Zones.order] using hr.tasks
  have hl : list.lastParentDependsOn = d.getLast? := hr.lastParentDependsOn
  have hf : list.firstRunningTask = r.head? := hr.firstRunningTask
  have hbt : list.blockedTasks = b.head? := hr.blockedTasks
  have herase := hrings.erase
  rw [upgrade_mid hA hB]
  by_cases hhead : d ++ A = []
  · obtain ⟨rfl,rfl⟩ := List.append_eq_nil_iff.mp hhead
    have hc : list.tasks = some n := by simpa using ht
    have hl' : list.lastParentDependsOn = none := by simpa using hl
    simp only [priorityListUpgradeTask, hc, hl', if_true]
    exact ⟨by simpa [Zones.order] using hrings,by simp [Zones.order],by simp,hf,hbt,by simp⟩
  · obtain ⟨t,L,hL⟩ := List.exists_cons_of_ne_nil hhead
    have hc : list.tasks = some t := by rw [ht, hL]; rfl
    have htn : t ≠ n := fun e => hne (by rw [hL]; simp [e])
    have hlast : h.next n = t ↔ B = [] ∧ r = [] := by
      have hrot := hrings.left.rotate
      rw [hL] at hrot
      rw [IsRing.next_eq_iff (u := []) (w := B ++ r) (v := L) (by simpa using hrot), List.append_eq_nil_iff]
    rcases List.eq_nil_or_concat d with rfl | ⟨D,p,rfl⟩
    · have hA0 : A ≠ [] := by simpa using hhead
      have hl' : list.lastParentDependsOn = none := by simpa using hl
      simp only [priorityListUpgradeTask, hc, hl', Option.some.injEq, htn, if_false, hlast, if_neg hA0]
      split
      · next hend =>
        obtain ⟨rfl,rfl⟩ := hend
        exact ⟨by simpa [Zones.order] using hrings.rotate,by simp [Zones.order],by simp,hf,hbt,by simp⟩
      · have hs := herase.insertBefore (u := []) (by simpa using hne) hb (t := t) (by simp [hL])
        exact ⟨by simpa [Zones.order] using hs,by simp [Zones.order],by simp,hf,hbt,by simp⟩
    · have hl' : list.lastParentDependsOn = some p := by simpa using hl
      have hfirst : h.prev n = p ↔ A = [] :=
        IsRing.prev_eq_iff (u := D) (v := B ++ r) (by simpa using hrings.left)
      simp only [priorityListUpgradeTask, hc, hl', Option.some.injEq, htn, if_false, hlast, hfirst]
      have ht' : ∀ W R, some t = (Zones.mk (D ++ [p] ++ [n]) W R b).order.head? := by
        intro W R
        rw [← hc, ht]
        cases D <;> simp [Zones.order]
      split
      · next h1 =>
        subst h1
        exact ⟨by simpa [Zones.order] using hrings,by simpa [hc] using ht' _ _,by simp,hf,hbt,by simp⟩
      · split
        · next hend =>
          obtain ⟨rfl,rfl⟩ := hend
          have hrot := Rings.rotate (u := D ++ [p] ++ A) (v := [n]) (by simpa using hrings)
          exact ⟨by simpa [Zones.order] using hrot,by simp [Zones.order],by simp [List.getLast?_cons],hf,hbt,by simp⟩
        · have herase' : Rings (h.detach n) ((D ++ [p]) ++ (A ++ (B ++ r))) b := by simpa using herase
          have hs := herase'.insertAfter (n := n) (by simpa using hne) hb (p := p) (by simp)
          exact ⟨by simpa [Zones.order] using hs,by simpa [hc] using ht' _ _,by simp,hf,hbt,by simp⟩

/-- What priority_list_downgrade_task does to a ring whose first block is split by the
task: it rotates, relabels the boundary or moves the task behind the running block. -/
private theorem downgrade_ready (hrings : Rings h (A ++ n :: (B ++ r)) b)
    (ht : list.tasks = (A ++ n :: (B ++ r)).head?) (hf : list.firstRunningTask = r.head?)
    {r' : List α} (hr' : r' = if A ≠ [] ∧ B = [] then n :: r else r ++ [n]) :
    Rings (priorityListDowngradeTask h list n).1 (A ++ B ++ r') b ∧
    (priorityListDowngradeTask h list n).2 =
      { list with
        tasks := (A ++ B ++ r').head?
        lastParentDependsOn :=
          if list.lastParentDependsOn = some n then A.getLast? else list.lastParentDependsOn
        firstRunningTask := r'.head? } := by
  rcases list with ⟨priority,tasks,lastPD,firstRun,blockedTasks⟩
  simp only at ht hf
  have hnd := hrings.nodup
  obtain ⟨hnx,hpv⟩ := hrings.left.next_prev_mid
  cases A with
  | nil =>
    obtain rfl : tasks = some n := by simpa using ht
    obtain rfl : r' = r ++ [n] := by simpa using hr'
    have hrot := Rings.rotate (u := [n]) (v := B ++ r) (by simpa using hrings)
    simp only [priorityListDowngradeTask, if_true]
    refine ⟨by simpa using hrot,?_⟩
    congr 1
    · cases hBr : B ++ r with
      | nil =>
        have hself : h.next n = n := by simpa [hBr] using hnx
        simp_all
      | cons c l =>
        have hcn : c ≠ n := by grind
        have hxc : h.next n = c := by simpa [hBr] using hnx
        have hl : [] ++ B ++ (r ++ [n]) = c :: (l ++ [n]) := by rw [← List.cons_append, ← hBr]; simp
        rw [hl, hxc, if_pos hcn]
        rfl
    · cases r <;> simp [hf]
  | cons t A =>
    obtain rfl : tasks = some t := by simpa using ht
    have htn : t ≠ n := by grind
    have hcond : (h.next n = t ∨ some (h.next n) = firstRun) ↔ B = [] := by
      rw [hf]
      cases B with
      | nil => cases r <;> simp [hnx]
      | cons c B =>
        have hct : c ≠ t := by grind
        have hcr : r.head? ≠ some c := fun e => by
          have := List.mem_of_head? e
          grind
        simp [hnx, hct, Ne.symm hcr]
    have hp : some (h.prev n) = (t :: A).getLast? := by
      simp [hpv, List.getLastD_eq_getLast?, List.getLast?_append, List.getLast?_cons]
    -- the store that keeps last_parent_depends_on is common to both branches
    have hlpd : (if lastPD = some n then
          PriorityList.mk priority (some t) (some (h.prev n)) firstRun blockedTasks
          else ⟨priority,some t,lastPD,firstRun,blockedTasks⟩) =
        ⟨priority,some t,if lastPD = some n then (t :: A).getLast? else lastPD,firstRun,blockedTasks⟩ := by
      split <;> simp [hp]
    simp only [priorityListDowngradeTask, Option.some.injEq, htn, if_false, hlpd, hcond, setNext_prev,
      setPrev_setNext_eq_detach]
    split
    · next hB =>
      subst hB
      obtain rfl : r' = n :: r := by simpa using hr'
      exact ⟨by simpa using hrings,by simp⟩
    · next hB =>
      obtain rfl : r' = r ++ [n] := by simpa [hB] using hr'
      have hs := Rings.insertBefore (u := t :: A ++ (B ++ r)) (v := []) (n := n) (t := t)
        (by simpa using hrings.erase) (by grind) (by grind) (by simp)
      refine ⟨by simpa using hs,?_⟩
      cases r <;> simp [hf]

/-- priority_list_downgrade_task refines the move into the running block. -/
theorem priorityListDowngradeTask_rep (hr : Rep false h list z) (hn : n ∈ z.dependsOn ++ z.waiting) :
    Rep false (priorityListDowngradeTask h list n).1 (priorityListDowngradeTask h list n).2
      (z.downgrade n) := by
  rcases z with ⟨d,w,r,b⟩
  have hnd : (d ++ w ++ r ++ b).Nodup := hr.rings.nodup
  have hl : list.lastParentDependsOn = d.getLast? := hr.lastParentDependsOn
  -- the two cases differ in the zone that n splits
  have key : ∀ {A B d' w'}, d ++ w = A ++ n :: B → d' ++ w' = A ++ B →
      d'.getLast? = (if d.getLast? = some n then A.getLast? else d.getLast?) →
      d.erase n = d' → w.erase n = w' →
      Rep false (priorityListDowngradeTask h list n).1 (priorityListDowngradeTask h list n).2
        (Zones.downgrade ⟨d,w,r,b⟩ n) := by
    intro A B d' w' ho ho' hd' hed hew
    rw [ho] at hnd
    have hA : n ∉ A := by grind
    have hB : n ∉ B := by grind
    have hring : d ++ w ++ r = A ++ n :: (B ++ r) := by simp [ho]
    have hcond : (if (Zones.mk d w r b).order.head? = some n then r ++ [n]
        else if (d ++ w).getLast? = some n then n :: r else r ++ [n]) =
        if A ≠ [] ∧ B = [] then n :: r else r ++ [n] := by
      have hh : (Zones.mk d w r b).order.head? = some n ↔ A = [] := by
        rw [Zones.order, hring, head?_mid_iff hA]
      simp only [ho, getLast?_mid_iff hB, hh]
      by_cases h1 : A = [] <;> by_cases h2 : B = [] <;> simp [h1, h2]
    simp only [Zones.downgrade, hed, hew, hcond]
    have hrings : Rings h (A ++ n :: (B ++ r)) b := by simpa only [Zones.order, hring] using hr.rings
    have ht : list.tasks = (A ++ n :: (B ++ r)).head? := by simpa only [Zones.order, hring] using hr.tasks
    obtain ⟨h1,h2⟩ := downgrade_ready hrings ht hr.firstRunningTask rfl
    refine ⟨?_,?_,?_,?_,?_,by simp⟩
    · simpa only [Zones.order, ho'] using h1
    · simp only [h2, Zones.order, ho']
    · simp only [h2, hl, hd']
    · simp only [h2]
    · simpa only [h2] using hr.blockedTasks
  rcases List.mem_append.mp hn with hn | hn <;> obtain ⟨A,B,rfl⟩ := List.append_of_mem hn
  · obtain ⟨hA,hB,hw⟩ : n ∉ A ∧ n ∉ B ∧ n ∉ w := by
      clear key
      grind
    exact key (A := A) (B := B ++ w) (by simp) (by simp) (getLast?_without hB)
      (by rw [List.erase_append_right _ hA, List.erase_cons_head]) (List.erase_of_not_mem hw)
  · obtain ⟨hA,hd⟩ : n ∉ A ∧ n ∉ d := by
      clear key
      grind
    have hdl : d.getLast? ≠ some n := fun e => hd (List.mem_of_getLast? e)
    exact key (A := d ++ A) (B := B) (by simp) (by rw [List.append_assoc]) (by rw [if_neg hdl])
      (List.erase_of_not_mem hd) (by rw [List.erase_append_right _ hA, List.erase_cons_head])

end Move

section Reinsert

theorem Rep.not_mem_erase (hr : Rep plain h list z) (n : α) : n ∉ (z.erase n).members := by
  have hnd : (z.dependsOn ++ z.waiting ++ z.running ++ z.blocked).Nodup := hr.rings.nodup
  simp only [List.nodup_append] at hnd
  simp only [Zones.members, Zones.order, Zones.erase, List.mem_append, not_or]
  obtain ⟨⟨⟨hd,hw,_⟩,hrun,_⟩,hb,_⟩ := hnd
  exact ⟨⟨⟨hd.not_mem_erase,hw.not_mem_erase⟩,hrun.not_mem_erase⟩,hb.not_mem_erase⟩

/-- priority_list_adjust_task puts the task back among the waiting ones. -/
theorem priorityListAdjustTask_rep (type : PQType) (policy : ℕ) (hr : Rep type.plain h list z)
    (hn : n ∈ z.order) (awaitsChildren dependsOn : Bool) :
    Rep type.plain (priorityListAdjustTask type policy h list n awaitsChildren dependsOn).1
      (priorityListAdjustTask type policy h list n awaitsChildren dependsOn).2
      ((z.erase n).insert type.plain n (adjustPosition type policy awaitsChildren) dependsOn false) :=
  priorityListInsert_rep type (priorityListRemove_rep type hr false hn).1 (hr.not_mem_erase n) _ _ _

/-- priority_list_block_task puts the task at the end of the blocked ring. -/
theorem priorityListBlockTask_rep (type : PQType) (hr : Rep type.plain h list z) (hn : n ∈ z.order) :
    Rep type.plain (priorityListBlockTask type h list n).1 (priorityListBlockTask type h list n).2
      ((z.erase n).insert type.plain n .insertBegin false true) :=
  priorityListInsert_rep type (priorityListRemove_rep type hr false hn).1 (hr.not_mem_erase n) _ _ _

/-- priority_list_unblock_task puts the task among the waiting ones. -/
theorem priorityListUnblockTask_rep (type : PQType) (policy : ℕ) (hr : Rep type.plain h list z)
    (hn : n ∈ z.blocked) (awaitsChildren dependsOn : Bool) :
    Rep type.plain (priorityListUnblockTask type policy h list n awaitsChildren dependsOn).1
      (priorityListUnblockTask type policy h list n awaitsChildren dependsOn).2
      ((z.erase n).insert type.plain n (unblockPosition type policy awaitsChildren) dependsOn false) :=
  priorityListInsert_rep type (priorityListRemove_rep type hr true hn).1 (hr.not_mem_erase n) _ _ _

end Reinsert

end GompUlt.Queue
