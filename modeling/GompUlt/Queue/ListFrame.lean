import GompUlt.Queue.ListZones

/-! # The operations on a list write only at its members

A queue keeps many lists over one store of links.  Every operation on a list leaves the
links of all tasks alone that are neither members of the list nor the task it is applied to.
-/
namespace GompUlt.Queue
open LinkRing

variable {α : Type*} [DecidableEq α] {plain : Bool} {h : Links α} {list : PriorityList α} {z : Zones α} {n : α}

/-- The tasks an operation on a list may write at. -/
def Zones.Scope (z : Zones α) (n a : α) : Prop := a = n ∨ a ∈ z.members

section Scope

omit [DecidableEq α] in
theorem Rep.scope_next_prev (hr : Rep plain h list z) {a : α} (ha : a ∈ z.members) :
    z.Scope n (h.next a) ∧ z.Scope n (h.prev a) := by
  rcases List.mem_append.mp ha with ha | ha
  · obtain ⟨hx,hp⟩ := hr.rings.left.next_prev_mem ha
    exact ⟨.inr (List.mem_append_left _ hx),.inr (List.mem_append_left _ hp)⟩
  · obtain ⟨hx,hp⟩ := hr.rings.right.next_prev_mem ha
    exact ⟨.inr (List.mem_append_right _ hx),.inr (List.mem_append_right _ hp)⟩

omit [DecidableEq α] in
theorem Rep.tasks_mem (hr : Rep plain h list z) {a : α} (ha : list.tasks = some a) : a ∈ z.members :=
  List.mem_append_left _ (List.mem_of_head? (hr.tasks ▸ ha))

omit [DecidableEq α] in
theorem Rep.lastParentDependsOn_mem (hr : Rep plain h list z) {a : α}
    (ha : list.lastParentDependsOn = some a) : a ∈ z.members := by
  have hm : a ∈ z.dependsOn := List.mem_of_getLast? (hr.lastParentDependsOn ▸ ha)
  simp [Zones.members, Zones.order, hm]

omit [DecidableEq α] in
theorem Rep.firstRunningTask_mem (hr : Rep plain h list z) {a : α} (ha : list.firstRunningTask = some a) :
    a ∈ z.members := by
  have hm : a ∈ z.running := List.mem_of_head? (hr.firstRunningTask ▸ ha)
  simp [Zones.members, Zones.order, hm]

omit [DecidableEq α] in
theorem Rep.blockedTasks_mem (hr : Rep plain h list z) {a : α} (ha : list.blockedTasks = some a) :
    a ∈ z.members :=
  List.mem_append_right _ (List.mem_of_head? (hr.blockedTasks ▸ ha))

/-- The splice before and the splice after a member. -/
private theorem splice_before (hr : Rep plain h list z) {t : α} (ht : t ∈ z.members) :
    AgreeOff (z.Scope n) h (h.splice n t (h.prev t)) :=
  agreeOff_splice (.inl rfl) (.inr ht) (hr.scope_next_prev ht).2

private theorem splice_after (hr : Rep plain h list z) {p : α} (hp : p ∈ z.members) :
    AgreeOff (z.Scope n) h (h.splice n (h.next p) p) :=
  agreeOff_splice (.inl rfl) (hr.scope_next_prev hp).1 (.inr hp)

end Scope

theorem priorityListInsert_frame (type : PQType) (hr : Rep plain h list z) (pos : InsertType)
    (dependsOn blocked : Bool) :
    AgreeOff (z.Scope n) h (priorityListInsert type h list n pos dependsOn blocked).1 := by
  have hself : AgreeOff (z.Scope n) h (h.selfLoop n) := agreeOff_selfLoop (.inl rfl)
  have hblocked : AgreeOff (z.Scope n) h (insertBlocked h list n).1 := by
    unfold insertBlocked
    cases hb : list.blockedTasks with
    | none => exact hself
    | some b => exact splice_before hr (hr.blockedTasks_mem hb)
  unfold priorityListInsert
  split
  · split
    · exact hblocked
    · cases ht : list.tasks with
      | none => exact hself
      | some t => exact splice_before hr (hr.tasks_mem ht)
  · split
    · exact hblocked
    · cases ht : list.tasks with
      | none => exact hself
      | some t =>
        have hfront := splice_before (n := n) hr (hr.tasks_mem ht)
        simp only
        split
        · split
          · next hl => exact splice_after hr (hr.lastParentDependsOn_mem hl)
          · exact hfront
          · exact hfront
        · split
          · exact hfront
          · exact hfront
          · next hl => exact splice_after hr (hr.lastParentDependsOn_mem hl)
          · next hf => exact splice_before hr (hr.firstRunningTask_mem hf)

theorem priorityListInsertRunning_frame (hr : Rep plain h list z) :
    AgreeOff (z.Scope n) h (priorityListInsertRunning h list n).1 := by
  unfold priorityListInsertRunning
  cases ht : list.tasks with
  | none => exact agreeOff_selfLoop (.inl rfl)
  | some t => exact splice_before hr (hr.tasks_mem ht)

theorem priorityListRemove_frame (type : PQType) (hr : Rep plain h list z) (hn : n ∈ z.members)
    (blocked : Bool) : AgreeOff (z.Scope n) h (priorityListRemove type h list n blocked).1 := by
  have hd : AgreeOff (z.Scope n) h (h.detach n) :=
    agreeOff_detach (hr.scope_next_prev hn).1 (hr.scope_next_prev hn).2
  unfold priorityListRemove
  split_ifs <;> first | exact AgreeOff.refl | exact hd

section Moves

/-- The task taken out and linked in again beside a member. -/
private theorem detach_splice (hr : Rep plain h list z) (hn : n ∈ z.members) {t : α} (ht : t ∈ z.members) :
    AgreeOff (z.Scope n) h ((h.detach n).splice n t ((h.detach n).prev t)) ∧
    AgreeOff (z.Scope n) h ((h.detach n).splice n ((h.detach n).next t) t) := by
  obtain ⟨hx,hp⟩ := hr.scope_next_prev (n := n) hn
  obtain ⟨hxt,hpt⟩ := hr.scope_next_prev (n := n) ht
  have hd : AgreeOff (z.Scope n) h (h.detach n) := agreeOff_detach hx hp
  refine ⟨hd.trans (agreeOff_splice (.inl rfl) (.inr ht) ?_),
    hd.trans (agreeOff_splice (.inl rfl) ?_ (.inr ht))⟩
  · rw [detach_prev, Function.update_apply]
    split
    · exact hp
    · exact hpt
  · rw [detach_next, Function.update_apply]
    split
    · exact hx
    · exact hxt

theorem priorityListUpgradeTask_frame (hr : Rep plain h list z) (hn : n ∈ z.members) :
    AgreeOff (z.Scope n) h (priorityListUpgradeTask h list n).1 := by
  unfold priorityListUpgradeTask
  split
  · exact AgreeOff.refl
  · split
    · next t _ ht =>
      split
      · exact AgreeOff.refl
      · exact (detach_splice hr hn (hr.tasks_mem ht)).1
    · next p hp =>
      split_ifs
      · exact AgreeOff.refl
      · exact AgreeOff.refl
      · exact (detach_splice hr hn (hr.lastParentDependsOn_mem hp)).2
    · exact AgreeOff.refl

theorem priorityListDowngradeTask_frame (hr : Rep plain h list z) (hn : n ∈ z.members) :
    AgreeOff (z.Scope n) h (priorityListDowngradeTask h list n).1 := by
  unfold priorityListDowngradeTask
  split
  · exact AgreeOff.refl
  · have htasks : (if list.lastParentDependsOn = some n then
        { list with lastParentDependsOn := some (h.prev n) } else list).tasks = list.tasks := by
      split <;> rfl
    simp only [htasks, setNext_prev, setPrev_setNext_eq_detach]
    generalize hl : (if list.lastParentDependsOn = some n then
      { list with lastParentDependsOn := some (h.prev n) } else list) = list'
    by_cases hc : some (h.next n) = list.tasks ∨ some (h.next n) = list'.firstRunningTask
    · rw [if_pos hc]
      exact AgreeOff.refl
    · rw [if_neg hc]
      cases ht : list.tasks with
      | none => exact AgreeOff.refl
      | some t => exact (detach_splice hr hn (hr.tasks_mem ht)).1

end Moves

section Reinsert

private theorem scope_erase (z : Zones α) (n a : α) (ha : (z.erase n).Scope n a) : z.Scope n a := by
  refine ha.imp id fun hm => ?_
  simp only [Zones.members, Zones.order, Zones.erase, List.mem_append] at hm ⊢
  exact hm.imp (Or.imp (Or.imp List.mem_of_mem_erase List.mem_of_mem_erase) List.mem_of_mem_erase)
    List.mem_of_mem_erase

private theorem reinsert_frame (type : PQType) (hr : Rep type.plain h list z) (blocked : Bool)
    (hn : n ∈ if blocked then z.blocked else z.order) (pos : InsertType) (dependsOn blocked' : Bool) :
    AgreeOff (z.Scope n) h (priorityListInsert type (priorityListRemove type h list n blocked).1
      (priorityListRemove type h list n blocked).2.1 n pos dependsOn blocked').1 := by
  have hm : n ∈ z.members := by
    cases blocked with
    | true => exact List.mem_append_right _ hn
    | false => exact List.mem_append_left _ hn
  have hins := priorityListInsert_frame (n := n) type (priorityListRemove_rep type hr blocked hn).1 pos dependsOn
    blocked'
  exact (priorityListRemove_frame type hr hm blocked).trans (hins.mono (scope_erase z n))

theorem priorityListAdjustTask_frame (type : PQType) (policy : ℕ) (hr : Rep type.plain h list z)
    (hn : n ∈ z.order) (awaitsChildren dependsOn : Bool) :
    AgreeOff (z.Scope n) h (priorityListAdjustTask type policy h list n awaitsChildren dependsOn).1 :=
  reinsert_frame type hr false hn _ _ _

theorem priorityListBlockTask_frame (type : PQType) (hr : Rep type.plain h list z) (hn : n ∈ z.order) :
    AgreeOff (z.Scope n) h (priorityListBlockTask type h list n).1 :=
  reinsert_frame type hr false hn _ _ _

theorem priorityListUnblockTask_frame (type : PQType) (policy : ℕ) (hr : Rep type.plain h list z)
    (hn : n ∈ z.blocked) (awaitsChildren dependsOn : Bool) :
    AgreeOff (z.Scope n) h (priorityListUnblockTask type policy h list n awaitsChildren dependsOn).1 :=
  reinsert_frame type hr true hn _ _ _

end Reinsert

omit [DecidableEq α] in
/-- The zones of another list stand as before. -/
theorem Rep.frame {h' : Links α} {S : α → Prop} (hr : Rep plain h list z) (ha : AgreeOff S h h')
    (hd : ∀ a ∈ z.members, ¬S a) : Rep plain h' list z := by
  refine ⟨⟨?_,?_,hr.rings.disjoint⟩,hr.tasks,hr.lastParentDependsOn,hr.firstRunningTask,hr.blockedTasks,
    hr.plainZones⟩
  · exact hr.rings.left.agreeOff ha fun a hm => hd a (List.mem_append_left _ hm)
  · exact hr.rings.right.agreeOff ha fun a hm => hd a (List.mem_append_right _ hm)

end GompUlt.Queue
