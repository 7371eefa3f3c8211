import GompUlt.Team.Completion

/-! # The links between dependers and dependees

A task that waits for its dependences knows how many there are, and each of these knows the
task.  Both are children of one parent, as long as the parent is there.
-/
namespace GompUlt.Team
open Queue TeamState

/-- The links of all tasks agree with each other. -/
structure Linked (s : TeamState) : Prop where
  nodup : ∀ t, (s.task t).dependers.Nodup
  dependees_nodup : ∀ t, (s.task t).dependees.Nodup
  mem : ∀ t u, u ∈ (s.task t).dependers ↔ t ∈ (s.task u).dependees
  count : ∀ u, (s.task u).numDependees = (s.task u).dependees.length
  unmet : ∀ u, (s.task u).home = .unmet ↔ (s.task u).dependees ≠ []
  younger : ∀ t u, u ∈ (s.task t).dependers → t < u
  sibling : ∀ t u, u ∈ (s.task t).dependers → (s.task u).parent = (s.task t).parent ∨
    (s.task t).parent = none ∧ ∃ p, (s.task u).parent = some p ∧ (s.task p).freed = true
  hasDepend : ∀ t, (s.task t).dependers ≠ [] → (s.task t).hasDepend = true
  live : ∀ t, (s.task t).freed = true → (s.task t).dependers = []
  stack : ∀ t, (s.task t).home = .stack → (s.task t).hasDepend = false

namespace Linked
variable {w : Watch} {s s' : TeamState} {t u c : ℕ}

theorem init (ult : Bool) (n : ℕ) : Linked (TeamState.init ult n) := by
  constructor <;> intro t <;> simp [TeamState.init]

/-- The fields the links are made of. -/
def links (x : Task) : Option ℕ × List ℕ × List ℕ × ℕ × Home × Bool × Bool :=
  (x.parent,x.dependers,x.dependees,x.numDependees,x.home,x.hasDepend,x.freed)

theorem of_links (h : Linked s) (he : ∀ t, links (s'.task t) = links (s.task t)) : Linked s' := by
  simp only [links, Prod.mk.injEq] at he
  have hparent := fun t => (he t).1
  have hdependers := fun t => (he t).2.1
  have hdependees := fun t => (he t).2.2.1
  have hnum := fun t => (he t).2.2.2.1
  have hhome := fun t => (he t).2.2.2.2.1
  have hhas := fun t => (he t).2.2.2.2.2.1
  have hfreed := fun t => (he t).2.2.2.2.2.2
  constructor
  all_goals simp only [hparent, hdependers, hdependees, hnum, hhome, hhas, hfreed]
  case nodup => exact h.nodup
  case dependees_nodup => exact h.dependees_nodup
  case mem => exact h.mem
  case count => exact h.count
  case unmet => exact h.unmet
  case younger => exact h.younger
  case sibling => exact h.sibling
  case hasDepend => exact h.hasDepend
  case live => exact h.live
  case stack => exact h.stack

theorem links_of_lineage {x x' : Task} (h : x'.lineage = x.lineage) : links x' = links x :=
  congrArg (fun l : Lineage => (l.parent,l.dependers,l.dependees,l.numDependees,l.home,l.hasDepend,l.freed)) h

theorem sameTree (h : Linked s) (hr : SameTree s s') : Linked s' :=
  h.of_links fun t => links_of_lineage (hr.task t)

theorem nudges (h : Linked s) (hr : ∀ u, Nudges (s.task u) (s'.task u)) : Linked s' := by
  refine h.of_links fun t => ?_
  rw [(hr t).1]
  rfl

/-- A change of fields that are no links. -/
theorem modify {f : Task → Task} (h : Linked s) (hf : links (f (s.task t)) = links (s.task t)) :
    Linked (s.modify t f) := by
  refine h.of_links fun u => ?_
  rw [modify_task]
  split
  · next e => rw [hf,e]
  · rfl

theorem home_of_depender (h : Linked s) (hu : u ∈ (s.task c).dependers) : (s.task u).home = .unmet := by
  rw [h.unmet]
  exact List.ne_nil_of_mem ((h.mem c u).mp hu)

theorem not_mem_self (h : Linked s) : c ∉ (s.task c).dependers := fun hc => lt_irrefl c (h.younger c c hc)

end Linked

/-- What a completion needs of the other tasks: the dependers it makes ready have the type of the task, the parent they
go to is there, and where the children queues are watched no child still waits for a dependence. -/
structure Completable (w : Watch) (s : TeamState) (c : ℕ) : Prop where
  type : ∀ u ∈ (s.task c).dependers, (s.task u).numDependees = 1 → (s.task u).type = (s.task c).type
  parent : ∀ u ∈ (s.task c).dependers, (s.task u).numDependees = 1 →
    ∀ p, (s.task c).parent = some p → (s.task p).freed = false
  unmet : w.children → ∀ u, (s.task u).home = .unmet → (s.task u).parent ≠ some c

namespace TeamState
variable {w : Watch} {s s' : TeamState} {t u c : ℕ}

theorem Linked.releasable (hl : Linked s) (hc : Completable w s c) (hu : u ∈ (s.task c).dependers) :
    Releasable s c u := by
  refine ⟨hl.home_of_depender hu,fun hn => ?_⟩
  have hpos := List.length_pos_of_mem ((hl.mem c u).mp hu)
  have hcount := hl.count u
  have hone : (s.task u).numDependees = 1 := by omega
  refine ⟨hc.type u hu hone,?_⟩
  rcases hl.sibling c u hu with he | hfreed
  · exact Or.inl ⟨he,hc.parent u hu hone⟩
  · exact Or.inr hfreed

/-- The links after gomp_task_run_post_handle_depend. -/
structure Settled (c : ℕ) (s s' : TeamState) : Prop where
  parent : ∀ u, (s'.task u).parent = (s.task u).parent
  freed : ∀ u, (s'.task u).freed = (s.task u).freed
  hasDepend : ∀ u, (s'.task u).hasDepend = (s.task u).hasDepend
  dependers : ∀ u, (s'.task u).dependers = if u = c then [] else (s.task u).dependers
  dependees : ∀ u, (s'.task u).dependees = (s.task u).dependees.erase c
  numDependees : ∀ u, (s'.task u).numDependees = (s'.task u).dependees.length
  unmet : ∀ u, (s'.task u).home = .unmet ↔ (s'.task u).dependees ≠ []
  stack : ∀ u, (s'.task u).home = .stack → (s.task u).home = .stack

theorem Settled.linked (h : Settled c s s') (hl : Linked s) : Linked s' := by
  constructor
  case nodup =>
    intro t
    rw [h.dependers]
    split
    · exact List.nodup_nil
    · exact hl.nodup t
  case dependees_nodup =>
    intro t
    rw [h.dependees]
    exact (hl.dependees_nodup t).erase c
  case mem =>
    intro t u
    rw [h.dependers,h.dependees]
    split
    · next e => simp [e, (hl.dependees_nodup u).not_mem_erase]
    · next e => rw [hl.mem,List.mem_erase_of_ne e]
  case count => exact h.numDependees
  case unmet => exact h.unmet
  case younger =>
    intro t u hu
    rw [h.dependers] at hu
    split at hu
    · cases hu
    · exact hl.younger t u hu
  case sibling =>
    intro t u hu
    rw [h.dependers] at hu
    split at hu
    · cases hu
    · simp only [h.parent, h.freed]
      exact hl.sibling t u hu
  case hasDepend =>
    intro t ht
    rw [h.dependers] at ht
    rw [h.hasDepend]
    split at ht
    · exact absurd rfl ht
    · exact hl.hasDepend t ht
  case live =>
    intro t ht
    rw [h.freed] at ht
    rw [h.dependers,hl.live t ht]
    split <;> rfl
  case stack =>
    intro t ht
    rw [h.hasDepend]
    exact hl.stack t (h.stack t ht)

/-- The fields of a released depender. -/
theorem released_fields (c : ℕ) (x : Task) : (released c x).parent = x.parent ∧ (released c x).freed = x.freed ∧
    (released c x).hasDepend = x.hasDepend ∧ (released c x).dependers = x.dependers ∧
    (released c x).dependees = x.dependees.erase c ∧ (released c x).numDependees = x.numDependees - 1 := by
  unfold released
  dsimp only
  split <;> exact ⟨rfl,rfl,rfl,rfl,rfl,rfl⟩

theorem released_home {x : Task} (hh : x.home = .unmet) :
    (released c x).home = .unmet ↔ x.numDependees - 1 ≠ 0 := by
  unfold released
  dsimp only
  split
  · next hn => simp [hh, hn]
  · next hn =>
    simp only [not_not] at hn
    simp only [hn, ne_eq, not_true_eq_false, iff_false]
    split <;> decide

theorem released_not_stack {x : Task} (hh : x.home = .unmet) : (released c x).home ≠ .stack := by
  unfold released
  dsimp only
  split
  · rw [hh]
    decide
  · dsimp only
    split <;> decide

section HandleDepend
variable (h : Placed w s) (hl : Linked s) (hf : Finishing s c) (hc : Completable w s c)
include h hl hf hc

/-- The loop over the dependers, when there are any. -/
theorem dependers_releases :
    Releases w c (s.task c).dependers s ((s.task c).dependers.foldl (releaseDepender c) s) :=
  releaseDependers_releases h (hl.nodup c) hl.not_mem_self hf.idle fun _ hu => Linked.releasable hl hc hu

omit h hf hc in
/-- A task whose links are cut where they should be. -/
theorem settled_of_releases {s₁ : TeamState} (hr : Releases w c (s.task c).dependers s s₁) :
    Settled c s (s₁.modify c fun x => { x with dependers := [] }) := by
  have hfields : ∀ u, (s₁.task u).parent = (s.task u).parent ∧ (s₁.task u).freed = (s.task u).freed ∧
      (s₁.task u).hasDepend = (s.task u).hasDepend ∧ (s₁.task u).dependers = (s.task u).dependers ∧
      (s₁.task u).dependees = (s.task u).dependees.erase c ∧
      (s₁.task u).numDependees = (s₁.task u).dependees.length ∧
      ((s₁.task u).home = .unmet ↔ (s₁.task u).dependees ≠ []) ∧
      ((s₁.task u).home = .stack → (s.task u).home = .stack) := by
    intro u
    by_cases hu : u ∈ (s.task c).dependers
    · have hmem := (hl.mem c u).mp hu
      have hlen := List.length_erase_of_mem hmem
      have hpos := List.length_pos_of_mem hmem
      have hcount := hl.count u
      obtain ⟨h1,h2,h3,h4,h5,h6⟩ := released_fields c (s.task u)
      rw [hr.released u hu]
      refine ⟨h1,h2,h3,h4,h5,?_,?_,fun he => absurd he (released_not_stack (hl.home_of_depender hu))⟩
      · rw [h6,h5,hlen,hcount]
      · rw [released_home (hl.home_of_depender hu),h5,hcount,← hlen,ne_eq,List.length_eq_zero_iff]
    · have hnot : c ∉ (s.task u).dependees := fun hm => hu ((hl.mem c u).mpr hm)
      rw [(hr.others u hu).1]
      refine ⟨rfl,rfl,rfl,rfl,(List.erase_of_not_mem hnot).symm,hl.count u,hl.unmet u,id⟩
  have hmod : ∀ u, (s₁.modify c fun x => { x with dependers := [] }).task u =
      { s₁.task u with dependers := if u = c then [] else (s₁.task u).dependers } := by
    intro u
    rw [modify_task]
    split
    · next e => rw [e]
    · rfl
  constructor
  all_goals intro u
  all_goals obtain ⟨h1,h2,h3,h4,h5,h6,h7,h8⟩ := hfields u
  all_goals rw [hmod]
  case parent => exact h1
  case freed => exact h2
  case hasDepend => exact h3
  case dependers => simp only [h4]
  case dependees => exact h5
  case numDependees => exact h6
  case unmet => exact h7
  case stack => exact h8

/-- gomp_task_run_post_handle_depend. -/
theorem gompTaskRunPostHandleDepend_placed :
    Placed w (s.gompTaskRunPostHandleDepend c) ∧ Settled c s (s.gompTaskRunPostHandleDepend c) ∧
    Finishing (s.gompTaskRunPostHandleDepend c) c := by
  unfold gompTaskRunPostHandleDepend
  split
  case isTrue =>
    have hr := dependers_releases h hl hf hc
    have hset := settled_of_releases hl hr
    generalize (s.task c).dependers.foldl (releaseDepender c) s = s₁ at *
    have hself : s₁.task c = s.task c := (hr.others c hl.not_mem_self).2.2 hf.idle
    have hlt : c < s₁.numTasks := hr.numTasks ▸ hf.lt
    refine ⟨modifyInert_placed hr.placed hlt rfl,hset,hlt,?_,?_,?_,?_,?_⟩
    all_goals rw [modify_task,if_pos rfl,hself]
    · exact hf.freed
    · exact hf.kind
    · exact hf.home
    · exact hf.group
    · exact hf.idle
  case isFalse hhas =>
    have hnone : (s.task c).dependers = [] := by
      by_contra hne
      exact hhas (hl.hasDepend c hne)
    have hnot : ∀ u, c ∉ (s.task u).dependees := by
      intro u hu
      rw [← hl.mem,hnone] at hu
      cases hu
    refine ⟨h,⟨fun _ => rfl,fun _ => rfl,fun _ => rfl,fun u => ?_,fun u => (List.erase_of_not_mem (hnot u)).symm,
      hl.count,hl.unmet,fun _ => id⟩,hf⟩
    split
    · next e => rw [e,hnone]
    · rfl

end HandleDepend

/-- The links after a task without dependers has been freed. -/
theorem Discards.linked (hd : Discards c s s') (hb : PlacedBut w c 0 s) (hl : Linked s)
    (hh : (s.task c).home ≠ .unmet) (hnone : (s.task c).dependers = []) : Linked s' := by
  have hfields : ∀ u, s'.task u =
      { s.task u with
        parent := (s.retired c u).parent
        freed := decide (u = c) || (s.task u).freed } := by
    intro u
    rw [hd.task]
    split
    · next e =>
      subst e
      rw [retired_eq]
      simp
    · next e =>
      rw [retired_eq]
      simp [e]
  constructor
  all_goals intro t
  all_goals simp only [hfields]
  case nodup => exact hl.nodup t
  case dependees_nodup => exact hl.dependees_nodup t
  case mem => exact hl.mem t
  case count => exact hl.count t
  case unmet => exact hl.unmet t
  case younger => exact hl.younger t
  case hasDepend => exact hl.hasDepend t
  case stack => exact hl.stack t
  case live =>
    intro ht
    simp only [Bool.or_eq_true, decide_eq_true_eq] at ht
    rcases ht with rfl | ht
    · exact hnone
    · exact hl.live t ht
  case sibling =>
    intro u hu
    have hunmet := hl.home_of_depender hu
    have huc : u ≠ c := by
      rintro rfl
      exact hh hunmet
    have htc : t ≠ c := by
      rintro rfl
      rw [hnone] at hu
      cases hu
    -- a task that waits for a dependence is in no queue, so its parent field stays
    have hnot : ¬s.isChild c u := by
      intro hchild
      obtain ⟨type,hst⟩ := isChild_iff.mp hchild
      rw [hb.placed u huc,Task.view_unmet (Or.inl hunmet)] at hst
      simp [expect] at hst
    have hu' : (s.retired c u).parent = (s.task u).parent := by
      unfold retired
      rw [if_neg hnot]
    rw [hu']
    unfold retired
    split
    case isTrue hchild =>
      right
      refine ⟨rfl,?_⟩
      have haddr := isChild_address hb htc hchild
      have htp : (s.task t).parent = some c := (Option.filter_eq_some_iff.mp haddr).1
      rcases hl.sibling t u hu with he | ⟨hn,-⟩
      · exact ⟨c,by rw [he,htp],by simp⟩
      · rw [hn] at htp
        cases htp
    case isFalse =>
      rcases hl.sibling t u hu with he | ⟨hn,p,hp,hfr⟩
      · exact Or.inl he
      · exact Or.inr ⟨hn,p,hp,by simp [hfr]⟩

/-- gomp_terminate_task_pre and its copies. -/
theorem gompTerminateTaskPre_placed (h : Placed w s) (hl : Linked s) (hf : Finishing s c) (hc : Completable w s c)
    (site : Site) (t : ℕ) :
    Placed w (s.gompTerminateTaskPre site t c) ∧ Linked (s.gompTerminateTaskPre site t c) := by
  rw [gompTerminateTaskPre_eq]
  obtain ⟨h₁,hset,hf₁⟩ := gompTaskRunPostHandleDepend_placed h hl hf hc
  have hl₁ := hset.linked hl
  have hunmet : w.children → ∀ u, ((s.gompTaskRunPostHandleDepend c).task u).home = .unmet →
      ((s.gompTaskRunPostHandleDepend c).task u).parent ≠ some c := by
    intro hw u hu
    rw [hset.parent]
    refine hc.unmet hw u ?_
    rw [hl.unmet]
    rw [hset.unmet,hset.dependees] at hu
    exact fun he => hu (by rw [he]; rfl)
  have hnone : ((s.gompTaskRunPostHandleDepend c).task c).dependers = [] := by
    rw [hset.dependers,if_pos rfl]
  generalize s.gompTaskRunPostHandleDepend c = s₁ at *
  have ho := leaveParent_orphaned h₁ hf₁ site t
  have hgroup : ((s₁.leaveParent site t c).task c).taskgroup = ((s₁.leaveParent site t c).task c).createdIn := by
    rw [ho.task]
    exact hf₁.group
  obtain ⟨hb,hat⟩ := leaveTaskgroup_placed ho.but (by rw [ho.address]; exact ho.at_) hgroup
  have hd := retire_discards (s₁.leaveParent site t c) site c
  have hself : ((s₁.leaveParent site t c).leaveTaskgroup c).task = (s₁.leaveParent site t c).task := by
    simp [leaveTaskgroup]
  have hnum : ((s₁.leaveParent site t c).leaveTaskgroup c).numTasks = (s₁.leaveParent site t c).numTasks := by
    simp [leaveTaskgroup]
  have hl₂ : Linked ((s₁.leaveParent site t c).leaveTaskgroup c) := by
    refine hl₁.nudges fun u => ?_
    rw [hself]
    exact ho.others u
  constructor
  · refine hd.placed hb hat ?_ ?_ ?_ fun hw u hu => ?_
    · rw [hnum,ho.numTasks]
      exact hf₁.lt
    · rw [hself,ho.task]
      exact hf₁.kind
    · rw [hself,ho.task]
      exact Or.inl hf₁.home
    · rw [hself,(ho.others u).1] at hu ⊢
      exact hunmet hw u hu
  · refine hd.linked hb hl₂ ?_ ?_
    · rw [hself,ho.task,hf₁.home]
      decide
    · rw [hself,ho.task]
      exact hnone

end TeamState

end GompUlt.Team
