import GompUlt.Team.DependLinks

/-! # Creation keeps the tasks in their queues

A new task is first in no queue.  Where nothing holds it back it then goes to the queues of
its parent and its taskgroup, and to that of the team unless it runs at once.
-/
namespace GompUlt.Team
open Queue TeamState

namespace Placed
variable {w : Watch} {s : TeamState} {t : ℕ}

theorem addCount (h : Placed w s) (d : ℤ) : Placed w (s.addCount d) :=
  placed_inert h (fun _ => rfl) rfl rfl rfl rfl h.shaped.fresh

/-- A task number not used yet is found in no queue. -/
theorem fresh_status (h : Placed w s) (ht : s.numTasks ≤ t) (q : QRef) : s.status q t = none := by
  rw [h.placed t,h.shaped.fresh t ht,Task.view_unmet (Or.inr rfl),expect_empty]

/-- A new task that belongs in no queue. -/
theorem addTask {x : Task} (h : Placed w s) (hsh : TaskShape s.ultVar s.numTasks x) (hv : x.view = {})
    (hl : x.isListed = false) (hf : x.freed = false)
    (hp : w.children → x.isHeap → ∀ p, x.parent = some p → (s.task p).freed = false) : Placed w (s.addTask x) := by
  have hself : (s.addTask x).task s.numTasks = x := by simp [TeamState.addTask]
  have hother : ∀ u, u ≠ s.numTasks → (s.addTask x).task u = s.task u := by
    intro u e
    simp [TeamState.addTask, e]
  have hfr : ∀ u, ((s.addTask x).task u).freed = (s.task u).freed := by
    intro u
    by_cases e : u = s.numTasks
    · rw [e,hself,hf,h.shaped.fresh s.numTasks le_rfl]
    · rw [hother u e]
  constructor
  case shaped =>
    constructor
    · intro u
      by_cases e : u = s.numTasks
      · rw [e,hself]
        exact hsh
      · rw [hother u e]
        exact h.shaped.task u
    · intro u hu
      have hlt : s.numTasks + 1 ≤ u := hu
      rw [hother u (by omega)]
      exact h.shaped.fresh u (by omega)
  case placed =>
    intro u
    by_cases e : u = s.numTasks
    · subst e
      intro q
      rw [hself,hv,expect_empty]
      exact h.fresh_status le_rfl q
    · exact (h.placed u).congr (hother u e) hfr fun _ => rfl
  case flags => exact h.flags.of_queue_eq rfl
  case drift => exact h.drift
  case family =>
    intro hw u p hh hpar
    rw [hfr]
    by_cases e : u = s.numTasks
    · rw [e,hself] at hh hpar
      exact hp hw hh p hpar
    · rw [hother u e] at hh hpar
      exact h.family hw u p hh hpar
  case regrouped =>
    intro hw u hlist hk
    by_cases e : u = s.numTasks
    · rw [e,hself,hl] at hlist
      cases hlist
    · rw [hother u e] at hlist hk ⊢
      exact h.regrouped hw u hlist hk

end Placed

namespace TeamState
variable {w : Watch} {s s' : TeamState} {t u p : ℕ} {x : Task} {ds : List ℕ} {c : Call} {d : ℤ}

theorem addChild_frame (s : TeamState) (g : Option ℕ) : (s.addChild g).task = s.task ∧ (s.addChild g).queue = s.queue ∧
    (s.addChild g).numTasks = s.numTasks ∧ (s.addChild g).ultVar = s.ultVar ∧
    (s.addChild g).taskQueuedCount = s.taskQueuedCount := by
  cases g <;> exact ⟨rfl,rfl,rfl,rfl,rfl⟩

/-- The records after a creation. -/
theorem createTask_task (hds : s.numTasks ∉ ds) (u : ℕ) : (s.createTask x ds).task u =
    if u = s.numTasks then { x with numDependees := ds.length, dependees := ds }
    else if u ∈ ds then { s.task u with dependers := (s.task u).dependers ++ [s.numTasks] } else s.task u := by
  unfold createTask gompTaskHandleDepend
  simp only [modify_task, (addChild_frame _ _).1, hds, if_false]
  by_cases e : u = s.numTasks
  · simp [addTask, e]
  · simp [addTask, e]

theorem createTask_frame (s : TeamState) (x : Task) (ds : List ℕ) : (s.createTask x ds).queue = s.queue ∧
    (s.createTask x ds).numTasks = s.numTasks + 1 ∧ (s.createTask x ds).ultVar = s.ultVar ∧
    (s.createTask x ds).taskQueuedCount = s.taskQueuedCount := by
  obtain ⟨-,h2,h3,h4,h5⟩ := addChild_frame (s.addTask x) x.taskgroup
  exact ⟨h2,h3,h4,h5⟩

/-- A new task waits for its dependences, or for its way to the queues. -/
theorem createTask_placed (h : Placed w s) (hsh : TaskShape s.ultVar s.numTasks x) (hh : x.home = .unmet)
    (hp : ∀ p, x.parent = some p → (s.task p).freed = false) (hds : ∀ u ∈ ds, u < s.numTasks) :
    Placed w (s.createTask x ds) := by
  have hnot : s.numTasks ∉ ds := fun hm => lt_irrefl _ (hds _ hm)
  have hadd := h.addTask hsh (Task.view_unmet (Or.inl hh)) (by simp [Task.isListed, hh]) (not_freed_of_unmet hsh hh)
    fun _ _ => hp
  obtain ⟨h1,h2,h3,h4⟩ := createTask_frame s x ds
  refine placed_inert hadd (fun u => ?_) h1 h4 h2 h3 fun u hu => ?_
  · rw [createTask_task hnot]
    by_cases e : u = s.numTasks
    · simp [Inert, addTask, e]
    · by_cases hm : u ∈ ds <;> simp [Inert, addTask, e, hm]
  · have hlt : s.numTasks + 1 ≤ u := hu
    have hm : u ∉ ds := fun hm => by
      have := hds u hm
      omega
    rw [createTask_task hnot,if_neg (by omega),if_neg hm]
    exact h.shaped.fresh u (by omega)

section Enter
variable (h : Placed w s) (hh : (s.task t).home = .unmet) (hp : (s.task t).parent = (s.address t).parent)
include h hh hp

/-- A task that is in no queue yet comes to those of its parent and its taskgroup. -/
theorem enterFamily_placed (hc : c.exact false none = true) :
    PlacedBut w t 0 (s.callFamily (s.task t).type (s.task t).parent (s.task t).taskgroup c t) ∧
    (s.callFamily (s.task t).type (s.task t).parent (s.task t).taskgroup c t).At t (s.address t)
      { family := c.result false none, group := c.result false none } := by
  have hsh := h.shaped.task t
  obtain ⟨hb,hat⟩ := unmet_at h hh
  have hgroup : (s.address t).group = (s.task t).taskgroup :=
    (hsh.unopened (hsh.unmet (Or.inl hh)).1 (Or.inr (Or.inl hh))).symm
  constructor
  · exact hb.callFamily (Flags.callFamily hb.flags hat rfl (fun _ _ => ⟨hp,hc⟩) fun _ _ => ⟨hgroup.symm,hc⟩)
  · unfold callFamily
    exact (hat.callParent rfl hp.symm).callGroup rfl hgroup

/-- The deferred task that nothing holds back. -/
theorem insertReady_placed (hk : (s.task t).kind = .waiting) :
    Placed w ((((s.insertReady (s.task t).type (s.task t).parent (s.task t).taskgroup t).modify t
      fun x => { x with home := .listed }).addCount 1).addQueued 1) := by
  obtain ⟨hb,hat⟩ := enterFamily_placed h hh hp (exact_insert false false)
  have hfl := Flags.callTeam hb.flags hat (c := .insert false) rfl (exact_insert false true)
  have hready := enqueued_placed (u := t) (s := s.insertReady (s.task t).type (s.task t).parent (s.task t).taskgroup t)
    (hb.callTeam hfl) ?_ ?_
  · have hkind : ((s.insertReady (s.task t).type (s.task t).parent (s.task t).taskgroup t).task t).kind ≠
        .undeferred := by simp [insertReady, hk]
    have hmod : ∀ s₁ : TeamState, (s₁.task t).kind ≠ .undeferred →
        (s₁.modify t fun x => { x with home := if x.kind = .undeferred then .late else .listed }) =
          s₁.modify t fun x => { x with home := .listed } := by
      intro s₁ hne
      simp [modify, hne]
    rw [hmod _ hkind] at hready
    exact hready
  · simp [insertReady, hh]
  · have haddr : (s.insertReady (s.task t).type (s.task t).parent (s.task t).taskgroup t).address t = s.address t := by
      simp [insertReady, address, liveParent]
    rw [haddr]
    refine (hat.callTeam rfl).view_eq ?_
    simp [result_insert, zoneOf]

/-- The new task that runs at once. -/
theorem insertRunning_placed {k : TaskKind}
    (hk : (s.task t).kind = .waiting ∧ k = .tied ∨ (s.task t).kind = .undeferred ∧ k = .undeferred) :
    Placed w (s.insertRunning t k) := by
  have hsh := h.shaped.task t
  have hlt : t < s.numTasks := h.shaped.lt_of_home (by rw [hh]; decide)
  have hfreed := not_freed_of_unmet hsh hh
  obtain ⟨hb,hat⟩ := enterFamily_placed h hh hp (c := .insertRunning) (by decide)
  have hk' : k ≠ .waiting ∧ k ≠ .tiedSuspended := by
    rcases hk with ⟨-,rfl⟩ | ⟨-,rfl⟩ <;> decide
  have hmod : PlacedBut w t 0 (s.insertRunning t k) := by
    unfold insertRunning
    refine hb.modify (by simpa using hlt) ?_ rfl ?_ (fun hw _ q hq => ?_) fun _ _ hwait => ?_
    · simpa using hsh.insertRunning hh hk
    · simpa using (hsh.unmet (Or.inl hh)).2.2.1
    · simp only [callFamily_task] at hq ⊢
      exact h.family hw t q (by simp [Task.isHeap, hfreed, hh]) hq
    · exact absurd hwait hk'.1
  refine hmod.done ?_
  have hself : (s.insertRunning t k).task t = { s.task t with home := .listed, kind := k } := by
    simp [insertRunning]
  have haddr : (s.insertRunning t k).address t = s.address t := by
    simp only [address, liveParent, hself]
    congr 2
    funext q
    by_cases e : q = t
    · simp [insertRunning, e]
    · simp [insertRunning, e]
  unfold PlacedAt
  rw [haddr,hself,Task.view_running (x := { s.task t with home := .listed, kind := k }) hfreed hk'.1 hk'.2 (Or.inl rfl)]
  exact hat.of_status fun _ => rfl

end Enter

/-! ## The links of a new task -/

/-- A new child of a task, which waits for some of its siblings. -/
structure Creates (p : ℕ) (ds : List ℕ) (s s' : TeamState) : Prop where
  links : ∀ u, u ≠ s.numTasks → Linked.links (s'.task u) =
    Linked.links { s.task u with
      dependers := if u ∈ ds then (s.task u).dependers ++ [s.numTasks] else (s.task u).dependers }
  parent : (s'.task s.numTasks).parent = some p
  dependers : (s'.task s.numTasks).dependers = []
  dependees : (s'.task s.numTasks).dependees = ds
  numDependees : (s'.task s.numTasks).numDependees = ds.length
  unmet : (s'.task s.numTasks).home = .unmet ↔ ds ≠ []
  stack : (s'.task s.numTasks).home = .stack → (s'.task s.numTasks).hasDepend = false
  freed : (s'.task s.numTasks).freed = false

/-- The siblings a new task waits for. -/
structure Siblings (s : TeamState) (p : ℕ) (ds : List ℕ) : Prop where
  nodup : ds.Nodup
  lt : ∀ t ∈ ds, t < s.numTasks
  freed : ∀ t ∈ ds, (s.task t).freed = false
  parent : ∀ t ∈ ds, (s.task t).parent = some p
  hasDepend : ∀ t ∈ ds, (s.task t).hasDepend = true

theorem siblings_of (h : s.areSiblings p ds = true) : Siblings s p ds := by
  obtain ⟨hnd,hall⟩ := areSiblings_iff.mp h
  exact ⟨hnd,fun t ht => (hall t ht).1,fun t ht => (hall t ht).2.1,fun t ht => (hall t ht).2.2.1,
    fun t ht => (hall t ht).2.2.2⟩

theorem siblings_nil (s : TeamState) (p : ℕ) : Siblings s p [] := by
  constructor <;> simp

theorem Creates.linked (hc : Creates p ds s s') (hl : Linked s) (hs : Shaped s) (hd : Siblings s p ds) :
    Linked s' := by
  have hold : ∀ u, u ≠ s.numTasks → (s'.task u).parent = (s.task u).parent ∧
      (s'.task u).dependers = (if u ∈ ds then (s.task u).dependers ++ [s.numTasks] else (s.task u).dependers) ∧
      (s'.task u).dependees = (s.task u).dependees ∧ (s'.task u).numDependees = (s.task u).numDependees ∧
      (s'.task u).home = (s.task u).home ∧ (s'.task u).hasDepend = (s.task u).hasDepend ∧
      (s'.task u).freed = (s.task u).freed := by
    intro u e
    have := hc.links u e
    simp only [Linked.links, Prod.mk.injEq] at this
    exact this
  have hfresh : s.task s.numTasks = {} := hs.fresh _ le_rfl
  have hnot : ∀ t, s.numTasks ∉ (s.task t).dependers := by
    intro t ht
    rw [hl.mem,hfresh] at ht
    cases ht
  have hnot' : ∀ u, s.numTasks ∉ (s.task u).dependees := by
    intro u hu
    rw [← hl.mem,hfresh] at hu
    cases hu
  have hds : s.numTasks ∉ ds := fun hm => lt_irrefl _ (hd.lt _ hm)
  -- which dependers a task has now
  have hmem : ∀ t u, u ∈ (s'.task t).dependers ↔ u ∈ (s.task t).dependers ∨ u = s.numTasks ∧ t ∈ ds := by
    intro t u
    by_cases e : t = s.numTasks
    · rw [e,hc.dependers,hfresh]
      simp [hds]
    · rw [(hold t e).2.1]
      split
      · next hm => simp [hm]
      · next hm => simp [hm]
  have hfreed : ∀ t, (s'.task t).freed = (s.task t).freed := by
    intro t
    by_cases e : t = s.numTasks
    · rw [e,hc.freed,hfresh]
    · exact (hold t e).2.2.2.2.2.2
  constructor
  case nodup =>
    intro t
    by_cases e : t = s.numTasks
    · rw [e,hc.dependers]
      exact List.nodup_nil
    · rw [(hold t e).2.1]
      split
      · rw [List.nodup_append]
        refine ⟨hl.nodup t,List.nodup_singleton _,fun a ha b hb hab => ?_⟩
        rw [List.mem_singleton.mp hb] at hab
        exact hnot t (hab ▸ ha)
      · exact hl.nodup t
  case dependees_nodup =>
    intro t
    by_cases e : t = s.numTasks
    · rw [e,hc.dependees]
      exact hd.nodup
    · rw [(hold t e).2.2.1]
      exact hl.dependees_nodup t
  case mem =>
    intro t u
    rw [hmem]
    by_cases e : u = s.numTasks
    · rw [e,hc.dependees]
      simp [hnot]
    · rw [(hold u e).2.2.1,← hl.mem]
      simp [e]
  case count =>
    intro u
    by_cases e : u = s.numTasks
    · rw [e,hc.dependees,hc.numDependees]
    · rw [(hold u e).2.2.1,(hold u e).2.2.2.1]
      exact hl.count u
  case unmet =>
    intro u
    by_cases e : u = s.numTasks
    · rw [e,hc.dependees]
      exact hc.unmet
    · rw [(hold u e).2.2.1,(hold u e).2.2.2.2.1]
      exact hl.unmet u
  case younger =>
    intro t u hu
    rcases (hmem t u).mp hu with hu | ⟨rfl,ht⟩
    · exact hl.younger t u hu
    · exact hd.lt t ht
  case sibling =>
    intro t u hu
    simp only [hfreed]
    rcases (hmem t u).mp hu with hu | ⟨rfl,ht⟩
    · have htn : t ≠ s.numTasks := by
        rintro rfl
        rw [hfresh] at hu
        cases hu
      have hun : u ≠ s.numTasks := by
        rintro rfl
        exact hnot t hu
      rw [(hold t htn).1,(hold u hun).1]
      exact hl.sibling t u hu
    · left
      have htn : t ≠ s.numTasks := fun e => hds (e ▸ ht)
      rw [hc.parent,(hold t htn).1,hd.parent t ht]
  case hasDepend =>
    intro t ht
    obtain ⟨u,hu⟩ := List.exists_mem_of_ne_nil _ ht
    have htn : t ≠ s.numTasks := by
      rintro rfl
      exact ht hc.dependers
    rw [(hold t htn).2.2.2.2.2.1]
    rcases (hmem t u).mp hu with hu | ⟨-,hm⟩
    · exact hl.hasDepend t (List.ne_nil_of_mem hu)
    · exact hd.hasDepend t hm
  case live =>
    intro t ht
    rw [hfreed] at ht
    rw [List.eq_nil_iff_forall_not_mem]
    intro u hu
    rcases (hmem t u).mp hu with hu | ⟨-,hm⟩
    · rw [hl.live t ht] at hu
      cases hu
    · rw [hd.freed t hm] at ht
      cases ht
  case stack =>
    intro t ht
    by_cases e : t = s.numTasks
    · rw [e] at ht ⊢
      exact hc.stack ht
    · rw [(hold t e).2.2.2.2.1] at ht
      rw [(hold t e).2.2.2.2.2.1]
      exact hl.stack t ht

/-! ## The five ways to create a task -/

/-- The record of a new heap task with this parent. -/
structure NewRecord (s : TeamState) (p : ℕ) (x : Task) : Prop where
  shape : TaskShape s.ultVar s.numTasks x
  home : x.home = .unmet
  parent : x.parent = some p
  dependers : x.dependers = []

theorem NewRecord.freed (hx : NewRecord s p x) : x.freed = false := not_freed_of_unmet hx.shape hx.home

theorem newTask_record (s : TeamState) (p : ℕ) (type : TaskType) (d : Bool) :
    NewRecord s p (s.newTask p type .waiting d) := by
  refine ⟨?_,rfl,rfl,rfl⟩
  constructor <;> simp [newTask]

section Create
variable (h : Placed w s) (hl : Linked s) (hp : (s.task p).freed = false) (hd : Siblings s p ds) (hx : NewRecord s p x)
include hd

theorem Siblings.not_mem : s.numTasks ∉ ds := fun hm => lt_irrefl _ (hd.lt _ hm)

theorem created_task : (s.createTask x ds).task s.numTasks = { x with numDependees := ds.length, dependees := ds } := by
  rw [createTask_task hd.not_mem,if_pos rfl]

include hx

/-- What has become of the new record says whether the links are in order. -/
theorem createTask_creates (home : Home) (kind : TaskKind)
    (hold : ∀ u, u ≠ s.numTasks → s'.task u = (s.createTask x ds).task u)
    (hnew : s'.task s.numTasks = { (s.createTask x ds).task s.numTasks with home, kind })
    (hh : home = .unmet ↔ ds ≠ []) (hs : home ≠ .stack) : Creates p ds s s' := by
  rw [created_task hd] at hnew
  have hfreed := hx.freed
  constructor
  case links =>
    intro u e
    rw [hold u e,createTask_task hd.not_mem,if_neg e]
    split <;> rfl
  all_goals rw [hnew]
  case parent => exact hx.parent
  case dependers => exact hx.dependers
  case unmet => exact hh
  case stack => exact fun he => absurd he hs
  case freed => exact hfreed

include h hp

theorem created_placed : Placed w (s.createTask x ds) :=
  createTask_placed h hx.shape hx.home (fun q hq => by rwa [← Option.some.inj (hx.parent.symm.trans hq)]) hd.lt

omit h in
/-- The parent of a new task is there. -/
theorem created_parent :
    ((s.createTask x ds).task s.numTasks).parent = ((s.createTask x ds).address s.numTasks).parent := by
  have hfreed : ((s.createTask x ds).task p).freed = false := by
    have hfr := hx.freed
    rw [createTask_task hd.not_mem]
    split
    · exact hfr
    · split <;> exact hp
  have hpar : ((s.createTask x ds).task s.numTasks).parent = some p := by
    rw [created_task hd]
    exact hx.parent
  simp [address, liveParent, hpar, Option.filter, hfreed]

include hl

/-- A task with unmet dependences stays out of the queues. -/
theorem created_unmet (hne : ds ≠ []) : Placed w (s.createTask x ds) ∧ Linked (s.createTask x ds) := by
  refine ⟨created_placed h hp hd hx,?_⟩
  refine (createTask_creates hd hx .unmet x.kind (fun _ _ => rfl) ?_ ?_ (by decide)).linked hl
    h.shaped hd
  · rw [created_task hd,← hx.home]
  · simp [hne]

/-- A task without any goes to the queues. -/
theorem created_ready (hk : x.kind = .waiting) (hnil : ds = []) :
    Placed w (((((s.createTask x ds).insertReady x.type x.parent x.taskgroup s.numTasks).modify s.numTasks
      fun x => { x with home := .listed }).addCount 1).addQueued 1) ∧
    Linked (((((s.createTask x ds).insertReady x.type x.parent x.taskgroup s.numTasks).modify s.numTasks
      fun x => { x with home := .listed }).addCount 1).addQueued 1) := by
  have hnew := created_task (x := x) hd
  constructor
  · have hin := insertReady_placed (t := s.numTasks) (created_placed h hp hd hx) ?_ (created_parent hp hd hx) ?_
    · rw [hnew] at hin
      exact hin
    · rw [hnew]
      exact hx.home
    · rw [hnew]
      exact hk
  · refine (createTask_creates hd hx .listed x.kind (fun u e => ?_) ?_ ?_ (by decide)).linked hl
      h.shaped hd
    · simp [insertReady, e]
    · simp [insertReady, hnew]
    · simp [hnil]

/-- A task that runs at once. -/
theorem created_running {k : TaskKind} (hk : x.kind = .waiting ∧ k = .tied ∨ x.kind = .undeferred ∧ k = .undeferred)
    (hnil : ds = []) : Placed w ((s.createTask x ds).insertRunning s.numTasks k) ∧
    Linked ((s.createTask x ds).insertRunning s.numTasks k) := by
  have hnew := created_task (x := x) hd
  constructor
  · refine insertRunning_placed (created_placed h hp hd hx) ?_ (created_parent hp hd hx) ?_
    · rw [hnew]
      exact hx.home
    · rw [hnew]
      exact hk
  · refine (createTask_creates hd hx .listed k (fun u e => ?_) ?_ ?_ (by decide)).linked hl
      h.shaped hd
    · simp [insertRunning, e]
    · simp [insertRunning]
    · simp [hnil]

end Create

/-- The tasks are in their queues and their links agree. -/
structure InOrder (w : Watch) (s : TeamState) : Prop where
  placed : Placed w s
  linked : Linked s

section Events
variable (h : InOrder w s)
include h

/-- The deferred branch of GOMP_task. -/
theorem gompTask_inOrder (hp : (s.task p).freed = false) (hd : Siblings s p ds) (type : TaskType) (d : Bool) :
    InOrder w (s.gompTask p type d ds) := by
  have hx := newTask_record s p type d
  unfold gompTask
  dsimp only
  split
  case isTrue hne =>
    obtain ⟨h1,h2⟩ := created_unmet h.placed h.linked hp hd hx hne
    exact ⟨h1,h2⟩
  case isFalse hnil =>
    obtain ⟨h1,h2⟩ := created_ready h.placed h.linked hp hd hx rfl (not_not.mp hnil)
    exact ⟨h1,h2⟩

/-- gomp_suspend_implicit_for_undeferred. -/
theorem gompSuspendImplicitForUndeferred_inOrder (hp : (s.task p).freed = false) (hd : Siblings s p ds) (d : Bool) :
    InOrder w (s.gompSuspendImplicitForUndeferred p d ds) := by
  have hx : NewRecord s p { s.newTask p .tied .undeferred d with undeferredAncestor := some s.numTasks } := by
    refine ⟨?_,rfl,rfl,rfl⟩
    constructor <;> simp [newTask]
  unfold gompSuspendImplicitForUndeferred
  dsimp only
  split
  case isTrue hne =>
    obtain ⟨h1,h2⟩ := created_unmet h.placed h.linked hp hd hx hne
    exact ⟨h1,h2⟩
  case isFalse hnil =>
    obtain ⟨h1,h2⟩ := created_running h.placed h.linked hp hd hx (Or.inr ⟨rfl,rfl⟩) (not_not.mp hnil)
    exact ⟨h1,h2⟩

theorem InOrder.addCount (d : ℤ) : InOrder w (s.addCount d) :=
  ⟨h.placed.addCount d,h.linked.of_links fun _ => rfl⟩

/-- gomp_create_target_task. -/
theorem gompCreateTargetTask_inOrder (hp : (s.task p).freed = false) (hd : Siblings s p ds) (d atOnce : Bool) :
    InOrder w (s.gompCreateTargetTask p d ds atOnce) := by
  have hx : NewRecord s p { s.newTask p .tied .waiting d with isTarget := true } := by
    refine ⟨?_,rfl,rfl,rfl⟩
    constructor <;> simp [newTask]
  unfold gompCreateTargetTask
  dsimp only
  split
  case isTrue hne =>
    obtain ⟨h1,h2⟩ := created_unmet h.placed h.linked hp hd hx hne
    exact ⟨h1,h2⟩
  case isFalse hnil =>
    split
    · obtain ⟨h1,h2⟩ := created_running h.placed h.linked hp hd hx (Or.inl ⟨rfl,rfl⟩) (not_not.mp hnil)
      exact InOrder.addCount ⟨h1,h2⟩ 1
    · obtain ⟨h1,h2⟩ := created_ready h.placed h.linked hp hd hx rfl (not_not.mp hnil)
      exact ⟨h1,h2⟩

/-- The deferred branch of GOMP_task with the work-first strategy. -/
theorem gompTaskWorkFirst_inOrder (hult : s.ultVar = true) (hp : s.isActive p = true)
    (hty : (s.task p).type = .untied) (thr : ℕ) (type : TaskType) (d : Bool)
    (hgroup : w.taskgroup → (s.task p).home = .listed → (s.task p).taskgroup = (s.task p).createdIn) :
    InOrder w (s.gompTaskWorkFirst thr p type d) := by
  obtain ⟨hrun,hwait⟩ := isActive_iff.mp hp
  obtain ⟨hlt,hfreed,hbusy,htarget,hkind,hhome⟩ := isRunning_iff.mp hrun
  have hd := siblings_nil s p
  obtain ⟨h1,h2⟩ := created_running (k := .tied) h.placed h.linked hfreed hd (newTask_record s p type d)
    (Or.inl ⟨rfl,rfl⟩) rfl
  have himp : (s.task p).home ≠ .implicit := by
    intro e
    have := (h.placed.shaped.task p).implicitTied e
    rw [hty] at this
    cases this
  have hkind' : (s.task p).kind = .tied ∨ (s.task p).kind = .undeferred :=
    hkind.resolve_left fun e => himp ((h.placed.shaped.task p).implicit.mpr e)
  have hhome' : (s.task p).home = .listed ∨ (s.task p).home = .stack := (hhome.resolve_left himp).symm
  have hself : (((s.createTask (s.newTask p type .waiting d) []).insertRunning s.numTasks .tied).addCount 1).task p =
      s.task p := by
    have hne : p ≠ s.numTasks := by omega
    simp [insertRunning, hne, createTask_task]
  have hnum : (((s.createTask (s.newTask p type .waiting d) []).insertRunning s.numTasks .tied).addCount 1).numTasks =
      s.numTasks + 1 := by
    simp [insertRunning, (createTask_frame s _ []).2.1]
  have hult' : (((s.createTask (s.newTask p type .waiting d) []).insertRunning s.numTasks .tied).addCount 1).ultVar =
      s.ultVar := by
    simp [insertRunning, (createTask_frame s _ []).2.2.1]
  unfold gompTaskWorkFirst
  dsimp only
  have h3 : InOrder w (((s.createTask (s.newTask p type .waiting d) []).insertRunning s.numTasks .tied).addCount 1) :=
    InOrder.addCount ⟨h1,h2⟩ 1
  generalize ((s.createTask (s.newTask p type .waiting d) []).insertRunning s.numTasks .tied).addCount 1 = s₁ at *
  constructor
  · refine gompSuspendUntied_placed h3.placed ⟨by omega,by rw [hult',hult],?_,?_,?_,?_,?_,Or.inl rfl⟩ thr ?_ ?_
    all_goals rw [hself]
    · exact hfreed
    · exact hbusy
    · exact htarget
    · exact hkind'
    · exact hhome'
    · exact hty
    · exact hgroup
  · exact h3.linked.sameTree (gompSuspendUntiedTaskForSuccessor_sameTree thr none (by rw [hself]; exact hhome'))

/-- The start of an undeferred task on the stack of its parent. -/
theorem gompTaskUndeferred_inOrder (hp : s.isActive p = true) (type : TaskType) :
    InOrder w (s.gompTaskUndeferred p type) := by
  obtain ⟨hrun,hwait⟩ := isActive_iff.mp hp
  obtain ⟨hlt,hfreed,hbusy,htarget,hkind,hhome⟩ := isRunning_iff.mp hrun
  have hne : p ≠ s.numTasks := by omega
  unfold gompTaskUndeferred
  dsimp only
  generalize hanc : (if s.ultVar then some ((s.task p).undeferredAncestor.getD p) else none) = ancestor
  have hult : s.ultVar = true → ancestor ≠ none := by
    intro e
    rw [e] at hanc
    rw [← hanc]
    simp
  generalize hx : ({ s.newTask p type .undeferred false with undeferredAncestor := ancestor, home := .stack } : Task) = x
  have hadd : Placed w (s.addTask x) := by
    subst hx
    refine h.placed.addTask ?_ ?_ rfl rfl fun _ hheap => ?_
    · constructor
      case stack => exact fun _ => ⟨Or.inl rfl,hult⟩
      all_goals simp [newTask]
    · rw [Task.view_running rfl (by simp [newTask]) (by simp [newTask]) (Or.inr rfl)]
      rfl
    · cases hheap
  have hself : (s.addTask x).task p = s.task p := by simp [addTask, hne]
  constructor
  · refine hadd.modify (t := p) (Nat.lt_succ_of_lt hlt) ?_ rfl rfl fun hw hl hk => ?_
    · rw [hself]
      exact (h.placed.shaped.task p).setBusy hkind htarget
    · exact hadd.regrouped hw p hl hk
  · have hc : Creates p [] s ((s.addTask x).modify p fun x => { x with busy := true }) := by
      constructor
      case links =>
        intro u e
        rw [modify_task]
        split
        · next he =>
          rw [hself,he]
          rfl
        · simp [addTask, e]
      all_goals rw [modify_task,if_neg hne.symm]
      all_goals simp [addTask, ← hx, newTask]
    exact hc.linked h.linked h.placed.shaped (siblings_nil s p)

/-- The end of an undeferred task on the stack of its parent. -/
theorem gompEndTask_inOrder (ht : s.hasReturned t = true) (hh : (s.task t).home = .stack)
    (hunmet : w.children → ∀ u, (s.task u).home = .unmet → (s.task u).parent ≠ some t) :
    InOrder w (s.gompEndTask t) := by
  obtain ⟨hlt,hfreed,hbusy,hwait,hgroup,hkind⟩ := hasReturned_iff.mp ht
  have hd : Discards t s ((s.gompClearParent t).free t) := by
    refine ⟨fun u => ?_,fun q => free_queue _ t q,rfl,rfl,rfl⟩
    simp only [free, modify_task, gompClearParent_task]
  have hb := h.placed.but hwait
  have hat : s.At t (s.address t) {} := by
    have := h.placed.placed t
    unfold PlacedAt at this
    rw [Task.view_running hfreed (by rcases hkind with e | e <;> simp [e]) (by rcases hkind with e | e <;> simp [e])
      (Or.inr hh)] at this
    simpa [Task.runView, hh] using this
  have hnone : (s.task t).dependers = [] := by
    by_contra hne
    have := h.linked.hasDepend t hne
    rw [h.linked.stack t hh] at this
    cases this
  have hend : InOrder w ((s.gompClearParent t).free t) :=
    ⟨hd.placed hb hat hlt hkind (Or.inr hh) hunmet,hd.linked hb h.linked (by rw [hh]; decide) hnone⟩
  unfold gompEndTask
  dsimp only
  generalize (s.gompClearParent t).free t = s₁ at *
  cases (s₁.task t).parent with
  | none => exact hend
  | some q =>
    refine ⟨?_,hend.linked.modify rfl⟩
    by_cases hq : q < s₁.numTasks
    · exact hend.placed.modify hq ((hend.placed.shaped.task q).clearBusy) rfl rfl
        fun hw hl hk => hend.placed.regrouped hw q hl hk
    · have hfresh := hend.placed.shaped.fresh q (not_lt.mp hq)
      dsimp only
      rw [modify_self (by rw [hfresh])]
      exact hend.placed

end Events

end TeamState

end GompUlt.Team
