import GompUlt.Team.TaskCreation

/-! # Every critical section keeps the tasks in their queues

What is left after creation and completion: the waits, the taskgroups, the target tasks, and
the starts and switches as the events put them together.
-/
namespace GompUlt.Team
open Queue TeamState

namespace TeamState
variable {w : Watch} {s s' : TeamState} {t u p c : ℕ} {f : Task → Task}

/-! ## Fields of running tasks -/

/-- A task that runs is seen the same way whatever its other fields are. -/
theorem view_of_running {x x' : Task} (hf : x.freed = false) (hf' : x'.freed = false)
    (hk : x.kind ≠ .waiting ∧ x.kind ≠ .tiedSuspended) (hk' : x'.kind ≠ .waiting ∧ x'.kind ≠ .tiedSuspended)
    (hh : x.home = .implicit ∨ x.home = .stack ∨ x.home = .listed) (hhome : x'.home = x.home) : x'.view = x.view := by
  rcases hh with e | e
  · rw [Task.view_unmet (Or.inr e),Task.view_unmet (Or.inr (hhome.trans e))]
  · rw [Task.view_running hf hk.1 hk.2 e.symm,Task.view_running hf' hk'.1 hk'.2 (by rw [hhome]; exact e.symm)]
    simp only [Task.runView, hhome]

theorem running_kind {x : Task} (hk : x.kind = .implicit ∨ x.kind = .tied ∨ x.kind = .undeferred) :
    x.kind ≠ .waiting ∧ x.kind ≠ .tiedSuspended := by
  rcases hk with e | e | e <;> simp [e]

/-- A change of the fields of a running task that are about the program it runs. -/
theorem modifyRunning_inOrder (h : InOrder w s) (ht : s.isRunning t = true)
    (hshape : TaskShape s.ultVar t (f (s.task t))) (hsame : Placed.SamePlace (s.task t) (f (s.task t)))
    (hkind : (f (s.task t)).kind = (s.task t).kind) (hlinks : Linked.links (f (s.task t)) = Linked.links (s.task t)) :
    InOrder w (s.modify t f) := by
  obtain ⟨hlt,hfreed,-,-,hk,hh⟩ := isRunning_iff.mp ht
  have hrun := running_kind hk
  have hfr : (f (s.task t)).freed = false := by rw [hsame.fields.1,hfreed]
  have hhome : (f (s.task t)).home = (s.task t).home := by
    simp only [Linked.links, Prod.mk.injEq] at hlinks
    exact hlinks.2.2.2.2.1
  refine ⟨h.placed.modify hlt hshape hsame ?_ fun _ _ hw => ?_,h.linked.modify hlinks⟩
  · exact view_of_running hfreed hfr hrun (by rw [hkind]; exact hrun) hh hhome
  · rw [hkind] at hw
    exact absurd hw hrun.1

section Running
variable (h : InOrder w s) (ht : s.isRunning t = true)
include h ht

theorem setWait_inOrder (g : Task → Option Taskwait) :
    InOrder w (s.modify t fun x => { x with taskwait := g x }) := by
  obtain ⟨-,-,-,htarget,hk,hh⟩ := isRunning_iff.mp ht
  refine modifyRunning_inOrder h ht ?_ rfl rfl rfl
  exact (h.placed.shaped.task t).wait hk (hh.imp id Or.symm) htarget _

theorem setTaskgroup_inOrder (g : Option ℕ) : InOrder w (s.modify t fun x => { x with taskgroup := g }) := by
  obtain ⟨-,-,-,htarget,hk,hh⟩ := isRunning_iff.mp ht
  refine modifyRunning_inOrder h ht ?_ rfl rfl rfl
  exact (h.placed.shaped.task t).setTaskgroup hk (hh.imp id Or.symm) htarget g

theorem setUntiedBlock_inOrder (b : Bool) : InOrder w (s.modify t fun x => { x with untiedBlockVar := b }) :=
  modifyRunning_inOrder h ht ((h.placed.shaped.task t).congr rfl) rfl rfl rfl

theorem markTaskwait_inOrder : InOrder w (s.markTaskwait t) := setWait_inOrder h ht _

theorem markDependWait_inOrder : InOrder w (s.markDependWait t) := by
  unfold markDependWait modifyWait
  exact setWait_inOrder h ht _

theorem returnFromWait_inOrder : InOrder w (s.returnFromWait t) := setWait_inOrder h ht _

omit ht in
/-- The records of the taskgroups are of no account. -/
theorem setGroups_inOrder (g : ℕ → Taskgroup) (n : ℕ) : InOrder w { s with group := g, numGroups := n } :=
  ⟨placed_inert h.placed (fun _ => rfl) rfl rfl rfl rfl h.placed.shaped.fresh,h.linked.of_links fun _ => rfl⟩

theorem gompTaskgroupStart_inOrder : InOrder w (s.gompTaskgroupStart t) := by
  have hopen := setGroups_inOrder h
    (Function.update s.group s.numGroups { prev := (s.task t).taskgroup, numChildren := 0, owner := t })
    (s.numGroups + 1)
  exact setTaskgroup_inOrder hopen ht (some (s.numGroups + 1 - 1))

theorem gompTaskgroupEnd_inOrder (g : ℕ) : InOrder w (s.gompTaskgroupEnd t g) := setTaskgroup_inOrder h ht _

end Running

/-! ## Waiting for dependences -/

/-- A call that finds its task ready and leaves it so. -/
theorem upgrade_inOrder (h : InOrder w s) {q : QRef} (hq : q.plain = false) (hst : s.status q t = some .ready) :
    InOrder w (s.call q .upgrade t) := by
  have hsame : ∀ q' u, (s.call q .upgrade t).status q' u = s.status q' u := by
    intro q' u
    rw [call_status]
    split
    · next e =>
      rw [e.1,e.2,hst,hq]
      decide
    · rfl
  have hteam : ∀ type, q ≠ .team type := by
    rintro type rfl
    cases hq
  refine ⟨⟨h.placed.shaped.of_task_eq rfl rfl rfl,fun u => ?_,?_,?_,h.placed.family,h.placed.regrouped⟩,
    h.linked.of_links fun _ => rfl⟩
  · exact (h.placed.placed u).congr rfl (fun _ => rfl) fun q' => hsame q' u
  · refine h.placed.flags.call fun _ => ?_
    rw [hst,hq]
    decide
  · rw [call_drift hteam]
    exact h.placed.drift

/-- A child that is awaited and that nothing holds back is ready among the children. -/
theorem awaited_ready (h : InOrder w s) (hp : (s.task p).freed = false) (hf : (s.task u).freed = false)
    (hpar : (s.task u).parent = some p) (hdep : (s.task u).hasDepend = true) (hn : (s.task u).numDependees = 0)
    (hk : (s.task u).kind = .waiting) (hb : (s.task u).isBlocked = false) :
    s.status (.children (s.task u).type p) u = some .ready := by
  have hsh := h.placed.shaped.task u
  have hunmet : (s.task u).home ≠ .unmet := by
    intro e
    have hne := (h.linked.unmet u).mp e
    have hlen := h.linked.count u
    rw [hn] at hlen
    exact hne (List.length_eq_zero_iff.mp hlen.symm)
  have hlisted : (s.task u).home = .listed := by
    cases e : (s.task u).home with
    | implicit =>
      rw [hsh.implicit.mp e] at hk
      cases hk
    | stack =>
      rw [h.linked.stack u e] at hdep
      cases hdep
    | unmet => exact absurd e hunmet
    | listed => rfl
    | late =>
      rw [hsh.late e] at hk
      cases hk
  rw [h.placed.placed u]
  have haddr : (s.address u).parent = some p := by simp [address, liveParent, hpar, Option.filter, hp]
  have hty : (s.address u).type = (s.task u).type := rfl
  simp [expect, haddr, hty, Task.view, Task.isListed, Task.zone, Task.waitZone, zoneOf, hf, hlisted, hk, hb]

/-- One turn of the loop over the awaited children. -/
theorem awaitChild_inOrder (h : InOrder w s) (hp : (s.task p).freed = false) (hlt : u < s.numTasks)
    (hf : (s.task u).freed = false) (hpar : (s.task u).parent = some p) (hdep : (s.task u).hasDepend = true) :
    InOrder w (awaitChild p s u) := by
  have hmark : InOrder w (s.modify u fun x => { x with parentDependsOn := true }) :=
    ⟨modifyInert_placed h.placed hlt rfl,h.linked.modify rfl⟩
  have hself : (s.modify u fun x => { x with parentDependsOn := true }).task u =
      { s.task u with parentDependsOn := true } := by simp
  have hpfreed : ((s.modify u fun x => { x with parentDependsOn := true }).task p).freed = false := by
    rw [modify_task]
    split
    · exact hf
    · exact hp
  unfold awaitChild
  dsimp only
  split
  case isFalse => exact hmark
  case isTrue hc =>
    rw [hself] at hc ⊢
    simp only [Bool.and_eq_true, decide_eq_true_eq, Bool.not_eq_true'] at hc
    obtain ⟨⟨hn,hk⟩,hb⟩ := hc
    refine upgrade_inOrder hmark rfl ?_
    have hready := awaited_ready hmark (u := u) hpfreed (by rw [hself]; exact hf) (by rw [hself]; exact hpar)
      (by rw [hself]; exact hdep) (by rw [hself]; exact hn) (by rw [hself]; exact hk) (by rw [hself]; exact hb)
    rw [hself] at hready
    exact hready

theorem awaitChildren_inOrder {ms : List ℕ} (h : InOrder w s) (hp : (s.task p).freed = false)
    (hms : ∀ u ∈ ms, u < s.numTasks ∧ (s.task u).freed = false ∧ (s.task u).parent = some p ∧
      (s.task u).hasDepend = true) : InOrder w (ms.foldl (awaitChild p) s) := by
  induction ms generalizing s with
  | nil => exact h
  | cons u ms ih =>
    obtain ⟨h1,h2,h3,h4⟩ := hms u List.mem_cons_self
    have htree := awaitChild_sameTree (s := s) p u
    rw [List.foldl_cons]
    refine ih (awaitChild_inOrder h hp h1 h2 h3 h4) (by rw [htree.freed,hp]) fun v hv => ?_
    rw [htree.numTasks,htree.freed,htree.parent,htree.hasDepend]
    exact hms v (List.mem_cons_of_mem u hv)

theorem awaitChild_task (p u v : ℕ) : (awaitChild p s u).task v =
    if v = u then { s.task u with parentDependsOn := true } else s.task v := by
  unfold awaitChild
  dsimp only
  split <;> simp

theorem awaitChildren_isRunning (ms : List ℕ) : (ms.foldl (awaitChild p) s).isRunning t = s.isRunning t := by
  induction ms generalizing s with
  | nil => rfl
  | cons u ms ih =>
    rw [List.foldl_cons,ih]
    unfold isRunning
    rw [(awaitChild_sameTree p u).numTasks,awaitChild_task]
    split
    · next e => rw [e]
    · rfl

theorem beginDependWait_inOrder {ms : List ℕ} (h : InOrder w s) (ht : s.isRunning t = true) (hms : Siblings s t ms) :
    InOrder w (s.beginDependWait t ms) := by
  obtain ⟨-,hfreed,-⟩ := isRunning_iff.mp ht
  have hall := awaitChildren_inOrder h hfreed fun u hu =>
    ⟨hms.lt u hu,hms.freed u hu,hms.parent u hu,hms.hasDepend u hu⟩
  exact setWait_inOrder hall (by rw [awaitChildren_isRunning,ht]) fun _ =>
    some { nDepend := ms.length, forDepend := true }

/-! ## Target tasks -/

/-- A target task that has begun is listed. -/
theorem target_home {x : Task} {ult : Bool} {n : ℕ} (hsh : TaskShape ult n x) (ht : x.isTarget = true)
    (hk : x.kind ≠ .waiting) : x.home = .listed := by
  obtain ⟨-,-,-,-,hh,-,hu,-⟩ := hsh.target ht
  refine hh.resolve_left fun e => ?_
  rcases (hsh.unmet (Or.inl e)).2.2.2 with h | h
  · exact hk h.1
  · exact hu h.1

theorem targetAsync_inOrder (h : InOrder w s) (hlt : t < s.numTasks) (hfreed : (s.task t).freed = false)
    (ht : (s.task t).isTarget = true) (hk : (s.task t).kind = .tied) :
    InOrder w (s.modify t fun x => { x with kind := .asyncRunning }) := by
  have hsh := h.placed.shaped.task t
  have hh := target_home hsh ht (by rw [hk]; decide)
  refine ⟨h.placed.modify hlt (hsh.toAsync hk ht hfreed) rfl ?_ fun _ _ hw => ?_,h.linked.modify rfl⟩
  · exact view_of_running hfreed hfreed (by rw [hk]; decide) ⟨TaskKind.noConfusion,TaskKind.noConfusion⟩
      (Or.inr (Or.inr hh)) rfl
  · cases hw

/-- A call that is allowed where the counters are not watched. -/
theorem Flags.callOptSound {q : Option QRef} {c : Call} (h : Flags w s) (hw : w.counters = false)
    (hc : ∀ q', q = some q' → w.on q' → c.allowed q'.plain (s.status q' t) = true) : Flags w (s.callOpt q c t) := by
  cases q with
  | none => exact h
  | some q =>
    intro q' hq'
    refine ⟨?_,fun he => ?_⟩
    · by_cases e : q' = q
      · subst e
        have hal := hc q' rfl hq'
        simp only [status] at hal
        simp [callOpt, call, TaskQueue.exec, (h q' hq').1, hal]
      · simp only [callOpt, call_queue_of_ne e]
        exact (h q' hq').1
    · rw [hw] at he
      cases he

/-- The calls of priority_queue_move_task_first on the queues of the parent and of the taskgroup. -/
theorem moveFirst_flags (h : Placed w s) (hk : (s.task t).kind = .asyncRunning) (hfreed : (s.task t).freed = false)
    (hc : w.counters → (s.task t).parent = none ∧ (s.task t).taskgroup = none) :
    Flags w (s.callFamily (s.task t).type (s.task t).parent (s.task t).taskgroup (.moveFirst false) t) := by
  have hsh := h.shaped.task t
  have ht := hsh.async hk
  have hh := target_home hsh ht (by rw [hk]; decide)
  have hgroup := hsh.unopened (hsh.target ht).2.2.1 (Or.inr (Or.inr (Or.inr ht)))
  have hl : (s.task t).isListed = true := by simp [Task.isListed, hfreed, hh]
  have hat := h.placed t
  unfold PlacedAt at hat
  rw [Task.view_running hfreed (by rw [hk]; decide) (by rw [hk]; decide) (Or.inl hh)] at hat
  cases hw : w.counters with
  | true =>
    obtain ⟨h1,h2⟩ := hc hw
    rw [h1,h2]
    exact h.flags
  | false =>
    unfold callFamily
    refine Flags.callOptSound (Flags.callOptSound h.flags hw fun q hq hon => ?_) hw fun q hq hon => ?_
    · obtain ⟨p,hp,rfl⟩ := Option.map_eq_some_iff.mp hq
      have haddr : (s.address t).parent = some p := by rw [← parent_eq_of_family (h.family hon) hl,hp]
      have hty : (s.address t).type = (s.task t).type := rfl
      rw [hat]
      simp [expect, haddr, hty, Task.runView, hh, Call.allowed, QRef.plain]
    · obtain ⟨g,hg,rfl⟩ := Option.map_eq_some_iff.mp hq
      have haddr : (s.address t).group = some g := hgroup.symm.trans hg
      have hty : (s.address t).type = (s.task t).type := rfl
      rw [callOpt_status,hat]
      simp [expect, haddr, hty, Task.runView, hh, Call.allowed, QRef.plain]

/-- The calls of gomp_target_task_completion. -/
def completionCalls (s : TeamState) (t : ℕ) : TeamState :=
  (s.callFamily (s.task t).type (s.task t).parent (s.task t).taskgroup (.moveFirst false) t).call
    (.team (s.task t).type) (.insert false) t

theorem completionCalls_frame (s : TeamState) (t : ℕ) : (s.completionCalls t).task = s.task ∧
    (s.completionCalls t).numTasks = s.numTasks ∧ (s.completionCalls t).ultVar = s.ultVar := by
  simp [completionCalls]

section Completion
variable (h : Placed w s) (hk : (s.task t).kind = .asyncRunning) (hfreed : (s.task t).freed = false)
  (hc : w.counters → (s.task t).parent = none ∧ (s.task t).taskgroup = none)
include h hk hfreed hc

theorem completionCalls_placed : PlacedBut w t (-1) (s.completionCalls t) ∧
    (s.completionCalls t).At t (s.address t)
      { family := some .ready, group := some .ready, team := some .ready } := by
  have hsh := h.shaped.task t
  have ht := hsh.async hk
  obtain ⟨-,hwait,hsusp,-⟩ := hsh.target ht
  have hh := target_home hsh ht (by rw [hk]; decide)
  have hgroup := hsh.unopened hsusp (Or.inr (Or.inr (Or.inr ht)))
  have hty : (s.address t).type = (s.task t).type := rfl
  have hat := h.placed t
  unfold PlacedAt at hat
  rw [Task.view_running hfreed (by rw [hk]; decide) (by rw [hk]; decide) (Or.inl hh)] at hat
  have hfl := moveFirst_flags h hk hfreed hc
  have hfam := hat.callFamily (c := .moveFirst false) hty (s.task t).taskgroup (address_group s t) (by decide)
    (parent_or_none s t)
  have hfl₂ := Flags.callTeam hfl hfam (c := .insert false) hty (exact_insert false true)
  refine ⟨((h.but hwait).callFamily hfl).callTeam hfl₂,(hfam.callTeam hty).view_eq ?_⟩
  simp only [Task.runView, hh, hgroup, if_true]
  ext1 <;> decide

/-- Then the task waits again. -/
theorem completionWaits_placed (hlt : t < s.numTasks) :
    PlacedBut w t (-1) ((s.completionCalls t).modify t fun x => { x with kind := .waiting }) ∧
    ((s.completionCalls t).modify t fun x => { x with kind := .waiting }).address t = s.address t := by
  have hsh := h.shaped.task t
  obtain ⟨-,hwait,hsusp,-⟩ := hsh.target (hsh.async hk)
  obtain ⟨hb,-⟩ := completionCalls_placed h hk hfreed hc
  obtain ⟨htask,hnum,hult⟩ := completionCalls_frame s t
  generalize s.completionCalls t = s₂ at *
  constructor
  · refine hb.modify (by rw [hnum]; exact hlt) ?_ rfl ?_ (fun hw hheap p hp => ?_) fun _ _ _ => ?_
    · rw [htask,hult]
      exact hsh.completion hk
    · rw [htask]
      exact hwait
    · exact hb.family hw t p hheap hp
    · rw [htask]
      exact hsh.unopened hsusp (Or.inr (Or.inr (Or.inr (hsh.async hk))))
  · simp only [address, liveParent, modify_task, if_true, htask]
    congr 2
    funext p
    split
    · next e => rw [e]
    · rfl

/-- gomp_target_task_completion. -/
theorem gompTargetTaskCompletion_placed (hlt : t < s.numTasks) : Placed w (s.gompTargetTaskCompletion t) := by
  have hsh := h.shaped.task t
  have ht := hsh.async hk
  obtain ⟨hty,-,hsusp,hb,-⟩ := hsh.target ht
  have hh := target_home hsh ht (by rw [hk]; decide)
  have hgroup := hsh.unopened hsusp (Or.inr (Or.inr (Or.inr ht)))
  obtain ⟨-,hat⟩ := completionCalls_placed h hk hfreed hc
  obtain ⟨hbut,haddr⟩ := completionWaits_placed h hk hfreed hc hlt
  have hself : ((s.completionCalls t).modify t fun x => { x with kind := .waiting }).task t =
      { s.task t with kind := .waiting } := by simp [(completionCalls_frame s t).1]
  have heq : s.gompTargetTaskCompletion t =
      ((s.task t).parent.elim ((s.completionCalls t).modify t fun x => { x with kind := .waiting })
        ((s.completionCalls t).modify t fun x => { x with kind := .waiting }).notifyParent).addQueued 1 := by
    unfold gompTargetTaskCompletion completionCalls
    cases hp : (s.task t).parent <;> simp only [hb, hp, Option.elim]
  have hat' : ((s.completionCalls t).modify t fun x => { x with kind := .waiting }).At t (s.address t) _ := hat.modify
  rw [heq]
  generalize (s.completionCalls t).modify t (fun x => { x with kind := .waiting }) = s₃ at *
  have hn : Nudged w s₃ ((s.task t).parent.elim s₃ s₃.notifyParent) := by
    cases (s.task t).parent with
    | none => exact .refl w s₃
    | some p => exact notifyParent_nudged hbut.waiters p
  generalize (s.task t).parent.elim s₃ s₃.notifyParent = s₄ at *
  obtain ⟨g1,g2,g3⟩ := hbut.nudged_at hn
  refine ((hbut.nudged hn).addQueued 1).done ?_
  unfold PlacedAt
  have haddr' : (s₄.addQueued 1).address t = s.address t := (show _ = s₄.address t from rfl).trans (g2.trans haddr)
  rw [haddr',addQueued_task,g1,hself,
    Task.view_tiedWaiting (x := { s.task t with kind := .waiting }) hfreed hty rfl hgroup hh]
  refine ((g3 _ _ hat').addQueued 1).view_eq ?_
  simp [Task.waitZone, hb, zoneOf]

end Completion

end TeamState

end GompUlt.Team
