import GompUlt.Depend.Creation

/-! # Runs of creations and completions of sibling tasks

A task waits exactly as long as an earlier sibling with a conflicting use of one of its
addresses is unfinished.  The chains keep only the last out entry of an address live, so the
invariant carries the wait for an older one through the later out use that replaced it.
-/
namespace GompUlt.Depend
open LinkChain Run

variable {τ α : Type*}

namespace DependState

@[simp] theorem enqueue_created (s : DependState τ α) (t : τ) : (s.enqueue t).created = s.created := rfl
@[simp] theorem enqueue_queued (s : DependState τ α) (t : τ) : (s.enqueue t).queued = s.queued ++ [t] := rfl
@[simp] theorem enqueue_dependCount (s : DependState τ α) (t : τ) : (s.enqueue t).dependCount = s.dependCount := rfl
@[simp] theorem enqueue_numDependees (s : DependState τ α) (t : τ) :
    (s.enqueue t).numDependees = s.numDependees := rfl
@[simp] theorem enqueue_dependersOf (s : DependState τ α) (t d : τ) :
    (s.enqueue t).dependersOf d = s.dependersOf d := rfl

section Inv
variable [DecidableEq τ]

/-- What holds between a creation or completion and the next, apart from the queues. -/
structure DependCore (s : DependState τ α) : Prop where
  nodup : s.created.Nodup
  completed : ∀ t ∈ s.completed, t ∈ s.created
  entries : ∀ t ∈ s.created, s.EntriesOk t (s.dependCount t)
  chains : ∃ chain, s.Holds chain ∧ s.ChainsOk s.Live chain
  dependers : ∀ d ∈ s.created, ∀ t ∈ s.dependersOf d, s.Unfinished d ∧ s.Unfinished t ∧ Earlier s.created d t ∧
    ∃ a, s.ConflictAt a d t
  dependers_nodup : ∀ d ∈ s.created, (s.dependersOf d).Nodup
  count : ∀ t, s.Unfinished t → 0 < s.dependCount t →
    s.numDependees t = (s.unfinished.countP fun d => t ∈ s.dependersOf d : ℕ)
  covered : ∀ e t a, s.Unfinished e → s.Unfinished t → Earlier s.created e t → s.ConflictAt a e t →
    t ∈ s.dependersOf e ∨ ∃ o, s.Unfinished o ∧ Earlier s.created e o ∧ s.UsesOut a o ∧ t ∈ s.dependersOf o
  past : ∀ t ∈ s.completed, ∀ e a, s.Unfinished e → Earlier s.created e t → ¬ s.ConflictAt a e t

/-- The tasks in the ready queues are those that no vector holds. -/
structure DependInv (s : DependState τ α) : Prop extends DependCore s where
  queued_nodup : s.queued.Nodup
  queued_iff : ∀ t, t ∈ s.queued ↔ t ∈ s.created ∧ ∀ d ∈ s.created, t ∉ s.dependersOf d

end Inv

section Create
variable [DecidableEq τ] {s₀ s : DependState τ α} {t : τ} {n nout : ℕ}

theorem DependInv.base (hi : DependInv s₀) (ht : t ∉ s₀.created) : Base s₀ t :=
  ⟨ht,hi.nodup,fun d hd h => ht (hi.dependers d hd t h).2.1.1,hi.entries⟩

/-- The state in which the loop of gomp_task_handle_depend starts. -/
theorem DependInv.building (hi : DependInv s₀) (ht : t ∉ s₀.created) (n nout : ℕ) :
    Building s₀ { s₀ with
      created := t :: s₀.created
      dependers := Function.update s₀.dependers t none
      dependCount := Function.update s₀.dependCount t n
      numDependees := Function.update s₀.numDependees t 0 } t n nout 0 := by
  have hb := hi.base ht
  have hof : ∀ d ∈ s₀.created, ({ s₀ with
      created := t :: s₀.created
      dependers := Function.update s₀.dependers t none
      dependCount := Function.update s₀.dependCount t n
      numDependees := Function.update s₀.numDependees t 0 } : DependState τ α).dependersOf d = s₀.dependersOf d := by
    intro d hd
    simp [dependersOf, Function.update_of_ne (hb.ne hd)]
  obtain ⟨chain,hh,hc⟩ := hi.chains
  have hent : s₀.Entered t 0 = s₀.Live := by
    funext x
    simp [Entered]
  refine ⟨rfl,rfl,rfl,rfl,fun _ _ => ⟨rfl,rfl,rfl⟩,by simp,by simp,⟨chain,hh,?_,?_⟩,⟨?_,?_,?_,?_⟩,?_,by simp⟩
  · rw [hent]
    refine ⟨hc.mem,hc.ordered,hc.liveOut,fun a e he hr => ?_⟩
    obtain ⟨h₁,o,h₂,h₃,h₄,h₅⟩ := hc.later a e he hr
    exact ⟨h₁,o,h₂,h₃,h₄,.inr h₅⟩
  · intro a x hx hxt
    exact absurd hxt (hb.ne ((hc.mem a x).mp hx).1.1.1)
  · intro d hd
    exact .inl (hof d hd)
  · simp
  · have hz : s₀.unfinished.countP (fun d => t ∈ ({ s₀ with
        created := t :: s₀.created
        dependers := Function.update s₀.dependers t none
        dependCount := Function.update s₀.dependCount t n
        numDependees := Function.update s₀.numDependees t 0 } : DependState τ α).dependersOf d) = 0 := by
      rw [List.countP_eq_zero]
      intro d hd
      rw [hof d (mem_unfinished.mp hd).1]
      simpa using hb.new d (mem_unfinished.mp hd).1
    simp [hz]
  · intro x hx
    simp [Function.update_of_ne hx]
  · intro d hd h
    rw [hof d hd] at h
    exact absurd h (hb.new d hd)

theorem Building.unfinished_iff (hi : DependInv s₀) (hb : Base s₀ t) (hB : Building s₀ s t n nout n) {x : τ} :
    s.Unfinished x ↔ s₀.Unfinished x ∨ x = t := by
  simp only [Unfinished, hB.created, hB.completed, List.mem_cons]
  constructor
  · rintro ⟨rfl | h,hc⟩
    · exact .inr rfl
    · exact .inl ⟨h,hc⟩
  · rintro (h | rfl)
    · exact ⟨.inr h.1,h.2⟩
    · exact ⟨.inl rfl,fun h => hb.fresh (hi.completed x h)⟩

theorem Building.conflictAt_iff (hb : Base s₀ t) (hB : Building s₀ s t n nout n) {a : α} {d x : τ}
    (hd : d ∈ s₀.created) (hx : x ∈ s₀.created) : s.ConflictAt a d x ↔ s₀.ConflictAt a d x := by
  have hda : ∀ i, s.addr (d,i) = s₀.addr (d,i) ∧ s.isIn (d,i) = s₀.isIn (d,i) := fun i =>
    ⟨(hB.others (d,i) (hb.ne hd)).1,(hB.others (d,i) (hb.ne hd)).2.1⟩
  have hxa : ∀ i, s.addr (x,i) = s₀.addr (x,i) ∧ s.isIn (x,i) = s₀.isIn (x,i) := fun i =>
    ⟨(hB.others (x,i) (hb.ne hx)).1,(hB.others (x,i) (hb.ne hx)).2.1⟩
  simp only [ConflictAt, hda, hxa, hB.dependCount, Function.update_of_ne (hb.ne hd), Function.update_of_ne (hb.ne hx)]

theorem Building.usesOut (hb : Base s₀ t) (hB : Building s₀ s t n nout n) {a : α} {o : τ} (ho : o ∈ s₀.created)
    (h : s₀.UsesOut a o) : s.UsesOut a o := by
  obtain ⟨i,hi,ha,hin⟩ := h
  refine ⟨i,?_,?_,?_⟩
  · rw [hB.dependCount, Function.update_of_ne (hb.ne ho)]
    exact hi
  · rw [(hB.others (o,i) (hb.ne ho)).1, ha]
  · rw [(hB.others (o,i) (hb.ne ho)).2.1, hin]

/-- Other tasks stand in the same vectors as before. -/
theorem Building.mem_dependersOf (hB : Building s₀ s t n nout n) {d x : τ} (hd : d ∈ s₀.created) (hx : x ≠ t) :
    x ∈ s.dependersOf d ↔ x ∈ s₀.dependersOf d := by
  rcases hB.holding.dependers d hd with h | h
  · rw [h]
  · simp [h, hx]

theorem Building.dependersOf_self (hB : Building s₀ s t n nout n) : s.dependersOf t = [] := by
  simp [dependersOf, hB.holding.own]

theorem Building.unfinished_eq (hi : DependInv s₀) (hb : Base s₀ t) (hB : Building s₀ s t n nout n) :
    s.unfinished = t :: s₀.unfinished := by
  have ht : t ∉ s₀.completed := fun h => hb.fresh (hi.completed t h)
  simp [unfinished, hB.created, hB.completed, ht]

theorem Building.count (hi : DependInv s₀) (hb : Base s₀ t) (hB : Building s₀ s t n nout n) {x : τ}
    (hx : s.Unfinished x) (hc : 0 < s.dependCount x) :
    s.numDependees x = (s.unfinished.countP fun d => x ∈ s.dependersOf d : ℕ) := by
  have hself : s.unfinished.countP (fun d => x ∈ s.dependersOf d) =
      s₀.unfinished.countP fun d => x ∈ s.dependersOf d := by
    rw [hB.unfinished_eq hi hb, List.countP_cons_of_neg (by simp [hB.dependersOf_self])]
  rw [hself]
  rcases (hB.unfinished_iff hi hb).mp hx with hx | rfl
  · have hxt := hb.ne hx.1
    rw [hB.dependCount, Function.update_of_ne hxt] at hc
    rw [hB.holding.others x hxt, hi.count x hx hc]
    congr 1
    refine List.countP_congr fun d hd => ?_
    simp [hB.mem_dependersOf (mem_unfinished.mp hd).1 hxt]
  · exact hB.holding.count

theorem Building.covered_all (hi : DependInv s₀) (hb : Base s₀ t) (hB : Building s₀ s t n nout n) {e x : τ} {a : α}
    (he : s.Unfinished e) (hx : s.Unfinished x) (hex : Earlier s.created e x) (hca : s.ConflictAt a e x) :
    x ∈ s.dependersOf e ∨ ∃ o, s.Unfinished o ∧ Earlier s.created e o ∧ s.UsesOut a o ∧ x ∈ s.dependersOf o := by
  have hin : ∀ {y}, s₀.Unfinished y → s.Unfinished y := fun h => (hB.unfinished_iff hi hb).mpr (.inl h)
  have hearl : ∀ {y z}, Earlier s₀.created y z → Earlier s.created y z := fun h => by
    rw [hB.created]
    exact .inr h
  rw [hB.created] at hex
  rcases (hB.unfinished_iff hi hb).mp hx with hx₀ | rfl
  · have hxt := hb.ne hx₀.1
    have hex₀ : Earlier s₀.created e x := hex.resolve_left fun h => hxt h.1
    have he₀ : s₀.Unfinished e := ((hB.unfinished_iff hi hb).mp he).resolve_right (hb.ne hex₀.mem.1)
    rcases hi.covered e x a he₀ hx₀ hex₀ ((hB.conflictAt_iff hb he₀.1 hx₀.1).mp hca) with h | ⟨o,h₁,h₂,h₃,h₄⟩
    · exact .inl ((hB.mem_dependersOf he₀.1 hxt).mpr h)
    · exact .inr ⟨o,hin h₁,hearl h₂,hB.usesOut hb h₁.1 h₃,(hB.mem_dependersOf h₁.1 hxt).mpr h₄⟩
  · have he₀ : s₀.Unfinished e := by
      refine ((hB.unfinished_iff hi hb).mp he).resolve_right ?_
      rintro rfl
      exact hex.elim (fun h => hb.fresh h.2) fun h => hb.fresh h.mem.1
    obtain ⟨i,hic,j,hj,hea,hxa,ho⟩ := hca
    rw [hB.dependCount, Function.update_of_ne (hb.ne he₀.1)] at hic
    rw [hB.dependCount, Function.update_self] at hj
    rcases hB.covered e he₀ i hic j hj (hea.trans hxa.symm) ho with h | ⟨o,h₁,h₂,h₃,h₄⟩
    · exact .inl h
    · exact .inr ⟨o,hin h₁,hearl h₂,hxa ▸ hB.usesOut hb h₁.1 h₃,h₄⟩

/-- The state after gomp_task_handle_depend. -/
theorem Building.core (hi : DependInv s₀) (hb : Base s₀ t) (hB : Building s₀ s t n nout n) : DependCore s := by
  have hin : ∀ {y}, s₀.Unfinished y → s.Unfinished y := fun h => (hB.unfinished_iff hi hb).mpr (.inl h)
  have htu : s.Unfinished t := (hB.unfinished_iff hi hb).mpr (.inr rfl)
  have hdc : ∀ d ∈ s₀.created, s.dependCount d = s₀.dependCount d := fun d hd => by
    rw [hB.dependCount, Function.update_of_ne (hb.ne hd)]
  have hdt : s.dependCount t = n := by rw [hB.dependCount, Function.update_self]
  constructor
  case nodup =>
    rw [hB.created]
    exact List.nodup_cons.mpr ⟨hb.fresh,hb.nodup⟩
  case completed =>
    intro x hx
    rw [hB.completed] at hx
    simp [hB.created, hi.completed x hx]
  case entries =>
    intro x hx
    rw [hB.created] at hx
    rcases List.mem_cons.mp hx with rfl | hx
    · rw [hdt]
      exact hB.entriesOk
    · rw [hdc x hx]
      exact (hb.entries x hx).congr fun i => hB.others (x,i) (hb.ne hx)
  case chains =>
    obtain ⟨chain,hh,hc,_⟩ := hB.chains
    have hent : s.Live = s₀.Entered t n := by
      funext x
      simp only [Live, Entered, eq_iff_iff, hB.unfinished_iff hi hb]
      constructor
      · rintro ⟨hx | hx,hlt⟩
        · exact .inl ⟨hx,by rwa [hdc _ hx.1] at hlt⟩
        · exact .inr ⟨hx,by rwa [hx, hdt] at hlt⟩
      · rintro (⟨hx,hlt⟩ | ⟨hx,hlt⟩)
        · exact ⟨.inl hx,by rwa [hdc _ hx.1]⟩
        · exact ⟨.inr hx,by rwa [hx, hdt]⟩
    exact ⟨chain,hh,hent ▸ hc⟩
  case dependers =>
    intro d hd x hx
    rw [hB.created] at hd
    rcases List.mem_cons.mp hd with rfl | hd₀
    · simp [hB.dependersOf_self] at hx
    · by_cases hxt : x = t
      · subst hxt
        obtain ⟨hu,i,hic,j,hj,ha,ho⟩ := hB.held d hd₀ hx
        refine ⟨hin hu,htu,?_,_,i,?_,j,?_,ha,rfl,ho⟩
        · rw [hB.created]
          exact .inl ⟨rfl,hd₀⟩
        · rw [hdc d hd₀]
          exact hic
        · rw [hdt]
          exact hj
      · obtain ⟨h₁,h₂,h₃,a,h₄⟩ := hi.dependers d hd₀ x ((hB.mem_dependersOf hd₀ hxt).mp hx)
        refine ⟨hin h₁,hin h₂,?_,a,(hB.conflictAt_iff hb hd₀ h₂.1).mpr h₄⟩
        rw [hB.created]
        exact .inr h₃
  case dependers_nodup =>
    intro d hd
    rw [hB.created] at hd
    rcases List.mem_cons.mp hd with rfl | hd₀
    · simp [hB.dependersOf_self]
    · rcases hB.holding.dependers d hd₀ with h | h
      · rw [h]
        exact hi.dependers_nodup d hd₀
      · rw [h]
        refine List.nodup_append.mpr ⟨hi.dependers_nodup d hd₀,by simp,?_⟩
        rintro x hx y hy rfl
        obtain rfl : x = t := by simpa using hy
        exact hb.new d hd₀ hx
  case count => exact fun x hx hc => hB.count hi hb hx hc
  case covered => exact fun e x a he hx hex hca => hB.covered_all hi hb he hx hex hca
  case past =>
    intro x hx e a he hex hca
    rw [hB.completed] at hx
    have hx₀ := hi.completed x hx
    rw [hB.created] at hex
    have hex₀ : Earlier s₀.created e x := hex.resolve_left fun h => hb.ne hx₀ h.1
    have he₀ : s₀.Unfinished e := ((hB.unfinished_iff hi hb).mp he).resolve_right (hb.ne hex₀.mem.1)
    exact hi.past x hx e a he₀ hex₀ ((hB.conflictAt_iff hb he₀.1 hx₀).mp hca)

/-- A task waits in some vector exactly when its num_dependees is not 0. -/
theorem Building.queued_self (hB : Building s₀ s t n nout n) :
    s.numDependees t = 0 ↔ ∀ d ∈ s.created, t ∉ s.dependersOf d := by
  rw [hB.holding.count, Nat.cast_eq_zero, List.countP_eq_zero, hB.created]
  constructor
  · intro h d hd ht
    rcases List.mem_cons.mp hd with rfl | hd₀
    · simp [hB.dependersOf_self] at ht
    · exact absurd ht (by simpa using h d (mem_unfinished.mpr (hB.held d hd₀ ht).1))
  · intro h d hd
    simpa using h d (by simp [(mem_unfinished.mp hd).1])

theorem Building.queued_others (hi : DependInv s₀) (hb : Base s₀ t) (hB : Building s₀ s t n nout n) {x : τ}
    (hx : x ≠ t) : x ∈ s₀.queued ↔ x ∈ s.created ∧ ∀ d ∈ s.created, x ∉ s.dependersOf d := by
  rw [hi.queued_iff, hB.created, List.mem_cons, or_iff_right hx]
  refine and_congr_right fun _ => ⟨fun h d hd => ?_,fun h d hd => ?_⟩
  · rcases List.mem_cons.mp hd with rfl | hd₀
    · simp [hB.dependersOf_self]
    · rw [hB.mem_dependersOf hd₀ hx]
      exact h d hd₀
  · rw [← hB.mem_dependersOf hd hx]
    exact h d (by simp [hd])

/-- The end of GOMP_task: the task enters the queues unless it waits. -/
theorem Building.inv (hi : DependInv s₀) (hb : Base s₀ t) (hB : Building s₀ s t n nout n) :
    DependInv (if s.numDependees t ≠ 0 then s else s.enqueue t) := by
  have hc := hB.core hi hb
  have htq : t ∉ s₀.queued := fun h => hb.fresh ((hi.queued_iff t).mp h).1
  by_cases hz : s.numDependees t = 0
  · rw [if_neg (not_not.mpr hz)]
    refine ⟨⟨hc.nodup,hc.completed,fun x hx => (hc.entries x hx).congr fun _ => ⟨rfl,rfl,rfl⟩,?_,hc.dependers,
      hc.dependers_nodup,hc.count,hc.covered,hc.past⟩,?_,fun x => ?_⟩
    · obtain ⟨chain,hh,hok⟩ := hc.chains
      exact ⟨chain,hh,hok.congr rfl fun _ _ => ⟨rfl,rfl,rfl,rfl⟩⟩
    · simpa [hB.queued] using List.nodup_append.mpr ⟨hi.queued_nodup,by simp,by
        rintro x hx y hy rfl
        obtain rfl : x = t := by simpa using hy
        exact htq hx⟩
    · by_cases hx : x = t
      · subst hx
        simpa [hB.created] using hB.queued_self.mp hz
      · simpa [hB.queued, hx] using hB.queued_others hi hb hx
  · rw [if_pos hz]
    refine ⟨hc,by rw [hB.queued]; exact hi.queued_nodup,fun x => ?_⟩
    rw [hB.queued]
    by_cases hx : x = t
    · subst hx
      refine iff_of_false htq fun h => hz (hB.queued_self.mpr h.2)
    · exact hB.queued_others hi hb hx

/-- The num_dependees field of a task without depend entries is never read. -/
theorem DependInv.setNum (hi : DependInv s) (num : τ → ℤ)
    (hn : ∀ x ∈ s.created, 0 < s.dependCount x → num x = s.numDependees x) : DependInv { s with numDependees := num } := by
  obtain ⟨chain,hh,hok⟩ := hi.chains
  refine ⟨⟨hi.nodup,hi.completed,fun x hx => (hi.entries x hx).congr fun _ => ⟨rfl,rfl,rfl⟩,
    ⟨chain,hh,hok.congr rfl fun _ _ => ⟨rfl,rfl,rfl,rfl⟩⟩,hi.dependers,hi.dependers_nodup,?_,hi.covered,hi.past⟩,
    hi.queued_nodup,hi.queued_iff⟩
  intro x hx hc
  exact (hn x hx.1 hc).trans (hi.count x hx hc)

/-- GOMP_task creates the task and keeps the invariant. -/
theorem gompTask_inv [DecidableEq α] (hi : DependInv s₀) (ht : t ∉ s₀.created) (depend : List α) (nout : ℕ) :
    ∃ s', s₀.gompTask t depend nout = some s' ∧ DependInv s' ∧ s₀.queued <+: s'.queued := by
  have hb := hi.base ht
  have hB := hi.building ht depend.length nout
  unfold gompTask
  simp only
  by_cases hd : depend = []
  · subst hd
    have hinv := hB.inv hi hb
    rw [if_neg (by simp)] at hinv
    refine ⟨_,if_pos rfl,hinv.setNum s₀.numDependees ?_,List.prefix_append _ _⟩
    intro x _ hc
    have hxt : x ≠ t := by
      rintro rfl
      simp at hc
    simp [Function.update_of_ne hxt]
  · rw [if_neg hd]
    rw [← Nat.zero_add depend.length] at hB
    obtain ⟨s,hs,hB'⟩ := hB.handleEntries hb depend
    refine ⟨_,?_,hB'.inv hi hb,?_⟩
    · simpa [gompTaskHandleDepend] using ⟨s,by simpa using hs,rfl⟩
    · split
      · simp [hB'.queued]
      · simp [hB'.queued]

end Create

section Complete
variable [DecidableEq τ] {s : DependState τ α} {c : τ}

/-- A task that may complete is held by no vector. -/
theorem DependCore.released (hi : DependCore s) (hc : s.Unfinished c)
    (hz : s.dependCount c = 0 ∨ s.numDependees c = 0) {d : τ} (hd : d ∈ s.created) : c ∉ s.dependersOf d := by
  intro h
  obtain ⟨hu,_,_,a,i,_,j,hj,_⟩ := hi.dependers d hd c h
  have hpos : 0 < s.dependCount c := by omega
  have hcount := hi.count c hc hpos
  rw [hz.resolve_left (by omega), eq_comm, Nat.cast_eq_zero, List.countP_eq_zero] at hcount
  exact absurd h (by simpa using hcount d (mem_unfinished.mpr hu))

/-- No unfinished earlier sibling conflicts with a task that no vector holds. -/
theorem DependCore.noConflict (hi : DependCore s) (hc : s.Unfinished c) (hn : ∀ d ∈ s.created, c ∉ s.dependersOf d)
    {e : τ} (he : s.Unfinished e) (hec : Earlier s.created e c) (a : α) : ¬ s.ConflictAt a e c := by
  intro h
  rcases hi.covered e c a he hc hec h with h | ⟨o,ho,_,_,h⟩
  · exact hn e he.1 h
  · exact hn o ho.1 h

/-- The live entries without the first k of the completing task. -/
def Leaving (s : DependState τ α) (c : τ) (k : ℕ) (x : τ × ℕ) : Prop := s.Live x ∧ ¬ (x.1 = c ∧ x.2 < k)

omit [DecidableEq τ] in
theorem leaving_succ {x : τ × ℕ} {k : ℕ} : s.Leaving c (k + 1) x ↔ s.Leaving c k x ∧ x ≠ (c,k) := by
  rcases x with ⟨y,j⟩
  simp only [Leaving, ne_eq, Prod.mk.injEq, Nat.lt_succ_iff_lt_or_eq]
  tauto

theorem unlink_eq {κ : Type*} [DecidableEq κ] (h : Fields κ) (n : κ) :
    h.unlink n = (h.setPrevOf (h.next n) (h.prev n)).setNextOf (h.prev n) (h.next n) := by
  simp [Fields.unlink, setPrevOf_prev]

variable [DecidableEq α]

omit [DecidableEq τ] in
/-- A live out entry of a task that may complete is no one's reason to be redundant_out. -/
theorem ChainsOk.leave {chain : α → List (τ × ℕ)} {k : ℕ} (hok : s.ChainsOk (s.Leaving c k) chain)
    (hk : k < s.dependCount c) (hno : ∀ e a, s.Unfinished e → Earlier s.created e c → ¬ s.ConflictAt a e c)
    {u v : List (τ × ℕ)} (hu : chain (s.addr (c,k)) = u ++ (c,k) :: v) (hn : (chain (s.addr (c,k))).Nodup) :
    s.ChainsOk (s.Leaving c (k + 1)) (Function.update chain (s.addr (c,k)) (u ++ v)) := by
  have hsub : (u ++ v).Sublist (chain (s.addr (c,k))) := by
    rw [hu]
    exact List.Sublist.append (List.Sublist.refl u) (List.sublist_cons_self _ v)
  have hmem : ∀ x, x ∈ u ++ v ↔ x ∈ chain (s.addr (c,k)) ∧ x ≠ (c,k) := by
    intro x
    rw [hu] at hn ⊢
    have hck := (List.nodup_cons.mp (List.nodup_middle.mp hn)).1
    constructor
    · intro hx
      refine ⟨by simp only [List.mem_append, List.mem_cons] at hx ⊢; tauto,?_⟩
      rintro rfl
      exact hck hx
    · rintro ⟨hx,hne⟩
      simp only [List.mem_append, List.mem_cons] at hx ⊢
      tauto
  refine hok.replace rfl rfl rfl rfl (fun _ _ => rfl) ?_ ?_ ((hok.ordered _).sublist hsub) ?_ ?_
  · intro x hx
    rw [leaving_succ, and_iff_left]
    rintro rfl
    exact hx rfl
  · intro x
    rw [hmem, hok.mem, leaving_succ]
    tauto
  · exact fun e he e' he' => hok.liveOut _ e (hsub.subset he) e' (hsub.subset he')
  · intro e he hr
    obtain ⟨hi,o,ho,hoi,hor,hoe⟩ := hok.later _ e (hsub.subset he) hr
    refine ⟨hi,o,(hmem o).mpr ⟨ho,?_⟩,hoi,hor,hoe⟩
    rintro rfl
    obtain ⟨⟨hel,_⟩,hea,_⟩ := (hok.mem _ e).mp (hsub.subset he)
    exact hno e.1 (s.addr (c,k)) hel.1 hoe ⟨e.2,hel.2,k,hk,hea,rfl,.inl hi⟩

/-- One round of the loop of gomp_task_run_post_handle_depend_hash. -/
theorem unlinkEntry_spec {h : Fields (τ × ℕ)} {hash : α → Option (τ × ℕ)} {chain : α → List (τ × ℕ)} {k : ℕ}
    (hk : k < s.dependCount c) (hh : { s with links := h, dependHash := hash }.Holds chain)
    (hok : s.ChainsOk (s.Leaving c k) chain) (hc : s.Unfinished c)
    (hno : ∀ e a, s.Unfinished e → Earlier s.created e c → ¬ s.ConflictAt a e c) :
    ∃ h' hash' chain', unlinkEntry c { s with links := h, dependHash := hash } k =
        some { s with links := h', dependHash := hash' } ∧
      { s with links := h', dependHash := hash' }.Holds chain' ∧ s.ChainsOk (s.Leaving c (k + 1)) chain' := by
  unfold unlinkEntry
  simp only
  by_cases hx : s.redundant (c,k) = true
  · refine ⟨h,hash,chain,if_pos hx,hh,?_⟩
    refine ⟨fun a x => ?_,hok.ordered,hok.liveOut,hok.later⟩
    rw [hok.mem, leaving_succ]
    by_cases hxk : x = (c,k)
    · simp [hxk, hx]
    · simp [hxk]
  · have hin : (c,k) ∈ chain (s.addr (c,k)) :=
      (hok.mem _ _).mpr ⟨⟨⟨hc,hk⟩,fun h => lt_irrefl k h.2⟩,rfl,by simpa using hx⟩
    obtain ⟨u,v,hu⟩ := List.append_of_mem hin
    have hl : Linked h (u ++ (c,k) :: v) := hu ▸ (hh (s.addr (c,k))).1
    have hhead : hash (s.addr (c,k)) = (u ++ (c,k) :: v).head? := hu ▸ (hh (s.addr (c,k))).2
    have hleave := hok.leave hk hno hu (hh (s.addr (c,k))).1.nodup
    have hframe : ∀ b ≠ s.addr (c,k), ∀ x ∈ chain b,
        (h.unlink (c,k)).next x = h.next x ∧ (h.unlink (c,k)).prev x = h.prev x := by
      intro b hb x hx
      have hxa : x ∉ u ++ (c,k) :: v := fun hxa =>
        hb (((hok.mem b x).mp hx).2.1.symm.trans ((hok.mem _ x).mp (hu ▸ hxa)).2.1)
      have hxu : u.getLast? ≠ some x := fun e => hxa (by simp [List.mem_of_getLast? e])
      have hxv : v.head? ≠ some x := fun e => hxa (by simp [List.mem_of_head? e])
      rw [unlink_eq, setNextOf_next, setNextOf_prev, setPrevOf_next, setPrevOf_prev, hl.next_mid, hl.prev_mid,
        if_neg hxu, if_neg hxv]
      exact ⟨rfl,rfl⟩
    rw [if_neg hx]
    cases hp : h.prev (c,k) with
    | none =>
      obtain rfl : u = [] := by simpa [hp] using hl.prev_mid.symm
      refine ⟨h.unlink (c,k),Function.update hash (s.addr (c,k)) v.head?,_,?_,
        hh.replace (u := v) hl.unlink rfl hframe,hleave⟩
      simp [hhead, unlink_eq, hp, hl.next_mid, Fields.setNextOf]
    | some p =>
      have hup : u.getLast? = some p := by rw [← hl.prev_mid, hp]
      have hun : (u ++ v).head? = hash (s.addr (c,k)) := by
        rw [hhead]
        cases u with
        | nil => simp at hup
        | cons y u => simp
      refine ⟨h.unlink (c,k),hash,_,?_,hh.replace hl.unlink ?_ hframe,hleave⟩
      · simp [unlink_eq, hp, hl.next_mid, Fields.setNextOf]
      · rw [hun]
        exact (Function.update_eq_self _ _).symm

/-- The whole loop: all entries of the task leave the chains. -/
theorem gompTaskRunPostHandleDependHash_spec (hi : DependCore s) (hc : s.Unfinished c)
    (hno : ∀ e a, s.Unfinished e → Earlier s.created e c → ¬ s.ConflictAt a e c) :
    ∃ h hash chain, s.gompTaskRunPostHandleDependHash c = some { s with links := h, dependHash := hash } ∧
      { s with links := h, dependHash := hash }.Holds chain ∧
      s.ChainsOk (fun x => s.Live x ∧ x.1 ≠ c) chain := by
  have hloop : ∀ k ≤ s.dependCount c, ∃ h hash chain,
      (List.range k).foldlM (unlinkEntry c) s = some { s with links := h, dependHash := hash } ∧
      { s with links := h, dependHash := hash }.Holds chain ∧ s.ChainsOk (s.Leaving c k) chain := by
    intro k hk
    induction k with
    | zero =>
      obtain ⟨chain,hh,hok⟩ := hi.chains
      have hle : s.Leaving c 0 = s.Live := by
        funext x
        simp [Leaving]
      exact ⟨s.links,s.dependHash,chain,rfl,hh,hle ▸ hok⟩
    | succ k ih =>
      obtain ⟨h,hash,chain,hf,hh,hok⟩ := ih (by omega)
      obtain ⟨h',hash',chain',hf',hh',hok'⟩ := unlinkEntry_spec (by omega) hh hok hc hno
      refine ⟨h',hash',chain',?_,hh',hok'⟩
      rw [List.range_succ, List.foldlM_append, hf]
      simpa using hf'
  obtain ⟨h,hash,chain,hf,hh,hok⟩ := hloop _ le_rfl
  refine ⟨h,hash,chain,hf,hh,?_⟩
  have hle : s.Leaving c (s.dependCount c) = fun x => s.Live x ∧ x.1 ≠ c := by
    funext x
    simp only [Leaving, eq_iff_iff]
    refine and_congr_right fun hx => ⟨fun h e => h ⟨e,e ▸ hx.2⟩,fun h e => h e.1⟩
  exact hle ▸ hok

omit [DecidableEq α] in
/-- The loop of gomp_task_run_post_handle_dependers: every task of the vector has one
dependence less, and those that had one are ready. -/
theorem foldl_releaseDepender {v : List τ} (hv : v.Nodup) (s : DependState τ α) (ret : ℕ) :
    v.foldl releaseDepender (s,ret) =
      ({ s with
        numDependees := fun x => if x ∈ v then s.numDependees x - 1 else s.numDependees x
        queued := s.queued ++ v.filter fun x => s.numDependees x = 1 },
        ret + (v.filter fun x => s.numDependees x = 1).length) := by
  induction v generalizing s ret with
  | nil => simp
  | cons y v ih =>
    obtain ⟨hy,hv⟩ := List.nodup_cons.mp hv
    have hnum : (fun x => if x ∈ v then Function.update s.numDependees y (s.numDependees y - 1) x - 1
        else Function.update s.numDependees y (s.numDependees y - 1) x) =
        fun x => if x ∈ y :: v then s.numDependees x - 1 else s.numDependees x := by
      funext x
      by_cases hx : x = y
      · simp [hx, hy]
      · simp [hx]
    have hfil : (v.filter fun x => Function.update s.numDependees y (s.numDependees y - 1) x = 1) =
        v.filter fun x => s.numDependees x = 1 := by
      refine List.filter_congr fun x hx => ?_
      rw [Function.update_of_ne (by rintro rfl; exact hy hx)]
    rw [List.foldl_cons, releaseDepender]
    by_cases hz : s.numDependees y = 1
    · have hone : ¬ (s.numDependees y - 1 ≠ 0) := by omega
      simp only [Function.update_self, if_neg hone]
      rw [ih hv]
      change ({ s with
        numDependees := fun x => if x ∈ v then Function.update s.numDependees y (s.numDependees y - 1) x - 1
          else Function.update s.numDependees y (s.numDependees y - 1) x
        queued := (s.queued ++ [y]) ++
          v.filter fun x => Function.update s.numDependees y (s.numDependees y - 1) x = 1 },ret + 1 +
            (v.filter fun x => Function.update s.numDependees y (s.numDependees y - 1) x = 1).length) = _
      rw [hnum, hfil, List.filter_cons_of_pos (by simpa using hz), List.append_assoc, List.length_cons,
        List.singleton_append, Nat.add_assoc, Nat.add_comm 1]
    · have hone : s.numDependees y - 1 ≠ 0 := by omega
      simp only [Function.update_self, if_pos hone]
      rw [ih hv]
      simp only [hnum, hfil]
      rw [List.filter_cons_of_neg (by simpa using hz)]

omit [DecidableEq α] in
/-- The vector of a task without depend entries is empty. -/
theorem DependCore.dependersOf_nil (hi : DependCore s) (hc : c ∈ s.created) (hz : s.dependCount c = 0) :
    s.dependersOf c = [] := by
  rw [List.eq_nil_iff_forall_not_mem]
  intro t ht
  obtain ⟨_,_,_,a,i,hic,_⟩ := hi.dependers c hc t ht
  omega

/-- What is left of the dependences once the task has completed, given the chains without
its entries and the vectors without its own. -/
def finish (s : DependState τ α) (c : τ) (h : Fields (τ × ℕ)) (hash : α → Option (τ × ℕ))
    (vec : τ → Option (List τ)) : DependState τ α :=
  { s with
    links := h
    dependHash := hash
    numDependees := fun x => if x ∈ s.dependersOf c then s.numDependees x - 1 else s.numDependees x
    dependers := vec
    queued := s.queued ++ (s.dependersOf c).filter fun x => s.numDependees x = 1
    completed := c :: s.completed }

theorem complete_eq (hi : DependCore s) (hc : s.Unfinished c) (hz : s.dependCount c = 0 ∨ s.numDependees c = 0) :
    ∃ h hash vec chain, dependExec s (.complete c) = some (s.finish c h hash vec) ∧
      (∀ d, (vec d).getD [] = if d = c then [] else s.dependersOf d) ∧
      (s.finish c h hash vec).Holds chain ∧ s.ChainsOk (fun x => s.Live x ∧ x.1 ≠ c) chain := by
  have hno : ∀ e a, s.Unfinished e → Earlier s.created e c → ¬ s.ConflictAt a e c := fun e a he hec =>
    hi.noConflict hc (fun d hd => hi.released hc hz hd) he hec a
  simp only [dependExec, gompTaskRunPostHandleDepend]
  by_cases hd : s.dependCount c = 0
  · obtain ⟨chain,hh,hok⟩ := hi.chains
    have hnil := hi.dependersOf_nil hc.1 hd
    have hlive : (fun x => s.Live x ∧ x.1 ≠ c) = s.Live := by
      funext x
      refine propext ⟨And.left,fun hx => ⟨hx,?_⟩⟩
      rintro rfl
      exact absurd hx.2 (by omega)
    rw [hlive]
    refine ⟨s.links,s.dependHash,s.dependers,chain,?_,fun d => ?_,hh,hok⟩
    · simp [hd, finish, hnil]
    · by_cases hdc : d = c
      · simpa [hdc, dependersOf] using hnil
      · simp [hdc, dependersOf]
  · obtain ⟨h,hash,chain,hs,hh,hok⟩ := gompTaskRunPostHandleDependHash_spec hi hc hno
    refine ⟨h,hash,Function.update s.dependers c none,chain,?_,fun d => ?_,hh,hok⟩
    · rw [if_neg hd, hs]
      simp only [Option.map_some]
      by_cases hn : s.dependers c = none
      · have hnil : s.dependersOf c = [] := by simp [dependersOf, hn]
        rw [if_pos hn]
        simp [finish, hnil, ← hn]
      · rw [if_neg hn, gompTaskRunPostHandleDependers]
        have hof : ({ s with links := h, dependHash := hash } : DependState τ α).dependersOf c = s.dependersOf c := rfl
        rw [hof, foldl_releaseDepender (hi.dependers_nodup c hc.1)]
        rfl
    · by_cases hdc : d = c
      · simp [hdc]
      · simp [hdc, dependersOf]

section Finished
variable {h : Fields (τ × ℕ)} {hash : α → Option (τ × ℕ)} {vec : τ → Option (List τ)}
  (hvec : ∀ d, (vec d).getD [] = if d = c then [] else s.dependersOf d)
include hvec

omit [DecidableEq α] in
theorem finish_dependersOf (d : τ) :
    (s.finish c h hash vec).dependersOf d = if d = c then [] else s.dependersOf d := hvec d

omit [DecidableEq α] hvec in
theorem finish_unfinished {x : τ} : (s.finish c h hash vec).Unfinished x ↔ s.Unfinished x ∧ x ≠ c := by
  simp only [Unfinished, finish, List.mem_cons, not_or]
  tauto

omit [DecidableEq α] hvec in
@[simp] theorem finish_completed : (s.finish c h hash vec).completed = c :: s.completed := rfl

variable (h hash) in
omit [DecidableEq α] in
/-- How many vectors hold a task, before and after. -/
theorem finish_count (hi : DependCore s) (hc : s.Unfinished c) (x : τ) :
    s.unfinished.countP (fun d => x ∈ s.dependersOf d) =
      (s.finish c h hash vec).unfinished.countP (fun d => x ∈ (s.finish c h hash vec).dependersOf d) +
        if x ∈ s.dependersOf c then 1 else 0 := by
  have hsame : (s.finish c h hash vec).unfinished.countP (fun d => x ∈ (s.finish c h hash vec).dependersOf d) =
      s.unfinished.countP fun d => x ∈ (s.finish c h hash vec).dependersOf d := by
    simp only [unfinished, List.countP_filter]
    refine List.countP_congr fun d hd => ?_
    simp only [finish_dependersOf hvec, finish_completed, Bool.and_eq_true, decide_eq_true_eq, List.mem_cons, not_or]
    by_cases hdc : d = c
    · simp [hdc]
    · simp [hdc]
  rw [hsame]
  by_cases hx : x ∈ s.dependersOf c
  · rw [if_pos hx]
    refine countP_gain (hi.nodup.filter _) (mem_unfinished.mpr hc) (fun d hd => ?_) ?_ (by simpa using hx)
    · simp [finish_dependersOf hvec, hd]
    · simp [finish_dependersOf hvec]
  · rw [if_neg hx, Nat.add_zero]
    refine List.countP_congr fun d _ => ?_
    by_cases hdc : d = c
    · simp [finish_dependersOf hvec, hdc, hx]
    · simp [finish_dependersOf hvec, hdc]

omit [DecidableEq α] in
theorem finish_core (hi : DependCore s) (hc : s.Unfinished c)
    (hz : s.dependCount c = 0 ∨ s.numDependees c = 0) {chain : α → List (τ × ℕ)}
    (hh : (s.finish c h hash vec).Holds chain) (hok : s.ChainsOk (fun x => s.Live x ∧ x.1 ≠ c) chain) :
    DependCore (s.finish c h hash vec) := by
  have hfree := fun d hd => hi.released hc hz (d := d) hd
  constructor
  case nodup => exact hi.nodup
  case completed =>
    intro t ht
    rcases List.mem_cons.mp ht with rfl | ht
    · exact hc.1
    · exact hi.completed t ht
  case entries => exact fun t ht => (hi.entries t ht).congr fun _ => ⟨rfl,rfl,rfl⟩
  case chains =>
    refine ⟨chain,hh,?_⟩
    have hlive : (s.finish c h hash vec).Live = fun x => s.Live x ∧ x.1 ≠ c := by
      funext x
      simp only [Live, finish_unfinished, eq_iff_iff]
      change (_ ∧ _) ∧ x.2 < s.dependCount x.1 ↔ _
      tauto
    exact hlive ▸ hok.congr rfl fun _ _ => ⟨rfl,rfl,rfl,rfl⟩
  case dependers =>
    intro d hd t ht
    rw [finish_dependersOf hvec] at ht
    by_cases hdc : d = c
    · simp [hdc] at ht
    · rw [if_neg hdc] at ht
      obtain ⟨h₁,h₂,h₃,h₄⟩ := hi.dependers d hd t ht
      refine ⟨finish_unfinished.mpr ⟨h₁,hdc⟩,finish_unfinished.mpr ⟨h₂,?_⟩,h₃,h₄⟩
      rintro rfl
      exact hfree d hd ht
  case dependers_nodup =>
    intro d hd
    rw [finish_dependersOf hvec]
    by_cases hdc : d = c
    · simp [hdc]
    · rw [if_neg hdc]
      exact hi.dependers_nodup d hd
  case count =>
    intro x hx hpos
    have hcount := hi.count x (finish_unfinished.mp hx).1 hpos
    rw [finish_count h hash hvec hi hc x] at hcount
    change (if x ∈ s.dependersOf c then s.numDependees x - 1 else s.numDependees x) = _
    by_cases hxc : x ∈ s.dependersOf c
    · simp only [if_pos hxc] at hcount ⊢
      omega
    · simpa only [if_neg hxc, Nat.add_zero] using hcount
  case covered =>
    intro e x a he hx hex hca
    have he' := finish_unfinished.mp he
    rcases hi.covered e x a he'.1 (finish_unfinished.mp hx).1 hex hca with h | ⟨o,h₁,h₂,h₃,h₄⟩
    · exact .inl (by rw [finish_dependersOf hvec, if_neg he'.2]; exact h)
    · have hoc : o ≠ c := by
        rintro rfl
        obtain ⟨i,hic,j,_,hea,_⟩ := hca
        obtain ⟨l,hl,hla,hlo⟩ := h₃
        exact hi.noConflict hc hfree he'.1 h₂ a ⟨i,hic,l,hl,hea,hla,.inr hlo⟩
      refine .inr ⟨o,finish_unfinished.mpr ⟨h₁,hoc⟩,h₂,h₃,?_⟩
      rw [finish_dependersOf hvec, if_neg hoc]
      exact h₄
  case past =>
    intro t ht e a he hex
    rcases List.mem_cons.mp ht with rfl | ht
    · exact hi.noConflict hc hfree (finish_unfinished.mp he).1 hex a
    · exact hi.past t ht e a (finish_unfinished.mp he).1 hex

omit [DecidableEq α] in
/-- Of the tasks that waited for the completed one, those with one dependence are now free. -/
theorem finish_free (hi : DependCore s) (hc : s.Unfinished c) {x : τ} (hx : x ∈ s.dependersOf c) :
    s.numDependees x = 1 ↔ ∀ d ∈ s.created, x ∉ (s.finish c h hash vec).dependersOf d := by
  obtain ⟨_,hxu,_,a,i,_,j,hj,_⟩ := hi.dependers c hc.1 x hx
  have hcount := hi.count x hxu (by omega)
  rw [finish_count h hash hvec hi hc x, if_pos hx] at hcount
  have hzero : s.numDependees x = 1 ↔ (s.finish c h hash vec).unfinished.countP
      (fun d => x ∈ (s.finish c h hash vec).dependersOf d) = 0 := by omega
  rw [hzero, List.countP_eq_zero]
  constructor
  · intro hall d hd hxd
    have hxd' := hxd
    rw [finish_dependersOf hvec] at hxd'
    by_cases hdc : d = c
    · simp [hdc] at hxd'
    · rw [if_neg hdc] at hxd'
      have hdu : (s.finish c h hash vec).Unfinished d :=
        finish_unfinished.mpr ⟨(hi.dependers d hd x hxd').1,hdc⟩
      exact absurd hxd (by simpa using hall d (mem_unfinished.mpr hdu))
  · intro hall d hd
    simpa using hall d (mem_unfinished.mp hd).1

omit [DecidableEq α] in
theorem finish_inv (hi : DependInv s) (hc : s.Unfinished c) (hz : s.dependCount c = 0 ∨ s.numDependees c = 0)
    {chain : α → List (τ × ℕ)} (hh : (s.finish c h hash vec).Holds chain)
    (hok : s.ChainsOk (fun x => s.Live x ∧ x.1 ≠ c) chain) : DependInv (s.finish c h hash vec) := by
  have hqueued : (s.finish c h hash vec).queued =
      s.queued ++ (s.dependersOf c).filter fun x => s.numDependees x = 1 := rfl
  have hheld : ∀ x ∈ s.dependersOf c, x ∉ s.queued := fun x hx h => ((hi.queued_iff x).mp h).2 c hc.1 hx
  refine ⟨finish_core hvec hi.toDependCore hc hz hh hok,?_,fun x => ?_⟩
  · rw [hqueued]
    refine List.nodup_append.mpr ⟨hi.queued_nodup,(hi.dependers_nodup c hc.1).filter _,?_⟩
    rintro x hx y hy rfl
    exact hheld x (List.mem_filter.mp hy).1 hx
  · change _ ↔ x ∈ s.created ∧ ∀ d ∈ s.created, _
    rw [hqueued, List.mem_append, List.mem_filter]
    by_cases hx : x ∈ s.dependersOf c
    · rw [← finish_free hvec hi.toDependCore hc hx]
      simp [hx, hheld x hx, (hi.dependers c hc.1 x hx).2.1.1]
    · simp only [hx, false_and, or_false, hi.queued_iff]
      refine and_congr_right fun _ => ⟨fun h d hd => ?_,fun h d hd => ?_⟩
      · rw [finish_dependersOf hvec]
        by_cases hdc : d = c
        · simp [hdc]
        · rw [if_neg hdc]
          exact h d hd
      · by_cases hdc : d = c
        · rw [hdc]
          exact hx
        · have hd' := h d hd
          rwa [finish_dependersOf hvec, if_neg hdc] at hd'

end Finished

end Complete

section Run
variable [DecidableEq τ] [DecidableEq α] {s s' : DependState τ α}

/-- No task is created yet; the memory of tasks and entries is whatever it is. -/
structure Fresh (s : DependState τ α) : Prop where
  created : s.created = []
  completed : s.completed = []
  queued : s.queued = []
  dependHash : ∀ a, s.dependHash a = none

omit [DecidableEq α] in
theorem Fresh.inv (hf : Fresh s) : DependInv s := by
  have hnone : ∀ t, ¬ s.Unfinished t := fun t h => by simp [Unfinished, hf.created] at h
  refine ⟨⟨?_,?_,?_,⟨fun _ => [],?_,?_⟩,?_,?_,?_,?_,?_⟩,?_,?_⟩
  · simp [hf.created]
  · simp [hf.completed]
  · simp [hf.created]
  · exact fun a => ⟨linked_nil,by simp [hf.dependHash]⟩
  · exact ⟨fun a e => by simp [Live, hnone],by simp,by simp,by simp⟩
  · simp [hf.created]
  · simp [hf.created]
  · exact fun t ht => absurd ht (hnone t)
  · exact fun e t a he => absurd he (hnone e)
  · simp [hf.completed]
  · simp [hf.queued]
  · simp [hf.queued, hf.created]

/-- Every allowed creation and completion runs to its end and keeps the invariant. -/
theorem dependExec_inv (hi : DependInv s) {op : DependOp τ α} (ha : op.Allowed s) :
    ∃ s', dependExec s op = some s' ∧ DependInv s' ∧ s.queued <+: s'.queued := by
  cases op with
  | create task depend nout =>
    exact gompTask_inv hi ha depend nout
  | complete task =>
    obtain ⟨hc,hn,hz⟩ := ha
    obtain ⟨h,hash,vec,chain,hs,hvec,hh,hok⟩ := complete_eq hi.toDependCore ⟨hc,hn⟩ hz
    exact ⟨_,hs,finish_inv hvec hi ⟨hc,hn⟩ hz hh hok,List.prefix_append _ _⟩

theorem dependStep_inv (hi : DependInv s) {op : DependOp τ α} (hs : dependStep s op = some s') :
    DependInv s' ∧ s.queued <+: s'.queued := by
  by_cases ha : op.Allowed s
  · obtain ⟨t,ht,hit⟩ := dependExec_inv hi ha
    rw [dependStep, if_pos ha, ht] at hs
    exact Option.some.inj hs ▸ hit
  · simp [dependStep, ha] at hs

/-- An earlier sibling that is not completed names an address in common with the task, and
at least one of the two uses is out or inout. -/
def Waits (s : DependState τ α) (t : τ) : Prop :=
  ∃ e, s.Unfinished e ∧ Earlier s.created e t ∧ ∃ a, s.ConflictAt a e t

/-- What holds of the dependences after every step. -/
structure DependSound (s : DependState τ α) : Prop where
  runs : ∀ op : DependOp τ α, op.Allowed s → (dependStep s op).isSome
  waits : ∀ t, s.Unfinished t → 0 < s.dependCount t → (0 < s.numDependees t ↔ s.Waits t)
  numDependees : ∀ t, s.Unfinished t → 0 < s.dependCount t →
    s.numDependees t = (s.unfinished.countP fun d => t ∈ s.dependersOf d : ℕ)
  queuedOnce : s.queued.Nodup
  queuedWhen : ∀ t, t ∈ s.queued ↔ t ∈ s.created ∧ ¬ s.Waits t
  chains : ∀ a, ∃ u, Linked s.links u ∧ s.dependHash a = u.head? ∧
    (∀ e, e ∈ u ↔ s.Unfinished e.1 ∧ e.2 < s.dependCount e.1 ∧ s.addr e = a ∧ s.redundant e = false) ∧
    u.Pairwise fun e e' => s.redundantOut e = true → s.redundantOut e' = true

omit [DecidableEq α] in
/-- A task waits exactly when some vector holds it. -/
theorem DependCore.waits_iff (hi : DependCore s) {t : τ} (ht : t ∈ s.created) :
    s.Waits t ↔ ∃ d ∈ s.created, t ∈ s.dependersOf d := by
  constructor
  · rintro ⟨e,he,het,a,hca⟩
    have htu : s.Unfinished t := ⟨ht,fun h => hi.past t h e a he het hca⟩
    rcases hi.covered e t a he htu het hca with h | ⟨o,ho,_,_,h⟩
    · exact ⟨e,he.1,h⟩
    · exact ⟨o,ho.1,h⟩
  · rintro ⟨d,hd,h⟩
    obtain ⟨hdu,_,hdt,hca⟩ := hi.dependers d hd t h
    exact ⟨d,hdu,hdt,hca⟩

omit [DecidableEq α] in
theorem DependInv.queuedWhen (hi : DependInv s) (t : τ) : t ∈ s.queued ↔ t ∈ s.created ∧ ¬ s.Waits t := by
  rw [hi.queued_iff]
  refine and_congr_right fun ht => ?_
  rw [hi.waits_iff ht]
  simp

theorem DependInv.sound (hi : DependInv s) : DependSound s := by
  constructor
  case runs =>
    intro op ha
    obtain ⟨t,ht,_⟩ := dependExec_inv hi ha
    simp [dependStep, ha, ht]
  case waits =>
    intro t ht hc
    rw [hi.waits_iff ht.1, hi.count t ht hc, Nat.cast_pos, List.countP_pos_iff]
    constructor
    · rintro ⟨d,hd,h⟩
      exact ⟨d,(mem_unfinished.mp hd).1,by simpa using h⟩
    · rintro ⟨d,hd,h⟩
      exact ⟨d,mem_unfinished.mpr (hi.dependers d hd t h).1,by simpa using h⟩
  case numDependees => exact hi.count
  case queuedOnce => exact hi.queued_nodup
  case queuedWhen => exact hi.queuedWhen
  case chains =>
    obtain ⟨chain,hh,hok⟩ := hi.chains
    refine fun a => ⟨chain a,(hh a).1,(hh a).2,fun e => ?_,hok.ordered a⟩
    rw [hok.mem, Live, and_assoc]

/-- After every run of creations and completions the vectors, the chains and the ready queues
are those of the conflicts among the unfinished siblings.  A task enters the queues at the
step that creates it or completes the last earlier sibling in conflict with it. -/
theorem depend_run_sound {s₀ s : DependState τ α} (hf : Fresh s₀) {ops : List (DependOp τ α)}
    (hr : run dependStep s₀ ops = some s) :
    DependSound s ∧ ∀ op s', dependStep s op = some s' → s.queued <+: s'.queued ∧
      ∀ t, t ∈ s'.queued ∧ t ∉ s.queued ↔ t ∈ s'.created ∧ ¬ s'.Waits t ∧ (t ∉ s.created ∨ s.Waits t) := by
  have hi : DependInv s :=
    run_invariant (fun _ _ _ hi _ hs => (dependStep_inv hi hs).1) hf.inv (along_true s₀ ops) hr
  refine ⟨hi.sound,fun op s' hs => ?_⟩
  obtain ⟨hi',hp⟩ := dependStep_inv hi hs
  refine ⟨hp,fun t => ?_⟩
  rw [hi'.queuedWhen, hi.queuedWhen]
  tauto

end Run

/-- Memory in which every field is zero. -/
def zeroed (num : ℕ → ℤ) : DependState ℕ ℕ where
  links := ⟨fun _ => none,fun _ => none⟩
  addr := fun _ => 0
  isIn := fun _ => false
  redundant := fun _ => false
  redundantOut := fun _ => false
  dependHash := fun _ => none
  dependCount := fun _ => 0
  dependers := fun _ => none
  numDependees := num
  created := []
  completed := []
  queued := []

/-- Two writers of one address and a reader of it and of another one. -/
theorem depend_run_sound_writers :
    ∃ s, run dependStep (zeroed fun _ => 0)
        [.create 0 [7] 1,.create 1 [7] 1,.create 2 [7,7,8] 0,.complete 0] = some s ∧
      s.queued = [0,1] ∧ DependSound s := by
  obtain ⟨s,hs,hq⟩ := (Option.any_eq_true _ _).mp (show ((run dependStep (zeroed fun _ => 0)
    [.create 0 [7] 1,.create 1 [7] 1,.create 2 [7,7,8] 0,.complete 0]).any fun s => s.queued = [0,1]) = true by decide)
  exact ⟨s,hs,by simpa using hq,(depend_run_sound ⟨rfl,rfl,rfl,fun _ => rfl⟩ hs).1⟩

/-- A task created with an empty depend array keeps whatever num_dependees its memory had. -/
theorem depend_empty_array_unset :
    ∃ s₀ s : DependState ℕ ℕ, Fresh s₀ ∧ run dependStep s₀ [.create 0 [] 0] = some s ∧
      s.Unfinished 0 ∧ ¬ (0 < s.numDependees 0 ↔ s.Waits 0) := by
  refine ⟨zeroed fun _ => 3,_,⟨rfl,rfl,rfl,fun _ => rfl⟩,rfl,⟨by decide,by decide⟩,fun h => ?_⟩
  obtain ⟨e,_,he,_⟩ := h.mp (by decide)
  simp [Earlier, zeroed, enqueue] at he

end DependState
end GompUlt.Depend
