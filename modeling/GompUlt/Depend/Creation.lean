import GompUlt.Depend.Chains
import Mathlib.Data.List.TakeWhile
import Mathlib.Tactic.Linarith

/-! # Creation of a task with depend entries

While the entries of a new task are entered one by one, the task waits for every unfinished
sibling whose use of one of the addresses conflicts with an entry made so far, directly or
through a later out use of the same address.
-/
namespace GompUlt.Depend
open LinkChain

variable {τ α : Type*}

namespace DependState

/-- The task is created and not completed. -/
def Unfinished (s : DependState τ α) (t : τ) : Prop := t ∈ s.created ∧ t ∉ s.completed

theorem mem_unfinished [DecidableEq τ] {s : DependState τ α} {t : τ} : t ∈ s.unfinished ↔ s.Unfinished t := by
  simp [unfinished, Unfinished]

/-- Both tasks name the address, and at least one of the uses is out or inout. -/
def ConflictAt (s : DependState τ α) (a : α) (e t : τ) : Prop :=
  ∃ i < s.dependCount e, ∃ j < s.dependCount t, s.addr (e,i) = a ∧ s.addr (t,j) = a ∧
    (s.isIn (e,i) = false ∨ s.isIn (t,j) = false)

/-- The task has an out or inout use of the address. -/
def UsesOut (s : DependState τ α) (a : α) (o : τ) : Prop :=
  ∃ i < s.dependCount o, s.addr (o,i) = a ∧ s.isIn (o,i) = false

/-- The entry belongs to an unfinished task. -/
def Live (s : DependState τ α) (e : τ × ℕ) : Prop := s.Unfinished e.1 ∧ e.2 < s.dependCount e.1

/-- Of the entries of a task for one address the first is kept, and it is out if any is. -/
structure EntriesOk (s : DependState τ α) (t : τ) (k : ℕ) : Prop where
  redundant_iff : ∀ j < k, (s.redundant (t,j) = true ↔ ∃ i < j, s.addr (t,i) = s.addr (t,j))
  isIn_mono : ∀ i j, i ≤ j → j < k → s.isIn (t,i) = true → s.isIn (t,j) = true

theorem EntriesOk.first {s : DependState τ α} {t : τ} {k j : ℕ} (h : s.EntriesOk t k) (hj : j < k) :
    ∃ i ≤ j, s.addr (t,i) = s.addr (t,j) ∧ s.redundant (t,i) = false ∧
      (s.isIn (t,j) = false → s.isIn (t,i) = false) := by
  induction j using Nat.strong_induction_on with
  | _ j ih =>
    by_cases hr : s.redundant (t,j) = true
    · obtain ⟨i,hij,ha⟩ := (h.redundant_iff j hj).mp hr
      obtain ⟨i',hi,ha',hr',hm⟩ := ih i hij (hij.trans hj)
      refine ⟨i',hi.trans hij.le,ha'.trans ha,hr',fun hn => hm ?_⟩
      have := h.isIn_mono i j hij.le hj
      grind
    · exact ⟨j,le_rfl,rfl,by simpa using hr,id⟩

theorem EntriesOk.congr {s s' : DependState τ α} {t : τ} {k : ℕ} (h : s.EntriesOk t k)
    (hc : ∀ i, s'.addr (t,i) = s.addr (t,i) ∧ s'.isIn (t,i) = s.isIn (t,i) ∧
      s'.redundant (t,i) = s.redundant (t,i)) : s'.EntriesOk t k := by
  constructor
  · intro j hj
    simpa only [(hc _).1, (hc _).2.2] using h.redundant_iff j hj
  · intro i j hij hj
    simpa only [(hc _).2.1] using h.isIn_mono i j hij hj

section Holding
variable [DecidableEq τ] {s₀ s : DependState τ α} {t d : τ}

omit [DecidableEq τ] in
/-- A predicate that gains one member of a duplicate-free list. -/
theorem countP_gain {l : List τ} (hn : l.Nodup) (hd : d ∈ l) {p q : τ → Bool} (hq : ∀ x ≠ d, q x = p x)
    (hp : p d = false) (hqd : q d = true) : l.countP q = l.countP p + 1 := by
  obtain ⟨u,v,rfl⟩ := List.append_of_mem hd
  have hdu := (List.nodup_cons.mp (List.nodup_middle.mp hn)).1
  have hc : ∀ w : List τ, d ∉ w → w.countP q = w.countP p := by
    intro w hw
    refine List.countP_congr fun x hx => ?_
    rw [hq x (by rintro rfl; exact hw hx)]
  simp only [List.mem_append, not_or] at hdu
  simp [List.countP_append, hc u hdu.1, hc v hdu.2, hp, hqd]
  omega

/-- The vectors and num_dependees while the task is created: it stands at most at the end of
the vectors of older tasks, and num_dependees counts these. -/
structure Holding (s₀ s : DependState τ α) (t : τ) : Prop where
  dependers : ∀ d ∈ s₀.created, s.dependersOf d = s₀.dependersOf d ∨ s.dependersOf d = s₀.dependersOf d ++ [t]
  own : s.dependers t = none
  count : s.numDependees t = (s₀.unfinished.countP fun d => t ∈ s.dependersOf d : ℕ)
  others : ∀ x ≠ t, s.numDependees x = s₀.numDependees x

theorem addDepender_held (h : (s.dependersOf d).getLast? = some t) : s.addDepender d t = s := by
  unfold addDepender
  cases hd : s.dependers d with
  | none => simp [dependersOf, hd] at h
  | some v => simp [show v.getLast? = some t by simpa [dependersOf, hd] using h]

theorem addDepender_new (h : (s.dependersOf d).getLast? ≠ some t) : s.addDepender d t =
    { s with
      dependers := Function.update s.dependers d (some (s.dependersOf d ++ [t]))
      numDependees := Function.update s.numDependees t (s.numDependees t + 1) } := by
  unfold addDepender
  cases hd : s.dependers d with
  | none => simp [dependersOf, hd]
  | some v => simp [show v.getLast? ≠ some t by simpa [dependersOf, hd] using h, dependersOf, hd]

variable (hfresh : t ∉ s₀.created) (hnew : ∀ d ∈ s₀.created, t ∉ s₀.dependersOf d) (hnd : s₀.created.Nodup)
include hfresh hnew hnd

theorem Holding.addDepender (hh : Holding s₀ s t) (hd : s₀.Unfinished d) :
    Holding s₀ (s.addDepender d t) t ∧
      ∀ x, t ∈ (s.addDepender d t).dependersOf x ↔ x = d ∨ t ∈ s.dependersOf x := by
  have hdt : t ≠ d := by rintro rfl; exact hfresh hd.1
  rcases hh.dependers d hd.1 with he | he
  · have hnot : t ∉ s.dependersOf d := he ▸ hnew d hd.1
    have hlast : (s.dependersOf d).getLast? ≠ some t := fun e => hnot (List.mem_of_getLast? e)
    have hof : ∀ x, (s.addDepender d t).dependersOf x =
        if x = d then s.dependersOf d ++ [t] else s.dependersOf x := by
      intro x
      rw [addDepender_new hlast]
      by_cases hx : x = d
      · simp [dependersOf, hx]
      · simp [dependersOf, hx]
    have hmem : ∀ x, t ∈ (s.addDepender d t).dependersOf x ↔ x = d ∨ t ∈ s.dependersOf x := by
      intro x
      rw [hof]
      by_cases hx : x = d <;> simp [hx]
    refine ⟨⟨fun x hx => ?_,?_,?_,?_⟩,hmem⟩
    · rw [hof]
      by_cases hxd : x = d
      · simp [hxd, he]
      · simpa [hxd] using hh.dependers x hx
    · rw [addDepender_new hlast]
      simp [Function.update_of_ne hdt, hh.own]
    · have hn : (s.addDepender d t).numDependees t = s.numDependees t + 1 := by
        rw [addDepender_new hlast]
        simp
      have hg : s₀.unfinished.countP (fun x => t ∈ (s.addDepender d t).dependersOf x) =
          s₀.unfinished.countP (fun x => t ∈ s.dependersOf x) + 1 := by
        refine countP_gain (hnd.filter _) (mem_unfinished.mpr hd) (fun x hx => ?_) (by simpa using hnot)
          (by simp [hmem])
        simp [hmem, hx]
      rw [hn, hh.count, hg]
      push_cast
      rfl
    · intro x hx
      rw [addDepender_new hlast]
      simp [Function.update_of_ne hx, hh.others x hx]
  · have hheld : s.addDepender d t = s := addDepender_held (by simp [he])
    rw [hheld]
    refine ⟨hh,fun x => ⟨Or.inr,?_⟩⟩
    rintro (rfl | h)
    · simp [he]
    · exact h

theorem Holding.hold (hh : Holding s₀ s t) (ds : List τ) (hd : ∀ d ∈ ds, s₀.Unfinished d) :
    Holding s₀ (s.hold ds t) t ∧ ∀ x, t ∈ (s.hold ds t).dependersOf x ↔ x ∈ ds ∨ t ∈ s.dependersOf x := by
  induction ds generalizing s with
  | nil => exact ⟨hh,fun x => by simp [DependState.hold]⟩
  | cons d ds ih =>
    obtain ⟨h₁,h₂⟩ := hh.addDepender hfresh hnew hnd (hd d (by simp))
    obtain ⟨h₃,h₄⟩ := ih h₁ fun x hx => hd x (by simp [hx])
    refine ⟨h₃,fun x => (h₄ x).trans ?_⟩
    rw [h₂, List.mem_cons]
    tauto

end Holding

/-- An entry that is in the chains while the first k entries of the new task are. -/
def Entered (s₀ : DependState τ α) (t : τ) (k : ℕ) (e : τ × ℕ) : Prop := s₀.Live e ∨ e.1 = t ∧ e.2 < k

/-- The state after k rounds of the loop of gomp_task_handle_depend. -/
structure Building [DecidableEq τ] (s₀ s : DependState τ α) (t : τ) (n nout k : ℕ) : Prop where
  created : s.created = t :: s₀.created
  completed : s.completed = s₀.completed
  queued : s.queued = s₀.queued
  dependCount : s.dependCount = Function.update s₀.dependCount t n
  others : ∀ e, e.1 ≠ t → s.addr e = s₀.addr e ∧ s.isIn e = s₀.isIn e ∧ s.redundant e = s₀.redundant e
  isIn_eq : ∀ j < k, s.isIn (t,j) = decide (nout ≤ j)
  redundant_iff : ∀ j < k, (s.redundant (t,j) = true ↔ ∃ i < j, s.addr (t,i) = s.addr (t,j))
  chains : ∃ chain, s.Holds chain ∧ s.ChainsOk (s₀.Entered t k) chain ∧
    ∀ a, ∀ x ∈ chain a, x.1 = t → (chain a).head? = some x
  holding : Holding s₀ s t
  held : ∀ d ∈ s₀.created, t ∈ s.dependersOf d → s₀.Unfinished d ∧
    ∃ i < s₀.dependCount d, ∃ j < k, s.addr (d,i) = s.addr (t,j) ∧ (s.isIn (d,i) = false ∨ s.isIn (t,j) = false)
  covered : ∀ e, s₀.Unfinished e → ∀ i < s₀.dependCount e, ∀ j < k, s.addr (e,i) = s.addr (t,j) →
    (s.isIn (e,i) = false ∨ s.isIn (t,j) = false) → t ∈ s.dependersOf e ∨
      ∃ o, s₀.Unfinished o ∧ Earlier s₀.created e o ∧ s₀.UsesOut (s.addr (t,j)) o ∧ t ∈ s.dependersOf o

section Ordered
variable {s : DependState τ α} {u : List (τ × ℕ)}

/-- The live entries of an ordered chain stand before the redundant_out ones. -/
theorem live_split (ho : u.Pairwise fun e e' => s.redundantOut e = true → s.redundantOut e' = true) :
    ∃ w, u = s.live u ++ w ∧ (∀ x ∈ s.live u, s.redundantOut x = false) ∧ ∀ x ∈ w, s.redundantOut x = true := by
  refine ⟨u.dropWhile fun e => !s.redundantOut e,(List.takeWhile_append_dropWhile).symm,fun x hx => ?_,?_⟩
  · simpa using List.mem_takeWhile_imp hx
  · have hsub := ho.sublist (List.dropWhile_sublist fun e => !s.redundantOut e)
    cases hw : u.dropWhile fun e => !s.redundantOut e with
    | nil => simp
    | cons y w =>
      have hy : s.redundantOut y = true := by
        have := List.head?_dropWhile_not (fun e => !s.redundantOut e) u
        simpa [hw] using this
      rw [hw, List.pairwise_cons] at hsub
      intro x hx
      rcases List.mem_cons.mp hx with rfl | hx
      · exact hy
      · exact hsub.1 x hx hy

end Ordered

section Chain
variable {s s' : DependState τ α} {entered entered' : τ × ℕ → Prop} {chain : α → List (τ × ℕ)} {e : τ × ℕ} {a : α}

/-- Attributes of entries that are not entered do not matter. -/
theorem ChainsOk.congr (hc : s.ChainsOk entered chain) (hcr : s'.created = s.created)
    (h : ∀ e, entered e → s'.addr e = s.addr e ∧ s'.isIn e = s.isIn e ∧ s'.redundant e = s.redundant e ∧
      s'.redundantOut e = s.redundantOut e) : s'.ChainsOk entered chain := by
  have hent : ∀ a e, e ∈ chain a → entered e := fun a e he => ((hc.mem a e).mp he).1
  constructor
  · intro a e
    rw [hc.mem]
    constructor
    · rintro ⟨he,hr⟩
      exact ⟨he,by rw [(h e he).1, (h e he).2.2.1]; exact hr⟩
    · rintro ⟨he,hr⟩
      exact ⟨he,by rw [(h e he).1, (h e he).2.2.1] at hr; exact hr⟩
  · intro a
    refine (hc.ordered a).imp_of_mem fun he he' hi => ?_
    rw [(h _ (hent a _ he)).2.2.2, (h _ (hent a _ he')).2.2.2]
    exact hi
  · intro a e he e' he'
    rw [(h _ (hent a _ he)).2.2.2, (h _ (hent a _ he)).2.1, (h _ (hent a _ he')).2.2.2, (h _ (hent a _ he')).2.1]
    exact hc.liveOut a e he e' he'
  · intro a e he hr
    rw [(h _ (hent a _ he)).2.2.2] at hr
    obtain ⟨hi,o,ho,hoi,hor,hoe⟩ := hc.later a e he hr
    rw [(h _ (hent a _ he)).2.1, hcr]
    refine ⟨hi,o,ho,?_,?_,hoe⟩
    · rw [(h _ (hent a _ ho)).2.1, hoi]
    · rw [(h _ (hent a _ ho)).2.2.2, hor]

/-- An entry that is entered as redundant is in no chain. -/
theorem ChainsOk.skip [DecidableEq τ] (hc : s.ChainsOk entered chain) (he : ¬ entered e) :
    { s with redundant := Function.update s.redundant e true }.ChainsOk (fun x => entered x ∨ x = e) chain := by
  refine ⟨fun a x => ?_,hc.ordered,hc.liveOut,hc.later⟩
  rw [hc.mem]
  by_cases hx : x = e
  · simp [hx, he]
  · simp [hx]

/-- A new list for one address, while only redundant_out changes and only there. -/
theorem ChainsOk.replace [DecidableEq α] (hc : s.ChainsOk entered chain) {u : List (τ × ℕ)}
    (hcr : s'.created = s.created) (haddr : s'.addr = s.addr) (hisIn : s'.isIn = s.isIn)
    (hred : s'.redundant = s.redundant) (hout : ∀ x, s.addr x ≠ a → s'.redundantOut x = s.redundantOut x)
    (hent : ∀ x, s.addr x ≠ a → (entered' x ↔ entered x))
    (hmem : ∀ x, x ∈ u ↔ entered' x ∧ s.addr x = a ∧ s.redundant x = false)
    (hord : u.Pairwise fun e e' => s'.redundantOut e = true → s'.redundantOut e' = true)
    (hlive : ∀ e ∈ u, ∀ e' ∈ u, s.isIn e = false → s'.redundantOut e = false → s.isIn e' = false →
      s'.redundantOut e' = false → e = e')
    (hlater : ∀ e ∈ u, s'.redundantOut e = true → s.isIn e = false ∧
      ∃ o ∈ u, s.isIn o = false ∧ s'.redundantOut o = false ∧ Earlier s.created e.1 o.1) :
    s'.ChainsOk entered' (Function.update chain a u) := by
  have hb : ∀ b ≠ a, ∀ x ∈ chain b, s.addr x ≠ a := by
    intro b hb x hx
    rw [((hc.mem b x).mp hx).2.1]
    exact hb
  constructor
  · intro b x
    by_cases hba : b = a
    · subst hba
      rw [Function.update_self, hmem, haddr, hred]
    · rw [Function.update_of_ne hba, hc.mem, haddr, hred]
      by_cases hx : s.addr x = a
      · simp [hx, Ne.symm hba]
      · rw [hent x hx]
  · intro b
    by_cases hba : b = a
    · subst hba
      rw [Function.update_self]
      exact hord
    · rw [Function.update_of_ne hba]
      refine (hc.ordered b).imp_of_mem fun he he' hi => ?_
      rw [hout _ (hb b hba _ he), hout _ (hb b hba _ he')]
      exact hi
  · intro b e he e' he'
    by_cases hba : b = a
    · subst hba
      rw [Function.update_self] at he he'
      rw [hisIn]
      exact hlive e he e' he'
    · rw [Function.update_of_ne hba] at he he'
      rw [hisIn, hout _ (hb b hba _ he), hout _ (hb b hba _ he')]
      exact hc.liveOut b e he e' he'
  · intro b e he hr
    by_cases hba : b = a
    · subst hba
      rw [Function.update_self] at he ⊢
      rw [hisIn, hcr]
      exact hlater e he hr
    · rw [Function.update_of_ne hba] at he ⊢
      rw [hout _ (hb b hba _ he)] at hr
      obtain ⟨hi,o,ho,hoi,hor,hoe⟩ := hc.later b e he hr
      rw [hisIn, hcr]
      exact ⟨hi,o,ho,hoi,by rw [hout _ (hb b hba _ ho), hor],hoe⟩

/-- A new entry in front of its chain, when it is in or no live out entry stands there. -/
theorem ChainsOk.push [DecidableEq α] (hc : s.ChainsOk entered chain) (ha : s.addr e = a)
    (hr : s.redundant e = false) (ho : s.redundantOut e = false)
    (hin : s.isIn e = true ∨ ∀ x ∈ chain a, s.redundantOut x = false → s.isIn x = true) :
    s.ChainsOk (fun x => entered x ∨ x = e) (Function.update chain a (e :: chain a)) := by
  refine hc.replace rfl rfl rfl rfl (fun _ _ => rfl) ?_ ?_ ?_ ?_ ?_
  · intro x hx
    have : x ≠ e := by rintro rfl; exact hx ha
    simp [this]
  · intro x
    by_cases hx : x = e
    · simp [hx, ha, hr]
    · simp [hx, hc.mem]
  · exact List.pairwise_cons.mpr ⟨fun x _ h => by simp [ho] at h,hc.ordered a⟩
  · intro x hx y hy hxi hxo hyi hyo
    rcases List.mem_cons.mp hx with rfl | hx <;> rcases List.mem_cons.mp hy with rfl | hy
    · rfl
    · grind
    · grind
    · exact hc.liveOut a x hx y hy hxi hxo hyi hyo
  · intro x hx hxo
    rcases List.mem_cons.mp hx with rfl | hx
    · simp [ho] at hxo
    · obtain ⟨hi,o,hoc,hrest⟩ := hc.later a x hx hxo
      exact ⟨hi,o,by simp [hoc],hrest⟩

/-- A new out entry in front of its chain, while the older live out entry becomes
redundant_out and stands behind all live ones. -/
theorem ChainsOk.pushOut [DecidableEq α] [DecidableEq τ] (hc : s.ChainsOk entered chain) (ha : s.addr e = a)
    (he : ¬ entered e) (hr : s.redundant e = false) (ho : s.redundantOut e = false) (hi : s.isIn e = false)
    {out : τ × ℕ} {v v' w : List (τ × ℕ)} (hu : chain a = v ++ out :: v' ++ w) (hoi : s.isIn out = false)
    (hv : ∀ x ∈ v ++ out :: v', s.redundantOut x = false) (hw : ∀ x ∈ w, s.redundantOut x = true)
    (hearly : ∀ x ∈ chain a, Earlier s.created x.1 e.1) (hn : (chain a).Nodup)
    (hcr : s'.created = s.created) (haddr : s'.addr = s.addr) (hisIn : s'.isIn = s.isIn)
    (hred : s'.redundant = s.redundant) (hrO : s'.redundantOut = Function.update s.redundantOut out true) :
    s'.ChainsOk (fun x => entered x ∨ x = e) (Function.update chain a (e :: (v ++ v' ++ out :: w))) := by
  have houtm : out ∈ chain a := by simp [hu]
  have heo : e ≠ out := by
    rintro rfl
    exact he ((hc.mem a e).mp houtm).1
  have hperm : ∀ x, x ∈ v ++ v' ++ out :: w ↔ x ∈ chain a := by
    intro x
    simp only [hu, List.mem_append, List.mem_cons]
    tauto
  have heO : s'.redundantOut e = false := by rw [hrO, Function.update_of_ne heo, ho]
  have hvO : ∀ x ∈ v ++ v', s'.redundantOut x = false := by
    intro x hx
    have hxo : x ≠ out := by
      rintro rfl
      rw [hu, List.append_assoc, List.cons_append] at hn
      have := (List.nodup_cons.mp (List.nodup_middle.mp hn)).1
      simp at this hx
      tauto
    rw [hrO, Function.update_of_ne hxo]
    exact hv x (by simp at hx ⊢; tauto)
  have hwO : ∀ x ∈ out :: w, s'.redundantOut x = true := by
    intro x hx
    rw [hrO]
    by_cases hxo : x = out
    · simp [hxo]
    · rw [Function.update_of_ne hxo]
      exact hw x ((List.mem_cons.mp hx).resolve_left hxo)
  refine hc.replace hcr haddr hisIn hred ?_ ?_ ?_ ?_ ?_ ?_
  · intro x hx
    rw [hrO, Function.update_of_ne]
    rintro rfl
    exact hx ((hc.mem a _).mp houtm).2.1
  · intro x hx
    have : x ≠ e := by rintro rfl; exact hx ha
    simp [this]
  · intro x
    by_cases hx : x = e
    · simp [hx, ha, hr]
    · rw [List.mem_cons, hperm]
      simp [hx, hc.mem]
  · refine List.pairwise_cons.mpr ⟨fun x _ h => by simp [heO] at h,?_⟩
    refine List.pairwise_append.mpr ⟨?_,?_,fun x _ y hy _ => hwO y hy⟩
    · refine List.pairwise_of_forall_mem_list fun x hx y _ h => ?_
      rw [hvO x hx] at h
      exact Bool.noConfusion h
    · exact List.pairwise_of_forall_mem_list fun _ _ y hy _ => hwO y hy
  · have hall : ∀ x ∈ e :: (v ++ v' ++ out :: w), s.isIn x = false → s'.redundantOut x = false → x = e := by
      intro x hx hxi hxo
      rcases List.mem_cons.mp hx with rfl | hx
      · rfl
      · have hxc := (hperm x).mp hx
        rcases List.mem_append.mp hx with hx | hx
        · have hxl := hc.liveOut a x hxc out houtm hxi
            (hv x (by simp at hx ⊢; tauto)) hoi (hv out (by simp))
          rw [hxl, hwO out (by simp)] at hxo
          exact Bool.noConfusion hxo
        · rw [hwO x hx] at hxo
          exact Bool.noConfusion hxo
    intro x hx y hy hxi hxo hyi hyo
    rw [hall x hx hxi hxo, hall y hy hyi hyo]
  · intro x hx hxo
    have hxe : x ≠ e := by
      rintro rfl
      simp [heO] at hxo
    have hxc : x ∈ chain a := (hperm x).mp ((List.mem_cons.mp hx).resolve_left hxe)
    refine ⟨?_,e,by simp,hi,heO,hearly x hxc⟩
    by_cases hxout : x = out
    · rw [hxout, hoi]
    · rw [hrO, Function.update_of_ne hxout] at hxo
      exact (hc.later a x hxc hxo).1

end Chain

section Enter
variable [DecidableEq τ] [DecidableEq α] {s : DependState τ α} {entered : τ × ℕ → Prop}
  {chain : α → List (τ × ℕ)} {e slot : τ × ℕ} {a : α}

/-- The end of a round: the new entry is linked in front of a chain that is not empty, and the
older out entry is retired. -/
theorem enter_spec (hh : s.Holds chain) (hc : s.ChainsOk entered chain) (ha : s.addr e = a) (he : ¬ entered e)
    (hr : s.redundant e = false) (ho : s.redundantOut e = false) (hp : s.links.prev e = none)
    (hslot : s.dependHash a = some slot) (hearly : ∀ x ∈ chain a, Earlier s.created x.1 e.1) :
    ∃ links rO chain',
      ({ s with
        links := (s.links.setNext e (some slot)).setPrev slot (some e)
        dependHash := Function.update s.dependHash a (some e) }).retireOut e
          (s.lastOut (s.live (chain a))) (s.live (chain a)).getLast? =
        some { s with links, dependHash := Function.update s.dependHash a (some e), redundantOut := rO } ∧
      { s with links, dependHash := Function.update s.dependHash a (some e), redundantOut := rO }.Holds chain' ∧
      { s with links, dependHash := Function.update s.dependHash a (some e), redundantOut := rO }.ChainsOk
        (fun x => entered x ∨ x = e) chain' ∧ (∀ b ≠ a, chain' b = chain b) ∧ (chain' a).head? = some e := by
  have hnot : ∀ b, e ∉ chain b := fun b hb => he ((hc.mem b e).mp hb).1
  obtain ⟨rest,hrest⟩ : ∃ rest, chain a = slot :: rest := by
    have := (hh a).2.symm.trans hslot
    cases hca : chain a with
    | nil => simp [hca] at this
    | cons x rest => exact ⟨rest,by simpa [hca] using this⟩
  have hpush : Linked ((s.links.setNext e (some slot)).setPrev slot (some e)) (e :: chain a) := by
    rw [hrest]
    exact linked_push (hrest ▸ (hh a).1) (hrest ▸ hnot a) hp
  have hframe : ∀ b ≠ a, ∀ x ∈ chain b,
      ((s.links.setNext e (some slot)).setPrev slot (some e)).next x = s.links.next x ∧
      ((s.links.setNext e (some slot)).setPrev slot (some e)).prev x = s.links.prev x := by
    intro b hb x hx
    have hxe : x ≠ e := by rintro rfl; exact hnot b hx
    have hxs : x ≠ slot := by
      rintro rfl
      exact hb (((hc.mem b x).mp hx).2.1.symm.trans ((hc.mem a x).mp (by simp [hrest])).2.1)
    simp [Function.update_of_ne hxe, Function.update_of_ne hxs]
  obtain ⟨w,hw,hlv,hrw⟩ := live_split (hc.ordered a)
  have hfront : ∀ (links : Fields (τ × ℕ)) (rO : τ × ℕ → Bool) (u : List (τ × ℕ)), Linked links (e :: u) →
      (∀ b ≠ a, ∀ x ∈ chain b, links.next x = s.links.next x ∧ links.prev x = s.links.prev x) →
      { s with links, dependHash := Function.update s.dependHash a (some e), redundantOut := rO }.Holds
        (Function.update chain a (e :: u)) :=
    fun links rO u hl hf => hh.replace hl rfl hf
  have hstay (hin : s.isIn e = true ∨ ∀ x ∈ chain a, s.redundantOut x = false → s.isIn x = true) :
      { s with
        links := (s.links.setNext e (some slot)).setPrev slot (some e)
        dependHash := Function.update s.dependHash a (some e) }.ChainsOk (fun x => entered x ∨ x = e)
        (Function.update chain a (e :: chain a)) :=
    (hc.push ha hr ho hin).congr rfl fun x _ => ⟨rfl,rfl,rfl,rfl⟩
  cases hlo : s.lastOut (s.live (chain a)) with
  | none =>
    refine ⟨_,s.redundantOut,_,rfl,hfront _ _ (chain a) hpush hframe,hstay (.inr ?_),?_,by simp⟩
    · intro x hx hxo
      have hxv : x ∈ s.live (chain a) := by
        rw [hw] at hx
        refine (List.mem_append.mp hx).resolve_right fun h => ?_
        rw [hrw x h] at hxo
        exact Bool.noConfusion hxo
      have := List.getLast?_eq_none_iff.mp hlo
      rw [List.filter_eq_nil_iff] at this
      simpa using this x hxv
    · exact fun b hb => Function.update_of_ne hb _ _
  | some out =>
    have hmem := List.mem_of_getLast? hlo
    rw [List.mem_filter] at hmem
    have hoi : s.isIn out = false := by simpa using hmem.2
    obtain ⟨v,v',hv⟩ := List.append_of_mem hmem.1
    have hu : chain a = v ++ out :: v' ++ w := by rw [← hv, ← hw]
    have hpo (links : Fields (τ × ℕ)) (hi : s.isIn e = false) :
        { s with
          links := links
          dependHash := Function.update s.dependHash a (some e)
          redundantOut := Function.update s.redundantOut out true }.ChainsOk (fun x => entered x ∨ x = e)
          (Function.update chain a (e :: (v ++ v' ++ out :: w))) :=
      hc.pushOut ha he hr ho hi hu hoi (fun x hx => hlv x (hv ▸ hx)) hrw hearly (hh a).1.nodup rfl rfl rfl rfl rfl
    by_cases hi : s.isIn e = true
    · refine ⟨_,s.redundantOut,_,?_,hfront _ _ (chain a) hpush hframe,hstay (.inl hi),?_,by simp⟩
      · cases hl : (s.live (chain a)).getLast? <;> simp [retireOut, hi]
      · exact fun b hb => Function.update_of_ne hb _ _
    · simp only [Bool.not_eq_true] at hi
      rcases List.eq_nil_or_concat v' with rfl | ⟨v',last,rfl⟩
      · refine ⟨_,Function.update s.redundantOut out true,_,?_,hfront _ _ _ ?_ hframe,hpo _ hi,?_,by simp⟩
        · simp [hv, retireOut, hi]
        · simpa [hu] using hpush
        · exact fun b hb => Function.update_of_ne hb _ _
      · have hlast : out ≠ last := by
          have := (hh a).1.nodup
          rw [hu] at this
          rintro rfl
          simp [List.nodup_append] at this
        have hlinked : Linked ((s.links.setNext e (some slot)).setPrev slot (some e))
            ((e :: v) ++ out :: (v' ++ last :: w)) := by
          have hl := hpush
          rw [hu] at hl
          simpa using hl
        obtain ⟨links,hmove,hl,hf⟩ := moveOut_linked hlinked (by simp)
        refine ⟨links,Function.update s.redundantOut out true,_,?_,hfront _ _ (v ++ v'.concat last ++ out :: w) ?_ ?_,
          hpo _ hi,?_,by simp⟩
        · simp [hv, retireOut, hi, hlast, hmove, List.getLast?_append, List.getLast?_cons]
        · simpa using hl
        · intro b hb x hx
          have hxa : x ∉ chain a := fun h => hb (((hc.mem b x).mp hx).2.1.symm.trans ((hc.mem a x).mp h).2.1)
          have hxe : x ≠ e := by rintro rfl; exact hnot b hx
          rw [← (hframe b hb x hx).1, ← (hframe b hb x hx).2]
          refine hf x fun h => hxa ?_
          simp only [hu, List.mem_append, List.mem_cons, hxe, false_or, List.concat_eq_append] at h ⊢
          tauto
        · exact fun b hb => Function.update_of_ne hb _ _

end Enter

section Building
variable [DecidableEq τ] {s₀ s s' : DependState τ α} {t : τ} {n nout k : ℕ} {a : α}

/-- What creation of a task takes from the state before it. -/
structure Base (s₀ : DependState τ α) (t : τ) : Prop where
  fresh : t ∉ s₀.created
  nodup : s₀.created.Nodup
  new : ∀ d ∈ s₀.created, t ∉ s₀.dependersOf d
  entries : ∀ d ∈ s₀.created, s₀.EntriesOk d (s₀.dependCount d)

omit [DecidableEq τ] in
theorem Base.ne (hb : Base s₀ t) {d : τ} (hd : d ∈ s₀.created) : d ≠ t := by
  rintro rfl
  exact hb.fresh hd

theorem initEntry_of_ne {e x : τ × ℕ} (hx : x ≠ e) :
    (s.initEntry e nout a).addr x = s.addr x ∧ (s.initEntry e nout a).isIn x = s.isIn x ∧
    (s.initEntry e nout a).redundant x = s.redundant x ∧
    (s.initEntry e nout a).redundantOut x = s.redundantOut x ∧
    (s.initEntry e nout a).links.next x = s.links.next x ∧
    (s.initEntry e nout a).links.prev x = s.links.prev x := by
  simp [initEntry, Function.update_of_ne hx]

theorem Building.entriesOk (hB : Building s₀ s t n nout k) : s.EntriesOk t k := by
  refine ⟨hB.redundant_iff,fun i j hij hj hi => ?_⟩
  rw [hB.isIn_eq i (by omega)] at hi
  rw [hB.isIn_eq j hj]
  simp only [decide_eq_true_eq] at hi ⊢
  omega

omit [DecidableEq τ] in
theorem not_entered (hb : Base s₀ t) : ¬ s₀.Entered t k (t,k) := by
  rintro (h | h)
  · exact hb.fresh h.1.1
  · exact lt_irrefl k h.2

theorem Building.initEntry (hb : Base s₀ t) (hB : Building s₀ s t n nout k) :
    Building s₀ (s.initEntry (t,k) nout a) t n nout k := by
  have hold : ∀ d ∈ s₀.created, ∀ i, (d,i) ≠ (t,k) := fun d hd i h => hb.ne hd (Prod.ext_iff.mp h).1
  have hown : ∀ j < k, (t,j) ≠ (t,k) := fun j hj h => hj.ne (Prod.ext_iff.mp h).2
  obtain ⟨chain,hh,hc,hf⟩ := hB.chains
  have hent : ∀ x, s₀.Entered t k x → x ≠ (t,k) := by
    rintro x hx rfl
    exact not_entered hb hx
  refine ⟨hB.created,hB.completed,hB.queued,hB.dependCount,?_,?_,?_,⟨chain,?_,?_,hf⟩,?_,?_,?_⟩
  · intro x hx
    have hne : x ≠ (t,k) := by rintro rfl; exact hx rfl
    simp only [initEntry_of_ne hne]
    exact hB.others x hx
  · intro j hj
    rw [(initEntry_of_ne (hown j hj)).2.1]
    exact hB.isIn_eq j hj
  · intro j hj
    rw [(initEntry_of_ne (hown j hj)).2.2.1, (initEntry_of_ne (hown j hj)).1, hB.redundant_iff j hj]
    refine exists_congr fun i => and_congr_right fun hi => ?_
    rw [(initEntry_of_ne (hown i (hi.trans hj))).1]
  · intro b
    refine ⟨(hh b).1.congr fun x hx => ?_,(hh b).2⟩
    exact (initEntry_of_ne (hent x ((hc.mem b x).mp hx).1)).2.2.2.2
  · refine hc.congr rfl fun x hx => ?_
    simp only [initEntry_of_ne (hent x hx), and_self]
  · exact ⟨hB.holding.dependers,hB.holding.own,hB.holding.count,hB.holding.others⟩
  · intro d hd ht
    obtain ⟨hu,i,hi,j,hj,h⟩ := hB.held d hd ht
    refine ⟨hu,i,hi,j,hj,?_⟩
    rw [(initEntry_of_ne (hold d hd i)).1, (initEntry_of_ne (hold d hd i)).2.1, (initEntry_of_ne (hown j hj)).1,
      (initEntry_of_ne (hown j hj)).2.1]
    exact h
  · intro e he i hi j hj
    rw [(initEntry_of_ne (hold e he.1 i)).1, (initEntry_of_ne (hold e he.1 i)).2.1, (initEntry_of_ne (hown j hj)).1,
      (initEntry_of_ne (hown j hj)).2.1]
    exact hB.covered e he i hi j hj

/-- A round that enters one more entry. -/
theorem Building.next (hB : Building s₀ s t n nout k) (hcr : s'.created = s.created)
    (hco : s'.completed = s.completed) (hq : s'.queued = s.queued) (hdc : s'.dependCount = s.dependCount)
    (haddr : s'.addr = s.addr) (hisIn : s'.isIn = s.isIn) (hred : ∀ x ≠ (t,k), s'.redundant x = s.redundant x)
    (hkIn : s.isIn (t,k) = decide (nout ≤ k))
    (hkRed : s'.redundant (t,k) = true ↔ ∃ i < k, s.addr (t,i) = s.addr (t,k))
    (hchains : ∃ chain, s'.Holds chain ∧ s'.ChainsOk (s₀.Entered t (k + 1)) chain ∧
      ∀ a, ∀ x ∈ chain a, x.1 = t → (chain a).head? = some x)
    (hhold : Holding s₀ s' t) (hmono : ∀ d, t ∈ s.dependersOf d → t ∈ s'.dependersOf d)
    (hheld : ∀ d ∈ s₀.created, t ∈ s'.dependersOf d → t ∈ s.dependersOf d ∨ s₀.Unfinished d ∧
      ∃ i < s₀.dependCount d, s.addr (d,i) = s.addr (t,k) ∧ (s.isIn (d,i) = false ∨ s.isIn (t,k) = false))
    (hcov : ∀ e, s₀.Unfinished e → ∀ i < s₀.dependCount e, s.addr (e,i) = s.addr (t,k) →
      (s.isIn (e,i) = false ∨ s.isIn (t,k) = false) → t ∈ s'.dependersOf e ∨
        ∃ o, s₀.Unfinished o ∧ Earlier s₀.created e o ∧ s₀.UsesOut (s.addr (t,k)) o ∧ t ∈ s'.dependersOf o) :
    Building s₀ s' t n nout (k + 1) := by
  have hlt : ∀ j, j < k + 1 → j < k ∨ j = k := fun j hj => by omega
  refine ⟨hcr.trans hB.created,hco.trans hB.completed,hq.trans hB.queued,hdc.trans hB.dependCount,?_,?_,?_,hchains,
    hhold,?_,?_⟩
  · intro x hx
    rw [haddr, hisIn, hred x (by rintro rfl; exact hx rfl)]
    exact hB.others x hx
  · intro j hj
    rw [hisIn]
    rcases hlt j hj with hj | rfl
    · exact hB.isIn_eq j hj
    · exact hkIn
  · intro j hj
    rw [haddr]
    rcases hlt j hj with hj | rfl
    · rw [hred _ fun h => hj.ne (Prod.ext_iff.mp h).2]
      exact hB.redundant_iff j hj
    · exact hkRed
  · intro d hd ht
    rw [haddr, hisIn]
    rcases hheld d hd ht with ht | ⟨hu,i,hi,h⟩
    · obtain ⟨hu,i,hi,j,hj,h⟩ := hB.held d hd ht
      exact ⟨hu,i,hi,j,by omega,h⟩
    · exact ⟨hu,i,hi,k,by omega,h⟩
  · intro e he i hi j hj
    rw [haddr, hisIn]
    rcases hlt j hj with hj | rfl
    · intro ha ho
      rcases hB.covered e he i hi j hj ha ho with h | ⟨o,h₁,h₂,h₃,h₄⟩
      · exact .inl (hmono e h)
      · exact .inr ⟨o,h₁,h₂,h₃,hmono o h₄⟩
    · exact hcov e he i hi

omit [DecidableEq τ] in
theorem entered_succ {x : τ × ℕ} : s₀.Entered t (k + 1) x ↔ s₀.Entered t k x ∨ x = (t,k) := by
  rcases x with ⟨y,j⟩
  simp only [Entered, Prod.mk.injEq, Nat.lt_succ_iff_lt_or_eq]
  tauto

/-- The entry of an unfinished sibling for an address it names. -/
theorem Building.entry (hb : Base s₀ t) (hB : Building s₀ s t n nout k) {chain : α → List (τ × ℕ)}
    (hc : s.ChainsOk (s₀.Entered t k) chain) {e : τ} (he : s₀.Unfinished e) {i : ℕ} (hi : i < s₀.dependCount e) :
    ∃ x ∈ chain (s.addr (e,i)), x.1 = e ∧ (s.isIn (e,i) = false → s.isIn x = false) := by
  have hsame : ∀ i, s.addr (e,i) = s₀.addr (e,i) ∧ s.isIn (e,i) = s₀.isIn (e,i) ∧
      s.redundant (e,i) = s₀.redundant (e,i) := fun i => hB.others (e,i) (hb.ne he.1)
  obtain ⟨j,hj,ha,hr,hm⟩ := (hb.entries e he.1).first hi
  refine ⟨(e,j),(hc.mem _ _).mpr ⟨.inl ⟨he,lt_of_le_of_lt hj hi⟩,?_,?_⟩,rfl,?_⟩
  · rw [(hsame j).1, (hsame i).1, ha]
  · rw [(hsame j).2.2, hr]
  · rw [(hsame j).2.1, (hsame i).2.1]
    exact hm

/-- No chain is longer than the number of entries. -/
theorem Building.length_le (hb : Base s₀ t) (hB : Building s₀ s t n nout k) (hk : k ≤ n) {chain : α → List (τ × ℕ)}
    (hh : s.Holds chain) (hc : s.ChainsOk (s₀.Entered t k) chain) (a : α) :
    (chain a).length ≤ s.entryCount := by
  have hsub : chain a ⊆ s.created.flatMap fun x => (List.range (s.dependCount x)).map fun i => (x,i) := by
    intro x hx
    simp only [List.mem_flatMap, List.mem_map, List.mem_range, hB.created, hB.dependCount]
    rcases ((hc.mem a x).mp hx).1 with h | h
    · exact ⟨x.1,by simp [h.1.1],x.2,by simpa [Function.update_of_ne (hb.ne h.1.1)] using h.2,rfl⟩
    · exact ⟨t,by simp,x.2,by simpa using by omega,by rw [← h.1]⟩
  have hle := ((hh a).1.nodup.subperm hsub).length_le
  simpa [List.length_flatMap, entryCount] using hle

/-- The first entry of a chain belongs to the new task exactly when an entry made before
names the address. -/
theorem Building.front_iff (hb : Base s₀ t) (hB : Building s₀ s t n nout k) {a : α} :
    (∃ i < k, s.addr (t,i) = a) ↔ ∃ slot, s.dependHash a = some slot ∧ slot.1 = t := by
  obtain ⟨chain,hh,hc,hfr⟩ := hB.chains
  constructor
  · rintro ⟨i,hi,rfl⟩
    obtain ⟨j,hj,ha,hr,_⟩ := hB.entriesOk.first hi
    have hmem : (t,j) ∈ chain (s.addr (t,i)) := (hc.mem _ _).mpr ⟨.inr ⟨rfl,lt_of_le_of_lt hj hi⟩,ha,hr⟩
    exact ⟨(t,j),(hh _).2.trans (hfr _ _ hmem rfl),rfl⟩
  · rintro ⟨slot,hs,ht⟩
    obtain ⟨he,ha,_⟩ := (hc.mem a slot).mp (List.mem_of_head? ((hh a).2.symm.trans hs))
    rcases he with he | he
    · exact absurd ht (hb.ne he.1.1)
    · exact ⟨slot.2,he.2,by rw [← ht]; exact ha⟩

/-- A round that enters an entry which is not redundant. -/
theorem Building.nextEntry (hb : Base s₀ t) (hB : Building s₀ s t n nout k) {chain chain' : α → List (τ × ℕ)}
    (hfr : ∀ a, ∀ x ∈ chain a, x.1 = t → (chain a).head? = some x)
    (hcr : s'.created = s.created) (hco : s'.completed = s.completed) (hq : s'.queued = s.queued)
    (hdc : s'.dependCount = s.dependCount) (haddr : s'.addr = s.addr) (hisIn : s'.isIn = s.isIn)
    (hred : s'.redundant = s.redundant) (hkIn : s.isIn (t,k) = decide (nout ≤ k))
    (hkRed : s.redundant (t,k) = false) (hnew : ∀ slot, s.dependHash (s.addr (t,k)) = some slot → slot.1 ≠ t)
    (hh : s'.Holds chain') (hc : s'.ChainsOk (fun x => s₀.Entered t k x ∨ x = (t,k)) chain')
    (hother : ∀ b ≠ s.addr (t,k), chain' b = chain b) (hhead : (chain' (s.addr (t,k))).head? = some (t,k))
    (hhold : Holding s₀ s' t) (hmono : ∀ d, t ∈ s.dependersOf d → t ∈ s'.dependersOf d)
    (hheld : ∀ d ∈ s₀.created, t ∈ s'.dependersOf d → t ∈ s.dependersOf d ∨ s₀.Unfinished d ∧
      ∃ i < s₀.dependCount d, s.addr (d,i) = s.addr (t,k) ∧ (s.isIn (d,i) = false ∨ s.isIn (t,k) = false))
    (hcov : ∀ e, s₀.Unfinished e → ∀ i < s₀.dependCount e, s.addr (e,i) = s.addr (t,k) →
      (s.isIn (e,i) = false ∨ s.isIn (t,k) = false) → t ∈ s'.dependersOf e ∨
        ∃ o, s₀.Unfinished o ∧ Earlier s₀.created e o ∧ s₀.UsesOut (s.addr (t,k)) o ∧ t ∈ s'.dependersOf o) :
    Building s₀ s' t n nout (k + 1) := by
  have hnone : ¬ ∃ i < k, s.addr (t,i) = s.addr (t,k) := by
    intro h
    obtain ⟨slot,hs,ht⟩ := (hB.front_iff hb).mp h
    exact hnew slot hs ht
  have hent : s₀.Entered t (k + 1) = fun x => s₀.Entered t k x ∨ x = (t,k) := funext fun x => propext entered_succ
  refine hB.next hcr hco hq hdc haddr hisIn (fun x _ => by rw [hred]) hkIn ?_ ⟨chain',hh,hent ▸ hc,?_⟩ hhold hmono
    hheld hcov
  · simp only [hred, hkRed, Bool.false_eq_true, false_iff]
    exact hnone
  · intro b x hx hxt
    by_cases hba : b = s.addr (t,k)
    · subst hba
      obtain ⟨he,ha,_⟩ := (hc.mem _ x).mp hx
      rcases he with (he | he) | rfl
      · exact absurd hxt (hb.ne he.1.1)
      · have hx2 : (t,x.2) = x := by rw [← hxt]
        exact absurd ⟨x.2,he.2,by rw [hx2, ← haddr, ha, haddr]⟩ hnone
      · exact hhead
    · rw [hother b hba] at hx ⊢
      exact hfr b x hx hxt

/-- A round whose address the task has already named. -/
theorem Building.nextRedundant (hb : Base s₀ t) (hB : Building s₀ s t n nout k)
    (hkIn : s.isIn (t,k) = decide (nout ≤ k)) {slot : τ × ℕ} (hslot : s.dependHash (s.addr (t,k)) = some slot)
    (hst : slot.1 = t) :
    Building s₀ { s with redundant := Function.update s.redundant (t,k) true } t n nout (k + 1) := by
  obtain ⟨chain,hh,hc,hfr⟩ := hB.chains
  obtain ⟨i₀,hi₀,ha₀⟩ := (hB.front_iff hb).mpr ⟨slot,hslot,hst⟩
  have hent : s₀.Entered t (k + 1) = fun x => s₀.Entered t k x ∨ x = (t,k) := funext fun x => propext entered_succ
  refine hB.next rfl rfl rfl rfl rfl rfl (fun x hx => Function.update_of_ne hx _ _) hkIn ?_
    ⟨chain,hh,hent ▸ hc.skip (not_entered hb),hfr⟩
    ⟨hB.holding.dependers,hB.holding.own,hB.holding.count,hB.holding.others⟩ (fun _ => id) (fun _ _ => .inl) ?_
  · simp only [Function.update_self, true_iff]
    exact ⟨i₀,hi₀,ha₀⟩
  · intro e he i hi ha ho
    rw [← ha₀]
    refine hB.covered e he i hi i₀ hi₀ (ha.trans ha₀.symm) (ho.imp_right fun h => ?_)
    rw [hkIn] at h
    rw [hB.isIn_eq i₀ hi₀]
    simp only [decide_eq_false_iff_not] at h ⊢
    omega

/-- A round that walks along the chain of its address. -/
theorem Building.nextScan [DecidableEq α] (hb : Base s₀ t) (hB : Building s₀ s t n nout k) (hk : k ≤ n)
    (hkIn : s.isIn (t,k) = decide (nout ≤ k)) (hkRed : s.redundant (t,k) = false)
    (hkOut : s.redundantOut (t,k) = false) (hkprev : s.links.prev (t,k) = none) {slot : τ × ℕ}
    (hslot : s.dependHash (s.addr (t,k)) = some slot) (hst : slot.1 ≠ t) :
    ∃ s', ((scanChain t (s.isIn (t,k)) s.entryCount s (some slot) none none).bind fun (r,out,last) =>
        ({ r with
          links := (r.links.setNext (t,k) (some slot)).setPrev slot (some (t,k))
          dependHash := Function.update r.dependHash (s.addr (t,k)) (some (t,k)) }).retireOut (t,k) out last) =
      some s' ∧ Building s₀ s' t n nout (k + 1) := by
  obtain ⟨chain,hh,hc,hfr⟩ := hB.chains
  have hhead : (chain (s.addr (t,k))).head? = some slot := (hh _).2.symm.trans hslot
  have hold : ∀ x ∈ chain (s.addr (t,k)), s₀.Live x := by
    intro x hx
    rcases ((hc.mem _ x).mp hx).1 with h | h
    · exact h
    · have := hhead.symm.trans (hfr _ x hx h.1)
      exact absurd (Option.some.inj this ▸ h.1) hst
  obtain ⟨w,hw,hlv,hrw⟩ := live_split (hc.ordered (s.addr (t,k)))
  have hlsub : ∀ x ∈ s.live (chain (s.addr (t,k))), x ∈ chain (s.addr (t,k)) := by
    intro x hx
    rw [hw]
    simp [hx]
  have haw : ∀ d, d ∈ s.awaited (s.isIn (t,k)) (s.live (chain (s.addr (t,k)))) ↔
      ∃ x ∈ s.live (chain (s.addr (t,k))), (s.isIn x = false ∨ s.isIn (t,k) = false) ∧ x.1 = d := by
    intro d
    simp only [awaited, List.mem_map, List.mem_filter, and_assoc]
    refine exists_congr fun x => and_congr_right fun _ => and_congr_left fun _ => ?_
    cases s.isIn (t,k) <;> cases s.isIn x <;> simp
  have hunf : ∀ d ∈ s.awaited (s.isIn (t,k)) (s.live (chain (s.addr (t,k)))), s₀.Unfinished d := by
    intro d hd
    obtain ⟨x,hx,_,rfl⟩ := (haw d).mp hd
    exact (hold x (hlsub x hx)).1
  obtain ⟨hhold,hmem⟩ := hB.holding.hold hb.fresh hb.new hb.nodup _ hunf
  have hscan := scanChain_eq t (s.isIn (t,k)) (p := []) none none (hh (s.addr (t,k))).1 (hB.length_le hb hk hh hc _)
  rw [hhead] at hscan
  have hearly : ∀ x ∈ chain (s.addr (t,k)), Earlier s.created x.1 t := by
    intro x hx
    rw [hB.created]
    exact .inl ⟨rfl,(hold x hx).1.1⟩
  -- the walk changes the vectors only, so what is known of the chains carries over to its result
  obtain ⟨vec,num,hr⟩ := s.hold_eq (s.awaited (s.isIn (t,k)) (s.live (chain (s.addr (t,k))))) t
  rw [hr] at hscan hhold hmem
  obtain ⟨links,rO,chain',hret,hh',hc',hother,hfront⟩ :=
    enter_spec (s := { s with dependers := vec, numDependees := num }) (e := (t,k)) hh
      (hc.congr rfl fun _ _ => ⟨rfl,rfl,rfl,rfl⟩) rfl (not_entered hb) hkRed hkOut hkprev hslot hearly
  rw [hscan, Option.bind_some]
  simp only [Option.or_none]
  refine ⟨_,hret,?_⟩
  refine hB.nextEntry hb hfr rfl rfl rfl rfl rfl rfl rfl hkIn hkRed ?_ hh' hc' hother hfront
    ⟨hhold.dependers,hhold.own,hhold.count,hhold.others⟩ (fun d hd => (hmem d).mpr (.inr hd)) ?_ ?_
  · intro slot' h
    rw [hslot] at h
    exact Option.some.inj h ▸ hst
  · intro d _ hd
    rcases (hmem d).mp hd with hd | hd
    · obtain ⟨x,hx,ho,rfl⟩ := (haw d).mp hd
      have hxl := hold x (hlsub x hx)
      exact .inr ⟨hxl.1,x.2,hxl.2,((hc.mem _ x).mp (hlsub x hx)).2.1,ho⟩
    · exact .inl hd
  · intro e he i hi ha ho
    obtain ⟨x,hx,hxe,hxi⟩ := hB.entry hb hc he hi
    rw [ha] at hx
    have hxo : s.isIn x = false ∨ s.isIn (t,k) = false := ho.imp_left hxi
    have hx' := hx
    rw [hw] at hx'
    rcases List.mem_append.mp hx' with hxl | hxw
    · exact .inl ((hmem e).mpr (.inl ((haw e).mpr ⟨x,hxl,hxo,hxe⟩)))
    · -- an older out use is covered by the live out entry that made it redundant
      obtain ⟨_,o,hoc,hoi,hoO,hoE⟩ := hc.later _ x hx (hrw x hxw)
      have hol := hold o hoc
      have hov : o ∈ s.live (chain (s.addr (t,k))) := by
        have := hoc
        rw [hw] at this
        refine (List.mem_append.mp this).resolve_right fun h => ?_
        rw [hrw o h] at hoO
        exact Bool.noConfusion hoO
      refine .inr ⟨o.1,hol.1,?_,⟨o.2,hol.2,?_,?_⟩,(hmem o.1).mpr (.inl ((haw o.1).mpr ⟨o,hov,.inl hoi,rfl⟩))⟩
      · rw [hB.created, hxe] at hoE
        exact hoE.resolve_left fun h => hb.ne hol.1.1 h.1
      · rw [← (hB.others o (hb.ne hol.1.1)).1]
        exact ((hc.mem _ o).mp hoc).2.1
      · rw [← (hB.others o (hb.ne hol.1.1)).2.1, hoi]

/-- One round of the loop of gomp_task_handle_depend. -/
theorem Building.handleEntry [DecidableEq α] (hb : Base s₀ t) (hB : Building s₀ s t n nout k) (hk : k < n) (a : α) :
    ∃ s', s.handleEntry t nout k a = some s' ∧ Building s₀ s' t n nout (k + 1) := by
  have hB₁ : Building s₀ (s.initEntry (t,k) nout a) t n nout k := hB.initEntry hb
  have hkaddr : (s.initEntry (t,k) nout a).addr (t,k) = a := by simp [DependState.initEntry]
  have hkIn : (s.initEntry (t,k) nout a).isIn (t,k) = decide (nout ≤ k) := by simp [DependState.initEntry]
  have hkRed : (s.initEntry (t,k) nout a).redundant (t,k) = false := by simp [DependState.initEntry]
  have hkOut : (s.initEntry (t,k) nout a).redundantOut (t,k) = false := by simp [DependState.initEntry]
  have hknext : (s.initEntry (t,k) nout a).links.next (t,k) = none := by simp [DependState.initEntry]
  have hkprev : (s.initEntry (t,k) nout a).links.prev (t,k) = none := by simp [DependState.initEntry]
  unfold DependState.handleEntry
  simp only
  generalize s.initEntry (t,k) nout a = s₁ at *
  obtain ⟨chain,hh,hc,hfr⟩ := hB₁.chains
  have hnot := not_entered (k := k) hb
  subst hkaddr
  cases hslot : s₁.dependHash (s₁.addr (t,k)) with
  | none =>
    have hnil : chain (s₁.addr (t,k)) = [] := by
      simpa [hslot] using (hh (s₁.addr (t,k))).2.symm
    refine ⟨_,rfl,hB₁.nextEntry hb hfr rfl rfl rfl rfl rfl rfl rfl hkIn hkRed (by simp [hslot])
      (hh.replace (u := [(t,k)]) ?_ rfl fun _ _ _ _ => ⟨rfl,rfl⟩) ?_ ?_ (by simp)
      ⟨hB₁.holding.dependers,hB₁.holding.own,hB₁.holding.count,hB₁.holding.others⟩ (fun _ => id)
      (fun _ _ => .inl) ?_⟩
    · exact linked_singleton hknext hkprev
    · have hp := hc.push rfl hkRed hkOut (.inr (by simp [hnil]))
      rw [hnil] at hp
      exact hp.congr rfl fun _ _ => ⟨rfl,rfl,rfl,rfl⟩
    · exact fun b hb => Function.update_of_ne hb _ _
    · intro e he i hi ha _
      obtain ⟨x,hx,_⟩ := hB₁.entry hb hc he hi
      rw [ha, hnil] at hx
      simp at hx
  | some slot =>
    by_cases hst : slot.1 = t
    · exact ⟨_,if_pos hst,hB₁.nextRedundant hb hkIn hslot hst⟩
    · obtain ⟨s',hs',hB'⟩ := hB₁.nextScan hb hk.le hkIn hkRed hkOut hkprev hslot hst
      exact ⟨s',(if_neg hst).trans hs',hB'⟩

/-- The whole loop of gomp_task_handle_depend. -/
theorem Building.handleEntries [DecidableEq α] (hb : Base s₀ t) (depend : List α)
    (hB : Building s₀ s t (k + depend.length) nout k) :
    ∃ s', handleEntries t nout k depend s = some s' ∧
      Building s₀ s' t (k + depend.length) nout (k + depend.length) := by
  induction depend generalizing s k with
  | nil => exact ⟨s,rfl,hB⟩
  | cons a depend ih =>
    rw [List.length_cons, Nat.add_comm depend.length, ← Nat.add_assoc] at hB ⊢
    obtain ⟨s₁,hs₁,hB₁⟩ := hB.handleEntry hb (by omega) a
    obtain ⟨s',hs',hB'⟩ := ih hB₁
    exact ⟨s',by simp [DependState.handleEntries, hs₁, hs'],hB'⟩

end Building

end DependState
end GompUlt.Depend
