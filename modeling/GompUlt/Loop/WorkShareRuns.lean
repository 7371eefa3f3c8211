import GompUlt.Loop.WorkShareLive

/-! # Runs of the work shares of a team

In every run the threads of a team agree on the work share of each construct, one of them makes it, no
work share is freed under a thread, and a copyprivate `single` gives every other thread what the one
that executed it passed on.
-/
namespace GompUlt.WorkShareChain
open Run

variable {n : ℕ}

section Thread
variable (kind : ℕ → Kind)

/-- What `gomp_work_share_start` returned for the construct the thread is in. -/
def Thread.role (th : Thread) : Option Bool :=
  match th.pc with
  | .outside | .get | .alloc | .freeLast => none
  | .initDone | .stored | .ending => some true
  | .inside first | .waiting first _ | .lastFree first | .release first => some first
  | .reading | .copied _ => some false

/-- The thread has stored the copyprivate pointer or may read it. -/
def Thread.shown (generation : ℕ) (th : Thread) : Prop :=
  match th.pc with
  | .stored | .ending | .reading => True
  | .waiting first g => kind th.count = Kind.copy ∧ (first = true ∨ g ≠ generation)
  | .release first => kind th.count = Kind.copy ∧ first = true
  | .outside | .get | .alloc | .initDone | .inside _ | .lastFree _ | .copied _ | .freeLast => False

end Thread

/-- Who made the work shares, and what `copyprivate` holds. -/
structure Roles (kind : ℕ → Kind) (data : Fin n → ℕ → ℕ) (s : State n) : Prop where
  made : ∀ k, 1 ≤ k → k ≤ s.top → ∃ f, s.firstOf k = some f ∧ k ≤ (s.thr f).count
  role : ∀ t b, (s.thr t).role = some b → ∃ f, s.firstOf (s.thr t).count = some f ∧ (f = t ↔ b = true)
  shown : ∀ t f, (s.thr t).shown kind s.generation → s.firstOf (s.thr t).count = some f →
    s.copyprivate (s.made (s.thr t).count) = data f (s.thr t).count
  copied : ∀ t ret f, (s.thr t).pc = .copied ret → s.firstOf (s.thr t).count = some f → ret = data f (s.thr t).count

variable {kind : ℕ → Kind} {data : Fin n → ℕ → ℕ} {s s₁ : State n} {t : Fin n} {th : Thread}

theorem roles_init : Roles kind data (init n) where
  made k hk hk' := by
    have : k ≤ 0 := hk'
    omega
  role t b h := by cases h
  shown t f h := by cases h
  copied t ret f h := by cases h

/-- No thread goes back to an earlier construct. -/
theorem Roles.made_put (h : Roles kind data s) (hthr : s₁.thr = s.thr) (hcount : (s.thr t).count ≤ th.count) {k : ℕ}
    (hk : 1 ≤ k) (hk' : k ≤ s.top) : ∃ f, s.firstOf k = some f ∧ k ≤ ((s₁.put t th).thr f).count := by
  obtain ⟨f,hf,hle⟩ := h.made k hk hk'
  refine ⟨f,hf,hle.trans ?_⟩
  exact forall_put (p := fun u x => (s.thr u).count ≤ x.count) hcount (fun u _ => by rw [hthr]) f

/-- A step of one thread that makes no work share, stores no pointer and releases no barrier. -/
theorem Roles.move (h : Roles kind data s) (hthr : s₁.thr = s.thr) (hfirst : s₁.firstOf = s.firstOf)
    (htop : s₁.top = s.top) (hmade : s₁.made = s.made) (hcopy : s₁.copyprivate = s.copyprivate)
    (hgen : s₁.generation = s.generation) (hcount : (s.thr t).count ≤ th.count)
    (hrole : ∀ b, th.role = some b → ∃ f, s.firstOf th.count = some f ∧ (f = t ↔ b = true))
    (hshown : ∀ f, th.shown kind s.generation → s.firstOf th.count = some f →
      s.copyprivate (s.made th.count) = data f th.count)
    (hcopied : ∀ ret f, th.pc = .copied ret → s.firstOf th.count = some f → ret = data f th.count) :
    Roles kind data (s₁.put t th) := by
  constructor
  case made =>
    rw [put_top, htop, put_firstOf, hfirst]
    exact fun k => h.made_put hthr hcount
  case role =>
    rw [put_firstOf, hfirst]
    exact forall_put (p := fun u x => ∀ b, x.role = some b → ∃ f, s.firstOf x.count = some f ∧ (f = u ↔ b = true)) hrole
      fun u _ => by rw [hthr]; exact h.role u
  case shown =>
    rw [put_firstOf, put_copyprivate, put_generation, put_made, hfirst, hcopy, hgen, hmade]
    exact forall_put (p := fun _ x => ∀ f, x.shown kind s.generation → s.firstOf x.count = some f →
      s.copyprivate (s.made x.count) = data f x.count) hshown fun u _ => by rw [hthr]; exact h.shown u
  case copied =>
    rw [put_firstOf, hfirst]
    exact forall_put (p := fun _ x => ∀ ret f, x.pc = .copied ret → s.firstOf x.count = some f → ret = data f x.count)
      hcopied fun u _ => by rw [hthr]; exact h.copied u

/-- Two threads at barriers of the same generation are in the same construct. -/
theorem same_construct {j k : ℕ} (hj : 1 ≤ j) (hk : 1 ≤ k) (hkj : kind j ≠ Kind.nowait) (hkk : kind k ≠ Kind.nowait)
    (h : barriers kind (j - 1) = barriers kind (k - 1)) : j = k := by
  have hej := barriers_eq kind hj
  have hek := barriers_eq kind hk
  rw [if_neg hkj] at hej
  rw [if_neg hkk] at hek
  rcases Nat.lt_trichotomy j k with hlt | heq | hlt
  · have hm := barriers_mono kind (show j ≤ k - 1 by omega)
    omega
  · exact heq
  · have hm := barriers_mono kind (show k ≤ j - 1 by omega)
    omega

/-- The thread that made the work share stores the pointer. -/
theorem roles_store (h : Roles kind data s) (hb : Barrier kind s) (hc : Chain kind s)
    (hpc : (s.thr t).pc = .inside true) (hkind : kind (s.thr t).count = Kind.copy) :
    Roles kind data ({ s with
      copyprivate := Function.update s.copyprivate (s.thr t).workShare (data t (s.thr t).count) }.put t
        { s.thr t with pc := .stored }) := by
  obtain ⟨f,hf,hft⟩ := h.role t true (by simp [Thread.role, hpc])
  obtain rfl : f = t := hft.mpr rfl
  have hk : 1 ≤ (s.thr f).count := by simpa [Thread.KindOk, hpc] using hb.kinds f
  have hleft : barriers kind ((s.thr f).count - 1) = s.generation := by simpa [Thread.left, hpc] using hb.left f
  have hsucc := barriers_eq kind hk
  rw [if_neg (by simp [hkind])] at hsucc
  -- nobody else has the pointer of this construct yet
  have hnone : ∀ u, u ≠ f → (s.thr u).shown kind s.generation → s.made (s.thr u).count ≠ s.made (s.thr f).count := by
    intro u hu hshown e
    have hlive : ∀ w, s.freed ≤ (s.thr w).count ∧ (s.thr w).count ≤ s.top := fun w =>
      ⟨(hc.freed_le w).trans ((passed_le_level kind _).trans (level_le_count kind _)),
        countOk_le (hc.count w) hc.linked_le_top⟩
    have hcount := hc.inj _ _ (hlive u).1 (hlive u).2 (hlive f).1 (hlive f).2 e
    have hfirst : (s.thr u).role ≠ some true := by
      intro hr
      obtain ⟨f',hf',hu'⟩ := h.role u true hr
      rw [hcount, hf] at hf'
      exact hu ((hu'.mpr rfl).symm.trans (Option.some.inj hf').symm)
    have hl := hb.left u
    cases hpcu : (s.thr u).pc with
    | stored | ending => simp [Thread.role, hpcu] at hfirst
    | reading =>
      simp only [Thread.left, hpcu, hcount] at hl
      omega
    | waiting first g =>
      simp only [Thread.shown, hpcu] at hshown
      rcases hshown.2 with rfl | hg
      · simp [Thread.role, hpcu] at hfirst
      · simp only [Thread.left, hpcu, if_neg hg, hcount] at hl
        omega
    | release first =>
      simp only [Thread.shown, hpcu] at hshown
      simp [Thread.role, hpcu, hshown.2] at hfirst
    | outside | get | alloc | initDone | inside | lastFree | copied | freeLast => simp [Thread.shown, hpcu] at hshown
  have hws := hc.workShare f
  constructor
  case made => exact fun k => h.made_put rfl (by exact le_rfl)
  case role =>
    refine forall_put (p := fun u x => ∀ b, x.role = some b → ∃ g, s.firstOf x.count = some g ∧ (g = u ↔ b = true))
      (fun b hr => ⟨f,hf,?_⟩) fun u _ => h.role u
    simpa [Thread.role] using hr
  case shown =>
    refine forall_put (p := fun _ x => ∀ g, x.shown kind s.generation → s.firstOf x.count = some g →
      Function.update s.copyprivate (s.thr f).workShare (data f (s.thr f).count) (s.made x.count) = data g x.count)
      (fun g _ hg => ?_) fun u hu g hshown hg => ?_
    · obtain rfl : f = g := Option.some.inj (hf.symm.trans hg)
      simp [hws]
    · rw [hws]
      exact (Function.update_of_ne (hnone u hu hshown) _ _).trans (h.shown u g hshown hg)
  case copied =>
    exact forall_put (p := fun _ x => ∀ ret g, x.pc = .copied ret → s.firstOf x.count = some g → ret = data g x.count)
      (fun _ _ hx => by cases hx) fun u _ => h.copied u

/-- The thread that finds no pointer makes the work share of the next construct. -/
theorem roles_alloc (h : Roles kind data s) (hc : Chain kind s) (hpc : (s.thr t).pc = .alloc) {b : ℕ} :
    Roles kind data ((newWorkShare s t b).put t
      { s.thr t with workShare := b, count := (s.thr t).count + 1, pc := .initDone }) := by
  have hcreating : (s.thr t).creating = true := by simp [Thread.creating, hpc]
  obtain ⟨hcount,htop⟩ : (s.thr t).count = s.linked ∧ s.top = s.linked := by
    simpa [Thread.CountOk, hpc] using hc.count t
  have hothers : ∀ u, u ≠ t → (s.thr u).count ≤ s.top := fun u hu => htop ▸ (hc.alone hcreating hu).2
  have hfirst : ∀ k, k ≤ s.top → (newWorkShare s t b).firstOf k = s.firstOf k := fun k hk =>
    Function.update_of_ne (by omega) _ _
  have hmade : ∀ k, k ≤ s.top → (newWorkShare s t b).made k = s.made k := fun k hk =>
    Function.update_of_ne (by omega) _ _
  have hfirst' : (newWorkShare s t b).firstOf (s.top + 1) = some t := Function.update_self ..
  constructor
  case made =>
    intro k hk hk'
    have hk'' : k ≤ s.top + 1 := hk'
    rcases Nat.lt_or_eq_of_le hk'' with hlt | rfl
    · rw [put_firstOf, hfirst k (by omega)]
      have hle : (s.thr t).count ≤ ({ s.thr t with workShare := b, count := (s.thr t).count + 1, pc := .initDone } :
        Thread).count := Nat.le_succ _
      exact h.made_put rfl hle hk (by omega)
    · refine ⟨t,hfirst',?_⟩
      rw [put_self]
      simp only
      omega
  case role =>
    refine forall_put (p := fun u x => ∀ r, x.role = some r →
      ∃ f, (newWorkShare s t b).firstOf x.count = some f ∧ (f = u ↔ r = true)) (fun r hr => ?_) fun u hu r hr => ?_
    · refine ⟨t,?_,by simpa [Thread.role] using hr⟩
      rw [← hfirst', htop, hcount]
    · obtain ⟨f,hf,hft⟩ := h.role u r hr
      exact ⟨f,(hfirst _ (hothers u hu)).trans hf,hft⟩
  case shown =>
    refine forall_put (p := fun _ x => ∀ f, x.shown kind s.generation → (newWorkShare s t b).firstOf x.count = some f →
      s.copyprivate ((newWorkShare s t b).made x.count) = data f x.count) (fun f hf => by cases hf) fun u hu f hs hf => ?_
    change s.copyprivate ((newWorkShare s t b).made (s.thr u).count) = data f (s.thr u).count
    rw [hmade _ (hothers u hu)]
    exact h.shown u f hs ((hfirst _ (hothers u hu)).symm.trans hf)
  case copied =>
    refine forall_put (p := fun _ x => ∀ ret f, x.pc = .copied ret → (newWorkShare s t b).firstOf x.count = some f →
      ret = data f x.count) (fun _ _ hx => by cases hx) fun u hu ret f hx hf => ?_
    exact h.copied u ret f hx ((hfirst _ (hothers u hu)).symm.trans hf)

/-- When the barrier of a copyprivate construct is released, the pointer has been stored. -/
theorem stored_at_release (h : Roles kind data s) (hb : Barrier kind s) (hc : Chain kind s) {first : Bool}
    (hpc : (s.thr t).pc = .release first) (hkind : kind (s.thr t).count = Kind.copy) {f : Fin n}
    (hf : s.firstOf (s.thr t).count = some f) :
    s.copyprivate (s.made (s.thr t).count) = data f (s.thr t).count := by
  have hlast : (s.thr t).isLast = true := by simp [Thread.isLast, hpc]
  have hk := hb.kinds t
  have hl := hb.left t
  simp only [Thread.KindOk, hpc] at hk
  simp only [Thread.left, hpc] at hl
  have htop := countOk_le (hc.count t) hc.linked_le_top
  obtain ⟨f',hf',hle⟩ := h.made _ hk.1 htop
  obtain rfl : f = f' := Option.some.inj (hf.symm.trans hf')
  by_cases hft : f = t
  · -- the thread itself stored it
    subst hft
    obtain ⟨g,hg,hgb⟩ := h.role f first (by simp [Thread.role, hpc])
    have hfirst : first = true := hgb.mp (Option.some.inj (hg.symm.trans hf))
    exact h.shown f f (by simp [Thread.shown, hpc, hkind, hfirst]) hf
  · -- the one that did waits at the same barrier
    obtain ⟨b,hw⟩ := hb.others_wait hlast hft
    have hkf := hb.kinds f
    have hlf := hb.left f
    simp only [Thread.KindOk, hw] at hkf
    simp only [Thread.left, hw, if_true] at hlf
    have hsame : (s.thr f).count = (s.thr t).count := same_construct hkf.1 hk.1 hkf.2 hk.2 (hlf.trans hl.symm)
    obtain ⟨g,hg,hgb⟩ := h.role f b (by simp [Thread.role, hw])
    rw [hsame, hf] at hg
    have hb' : b = true := hgb.mp (Option.some.inj hg).symm
    have hshown := h.shown f f (by simp [Thread.shown, hw, hsame, hkind, hb']) (by rw [hsame, hf])
    rwa [hsame] at hshown

variable (kind) in
theorem leave_cases (th : Thread) (first : Bool) : (leave kind th first).count = th.count ∧
    ((kind th.count = Kind.copy ∧ (leave kind th first).pc = if first then .ending else .reading) ∨
      (kind th.count ≠ Kind.copy ∧ (leave kind th first).pc = .outside)) := by
  unfold leave
  by_cases hcopy : kind th.count = Kind.copy
  · simp [hcopy]
  · simp [hcopy]

/-- After the barrier a thread has the role it had before. -/
theorem leave_role {th : Thread} {first b : Bool} (hr : (leave kind th first).role = some b) : b = first := by
  obtain ⟨-,⟨-,hpc⟩ | ⟨-,hpc⟩⟩ := leave_cases kind th first
  · cases first <;> simp_all [Thread.role]
  · simp [Thread.role, hpc] at hr

theorem roles_release (h : Roles kind data s) (hb : Barrier kind s) (hc : Chain kind s) {first : Bool}
    (hpc : (s.thr t).pc = .release first) :
    Roles kind data ({ s with awaited := n, generation := s.generation + 1 }.put t (leave kind (s.thr t) first)) := by
  have hlast : (s.thr t).isLast = true := by simp [Thread.isLast, hpc]
  obtain ⟨hcount,hleave⟩ := leave_cases kind (s.thr t) first
  have hk := hb.kinds t
  have hl := hb.left t
  simp only [Thread.KindOk, hpc] at hk
  simp only [Thread.left, hpc] at hl
  constructor
  case made => exact fun k => h.made_put rfl hcount.ge
  case role =>
    refine forall_put (p := fun u x => ∀ b, x.role = some b → ∃ f, s.firstOf x.count = some f ∧ (f = u ↔ b = true))
      (fun b hr => ?_) fun u _ => h.role u
    obtain rfl := leave_role hr
    rw [hcount]
    exact h.role t b (by simp [Thread.role, hpc])
  case shown =>
    refine forall_put (p := fun _ x => ∀ f, x.shown kind (s.generation + 1) → s.firstOf x.count = some f →
      s.copyprivate (s.made x.count) = data f x.count) (fun f hs hf => ?_) fun u hu f hs hf => ?_
    · rw [hcount] at hf ⊢
      rcases hleave with ⟨hkind,-⟩ | ⟨-,hout⟩
      · exact stored_at_release h hb hc hpc hkind hf
      · simp [Thread.shown, hout] at hs
    · obtain ⟨b,hw⟩ := hb.others_wait hlast hu
      have hku := hb.kinds u
      have hlu := hb.left u
      simp only [Thread.KindOk, hw] at hku
      simp only [Thread.left, hw, if_true] at hlu
      have hsame : (s.thr u).count = (s.thr t).count := same_construct hku.1 hk.1 hku.2 hk.2 (hlu.trans hl.symm)
      have hs' : (s.thr u).shown kind (s.generation + 1) := hs
      have hf' : s.firstOf (s.thr u).count = some f := hf
      simp only [Thread.shown, hw] at hs'
      change s.copyprivate (s.made (s.thr u).count) = data f (s.thr u).count
      rw [hsame] at hf' hs' ⊢
      exact stored_at_release h hb hc hpc hs'.1 hf'
  case copied =>
    refine forall_put (p := fun _ x => ∀ ret f, x.pc = .copied ret → s.firstOf x.count = some f → ret = data f x.count)
      (fun ret f hx => ?_) fun u _ => h.copied u
    obtain ⟨-,hp⟩ | ⟨-,hp⟩ := hleave
    · cases first <;> simp_all
    · rw [hp] at hx
      cases hx

/-! ## One step -/

/-- The whole invariant. -/
structure Live (kind : ℕ → Kind) (data : Fin n → ℕ → ℕ) (s : State n) : Prop where
  barrier : Barrier kind s
  chain : Chain kind s
  roles : Roles kind data s

theorem live_init [NeZero n] : Live kind data (init n) := ⟨barrier_init,chain_init,roles_init⟩

/-- A thread that has neither arrived at the barrier nor ended a construct has not passed it. -/
theorem passed_lt_of_awaited (hb : Barrier kind s) {k : ℕ} (hk : 1 ≤ k) (hkind : kind k ≠ Kind.nowait)
    (hgen : barriers kind (k - 1) = s.generation) {u : Fin n} (hu : (s.thr u).arrived s.generation = false) :
    (s.thr u).passed kind ≤ k - 1 := by
  have hl := hb.left u
  have hsucc := barriers_eq kind hk
  rw [if_neg hkind] at hsucc
  have hpassed : barriers kind ((s.thr u).passed kind) ≤ s.generation := by
    cases hpc : (s.thr u).pc with
    | waiting first g =>
      have hg : g ≠ s.generation := by simpa [Thread.arrived, hpc] using hu
      simp only [Thread.left, hpc, if_neg hg] at hl
      rw [← hl]
      have hle := (passed_le_level kind (s.thr u)).trans (level_le_count kind (s.thr u))
      exact barriers_mono kind hle
    | lastFree | release => simp [Thread.arrived, hpc] at hu
    | outside | get | alloc | initDone | inside | stored =>
      simp only [Thread.left, hpc] at hl
      simp [Thread.passed, hpc, hl]
    | reading | copied | ending | freeLast =>
      simp only [Thread.left, hpc] at hl
      rw [← hl]
      have hle := (passed_le_level kind (s.thr u)).trans (level_le_count kind (s.thr u))
      exact barriers_mono kind hle
  by_contra hlt
  have hm := barriers_mono kind (show k ≤ (s.thr u).passed kind by omega)
  omega

/-- Somebody else has not arrived when the last one is still awaited. -/
theorem exists_awaited (hb : Barrier kind s) (t : Fin n) (haw : s.awaited - 1 ≠ 0) :
    ∃ u, u ≠ t ∧ (s.thr u).arrived s.generation = false := by
  by_contra hno
  push Not at hno
  have hcard : n ≤ numArrived s + 1 := by
    have hsub : Finset.univ.erase t ⊆ Finset.univ.filter fun u => (s.thr u).arrived s.generation = true := by
      intro u hu
      simpa using hno u (Finset.ne_of_mem_erase hu)
    have hle := Finset.card_le_card hsub
    rw [Finset.card_erase_of_mem (Finset.mem_univ t), Finset.card_univ, Fintype.card_fin] at hle
    unfold numArrived
    omega
  have := hb.awaited
  omega

theorem live_arrive (h : Live kind data s) {first : Bool} (harr : (s.thr t).arrived s.generation = false)
    (hleft : (s.thr t).left kind s.generation = barriers kind ((s.thr t).count - 1)) (hcount : 1 ≤ (s.thr t).count)
    (hkind : kind (s.thr t).count ≠ Kind.nowait) (hlevel : (s.thr t).level kind = (s.thr t).count - 1)
    (hcreating : (s.thr t).creating = false) (hlast : (s.thr t).lastIndex kind = some ((s.thr t).count - 1))
    (hrole : (s.thr t).role = some first)
    (hstored : kind (s.thr t).count = Kind.copy → first = true → (s.thr t).pc = .stored) :
    Live kind data (arrive kind s t first) := by
  have hb := h.barrier
  have hpassed : (s.thr t).passed kind = (s.thr t).count - 1 := (lastIndex_passed hlast).symm
  have hgen : barriers kind ((s.thr t).count - 1) = s.generation := hleft.symm.trans (hb.left t)
  have hlw := h.chain.lastWorkShare t _ hlast
  refine ⟨barrier_arrive hb harr hleft hcount hkind,?_,?_⟩
  · have hsame : SameChain s { s with awaited := s.awaited - 1 } := ⟨rfl,rfl,rfl,rfl,rfl,rfl,rfl,rfl⟩
    have hcnt : (s.thr t).count ≤ s.linked := (countOk_of_not_creating hcreating).mp (h.chain.count t)
    unfold arrive
    by_cases hwait : kind (s.thr t).count = Kind.wait
    · -- the arrival ends the construct
      have hno : kind (s.thr t).count ≠ Kind.copy := by simp [hwait]
      by_cases hzero : s.awaited - 1 = 0
      · rw [if_pos hzero, if_pos hwait]
        refine h.chain.advance hsame hcount rfl hlevel hcreating rfl (by simp [Thread.level]) rfl rfl (fun i hi => ?_)
          (fun _ _ _ _ _ => rfl) (fun hk => absurd hwait hk) (Or.inl (by simp [Thread.passed])) (fun hx => by cases hx)
        obtain rfl : (s.thr t).count - 1 = i := by simpa [Thread.lastIndex] using hi
        exact hlw
      · rw [if_neg hzero]
        obtain ⟨w,hw,hwarr⟩ := exists_awaited hb t hzero
        refine h.chain.advance hsame hcount rfl hlevel hcreating rfl (by simp [Thread.level, Thread.passed, hwait]) rfl
          rfl (fun i hi => by simp [Thread.lastIndex, hno] at hi) (fun _ _ _ _ _ => rfl) (fun hk => absurd hwait hk)
          (Or.inr ⟨w,hw,passed_lt_of_awaited hb hcount hkind hgen hwarr⟩) (fun hx => by cases hx)
    · have hcopy : kind (s.thr t).count = Kind.copy := by
        cases hk : kind (s.thr t).count with
        | wait => exact absurd hk hwait
        | nowait => exact absurd hk hkind
        | copy => rfl
      have hmove : ∀ pc, pc = .release first ∨ pc = .waiting first s.generation →
          Chain kind ({ s with awaited := s.awaited - 1 }.put t { s.thr t with pc := pc }) := by
        intro pc hpc
        refine h.chain.move hsame rfl ?_ ?_ (h.chain.workShare t) (fun i hi => ?_) ?_ ?_ ?_
        · rw [hcreating]
          rcases hpc with rfl | rfl <;> rfl
        · rcases hpc with rfl | rfl <;> exact hcnt
        · obtain rfl : (s.thr t).count - 1 = i := by rcases hpc with rfl | rfl <;> simpa [Thread.lastIndex, hcopy] using hi
          exact hlw
        · rw [hpassed]
          rcases hpc with rfl | rfl <;> simp [Thread.passed, hwait]
        · rw [hlevel]
          rcases hpc with rfl | rfl <;> simp [Thread.level, Thread.passed, hwait]
        · rcases hpc with rfl | rfl <;> simp
      by_cases hzero : s.awaited - 1 = 0
      · rw [if_pos hzero, if_neg hwait]
        exact hmove _ (Or.inl rfl)
      · rw [if_neg hzero]
        exact hmove _ (Or.inr rfl)
  · have hmove : ∀ pc, (pc = .lastFree first ∨ pc = .release first ∨ pc = .waiting first s.generation) →
        Roles kind data ({ s with awaited := s.awaited - 1 }.put t { s.thr t with pc := pc }) := by
      intro pc hpc
      refine h.roles.move rfl rfl rfl rfl rfl rfl (by exact le_rfl) (fun b hb' => ?_) (fun f hs hf => ?_) (fun ret f hx => ?_)
      · obtain rfl : first = b := by rcases hpc with rfl | rfl | rfl <;> simpa [Thread.role] using hb'
        exact h.roles.role t first hrole
      · have hst : kind (s.thr t).count = Kind.copy ∧ first = true := by
          rcases hpc with rfl | rfl | rfl <;> simp_all [Thread.shown]
        exact h.roles.shown t f (by simp [Thread.shown, hstored hst.1 hst.2]) hf
      · rcases hpc with rfl | rfl | rfl <;> cases hx
    unfold arrive
    split_ifs
    · exact hmove _ (Or.inl rfl)
    · exact hmove _ (Or.inr (Or.inl rfl))
    · exact hmove _ (Or.inr (Or.inr rfl))

theorem live_endNowait (h : Live kind data s) (harr : (s.thr t).arrived s.generation = false)
    (hleft : (s.thr t).left kind s.generation = barriers kind (s.thr t).count) (hcount : 1 ≤ (s.thr t).count)
    (hkind : kind (s.thr t).count ≠ Kind.wait) (hlevel : (s.thr t).level kind = (s.thr t).count - 1)
    (hcreating : (s.thr t).creating = false) (hlast : (s.thr t).lastIndex kind = some ((s.thr t).count - 1)) :
    Live kind data (endNowait s t) := by
  have hb := h.barrier
  have hc := h.chain
  have hlw := hc.lastWorkShare t _ hlast
  have hcnt := countOk_le (hc.count t) hc.linked_le_top
  have hpassed : (s.thr t).passed kind = (s.thr t).count - 1 := (lastIndex_passed hlast).symm
  have hfreed : s.freed < (s.thr t).count := by
    have := hc.freed_le t
    omega
  have hws := hc.workShare t
  have hcompleted := hc.completed _ hfreed hcnt hkind
  have heq : endNowait s t = { s with
      threadsCompleted := Function.update s.threadsCompleted (s.thr t).workShare
        (s.threadsCompleted (s.thr t).workShare + 1) }.put t
      (if s.threadsCompleted (s.thr t).workShare + 1 = n then { s.thr t with pc := .freeLast }
        else { s.thr t with lastWorkShare := none, pc := .outside }) := by
    unfold endNowait
    rw [if_neg (by simp [hlw])]
  have hsame : SameChain s { s with
      threadsCompleted := Function.update s.threadsCompleted (s.thr t).workShare
        (s.threadsCompleted (s.thr t).workShare + 1) } := ⟨rfl,rfl,rfl,rfl,rfl,rfl,rfl,rfl⟩
  have hother : ∀ j, s.freed < j → j ≤ s.top → kind j ≠ Kind.wait → j ≠ (s.thr t).count →
      Function.update s.threadsCompleted (s.thr t).workShare (s.threadsCompleted (s.thr t).workShare + 1) (s.made j) =
        s.threadsCompleted (s.made j) := by
    intro j hj hj' _ hne
    refine Function.update_of_ne (fun e => hne ?_) _ _
    exact hc.inj j _ hj.le hj' hfreed.le hcnt (e.trans hws)
  have hthis : Function.update s.threadsCompleted (s.thr t).workShare (s.threadsCompleted (s.thr t).workShare + 1)
      (s.made (s.thr t).count) = s.threadsCompleted (s.made (s.thr t).count) + 1 := by simp [hws]
  -- the threads that have ended the construct, this one not among them
  have hnum : numEnded kind s (s.thr t).count = (Finset.univ.erase t |>.filter fun u =>
      decide ((s.thr t).count ≤ (s.thr u).level kind) = true).card := by
    unfold numEnded
    congr 1
    ext u
    simp only [Finset.mem_filter, Finset.mem_univ, true_and, Finset.mem_erase, and_true, iff_and_self, ne_eq]
    rintro hu rfl
    simp only [decide_eq_true_eq] at hu
    omega
  have hcard : (Finset.univ.erase t).card = n - 1 := by
    rw [Finset.card_erase_of_mem (Finset.mem_univ t), Finset.card_univ, Fintype.card_fin]
  have hpos : 0 < n := Fin.pos t
  rw [heq]
  by_cases hall : s.threadsCompleted (s.thr t).workShare + 1 = n
  · rw [if_pos hall]
    -- all others have ended it
    have hothers : ∀ u, u ≠ t → (s.thr t).count ≤ (s.thr u).level kind := by
      rw [hws, hcompleted, hnum] at hall
      have hfilter := Finset.card_filter_eq_iff.mp (show (Finset.univ.erase t |>.filter fun u =>
        decide ((s.thr t).count ≤ (s.thr u).level kind) = true).card = (Finset.univ.erase t).card by omega)
      intro u hu
      simpa using hfilter u (Finset.mem_erase.mpr ⟨hu,Finset.mem_univ u⟩)
    refine ⟨hb.move rfl rfl rfl ⟨hcount,hkind⟩ hleft.symm harr.symm (fun hx => by cases hx),?_,?_⟩
    · refine hc.advance hsame hcount rfl hlevel hcreating rfl rfl rfl rfl (fun i hi => ?_) hother (fun _ => hthis)
        (Or.inl rfl) fun _ u hu => ⟨hothers u hu,fun hpcu => ?_⟩
      · obtain rfl : (s.thr t).count - 1 = i := by simpa [Thread.lastIndex] using hi
        exact hlw
      · -- that thread would have waited for this one
        have hge := hothers u hu
        have hfr := hc.freeing u hpcu t
        have hle := level_le_count kind (s.thr u)
        omega
    · exact h.roles.move rfl rfl rfl rfl rfl rfl (by exact le_rfl) (fun b hx => by cases hx) (fun f hx => by cases hx)
        (fun ret f hx => by cases hx)
  · rw [if_neg hall]
    refine ⟨hb.move rfl rfl rfl trivial hleft.symm harr.symm (fun hx => by cases hx),?_,?_⟩
    · refine hc.advance hsame hcount rfl hlevel hcreating rfl rfl rfl rfl (fun i hi => by cases hi) hother
        (fun _ => hthis) (Or.inr ?_) (fun hx => by cases hx)
      by_contra hno
      push Not at hno
      -- then all others would have ended the construct
      have hfilter : (Finset.univ.erase t |>.filter fun u =>
          decide ((s.thr t).count ≤ (s.thr u).level kind) = true) = Finset.univ.erase t := by
        refine Finset.filter_true_of_mem fun u hu => ?_
        have hlt := hno u (Finset.ne_of_mem_erase hu)
        have hle := passed_le_level kind (s.thr u)
        simp only [decide_eq_true_eq]
        omega
      rw [hws, hcompleted, hnum, hfilter, hcard] at hall
      omega
    · exact h.roles.move rfl rfl rfl rfl rfl rfl (by exact le_rfl) (fun b hx => by cases hx) (fun f hx => by cases hx)
        (fun ret f hx => by cases hx)

/-- A thread about to free a work share is the last one that needed it. -/
theorem others_passed (hb : Barrier kind s) (hc : Chain kind s)
    (hpc : (∃ first, (s.thr t).pc = .lastFree first) ∨ (s.thr t).pc = .freeLast) {u : Fin n} (hu : u ≠ t) :
    (s.thr t).count ≤ (s.thr u).passed kind := by
  rcases hpc with ⟨first,hpc⟩ | hpc
  · have hlast : (s.thr t).isLast = true := by simp [Thread.isLast, hpc]
    have hk := hb.kinds t
    have hl := hb.left t
    simp only [Thread.KindOk, hpc] at hk
    simp only [Thread.left, hpc] at hl
    obtain ⟨b,hw⟩ := hb.others_wait hlast hu
    have hku := hb.kinds u
    have hlu := hb.left u
    simp only [Thread.KindOk, hw] at hku
    simp only [Thread.left, hw, if_true] at hlu
    have hsame : (s.thr u).count = (s.thr t).count :=
      same_construct hku.1 hk.1 hku.2 (by simp [hk.2]) (hlu.trans hl.symm)
    simp [Thread.passed, hw, hsame, hk.2]
  · have hlevel := hc.freeing t hpc u
    cases hpcu : (s.thr u).pc with
    | freeLast => exact absurd (hc.freeingUnique u t hpcu hpc) hu
    | lastFree first =>
      obtain ⟨b,hw⟩ := hb.others_wait (t := u) (by simp [Thread.isLast, hpcu]) hu.symm
      simp [hpc] at hw
    | outside | get | alloc | initDone | inside | stored | waiting | release | reading | copied | ending =>
      simpa [Thread.level, hpcu] using hlevel

theorem live_lastFree (h : Live kind data s) {first : Bool} (hpc : (s.thr t).pc = .lastFree first) :
    Live kind data ((freeWorkShare s t).put t { s.thr t with pc := .release first }) := by
  have hk := h.barrier.kinds t
  simp only [Thread.KindOk, hpc] at hk
  have hsame : (freeWorkShare s t).thr = s.thr ∧ (freeWorkShare s t).generation = s.generation ∧
      (freeWorkShare s t).awaited = s.awaited ∧ (freeWorkShare s t).firstOf = s.firstOf ∧
      (freeWorkShare s t).top = s.top ∧ (freeWorkShare s t).made = s.made ∧
      (freeWorkShare s t).copyprivate = s.copyprivate := by
    unfold freeWorkShare
    split <;> simp
  obtain ⟨hthr,hgen,haw,hfirst,htop,hmade,hcopy⟩ := hsame
  refine ⟨h.barrier.move hthr hgen haw ?_ ?_ ?_ ?_,h.chain.free hk.1 rfl ?_ ?_ ?_
    (fun u => others_passed h.barrier h.chain (Or.inl ⟨first,hpc⟩)) rfl ?_ rfl rfl ?_ (by simp),
    h.roles.move hthr hfirst htop hmade hcopy hgen (by exact le_rfl) (fun b hb => ?_) (fun f hs => ?_)
      (fun ret f hx => by cases hx)⟩
  · simp [Thread.KindOk, hk.1, hk.2]
  · simp [Thread.left, hpc]
  · simp [Thread.arrived, hpc]
  · simp [Thread.isLast, hpc]
  · simp [Thread.creating, hpc]
  · simp [Thread.level, hpc]
  · simp [Thread.lastIndex, hpc]
  · simp [Thread.passed, hk.2]
  · simp [Thread.lastIndex, hk.2]
  · obtain rfl : first = b := by simpa [Thread.role] using hb
    exact h.roles.role t first (by simp [Thread.role, hpc])
  · simp [Thread.shown, hk.2] at hs

theorem live_freeLast (h : Live kind data s) (hpc : (s.thr t).pc = .freeLast) :
    Live kind data ((freeWorkShare s t).put t { s.thr t with lastWorkShare := none, pc := .outside }) := by
  have hk := h.barrier.kinds t
  simp only [Thread.KindOk, hpc] at hk
  have hsame : (freeWorkShare s t).thr = s.thr ∧ (freeWorkShare s t).generation = s.generation ∧
      (freeWorkShare s t).awaited = s.awaited ∧ (freeWorkShare s t).firstOf = s.firstOf ∧
      (freeWorkShare s t).top = s.top ∧ (freeWorkShare s t).made = s.made ∧
      (freeWorkShare s t).copyprivate = s.copyprivate := by
    unfold freeWorkShare
    split <;> simp
  obtain ⟨hthr,hgen,haw,hfirst,htop,hmade,hcopy⟩ := hsame
  refine ⟨h.barrier.move hthr hgen haw trivial ?_ ?_ (fun hx => by cases hx),h.chain.free hk.1 rfl ?_ ?_ ?_
    (fun u => others_passed h.barrier h.chain (Or.inr hpc)) rfl rfl rfl rfl rfl (by simp),
    h.roles.move hthr hfirst htop hmade hcopy hgen (by exact le_rfl) (fun b hx => by cases hx) (fun f hx => by cases hx)
      (fun ret f hx => by cases hx)⟩
  · simp [Thread.left, hpc]
  · simp [Thread.arrived, hpc]
  · simp [Thread.creating, hpc]
  · simp [Thread.level, hpc]
  · simp [Thread.lastIndex, hpc]

/-- Leaving the barrier brings a thread no further: it ended the construct when it arrived. -/
theorem chain_leave (h : Chain kind s) {first : Bool}
    (hpc : (∃ g, (s.thr t).pc = .waiting first g) ∨ (s.thr t).pc = .release first)
    (hk : kind (s.thr t).count ≠ Kind.nowait) (hsame : SameChain s s₁)
    (hcompleted : s₁.threadsCompleted = s.threadsCompleted) : Chain kind (s₁.put t (leave kind (s.thr t) first)) := by
  obtain ⟨hcount,hleave⟩ := leave_cases kind (s.thr t) first
  have hcreating : (s.thr t).creating = false := by
    rcases hpc with ⟨g,hpc⟩ | hpc <;> simp [Thread.creating, hpc]
  have hcnt : (s.thr t).count ≤ s.linked := (countOk_of_not_creating hcreating).mp (h.count t)
  have hws : (leave kind (s.thr t) first).workShare = (s.thr t).workShare := by
    unfold leave
    split <;> rfl
  have hwait : kind (s.thr t).count ≠ Kind.copy → kind (s.thr t).count = Kind.wait := by
    cases hkind : kind (s.thr t).count <;> simp_all
  have hcreating' : (leave kind (s.thr t) first).creating = false := by
    rcases hleave with ⟨-,hp⟩ | ⟨-,hp⟩
    · cases first <;> simp_all [Thread.creating]
    · simp [Thread.creating, hp]
  refine h.move hsame hcompleted (hcreating'.trans hcreating.symm) ?_ ?_ (fun i hi => ?_) ?_ ?_ ?_
  · rw [countOk_of_not_creating hcreating', hcount]
    exact hcnt
  · rw [hws, hcount]
    exact h.workShare t
  · rcases hleave with ⟨hcopy,hp⟩ | ⟨-,hout⟩
    · have hlw : (leave kind (s.thr t) first).lastWorkShare = (s.thr t).lastWorkShare := by simp [leave, hcopy]
      rw [hlw]
      refine h.lastWorkShare t i ?_
      rcases hpc with ⟨g,hpc⟩ | hpc <;> cases first <;> simp_all [Thread.lastIndex]
    · simp [Thread.lastIndex, hout] at hi
  · rcases hleave with ⟨hcopy,hp⟩ | ⟨hcopy,hp⟩
    · rcases hpc with ⟨g,hpc⟩ | hpc <;> cases first <;> simp_all [Thread.passed]
    · rcases hpc with ⟨g,hpc⟩ | hpc <;> simp [Thread.passed, hp, hpc, hcount, hwait hcopy]
  · rcases hleave with ⟨hcopy,hp⟩ | ⟨hcopy,hp⟩
    · rcases hpc with ⟨g,hpc⟩ | hpc <;> cases first <;> simp_all [Thread.level, Thread.passed]
    · rcases hpc with ⟨g,hpc⟩ | hpc <;> simp [Thread.level, Thread.passed, hp, hpc, hcount, hwait hcopy]
  · rcases hleave with ⟨-,hp⟩ | ⟨-,hp⟩
    · cases first <;> simp [hp]
    · simp [hp]

theorem live_waiting (h : Live kind data s) {first : Bool} {g : ℕ} (hpc : (s.thr t).pc = .waiting first g)
    (hg : s.generation ≠ g) : Live kind data (s.put t (leave kind (s.thr t) first)) := by
  have hk := h.barrier.kinds t
  simp only [Thread.KindOk, hpc] at hk
  obtain ⟨hcount,hleave⟩ := leave_cases kind (s.thr t) first
  have hp : (leave kind (s.thr t) first).pc = .ending ∨ (leave kind (s.thr t) first).pc = .reading ∨
      (leave kind (s.thr t) first).pc = .outside := by
    rcases hleave with ⟨-,hp⟩ | ⟨-,hp⟩
    · cases first <;> simp_all
    · simp [hp]
  refine ⟨h.barrier.move rfl rfl rfl ?_ ?_ ?_ ?_,chain_leave h.chain (Or.inl ⟨g,hpc⟩) hk.2 (SameChain.refl s) rfl,
    h.roles.move rfl rfl rfl rfl rfl rfl hcount.ge (fun b hb => ?_) (fun f hs hf => ?_) (fun ret f hx => ?_)⟩
  · rcases hleave with ⟨hcopy,hp⟩ | ⟨-,hp⟩
    · cases first <;> simp_all [Thread.KindOk]
    · simp [Thread.KindOk, hp]
  · rcases hp with hp | hp | hp <;> simp [Thread.left, hp, hpc, hcount, Ne.symm hg]
  · rcases hp with hp | hp | hp <;> simp [Thread.arrived, hp, hpc, Ne.symm hg]
  · rcases hp with hp | hp | hp <;> simp [Thread.isLast, hp]
  · obtain rfl := leave_role hb
    rw [hcount]
    exact h.roles.role t b (by simp [Thread.role, hpc])
  · rw [hcount] at hf ⊢
    rcases hleave with ⟨hcopy,-⟩ | ⟨-,hout⟩
    · exact h.roles.shown t f (by simp [Thread.shown, hpc, hcopy, Ne.symm hg]) hf
    · simp [Thread.shown, hout] at hs
  · rcases hp with hp | hp | hp <;> simp [hp] at hx

theorem live_release (h : Live kind data s) {first : Bool} (hpc : (s.thr t).pc = .release first) :
    Live kind data ({ s with awaited := n, generation := s.generation + 1 }.put t (leave kind (s.thr t) first)) := by
  have hk := h.barrier.kinds t
  simp only [Thread.KindOk, hpc] at hk
  have hsame : SameChain s { s with awaited := n, generation := s.generation + 1 } :=
    ⟨rfl,rfl,rfl,rfl,rfl,rfl,rfl,rfl⟩
  exact ⟨barrier_release h.barrier hpc,chain_leave h.chain (Or.inr hpc) hk.2 hsame rfl,
    roles_release h.roles h.barrier h.chain hpc⟩

/-- The thread finds the next work share. -/
theorem live_found (h : Live kind data s) (hpc : (s.thr t).pc = .get) {ws : ℕ}
    (hptr : s.nextWs (s.thr t).workShare = .ptr ws) :
    Live kind data (s.put t { s.thr t with workShare := ws, count := (s.thr t).count + 1, pc := .inside false }) := by
  have hc := h.chain
  have hle : (s.thr t).count ≤ s.linked := by simpa [Thread.CountOk, hpc] using hc.count t
  have hfreed : s.freed ≤ (s.thr t).count := by simpa [Thread.passed, hpc] using hc.freed_le t
  have hlw := hc.lastWorkShare t (s.thr t).count (by simp [Thread.lastIndex, hpc])
  have hlt : (s.thr t).count < s.linked := by
    refine lt_of_le_of_ne hle fun e => ?_
    rw [hc.workShare t, e] at hptr
    rcases hc.nextLinked with ⟨hnull,-⟩ | ⟨howned,-⟩
    · simp [hnull] at hptr
    · simp [howned] at hptr
  have hws : ws = s.made ((s.thr t).count + 1) := by
    have hnext := hc.next _ hfreed hlt
    rw [← hc.workShare t, hptr] at hnext
    exact Ptrlock.Cell.ptr.inj hnext
  refine ⟨h.barrier.move rfl rfl rfl (Nat.succ_pos _) ?_ ?_ (fun hx => by cases hx),
    hc.move (SameChain.refl s) rfl ?_ hlt hws (fun i hi => ?_) ?_ ?_ (by simp),
    h.roles.move rfl rfl rfl rfl rfl rfl (Nat.le_succ _) (fun b hb => ?_) (fun f hx => by cases hx)
      (fun ret f hx => by cases hx)⟩
  · simp [Thread.left, hpc]
  · simp [Thread.arrived, hpc]
  · simp [Thread.creating, hpc]
  · obtain rfl : (s.thr t).count = i := by simpa [Thread.lastIndex] using hi
    exact hlw
  · simp [Thread.passed, hpc]
  · simp [Thread.level, Thread.passed, hpc]
  · -- another thread has made it
    obtain rfl : false = b := by simpa [Thread.role] using hb
    obtain ⟨f,hf,hge⟩ := h.roles.made ((s.thr t).count + 1) (Nat.succ_pos _) (hlt.trans_le hc.linked_le_top)
    refine ⟨f,hf,?_⟩
    have hne : f ≠ t := by
      rintro rfl
      omega
    simp [hne]

theorem live_start (h : Live kind data s) (hpc : (s.thr t).pc = .outside) :
    Live kind data (s.put t { s.thr t with lastWorkShare := some (s.thr t).workShare, pc := .get }) := by
  refine ⟨h.barrier.move rfl rfl rfl trivial ?_ ?_ (fun hx => by cases hx),
    h.chain.move (SameChain.refl s) rfl ?_ ?_ (h.chain.workShare t) (fun i hi => ?_) ?_ ?_ (by simp),
    h.roles.move rfl rfl rfl rfl rfl rfl (by exact le_rfl) (fun b hb => by cases hb) (fun f hx => by cases hx)
      (fun ret f hx => by cases hx)⟩
  · simp [Thread.left, hpc]
  · simp [Thread.arrived, hpc]
  · simp [Thread.creating, hpc]
  · simpa [Thread.CountOk, hpc] using h.chain.count t
  · obtain rfl : (s.thr t).count = i := by simpa [Thread.lastIndex] using hi
    rw [h.chain.workShare t]
  · simp [Thread.passed, hpc]
  · simp [Thread.level, Thread.passed, hpc]

theorem live_own (h : Live kind data s) (hpc : (s.thr t).pc = .get) (hnull : s.nextWs (s.thr t).workShare = .null) :
    Live kind data ({ s with nextWs := Function.update s.nextWs (s.thr t).workShare .owned }.put t
      { s.thr t with pc := .alloc }) := by
  refine ⟨h.barrier.move rfl rfl rfl trivial ?_ ?_ (fun hx => by cases hx),chain_own h.chain hpc hnull,
    h.roles.move rfl rfl rfl rfl rfl rfl (by exact le_rfl) (fun b hb => by cases hb) (fun f hx => by cases hx)
      (fun ret f hx => by cases hx)⟩
  · simp [Thread.left, hpc]
  · simp [Thread.arrived, hpc]

theorem live_alloc (h : Live kind data s) (hpc : (s.thr t).pc = .alloc) {b : ℕ} (hb : b ∉ s.used) :
    Live kind data ((newWorkShare s t b).put t
      { s.thr t with workShare := b, count := (s.thr t).count + 1, pc := .initDone }) := by
  refine ⟨h.barrier.move rfl rfl rfl (Nat.succ_pos _) ?_ ?_ (fun hx => by cases hx),chain_alloc h.chain hpc hb,
    roles_alloc h.roles h.chain hpc⟩
  · simp [Thread.left, hpc]
  · simp [Thread.arrived, hpc]

theorem live_initDone (h : Live kind data s) (hpc : (s.thr t).pc = .initDone) :
    Live kind data ((initDone s t).put t { s.thr t with pc := .inside true }) := by
  have hk : 1 ≤ (s.thr t).count := by simpa [Thread.KindOk, hpc] using h.barrier.kinds t
  have hsame : (initDone s t).thr = s.thr ∧ (initDone s t).generation = s.generation ∧
      (initDone s t).awaited = s.awaited ∧ (initDone s t).firstOf = s.firstOf ∧ (initDone s t).top = s.top ∧
      (initDone s t).made = s.made ∧ (initDone s t).copyprivate = s.copyprivate := by
    unfold initDone
    split <;> simp
  obtain ⟨hthr,hgen,haw,hfirst,htop,hmade,hcopy⟩ := hsame
  refine ⟨h.barrier.move hthr hgen haw hk ?_ ?_ (fun hx => by cases hx),chain_initDone h.chain hpc,
    h.roles.move hthr hfirst htop hmade hcopy hgen (by exact le_rfl) (fun b hb => ?_) (fun f hx => by cases hx)
      (fun ret f hx => by cases hx)⟩
  · simp [Thread.left, hpc]
  · simp [Thread.arrived, hpc]
  · obtain rfl : true = b := by simpa [Thread.role] using hb
    exact h.roles.role t true (by simp [Thread.role, hpc])

theorem live_store (h : Live kind data s) (hpc : (s.thr t).pc = .inside true) (hkind : kind (s.thr t).count = Kind.copy) :
    Live kind data ({ s with
      copyprivate := Function.update s.copyprivate (s.thr t).workShare (data t (s.thr t).count) }.put t
        { s.thr t with pc := .stored }) := by
  have hk : 1 ≤ (s.thr t).count := by simpa [Thread.KindOk, hpc] using h.barrier.kinds t
  have hsame : SameChain s { s with
      copyprivate := Function.update s.copyprivate (s.thr t).workShare (data t (s.thr t).count) } :=
    ⟨rfl,rfl,rfl,rfl,rfl,rfl,rfl,rfl⟩
  refine ⟨h.barrier.move rfl rfl rfl ⟨hk,hkind⟩ ?_ ?_ (fun hx => by cases hx),
    h.chain.move hsame rfl ?_ ?_ (h.chain.workShare t) (fun i hi => ?_) ?_ ?_ (by simp),
    roles_store h.roles h.barrier h.chain hpc hkind⟩
  · simp [Thread.left, hpc]
  · simp [Thread.arrived, hpc]
  · simp [Thread.creating, hpc]
  · simpa [Thread.CountOk, hpc] using h.chain.count t
  · exact h.chain.lastWorkShare t i (by simpa [Thread.lastIndex, hpc] using hi)
  · simp [Thread.passed, hpc]
  · simp [Thread.level, Thread.passed, hpc]

theorem live_reading (h : Live kind data s) (hpc : (s.thr t).pc = .reading) :
    Live kind data (s.put t { s.thr t with pc := .copied (s.copyprivate (s.thr t).workShare) }) := by
  have hk := h.barrier.kinds t
  simp only [Thread.KindOk, hpc] at hk
  refine ⟨h.barrier.move rfl rfl rfl hk ?_ ?_ (fun hx => by cases hx),
    h.chain.move (SameChain.refl s) rfl ?_ ?_ (h.chain.workShare t) (fun i hi => ?_) ?_ ?_ (by simp),
    h.roles.move rfl rfl rfl rfl rfl rfl (by exact le_rfl) (fun b hb => ?_) (fun f hx => by cases hx)
      (fun ret f hx hf => ?_)⟩
  · simp [Thread.left, hpc]
  · simp [Thread.arrived, hpc]
  · simp [Thread.creating, hpc]
  · simpa [Thread.CountOk, hpc] using h.chain.count t
  · exact h.chain.lastWorkShare t i (by simpa [Thread.lastIndex, hpc] using hi)
  · simp [Thread.passed, hpc]
  · simp [Thread.level, Thread.passed, hpc]
  · exact h.roles.role t b (by simpa [Thread.role, hpc] using hb)
  · obtain rfl := Pc.copied.inj hx
    rw [h.chain.workShare t]
    exact h.roles.shown t f (by simp [Thread.shown, hpc]) hf

/-- Every step of every thread keeps the invariant. -/
theorem live_step {e : Fin n × ℕ} {s' : State n} (h : Live kind data s) (hs : step kind data s e = some s') :
    Live kind data s' := by
  obtain ⟨t,b⟩ := e
  have hk := h.barrier.kinds t
  cases hpc : (s.thr t).pc with
  | outside =>
    simp only [step, hpc, Option.some.injEq] at hs
    exact hs ▸ live_start h hpc
  | get =>
    cases hnext : s.nextWs (s.thr t).workShare with
    | null =>
      simp only [step, hpc, hnext, Option.some.injEq] at hs
      exact hs ▸ live_own h hpc hnext
    | owned => simp [step, hpc, hnext] at hs
    | ptr ws =>
      simp only [step, hpc, hnext, Option.some.injEq] at hs
      exact hs ▸ live_found h hpc hnext
  | alloc =>
    simp only [step, hpc] at hs
    split_ifs at hs with hb
    exact Option.some.inj hs ▸ live_alloc h hpc hb
  | initDone =>
    simp only [step, hpc, Option.some.injEq] at hs
    exact hs ▸ live_initDone h hpc
  | inside first =>
    simp only [Thread.KindOk, hpc] at hk
    cases hkind : kind (s.thr t).count with
    | nowait =>
      simp only [step, hpc, hkind, Option.some.injEq] at hs
      refine hs ▸ live_endNowait h ?_ ?_ hk (by simp [hkind]) ?_ ?_ ?_
      · simp [Thread.arrived, hpc]
      · simp [Thread.left, hpc, barriers_eq kind hk, hkind]
      · simp [Thread.level, Thread.passed, hpc]
      · simp [Thread.creating, hpc]
      · simp [Thread.lastIndex, hpc]
    | wait =>
      simp only [step, hpc, hkind, Option.some.injEq] at hs
      refine hs ▸ live_arrive h ?_ ?_ hk (by simp [hkind]) ?_ ?_ ?_ ?_ (by simp [hkind])
      · simp [Thread.arrived, hpc]
      · simp [Thread.left, hpc]
      · simp [Thread.level, Thread.passed, hpc]
      · simp [Thread.creating, hpc]
      · simp [Thread.lastIndex, hpc]
      · simp [Thread.role, hpc]
    | copy =>
      cases first with
      | true =>
        simp only [step, hpc, hkind, Option.some.injEq] at hs
        exact hs ▸ live_store h hpc hkind
      | false =>
        simp only [step, hpc, hkind, Option.some.injEq] at hs
        refine hs ▸ live_arrive h ?_ ?_ hk (by simp [hkind]) ?_ ?_ ?_ ?_ (by simp)
        · simp [Thread.arrived, hpc]
        · simp [Thread.left, hpc]
        · simp [Thread.level, Thread.passed, hpc]
        · simp [Thread.creating, hpc]
        · simp [Thread.lastIndex, hpc]
        · simp [Thread.role, hpc]
  | stored =>
    simp only [Thread.KindOk, hpc] at hk
    simp only [step, hpc, Option.some.injEq] at hs
    refine hs ▸ live_arrive h ?_ ?_ hk.1 (by simp [hk.2]) ?_ ?_ ?_ ?_ (fun _ _ => hpc)
    · simp [Thread.arrived, hpc]
    · simp [Thread.left, hpc]
    · simp [Thread.level, Thread.passed, hpc]
    · simp [Thread.creating, hpc]
    · simp [Thread.lastIndex, hpc]
    · simp [Thread.role, hpc]
  | waiting first g =>
    simp only [step, hpc] at hs
    split_ifs at hs with hg
    exact Option.some.inj hs ▸ live_waiting h hpc hg
  | lastFree first =>
    simp only [step, hpc, Option.some.injEq] at hs
    exact hs ▸ live_lastFree h hpc
  | release first =>
    simp only [step, hpc, Option.some.injEq] at hs
    exact hs ▸ live_release h hpc
  | reading =>
    simp only [step, hpc, Option.some.injEq] at hs
    exact hs ▸ live_reading h hpc
  | copied ret =>
    simp only [Thread.KindOk, hpc] at hk
    simp only [step, hpc, Option.some.injEq] at hs
    refine hs ▸ live_endNowait h ?_ ?_ hk.1 (by simp [hk.2]) ?_ ?_ ?_
    · simp [Thread.arrived, hpc]
    · simp [Thread.left, hpc]
    · simp [Thread.level, Thread.passed, hpc]
    · simp [Thread.creating, hpc]
    · simp [Thread.lastIndex, hpc]
  | ending =>
    simp only [Thread.KindOk, hpc] at hk
    simp only [step, hpc, Option.some.injEq] at hs
    refine hs ▸ live_endNowait h ?_ ?_ hk.1 (by simp [hk.2]) ?_ ?_ ?_
    · simp [Thread.arrived, hpc]
    · simp [Thread.left, hpc]
    · simp [Thread.level, Thread.passed, hpc]
    · simp [Thread.creating, hpc]
    · simp [Thread.lastIndex, hpc]
  | freeLast =>
    simp only [step, hpc, Option.some.injEq] at hs
    exact hs ▸ live_freeLast h hpc

/-! ## Whole runs -/

/-- A `single` without a barrier, and one with a copyprivate clause. -/
def twoSingles : ℕ → Kind
  | 2 => .copy
  | _ => .nowait

def twoData (t : Fin 2) (k : ℕ) : ℕ := 10 * (t.val + 1) + k

def t0 : Fin 2 := ⟨0,Nat.zero_lt_two⟩

def t1 : Fin 2 := ⟨1,Nat.one_lt_two⟩

/-- Thread 0 makes the work share of the first construct, and thread 1 ends it last. -/
def firstSingle : List (Fin 2 × ℕ) :=
  [(t0,0),(t0,0),(t0,1),(t0,0),(t0,0),(t1,0),(t1,0),(t1,0)]

/-- Thread 1 frees block 0, gets it back for the second construct and passes its pointer on. -/
def bothSingles : List (Fin 2 × ℕ) :=
  firstSingle ++ [(t1,0),(t1,0),(t1,0),(t1,0),(t1,0),(t1,0),(t1,0),(t0,0),(t0,0),(t0,0),(t0,0),(t0,0)]

theorem Chain.live_count (h : Chain kind s) (t : Fin n) : s.freed ≤ (s.thr t).count ∧ (s.thr t).count ≤ s.top :=
  ⟨(h.freed_le t).trans ((passed_le_level kind _).trans (level_le_count kind _)),
    countOk_le (h.count t) h.linked_le_top⟩

section Runs
variable [NeZero n] {es : List (Fin n × ℕ)}

theorem live_run (h : run (step kind data) (init n) es = some s) : Live kind data s :=
  run_invariant (fun _ _ _ hi _ hs => live_step hi hs) live_init (along_true _ es) h

/-- Whatever the order of the steps, two threads stand at the same work share exactly when they are in the
same construct, nobody's work share has been freed, and of the threads in one construct one alone is
told to be the first. -/
theorem threads_agree (h : run (step kind data) (init n) es = some s) :
    (∀ t u, (s.thr t).workShare = (s.thr u).workShare ↔ (s.thr t).count = (s.thr u).count) ∧
      (∀ t, (s.thr t).workShare ∈ s.used) ∧
      (∀ t u, (s.thr t).count = (s.thr u).count → (s.thr t).role = some true → (s.thr u).role = some true → t = u) ∧
      ∀ t, (s.thr t).role = some false → ∃ f, f ≠ t ∧ s.firstOf (s.thr t).count = some f := by
  obtain ⟨-,hc,hr⟩ := live_run h
  refine ⟨fun t u => ?_,fun t => ?_,fun t u hcount ht hu => ?_,fun t ht => ?_⟩
  · rw [hc.workShare t, hc.workShare u]
    exact ⟨hc.inj _ _ (hc.live_count t).1 (hc.live_count t).2 (hc.live_count u).1 (hc.live_count u).2,fun e => by rw [e]⟩
  · rw [hc.workShare t, hc.used]
    exact ⟨_,(hc.live_count t).1,(hc.live_count t).2,rfl⟩
  · obtain ⟨f,hf,hft⟩ := hr.role t true ht
    obtain ⟨g,hg,hgu⟩ := hr.role u true hu
    rw [hcount, hg] at hf
    exact (hft.mpr rfl).symm.trans ((Option.some.inj hf).symm.trans (hgu.mpr rfl))
  · obtain ⟨f,hf,hft⟩ := hr.role t false ht
    exact ⟨f,fun e => by simpa using hft.mp e,hf⟩

theorem threads_agree_bothSingles : ∃ s, run (step twoSingles twoData) (init 2) bothSingles = some s ∧
    (s.thr 1).workShare = 0 ∧
    (∀ t u, (s.thr t).workShare = (s.thr u).workShare ↔ (s.thr t).count = (s.thr u).count) ∧
    (∀ t, (s.thr t).workShare ∈ s.used) ∧
    (∀ t u, (s.thr t).count = (s.thr u).count → (s.thr t).role = some true → (s.thr u).role = some true → t = u) ∧
    ∀ t, (s.thr t).role = some false → ∃ f, f ≠ t ∧ s.firstOf (s.thr t).count = some f :=
  ⟨_,rfl,rfl,threads_agree (show run (step twoSingles twoData) (init 2) bothSingles = some _ from rfl)⟩

/-- The thread is about to free its `last_work_share`. -/
def Thread.frees (th : Thread) : Prop := (∃ first, th.pc = .lastFree first) ∨ th.pc = .freeLast

/-- What `alloc_work_share` and `free_work_share` rely on: no two threads make a work share at a time, and
a work share is freed by one thread, while it is in use and when no thread stands at it any more; and
nothing is leaked: when all threads stand after the same construct, its work share alone is in use. -/
theorem freed_once (h : run (step kind data) (init n) es = some s) :
    (∀ t u, (s.thr t).creating = true → (s.thr u).creating = true → t = u) ∧
      (∀ t, (s.thr t).frees → ∃ last, (s.thr t).lastWorkShare = some last ∧ last ∈ s.used ∧
        (∀ u, (s.thr u).workShare ≠ last) ∧ ∀ u, (s.thr u).frees → u = t) ∧
      ∀ k, (∀ t, (s.thr t).pc = .outside ∧ (s.thr t).count = k) → s.used = {s.made k} := by
  obtain ⟨hb,hc,hr⟩ := live_run h
  refine ⟨hc.creators,fun t ht => ?_,fun k hall => ?_⟩
  · have hk : 1 ≤ (s.thr t).count := by
      have hok := hb.kinds t
      rcases ht with ⟨first,hpc⟩ | hpc <;> exact (by simpa [Thread.KindOk, hpc] using hok : _ ∧ _).1
    have hlast : (s.thr t).lastIndex kind = some ((s.thr t).count - 1) := by
      rcases ht with ⟨first,hpc⟩ | hpc <;> simp [Thread.lastIndex, hpc]
    have hothers : ∀ u, u ≠ t → (s.thr t).count ≤ (s.thr u).passed kind := fun u => others_passed hb hc ht
    have hpassed := lastIndex_passed hlast
    have hfreed := hc.freed_eq hk hlast hothers
    have hlive := hc.live_count t
    refine ⟨_,hc.lastWorkShare t _ hlast,?_,fun u hu => ?_,fun u hu => ?_⟩
    · rw [hc.used]
      exact ⟨_,hfreed.le,by omega,rfl⟩
    · rw [hc.workShare u] at hu
      have heq := hc.inj _ _ (hc.live_count u).1 (hc.live_count u).2 hfreed.le (by omega) hu
      by_cases hut : u = t
      · subst hut
        omega
      · have hge := hothers u hut
        have hle := (passed_le_level kind (s.thr u)).trans (level_le_count kind (s.thr u))
        omega
    · -- the other one would have to have passed the construct of this one, and this one that of the other
      by_contra hut
      have h1 := hothers u hut
      have h2 := others_passed hb hc hu (Ne.symm hut)
      have hlastu : (s.thr u).lastIndex kind = some ((s.thr u).count - 1) := by
        rcases hu with ⟨first,hpc⟩ | hpc <;> simp [Thread.lastIndex, hpc]
      have hpu := lastIndex_passed hlastu
      omega
  · have hpass : ∀ t, (s.thr t).passed kind = k := fun t => by simp [Thread.passed, (hall t).1, (hall t).2]
    obtain ⟨t,ht⟩ := hc.freed_attained
    have hfreed : s.freed = k := ht.symm.trans (hpass t)
    have htop : s.top = k := by
      have hle := (hc.live_count t).2
      rw [(hall t).2] at hle
      by_contra hne
      obtain ⟨f,-,hf⟩ := hr.made s.top (by omega) le_rfl
      rw [(hall f).2] at hf
      omega
    ext b
    rw [hc.used, hfreed, htop, Finset.mem_singleton]
    constructor
    · rintro ⟨j,hj,hj',rfl⟩
      rw [Nat.le_antisymm hj' hj]
    · rintro rfl
      exact ⟨k,le_rfl,le_rfl,rfl⟩

theorem freed_once_firstSingle : ∃ s, run (step twoSingles twoData) (init 2) firstSingle = some s ∧
    (s.thr 1).pc = .freeLast ∧ (∀ t u, (s.thr t).creating = true → (s.thr u).creating = true → t = u) ∧
    (∀ t, (s.thr t).frees → ∃ last, (s.thr t).lastWorkShare = some last ∧ last ∈ s.used ∧
      (∀ u, (s.thr u).workShare ≠ last) ∧ ∀ u, (s.thr u).frees → u = t) ∧
    ∀ k, (∀ t, (s.thr t).pc = .outside ∧ (s.thr t).count = k) → s.used = {s.made k} :=
  ⟨_,rfl,rfl,freed_once (show run (step twoSingles twoData) (init 2) firstSingle = some _ from rfl)⟩

/-- Every thread that did not execute a `single` with a copyprivate clause gets the pointer that the
one that did passed to `GOMP_single_copy_end`. -/
theorem copyprivate_broadcast (h : run (step kind data) (init n) es = some s) {t : Fin n} {ret : ℕ}
    (ht : (s.thr t).pc = .copied ret) :
    ∃ f, f ≠ t ∧ s.firstOf (s.thr t).count = some f ∧ ret = data f (s.thr t).count := by
  obtain ⟨-,-,hr⟩ := live_run h
  obtain ⟨f,hf,hft⟩ := hr.role t false (by simp [Thread.role, ht])
  exact ⟨f,fun e => by simpa using hft.mp e,hf,hr.copied t ret f ht hf⟩

theorem copyprivate_broadcast_bothSingles : ∃ s, run (step twoSingles twoData) (init 2) bothSingles = some s ∧
    (s.thr 0).pc = .copied 22 ∧ ∃ f, f ≠ 0 ∧ s.firstOf (s.thr 0).count = some f ∧ 22 = twoData f (s.thr 0).count :=
  ⟨_,rfl,rfl,copyprivate_broadcast (show run (step twoSingles twoData) (init 2) bothSingles = some _ from rfl) rfl⟩

end Runs

end GompUlt.WorkShareChain
