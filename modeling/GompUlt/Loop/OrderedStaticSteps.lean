import GompUlt.Loop.OrderedStatic

/-! # The steps of an ordered static loop

A step either leaves the right to the ordered region where it is or moves it on: to the semaphore of a thread, from
there to the owner, and at the owner's request for its next chunk to the thread after it.
-/
namespace GompUlt.OrderedStatic
open Run Iter
open Static (staticNext)

variable {A : Static.Args} {C : ℕ} {cut trip bound : ℕ → ℤ}
variable {s s' : State} {turn turn' t c : ℕ} {stage stage' : Stage} {v : Thread} {p : Pc}

/-! ## The steps that leave the right where it is -/

theorem Inv.setPc (h : Inv A C cut trip bound s turn stage)
    (hinit : (s.thr t).pc ≠ .outside ∧ (s.thr t).pc ≠ .initPost ∧ (s.thr t).pc ≠ .initDone)
    (he : p.early = true → (s.thr t).pc.early = true) (hw : p.within = (s.thr t).pc.within)
    (hl : p.late = true → (s.thr t).pc.late = true) (hr : ∀ x, p.region = some x → (s.thr t).pc.region = some x)
    (hclaim : p.claim = (s.thr t).pc.claim ∨ p.claim = none ∧ stage = .owned)
    (hwait : ∀ region, p = .syncWait region → A.nthreads ≠ 1 ∧ s.orderedOwner ≠ some t)
    (hlocked : p.locked = (s.thr t).pc.locked) (hp : p ≠ .initPost) (hst : stage ≠ .unposted) :
    Inv A C cut trip bound (s.setPc t p) turn stage := by
  have hth := h.threads t
  refine h.move (v := { s.thr t with pc := p }) rfl rfl rfl rfl (fun _ _ => Iff.rfl) ?_ ?_ ?_ ?_
  · refine ⟨fun _ => hth.lt hinit.1,fun ht => ?_,fun st hc => ?_,hwait,?_,fun _ => hst,fun hpi => absurd hpi hp⟩
    · obtain ⟨c,hc⟩ := hth.seat ht
      exact ⟨c,hc.setPc (fun hpe => ⟨he hpe,hinit.1⟩) (fun hpw => hw ▸ hpw) hl hr⟩
    · obtain hsame | ⟨hnone,-⟩ := hclaim
      · exact hth.claim st (hsame.symm.trans hc)
      · rw [hnone] at hc
        cases hc
    · exact (iff_of_eq (congrArg (· = true) hlocked)).trans hth.locked
  · exact h.start.keep rfl rfl rfl id hinit.1 hinit.2 hp
  · exact hclaim.imp_right fun hn => Or.inl hn.2
  · exact fun hpw => ⟨rfl,hw.trans hpw⟩

theorem Inv.orderedStart (h : Inv A C cut trip bound s turn stage) (hd : Dealt A C cut trip bound)
    (hpc : (s.thr t).pc = .body) {skip : ℕ}
    (hx : before A.incr ((s.thr t).pos + skip * A.incr) (s.thr t).stop) :
    Inv A C cut trip bound (s.setPc t (.sync (some ((s.thr t).pos + skip * A.incr)))) turn stage := by
  have hth := h.threads t
  have hst := hth.started (by simp [hpc])
  refine h.move (v := { s.thr t with pc := .sync _ }) rfl rfl rfl rfl (fun _ _ => Iff.rfl) ?_ ?_ ?_ ?_
  · refine ⟨fun _ => hth.lt (by simp [hpc]),fun ht => ?_,by simp [Pc.claim],by simp,?_,fun _ => hst,by simp⟩
    · obtain ⟨c,hc⟩ := hth.seat ht
      have hwithin := hc.within (by rw [hpc]; rfl)
      obtain ⟨hcC,-,hstop,z,hpos,hz,-⟩ := hwithin
      have h0 : 0 ≤ cut c := hd.zero ▸ hd.mono (Nat.zero_le c)
      rw [hstop, hpos, Bounds.value_add, hd.bound_iff c hcC _ (by omega)] at hx
      refine ⟨c,hc.mod,hc.low,hc.high,by simp [Pc.early],fun _ => hc.within (by rw [hpc]; rfl),by simp [Pc.late],
        fun x hxe => ?_⟩
      obtain rfl := Option.some.inj hxe
      exact ⟨z + skip,z,by rw [hpos, Bounds.value_add],hpos,by omega,hx⟩
    · have hl := hth.locked
      rw [hpc] at hl
      exact hl
  · exact h.start.keep rfl rfl rfl id (by simp [hpc]) (by simp [hpc]) (by simp)
  · exact Or.inr (Or.inr (by rw [hpc]; rfl))
  · exact fun _ => ⟨rfl,rfl⟩

theorem Inv.arrive (h : Inv A C cut trip bound s turn stage) (ht : t < A.nthreads) (hpc : (s.thr t).pc = .outside) :
    Inv A C cut trip bound ({ s with created := true }.set t
      { s.thr t with pc := if s.created then .waitInit else .initPost, trip := 0 }) turn stage := by
  have hth := h.threads t
  have hp : ∀ b : Bool, (if b then Pc.waitInit else Pc.initPost) ∈ [Pc.initPost,Pc.waitInit] := by decide
  have hclasses : ∀ p ∈ [Pc.initPost,Pc.waitInit], p.early = true ∧ p.within = false ∧ p.late = false ∧
      p.region = none ∧ p.claim = none ∧ p.locked = false ∧ p ≠ .outside ∧ p ∈ [Pc.outside,Pc.initPost,Pc.waitInit] := by
    decide
  obtain ⟨hearly,hwithin,hlate,hregion,hnone,hlocked,hout,hmem⟩ := hclasses _ (hp s.created)
  have hposter : (if s.created then Pc.waitInit else Pc.initPost) = .initPost → s.created = false := by
    cases s.created <;> simp
  refine h.move (v := { s.thr t with pc := if s.created then .waitInit else .initPost, trip := 0 }) rfl rfl rfl rfl
    (fun _ _ => Iff.rfl) ?_ ?_ ?_ ?_
  · refine ⟨fun _ => ht,fun _ => ?_,fun st hc => ?_,fun region hw => ?_,?_,fun hn => absurd hmem hn,fun hi => ?_⟩
    · obtain ⟨c,hc⟩ := hth.seat ht
      refine ⟨c,hc.mod,hc.low,hc.high,fun _ => ⟨(hc.early (by rw [hpc]; rfl)).1,fun _ => rfl⟩,?_,?_,?_⟩
      · simp [hwithin]
      · simp [hlate]
      · simp [hregion]
    · rw [hnone] at hc
      cases hc
    · cases hcr : s.created <;> simp [hcr] at hw
    · have hl := hth.locked
      rw [hpc] at hl
      exact (iff_of_eq (congrArg (· = true) hlocked)).trans hl
    · exact (h.start.fresh (hposter hi)).1
  · constructor
    case fresh =>
      intro hf
      cases hf
    case creator =>
      intro _
      cases hcr : s.created with
      | false =>
        refine Or.inr ⟨t,Or.inl ?_⟩
        simp [State.set]
      | true =>
        refine (h.start.creator hcr).imp_right fun ⟨u,hu⟩ => ⟨u,?_⟩
        have hne : u ≠ t := by
          rintro rfl
          simp [hpc] at hu
        simpa [State.set, hne] using hu
    case ready => exact h.start.ready
    case poster =>
      have hself : ∀ u, u ≠ t → (Function.update s.thr t
          { s.thr t with pc := if s.created then .waitInit else .initPost, trip := 0 } u).pc = .initPost →
          s.created = true := by
        intro u hu hpu
        rw [Function.update_of_ne hu] at hpu
        cases hcr : s.created with
        | true => rfl
        | false =>
          rw [(h.start.fresh hcr).2 u] at hpu
          cases hpu
      intro x y hx hy
      by_cases hxt : x = t <;> by_cases hyt : y = t
      · rw [hxt, hyt]
      · have hcr := hself y hyt hy
        simp [State.set, hxt, hcr] at hx
      · have hcr := hself x hxt hx
        simp [State.set, hyt, hcr] at hy
      · simp only [State.set, Function.update_of_ne hxt] at hx
        simp only [State.set, Function.update_of_ne hyt] at hy
        exact h.start.poster x y hx hy
  · exact Or.inr (Or.inr (by rw [hpc]; rfl))
  · rw [hpc]
    simp [Pc.within]

/-- The chunk of a thread that goes on within the first calls. -/
theorem Inv.seat_early (h : Inv A C cut trip bound s turn stage) (ht : t < A.nthreads) (he : (s.thr t).pc.early = true)
    (hout : (s.thr t).pc ≠ .outside) (hp : p ∈ [Pc.initDone,Pc.first]) :
    ∃ c, Seat A C cut trip bound turn t { s.thr t with pc := p } c := by
  have hclasses : ∀ p ∈ [Pc.initDone,Pc.first], p.within = false ∧ p.late = false ∧ p.region = none := by decide
  obtain ⟨hw,hl,hr⟩ := hclasses p hp
  obtain ⟨c,hc⟩ := (h.threads t).seat ht
  exact ⟨c,hc.setPc (fun _ => ⟨he,hout⟩) (by simp [hw]) (by simp [hl]) (by simp [hr])⟩

theorem Inv.post_first (h : Inv A C cut trip bound s turn stage) (hpc : (s.thr t).pc = .initPost) :
    Inv A C cut trip bound ({ s with
      release := if A.nthreads = 1 then s.release else Function.update s.release 0 (s.release 0 + 1) }.setPc t .initDone)
      turn (if A.nthreads = 1 then .owned else .posted) := by
  have hth := h.threads t
  have hst := hth.poster hpc
  subst hst
  obtain rfl := h.right.unposted rfl
  have hzero : ∀ u, s.release u = 0 := fun u => by simp [h.right.release u]
  have hcount := h.right.count
  rw [if_neg (by decide)] at hcount
  have hnew : (if A.nthreads = 1 then Stage.owned else .posted) ≠ .unposted := by split <;> decide
  refine h.step (v := { s.thr t with pc := .initDone }) rfl (Or.inl rfl) (Or.inr (h.no_claim (by simp [Stage.holder])))
    (fun _ _ hu => hu) (fun _ _ => Iff.rfl) (Or.inr ⟨hnew,fun u hu hpu => hu (h.start.poster u t hpu hpc)⟩) ?_ ?_ ?_ ?_
    (h.log_low (by decide) _ _)
  · refine ⟨fun _ => hth.lt (by simp [hpc]),fun ht => h.seat_early ht (by rw [hpc]; rfl) (by simp [hpc]) (by simp),
      by simp [Pc.claim],by simp,?_,fun _ => hnew,by simp⟩
    have hl := hth.locked
    rw [hpc] at hl
    exact hl
  · refine ⟨?_,fun hu => absurd hu hnew,?_,?_,fun u => ?_,?_⟩
    · rw [if_neg (by split <;> decide)]
      exact hcount
    · split <;> simp
    · intro h1
      rw [if_pos h1]
      exact Or.inr (Or.inl rfl)
    · by_cases h1 : A.nthreads = 1
      · simp [State.setPc, State.set, h1, hzero]
      · by_cases hu : u = 0 <;> simp [State.setPc, State.set, h1, hzero, hu]
    · intro h1
      simp only [if_neg h1]
      exact h.right.owner h1
  · intro u hu hne
    split at hu
    case isTrue h1 => exact absurd (if_pos h1) hne
    case isFalse => cases hu
  · constructor
    case fresh => exact fun hf => absurd ((h.start.fresh hf).2 t) (by simp [hpc])
    case creator => exact fun _ => Or.inr ⟨t,Or.inr (by simp [State.setPc, State.set])⟩
    case ready => exact fun _ => hnew
    case poster =>
      have hnone : ∀ u, ((({ s with
          release := if A.nthreads = 1 then s.release else Function.update s.release 0 (s.release 0 + 1) } : State).setPc t
          .initDone).thr u).pc ≠ .initPost := by
        intro u hu
        by_cases hut : u = t
        · simp [State.setPc, State.set, hut] at hu
        · simp only [State.setPc, State.set, Function.update_of_ne hut] at hu
          exact hut (h.start.poster u t hu hpc)
      exact fun x _ hx => absurd hx (hnone x)

theorem Inv.init_done (h : Inv A C cut trip bound s turn stage) (hpc : (s.thr t).pc = .initDone) :
    Inv A C cut trip bound ({ s with ready := true }.setPc t .first) turn stage := by
  have hth := h.threads t
  have hst := hth.started (by simp [hpc])
  refine h.move (v := { s.thr t with pc := .first }) rfl rfl rfl rfl (fun _ _ => Iff.rfl) ?_ ?_ ?_ ?_
  · refine ⟨fun _ => hth.lt (by simp [hpc]),fun ht => h.seat_early ht (by rw [hpc]; rfl) (by simp [hpc]) (by simp),
      by simp [Pc.claim],by simp,?_,fun _ => hst,by simp⟩
    have hl := hth.locked
    rw [hpc] at hl
    exact hl
  · constructor
    case fresh => exact fun hf => absurd ((h.start.fresh hf).2 t) (by simp [hpc])
    case creator => exact fun _ => Or.inl rfl
    case ready => exact fun _ => hst
    case poster =>
      intro x y hx hy
      have hne : ∀ u, ((({ s with ready := true } : State).setPc t .first).thr u).pc = .initPost →
          (s.thr u).pc = .initPost := by
        intro u hu
        by_cases hut : u = t
        · simp [State.setPc, State.set, hut] at hu
        · simpa only [State.setPc, State.set, Function.update_of_ne hut] using hu
      exact h.start.poster x y (hne x hx) (hne y hy)
  · exact Or.inr (Or.inr (by rw [hpc]; rfl))
  · rw [hpc]
    simp [Pc.within]

theorem Inv.first (h : Inv A C cut trip bound s turn stage) (hd : Dealt A C cut trip bound)
    (hpc : (s.thr t).pc = .first) {r : Static.Reply} (hr : A.next t (s.thr t).trip = some r) :
    Inv A C cut trip bound (s.set t { (s.thr t).receive r with pc := if r.ret = 0 then .body else .finished })
      turn stage := by
  have hth := h.threads t
  have hst := hth.started (by simp [hpc])
  have ht := hth.lt (by simp [hpc])
  obtain ⟨c,hc⟩ := hth.seat ht
  obtain ⟨rfl,htrip⟩ := hc.early (by rw [hpc]; rfl)
  rw [htrip (by simp [hpc])] at hr
  have hl := hth.locked
  rw [hpc] at hl
  have hclass : (if r.ret = 0 then Pc.body else .finished) ∈ [Pc.body,Pc.finished] := by split <;> simp
  have hclasses : ∀ p ∈ [Pc.body,Pc.finished], p.early = false ∧ p.region = none ∧ p.claim = none ∧
      p.locked = false ∧ p ≠ .initPost ∧ ∀ b, p ≠ .syncWait b := by simp [Pc.early, Pc.region, Pc.claim, Pc.locked]
  obtain ⟨hearly,hregion,hnone,hlocked,hni,hnw⟩ := hclasses _ hclass
  refine h.move (v := { (s.thr c).receive r with pc := if r.ret = 0 then .body else .finished }) rfl rfl rfl rfl
    (fun _ _ => Iff.rfl) ?_ ?_ ?_ ?_
  · refine ⟨fun _ => ht,fun _ => ⟨c,hc.mod,hc.low,hc.high,by simp [hearly],?_,?_,by simp [hregion]⟩,by simp [hnone],
      fun b hb => absurd hb (hnw b),?_,fun _ => hst,fun hi => absurd hi hni⟩
    · intro hw
      obtain hlt | hge := lt_or_ge c C
      · obtain rfl := Option.some.inj ((hd.first c ht hlt).symm.trans hr)
        exact ⟨hlt,rfl,rfl,cut c,rfl,le_rfl,hd.mono (Nat.le_succ c)⟩
      · obtain ⟨r',hr',hret⟩ := hd.none c ht hge
        obtain rfl := Option.some.inj (hr'.symm.trans hr)
        simp [hret, Pc.within] at hw
    · intro hlate
      obtain hlt | hge := lt_or_ge c C
      · obtain rfl := Option.some.inj ((hd.first c ht hlt).symm.trans hr)
        simp [Pc.late] at hlate
      · exact hge
    · exact (iff_of_eq (congrArg (· = true) hlocked)).trans hl
  · exact h.start.keep rfl rfl rfl id (by simp [hpc]) (by simp [hpc]) hni
  · exact Or.inr (Or.inr (by rw [hpc]; rfl))
  · rw [hpc]
    simp [Pc.within]

theorem Inv.lock_ws (h : Inv A C cut trip bound s turn stage) (hpc : (s.thr t).pc = .nextLock) (hfree : s.lock = none) :
    Inv A C cut trip bound ({ s with lock := some t }.setPc t .nextLocked) turn stage := by
  have hth := h.threads t
  have hst := hth.started (by simp [hpc])
  have hcl := hth.claim .owned (by rw [hpc]; rfl)
  refine h.move (v := { s.thr t with pc := .nextLocked }) rfl rfl rfl rfl (lock_free hfree) ?_ ?_ ?_ ?_
  · refine ⟨fun _ => hth.lt (by simp [hpc]),fun ht => ?_,fun st hst => ?_,by simp,?_,fun _ => hst,by simp⟩
    · obtain ⟨c,hc⟩ := hth.seat ht
      exact ⟨c,hc.setPc (by simp [Pc.early]) (fun _ => by rw [hpc]; rfl) (by simp [Pc.late]) (by simp [Pc.region])⟩
    · obtain rfl := Option.some.inj hst
      exact hcl
    · simp [Pc.locked, State.setPc, State.set]
  · exact h.start.keep rfl rfl rfl id (by simp [hpc]) (by simp [hpc]) (by simp)
  · exact Or.inl (by rw [hpc]; rfl)
  · exact fun _ => ⟨rfl,rfl⟩

theorem Inv.unlock_ws (h : Inv A C cut trip bound s turn stage) {more : Bool} (hpc : (s.thr t).pc = .unlocking more) :
    Inv A C cut trip bound ({ s with lock := none }.setPc t (if more then .body else .finished)) turn stage := by
  have hth := h.threads t
  have hst := hth.started (by simp [hpc])
  have hp : (if more then Pc.body else .finished).early = false ∧ (if more then Pc.body else .finished).within = more ∧
      (if more then Pc.body else .finished).late = !more ∧ (if more then Pc.body else .finished).region = none ∧
      (if more then Pc.body else .finished).claim = none ∧ (if more then Pc.body else .finished).locked = false ∧
      (if more then Pc.body else .finished) ≠ .initPost := by cases more <;> decide
  obtain ⟨hearly,hwithin,hlate,hregion,hnone,hlocked,hni⟩ := hp
  refine h.move (v := { s.thr t with pc := if more then .body else .finished }) rfl rfl rfl rfl
    (h.lock_held (by rw [hpc]; rfl)) ?_ ?_ ?_ ?_
  · refine ⟨fun _ => hth.lt (by simp [hpc]),fun ht => ?_,by simp [hnone],?_,?_,fun _ => hst,fun hi => absurd hi hni⟩
    · obtain ⟨c,hc⟩ := hth.seat ht
      refine ⟨c,hc.setPc (by simp [hearly]) ?_ ?_ (by simp [hregion])⟩
      · intro hw
        rw [hpc]
        exact hwithin.symm.trans hw
      · intro hl
        rw [hpc]
        exact hlate.symm.trans hl
    · cases more <;> simp
    · simp [hlocked, State.setPc, State.set]
  · exact h.start.keep rfl rfl rfl id (by simp [hpc]) (by simp [hpc]) hni
  · exact Or.inr (Or.inr (by rw [hpc]; rfl))
  · intro hw
    rw [hpc] at hw
    exact ⟨rfl,hwithin.trans hw⟩

/-! ## The steps of the right -/

theorem Inv.region_bounds (h : Inv A C cut trip bound s turn stage) (hd : Dealt A C cut trip bound)
    (ht : t = turn % A.nthreads) (hw : (s.thr t).pc.within = true) {x : ℤ} (hx : (s.thr t).pc.region = some x) :
    ∃ y, x = A.value y ∧ cut turn ≤ y ∧ y < cut (turn + 1) ∧ 0 ≤ y ∧ y < A.n ∧
      ∀ z, (s.thr t).pos = A.value z → z ≤ y := by
  have hlt : t < A.nthreads := ht ▸ Nat.mod_lt _ A.nthreads_pos
  obtain ⟨c,hc⟩ := (h.threads t).seat hlt
  obtain ⟨hcC,-,-,z,hz,hlow,-⟩ := hc.within hw
  obtain ⟨y,z',hy,hz',hzy,hyc⟩ := hc.region x hx
  obtain rfl : c = turn := by
    rw [ht] at hc
    exact hc.eq_turn
  obtain rfl := Bounds.value_inj (hz.symm.trans hz')
  have h0 : 0 ≤ cut c := hd.zero ▸ hd.mono (Nat.zero_le c)
  have hn : cut (c + 1) ≤ A.n := hd.last ▸ hd.mono hcC
  refine ⟨y,hy,by omega,hyc,by omega,by omega,fun w hw => ?_⟩
  obtain rfl := Bounds.value_inj (hz.symm.trans hw)
  exact hzy

/-- The owner goes into the region of an iteration, which comes after all the others, or on to its next chunk. -/
theorem Inv.enter (h : Inv A C cut trip bound s turn stage) (hd : Dealt A C cut trip bound) {region : Option ℤ}
    (hpc : (s.thr t).pc = .sync region ∨ (s.thr t).pc = .syncSet region) (ht : t = turn % A.nthreads)
    (hstage : stage = .owned ∨ stage = .taken) {o : Option ℕ} (ho : A.nthreads ≠ 1 → o = some t)
    (hothers : ∀ u, u ≠ t → o = some u → s.orderedOwner = some u) :
    Inv A C cut trip bound (enter A.incr { s with orderedOwner := o } t region) turn .owned := by
  have hth := h.threads t
  have hlt : t < A.nthreads := ht ▸ Nat.mod_lt _ A.nthreads_pos
  have hin : (s.thr t).pc.within = true ∧ (s.thr t).pc.region = region ∧ (s.thr t).pc.locked = false ∧
      (s.thr t).pc ≠ .outside ∧ (s.thr t).pc ≠ .initPost ∧ (s.thr t).pc ≠ .initDone := by
    obtain hpc | hpc := hpc <;> simp [hpc, Pc.within, Pc.region, Pc.locked]
  obtain ⟨hw,hregion,hunlocked,hout,hinit⟩ := hin
  have hne : stage ≠ .passed ∧ stage ≠ .posted ∧ stage ≠ .unposted := by
    obtain rfl | rfl := hstage <;> decide
  have hcount := h.right.count
  rw [if_neg hne.1] at hcount
  have hright : Right A C turn .owned s.release o := by
    refine ⟨?_,by simp,by simp,by simp,fun u => ?_,fun h1 => ?_⟩
    · rw [if_neg (by decide)]
      exact hcount
    · simp [h.right.release u, hne.2.1]
    · rw [ho h1, ht]
      rfl
  have hclaim : ∀ u, u ≠ t → (s.thr u).pc.claim = none := by
    refine h.no_claim fun x hx => ?_
    obtain rfl | rfl := hstage <;> exact (Option.some.inj hx).symm.trans ht.symm
  have hl := hth.locked
  rw [hunlocked] at hl
  obtain ⟨c,hc⟩ := hth.seat hlt
  cases region with
  | none =>
    refine h.step (v := { s.thr t with pc := .nextLock }) rfl (Or.inl rfl) (Or.inr hclaim) hothers
      (fun _ _ => Iff.rfl) (Or.inr ⟨by decide,fun u _ => h.not_posting hne.2.2 u⟩) ?_ hright (by simp) ?_ ?_
    · refine ⟨fun _ => hlt,fun _ => ⟨c,hc.setPc (by simp [Pc.early]) (fun _ => hw) (by simp [Pc.late])
        (by simp [Pc.region])⟩,fun st hst => ?_,by simp,hl,by simp,by simp⟩
      obtain rfl := Option.some.inj hst
      exact ⟨rfl,congrArg some ht.symm⟩
    · exact h.start.keep rfl rfl rfl (by simp) hout hinit (by simp)
    · obtain rfl | rfl := hstage
      · exact h.log_keep (v := { s.thr t with pc := .nextLock }) rfl rfl fun _ => ⟨rfl,rfl⟩
      · exact h.log_low (by decide) _ _
  | some x =>
    obtain ⟨y,rfl,hlow,hhigh,h0,hn,hzy⟩ := h.region_bounds hd ht hw hregion
    have hnext : A.value y + A.incr = A.value (y + 1) := by
      have hadd := Bounds.value_add (B := A.toBounds) y 1
      rwa [Nat.cast_one, one_mul] at hadd
    obtain ⟨hcC,htrip,hstop,z,hz,-,-⟩ := hc.within hw
    obtain rfl : c = turn := by
      rw [ht] at hc
      exact hc.eq_turn
    refine h.step (v := { s.thr t with pc := .inside, pos := A.value y + A.incr }) rfl (Or.inl rfl) (Or.inr hclaim)
      hothers (fun _ _ => Iff.rfl) (Or.inr ⟨by decide,fun u _ => h.not_posting hne.2.2 u⟩) ?_ hright (by simp) ?_ ?_
    · refine ⟨fun _ => hlt,fun _ => ⟨c,hc.mod,hc.low,hc.high,by simp [Pc.early],fun _ => ?_,by simp [Pc.late],
        by simp [Pc.region]⟩,fun st hst => ?_,by simp,hl,by simp,by simp⟩
      · exact ⟨hcC,htrip,hstop,y + 1,hnext,by omega,by omega⟩
      · obtain rfl := Option.some.inj hst
        exact ⟨rfl,congrArg some ht.symm⟩
    · exact h.start.keep rfl rfl rfl (by simp) hout hinit (by simp)
    · obtain ⟨ys,hys,hsorted,hbounds,hlog⟩ := h.log
      have hbelow : ∀ w ∈ ys, w < y := by
        intro w hwy
        obtain hcut | ⟨-,-,z',hz',hlt'⟩ := hlog
        · have := hcut w hwy
          omega
        · rw [← ht] at hz'
          have := hlt' w hwy
          have := hzy z' hz'
          omega
      refine ⟨ys ++ [y],?_,?_,?_,Or.inr ⟨rfl,?_⟩⟩
      · simp [OrderedStatic.enter, State.set, hys]
      · exact List.pairwise_append.mpr ⟨hsorted,List.pairwise_singleton _ _,by simpa using hbelow⟩
      · intro w hwy
        obtain hwy | hwy := List.mem_append.mp hwy
        · exact hbounds w hwy
        · obtain rfl := List.mem_singleton.mp hwy
          exact ⟨h0,hn⟩
      · rw [← ht]
        simp only [OrderedStatic.enter, State.set, Function.update_self]
        refine ⟨rfl,y + 1,hnext,fun w hwy => ?_⟩
        obtain hwy | hwy := List.mem_append.mp hwy
        · have := hbelow w hwy
          omega
        · obtain rfl := List.mem_singleton.mp hwy
          omega

/-- A thread that finds itself the owner, or is alone. -/
theorem Inv.owned_of_sync (h : Inv A C cut trip bound s turn stage) {region : Option ℤ}
    (hpc : (s.thr t).pc = .sync region) (ho : A.nthreads = 1 ∨ s.orderedOwner = some t) :
    t = turn % A.nthreads ∧ stage = .owned := by
  have hth := h.threads t
  have ht := hth.lt (by simp [hpc])
  have hst := hth.started (by simp [hpc])
  obtain ⟨c,hc⟩ := hth.seat ht
  have hcC := (hc.within (by rw [hpc]; rfl)).1
  have hcount := h.right.count
  have hpassed : stage ≠ .passed := by
    rintro rfl
    rw [if_pos rfl] at hcount
    have := hc.low
    omega
  by_cases h1 : A.nthreads = 1
  · refine ⟨?_,((h.right.solo h1).resolve_left hst).resolve_right hpassed⟩
    rw [h1, Nat.mod_one]
    omega
  · have howner := (h.right.owner h1).symm.trans (ho.resolve_left h1)
    have hplaced := h.placed t
    cases stage with
    | owned => exact ⟨(Option.some.inj howner).symm,rfl⟩
    | clearing =>
      have := hplaced howner (by decide)
      rw [hpc] at this
      cases this
    | passed => exact absurd rfl hpassed
    | _ => cases howner

/-- The semaphore lets the thread of the turn through. -/
theorem Inv.pass_semaphore (h : Inv A C cut trip bound s turn stage) {region : Option ℤ}
    (hpc : (s.thr t).pc = .syncWait region) (hpos : 0 < s.release t) :
    Inv A C cut trip bound ({ s with release := Function.update s.release t (s.release t - 1) }.setPc t (.syncSet region))
      turn .taken ∧ stage = .posted := by
  have hth := h.threads t
  have hrel := h.right.release t
  obtain ⟨rfl,ht⟩ : stage = .posted ∧ t = turn % A.nthreads := by
    by_contra hno
    rw [if_neg hno] at hrel
    omega
  have hcount := h.right.count
  rw [if_neg (by decide)] at hcount
  obtain ⟨h1,hne⟩ := hth.waiting region hpc
  have hl := hth.locked
  rw [hpc] at hl
  refine ⟨h.step (v := { s.thr t with pc := .syncSet region }) rfl (Or.inl rfl)
    (Or.inr (h.no_claim (by simp [Stage.holder]))) (fun _ _ hu => hu) (fun _ _ => Iff.rfl)
    (Or.inr ⟨by decide,fun u _ => h.not_posting (by decide) u⟩) ?_ ?_ ?_ ?_ (h.log_low (by decide) _ _),rfl⟩
  · refine ⟨fun _ => hth.lt (by simp [hpc]),fun hlt => ?_,fun st hst => ?_,by simp,hl,by simp,by simp⟩
    · obtain ⟨c,hc⟩ := hth.seat hlt
      refine ⟨c,hc.setPc (by simp [Pc.early]) (fun _ => by rw [hpc]; rfl) (by simp [Pc.late]) fun x hx => ?_⟩
      rw [hpc]
      exact hx
    · obtain rfl := Option.some.inj hst
      exact ⟨rfl,congrArg some ht.symm⟩
  · refine ⟨?_,by simp,by simp,fun h1' => absurd h1' h1,fun u => ?_,fun h1 => (h.right.owner h1).trans rfl⟩
    · rw [if_neg (by decide)]
      exact hcount
    · have hu := h.right.release u
      by_cases hut : u = t
      · subst hut
        have hone : s.release u = 1 := by rw [hrel, if_pos ⟨rfl,ht⟩]
        simp [State.setPc, State.set, hone]
      · rw [if_neg (fun hc => hut (hc.2.trans ht.symm))] at hu
        simp [State.setPc, State.set, hut, hu]
  · intro u hu _
    obtain rfl := (Option.some.inj hu).symm.trans ht.symm
    simp [State.setPc, State.set, Pc.claim]
  · exact h.start.keep rfl rfl rfl (by simp) (by simp [hpc]) (by simp [hpc]) (by simp)

/-- The thread after the one of chunk `turn`. -/
theorem nextId_mod (hT : 0 < A.nthreads) (k : ℕ) : nextId A.nthreads (k % A.nthreads) = (k + 1) % A.nthreads := by
  have hlt := Nat.mod_lt k hT
  have hdiv := Nat.div_add_mod' k A.nthreads
  have hk : k + 1 = k / A.nthreads * A.nthreads + (k % A.nthreads + 1) := by omega
  unfold nextId
  split
  case isTrue h => rw [hk, h, Nat.add_mod_right, Nat.mul_mod_left]
  case isFalse h => rw [hk, Nat.mul_add_mod_of_lt (by omega)]

/-- What the owner is told when it asks for its next chunk. -/
theorem Dealt.again_cases (hd : Dealt A C cut trip bound) {c : ℕ} (hc : c < C) {r : Static.Reply}
    (hr : A.next (c % A.nthreads) (trip c) = some r) :
    (c + A.nthreads < C ∧
      r = ⟨trip (c + A.nthreads),0,some (A.value (cut (c + A.nthreads)),bound (c + A.nthreads))⟩) ∨
    (C ≤ c + A.nthreads ∧ r.ret = if c + 1 = C then -1 else 1) := by
  obtain hlt | hge := lt_or_ge (c + A.nthreads) C
  · exact Or.inl ⟨hlt,(Option.some.inj ((hd.again c hlt).symm.trans hr)).symm⟩
  · obtain ⟨r',hr',hret⟩ := hd.stops c hc hge
    obtain rfl := Option.some.inj (hr'.symm.trans hr)
    exact Or.inr ⟨hge,hret⟩

/-- The stage after the owner has asked for its next chunk. -/
def afterTurn (A : Static.Args) (ret : ℤ) : Stage :=
  if ret < 0 then .passed else if A.nthreads = 1 then .owned else .clearing

theorem afterTurn_cases (hd : Dealt A C cut trip bound) {c : ℕ} (hc : c < C) {r : Static.Reply}
    (hr : A.next (c % A.nthreads) (trip c) = some r) :
    (c + 1 = C ∧ (afterNext A.nthreads r.ret).claim = none ∧ afterTurn A r.ret = .passed) ∨
    (c + 1 < C ∧ A.nthreads = 1 ∧ (afterNext A.nthreads r.ret).claim = none ∧ afterTurn A r.ret = .owned) ∨
    (c + 1 < C ∧ A.nthreads ≠ 1 ∧ (afterNext A.nthreads r.ret).claim = some .clearing ∧
      afterTurn A r.ret = .clearing) := by
  have hT := A.nthreads_pos
  have hret : r.ret < 0 ∧ c + 1 = C ∨ ¬r.ret < 0 ∧ c + 1 < C := by
    obtain ⟨hlt,rfl⟩ | ⟨-,hret⟩ := hd.again_cases hc hr
    · exact Or.inr ⟨lt_irrefl 0,by omega⟩
    · rw [hret]
      split <;> omega
  unfold afterNext afterTurn
  obtain ⟨hneg,hlast⟩ | ⟨hnn,hlt⟩ := hret
  · exact Or.inl ⟨hlast,by rw [if_pos (Or.inl hneg)]; rfl,if_pos hneg⟩
  · by_cases h1 : A.nthreads = 1
    · exact Or.inr (Or.inl ⟨hlt,h1,by rw [if_pos (Or.inr h1)]; rfl,by rw [if_neg hnn, if_pos h1]⟩)
    · refine Or.inr (Or.inr ⟨hlt,h1,?_,by rw [if_neg hnn, if_neg h1]⟩)
      rw [if_neg (not_or.mpr ⟨hnn,h1⟩)]
      rfl

/-- The seat of the owner one round later. -/
theorem Seat.again (hd : Dealt A C cut trip bound) (h : Seat A C cut trip bound c t v c) (hc : c < C) {r : Static.Reply}
    (hr : A.next (c % A.nthreads) (trip c) = some r) :
    Seat A C cut trip bound (c + 1) t { v.receive r with pc := afterNext A.nthreads r.ret } (c + A.nthreads) := by
  have hT := A.nthreads_pos
  have hp : (afterNext A.nthreads r.ret).early = false ∧ (afterNext A.nthreads r.ret).within = decide (r.ret = 0) ∧
      (afterNext A.nthreads r.ret).late = !decide (r.ret = 0) ∧ (afterNext A.nthreads r.ret).region = none := by
    unfold afterNext
    split <;> exact ⟨rfl,rfl,rfl,rfl⟩
  obtain ⟨hearly,hwithin,hlate,hregion⟩ := hp
  refine ⟨?_,by omega,by omega,by simp [hearly],fun hw => ?_,fun hl => ?_,by simp [hregion]⟩
  · rw [Nat.add_mod_right]
    exact h.mod
  · have hzero : r.ret = 0 := of_decide_eq_true (hwithin.symm.trans hw)
    obtain ⟨hlt,rfl⟩ | ⟨-,hret⟩ := hd.again_cases hc hr
    · exact ⟨hlt,rfl,rfl,_,rfl,le_rfl,hd.mono (Nat.le_succ _)⟩
    · rw [hzero] at hret
      split at hret <;> omega
  · obtain ⟨-,rfl⟩ | ⟨hge,-⟩ := hd.again_cases hc hr
    · rw [hlate] at hl
      cases hl
    · exact hge

/-- The owner asks for its next chunk, and its chunk is left behind. -/
theorem Inv.next_chunk (h : Inv A C cut trip bound s turn stage) (hd : Dealt A C cut trip bound)
    (hpc : (s.thr t).pc = .nextLocked) {r : Static.Reply} (hr : A.next t (s.thr t).trip = some r) :
    Inv A C cut trip bound (s.set t { (s.thr t).receive r with pc := afterNext A.nthreads r.ret }) (turn + 1)
      (afterTurn A r.ret) := by
  have hth := h.threads t
  have ht := hth.lt (by simp [hpc])
  obtain ⟨rfl,hholder⟩ := hth.claim .owned (by rw [hpc]; rfl)
  obtain rfl : turn % A.nthreads = t := Option.some.inj hholder
  obtain ⟨c,hc⟩ := hth.seat ht
  obtain rfl := hc.eq_turn
  obtain ⟨hcC,htrip,-,z,hz,-,hzle⟩ := hc.within (by rw [hpc]; rfl)
  rw [htrip] at hr
  have hafter := afterTurn_cases hd hcC hr
  have hne : afterTurn A r.ret ≠ .unposted := by
    obtain ⟨-,-,he⟩ | ⟨-,-,-,he⟩ | ⟨-,-,-,he⟩ := hafter <;> simp [he]
  have hp : (afterNext A.nthreads r.ret).locked = true ∧ afterNext A.nthreads r.ret ≠ .initPost ∧
      ∀ b, afterNext A.nthreads r.ret ≠ .syncWait b := by
    unfold afterNext
    split <;> simp [Pc.locked]
  obtain ⟨hlocked,hni,hnw⟩ := hp
  have hl := hth.locked
  rw [hpc] at hl
  refine h.step (v := { (s.thr (c % A.nthreads)).receive r with pc := afterNext A.nthreads r.ret }) rfl
    (Or.inr ⟨rfl,rfl⟩) (Or.inr (h.no_claim fun x hx => (Option.some.inj hx).symm)) (fun _ _ hu => hu)
    (fun _ _ => Iff.rfl) (Or.inr ⟨hne,fun u _ => h.not_posting (by decide) u⟩) ?_ ?_ ?_ ?_ ?_
  · refine ⟨fun _ => ht,fun _ => ⟨_,hc.again hd hcC hr⟩,fun st hst => ?_,fun b hb => absurd hb (hnw b),?_,fun _ => hne,
      fun hi => absurd hi hni⟩
    · obtain ⟨-,hnone,-⟩ | ⟨-,-,hnone,-⟩ | ⟨-,-,hsome,he⟩ := hafter
      · cases hnone.symm.trans hst
      · cases hnone.symm.trans hst
      · obtain rfl := Option.some.inj (hsome.symm.trans hst)
        exact ⟨he,rfl⟩
    · exact (iff_of_eq (congrArg (· = true) hlocked)).trans hl
  · have hrel : ∀ u, s.release u = 0 := fun u => by simp [h.right.release u]
    have howner := h.right.owner
    obtain ⟨hlast,-,he⟩ | ⟨hlt,h1,-,he⟩ | ⟨hlt,h1,-,he⟩ := hafter <;> rw [he]
    · exact ⟨by rwa [if_pos rfl],by simp,by simp,by simp,fun u => (hrel u).trans (if_neg (by simp)).symm,howner⟩
    · exact ⟨by rwa [if_neg (by decide)],by simp,by simp,by simp,fun u => (hrel u).trans (if_neg (by simp)).symm,fun hn => absurd h1 hn⟩
    · exact ⟨by rwa [if_neg (by decide)],by simp,by simp,fun hn => absurd hn h1,fun u => (hrel u).trans (if_neg (by simp)).symm,howner⟩
  · intro u hu hno
    obtain ⟨-,-,he⟩ | ⟨-,-,-,he⟩ | ⟨-,-,hsome,he⟩ := hafter <;> rw [he] at hu hno ⊢
    · cases hu
    · exact absurd rfl hno
    · obtain rfl : c % A.nthreads = u := Option.some.inj hu
      simpa [State.set] using hsome
  · exact h.start.keep rfl rfl rfl (fun hu => absurd hu hne) (by simp [hpc]) (by simp [hpc]) hni
  · obtain ⟨ys,hys,hsorted,hbounds,hlog⟩ := h.log
    refine ⟨ys,hys,hsorted,hbounds,Or.inl fun w hw => ?_⟩
    obtain hlow | ⟨-,-,z',hz',hlt⟩ := hlog
    · exact (hlow w hw).trans_le (hd.mono (Nat.le_succ c))
    · obtain rfl := Bounds.value_inj (hz.symm.trans hz')
      exact (hlt w hw).trans_le hzle

theorem Inv.clear_owner (h : Inv A C cut trip bound s turn stage) {more : Bool} (hpc : (s.thr t).pc = .clearOwner more) :
    Inv A C cut trip bound ({ s with orderedOwner := none }.setPc t (.setId more)) turn .handing := by
  have hth := h.threads t
  obtain ⟨rfl,hholder⟩ := hth.claim .clearing (by rw [hpc]; rfl)
  have hl := hth.locked
  rw [hpc] at hl
  have hcount := h.right.count
  rw [if_neg (by decide)] at hcount
  refine h.step (v := { s.thr t with pc := .setId more }) rfl (Or.inl rfl)
    (Or.inr (h.no_claim fun x hx => Option.some.inj (hx.symm.trans hholder))) (by simp [State.setPc, State.set])
    (fun _ _ => Iff.rfl) (Or.inr ⟨by decide,fun u _ => h.not_posting (by decide) u⟩) ?_ ?_ ?_ ?_
    (h.log_low (by decide) _ _)
  · refine ⟨fun _ => hth.lt (by simp [hpc]),fun hlt => ?_,fun st hst => ?_,by simp,hl,by simp,by simp⟩
    · obtain ⟨c,hc⟩ := hth.seat hlt
      exact ⟨c,hc.setPc (by simp [Pc.early]) (by rw [hpc]; exact id) (by rw [hpc]; exact id) (by simp [Pc.region])⟩
    · obtain rfl := Option.some.inj hst
      exact ⟨rfl,hholder⟩
  · refine ⟨?_,by simp,fun _ => h.right.handed (Or.inl rfl),fun h1 => ?_,fun u => ?_,fun _ => rfl⟩
    · rw [if_neg (by decide)]
      exact hcount
    · simpa using h.right.solo h1
    · have hu := h.right.release u
      simpa [State.setPc, State.set] using hu
  · intro u hu _
    obtain rfl : t = u := Option.some.inj (hholder.symm.trans hu)
    simp [State.setPc, State.set, Pc.claim]
  · exact h.start.keep rfl rfl rfl (by simp) (by simp [hpc]) (by simp [hpc]) (by simp)

theorem Inv.post_next (h : Inv A C cut trip bound s turn stage) {more : Bool} (hpc : (s.thr t).pc = .posting more) :
    Inv A C cut trip bound ({ s with
      release := Function.update s.release (nextId A.nthreads t) (s.release (nextId A.nthreads t) + 1) }.setPc t
        (.unlocking more)) turn .posted := by
  have hth := h.threads t
  obtain ⟨rfl,hholder⟩ := hth.claim .handing (by rw [hpc]; rfl)
  have hl := hth.locked
  rw [hpc] at hl
  have hcount := h.right.count
  rw [if_neg (by decide)] at hcount
  have hpos := h.right.handed (Or.inr rfl)
  have hzero : ∀ u, s.release u = 0 := fun u => by simp [h.right.release u]
  have hid : nextId A.nthreads t = turn % A.nthreads := by
    rw [← Option.some.inj hholder, nextId_mod A.nthreads_pos, Nat.sub_add_cancel hpos]
  rw [hid]
  refine h.step (v := { s.thr t with pc := .unlocking more }) rfl (Or.inl rfl)
    (Or.inr (h.no_claim fun x hx => Option.some.inj (hx.symm.trans hholder))) (fun _ _ hu => hu)
    (fun _ _ => Iff.rfl) (Or.inr ⟨by decide,fun u _ => h.not_posting (by decide) u⟩) ?_ ?_ (by simp [Stage.holder]) ?_
    (h.log_low (by decide) _ _)
  · refine ⟨fun _ => hth.lt (by simp [hpc]),fun hlt => ?_,by simp [Pc.claim],by simp,hl,by simp,by simp⟩
    obtain ⟨c,hc⟩ := hth.seat hlt
    exact ⟨c,hc.setPc (by simp [Pc.early]) (by rw [hpc]; exact id) (by rw [hpc]; exact id) (by simp [Pc.region])⟩
  · refine ⟨?_,by simp,by simp,fun h1 => ?_,fun u => ?_,fun h1 => (h.right.owner h1).trans rfl⟩
    · rw [if_neg (by decide)]
      exact hcount
    · simpa using h.right.solo h1
    · by_cases hu : u = turn % A.nthreads <;> simp [State.setPc, State.set, hu, hzero]
  · exact h.start.keep rfl rfl rfl (by simp) (by simp [hpc]) (by simp [hpc]) (by simp)

end GompUlt.OrderedStatic
