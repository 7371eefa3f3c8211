import GompUlt.Loop.OrderedStaticSteps

/-! # Runs of ordered static loops

The regions of a loop with iterations are entered in their order, and the loop leaves the semaphores down.  A loop
without iterations does not.
-/
namespace GompUlt.OrderedStatic
open Run Iter
open Static (staticNext)

section Runs
variable {A : Static.Args} {C : ℕ} {cut trip bound : ℕ → ℤ}
variable {s s' : State} {turn t : ℕ} {stage : Stage}

/-- The invariant with the turn and the stage left open. -/
def Explained (A : Static.Args) (C : ℕ) (cut trip bound : ℕ → ℤ) (s : State) : Prop :=
  ∃ turn stage, Inv A C cut trip bound s turn stage

theorem advance_explained (hd : Dealt A C cut trip bound) (h : Explained A C cut trip bound s)
    (hs : advance A.next A.incr A.nthreads s t = some s') : Explained A C cut trip bound s' := by
  obtain ⟨turn,stage,h⟩ := h
  have hth := h.threads t
  unfold advance at hs
  split at hs
  case h_1 | h_2 | h_3 | h_4 => cases hs
  case h_5 hpc =>
    obtain rfl := Option.some.inj hs
    exact ⟨_,_,h.post_first hpc⟩
  case h_6 hpc =>
    obtain rfl := Option.some.inj hs
    exact ⟨_,_,h.init_done hpc⟩
  case h_7 hpc =>
    obtain ⟨hready,hs⟩ := Option.ite_none_right_eq_some.mp hs
    obtain rfl := Option.some.inj hs
    exact ⟨_,_,h.setPc (by simp [hpc]) (by simp [hpc, Pc.early]) (by simp [hpc, Pc.within]) (by simp [Pc.late])
      (by simp [Pc.region]) (Or.inl (by simp [hpc, Pc.claim])) (by simp) (by simp [hpc, Pc.locked]) (by simp)
      (h.start.ready hready)⟩
  case h_8 hpc =>
    obtain ⟨r,hr,rfl⟩ := Option.map_eq_some_iff.mp hs
    exact ⟨_,_,h.first hd hpc hr⟩
  case h_9 region hpc =>
    split at hs
    case isTrue ho =>
      obtain rfl := Option.some.inj hs
      obtain ⟨ht,rfl⟩ := h.owned_of_sync hpc ho
      exact ⟨_,_,h.enter hd (Or.inl hpc) ht (Or.inl rfl) (fun h1 => ho.resolve_left h1) (fun _ _ hu => hu)⟩
    case isFalse ho =>
      obtain rfl := Option.some.inj hs
      exact ⟨_,_,h.setPc (by simp [hpc]) (by simp [Pc.early]) (by simp [hpc, Pc.within]) (by simp [Pc.late])
        (by simp [hpc, Pc.region]) (Or.inl (by simp [hpc, Pc.claim])) (fun _ _ => not_or.mp ho)
        (by simp [hpc, Pc.locked]) (by simp) (hth.started (by simp [hpc]))⟩
  case h_10 region hpc =>
    obtain ⟨hpos,hs⟩ := Option.ite_none_right_eq_some.mp hs
    obtain rfl := Option.some.inj hs
    exact ⟨_,_,(h.pass_semaphore hpc hpos).1⟩
  case h_11 region hpc =>
    obtain rfl := Option.some.inj hs
    obtain ⟨rfl,hholder⟩ := hth.claim .taken (by rw [hpc]; rfl)
    exact ⟨_,_,h.enter hd (Or.inr hpc) (Option.some.inj hholder).symm (Or.inr rfl) (fun _ => rfl)
      (fun u hu he => absurd (Option.some.inj he).symm hu)⟩
  case h_12 hpc =>
    obtain ⟨hfree,hs⟩ := Option.ite_none_right_eq_some.mp hs
    obtain rfl := Option.some.inj hs
    exact ⟨_,_,h.lock_ws hpc hfree⟩
  case h_13 hpc =>
    obtain ⟨r,hr,rfl⟩ := Option.map_eq_some_iff.mp hs
    exact ⟨_,_,h.next_chunk hd hpc hr⟩
  case h_14 more hpc =>
    obtain rfl := Option.some.inj hs
    exact ⟨_,_,h.clear_owner hpc⟩
  case h_15 more hpc =>
    obtain rfl := Option.some.inj hs
    have hset := h.setPc (t := t) (p := .posting more) (by simp [hpc]) (by simp [Pc.early]) (by simp [hpc, Pc.within])
      (by simp [hpc, Pc.late]) (by simp [Pc.region]) (Or.inl (by simp [hpc, Pc.claim])) (by simp)
      (by simp [hpc, Pc.locked]) (by simp) (hth.started (by simp [hpc]))
    exact ⟨turn,stage,hset.right,hset.placed,hset.threads,⟨hset.start.fresh,hset.start.creator,hset.start.ready,
      hset.start.poster⟩,hset.log⟩
  case h_16 more hpc =>
    obtain rfl := Option.some.inj hs
    exact ⟨_,_,h.post_next hpc⟩
  case h_17 more hpc =>
    obtain rfl := Option.some.inj hs
    exact ⟨_,_,h.unlock_ws hpc⟩

theorem step_explained (hd : Dealt A C cut trip bound) {e : Event} (h : Explained A C cut trip bound s)
    (hs : step A.next A.incr A.nthreads s e = some s') : Explained A C cut trip bound s' := by
  cases e with
  | loopStart t =>
    obtain ⟨turn,stage,h⟩ := h
    obtain ⟨⟨ht,hpc⟩,hs⟩ := Option.ite_none_right_eq_some.mp hs
    obtain rfl := Option.some.inj hs
    exact ⟨turn,stage,h.arrive ht hpc⟩
  | orderedStart t skip =>
    obtain ⟨turn,stage,h⟩ := h
    obtain ⟨⟨hpc,hx⟩,hs⟩ := Option.ite_none_right_eq_some.mp hs
    obtain rfl := Option.some.inj hs
    exact ⟨turn,stage,h.orderedStart hd hpc hx⟩
  | orderedEnd t =>
    obtain ⟨turn,stage,h⟩ := h
    obtain ⟨hpc,hs⟩ := Option.ite_none_right_eq_some.mp hs
    obtain rfl := Option.some.inj hs
    have hth := h.threads t
    have howned := (hth.claim .owned (by rw [hpc]; rfl)).1
    exact ⟨turn,stage,h.setPc (by simp [hpc]) (by simp [Pc.early]) (by simp [hpc, Pc.within]) (by simp [Pc.late])
      (by simp [Pc.region]) (Or.inr ⟨rfl,howned⟩) (by simp) (by simp [hpc, Pc.locked]) (by simp)
      (hth.started (by simp [hpc]))⟩
  | loopNext t =>
    obtain ⟨turn,stage,h⟩ := h
    obtain ⟨hpc,hs⟩ := Option.ite_none_right_eq_some.mp hs
    obtain rfl := Option.some.inj hs
    exact ⟨turn,stage,h.setPc (by simp [hpc]) (by simp [Pc.early]) (by simp [hpc, Pc.within]) (by simp [Pc.late])
      (by simp [Pc.region]) (Or.inl (by simp [hpc, Pc.claim])) (by simp) (by simp [hpc, Pc.locked]) (by simp)
      ((h.threads t).started (by simp [hpc]))⟩
  | advance t => exact advance_explained hd h hs

/-! ## What the runs come to -/

/-- The places where a thread can be held up. -/
theorem Inv.not_blocked (h : Inv A C cut trip bound s turn stage) (hd : Dealt A C cut trip bound)
    (hwait : (s.thr t).pc = .waitInit → s.ready = true) (hsem : ∀ r, (s.thr t).pc = .syncWait r → 0 < s.release t)
    (hlock : (s.thr t).pc = .nextLock → s.lock = none) : ¬Blocked A.next A.incr A.nthreads s t := by
  rintro ⟨hmem,hnone⟩
  have hth := h.threads t
  unfold advance at hnone
  split at hnone
  case h_1 hpc | h_2 hpc | h_3 hpc | h_4 hpc => simp [hpc] at hmem
  case h_7 hpc =>
    rw [if_pos (hwait hpc)] at hnone
    cases hnone
  case h_8 hpc =>
    have ht := hth.lt (by simp [hpc])
    obtain ⟨c,hc⟩ := hth.seat ht
    have htrip := (hc.early (by rw [hpc]; rfl)).2 (by simp [hpc])
    rw [Option.map_eq_none_iff, htrip] at hnone
    obtain hlt | hge := lt_or_ge t C
    · rw [hd.first t ht hlt] at hnone
      cases hnone
    · obtain ⟨r,hr,-⟩ := hd.none t ht hge
      rw [hr] at hnone
      cases hnone
  case h_9 region hpc => split at hnone <;> cases hnone
  case h_10 region hpc =>
    rw [if_pos (hsem region hpc)] at hnone
    cases hnone
  case h_12 hpc =>
    rw [if_pos (hlock hpc)] at hnone
    cases hnone
  case h_13 hpc =>
    obtain ⟨c,hc⟩ := hth.seat (hth.lt (by simp [hpc]))
    obtain ⟨hcC,htrip,-⟩ := hc.within (by rw [hpc]; rfl)
    rw [Option.map_eq_none_iff, htrip, ← hc.mod] at hnone
    obtain hlt | hge := lt_or_ge (c + A.nthreads) C
    · rw [hd.again c hlt] at hnone
      cases hnone
    · obtain ⟨r,hr,-⟩ := hd.stops c hcC hge
      rw [hr] at hnone
      cases hnone
  all_goals cases hnone

/-- The thread of the turn has its chunk. -/
theorem Inv.not_late (h : Inv A C cut trip bound s turn stage) (hs : stage ≠ .passed) :
    (s.thr (turn % A.nthreads)).pc.late = false := by
  have hcount := h.right.count
  rw [if_neg hs] at hcount
  obtain ⟨c,hc⟩ := (h.threads _).seat (Nat.mod_lt _ A.nthreads_pos)
  obtain rfl := hc.eq_turn
  by_contra hl
  exact absurd (hc.late (by simpa using hl)) (Nat.not_le.mpr hcount)

/-- Some thread that has not finished can go on, or is in the program's code. -/
theorem Inv.not_all_blocked (h : Inv A C cut trip bound s turn stage) (hd : Dealt A C cut trip bound)
    (ht : t < A.nthreads) (hnf : (s.thr t).pc ≠ .finished) :
    ∃ u < A.nthreads, (s.thr u).pc ≠ .finished ∧ ¬Blocked A.next A.incr A.nthreads s u := by
  have hmod := Nat.mod_lt turn A.nthreads_pos
  cases hready : s.ready with
  | false =>
    cases hcr : s.created with
    | false =>
      have hout := (h.start.fresh hcr).2 t
      exact ⟨t,ht,hnf,fun hb => hb.1 (by simp [hout])⟩
    | true =>
      obtain ⟨u,hu⟩ := (h.start.creator hcr).resolve_left (by simp [hready])
      obtain hu | hu := hu <;>
        exact ⟨u,(h.threads u).lt (by simp [hu]),by simp [hu],h.not_blocked hd (by simp [hu]) (by simp [hu]) (by simp [hu])⟩
  | true =>
    cases hlock : s.lock with
    | some v =>
      -- whoever holds the lock goes on
      have hv := h.threads v
      have hlocked := hv.locked.mpr hlock
      have hne : ∀ p : Pc, p.locked = true → p ≠ .outside ∧ p ≠ .finished ∧ p ≠ .waitInit ∧ p ≠ .nextLock ∧
          ∀ b, p ≠ .syncWait b := by
        intro p hp
        refine ⟨?_,?_,?_,?_,fun b => ?_⟩ <;> rintro rfl <;> cases hp
      obtain ⟨ho,hf,hw,hn,hsw⟩ := hne _ hlocked
      exact ⟨v,hv.lt ho,hf,h.not_blocked hd (fun hp => absurd hp hw) (fun r hp => absurd hp (hsw r)) (fun hp => absurd hp hn)⟩
    | none =>
      have hfree : ∀ u, (s.thr u).pc = .nextLock → s.lock = none := fun _ _ => hlock
      have hgo : ∀ u, (s.thr u).pc = .waitInit → s.ready = true := fun _ _ => hready
      have hclaimed : ∀ u, stage.holder A.nthreads turn = some u → stage ≠ .owned → (s.thr u).pc ≠ .finished ∧
          ∀ b, (s.thr u).pc ≠ .syncWait b := by
        intro u hu hno
        have hp := h.placed u hu hno
        constructor
        · intro hpc
          rw [hpc] at hp
          cases hp
        · intro b hpc
          rw [hpc] at hp
          cases hp
      have hmover : ∀ u, stage.holder A.nthreads turn = some u → stage ≠ .owned → u < A.nthreads →
          ∃ u < A.nthreads, (s.thr u).pc ≠ .finished ∧ ¬Blocked A.next A.incr A.nthreads s u := fun u hu hno hlt =>
        ⟨u,hlt,(hclaimed u hu hno).1,h.not_blocked hd (hgo u) (fun r hp => absurd hp ((hclaimed u hu hno).2 r)) (hfree u)⟩
      cases hst : stage with
      | unposted => exact absurd hst (h.start.ready hready)
      | posted =>
        have hlate := h.not_late (by simp [hst])
        have hrel := h.right.release (turn % A.nthreads)
        rw [if_pos ⟨hst,rfl⟩] at hrel
        refine ⟨_,hmod,fun hp => ?_,h.not_blocked hd (hgo _) (fun _ _ => by omega) (hfree _)⟩
        rw [hp] at hlate
        cases hlate
      | taken => exact hmover _ (by rw [hst]; rfl) (by simp [hst]) hmod
      | owned =>
        have hlate := h.not_late (by simp [hst])
        refine ⟨_,hmod,fun hp => ?_,h.not_blocked hd (hgo _) (fun r hp => ?_) (hfree _)⟩
        · rw [hp] at hlate
          cases hlate
        · obtain ⟨h1,hne⟩ := (h.threads _).waiting r hp
          refine absurd (h.right.owner h1) ?_
          rw [hst]
          exact hne
      | clearing => exact hmover _ (by rw [hst]; rfl) (by simp [hst]) (Nat.mod_lt _ A.nthreads_pos)
      | handing => exact hmover _ (by rw [hst]; rfl) (by simp [hst]) (Nat.mod_lt _ A.nthreads_pos)
      | passed =>
        have hcount := h.right.count
        rw [if_pos hst] at hcount
        refine ⟨t,ht,hnf,h.not_blocked hd (hgo t) (fun r hp => ?_) (hfree t)⟩
        obtain ⟨c,hc⟩ := (h.threads t).seat ht
        have hcC := (hc.within (by rw [hp]; rfl)).1
        have hlow := hc.low
        omega

/-- When all threads have finished, no semaphore is left up. -/
theorem Inv.release_zero (h : Inv A C cut trip bound s turn stage)
    (hfin : ∀ t < A.nthreads, (s.thr t).pc = .finished) (u : ℕ) : s.release u = 0 := by
  rw [h.right.release u, if_neg]
  rintro ⟨hst,-⟩
  have hlate := h.not_late (by simp [hst])
  rw [hfin _ (Nat.mod_lt _ A.nthreads_pos)] at hlate
  cases hlate

end Runs

/-- What holds of the ordered regions of a loop. -/
structure OrderedOk (A : Static.Args) (s : State) : Prop where
  order : s.log.Pairwise (before A.incr)
  space : ∀ x ∈ s.log, x ∈ iters A.incr A.start A.stop
  exclusive : ∀ t u, (s.thr t).pc = .inside → (s.thr u).pc = .inside → t = u
  progress : ∀ t < A.nthreads, (s.thr t).pc ≠ .finished →
    ∃ u < A.nthreads, (s.thr u).pc ≠ .finished ∧ ¬Blocked A.next A.incr A.nthreads s u
  clean : (∀ t < A.nthreads, (s.thr t).pc = .finished) → ∀ u, s.release u = 0

/-- In every interleaving the ordered regions are entered in the order of the iterations and one at a time, the
threads are never all held up, and the semaphores are down again in the end. -/
theorem ordered_static_regions (A : Static.Args) (hw : A.NoWrap) (es : List Event) (s : State)
    (hr : run (step A.next A.incr A.nthreads) init es = some s) : OrderedOk A s := by
  obtain ⟨C,cut,trip,bound,hd⟩ := exists_dealt hw
  have hstep : ∀ s e s', Explained A C cut trip bound s → True → step A.next A.incr A.nthreads s e = some s' →
      Explained A C cut trip bound s' := fun _ _ _ hi _ hs => step_explained hd hi hs
  have hinv : Explained A C cut trip bound s := run_invariant hstep ⟨_,_,init_inv hd⟩ (along_true _ es) hr
  obtain ⟨turn,stage,h⟩ := hinv
  obtain ⟨ys,hys,hsorted,hbounds,-⟩ := h.log
  constructor
  case order =>
    rw [hys, List.pairwise_map]
    exact hsorted.imp Bounds.before_value.mpr
  case space =>
    intro x hx
    rw [hys] at hx
    obtain ⟨y,hy,rfl⟩ := List.mem_map.mp hx
    obtain ⟨h0,hn⟩ := hbounds y hy
    exact Bounds.mem_space.mpr ⟨y,h0,hn,rfl⟩
  case exclusive =>
    intro t u ht hu
    obtain ⟨rfl,ht⟩ := (h.threads t).claim .owned (by rw [ht]; rfl)
    obtain ⟨-,hu⟩ := (h.threads u).claim .owned (by rw [hu]; rfl)
    exact Option.some.inj (ht.symm.trans hu)
  case progress => exact fun t ht hnf => h.not_all_blocked hd ht hnf
  case clean => exact h.release_zero

/-- Thread 1 waits for the region of iteration 4 while thread 0 goes through those of the iterations 0 and 2. -/
def threeRegions : List Event :=
  [.loopStart 0,.advance 0,.advance 0,.advance 0,.loopStart 1,.advance 1,.advance 1,.orderedStart 1 1,.advance 1,
   .orderedStart 0 0,.advance 0,.advance 0,.advance 0,.orderedEnd 0,.orderedStart 0 1,.advance 0,.orderedEnd 0,
   .loopNext 0,.advance 0,.advance 0,.advance 0,.advance 0,.advance 0,.advance 0,.advance 1,.advance 1]

theorem ordered_static_regions_threeRegions :
    ∃ s, run (step Static.Args.tenInThrees.next Static.Args.tenInThrees.incr Static.Args.tenInThrees.nthreads) init threeRegions = some s ∧
      s.log = [0,2,4] ∧ OrderedOk Static.Args.tenInThrees s := by
  refine ⟨_,rfl,rfl,?_⟩
  exact ordered_static_regions Static.Args.tenInThrees Static.Args.tenInThrees_noWrap threeRegions _ rfl

/-! ## Loops without iterations -/

/-- `gomp_iter_static_next` and its other copy in a loop of the given arguments. -/
def loopNext (type : IterType) (nthreads : ℕ) (start stop incr chunkSize : ℤ) : ℕ → ℤ → Option Static.Reply :=
  match type with
  | .long => fun i => Static.gompIterStaticNext (gompLoopInit nthreads start stop incr .guided chunkSize) nthreads i
  | .ull => fun i => Static.gompIterUllStaticNext
      (gompLoopUllInit nthreads (decide (0 < incr)) start stop (ull incr) .guided chunkSize) nthreads i

/-- Without iterations the first call finds no chunk. -/
theorem staticNext_empty {n : Option ℤ} (hn : n = some 0) (value : ℤ → ℤ) {ws : WorkShare} (hws : ws.next = ws.stop)
    (nthreads i : ℕ) : ∃ r, staticNext n value ws nthreads i 0 = some r ∧ r.ret = 1 := by
  subst hn
  unfold staticNext
  rw [if_neg (by decide)]
  by_cases h1 : (nthreads : ℤ) = 1
  · rw [if_pos h1, if_pos hws]
    exact ⟨_,rfl,rfl⟩
  · rw [if_neg h1]
    by_cases hc : ws.chunkSize = 0
    · rw [if_pos hc, if_neg (lt_irrefl 0), Option.map_some]
      have hblock : Static.block 0 nthreads i = (0,0) := by
        unfold Static.block
        simp only [Int.zero_ediv, Int.zero_emod]
        rw [if_neg (by omega)]
        simp [ull]
      simp only [hblock]
      exact ⟨_,rfl,rfl⟩
    · rw [if_neg hc, Option.map_some]
      refine ⟨_,rfl,?_⟩
      dsimp only
      have hs0 : 0 ≤ ull (ull (0 * (nthreads : ℤ) + i) * ull ws.chunkSize) := Int.emod_nonneg _ (by decide)
      rw [if_pos hs0]

theorem loopNext_empty {type : IterType} {start stop incr : ℤ} (hincr : incr ≠ 0)
    (hlong : type = .long → -2 ^ 63 ≤ incr ∧ incr ≤ longMax) (hull : type = .ull → |incr| ≤ ullMax) (hempty : ¬before incr start stop) (nthreads i : ℕ) (chunkSize : ℤ) :
    ∃ r, loopNext type nthreads start stop incr chunkSize i 0 = some r ∧ r.ret = 1 := by
  have hstop : (if (0 < incr ∧ stop < start) ∨ (incr < 0 ∧ start < stop) then start else stop) = start := by
    unfold before at hempty
    split <;> split at hempty <;> omega
  cases type with
  | long =>
    obtain ⟨hmin,hmax⟩ := hlong rfl
    unfold longMax at hmax
    unfold loopNext Static.gompIterStaticNext gompLoopInit
    simp only [hstop]
    refine staticNext_empty ?_ _ rfl nthreads i
    unfold Static.staticCount longDiv
    have hzero : long (start - start) = 0 := by rw [sub_self]; rfl
    dsimp only
    rw [hzero, zero_add]
    obtain hi | hi := lt_or_gt_of_ne hincr
    · have hs : long (long (incr + 1)) = incr + 1 := by
        rw [long_eq (x := incr + 1) (by omega) (by omega), long_eq (by omega) (by omega)]
      rw [if_neg (show ¬0 < incr by omega), hs, if_neg (by omega), Option.map_some, ← Int.neg_tdiv_neg,
        Int.tdiv_eq_zero_of_lt (by omega) (by omega)]
      rfl
    · have hs : long (long (incr + -1)) = incr + -1 := by
        rw [long_eq (x := incr + -1) (by omega) (by omega), long_eq (by omega) (by omega)]
      rw [if_pos hi, hs, if_neg (by omega), Option.map_some, Int.tdiv_eq_zero_of_lt (by omega) (by omega)]
      rfl
  | ull =>
    obtain ⟨hmin,hmax⟩ := abs_le.mp (hull rfl)
    unfold ullMax at hmin hmax
    have hup : (decide (0 < incr) = true ∧ stop < start ∨ ¬decide (0 < incr) = true ∧ start < stop) ↔
        (0 < incr ∧ stop < start) ∨ (incr < 0 ∧ start < stop) := by
      simp only [decide_eq_true_eq]
      omega
    unfold loopNext Static.gompIterUllStaticNext gompLoopUllInit
    simp only [hup, hstop]
    refine staticNext_empty ?_ _ rfl nthreads i
    unfold Static.ullStaticCount
    dsimp only
    rw [sub_self, zero_add, Option.some.injEq]
    obtain hi | hi := lt_or_gt_of_ne hincr
    · rw [decide_eq_false (by omega)]
      unfold ull
      rw [if_neg (by decide)]
      exact Int.ediv_eq_zero_of_lt (by omega) (by omega)
    · rw [decide_eq_true hi]
      unfold ull
      rw [if_pos rfl]
      exact Int.ediv_eq_zero_of_lt (by omega) (by omega)

/-- How far the first thread is with the work share. -/
inductive Making where
  | fresh
  | made (t : ℕ)
  | posted (t : ℕ)
  | ready

/-- Where a thread can stand in a loop without iterations. -/
def Making.allows (u : ℕ) (p : Pc) : Making → Prop
  | .fresh => p = .outside
  | .made t => if u = t then p = .initPost else p = .outside ∨ p = .waitInit
  | .posted t => if u = t then p = .initDone else p = .outside ∨ p = .waitInit
  | .ready => p = .outside ∨ p = .waitInit ∨ p = .first ∨ p = .finished

def Making.up : Making → Bool
  | .posted _ | .ready => true
  | _ => false

/-- The one post of a loop without iterations is made and not taken. -/
structure EmptyInv (nthreads : ℕ) (s : State) (m : Making) : Prop where
  pc : ∀ u, m.allows u (s.thr u).pc
  trip : ∀ u, (s.thr u).pc = .initPost ∨ (s.thr u).pc = .initDone ∨ (s.thr u).pc = .waitInit ∨ (s.thr u).pc = .first →
    (s.thr u).trip = 0
  release : ∀ u, s.release u = if m.up = true ∧ nthreads ≠ 1 ∧ u = 0 then 1 else 0
  created : s.created = false ↔ m = .fresh
  ready : s.ready = true ↔ m = .ready
  log : s.log = []

section Empty
variable {next : ℕ → ℤ → Option Static.Reply} {incr : ℤ} {nthreads t : ℕ} {s s' : State} {m m' : Making} {v : Thread}

theorem EmptyInv.step (h : EmptyInv nthreads s m) (hthr : s'.thr = Function.update s.thr t v)
    (hother : ∀ u p, u ≠ t → m.allows u p → m'.allows u p) (hpc : m'.allows t v.pc) (htrip : v.pc ≠ .finished → v.trip = 0)
    (hrel : ∀ u, s'.release u = if m'.up = true ∧ nthreads ≠ 1 ∧ u = 0 then 1 else 0)
    (hcreated : s'.created = false ↔ m' = .fresh) (hready : s'.ready = true ↔ m' = .ready) (hlog : s'.log = s.log) :
    EmptyInv nthreads s' m' where
  pc u := by
    rw [hthr]
    by_cases hu : u = t
    · subst hu
      rwa [Function.update_self]
    · rw [Function.update_of_ne hu]
      exact hother u _ hu (h.pc u)
  trip u hpu := by
    rw [hthr] at hpu ⊢
    by_cases hu : u = t
    · subst hu
      rw [Function.update_self] at hpu ⊢
      refine htrip fun hf => ?_
      simp [hf] at hpu
    · rw [Function.update_of_ne hu] at hpu ⊢
      exact h.trip u hpu
  release := hrel
  created := hcreated
  ready := hready
  log := hlog.trans h.log

/-- The places that no thread comes to. -/
theorem EmptyInv.places (h : EmptyInv nthreads s m) (t : ℕ) :
    ((s.thr t).pc = .outside ∨ (s.thr t).pc = .waitInit) ∨ ((s.thr t).pc = .initPost ∧ m = .made t) ∨
      ((s.thr t).pc = .initDone ∧ m = .posted t) ∨ (((s.thr t).pc = .first ∨ (s.thr t).pc = .finished) ∧ m = .ready) := by
  have hpc := h.pc t
  cases m with
  | fresh => exact Or.inl (Or.inl hpc)
  | made u =>
    change if t = u then _ else _ at hpc
    split at hpc
    case isTrue hu => exact Or.inr (Or.inl ⟨hpc,hu ▸ rfl⟩)
    case isFalse => exact Or.inl hpc
  | posted u =>
    change if t = u then _ else _ at hpc
    split at hpc
    case isTrue hu => exact Or.inr (Or.inr (Or.inl ⟨hpc,hu ▸ rfl⟩))
    case isFalse => exact Or.inl hpc
  | ready =>
    obtain ho | hw | hf := hpc
    · exact Or.inl (Or.inl ho)
    · exact Or.inl (Or.inr hw)
    · exact Or.inr (Or.inr (Or.inr ⟨hf,rfl⟩))

theorem EmptyInv.arrive (h : EmptyInv nthreads s m) (hpc : (s.thr t).pc = .outside) :
    ∃ m', EmptyInv nthreads ({ s with created := true }.set t
      { s.thr t with pc := if s.created then .waitInit else .initPost, trip := 0 }) m' := by
  cases hcr : s.created with
  | false =>
    obtain rfl := h.created.mp hcr
    refine ⟨.made t,h.step rfl (fun u p hu hp => ?_) (by simp [Making.allows]) (fun _ => rfl) h.release ?_ ?_ rfl⟩
    · simp only [Making.allows, if_neg hu]
      exact Or.inl hp
    · simp [State.set]
    · have hr := h.ready
      simpa [State.set] using hr
  | true =>
    have hne : m ≠ .fresh := fun hm => by simp [h.created.mpr hm] at hcr
    have hallows := h.pc t
    rw [hpc] at hallows
    refine ⟨m,h.step rfl (fun _ _ _ hp => hp) ?_ (fun _ => rfl) h.release ?_ h.ready rfl⟩
    · cases m with
      | fresh => exact absurd rfl hne
      | made u => simp_all [Making.allows]
      | posted u => simp_all [Making.allows]
      | ready => simp [Making.allows]
    · simpa [State.set] using hne

theorem EmptyInv.advance (h : EmptyInv nthreads s m) (hnext : ∀ i, ∃ r, next i 0 = some r ∧ r.ret = 1)
    (hs : OrderedStatic.advance next incr nthreads s t = some s') : ∃ m', EmptyInv nthreads s' m' := by
  unfold OrderedStatic.advance at hs
  obtain (hpc | hpc) | ⟨hpc,rfl⟩ | ⟨hpc,rfl⟩ | ⟨hpc | hpc,rfl⟩ := h.places t
  · rw [hpc] at hs
    cases hs
  · rw [hpc] at hs
    obtain ⟨hready,hs⟩ := Option.ite_none_right_eq_some.mp hs
    obtain rfl := Option.some.inj hs
    obtain rfl := h.ready.mp hready
    exact ⟨.ready,h.step rfl (fun _ _ _ hp => hp) (by simp [Making.allows]) (fun _ => h.trip t (by simp [hpc])) h.release h.created
      h.ready rfl⟩
  · rw [hpc] at hs
    obtain rfl := Option.some.inj hs
    refine ⟨.posted t,h.step rfl (fun u p hu hp => ?_) (by simp [Making.allows]) (fun _ => h.trip t (by simp [hpc])) (fun u => ?_)
      ?_ ?_ rfl⟩
    · simpa [Making.allows, hu] using hp
    · have hzero : ∀ u, s.release u = 0 := fun u => (h.release u).trans (if_neg (by simp [Making.up]))
      by_cases h1 : nthreads = 1
      · simp [State.setPc, State.set, h1, hzero]
      · by_cases hu : u = 0 <;> simp [State.setPc, State.set, h1, hzero, hu, Making.up]
    · have hc := h.created
      simpa [State.setPc, State.set] using hc
    · have hr := h.ready
      simpa [State.setPc, State.set] using hr
  · rw [hpc] at hs
    obtain rfl := Option.some.inj hs
    refine ⟨.ready,h.step rfl (fun u p hu hp => ?_) (by simp [Making.allows]) (fun _ => h.trip t (by simp [hpc])) h.release
      ?_ (by simp [State.setPc, State.set]) rfl⟩
    · simp only [Making.allows, if_neg hu] at hp
      exact hp.imp_right Or.inl
    · have hc := h.created
      simpa [State.setPc, State.set] using hc
  · rw [hpc] at hs
    obtain ⟨r,hr,rfl⟩ := Option.map_eq_some_iff.mp hs
    obtain ⟨r',hr',hret⟩ := hnext t
    rw [h.trip t (by simp [hpc])] at hr
    obtain rfl := Option.some.inj (hr'.symm.trans hr)
    rw [if_neg (show r'.ret ≠ 0 by rw [hret]; decide)]
    exact ⟨.ready,h.step rfl (fun _ _ _ hp => hp) (by simp [Making.allows]) (fun hf => absurd rfl hf) h.release h.created
      h.ready rfl⟩
  · rw [hpc] at hs
    cases hs

theorem EmptyInv.next_step (h : EmptyInv nthreads s m) (hnext : ∀ i, ∃ r, next i 0 = some r ∧ r.ret = 1) {e : Event}
    (hs : OrderedStatic.step next incr nthreads s e = some s') : ∃ m', EmptyInv nthreads s' m' := by
  have hplaces := h.places
  cases e with
  | loopStart t =>
    obtain ⟨⟨-,hpc⟩,hs⟩ := Option.ite_none_right_eq_some.mp hs
    obtain rfl := Option.some.inj hs
    exact h.arrive hpc
  | orderedStart t skip =>
    obtain ⟨⟨hpc,-⟩,-⟩ := Option.ite_none_right_eq_some.mp hs
    have := hplaces t
    simp [hpc] at this
  | orderedEnd t =>
    obtain ⟨hpc,-⟩ := Option.ite_none_right_eq_some.mp hs
    have := hplaces t
    simp [hpc] at this
  | loopNext t =>
    obtain ⟨hpc,-⟩ := Option.ite_none_right_eq_some.mp hs
    have := hplaces t
    simp [hpc] at this
  | advance t => exact h.advance hnext hs

end Empty

/-- A loop without iterations leaves the semaphore of thread 0 up by one, for the next ordered loop of the team. -/
theorem ordered_static_empty (type : IterType) (nthreads : ℕ) (hT : 0 < nthreads) (start stop incr chunkSize : ℤ)
    (hincr : incr ≠ 0) (hlong : type = .long → -2 ^ 63 ≤ incr ∧ incr ≤ longMax) (hull : type = .ull → |incr| ≤ ullMax)
    (hempty : ¬before incr start stop)
    (es : List Event) (s : State)
    (hr : run (step (loopNext type nthreads start stop incr chunkSize) incr nthreads) init es = some s) :
    s.log = [] ∧ ((∀ t < nthreads, (s.thr t).pc = .finished) →
      ∀ u, s.release u = if nthreads ≠ 1 ∧ u = 0 then 1 else 0) := by
  have hnext : ∀ i, ∃ r, loopNext type nthreads start stop incr chunkSize i 0 = some r ∧ r.ret = 1 := fun i =>
    loopNext_empty hincr hlong hull hempty nthreads i chunkSize
  have hinit : EmptyInv nthreads init .fresh := ⟨fun _ => rfl,fun _ _ => rfl,fun u => by simp [init, Making.up],
    by simp [init],by simp [init],rfl⟩
  have hstep : ∀ s e s', (∃ m, EmptyInv nthreads s m) → True →
      step (loopNext type nthreads start stop incr chunkSize) incr nthreads s e = some s' →
        ∃ m, EmptyInv nthreads s' m := by
    rintro s e s' ⟨m,hi⟩ - hs
    exact hi.next_step hnext hs
  obtain ⟨m,h⟩ := run_invariant hstep ⟨_,hinit⟩ (along_true _ es) hr
  refine ⟨h.log,fun hfin u => ?_⟩
  have hm : m = .ready := by
    have hplace := h.places 0
    rw [hfin 0 hT] at hplace
    simpa using hplace
  rw [h.release u, hm]
  simp [Making.up]

/-- Two threads and a loop that ends where it starts. -/
def nothingToDo : List Event :=
  [.loopStart 1,.loopStart 0,.advance 1,.advance 1,.advance 0,.advance 0,.advance 1]

theorem ordered_static_empty_nothingToDo :
    ∃ s, run (step (loopNext .long 2 5 5 1 1) 1 2) init nothingToDo = some s ∧ s.release 0 = 1 ∧
      s.log = [] ∧ ((∀ t < 2, (s.thr t).pc = .finished) → ∀ u, s.release u = if 2 ≠ 1 ∧ u = 0 then 1 else 0) := by
  refine ⟨_,rfl,rfl,?_⟩
  exact ordered_static_empty .long 2 (by decide) 5 5 1 1 (by decide) (by decide) (by decide) (by simp [before])
    nothingToDo _ rfl

end GompUlt.OrderedStatic
