import GompUlt.Loop.IterOps
import Mathlib.Data.Finset.Card

/-! # Runs of a team through a dynamic or guided loop

The chunks returned are laid end to end from the start of the loop, whichever version of the
operation handed them out and however the threads interleave.
-/
namespace GompUlt.Iter
open Run Tiling

variable {A : Args} {s : State} {l : List (ℤ × ℤ)} {p q : ℤ} {t : ℕ}

/-- The loop uses the fetch-and-add. -/
def Fast (A : Args) (ws : WorkShare) : Prop := A.locked = false ∧ A.usesFetch ws = true

theorem usesFetch_setNext (ws : WorkShare) (x : ℤ) : A.usesFetch { ws with next := x } = A.usesFetch ws := by
  unfold Args.usesFetch
  cases A.type <;> cases A.sched <;> rfl

theorem fast_setNext {ws : WorkShare} {x : ℤ} : Fast A { ws with next := x } ↔ Fast A ws := by
  unfold Fast
  rw [usesFetch_setNext]

/-- The threads that were told that there is nothing left. -/
def doneCount (A : Args) (pc : ℕ → Pc) : ℕ := ((Finset.range A.nthreads).filter fun t => pc t = .done).card

/-- What a thread's position says about how far the loop has come. -/
def PcOk (A : Args) (p : ℤ) : Pc → Prop
  | .ready => True
  | .loop start chunk => ∃ r, 0 ≤ r ∧ r ≤ p ∧ start = A.val r ∧ GoodChunk A chunk r
  | .done => p = A.N
  | .faulted => False

/-- The chunks returned so far are `l`, and the loop has come to `p`. -/
structure Progress (A : Args) (s : State) (l : List (ℤ × ℤ)) (p : ℤ) : Prop where
  shape : Shape A s.ws
  tiled : Tiled A.D A.N l p
  chunks : s.chunks = l.map fun c => (A.val c.1,A.val c.2)
  pcs : ∀ t, PcOk A p (s.pc t)
  slow : ¬Fast A s.ws → s.fetches = 0 ∧ s.ws.next = A.val p
  fast : Fast A s.ws → s.ws.next = A.val (s.fetches * A.C) ∧ p = min (s.fetches * A.C) A.N ∧
    s.fetches * A.C < A.N + (doneCount A s.pc + 1) * A.C ∧ ∀ t start chunk, s.pc t ≠ .loop start chunk

theorem init_progress (A : Args) : Progress A (init A) [] 0 where
  shape := workShare_shape
  tiled := .nil
  chunks := rfl
  pcs := fun _ => trivial
  slow := fun _ => ⟨rfl,by rw [Args.val_zero]; exact workShare_next⟩
  fast := by
    intro _
    have hC := A.C_pos
    have hN := A.N_nonneg
    have hz : ((init A).fetches : ℤ) * A.C = 0 := Int.zero_mul _
    refine ⟨?_,?_,?_,fun _ _ _ => Pc.noConfusion⟩
    · rw [hz,Args.val_zero]
      exact workShare_next
    · rw [hz,min_eq_left hN]
    · rw [hz,add_mul]
      have hmul : 0 ≤ (doneCount A (init A).pc : ℤ) * A.C := Int.mul_nonneg (by omega) hC.le
      omega

theorem PcOk.mono {pc : Pc} (h : PcOk A p pc) (hpq : p ≤ q) (hq : q ≤ A.N) : PcOk A q pc := by
  cases pc with
  | ready => trivial
  | loop start chunk =>
    obtain ⟨r,h0,hr,hs,hc⟩ := h
    exact ⟨r,h0,by omega,hs,hc⟩
  | done =>
    have hp : p = A.N := h
    exact le_antisymm hq (hp ▸ hpq)
  | faulted => exact h

/-- One thread moves. -/
theorem Progress.pcs_update (h : Progress A s l p) {pc : Pc} (hpq : p ≤ q) (hq : q ≤ A.N) (hpc : PcOk A q pc) :
    ∀ u, PcOk A q (Function.update s.pc t pc u) := by
  intro u
  by_cases hu : u = t
  · rw [hu,Function.update_self]
    exact hpc
  · rw [Function.update_of_ne hu]
    exact (h.pcs u).mono hpq hq

/-- Outside the fast path a thread moves without a chunk. -/
theorem Progress.setPc (h : Progress A s l p) (hslow : ¬Fast A s.ws) {pc : Pc} (hpc : PcOk A p pc) :
    Progress A (s.setPc t pc) l p where
  shape := h.shape
  tiled := h.tiled
  chunks := h.chunks
  pcs := h.pcs_update le_rfl (h.tiled.le A.N_nonneg) hpc
  slow := h.slow
  fast := fun hf => absurd hf hslow

/-- Outside the fast path a thread is given the next chunk. -/
theorem Progress.extend (h : Progress A s l p) (hslow : ¬Fast A s.ws) (hcut : Cut A p q) :
    Progress A (s.ret t { s.ws with next := A.val q } (some (A.val p,A.val q))) (l ++ [(p,q)]) q where
  shape := h.shape.setNext _
  tiled := h.tiled.snoc hcut.1 hcut.2.1 hcut.2.2
  chunks := by
    rw [List.map_append,← h.chunks]
    rfl
  pcs := h.pcs_update hcut.1.le hcut.2.1 trivial
  slow := fun _ => ⟨(h.slow hslow).1,rfl⟩
  fast := fun hf => absurd (fast_setNext.mp hf) hslow

theorem doneCount_lt {pc : ℕ → Pc} (ht : t < A.nthreads) (hpc : pc t ≠ .done) : doneCount A pc < A.nthreads := by
  have hsub : (Finset.range A.nthreads).filter (fun t => pc t = .done) ⊂ Finset.range A.nthreads :=
    Finset.filter_ssubset.mpr ⟨t,Finset.mem_range.mpr ht,hpc⟩
  calc doneCount A pc < (Finset.range A.nthreads).card := Finset.card_lt_card hsub
    _ = A.nthreads := Finset.card_range _

theorem doneCount_done {pc : ℕ → Pc} (ht : t < A.nthreads) (hpc : pc t ≠ .done) :
    doneCount A (Function.update pc t .done) = doneCount A pc + 1 := by
  unfold doneCount
  have heq : (Finset.range A.nthreads).filter (fun u => Function.update pc t .done u = .done) =
      insert t ((Finset.range A.nthreads).filter fun u => pc u = .done) := by
    ext u
    rw [Finset.mem_insert,Finset.mem_filter,Finset.mem_filter,Finset.mem_range]
    by_cases hu : u = t
    · simp [hu, ht]
    · simp [hu]
  rw [heq,Finset.card_insert_of_notMem (by simp [hpc])]

theorem no_loop_update {pc : ℕ → Pc} {pc' : Pc} (h : ∀ t start chunk, pc t ≠ .loop start chunk)
    (hpc : ∀ start chunk, pc' ≠ .loop start chunk) : ∀ u start chunk, Function.update pc t pc' u ≠ .loop start chunk := by
  intro u start chunk
  by_cases hu : u = t
  · rw [hu,Function.update_self]
    exact hpc start chunk
  · rw [Function.update_of_ne hu]
    exact h u start chunk

theorem fetches_succ (s : State) : ((s.fetches + 1 : ℕ) : ℤ) * A.C = s.fetches * A.C + A.C := by
  push_cast
  rw [add_mul,one_mul]

/-- A fetch-and-add before the end of the loop takes the next chunk. -/
theorem Progress.fetch_chunk (h : Progress A s l p) (hfast : Fast A s.ws) (hleft : s.fetches * A.C < A.N) :
    ∃ l' p', Progress A ({ s with fetches := s.fetches + 1 }.ret t { s.ws with next := A.val (s.fetches * A.C + A.C) }
      (some (A.val (s.fetches * A.C),A.val (min (s.fetches * A.C + A.C) A.N)))) l' p' := by
  obtain ⟨-,hp,hbound,hloop⟩ := h.fast hfast
  have hC := A.C_pos
  have hpeq : p = s.fetches * A.C := by omega
  have hcut : Cut A p (min (s.fetches * A.C + A.C) A.N) := by
    refine ⟨by omega,min_le_right _ _,?_⟩
    obtain hle | hle := le_total (s.fetches * A.C + A.C) A.N
    · rw [min_eq_left hle,hpeq,add_sub_cancel_left]
      exact Or.inl A.D_dvd_C
    · exact Or.inr (min_eq_right hle)
  refine ⟨l ++ [(p,min (s.fetches * A.C + A.C) A.N)],min (s.fetches * A.C + A.C) A.N,?_⟩
  constructor
  case shape => exact h.shape.setNext _
  case tiled => exact h.tiled.snoc hcut.1 hcut.2.1 hcut.2.2
  case chunks =>
    rw [List.map_append,← h.chunks,hpeq]
    rfl
  case pcs => exact h.pcs_update hcut.1.le hcut.2.1 trivial
  case slow => exact fun hslow => absurd (fast_setNext.mpr hfast) hslow
  case fast =>
    intro _
    have hmul : 0 ≤ (doneCount A (Function.update s.pc t .ready) : ℤ) * A.C := Int.mul_nonneg (by omega) hC.le
    simp only [State.ret, State.setPc, fetches_succ]
    refine ⟨trivial,trivial,?_,no_loop_update hloop fun _ _ => Pc.noConfusion⟩
    rw [add_mul]
    omega

/-- A fetch-and-add at or behind the end of the loop is the last one of its thread. -/
theorem Progress.fetch_none (h : Progress A s l p) (hfast : Fast A s.ws) (ht : t < A.nthreads) (hpc : s.pc t = .ready)
    (hleft : A.N ≤ s.fetches * A.C) :
    Progress A ({ s with fetches := s.fetches + 1 }.ret t { s.ws with next := A.val (s.fetches * A.C + A.C) } none)
      l p := by
  obtain ⟨-,hp,hbound,hloop⟩ := h.fast hfast
  have hC := A.C_pos
  have hpeq : p = A.N := by omega
  constructor
  case shape => exact h.shape.setNext _
  case tiled => exact h.tiled
  case chunks => exact h.chunks
  case pcs => exact h.pcs_update le_rfl (h.tiled.le A.N_nonneg) hpeq
  case slow => exact fun hslow => absurd (fast_setNext.mpr hfast) hslow
  case fast =>
    intro _
    have hdone : doneCount A (Function.update s.pc t .done) = doneCount A s.pc + 1 :=
      doneCount_done ht (by rw [hpc]; exact Pc.noConfusion)
    simp only [State.ret, State.setPc, fetches_succ, hdone]
    refine ⟨trivial,by omega,?_,no_loop_update hloop fun _ _ => Pc.noConfusion⟩
    push_cast
    rw [add_mul]
    omega

/-- The room that the overflow test left is enough for one more fetch-and-add of every thread. -/
theorem Progress.fetches_le (h : Progress A s l p) (hfast : Fast A s.ws) :
    s.fetches * A.C ≤ A.N + (A.nthreads + 1) * A.C ∧
    ∀ t < A.nthreads, s.pc t = .ready → s.fetches * A.C ≤ A.N + A.nthreads * A.C := by
  obtain ⟨-,-,hbound,-⟩ := h.fast hfast
  have hC := A.C_pos
  constructor
  · have hle : doneCount A s.pc ≤ A.nthreads := by
      calc doneCount A s.pc ≤ (Finset.range A.nthreads).card := Finset.card_filter_le _ _
        _ = A.nthreads := Finset.card_range _
    have hmul : ((doneCount A s.pc : ℤ) + 1) * A.C ≤ (A.nthreads + 1) * A.C :=
      Int.mul_le_mul_of_nonneg_right (by omega) hC.le
    omega
  · intro t ht hpc
    have hlt : doneCount A s.pc < A.nthreads := doneCount_lt ht (by rw [hpc]; exact Pc.noConfusion)
    have hmul : ((doneCount A s.pc : ℤ) + 1) * A.C ≤ A.nthreads * A.C :=
      Int.mul_le_mul_of_nonneg_right (by omega) hC.le
    omega

theorem Progress.call (h : Progress A s l p) (hov : ¬Overflows A) (ht : t < A.nthreads) (hpc : s.pc t = .ready) :
    ∃ l' p', Progress A (call A s t) l' p' := by
  have h0 := h.tiled.nonneg
  have hN := h.tiled.le A.N_nonneg
  unfold Iter.call
  split
  case isTrue hlocked =>
    have hslow : ¬Fast A s.ws := fun hf => by simp [hf.1] at hlocked
    obtain ⟨hp,hnext⟩ | ⟨q,hcut,hnext⟩ := h.shape.nextLocked_eq (h.slow hslow).2 h0 hN hov
    · rw [hnext]
      exact ⟨l,p,h.setPc hslow hp⟩
    · rw [hnext]
      exact ⟨_,_,h.extend hslow hcut⟩
  case isFalse hlocked =>
    split
    case isTrue huse =>
      have hfast : Fast A s.ws := ⟨by simpa using hlocked,huse⟩
      have hC := A.C_pos
      have hroom := (h.fetches_le hfast).2 t ht hpc
      rw [h.shape.fetch_eq huse (h.fast hfast).1 (Int.mul_nonneg (by omega) hC.le) hroom]
      dsimp only
      obtain hleft | hleft := lt_or_ge (s.fetches * A.C) A.N
      · rw [if_pos hleft]
        exact h.fetch_chunk hfast hleft
      · rw [if_neg (by omega)]
        exact ⟨l,p,h.fetch_none hfast ht hpc hleft⟩
    case isFalse huse =>
      have hslow : ¬Fast A s.ws := fun hf => huse hf.2
      exact ⟨l,p,h.setPc hslow ⟨p,h0,le_rfl,(h.slow hslow).2,h.shape.goodChunk p⟩⟩

theorem Progress.again (h : Progress A s l p) (hov : ¬Overflows A) {start chunk : ℤ} (hpc : s.pc t = .loop start chunk) :
    ∃ l' p', Progress A (again A s t start chunk) l' p' := by
  have hN := h.tiled.le A.N_nonneg
  have hslow : ¬Fast A s.ws := fun hf => (h.fast hf).2.2.2 t start chunk hpc
  have hnext := (h.slow hslow).2
  have hok := h.pcs t
  rw [hpc] at hok
  obtain ⟨r,hr0,hrp,rfl,hgood⟩ := hok
  unfold Iter.again
  obtain ⟨hr,hpass⟩ | ⟨q,c,hcut,hgood',hpass⟩ := h.shape.pass_eq hr0 (by omega) hgood hov
  · rw [hpass]
    have hp : p = A.N := by omega
    exact ⟨l,p,h.setPc hslow hp⟩
  · rw [hpass]
    unfold casNext
    rw [hnext]
    by_cases hsame : A.val p = A.val r
    · obtain rfl := Args.val_inj hsame
      rw [if_pos rfl]
      exact ⟨_,_,h.extend hslow hcut⟩
    · rw [if_neg hsame]
      exact ⟨l,p,h.setPc hslow ⟨p,by omega,le_rfl,rfl,hgood'.mono hrp⟩⟩

/-- One step. -/
theorem step_progress (hov : ¬Overflows A) {s' : State} {e : Event} (h : ∃ l p, Progress A s l p)
    (hs : step A s e = some s') : ∃ l p, Progress A s' l p := by
  obtain ⟨l,p,h⟩ := h
  cases e with
  | call t =>
    simp only [step, Option.ite_none_right_eq_some, Option.some.injEq] at hs
    obtain ⟨⟨ht,hpc⟩,rfl⟩ := hs
    exact h.call hov ht hpc
  | again t =>
    simp only [step] at hs
    split at hs
    case h_1 start chunk hpc =>
      obtain rfl := Option.some.inj hs
      exact h.again hov hpc
    case h_2 => contradiction

/-! ## The iterations of the chunks -/

/-- The iterations of a chunk, by their distance from the start of the loop. -/
theorem mem_iters {a b x : ℤ} : x ∈ iters A.incr (A.val a) (A.val b) ↔ ∃ y, x = A.val y ∧ a ≤ y ∧ y < b ∧ A.D ∣ y - a := by
  have hD := A.D_pos
  have hbefore : ∀ y, before A.incr (A.val y) (A.val b) ↔ y < b := by
    intro y
    unfold before Args.val
    obtain ⟨hi,hs,-,-⟩ | ⟨hi,hs,-,-⟩ := A.up_or_down <;> rw [hs]
    · rw [if_pos hi]
      omega
    · rw [if_neg (by omega)]
      omega
  constructor
  · rintro ⟨j,rfl,hj⟩
    rw [val_add_iters,hbefore] at hj
    have hmul : 0 ≤ (j : ℤ) * A.D := Int.mul_nonneg (by omega) hD.le
    refine ⟨a + j * A.D,val_add_iters,by omega,hj,?_⟩
    rw [add_sub_cancel_left]
    exact Dvd.intro_left _ rfl
  · rintro ⟨y,rfl,hay,hyb,k,hk⟩
    have hk0 : 0 ≤ k := by
      by_contra hneg
      have := Int.mul_neg_of_pos_of_neg hD (not_le.mp hneg)
      omega
    refine ⟨k.toNat,?_,(hbefore y).mpr hyb⟩
    rw [Int.toNat_of_nonneg hk0,val_add_iters,Int.mul_comm,← hk,add_sub_cancel]

/-- The iteration space of the loop. -/
theorem iters_space : iters A.incr A.start A.stop = iters A.incr (A.val 0) (A.val A.N) := by
  obtain hN | hN := A.N_nonneg.lt_or_eq
  · rw [Args.val_zero,Args.val_N hN]
  · -- with nothing on the way no iteration lies before either bound
    rw [Args.val_zero]
    ext x
    have hno : ∀ bound, (bound = A.stop ∨ bound = A.val A.N) → ∀ j : ℕ, ¬before A.incr (A.start + j * A.incr) bound := by
      intro bound hbound j
      unfold before
      unfold Args.val at hbound
      obtain ⟨hi,hs,-,hway⟩ | ⟨hi,hs,-,hway⟩ := A.up_or_down <;> rw [hs] at hbound
      · have hmul : 0 ≤ (j : ℤ) * A.incr := Int.mul_nonneg (by omega) hi.le
        rw [if_pos hi]
        omega
      · have hmul : (j : ℤ) * A.incr ≤ 0 := Int.mul_nonpos_of_nonneg_of_nonpos (by omega) hi.le
        rw [if_neg (by omega)]
        omega
    constructor
    · rintro ⟨j,rfl,hj⟩
      exact absurd hj (hno _ (Or.inl rfl) j)
    · rintro ⟨j,rfl,hj⟩
      exact absurd hj (hno _ (Or.inr rfl) j)

/-- Every chunk, by its distances. -/
theorem Progress.mem_chunks (h : Progress A s l p) {c : ℤ × ℤ} (hc : c ∈ s.chunks) :
    ∃ d ∈ l, c = (A.val d.1,A.val d.2) := by
  rw [h.chunks] at hc
  obtain ⟨d,hd,rfl⟩ := List.mem_map.mp hc
  exact ⟨d,hd,rfl⟩

theorem Progress.whole (h : Progress A s l p) : ∀ c ∈ s.chunks, A.incr ∣ c.2 - c.1 ∨ c.2 = A.stop := by
  intro c hc
  obtain ⟨⟨a,b⟩,hd,rfl⟩ := h.mem_chunks hc
  obtain ⟨h0,hab,-,hbN,-,hdvd | rfl⟩ := h.tiled.mem _ hd
  · left
    have hdiff : A.val b - A.val a = A.sgn * (b - a) := by
      unfold Args.val
      rw [mul_sub]
      omega
    dsimp only
    rw [hdiff,A.incr_eq]
    exact Int.mul_dvd_mul_left A.sgn hdvd
  · exact Or.inr (A.val_N (by omega))

theorem Progress.disjoint (h : Progress A s l p) :
    s.chunks.Pairwise fun c d => Disjoint (iters A.incr c.1 c.2) (iters A.incr d.1 d.2) := by
  rw [h.chunks,List.pairwise_map]
  refine h.tiled.pairwise.imp fun {c d} hcd => Set.disjoint_left.mpr fun x hx hx' => ?_
  obtain ⟨y,rfl,-,hy,-⟩ := mem_iters.mp hx
  obtain ⟨z,hz,hdz,-,-⟩ := mem_iters.mp hx'
  have := Args.val_inj hz
  omega

theorem Progress.contiguous (h : Progress A s l p) :
    s.chunks.IsChain (fun c d => d.1 = c.2) ∧ ∀ c ∈ s.chunks.head?, c.1 = A.start := by
  obtain ⟨hchain,hhead,-,-⟩ := h.tiled.contiguous
  rw [h.chunks]
  constructor
  · rw [List.isChain_map]
    exact hchain.imp fun c d hcd => congrArg A.val hcd
  · intro c hc
    rw [List.head?_map,Option.mem_map] at hc
    obtain ⟨d,hd,rfl⟩ := hc
    dsimp only
    rw [hhead d hd,Args.val_zero]

/-- Once the end is reached every iteration is in a chunk. -/
theorem Progress.complete (h : Progress A s l A.N) :
    iters A.incr A.start A.stop ⊆ ⋃ c ∈ {c | c ∈ s.chunks}, iters A.incr c.1 c.2 := by
  rw [iters_space]
  intro x hx
  obtain ⟨y,rfl,hy0,hyN,hdvd⟩ := mem_iters.mp hx
  obtain ⟨c,hc,hcy,hyc⟩ := h.tiled.cover hy0 hyN
  have hmem : (A.val c.1,A.val c.2) ∈ s.chunks := by
    rw [h.chunks]
    exact List.mem_map_of_mem hc
  refine Set.mem_biUnion hmem (mem_iters.mpr ⟨y,rfl,hcy,hyc,?_⟩)
  rw [sub_zero] at hdvd
  exact Int.dvd_sub hdvd (h.tiled.mem c hc).2.2.2.2.1

theorem Progress.getLast (h : Progress A s l p) : (s.chunks.getLast?.map Prod.snd).getD A.start = A.val p := by
  obtain ⟨-,-,hlast,hnil⟩ := h.tiled.contiguous
  rw [h.chunks,List.getLast?_map]
  cases hl : l.getLast? with
  | none => rw [hnil (List.getLast?_eq_none_iff.mp hl)]; simp
  | some c => simp [hlast c hl]

theorem Progress.chunksOk (h : Progress A s l p) : ChunksOk A s where
  returns := by
    intro t hpc
    have hok := h.pcs t
    rw [hpc] at hok
    exact hok
  nonempty := by
    intro c hc
    obtain ⟨⟨a,b⟩,hd,rfl⟩ := h.mem_chunks hc
    exact mem_iters.mpr ⟨a,rfl,le_rfl,(h.tiled.mem _ hd).2.1,by simp⟩
  inside := by
    intro c hc x hx
    obtain ⟨⟨a,b⟩,hd,rfl⟩ := h.mem_chunks hc
    obtain ⟨h0,-,-,hbN,hda,-⟩ := h.tiled.mem _ hd
    obtain ⟨y,rfl,hay,hyb,hdvd⟩ := mem_iters.mp hx
    rw [iters_space]
    refine mem_iters.mpr ⟨y,rfl,by omega,by omega,?_⟩
    have hsum := Int.dvd_add hdvd hda
    rwa [sub_add_cancel,← sub_zero y] at hsum
  whole := h.whole
  disjoint := h.disjoint
  contiguous := h.contiguous
  complete := by
    intro t hpc
    have hok := h.pcs t
    rw [hpc] at hok
    obtain rfl : p = A.N := hok
    exact h.complete
  reached := by
    intro hzero
    rw [h.getLast]
    by_cases hfast : Fast A s.ws
    · obtain ⟨hnext,hp,-⟩ := h.fast hfast
      have hN := A.N_nonneg
      have hz : (s.fetches : ℤ) * A.C = 0 := by simp [hzero]
      rw [hz] at hp hnext
      rw [hnext,hp,min_eq_left hN]
    · exact (h.slow hfast).2
  fetched := by
    intro hne
    by_cases hfast : Fast A s.ws
    · rw [(h.fast hfast).1,Args.chunk_incr,Int.mul_left_comm]
      rfl
    · exact absurd (h.slow hfast).1 hne
  range := by
    by_cases hfast : Fast A s.ws
    · rw [(h.fast hfast).1]
      exact h.shape.fast hfast.2 _ (Int.mul_nonneg (by omega) A.C_pos.le) (h.fetches_le hfast).1
    · rw [(h.slow hfast).2]
      exact A.val_rep h.tiled.nonneg (h.tiled.le A.N_nonneg)

/-! ## The loop that faults -/

theorem setPc_self {pc : Pc} : (s.setPc t pc).pc t = pc := by
  simp [State.setPc]

/-- The first guided chunk of such a loop is never computed. -/
theorem guidedEnd_none (h : Overflows A) : A.workShare.next ≠ A.workShare.stop ∧
    guidedEnd A.workShare A.nthreads A.workShare.next = none := by
  obtain ⟨hT,-,hdiff,hincr⟩ := h
  have hshape := workShare_shape (A := A)
  have hN : A.N = 2 ^ 63 := (A.N_le_long hT).2.mpr ⟨hdiff,by omega⟩
  have hstop : A.workShare.stop = A.stop := by
    rw [hshape.stop,A.val_N (by omega)]
  rw [hstop,workShare_next]
  refine ⟨by omega,?_⟩
  unfold guidedEnd
  rw [hstop,hshape.incr_long hT,hdiff,hincr]
  rfl

/-- The events up to the division, in either version. -/
def faultingCall (A : Args) : List Event := if A.locked then [.call 0] else [.call 0,.again 0]

theorem run_faultingCall (h : Overflows A) :
    run (step A) (init A) (faultingCall A) = some ((init A).setPc 0 .faulted) := by
  obtain ⟨hne,hend⟩ := guidedEnd_none h
  obtain ⟨hT,hsched,-,-⟩ := h
  have hpos := A.nthreads_pos
  unfold faultingCall
  cases hlocked : A.locked with
  | true => simp [run, step, hpos, init, call, hlocked, Args.nextLocked, hT, hsched, gompIterGuidedNextLocked, hne, hend]
  | false =>
    simp [run, step, hpos, init, call, hlocked, Args.usesFetch, hT, hsched, again, Args.pass, guidedPass, hne, hend,
      State.setPc]

theorem run_progress (hov : ¬Overflows A) {es : List Event} (hr : run (step A) (init A) es = some s) :
    ∃ l p, Progress A s l p := by
  have hstep : ∀ s e s', (∃ l p, Progress A s l p) → True → step A s e = some s' → ∃ l p, Progress A s' l p :=
    fun s e s' h _ hs => step_progress hov h hs
  exact run_invariant hstep ⟨_,_,init_progress A⟩ (along_true _ es) hr

/-- All of the negative half, counted down. -/
def downFromZero : Args where
  type := .long
  sched := .guided
  locked := false
  nthreads := 4
  start := 0
  stop := -2 ^ 63
  incr := -1
  chunkSize := 1
  nthreads_pos := by decide
  nthreads_lt := by decide
  incr_ne := by decide
  chunk_pos := by decide
  start_mem := by decide
  stop_mem := by decide
  chunk_rep := by decide
  diff_rep := by decide

end GompUlt.Iter
