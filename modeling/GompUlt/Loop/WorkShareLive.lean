import GompUlt.Loop.WorkShareChain

/-! # The live part of the chain of work shares

The work shares not freed yet form a chain of distinct blocks from the oldest one to the newest.  The
oldest is the one before the construct that the slowest thread is in.
-/
namespace GompUlt.WorkShareChain
open Run Counting

variable {n : ℕ}

section Thread
variable (kind : ℕ → Kind)

/-- The thread has found the pointer missing and not yet set it. -/
def Thread.creating (th : Thread) : Bool :=
  match th.pc with
  | .alloc | .initDone => true
  | .outside | .get | .inside _ | .stored | .waiting _ _ | .lastFree _ | .release _ | .reading | .copied _ | .ending
  | .freeLast => false

/-- The construct whose work share is the thread's `last_work_share`, while the thread needs it. -/
def Thread.lastIndex (th : Thread) : Option ℕ :=
  match th.pc with
  | .outside => none
  | .get | .alloc => some th.count
  | .waiting _ _ | .release _ => if kind th.count = Kind.copy then some (th.count - 1) else none
  | .initDone | .inside _ | .stored | .lastFree _ | .reading | .copied _ | .ending | .freeLast => some (th.count - 1)

/-- The construct a thread is in has been made, and linked unless the thread made it. -/
def Thread.CountOk (th : Thread) (linked top : ℕ) : Prop :=
  match th.pc with
  | .alloc => th.count = linked ∧ top = linked
  | .initDone => th.count = linked + 1 ∧ top = linked + 1
  | .outside | .get | .inside _ | .stored | .waiting _ _ | .lastFree _ | .release _ | .reading | .copied _ | .ending
  | .freeLast => th.count ≤ linked

theorem passed_cases (th : Thread) : th.passed kind = th.count ∨ th.passed kind = th.count - 1 := by
  cases hpc : th.pc with
  | waiting | release =>
    by_cases hwait : kind th.count = Kind.wait
    · simp [Thread.passed, hpc, hwait]
    · simp [Thread.passed, hpc, hwait]
  | outside | get | alloc | initDone | inside | stored | lastFree | reading | copied | ending | freeLast =>
    simp [Thread.passed, hpc]

theorem level_cases (th : Thread) : th.level kind = th.passed kind ∨ th.level kind = th.count := by
  cases hpc : th.pc <;> simp [Thread.level, hpc]

theorem passed_le_level (th : Thread) : th.passed kind ≤ th.level kind := by
  have hp := passed_cases kind th
  have hl := level_cases kind th
  omega

theorem level_le_count (th : Thread) : th.level kind ≤ th.count := by
  have hp := passed_cases kind th
  have hl := level_cases kind th
  omega

theorem count_le_passed (th : Thread) : th.count ≤ th.passed kind + 1 := by
  have hp := passed_cases kind th
  omega

variable {kind}

theorem lastIndex_passed {th : Thread} {i : ℕ} (h : th.lastIndex kind = some i) : i = th.passed kind := by
  cases hpc : th.pc with
  | waiting | release =>
    simp only [Thread.lastIndex, hpc, Option.ite_none_right_eq_some, Option.some.injEq] at h
    simp [Thread.passed, hpc, h.1, ← h.2]
  | outside => simp [Thread.lastIndex, hpc] at h
  | get | alloc | initDone | inside | stored | lastFree | reading | copied | ending | freeLast =>
    simp only [Thread.lastIndex, hpc, Option.some.injEq] at h
    simp [Thread.passed, hpc, ← h]

theorem countOk_le {th : Thread} {linked top : ℕ} (h : th.CountOk linked top) (hle : linked ≤ top) : th.count ≤ top := by
  cases hpc : th.pc <;> simp only [Thread.CountOk, hpc] at h <;> omega

theorem countOk_of_not_creating {th : Thread} {linked top : ℕ} (hc : th.creating = false) :
    th.CountOk linked top ↔ th.count ≤ linked := by
  cases hpc : th.pc <;> simp_all [Thread.CountOk, Thread.creating]

end Thread

/-- How many threads have ended construct `k`. -/
def numEnded (kind : ℕ → Kind) (s : State n) (k : ℕ) : ℕ :=
  (Finset.univ.filter fun t => decide (k ≤ (s.thr t).level kind) = true).card

theorem numEnded_put (kind : ℕ → Kind) (s s₁ : State n) (t : Fin n) (th : Thread) (hthr : s₁.thr = s.thr) (k : ℕ) :
    numEnded kind (s₁.put t th) k + (decide (k ≤ (s.thr t).level kind)).toNat =
      numEnded kind s k + (decide (k ≤ th.level kind)).toNat := by
  have hcard := card_change (p := fun u => decide (k ≤ ((s₁.put t th).thr u).level kind))
    (q := fun u => decide (k ≤ (s.thr u).level kind)) t fun u hu => by rw [put_other hu, hthr]
  simpa only [put_self, numEnded] using hcard

/-- The invariant of the chain. -/
structure Chain (kind : ℕ → Kind) (s : State n) : Prop where
  freed_le_linked : s.freed ≤ s.linked
  linked_le_top : s.linked ≤ s.top
  inj : ∀ i j, s.freed ≤ i → i ≤ s.top → s.freed ≤ j → j ≤ s.top → s.made i = s.made j → i = j
  used : ∀ b, b ∈ s.used ↔ ∃ j, s.freed ≤ j ∧ j ≤ s.top ∧ s.made j = b
  next : ∀ j, s.freed ≤ j → j < s.linked → s.nextWs (s.made j) = .ptr (s.made (j + 1))
  nextLinked : (s.nextWs (s.made s.linked) = .null ∧ s.top = s.linked ∧ ∀ t, (s.thr t).creating = false) ∨
    (s.nextWs (s.made s.linked) = .owned ∧ ∃ t, (s.thr t).creating = true)
  nextTop : s.linked < s.top → s.nextWs (s.made s.top) = .null
  creators : ∀ t u, (s.thr t).creating = true → (s.thr u).creating = true → t = u
  count : ∀ t, (s.thr t).CountOk s.linked s.top
  workShare : ∀ t, (s.thr t).workShare = s.made (s.thr t).count
  lastWorkShare : ∀ t i, (s.thr t).lastIndex kind = some i → (s.thr t).lastWorkShare = some (s.made i)
  toFree : 0 < s.freed → s.workSharesToFree = some (s.made s.freed)
  freed_le : ∀ t, s.freed ≤ (s.thr t).passed kind
  freed_attained : ∃ t, (s.thr t).passed kind = s.freed
  freeing : ∀ t, (s.thr t).pc = .freeLast → ∀ u, (s.thr t).count ≤ (s.thr u).level kind
  freeingUnique : ∀ t u, (s.thr t).pc = .freeLast → (s.thr u).pc = .freeLast → t = u
  completed : ∀ k, s.freed < k → k ≤ s.top → kind k ≠ Kind.wait → s.threadsCompleted (s.made k) = numEnded kind s k

variable {kind : ℕ → Kind} {s s₁ : State n} {t : Fin n} {th : Thread}

theorem chain_init [NeZero n] : Chain kind (init n) where
  freed_le_linked := le_rfl
  linked_le_top := le_rfl
  inj i j _ hi _ hj _ := by
    have hi' : i ≤ 0 := hi
    have hj' : j ≤ 0 := hj
    omega
  used b := by
    constructor
    · intro hb
      exact ⟨0,le_rfl,le_rfl,(Finset.mem_singleton.mp hb).symm⟩
    · rintro ⟨j,-,-,rfl⟩
      exact Finset.mem_singleton_self 0
  next j _ hj := absurd hj (Nat.not_lt_zero j)
  nextLinked := Or.inl ⟨rfl,rfl,fun _ => rfl⟩
  nextTop h := absurd h (Nat.lt_irrefl 0)
  creators t u ht := by cases ht
  count _ := le_rfl
  workShare _ := rfl
  lastWorkShare t i h := by cases h
  toFree h := absurd h (Nat.lt_irrefl 0)
  freed_le _ := le_rfl
  freed_attained := ⟨0,rfl⟩
  freeing t h := by cases h
  freeingUnique t u h := by cases h
  completed k hk hk' := absurd hk (Nat.not_lt.mpr hk')

/-- The two states have the same chain and the same threads. -/
structure SameChain (s s₁ : State n) : Prop where
  thr : s₁.thr = s.thr
  nextWs : s₁.nextWs = s.nextWs
  used : s₁.used = s.used
  toFree : s₁.workSharesToFree = s.workSharesToFree
  made : s₁.made = s.made
  top : s₁.top = s.top
  linked : s₁.linked = s.linked
  freed : s₁.freed = s.freed

theorem SameChain.refl (s : State n) : SameChain s s := ⟨rfl,rfl,rfl,rfl,rfl,rfl,rfl,rfl⟩

/-- A thread that moves between places of the same progress leaves what the freeing needs as it is. -/
theorem Chain.same_progress (h : Chain kind s) (s₁ : State n) (t : Fin n) (th : Thread) (hthr : s₁.thr = s.thr)
    (hpassed : th.passed kind = (s.thr t).passed kind) (hlevel : th.level kind = (s.thr t).level kind)
    (hpc : th.pc ≠ .freeLast) :
    (∀ u, s.freed ≤ ((s₁.put t th).thr u).passed kind) ∧ (∃ u, ((s₁.put t th).thr u).passed kind = s.freed) ∧
      (∀ u, ((s₁.put t th).thr u).pc = .freeLast →
        ∀ w, ((s₁.put t th).thr u).count ≤ ((s₁.put t th).thr w).level kind) ∧
      (∀ u w, ((s₁.put t th).thr u).pc = .freeLast → ((s₁.put t th).thr w).pc = .freeLast → u = w) ∧
      ∀ k, numEnded kind (s₁.put t th) k = numEnded kind s k := by
  have hps : ∀ u, ((s₁.put t th).thr u).passed kind = (s.thr u).passed kind :=
    forall_put (p := fun u x => x.passed kind = (s.thr u).passed kind) hpassed fun u _ => by rw [hthr]
  have hlv : ∀ u, ((s₁.put t th).thr u).level kind = (s.thr u).level kind :=
    forall_put (p := fun u x => x.level kind = (s.thr u).level kind) hlevel fun u _ => by rw [hthr]
  have hfr : ∀ u, ((s₁.put t th).thr u).pc = .freeLast → (s.thr u).pc = .freeLast ∧
      ((s₁.put t th).thr u).count = (s.thr u).count :=
    forall_put (p := fun u x => x.pc = .freeLast → (s.thr u).pc = .freeLast ∧ x.count = (s.thr u).count)
      (fun hx => absurd hx hpc) fun u _ hx => by rw [hthr] at hx ⊢; exact ⟨hx,rfl⟩
  refine ⟨by simpa [hps] using h.freed_le,by simpa [hps] using h.freed_attained,fun u hu w => ?_,fun u w hu hw => ?_,
    fun k => by simp only [numEnded, hlv]⟩
  · rw [(hfr u hu).2, hlv]
    exact h.freeing u (hfr u hu).1 w
  · exact h.freeingUnique u w (hfr u hu).1 (hfr w hw).1

/-- A step that leaves the work shares alone and brings its thread no further. -/
theorem Chain.move (h : Chain kind s) (hsame : SameChain s s₁) (hcompleted : s₁.threadsCompleted = s.threadsCompleted)
    (hcreating : th.creating = (s.thr t).creating) (hcount : th.CountOk s.linked s.top)
    (hws : th.workShare = s.made th.count)
    (hlast : ∀ i, th.lastIndex kind = some i → th.lastWorkShare = some (s.made i))
    (hpassed : th.passed kind = (s.thr t).passed kind) (hlevel : th.level kind = (s.thr t).level kind)
    (hpc : th.pc ≠ .freeLast) : Chain kind (s₁.put t th) := by
  obtain ⟨hthr,hnext,hused,htoFree,hmade,htop,hlinked,hfreed⟩ := hsame
  have hcr : ∀ u, ((s₁.put t th).thr u).creating = (s.thr u).creating :=
    forall_put (p := fun u x => x.creating = (s.thr u).creating) hcreating fun u _ => by rw [hthr]
  obtain ⟨hle,hatt,hfreeing,hunique,hnum⟩ := h.same_progress s₁ t th hthr hpassed hlevel hpc
  constructor
  case freed_le_linked => simpa [hfreed, hlinked] using h.freed_le_linked
  case linked_le_top => simpa [htop, hlinked] using h.linked_le_top
  case inj => simpa [hfreed, htop, hmade] using h.inj
  case used => simpa [hfreed, htop, hmade, hused] using h.used
  case next => simpa [hfreed, hlinked, hmade, hnext] using h.next
  case nextLinked => simpa [hcr, hlinked, hmade, hnext, htop] using h.nextLinked
  case nextTop => simpa [htop, hlinked, hmade, hnext] using h.nextTop
  case creators => simpa [hcr] using h.creators
  case count =>
    rw [put_linked, put_top, hlinked, htop]
    exact forall_put (p := fun _ x => x.CountOk s.linked s.top) hcount fun u _ => by rw [hthr]; exact h.count u
  case workShare =>
    rw [put_made, hmade]
    exact forall_put (p := fun _ x => x.workShare = s.made x.count) hws fun u _ => by rw [hthr]; exact h.workShare u
  case lastWorkShare =>
    rw [put_made, hmade]
    exact forall_put (p := fun _ x => ∀ i, x.lastIndex kind = some i → x.lastWorkShare = some (s.made i)) hlast
      fun u _ => by rw [hthr]; exact h.lastWorkShare u
  case toFree => simpa [hfreed, htoFree, hmade] using h.toFree
  case freed_le => simpa [hfreed] using hle
  case freed_attained => simpa [hfreed] using hatt
  case freeing => exact hfreeing
  case freeingUnique => exact hunique
  case completed => simpa [hnum, hfreed, htop, hmade, hcompleted] using h.completed

/-- A step that ends construct `k` for its thread. -/
theorem Chain.advance (h : Chain kind s) (hsame : SameChain s s₁) {k : ℕ} (hk : 1 ≤ k) (hcount : (s.thr t).count = k)
    (hlevel : (s.thr t).level kind = k - 1) (hcreating : (s.thr t).creating = false) (hcount' : th.count = k)
    (hlevel' : th.level kind = k) (hcreating' : th.creating = false) (hws : th.workShare = (s.thr t).workShare)
    (hlast : ∀ i, th.lastIndex kind = some i → th.lastWorkShare = some (s.made i))
    (hother : ∀ j, s.freed < j → j ≤ s.top → kind j ≠ Kind.wait → j ≠ k →
      s₁.threadsCompleted (s.made j) = s.threadsCompleted (s.made j))
    (hthis : kind k ≠ Kind.wait → s₁.threadsCompleted (s.made k) = s.threadsCompleted (s.made k) + 1)
    (hpassed : th.passed kind = k - 1 ∨ ∃ w, w ≠ t ∧ (s.thr w).passed kind ≤ k - 1)
    (hfreeing : th.pc = .freeLast → ∀ u, u ≠ t → k ≤ (s.thr u).level kind ∧ (s.thr u).pc ≠ .freeLast) :
    Chain kind (s₁.put t th) := by
  obtain ⟨hthr,hnext,hused,htoFree,hmade,htop,hlinked,hfreed⟩ := hsame
  have hold : (s.thr t).passed kind = k - 1 := by
    have h1 := passed_le_level kind (s.thr t)
    have h2 := count_le_passed kind (s.thr t)
    omega
  have hnew := passed_cases kind th
  have hpassed_le : (s.thr t).passed kind ≤ th.passed kind := by clear hpassed; omega
  have hlevel_le : (s.thr t).level kind ≤ th.level kind := by clear hpassed; omega
  have hcr : ∀ u, ((s₁.put t th).thr u).creating = (s.thr u).creating :=
    forall_put (p := fun u x => x.creating = (s.thr u).creating) (hcreating'.trans hcreating.symm)
      fun u _ => by rw [hthr]
  have hps : ∀ u, (s.thr u).passed kind ≤ ((s₁.put t th).thr u).passed kind :=
    forall_put (p := fun u x => (s.thr u).passed kind ≤ x.passed kind) hpassed_le fun u _ => by rw [hthr]
  have hlv : ∀ u, (s.thr u).level kind ≤ ((s₁.put t th).thr u).level kind :=
    forall_put (p := fun u x => (s.thr u).level kind ≤ x.level kind) hlevel_le fun u _ => by rw [hthr]
  constructor
  case freed_le_linked => simpa [hfreed, hlinked] using h.freed_le_linked
  case linked_le_top => simpa [htop, hlinked] using h.linked_le_top
  case inj => simpa [hfreed, htop, hmade] using h.inj
  case used => simpa [hfreed, htop, hmade, hused] using h.used
  case next => simpa [hfreed, hlinked, hmade, hnext] using h.next
  case nextLinked => simpa [hcr, hlinked, hmade, hnext, htop] using h.nextLinked
  case nextTop => simpa [htop, hlinked, hmade, hnext] using h.nextTop
  case creators => simpa [hcr] using h.creators
  case count =>
    rw [put_linked, put_top, hlinked, htop]
    refine forall_put (p := fun _ x => x.CountOk s.linked s.top) ?_ fun u _ => by rw [hthr]; exact h.count u
    rw [countOk_of_not_creating hcreating', hcount', ← hcount]
    exact (countOk_of_not_creating hcreating).mp (h.count t)
  case workShare =>
    rw [put_made, hmade]
    refine forall_put (p := fun _ x => x.workShare = s.made x.count) ?_ fun u _ => by rw [hthr]; exact h.workShare u
    rw [hws, h.workShare t, hcount, hcount']
  case lastWorkShare =>
    rw [put_made, hmade]
    exact forall_put (p := fun _ x => ∀ i, x.lastIndex kind = some i → x.lastWorkShare = some (s.made i)) hlast
      fun u _ => by rw [hthr]; exact h.lastWorkShare u
  case toFree => simpa [hfreed, htoFree, hmade] using h.toFree
  case freed_le =>
    intro u
    rw [put_freed, hfreed]
    exact (h.freed_le u).trans (hps u)
  case freed_attained =>
    obtain ⟨x,hx⟩ := h.freed_attained
    rw [put_freed, hfreed]
    by_cases hxt : x = t
    · -- the thread was a slowest one: it still is, or another one is as slow
      subst hxt
      rcases hpassed with hp | ⟨w,hw,hp⟩
      · exact ⟨x,by rw [put_self]; omega⟩
      · refine ⟨w,?_⟩
        have hle := h.freed_le w
        rw [put_other hw, hthr]
        omega
    · exact ⟨x,by rw [put_other hxt, hthr]; exact hx⟩
  case freeing =>
    have hall : ∀ u, ((s₁.put t th).thr u).pc = .freeLast →
        ∀ w, ((s₁.put t th).thr u).count ≤ ((s₁.put t th).thr w).level kind := by
      refine forall_put (p := fun _ x => x.pc = .freeLast → ∀ w, x.count ≤ ((s₁.put t th).thr w).level kind) ?_ ?_
      · intro hpc
        refine forall_put (p := fun _ x => th.count ≤ x.level kind) (by omega) fun w hw => ?_
        rw [hthr, hcount']
        exact (hfreeing hpc w hw).1
      · intro u _ hpc w
        rw [hthr] at hpc ⊢
        exact (h.freeing u hpc w).trans (hlv w)
    exact hall
  case freeingUnique =>
    intro u w hu hw
    by_cases hut : u = t <;> by_cases hwt : w = t
    · rw [hut, hwt]
    · subst hut
      rw [put_self] at hu
      rw [put_other hwt, hthr] at hw
      exact absurd hw (hfreeing hu w hwt).2
    · subst hwt
      rw [put_self] at hw
      rw [put_other hut, hthr] at hu
      exact absurd hu (hfreeing hw u hut).2
    · rw [put_other hut, hthr] at hu
      rw [put_other hwt, hthr] at hw
      exact h.freeingUnique u w hu hw
  case completed =>
    clear hpassed
    intro j hj hjtop hjkind
    rw [put_freed, hfreed] at hj
    rw [put_top, htop] at hjtop
    have hnum := numEnded_put kind s s₁ t th hthr j
    have heq := h.completed j hj hjtop hjkind
    rw [put_threadsCompleted, put_made, hmade]
    rw [hlevel, hlevel'] at hnum
    by_cases hjk : j = k
    · subst hjk
      rw [hthis hjkind, heq]
      have h1 : ¬(j ≤ j - 1) := by omega
      simp only [h1, decide_false, le_refl, decide_true, Bool.toNat_true, Bool.toNat_false] at hnum
      omega
    · rw [hother j hj hjtop hjkind hjk, heq]
      have h1 : (j ≤ k - 1) ↔ j ≤ k := by omega
      simp only [h1] at hnum
      omega

/-- When all others have ended the construct, the work share before it is the oldest one. -/
theorem Chain.freed_eq (h : Chain kind s) {k : ℕ} (hk : 1 ≤ k) (hlastIndex : (s.thr t).lastIndex kind = some (k - 1))
    (hothers : ∀ u, u ≠ t → k ≤ (s.thr u).passed kind) : s.freed = k - 1 := by
  have hold := lastIndex_passed hlastIndex
  have hle := h.freed_le t
  obtain ⟨x,hx⟩ := h.freed_attained
  by_cases hxt : x = t
  · subst hxt
    omega
  · have hge := hothers x hxt
    omega

/-- The step that frees the oldest work share. -/
theorem Chain.free (h : Chain kind s) {k : ℕ} (hk : 1 ≤ k) (hcount : (s.thr t).count = k)
    (hcreating : (s.thr t).creating = false) (hlevel : (s.thr t).level kind = k)
    (hlastIndex : (s.thr t).lastIndex kind = some (k - 1)) (hothers : ∀ u, u ≠ t → k ≤ (s.thr u).passed kind)
    (hcount' : th.count = k) (hpassed' : th.passed kind = k) (hcreating' : th.creating = false)
    (hws : th.workShare = (s.thr t).workShare) (hlast' : th.lastIndex kind = none) (hpc : th.pc ≠ .freeLast) :
    Chain kind ((freeWorkShare s t).put t th) := by
  have hfreed := h.freed_eq hk hlastIndex hothers
  have hlinked : k ≤ s.linked := hcount ▸ (countOk_of_not_creating hcreating).mp (h.count t)
  have htop := h.linked_le_top
  have hlevel' : th.level kind = k := by
    have h1 := passed_le_level kind th
    have h2 := level_le_count kind th
    omega
  have heq : freeWorkShare s t = { s with
      workSharesToFree := some (s.made k), used := s.used.erase (s.made s.freed), freed := s.freed + 1 } := by
    unfold freeWorkShare
    rw [h.lastWorkShare t _ hlastIndex, h.workShare t, hcount, hfreed]
  rw [heq]
  have hlv : ∀ u, (({ s with
      workSharesToFree := some (s.made k), used := s.used.erase (s.made s.freed), freed := s.freed + 1 }.put t th).thr
        u).level kind = (s.thr u).level kind :=
    forall_put (p := fun u x => x.level kind = (s.thr u).level kind) (hlevel'.trans hlevel.symm) fun u _ => rfl
  have hcr : ∀ u, (({ s with
      workSharesToFree := some (s.made k), used := s.used.erase (s.made s.freed), freed := s.freed + 1 }.put t th).thr
        u).creating = (s.thr u).creating :=
    forall_put (p := fun u x => x.creating = (s.thr u).creating) (hcreating'.trans hcreating.symm) fun u _ => rfl
  have hfr : ∀ u, (({ s with
      workSharesToFree := some (s.made k), used := s.used.erase (s.made s.freed), freed := s.freed + 1 }.put t th).thr
        u).pc = .freeLast → u ≠ t := by
    rintro u hu rfl
    rw [put_self] at hu
    exact hpc hu
  constructor
  case freed_le_linked => simp only [put_freed, put_linked]; omega
  case linked_le_top => exact htop
  case inj => exact fun i j hi hi' hj hj' => h.inj i j (by simp at hi; omega) hi' (by simp at hj; omega) hj'
  case used =>
    intro b
    simp only [put_used, put_freed, put_top, put_made, Finset.mem_erase, h.used b]
    constructor
    · rintro ⟨hb,j,hj,hj',rfl⟩
      have hne : j ≠ s.freed := fun e => hb (by rw [e])
      exact ⟨j,by omega,hj',rfl⟩
    · rintro ⟨j,hj,hj',rfl⟩
      refine ⟨fun e => ?_,j,by omega,hj',rfl⟩
      have := h.inj j s.freed (by omega) hj' le_rfl (by omega) e
      omega
  case next => exact fun j hj hj' => h.next j (by simp at hj; omega) hj'
  case nextLinked => simpa [hcr] using h.nextLinked
  case nextTop => exact h.nextTop
  case creators => simpa [hcr] using h.creators
  case count =>
    refine forall_put (p := fun _ x => x.CountOk s.linked s.top) ?_ fun u _ => h.count u
    rw [countOk_of_not_creating hcreating', hcount']
    exact hlinked
  case workShare =>
    refine forall_put (p := fun _ x => x.workShare = s.made x.count) ?_ fun u _ => h.workShare u
    rw [hws, h.workShare t, hcount, hcount']
  case lastWorkShare =>
    exact forall_put (p := fun _ x => ∀ i, x.lastIndex kind = some i → x.lastWorkShare = some (s.made i))
      (fun i hi => by rw [hlast'] at hi; cases hi) fun u _ => h.lastWorkShare u
  case toFree =>
    intro _
    have hk' : s.freed + 1 = k := by omega
    simp [hk']
  case freed_le =>
    refine forall_put (p := fun _ x => s.freed + 1 ≤ x.passed kind) (by omega) fun u hu => ?_
    have := hothers u hu
    change s.freed + 1 ≤ (s.thr u).passed kind
    omega
  case freed_attained => exact ⟨t,by rw [put_self, put_freed, hpassed']; simp only; omega⟩
  case freeing =>
    intro u hu w
    have hut := hfr u hu
    rw [hlv, put_other hut]
    rw [put_other hut] at hu
    exact h.freeing u hu w
  case freeingUnique =>
    intro u w hu hw
    have hut := hfr u hu
    have hwt := hfr w hw
    rw [put_other hut] at hu
    rw [put_other hwt] at hw
    exact h.freeingUnique u w hu hw
  case completed =>
    intro j hj hjtop hjkind
    have hj' : s.freed + 1 < j := hj
    have hold := h.completed j (by omega) hjtop hjkind
    simp only [put_threadsCompleted, put_made, numEnded, hlv]
    exact hold

/-! ## Making the next work share -/

/-- A thread that finds no pointer stands at the newest work share, and nobody else makes the next one. -/
theorem Chain.at_top (h : Chain kind s) (hpc : (s.thr t).pc = .get) (hnull : s.nextWs (s.thr t).workShare = .null) :
    (s.thr t).count = s.linked ∧ s.top = s.linked ∧ ∀ u, (s.thr u).creating = false := by
  have hcreating : (s.thr t).creating = false := by simp [Thread.creating, hpc]
  have hle := (countOk_of_not_creating hcreating).mp (h.count t)
  have hfreed : s.freed ≤ (s.thr t).count := by simpa [Thread.passed, hpc] using h.freed_le t
  have hcount : (s.thr t).count = s.linked := by
    by_contra hne
    have hptr := h.next _ hfreed (by omega)
    rw [← h.workShare t, hnull] at hptr
    cases hptr
  refine ⟨hcount,?_⟩
  rcases h.nextLinked with ⟨-,htop,hno⟩ | ⟨howned,-⟩
  · exact ⟨htop,hno⟩
  · rw [← hcount, ← h.workShare t, hnull] at howned
    cases howned

theorem chain_own (h : Chain kind s) (hpc : (s.thr t).pc = .get) (hnull : s.nextWs (s.thr t).workShare = .null) :
    Chain kind ({ s with nextWs := Function.update s.nextWs (s.thr t).workShare .owned }.put t
      { s.thr t with pc := .alloc }) := by
  obtain ⟨hcount,htop,hno⟩ := h.at_top hpc hnull
  have hws := h.workShare t
  rw [hcount] at hws
  obtain ⟨hle,hatt,hfreeing,hunique,hnum⟩ := h.same_progress
    { s with nextWs := Function.update s.nextWs (s.thr t).workShare .owned } t { s.thr t with pc := .alloc } rfl
    (by simp [Thread.passed, hpc]) (by simp [Thread.level, Thread.passed, hpc]) (by simp)
  have hfl := h.freed_le_linked
  constructor
  case freed_le_linked => exact hfl
  case linked_le_top => exact h.linked_le_top
  case inj => exact h.inj
  case used => exact h.used
  case next =>
    intro j hj hj'
    have hj'' : j < s.linked := hj'
    have hne : s.made j ≠ (s.thr t).workShare := by
      intro e
      have := h.inj j s.linked hj (by omega) hfl (by omega) (e.trans hws)
      omega
    exact (Function.update_of_ne hne _ _).trans (h.next j hj hj')
  case nextLinked =>
    refine Or.inr ⟨?_,t,by rw [put_self]; rfl⟩
    simp [hws]
  case nextTop =>
    intro hlt
    simp only [put_linked, put_top] at hlt
    omega
  case creators =>
    have hself : ∀ u, (({ s with nextWs := Function.update s.nextWs (s.thr t).workShare .owned }.put t
        { s.thr t with pc := .alloc }).thr u).creating = true → u = t :=
      forall_put (p := fun u x => x.creating = true → u = t) (fun _ => rfl) fun u _ hu => absurd hu (by simp [hno u])
    exact fun u w hu hw => (hself u hu).trans (hself w hw).symm
  case count => exact forall_put (p := fun _ x => x.CountOk s.linked s.top) ⟨hcount,htop⟩ fun u _ => h.count u
  case workShare => exact forall_put (p := fun _ x => x.workShare = s.made x.count) (h.workShare t) fun u _ => h.workShare u
  case lastWorkShare =>
    refine forall_put (p := fun _ x => ∀ i, x.lastIndex kind = some i → x.lastWorkShare = some (s.made i)) (fun i hi => ?_)
      fun u _ => h.lastWorkShare u
    exact h.lastWorkShare t i (by simpa [Thread.lastIndex, hpc] using hi)
  case toFree => exact h.toFree
  case freed_le => exact hle
  case freed_attained => exact hatt
  case freeing => exact hfreeing
  case freeingUnique => exact hunique
  case completed => exact fun k hk hk' hkind => (h.completed k hk hk' hkind).trans (hnum k).symm

/-- Nobody is in the construct that the new work share is for. -/
theorem Chain.alone (h : Chain kind s) (hcreating : (s.thr t).creating = true) {u : Fin n} (hu : u ≠ t) :
    (s.thr u).creating = false ∧ (s.thr u).count ≤ s.linked := by
  have hno : (s.thr u).creating = false := by
    by_contra hne
    exact hu (h.creators u t (by simpa using hne) hcreating)
  exact ⟨hno,(countOk_of_not_creating hno).mp (h.count u)⟩

theorem chain_alloc (h : Chain kind s) (hpc : (s.thr t).pc = .alloc) {b : ℕ} (hb : b ∉ s.used) :
    Chain kind ((newWorkShare s t b).put t
      { s.thr t with workShare := b, count := (s.thr t).count + 1, pc := .initDone }) := by
  have hcreating : (s.thr t).creating = true := by simp [Thread.creating, hpc]
  obtain ⟨hcount,htop⟩ : (s.thr t).count = s.linked ∧ s.top = s.linked := by
    simpa [Thread.CountOk, hpc] using h.count t
  have hfl := h.freed_le_linked
  obtain ⟨hle,hatt,hfreeing,hunique,hnum⟩ := h.same_progress (newWorkShare s t b) t
    { s.thr t with workShare := b, count := (s.thr t).count + 1, pc := .initDone } rfl
    (by simp [Thread.passed, hpc]) (by simp [Thread.level, Thread.passed, hpc]) (by simp)
  -- the new block is none of the live ones
  have hlive : ∀ j, s.freed ≤ j → j ≤ s.top → s.made j ≠ b := fun j hj hj' e =>
    hb ((h.used b).mpr ⟨j,hj,hj',e⟩)
  have hmade : ∀ j, j ≤ s.top → (newWorkShare s t b).made j = s.made j := fun j hj =>
    Function.update_of_ne (by omega) _ _
  have hmade' : (newWorkShare s t b).made (s.top + 1) = b := Function.update_self ..
  have hnext : ∀ j, s.freed ≤ j → j ≤ s.top → (newWorkShare s t b).nextWs (s.made j) = s.nextWs (s.made j) :=
    fun j hj hj' => Function.update_of_ne (hlive j hj hj') _ _
  have hothers : ∀ u, u ≠ t → (s.thr u).count ≤ s.top := fun u hu => htop ▸ (h.alone hcreating hu).2
  constructor
  case freed_le_linked => exact hfl
  case linked_le_top => exact h.linked_le_top.trans (Nat.le_succ _)
  case inj =>
    intro i j hi hi' hj hj' e
    have hi'' : i ≤ s.top + 1 := hi'
    have hj'' : j ≤ s.top + 1 := hj'
    rw [put_made] at e
    rcases Nat.lt_or_eq_of_le hi'' with hi'' | rfl <;> rcases Nat.lt_or_eq_of_le hj'' with hj'' | rfl
    · rw [hmade i (by omega), hmade j (by omega)] at e
      exact h.inj i j hi (by omega) hj (by omega) e
    · rw [hmade i (by omega), hmade'] at e
      exact absurd e (hlive i hi (by omega))
    · rw [hmade j (by omega), hmade'] at e
      exact absurd e.symm (hlive j hj (by omega))
    · rfl
  case used =>
    intro c
    have hmem : c ∈ (newWorkShare s t b).used ↔ c = b ∨ c ∈ s.used := Finset.mem_insert
    rw [put_used, put_made, put_top, put_freed, hmem, h.used c]
    constructor
    · rintro (rfl | ⟨j,hj,hj',rfl⟩)
      · exact ⟨s.top + 1,by change s.freed ≤ _; omega,le_rfl,hmade'⟩
      · exact ⟨j,hj,by change j ≤ s.top + 1; omega,hmade j hj'⟩
    · rintro ⟨j,hj,hj',rfl⟩
      have hj'' : j ≤ s.top + 1 := hj'
      rcases Nat.lt_or_eq_of_le hj'' with hj'' | rfl
      · exact Or.inr ⟨j,hj,by omega,(hmade j (by omega)).symm⟩
      · exact Or.inl hmade'
  case next =>
    intro j hj hj'
    have hj'' : j < s.linked := hj'
    rw [put_made, put_nextWs, hmade j (by omega), hmade (j + 1) (by omega), hnext j hj (by omega)]
    exact h.next j hj hj'
  case nextLinked =>
    refine Or.inr ⟨?_,t,by rw [put_self]; rfl⟩
    rcases h.nextLinked with ⟨-,-,hno⟩ | ⟨howned,-⟩
    · exact absurd hcreating (by simp [hno t])
    · change (newWorkShare s t b).nextWs ((newWorkShare s t b).made s.linked) = _
      rw [hmade _ (by omega), hnext _ hfl (by omega)]
      exact howned
  case nextTop =>
    intro _
    change (newWorkShare s t b).nextWs ((newWorkShare s t b).made (s.top + 1)) = _
    rw [hmade']
    exact Function.update_self ..
  case creators =>
    have hself : ∀ u, (((newWorkShare s t b).put t
        { s.thr t with workShare := b, count := (s.thr t).count + 1, pc := .initDone }).thr u).creating = true → u = t :=
      forall_put (p := fun u x => x.creating = true → u = t) (fun _ => rfl) fun u hu hc =>
        absurd hc (by simp [newWorkShare, (h.alone hcreating hu).1])
    exact fun u w hu hw => (hself u hu).trans (hself w hw).symm
  case count =>
    refine forall_put (p := fun _ x => x.CountOk s.linked (s.top + 1)) ⟨?_,?_⟩ fun u hu => ?_
    · simp only
      omega
    · omega
    · exact (countOk_of_not_creating (h.alone hcreating hu).1).mpr (h.alone hcreating hu).2
  case workShare =>
    refine forall_put (p := fun _ x => x.workShare = (newWorkShare s t b).made x.count) ?_ fun u hu => ?_
    · rw [hcount, ← htop, hmade']
    · exact (h.workShare u).trans (hmade _ (hothers u hu)).symm
  case lastWorkShare =>
    refine forall_put (p := fun _ x => ∀ i, x.lastIndex kind = some i →
      x.lastWorkShare = some ((newWorkShare s t b).made i)) (fun i hi => ?_) fun u hu i hi => ?_
    · have hi' : (s.thr t).lastIndex kind = some i := by simpa [Thread.lastIndex, hpc] using hi
      have hle := lastIndex_passed hi'
      have hcnt := level_le_count kind (s.thr t)
      have hpl := passed_le_level kind (s.thr t)
      rw [hmade i (by omega)]
      exact h.lastWorkShare t i hi'
    · have hle := lastIndex_passed hi
      have hcnt := level_le_count kind (s.thr u)
      have hpl := passed_le_level kind (s.thr u)
      have hu' := hothers u hu
      change i = (s.thr u).passed kind at hle
      rw [hmade i (by omega)]
      exact h.lastWorkShare u i hi
  case toFree =>
    intro hpos
    change s.workSharesToFree = some ((newWorkShare s t b).made s.freed)
    rw [hmade _ (by omega)]
    exact h.toFree hpos
  case freed_le => exact hle
  case freed_attained => exact hatt
  case freeing => exact hfreeing
  case freeingUnique => exact hunique
  case completed =>
    intro k hk hk' hkind
    have hk'' : k ≤ s.top + 1 := hk'
    rw [put_threadsCompleted, put_made, hnum k]
    rcases Nat.lt_or_eq_of_le hk'' with hk'' | rfl
    · rw [hmade k (by omega), ← h.completed k hk (by omega) hkind]
      exact Function.update_of_ne (hlive k (Nat.le_of_lt hk) (by omega)) _ _
    · -- nobody has ended the construct that begins
      have hzero : numEnded kind s (s.top + 1) = 0 := by
        unfold numEnded
        rw [Finset.card_eq_zero, Finset.filter_eq_empty_iff]
        intro u _ hu
        have hlv := level_le_count kind (s.thr u)
        have hcnt := countOk_le (h.count u) h.linked_le_top
        simp only [decide_eq_true_eq] at hu
        omega
      rw [hmade', hzero]
      exact Function.update_self ..

theorem chain_initDone (h : Chain kind s) (hpc : (s.thr t).pc = .initDone) :
    Chain kind ((initDone s t).put t { s.thr t with pc := .inside true }) := by
  have hcreating : (s.thr t).creating = true := by simp [Thread.creating, hpc]
  obtain ⟨hcount,htop⟩ : (s.thr t).count = s.linked + 1 ∧ s.top = s.linked + 1 := by
    simpa [Thread.CountOk, hpc] using h.count t
  have hfl := h.freed_le_linked
  have hlastIndex : (s.thr t).lastIndex kind = some s.linked := by simp [Thread.lastIndex, hpc, hcount]
  have hne : s.made s.top ≠ s.made s.linked := fun e => by
    have := h.inj s.top s.linked (by omega) le_rfl hfl (by omega) e
    omega
  have heq : initDone s t = { s with
      nextWs := Function.update s.nextWs (s.made s.linked) (.ptr (s.made s.top)), linked := s.linked + 1 } := by
    unfold initDone
    rw [h.lastWorkShare t _ hlastIndex, h.workShare t, hcount, htop]
  rw [heq]
  obtain ⟨hle,hatt,hfreeing,hunique,hnum⟩ := h.same_progress { s with
      nextWs := Function.update s.nextWs (s.made s.linked) (.ptr (s.made s.top)), linked := s.linked + 1 } t
    { s.thr t with pc := .inside true } rfl (by simp [Thread.passed, hpc]) (by simp [Thread.level, Thread.passed, hpc])
    (by simp)
  have hno : ∀ u, (({ s with
      nextWs := Function.update s.nextWs (s.made s.linked) (.ptr (s.made s.top)), linked := s.linked + 1 }.put t
        { s.thr t with pc := .inside true }).thr u).creating = false :=
    forall_put (p := fun _ x => x.creating = false) rfl fun u hu => (h.alone hcreating hu).1
  constructor
  case freed_le_linked => exact hfl.trans (Nat.le_succ _)
  case linked_le_top => exact htop.ge
  case inj => exact h.inj
  case used => exact h.used
  case next =>
    intro j hj hj'
    have hj'' : j < s.linked + 1 := hj'
    rcases Nat.lt_or_eq_of_le (Nat.le_of_lt_succ hj'') with hlt | rfl
    · have hnej : s.made j ≠ s.made s.linked := fun e => by
        have := h.inj j s.linked hj (by omega) hfl (by omega) e
        omega
      exact (Function.update_of_ne hnej _ _).trans (h.next j hj hlt)
    · simp [htop]
  case nextLinked =>
    refine Or.inl ⟨?_,htop,hno⟩
    change Function.update s.nextWs (s.made s.linked) (.ptr (s.made s.top)) (s.made (s.linked + 1)) = _
    rw [← htop, Function.update_of_ne hne]
    exact h.nextTop (by omega)
  case nextTop =>
    intro hlt
    simp only [put_linked, put_top] at hlt
    omega
  case creators => exact fun u _ hu => absurd hu (by simp [hno u])
  case count =>
    refine forall_put (p := fun _ x => x.CountOk (s.linked + 1) s.top) ?_ fun u hu => ?_
    · exact hcount.le
    · have halone := h.alone hcreating hu
      exact (countOk_of_not_creating halone.1).mpr (halone.2.trans (Nat.le_succ _))
  case workShare => exact forall_put (p := fun _ x => x.workShare = s.made x.count) (h.workShare t) fun u _ => h.workShare u
  case lastWorkShare =>
    refine forall_put (p := fun _ x => ∀ i, x.lastIndex kind = some i → x.lastWorkShare = some (s.made i)) (fun i hi => ?_)
      fun u _ => h.lastWorkShare u
    exact h.lastWorkShare t i (by simpa [Thread.lastIndex, hpc] using hi)
  case toFree => exact h.toFree
  case freed_le => exact hle
  case freed_attained => exact hatt
  case freeing => exact hfreeing
  case freeingUnique => exact hunique
  case completed => exact fun k hk hk' hkind => (h.completed k hk hk' hkind).trans (hnum k).symm

end GompUlt.WorkShareChain
