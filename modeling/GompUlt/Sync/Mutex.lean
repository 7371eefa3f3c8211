import Mathlib
import GompUlt.Sync.Wait

/-! # The futex mutex

The word is 0 when the mutex is free, 1 when it is locked and -1 when it is locked and threads may
wait for it.
-/
namespace GompUlt.Mutex
open Run Futex Wait

/-- Where a thread stands: outside, in `gomp_mutex_lock`, `gomp_mutex_trylock`, one of the two loops of
`gomp_mutex_lock_slow`, between lock and unlock, or in `gomp_mutex_unlock_slow`. -/
inductive Pc where
  | outside
  | lock
  | trylock
  | spin (i : ℕ)
  | setWaiting
  | waitFirst
  | retry
  | exchange
  | doWait (i : ℕ)
  | wait
  | locked
  | unlockSlow
deriving DecidableEq, Repr

variable (v : SpinVars)

/-- Entry of `gomp_mutex_lock_slow`, and the test of its first loop. -/
def lockSlow (oldval : ℤ) (input : ℕ) : Pc := if oldval = 1 then .spin (v.count input) else .exchange

/-- The next access of a thread to the word.  The input picks the call an outside thread makes, and
the spin count. -/
def code : Pc → Action ℤ Pc
  | .outside => .access fun input m => (m,if input = 0 then .lock else .trylock)
  | .lock => .access fun input m => if m = 0 then (1,.locked) else (m,lockSlow v m input)
  | .trylock => .access fun _ m => if m = 0 then (1,.locked) else (m,.outside)
  | .spin i => doSpin id 1 .spin .retry .setWaiting i
  | .setWaiting => .access fun _ m => if m = 0 then (-1,.locked) else (-1,.waitFirst)
  | .waitFirst => .wait (fun m => m == -1) .exchange
  | .retry => .access fun input m => if m = 0 then (1,.locked) else (m,lockSlow v m input)
  | .exchange => .access fun input m => if m = 0 then (-1,.locked) else (-1,.doWait (v.count input))
  | .doWait i => doSpin id (-1) .doWait .exchange .wait i
  | .wait => .wait (fun m => m == -1) .exchange
  | .locked => .access fun _ m => if m < 0 then (0,.unlockSlow) else (0,.outside)
  | .unlockSlow => .wake 1 .outside

variable (ι : Type*)

/-- `gomp_mutex_init`. -/
def init : State ι ℤ Pc where
  mem := 0
  pc _ := .outside
  asleep := ∅

variable {ι}

/-- A thread that sleeps on this mutex sets the waiting flag again when it goes on, and wakes the next
thread when it unlocks; so does a thread about to wake one. -/
def Owes (p : Pc) : Prop := p = .exchange ∨ p = .unlockSlow

theorem wait_next {p next : Pc} {same : ℤ → Bool} (h : code v p = .wait same next) :
    (same = fun m => m == -1) ∧ p ≠ .locked ∧ next = .exchange := by
  cases p with
  | waitFirst | wait => cases h; simp
  | spin i | doWait i => cases h
  | outside | lock | trylock | setWaiting | retry | exchange | locked | unlockSlow => cases h

theorem wake_next {p next : Pc} {count : ℕ} (h : code v p = .wake count next) :
    p = .unlockSlow ∧ count = 1 ∧ next = .outside := by
  cases p with
  | unlockSlow => cases h; simp
  | spin i | doWait i => cases h
  | outside | lock | trylock | setWaiting | waitFirst | wait | retry | exchange | locked => cases h

theorem exclusive : Exclusive (fun _ : ι => code v) (fun p => p = .locked) (fun m => m = 0) where
  access := by
    intro t p f input m hf
    cases p with
    | spin i =>
      obtain ⟨hm,hp | hp | ⟨j,hp⟩⟩ := doSpin_cases hf input m <;> left <;> simp [hm,hp]
    | doWait i =>
      obtain ⟨hm,hp | hp | ⟨j,hp⟩⟩ := doSpin_cases hf input m <;> left <;> simp [hm,hp]
    | waitFirst | wait | unlockSlow => cases hf
    | outside | lock | trylock | setWaiting | retry | exchange | locked =>
      obtain rfl := Action.access.inj hf
      simp only [lockSlow]
      split_ifs <;> simp_all
  wait := by
    intro t p same next h
    obtain ⟨-,hp,rfl⟩ := wait_next v h
    simp [hp]
  wake := by
    intro t p count next h
    obtain ⟨rfl,-,rfl⟩ := wake_next v h
    simp

theorem owed : Owed (fun _ : ι => code v) (fun m => m = -1) Owes where
  access := by
    intro t p f input m hf h
    cases p with
    | spin i | doWait i =>
      have hm : m = -1 := by simpa [Owes] using h
      exact Or.inl ((doSpin_cases hf input m).1.trans hm)
    | waitFirst | wait | unlockSlow => cases hf
    | outside | lock | trylock | setWaiting | retry | exchange | locked =>
      obtain rfl := Action.access.inj hf
      simp only [Owes] at h ⊢
      split_ifs <;> simp_all
  wait := by
    intro t p same next h
    obtain ⟨rfl,-,rfl⟩ := wait_next v h
    exact ⟨fun m hm => by simpa using hm,fun _ => Or.inl rfl⟩
  wake := by
    refine Or.inl ⟨fun t p count next h => ?_,fun t p same next h => Or.inl (wait_next v h).2.2⟩
    simp [(wake_next v h).2.1]

/-- In every run of any number of threads, at most one thread is between lock and unlock, and the word
is 0 exactly when none is; and a thread sleeps only while the word tells the next unlock to wake one,
or an awake thread is about to set that flag or to wake one. -/
theorem mutex_run {es : List (Event ι)} {s : State ι ℤ Pc} [DecidableEq ι]
    (h : run (step fun _ => code v) (init ι) es = some s) :
    (∀ t u, s.pc t = .locked → s.pc u = .locked → t = u) ∧ (s.mem = 0 ↔ ∀ t, s.pc t ≠ .locked) ∧
      (s.asleep.Nonempty → s.mem = -1 ∨ ∃ t, t ∉ s.asleep ∧ Owes (s.pc t)) := by
  have hinit : HeldBy (fun p => p = Pc.locked) (fun m => m = 0) (init ι) none := by simp [HeldBy, init]
  obtain ⟨holder,hheld⟩ := heldBy_run (exclusive v) ⟨none,hinit⟩ h
  refine ⟨fun t u => hheld.unique,?_,awaited_run (owed v) rfl h⟩
  refine hheld.2.trans ⟨?_,?_⟩
  · rintro rfl t ht
    cases (hheld.1 t).mp ht
  · intro hno
    cases holder with
    | none => rfl
    | some t => exact absurd ((hheld.1 t).mpr rfl) (hno t)

/-- A second thread falls asleep on a locked mutex. -/
def contended : List (Event Bool) :=
  [.move false 0,.move false 0,.move true 0,.move true 0,.move true 0,.move true 0,.move true 0]

theorem mutex_run_contended : ∃ s, run (step fun _ => code ⟨0,0⟩) (init Bool) contended = some s ∧
    s.asleep = {true} ∧ s.mem = -1 ∧
    (∀ t u, s.pc t = .locked → s.pc u = .locked → t = u) ∧ (s.mem = 0 ↔ ∀ t, s.pc t ≠ .locked) ∧
    (s.asleep.Nonempty → s.mem = -1 ∨ ∃ t, t ∉ s.asleep ∧ Owes (s.pc t)) :=
  ⟨_,rfl,by decide,rfl,mutex_run ⟨0,0⟩ (show run (step fun _ => code ⟨0,0⟩) (init Bool) contended = some _ from rfl)⟩

section Progress
variable {v} [DecidableEq ι] {s : State ι ℤ Pc} {t u w : ι}

theorem leads_of_unlockSlow (hu : u ∉ s.asleep) (hpu : s.pc u = .unlockSlow) (hm : s.mem = 0) (ht : t ∈ s.asleep)
    (hpt : s.pc t = .exchange) : Leads (fun _ => code v) s fun s' => s'.pc t = .locked := by
  have htu : t ≠ u := fun h => hu (h ▸ ht)
  refine Leads.wakeOne hu ht (by rw [hpu]; rfl) rfl ?_
  refine Leads.move (t := t) 0 (by simp) (by simp [htu, hpt]; rfl) (Leads.done ?_)
  simp [hm]

theorem leads_of_locked (hu : u ∉ s.asleep) (hpu : s.pc u = .locked) (hm : s.mem = -1) (ht : t ∈ s.asleep)
    (hpt : s.pc t = .exchange) : Leads (fun _ => code v) s fun s' => s'.pc t = .locked := by
  have htu : t ≠ u := fun h => hu (h ▸ ht)
  refine Leads.move 0 hu (by rw [hpu]; rfl) (leads_of_unlockSlow (u := u) hu ?_ ?_ ht ?_)
  · simp [hm]
  · simp [hm]
  · simpa [htu] using hpt

theorem leads_of_owes (hu : u ∉ s.asleep) (hpu : Owes (s.pc u)) (hm : s.mem = 0) (ht : t ∈ s.asleep)
    (hpt : s.pc t = .exchange) : Leads (fun _ => code v) s fun s' => s'.pc t = .locked := by
  have htu : t ≠ u := fun h => hu (h ▸ ht)
  rcases hpu with hpu | hpu
  · refine Leads.move 0 hu (by rw [hpu]; rfl) (leads_of_locked (u := u) hu ?_ ?_ ht ?_)
    · simp [hm]
    · simp [hm]
    · simpa [htu] using hpt
  · exact leads_of_unlockSlow hu hpu hm ht hpt

theorem asleep_next {es : List (Event ι)} (h : run (step fun _ => code v) (init ι) es = some s) :
    ∀ u ∈ s.asleep, s.pc u = .exchange := by
  have hw : ∀ (_ : ι) p same next, code v p = .wait same next → next = .exchange :=
    fun _ _ _ _ h => (wait_next v h).2.2
  exact asleep_run hw (by simp [init]) h

/-- Whatever the threads did before, a thread asleep on the mutex can still get it by actions of the
threads alone: no run ends in a deadlock. -/
theorem sleeper_can_lock {es : List (Event ι)} (h : run (step fun _ => code v) (init ι) es = some s)
    (ht : t ∈ s.asleep) : Leads (fun _ => code v) s fun s' => s'.pc t = .locked := by
  have hinit : HeldBy (fun p => p = Pc.locked) (fun m => m = 0) (init ι) none := by simp [HeldBy, init]
  obtain ⟨holder,hheld⟩ := heldBy_run (exclusive v) ⟨none,hinit⟩ h
  have hsleep := asleep_next h
  have hawake : ∀ u, s.pc u ≠ .exchange → u ∉ s.asleep := fun u hu hmem => hu (hsleep u hmem)
  have hpt := hsleep t ht
  cases holder with
  | none =>
    -- the word is 0, so an awake thread owes the wake-up
    have hm : s.mem = 0 := hheld.2.mpr rfl
    rcases awaited_run (owed v) rfl h ⟨t,ht⟩ with hm' | ⟨u,hu,hpu⟩
    · omega
    · exact leads_of_owes hu hpu hm ht hpt
  | some w =>
    have hpw : s.pc w = .locked := (hheld.1 w).mpr rfl
    have hw : w ∉ s.asleep := hawake w (by simp [hpw])
    have htw : t ≠ w := fun h => hw (h ▸ ht)
    rcases awaited_run (owed v) rfl h ⟨t,ht⟩ with hm | ⟨u,hu,hpu⟩
    · exact leads_of_locked hw hpw hm ht hpt
    · -- the holder unlocks first
      have huw : u ≠ w := fun h => by simp [h, hpw, Owes] at hpu
      refine Leads.move 0 hw (by rw [hpw]; rfl) (leads_of_owes (u := u) hu ?_ ?_ ht ?_)
      · simpa [huw] using hpu
      · by_cases hm : s.mem < 0 <;> simp [hm]
      · simpa [htw] using hpt

theorem sleeper_can_lock_contended : ∃ s, run (step fun _ => code ⟨0,0⟩) (init Bool) contended = some s ∧
    Leads (fun _ => code ⟨0,0⟩) s fun s' => s'.pc true = .locked :=
  ⟨_,rfl,sleeper_can_lock (show run (step fun _ => code ⟨0,0⟩) (init Bool) contended = some _ from rfl) (by decide)⟩

end Progress

end GompUlt.Mutex
