import GompUlt.Lib.Run
import Mathlib.Data.Finset.Card

/-! # Threads that sleep on a word of shared memory

The code of a thread is a table of atomic actions over a shared memory.  `wait` compares the word
and goes to sleep in one action; `wake` ends the sleep of some threads, picked by the kernel; a
sleep may also end by itself.  Five rules carry invariants of one action to whole runs: assertions
of the single threads, where sleepers go on, a resource that one thread takes from memory, the
wake-up owed to the sleepers, and the one owed to a single sleeper.
-/
namespace GompUlt.Futex
open Run

/-- One atomic action and where the thread goes on.  An access may depend on an input from outside. -/
inductive Action (M P : Type*) where
  | access (f : ℕ → M → M × P)
  | wait (same : M → Bool) (next : P)
  | wake (count : ℕ) (next : P)

/-- The `pc` of a sleeping thread is where it goes on when it wakes. -/
structure State (ι M P : Type*) where
  mem : M
  pc : ι → P
  asleep : Finset ι

inductive Event (ι : Type*) where
  | move (t : ι) (input : ℕ)
  | wake (t : ι) (woken : Finset ι)
  | interrupt (t : ι)

variable {ι M P : Type*} [DecidableEq ι]

section Steps
variable (code : ι → P → Action M P)

def moveStep (s : State ι M P) (t : ι) (input : ℕ) : Option (State ι M P) :=
  match code t (s.pc t) with
  | .access f => some { s with mem := (f input s.mem).1, pc := Function.update s.pc t (f input s.mem).2 }
  | .wait same next =>
    some { s with
      pc := Function.update s.pc t next
      asleep := if same s.mem then insert t s.asleep else s.asleep }
  | .wake _ _ => none

/-- The kernel wakes `count` sleepers, or all when there are fewer. -/
def wakeStep (s : State ι M P) (t : ι) (woken : Finset ι) : Option (State ι M P) :=
  match code t (s.pc t) with
  | .wake count next =>
    if woken ⊆ s.asleep ∧ woken.card = min count s.asleep.card then
      some { s with pc := Function.update s.pc t next, asleep := s.asleep \ woken }
    else none
  | _ => none

/-- One event: an action of a thread that is awake, or the end of a sleep for no reason. -/
def step (s : State ι M P) : Event ι → Option (State ι M P)
  | .move t input => if t ∈ s.asleep then none else moveStep code s t input
  | .wake t woken => if t ∈ s.asleep then none else wakeStep code s t woken
  | .interrupt t => if t ∈ s.asleep then some { s with asleep := s.asleep.erase t } else none

/-- What one event does. -/
inductive Stepped (s : State ι M P) : Event ι → State ι M P → Prop where
  | access (t : ι) (f : ℕ → M → M × P) (input : ℕ) : t ∉ s.asleep → code t (s.pc t) = .access f →
      Stepped s (.move t input)
        { s with mem := (f input s.mem).1, pc := Function.update s.pc t (f input s.mem).2 }
  | sleep (t : ι) (same : M → Bool) (next : P) (input : ℕ) : code t (s.pc t) = .wait same next →
      same s.mem = true →
      Stepped s (.move t input) { s with pc := Function.update s.pc t next, asleep := insert t s.asleep }
  | pass (t : ι) (same : M → Bool) (next : P) (input : ℕ) : t ∉ s.asleep → code t (s.pc t) = .wait same next →
      same s.mem = false → Stepped s (.move t input) { s with pc := Function.update s.pc t next }
  | wake (t : ι) (count : ℕ) (next : P) (woken : Finset ι) : t ∉ s.asleep → code t (s.pc t) = .wake count next →
      woken ⊆ s.asleep → woken.card = min count s.asleep.card →
      Stepped s (.wake t woken) { s with pc := Function.update s.pc t next, asleep := s.asleep \ woken }
  | interrupt (t : ι) : t ∈ s.asleep → Stepped s (.interrupt t) { s with asleep := s.asleep.erase t }

variable {code}

omit [DecidableEq ι] in
/-- A run keeps what every event keeps. -/
theorem run_keeps {step : State ι M P → Event ι → Option (State ι M P)} {I : State ι M P → Prop}
    (hstep : ∀ s e s', I s → step s e = some s' → I s') {s s' : State ι M P} {es : List (Event ι)}
    (hi : I s) (h : run step s es = some s') : I s' :=
  run_invariant (fun s e s' hi _ hs => hstep s e s' hi hs) hi (along_true s es) h

theorem step_cases {s s' : State ι M P} {e : Event ι} (h : step code s e = some s') : Stepped code s e s' := by
  cases e with
  | move t input =>
    by_cases ht : t ∈ s.asleep
    · simp [step, ht] at h
    simp only [step, if_neg ht, moveStep] at h
    split at h
    next f hf =>
      obtain rfl := Option.some.inj h
      exact .access t f input ht hf
    next same next hc =>
      obtain rfl := Option.some.inj h
      by_cases hm : same s.mem = true
      · simpa [hm] using Stepped.sleep (s := s) t same next input hc hm
      · simpa [hm] using Stepped.pass (s := s) t same next input ht hc (Bool.eq_false_iff.mpr hm)
    next => cases h
  | wake t woken =>
    by_cases ht : t ∈ s.asleep
    · simp [step, ht] at h
    simp only [step, if_neg ht, wakeStep] at h
    split at h
    next count next hc =>
      split_ifs at h with hw
      obtain rfl := Option.some.inj h
      exact .wake t count next woken ht hc hw.1 hw.2
    next => cases h
  | interrupt t =>
    by_cases ht : t ∈ s.asleep
    · simp only [step, if_pos ht, Option.some.injEq] at h
      subst h
      exact .interrupt t ht
    · simp [step, ht] at h

end Steps

/-! ## Assertions of the single threads -/
section Assertions
variable {code : ι → P → Action M P} {common : M → Prop} {assertion : ι → P → M → Prop}

/-- Every action establishes the assertion at the place it leads to, keeps what is common, and does not
disturb the assertion of another thread. -/
structure Stable (code : ι → P → Action M P) (common : M → Prop) (assertion : ι → P → M → Prop) : Prop where
  access : ∀ t p f input m, code t p = .access f → common m → assertion t p m →
    common (f input m).1 ∧ assertion t (f input m).2 (f input m).1
  other : ∀ t p f input m u q, code t p = .access f → common m → assertion t p m → u ≠ t → assertion u q m →
    assertion u q (f input m).1
  wait : ∀ t p same next m, code t p = .wait same next → common m → assertion t p m → assertion t next m
  wake : ∀ t p count next m, code t p = .wake count next → common m → assertion t p m → assertion t next m

/-- The assertions of all threads. -/
def Holds (common : M → Prop) (assertion : ι → P → M → Prop) (s : State ι M P) : Prop :=
  common s.mem ∧ ∀ t, assertion t (s.pc t) s.mem

theorem holds_move {s : State ι M P} {m : M} {t : ι} {p : P} (hp : assertion t p m)
    (hother : ∀ u, u ≠ t → assertion u (s.pc u) m) (u : ι) : assertion u (Function.update s.pc t p u) m := by
  by_cases hu : u = t
  · subst hu
    simpa using hp
  · simpa [Function.update_of_ne hu] using hother u hu

theorem holds_step (hs : Stable code common assertion) {s s' : State ι M P} {e : Event ι}
    (hi : Holds common assertion s) (h : step code s e = some s') : Holds common assertion s' := by
  obtain ⟨hc,ha⟩ := hi
  cases step_cases h with
  | access t f input ht hf =>
    obtain ⟨hc',ht'⟩ := hs.access t _ f input _ hf hc (ha t)
    exact ⟨hc',holds_move ht' fun u hu => hs.other t _ f input _ u _ hf hc (ha t) hu (ha u)⟩
  | sleep t same next input hcode hm => exact ⟨hc,holds_move (hs.wait t _ same next _ hcode hc (ha t)) fun u _ => ha u⟩
  | pass t same next input ht hcode hm => exact ⟨hc,holds_move (hs.wait t _ same next _ hcode hc (ha t)) fun u _ => ha u⟩
  | wake t count next woken ht hcode hsub hcard =>
    exact ⟨hc,holds_move (hs.wake t _ count next _ hcode hc (ha t)) fun u _ => ha u⟩
  | interrupt t ht => exact ⟨hc,ha⟩

theorem holds_run (hs : Stable code common assertion) {s s' : State ι M P} {es : List (Event ι)}
    (hi : Holds common assertion s) (h : run (step code) s es = some s') : Holds common assertion s' :=
  run_keeps (fun _ _ _ => holds_step hs) hi h

end Assertions

/-! ## Where sleepers go on -/
section Sleepers
variable {code : ι → P → Action M P} {resume : P → Prop}

theorem asleep_step (hw : ∀ t p same next, code t p = .wait same next → resume next) {s s' : State ι M P} {e : Event ι}
    (hi : ∀ t ∈ s.asleep, resume (s.pc t)) (h : step code s e = some s') : ∀ t ∈ s'.asleep, resume (s'.pc t) := by
  have hkeep : ∀ t p, t ∉ s.asleep → ∀ u ∈ s.asleep, resume (Function.update s.pc t p u) := by
    intro t p ht u hu
    have hut : u ≠ t := fun hut => ht (hut ▸ hu)
    simpa [Function.update_of_ne hut] using hi u hu
  cases step_cases h with
  | access t f input ht hf => exact hkeep t _ ht
  | sleep t same next input hcode hm =>
    intro u hu
    by_cases hut : u = t
    · subst hut
      simpa using hw u _ same next hcode
    · simpa [Function.update_of_ne hut] using hi u ((Finset.mem_insert.mp hu).resolve_left hut)
  | pass t same next input ht hcode hm => exact hkeep t _ ht
  | wake t count next woken ht hcode hsub hcard => exact fun u hu => hkeep t _ ht u (Finset.mem_sdiff.mp hu).1
  | interrupt t ht => exact fun u hu => hi u (Finset.mem_of_mem_erase hu)

theorem asleep_run (hw : ∀ t p same next, code t p = .wait same next → resume next) {s s' : State ι M P}
    {es : List (Event ι)} (hi : ∀ t ∈ s.asleep, resume (s.pc t)) (h : run (step code) s es = some s') :
    ∀ t ∈ s'.asleep, resume (s'.pc t) :=
  run_keeps (I := fun s => ∀ t ∈ s.asleep, resume (s.pc t)) (fun _ _ _ => asleep_step hw) hi h

end Sleepers

/-! ## A resource taken from memory -/
section Exclusion
variable {code : ι → P → Action M P} {holds : P → Prop} {free : M → Prop}

/-- One action takes the resource when it is free, gives it back, or leaves it where it is; a thread
that waits or wakes others leaves it where it is. -/
structure Exclusive (code : ι → P → Action M P) (holds : P → Prop) (free : M → Prop) : Prop where
  access : ∀ t p f input m, code t p = .access f →
    ((holds (f input m).2 ↔ holds p) ∧ (free (f input m).1 ↔ free m)) ∨
    (free m ∧ holds (f input m).2 ∧ ¬free (f input m).1) ∨
    (holds p ∧ ¬holds (f input m).2 ∧ free (f input m).1)
  wait : ∀ t p same next, code t p = .wait same next → (holds next ↔ holds p)
  wake : ∀ t p count next, code t p = .wake count next → (holds next ↔ holds p)

/-- One thread holds the resource or none does, as the memory says. -/
def HeldBy (holds : P → Prop) (free : M → Prop) (s : State ι M P) (holder : Option ι) : Prop :=
  (∀ t, holds (s.pc t) ↔ holder = some t) ∧ (free s.mem ↔ holder = none)

omit [DecidableEq ι] in
theorem HeldBy.unique {s : State ι M P} {holder : Option ι} (h : HeldBy holds free s holder) {t u : ι}
    (ht : holds (s.pc t)) (hu : holds (s.pc u)) : t = u :=
  Option.some.inj (((h.1 t).mp ht).symm.trans ((h.1 u).mp hu))

theorem holder_update {pc : ι → P} {holder : Option ι} (hpc : ∀ u, holds (pc u) ↔ holder = some u) {t : ι} {p : P}
    (hp : holds p ↔ holds (pc t)) (u : ι) : holds (Function.update pc t p u) ↔ holder = some u := by
  by_cases hu : u = t
  · subst hu
    simpa [hp] using hpc u
  · simpa [Function.update_of_ne hu] using hpc u

theorem heldBy_step (hx : Exclusive code holds free) {s s' : State ι M P} {e : Event ι} {holder : Option ι}
    (hi : HeldBy holds free s holder) (h : step code s e = some s') : ∃ holder', HeldBy holds free s' holder' := by
  obtain ⟨hpc,hfree⟩ := hi
  cases step_cases h with
  | access t f input ht hf =>
    rcases hx.access t _ f input s.mem hf with ⟨hp,hm⟩ | ⟨hm,hp,hm'⟩ | ⟨hp,hp',hm'⟩
    · exact ⟨holder,holder_update hpc hp,hm.trans hfree⟩
    · -- nobody held it, so the thread that takes it is the only holder
      have hnone : holder = none := hfree.mp hm
      refine ⟨some t,fun u => ?_,by simpa using hm'⟩
      by_cases hu : u = t
      · subst hu
        simpa using hp
      · have hnot : ¬holds (s.pc u) := fun hh => by simpa [hnone] using (hpc u).mp hh
        simpa [Function.update_of_ne hu, Ne.symm hu] using hnot
    · have hsome : holder = some t := (hpc t).mp hp
      refine ⟨none,fun u => ?_,by simpa using hm'⟩
      by_cases hu : u = t
      · subst hu
        simpa using hp'
      · have hnot : ¬holds (s.pc u) := fun hh => hu (Option.some.inj (((hpc u).mp hh).symm.trans hsome))
        simpa [Function.update_of_ne hu] using hnot
  | sleep t same next input hcode hm => exact ⟨holder,holder_update hpc (hx.wait t _ same next hcode),hfree⟩
  | pass t same next input ht hcode hm => exact ⟨holder,holder_update hpc (hx.wait t _ same next hcode),hfree⟩
  | wake t count next woken ht hcode hsub hcard => exact ⟨holder,holder_update hpc (hx.wake t _ count next hcode),hfree⟩
  | interrupt t ht => exact ⟨holder,hpc,hfree⟩

theorem heldBy_run (hx : Exclusive code holds free) {s s' : State ι M P} {es : List (Event ι)}
    (hi : ∃ holder, HeldBy holds free s holder) (h : run (step code) s es = some s') :
    ∃ holder, HeldBy holds free s' holder :=
  run_keeps (I := fun s => ∃ holder, HeldBy holds free s holder)
    (fun _ _ _ hi hs => hi.elim fun _ hi => heldBy_step hx hi hs) hi h

end Exclusion

/-! ## The wake-up owed to the sleepers -/
section WakeUp
variable {code : ι → P → Action M P} {good : M → Prop} {pending : P → Prop}

/-- The word obliges its next writer to wake, or an awake thread owes the wake-up.  A thread sleeps
only on a good word.  Either a wake-up ends one sleep at least and sleepers owe the next wake-up when
they go on, or it ends all sleeps. -/
structure Owed (code : ι → P → Action M P) (good : M → Prop) (pending : P → Prop) : Prop where
  access : ∀ t p f input m, code t p = .access f → good m ∨ pending p →
    good (f input m).1 ∨ pending (f input m).2
  wait : ∀ t p same next, code t p = .wait same next →
    (∀ m, same m = true → good m) ∧ (pending p → pending next)
  wake : (∀ t p count next, code t p = .wake count next → 0 < count) ∧
      (∀ t p same next, code t p = .wait same next → pending next) ∨
    ∀ t p count next, code t p = .wake count next → ∀ sleepers : Finset ι, sleepers.card ≤ count

/-- Nobody sleeps, or a later wake-up is owed. -/
def Awaited (good : M → Prop) (pending : P → Prop) (s : State ι M P) : Prop :=
  s.asleep.Nonempty → good s.mem ∨ ∃ t, t ∉ s.asleep ∧ pending (s.pc t)

/-- Sleepers owe the next wake-up when they go on, unless every wake-up ends all sleeps. -/
def Resuming (code : ι → P → Action M P) (pending : P → Prop) (s : State ι M P) : Prop :=
  (∀ t p same next, code t p = .wait same next → pending next) → ∀ t ∈ s.asleep, pending (s.pc t)

theorem awaited_step (ho : Owed code good pending) {s s' : State ι M P} {e : Event ι} (hr : Resuming code pending s)
    (hi : Awaited good pending s) (h : step code s e = some s') : Awaited good pending s' := by
  have hother : ∀ (t u : ι) (p : P), u ≠ t → Function.update s.pc t p u = s.pc u :=
    fun t u p hu => Function.update_of_ne hu p s.pc
  -- who owes the wake-up besides the thread that moves still does
  have hmoved : ∀ (m : M) (t : ι) (p : P), t ∉ s.asleep → (good s.mem ∨ pending (s.pc t) → good m ∨ pending p) →
      s.asleep.Nonempty → good m ∨ ∃ u, u ∉ s.asleep ∧ pending (Function.update s.pc t p u) := by
    intro m t p ht hmove hne
    have hown : good s.mem ∨ pending (s.pc t) →
        good m ∨ ∃ u, u ∉ s.asleep ∧ pending (Function.update s.pc t p u) := fun hgp =>
      (hmove hgp).imp_right fun hp => ⟨t,ht,by simpa using hp⟩
    rcases hi hne with hg | ⟨u,hu,hp⟩
    · exact hown (Or.inl hg)
    · by_cases hut : u = t
      · exact hown (Or.inr (hut ▸ hp))
      · exact Or.inr ⟨u,hu,by simpa [hother t u _ hut] using hp⟩
  cases step_cases h with
  | access t f input ht hf => exact hmoved _ t _ ht (ho.access t _ f input s.mem hf)
  | sleep t same next input hcode hm => exact fun _ => Or.inl ((ho.wait t _ same next hcode).1 _ hm)
  | pass t same next input ht hcode hm => exact hmoved _ t _ ht (Or.imp_right (ho.wait t _ same next hcode).2)
  | wake t count next woken ht hcode hsub hcard =>
    intro hne
    obtain ⟨u,hu⟩ := hne
    rcases ho.wake with ⟨hcount,hpending⟩ | hall
    · -- a woken thread owes the next wake-up
      have hpos : 0 < s.asleep.card := Finset.card_pos.mpr ⟨u,(Finset.mem_sdiff.mp hu).1⟩
      have hcount' := hcount t _ count next hcode
      obtain ⟨w,hw⟩ : woken.Nonempty := Finset.card_pos.mp (by omega)
      have hwt : w ≠ t := fun hwt => ht (hwt ▸ hsub hw)
      exact Or.inr ⟨w,by simp [hw],by simpa [hother t w _ hwt] using hr hpending w (hsub hw)⟩
    · -- nobody is left asleep
      have hle := hall t _ count next hcode s.asleep
      have heq : woken = s.asleep := Finset.eq_of_subset_of_card_le hsub (by omega)
      simp [heq] at hu
  | interrupt t ht =>
    intro hne
    rcases hi (hne.mono (Finset.erase_subset t s.asleep)) with hg | ⟨u,hu,hp⟩
    · exact Or.inl hg
    · exact Or.inr ⟨u,fun hu' => hu (Finset.mem_of_mem_erase hu'),hp⟩

theorem awaited_run (ho : Owed code good pending) {s s' : State ι M P} {es : List (Event ι)} (hs : s.asleep = ∅)
    (h : run (step code) s es = some s') : Awaited good pending s' := by
  refine (run_keeps (I := fun s => Resuming code pending s ∧ Awaited good pending s) ?_ ⟨?_,?_⟩ h).2
  · intro s e s' hi hstep
    exact ⟨fun hw => asleep_step hw (hi.1 hw) hstep,awaited_step ho hi.1 hi.2 hstep⟩
  · simp [Resuming, hs]
  · simp [Awaited, hs]

end WakeUp

/-! ## Continuations without a spurious end of a sleep -/
section Leads
variable (code : ι → P → Action M P)

/-- Some actions of the threads lead to a state with the property, no sleep ending by itself. -/
def Leads (s : State ι M P) (goal : State ι M P → Prop) : Prop :=
  ∃ es s', (∀ e ∈ es, ∀ t, e ≠ Event.interrupt t) ∧ run (step code) s es = some s' ∧ goal s'

variable {code} {s s' : State ι M P} {goal : State ι M P → Prop}

theorem Leads.done (h : goal s) : Leads code s goal := ⟨[],s,by simp,rfl,h⟩

theorem Leads.next {e : Event ι} (he : ∀ t, e ≠ .interrupt t) (hs : step code s e = some s') (h : Leads code s' goal) :
    Leads code s goal := by
  obtain ⟨es,s'',hes,hrun,hgoal⟩ := h
  refine ⟨e :: es,s'',fun e' he' => ?_,run_cons.mpr ⟨s',hs,hrun⟩,hgoal⟩
  rcases List.mem_cons.mp he' with rfl | he'
  · exact he
  · exact hes e' he'

theorem Leads.move {t : ι} (input : ℕ) {f : ℕ → M → M × P} (ht : t ∉ s.asleep) (hc : code t (s.pc t) = .access f)
    (h : Leads code { s with mem := (f input s.mem).1, pc := Function.update s.pc t (f input s.mem).2 } goal) :
    Leads code s goal :=
  Leads.next (e := .move t input) (fun _ => by simp) (by simp [step, ht, moveStep, hc]) h

theorem Leads.wakeOne {t u : ι} {count : ℕ} {next : P} (ht : t ∉ s.asleep) (hu : u ∈ s.asleep)
    (hc : code t (s.pc t) = .wake count next) (hcount : count = 1)
    (h : Leads code { s with pc := Function.update s.pc t next, asleep := s.asleep \ {u} } goal) :
    Leads code s goal := by
  refine Leads.next (e := .wake t {u}) (fun _ => by simp) ?_ h
  have hpos : 1 ≤ s.asleep.card := Finset.card_pos.mpr ⟨u,hu⟩
  simp [step, ht, wakeStep, hc, hu, hcount, hpos]

theorem Leads.wakeAll {t : ι} {count : ℕ} {next : P} (ht : t ∉ s.asleep) (hc : code t (s.pc t) = .wake count next)
    (hcount : s.asleep.card ≤ count)
    (h : Leads code { s with pc := Function.update s.pc t next, asleep := ∅ } goal) : Leads code s goal :=
  Leads.next (e := .wake t s.asleep) (fun _ => by simp) (by simp [step, ht, wakeStep, hc, hcount]) h

end Leads

/-! ## The wake-up owed to a single sleeper -/
section Signals
variable {code : ι → P → Action M P} {common : M → Prop} {assertion : ι → P → M → Prop}
  {stale : ι → P → M → Prop} {pending : P → Prop}

/-- Who makes the place of a sleeper stale owes a wake-up, and a thread falls asleep only where it is not stale. -/
structure Signals (code : ι → P → Action M P) (common : M → Prop) (assertion : ι → P → M → Prop)
    (stale : ι → P → M → Prop) (pending : P → Prop) : Prop where
  access : ∀ t p f input m u q, code t p = .access f → common m → assertion t p m → stale u q (f input m).1 →
    stale u q m ∨ pending (f input m).2
  keep : ∀ t p f input m, code t p = .access f → pending p → pending (f input m).2
  wait : ∀ t p same next, code t p = .wait same next → ¬pending p ∧ ∀ m, same m = true → ¬stale t next m

/-- Somebody who is awake will wake the sleepers whose places are stale. -/
def Signalled (stale : ι → P → M → Prop) (pending : P → Prop) (s : State ι M P) : Prop :=
  ∀ u ∈ s.asleep, stale u (s.pc u) s.mem → ∃ t, t ∉ s.asleep ∧ pending (s.pc t)

/-- No more threads sleep than a wake-up ends. -/
def Few (code : ι → P → Action M P) (s : State ι M P) : Prop :=
  ∀ t count next, code t (s.pc t) = .wake count next → s.asleep.card ≤ count

theorem signalled_step (hs : Signals code common assertion stale pending) {s s' : State ι M P} {e : Event ι}
    (hold : Holds common assertion s) (hfew : Few code s) (hi : Signalled stale pending s)
    (h : step code s e = some s') : Signalled stale pending s' := by
  -- a thread that waits owes nothing, so who owes the wake-up still does
  have hwaits : ∀ t same next, code t (s.pc t) = .wait same next → ∀ u ∈ s.asleep, stale u (s.pc u) s.mem →
      ∃ w, w ≠ t ∧ w ∉ s.asleep ∧ pending (Function.update s.pc t next w) := by
    intro t same next hcode u hu hstale
    obtain ⟨w,hw,hpending⟩ := hi u hu hstale
    have hwt : w ≠ t := by
      rintro rfl
      exact (hs.wait w _ same next hcode).1 hpending
    exact ⟨w,hwt,hw,by rwa [Function.update_of_ne hwt]⟩
  intro u hu hstale
  cases step_cases h with
  | access t f input ht hf =>
    have hut : u ≠ t := fun hut => ht (hut ▸ hu)
    dsimp only at hu hstale ⊢
    rw [Function.update_of_ne hut] at hstale
    obtain hstale | hpending := hs.access t _ f input _ u _ hf hold.1 (hold.2 t) hstale
    · obtain ⟨w,hw,hpending⟩ := hi u hu hstale
      refine ⟨w,hw,?_⟩
      by_cases hwt : w = t
      · subst hwt
        rw [Function.update_self]
        exact hs.keep w _ f input _ hf hpending
      · rwa [Function.update_of_ne hwt]
    · exact ⟨t,ht,by rwa [Function.update_self]⟩
  | sleep t same next input hcode hm =>
    dsimp only at hu hstale ⊢
    by_cases hut : u = t
    · subst hut
      rw [Function.update_self] at hstale
      exact absurd hstale ((hs.wait u _ same next hcode).2 _ hm)
    · rw [Function.update_of_ne hut] at hstale
      obtain ⟨w,hwt,hw,hpending⟩ := hwaits t same next hcode u ((Finset.mem_insert.mp hu).resolve_left hut) hstale
      exact ⟨w,fun hmem => (Finset.mem_insert.mp hmem).elim hwt hw,hpending⟩
  | pass t same next input ht hcode hm =>
    have hut : u ≠ t := fun hut => ht (hut ▸ hu)
    dsimp only at hu hstale ⊢
    rw [Function.update_of_ne hut] at hstale
    obtain ⟨w,-,hw,hpending⟩ := hwaits t same next hcode u hu hstale
    exact ⟨w,hw,hpending⟩
  | wake t count next woken ht hcode hsub hcard =>
    have hle := hfew t count next hcode
    have heq : woken = s.asleep := Finset.eq_of_subset_of_card_le hsub (by omega)
    simp [heq] at hu
  | interrupt t ht =>
    obtain ⟨w,hw,hpending⟩ := hi u (Finset.mem_of_mem_erase hu) hstale
    exact ⟨w,fun hmem => hw (Finset.mem_of_mem_erase hmem),hpending⟩

theorem signalled_run (hs : Signals code common assertion stale pending) (hst : Stable code common assertion)
    {cond : State ι M P → Event ι → Prop} (hcond : ∀ s e, cond s e → Few code s) {s s' : State ι M P}
    {es : List (Event ι)} (hold : Holds common assertion s) (hasleep : s.asleep = ∅)
    (hfew : Along (step code) cond s es) (h : run (step code) s es = some s') : Signalled stale pending s' := by
  have hstep : ∀ s e s', Holds common assertion s ∧ Signalled stale pending s → cond s e →
      step code s e = some s' → Holds common assertion s' ∧ Signalled stale pending s' :=
    fun s e s' hi hc hstep => ⟨holds_step hst hi.1 hstep,signalled_step hs hi.1 (hcond s e hc) hi.2 hstep⟩
  have hinit : Signalled stale pending s := by simp [Signalled, hasleep]
  exact (run_invariant hstep ⟨hold,hinit⟩ hfew h).2

end Signals

end GompUlt.Futex
