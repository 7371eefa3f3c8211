import Mathlib
import GompUlt.Sync.Wait

/-! # The futex pointer lock

The word is 0 at first, 1 when a thread owns it and will write a pointer, 2 when threads may also wait
for the pointer, and the pointer after that.  The futex is the low half of the word; pointers are
aligned to 8 bytes, so that it is never 1 or 2 for a pointer.
-/
namespace GompUlt.Ptrlock
open Run Futex Wait

variable {ι : Type*}

/-- The word, and the call of `gomp_ptrlock_get` that returned NULL. -/
structure Mem (ι : Type*) where
  word : ℕ
  owner : Option ι

/-- `intptr`: the low 32 bits of the word. -/
def Mem.half (m : Mem ι) : ℕ := m.word % 2 ^ 32

/-- Where a call stands: before its load, in `gomp_ptrlock_get_slow`, between NULL and
`gomp_ptrlock_set`, in `gomp_ptrlock_set_slow`, or after its return. -/
inductive Pc where
  | outside
  | own
  | getSlow
  | doWait (i : ℕ)
  | wait
  | recheck
  | read
  | got (ptr : ℕ)
  | create
  | setSlow
  | created
deriving DecidableEq, Repr

/-- The call returned NULL. -/
def Pc.Creator (p : Pc) : Prop := p = .create ∨ p = .setSlow ∨ p = .created

section Code
variable (v : SpinVars) (ptr : ι → ℕ)

/-- The next access of a call to the word; `ptr t` is what the caller writes when the call returns NULL. -/
def code (t : ι) : Pc → Action (Mem ι) Pc
  | .outside => .access fun _ m => (m,if 2 < m.word then .got m.word else .own)
  | .own => .access fun _ m => if m.word = 0 then ({ word := 1, owner := some t },.create) else (m,.getSlow)
  | .getSlow => .access fun input m =>
    (if m.word = 1 then { m with word := 2 } else m,.doWait (v.count input))
  | .doWait i => doSpin Mem.half 2 .doWait .recheck .wait i
  | .wait => .wait (fun m => m.half == 2) .recheck
  | .recheck => .access fun input m => (m,if m.half = 2 then .doWait (v.count input) else .read)
  | .read => .access fun _ m => (m,.got m.word)
  | .create => .access fun _ m => ({ m with word := ptr t },if m.word ≠ 1 then .setSlow else .created)
  | .setSlow => .wake (2 ^ 31 - 1) .created
  | .got p => .access fun _ m => (m,.got p)
  | .created => .access fun _ m => (m,.created)

end Code

/-- `gomp_ptrlock_init` with NULL. -/
def init (ι : Type*) : State ι (Mem ι) Pc where
  mem := { word := 0, owner := none }
  pc _ := .outside
  asleep := ∅

/-- A valid pointer: not NULL and aligned to 8 bytes. -/
def Valid (p : ℕ) : Prop := p ≠ 0 ∧ p % 8 = 0

theorem Valid.two_lt {p : ℕ} (h : Valid p) : 2 < p := by
  unfold Valid at h
  omega

theorem Valid.half_ne {p : ℕ} (h : Valid p) : p % 2 ^ 32 ≠ 2 := by
  unfold Valid at h
  omega

/-! ## One creator, and its pointer for everybody -/
section Safety
variable {v : SpinVars} {ptr : ι → ℕ}

/-- The word is 0 until a call owns it; above 2 it is the pointer of the owner. -/
def Common (ptr : ι → ℕ) (m : Mem ι) : Prop :=
  (m.owner = none ↔ m.word = 0) ∧ (2 < m.word → ∃ c, m.owner = some c ∧ m.word = ptr c)

/-- What a call knows of the word at each place. -/
def Knows (ptr : ι → ℕ) (t : ι) : Pc → Mem ι → Prop
  | .outside, _ | .own, _ => True
  | .getSlow, m => m.word ≠ 0
  | .doWait _, m | .wait, m | .recheck, m => m.word ≠ 0 ∧ m.word ≠ 1
  | .read, m => 2 < m.word
  | .got p, m => 2 < m.word ∧ p = m.word
  | .create, m => m.owner = some t ∧ (m.word = 1 ∨ m.word = 2)
  | .setSlow, m | .created, m => m.owner = some t ∧ m.word = ptr t ∧ 2 < m.word

/-- While the word is 0 a call knows nothing. -/
theorem Knows.of_zero {t : ι} {p : Pc} {m m' : Mem ι} (h : Knows ptr t p m) (hword : m.word = 0)
    (howner : m.owner = none) : Knows ptr t p m' := by
  cases p <;> simp_all [Knows]

/-- The waiting flag takes nothing from what a call knows. -/
theorem Knows.set_flag {t : ι} {p : Pc} {m : Mem ι} (h : Knows ptr t p m) (hword : m.word = 1) :
    Knows ptr t p { m with word := 2 } := by
  cases p <;> simp_all [Knows]

/-- The pointer of the owner takes nothing from what another call knows. -/
theorem Knows.set_ptr {t u : ι} {p : Pc} {m : Mem ι} {q : ℕ} (h : Knows ptr u p m) (hu : u ≠ t) (hm : m.owner = some t)
    (hword : m.word = 1 ∨ m.word = 2) (hq : 2 < q) : Knows ptr u p { m with word := q } := by
  have hne : t ≠ u := hu.symm
  cases p with
  | read | got => simp only [Knows] at h; omega
  | create | setSlow | created => simp [Knows, hm, hne] at h
  | outside | own => trivial
  | getSlow | doWait | wait | recheck => simp only [Knows]; omega

theorem stable (hptr : ∀ t, Valid (ptr t)) : Stable (code v ptr) (Common ptr) (Knows ptr) where
  access := by
    intro t p f input m hf hc hk
    have hlt := (hptr t).two_lt
    cases p with
    | doWait i =>
      obtain ⟨hm,hp⟩ := doSpin_cases hf input m
      rw [hm]
      refine ⟨hc,?_⟩
      rcases hp with hp | ⟨hp,-⟩ | ⟨j,hp⟩ <;> (rw [hp]; exact hk)
    | wait | setSlow => cases hf
    | outside =>
      obtain rfl := Action.access.inj hf
      refine ⟨hc,?_⟩
      simp only
      split_ifs with hword
      · exact ⟨hword,rfl⟩
      · trivial
    | own =>
      obtain rfl := Action.access.inj hf
      simp only
      split_ifs with hword
      · exact ⟨by simp [Common],rfl,Or.inl rfl⟩
      · exact ⟨hc,hword⟩
    | getSlow =>
      obtain rfl := Action.access.inj hf
      have hk' : m.word ≠ 0 := hk
      simp only
      split_ifs with hword
      · refine ⟨⟨?_,by simp⟩,by simp [Knows]⟩
        simpa [hword] using hc.1
      · exact ⟨hc,hk',hword⟩
    | recheck =>
      obtain rfl := Action.access.inj hf
      refine ⟨hc,?_⟩
      have hk' : m.word ≠ 0 ∧ m.word ≠ 1 := hk
      simp only
      split_ifs with hhalf
      · exact hk
      · -- neither 0, 1 nor 2
        have h2 : m.word ≠ 2 := fun h2 => hhalf (by simp [Mem.half, h2])
        simp only [Knows]
        omega
    | read =>
      obtain rfl := Action.access.inj hf
      exact ⟨hc,hk,rfl⟩
    | got p =>
      obtain rfl := Action.access.inj hf
      exact ⟨hc,hk⟩
    | created =>
      obtain rfl := Action.access.inj hf
      exact ⟨hc,hk⟩
    | create =>
      obtain rfl := Action.access.inj hf
      obtain ⟨howner,hword⟩ := hk
      refine ⟨⟨?_,fun _ => ⟨t,howner,rfl⟩⟩,?_⟩
      · simp [howner]
        omega
      · simp only
        split_ifs <;> exact ⟨howner,rfl,hlt⟩
  other := by
    intro t p f input m u q hf hc hk hu hku
    cases p with
    | doWait i => rwa [(doSpin_cases hf input m).1]
    | wait | setSlow => cases hf
    | outside | recheck | read | got p | created =>
      obtain rfl := Action.access.inj hf
      exact hku
    | own =>
      obtain rfl := Action.access.inj hf
      simp only
      split_ifs with hword
      · exact hku.of_zero hword (hc.1.mpr hword)
      · exact hku
    | getSlow =>
      obtain rfl := Action.access.inj hf
      simp only
      split_ifs with hword
      · exact hku.set_flag hword
      · exact hku
    | create =>
      obtain rfl := Action.access.inj hf
      exact hku.set_ptr hu hk.1 hk.2 (hptr t).two_lt
  wait := by
    intro t p same next m h hc hk
    cases p with
    | wait => cases h; exact hk
    | doWait i => cases h
    | outside | own | getSlow | recheck | read | got | create | setSlow | created => cases h
  wake := by
    intro t p count next m h hc hk
    cases p with
    | setSlow => cases h; exact hk
    | doWait i => cases h
    | outside | own | getSlow | wait | recheck | read | got | create | created => cases h

theorem owner_cases {t : ι} {p : Pc} {f : ℕ → Mem ι → Mem ι × Pc} (hf : code v ptr t p = .access f) (input : ℕ)
    (m : Mem ι) : ((f input m).1.owner = m.owner ∧ (p.Creator → (f input m).2.Creator)) ∨
      ((f input m).1.owner = some t ∧ (f input m).2.Creator) := by
  cases p with
  | doWait i =>
    rw [(doSpin_cases hf input m).1]
    simp [Pc.Creator]
  | wait | setSlow => cases hf
  | own =>
    obtain rfl := Action.access.inj hf
    simp only
    split_ifs <;> simp [Pc.Creator]
  | getSlow =>
    obtain rfl := Action.access.inj hf
    simp only
    split_ifs <;> simp [Pc.Creator]
  | create =>
    obtain rfl := Action.access.inj hf
    simp only
    split_ifs <;> simp [Pc.Creator]
  | outside | recheck | read | got p | created =>
    obtain rfl := Action.access.inj hf
    simp [Pc.Creator]

/-- The owner is the call that returned NULL. -/
theorem stable_owner : Stable (code v ptr) (fun _ => True) (fun t p m => m.owner = some t → p.Creator) where
  access := by
    intro t p f input m hf hc hk
    refine ⟨hc,fun h => ?_⟩
    rcases owner_cases hf input m with ⟨howner,hp⟩ | ⟨-,hp⟩
    · exact hp (hk (howner ▸ h))
    · exact hp
  other := by
    intro t p f input m u q hf hc hk hu hku h
    rcases owner_cases hf input m with ⟨howner,-⟩ | ⟨howner,-⟩
    · exact hku (howner ▸ h)
    · exact absurd (Option.some.inj (h.symm.trans howner)) hu
  wait := by
    intro t p same next m h hc hk
    cases p with
    | wait => cases h; simpa [Pc.Creator] using hk
    | doWait i => cases h
    | outside | own | getSlow | recheck | read | got | create | setSlow | created => cases h
  wake := by
    intro t p count next m h hc hk
    cases p with
    | setSlow => cases h; simp [Pc.Creator]
    | doWait i => cases h
    | outside | own | getSlow | wait | recheck | read | got | create | created => cases h

theorem Knows.creator {t : ι} {p : Pc} {m : Mem ι} (h : Knows ptr t p m) (hp : p.Creator) : m.owner = some t := by
  rcases hp with rfl | rfl | rfl
  · exact h.1
  · exact h.1
  · exact h.1

end Safety

/-! ## Nobody is left asleep -/
section WakeUp
variable {v : SpinVars} {ptr : ι → ℕ}

theorem wait_next {t : ι} {p next : Pc} {same : Mem ι → Bool} (h : code v ptr t p = .wait same next) :
    (same = fun m => m.half == 2) ∧ p = .wait ∧ next = .recheck := by
  cases p with
  | wait => cases h; simp
  | doWait i => cases h
  | outside | own | getSlow | recheck | read | got | create | setSlow | created => cases h

theorem wake_count {t : ι} {p next : Pc} {count : ℕ} (h : code v ptr t p = .wake count next) : count = 2 ^ 31 - 1 := by
  cases p with
  | setSlow => cases h; rfl
  | doWait i => cases h
  | outside | own | getSlow | wait | recheck | read | got | create | created => cases h

theorem owed [Fintype ι] (hcard : Fintype.card ι ≤ 2 ^ 31 - 1) :
    Owed (code v ptr) (fun m => m.half = 2) (fun p => p = .setSlow) where
  access := by
    intro t p f input m hf h
    cases p with
    | setSlow | wait => cases hf
    | doWait i =>
      rw [(doSpin_cases hf input m).1]
      exact Or.inl (by simpa using h)
    | outside | own | getSlow | recheck | read | got | create | created =>
      obtain rfl := Action.access.inj hf
      have hm : m.half = 2 := by simpa using h
      have hword : m.word ≠ 0 ∧ m.word ≠ 1 := by
        unfold Mem.half at hm
        omega
      simp [hword, hm]
  wait := by
    intro t p same next h
    obtain ⟨rfl,rfl,-⟩ := wait_next h
    exact ⟨fun m hm => by simpa using hm,fun h => by cases h⟩
  wake := by
    refine Or.inr fun t p count next h sleepers => ?_
    rw [wake_count h]
    exact sleepers.card_le_univ.trans hcard

end WakeUp

section Runs
variable {v : SpinVars} {ptr : ι → ℕ} [DecidableEq ι] {es : List (Event ι)} {s : State ι (Mem ι) Pc} {t c : ι}

theorem knows_run (hptr : ∀ t, Valid (ptr t)) (h : run (step (code v ptr)) (init ι) es = some s) :
    Holds (Common ptr) (Knows ptr) s :=
  holds_run (stable hptr) (s := init ι) ⟨by simp [Common, init],fun _ => trivial⟩ h

theorem creator_of_owner (h : run (step (code v ptr)) (init ι) es = some s) (howner : s.mem.owner = some t) :
    (s.pc t).Creator :=
  (holds_run stable_owner ⟨trivial,by simp [init]⟩ h).2 t howner

/-- The owner has set the pointer. -/
theorem owner_done (hptr : ∀ t, Valid (ptr t)) (h : run (step (code v ptr)) (init ι) es = some s)
    (hword : 2 < s.mem.word) : ∃ c, (s.pc c = .setSlow ∨ s.pc c = .created) ∧ s.mem.word = ptr c := by
  obtain ⟨hc,hk⟩ := knows_run hptr h
  obtain ⟨c,howner,hptrc⟩ := hc.2 hword
  refine ⟨c,?_,hptrc⟩
  rcases creator_of_owner h howner with hp | hp | hp
  · have hcreate := hk c
    rw [hp] at hcreate
    have := hcreate.2
    omega
  · exact Or.inl hp
  · exact Or.inr hp

/-- While a call sleeps, the word is 2 or the owner is about to wake all. -/
theorem sleeps_awaited [Fintype ι] (hcard : Fintype.card ι ≤ 2 ^ 31 - 1) (hptr : ∀ t, Valid (ptr t))
    (h : run (step (code v ptr)) (init ι) es = some s) (hne : s.asleep.Nonempty) :
    s.mem.word = 2 ∨ ∃ t, t ∉ s.asleep ∧ s.pc t = .setSlow := by
  obtain ⟨hc,-⟩ := knows_run hptr h
  refine (awaited_run (owed hcard) rfl h hne).imp_left fun hhalf => ?_
  have hnot : ¬(2 < s.mem.word) := by
    intro hlt
    obtain ⟨c,-,hword⟩ := hc.2 hlt
    exact (hptr c).half_ne (hword ▸ hhalf)
  unfold Mem.half at hhalf
  omega

/-- For any calls in any order, at most one returns NULL, every other one returns the pointer which that
one has set, and a call sleeps only while the word is 2, so that the owner will wake all, or while the
owner is about to. -/
theorem ptrlock_run [Fintype ι] (hcard : Fintype.card ι ≤ 2 ^ 31 - 1) (hptr : ∀ t, Valid (ptr t))
    (h : run (step (code v ptr)) (init ι) es = some s) :
    (∀ t u, (s.pc t).Creator → (s.pc u).Creator → t = u) ∧
      (∀ t p, s.pc t = .got p → ∃ c, (s.pc c = .setSlow ∨ s.pc c = .created) ∧ p = ptr c) ∧
      (s.asleep.Nonempty → s.mem.word = 2 ∨ ∃ t, t ∉ s.asleep ∧ s.pc t = .setSlow) := by
  obtain ⟨hc,hk⟩ := knows_run hptr h
  refine ⟨fun t u ht hu => ?_,fun t p hp => ?_,fun hne => ?_⟩
  · exact Option.some.inj (((hk t).creator ht).symm.trans ((hk u).creator hu))
  · have hgot := hk t
    rw [hp] at hgot
    obtain ⟨c,hpc,hword⟩ := owner_done hptr h hgot.1
    exact ⟨c,hpc,hgot.2.trans hword⟩
  · exact sleeps_awaited hcard hptr h hne

/-- One call owns the word and another one waits for the pointer. -/
def waiting : List (Event Bool) := [.move false 0,.move false 0,.move true 0,.move true 0,.move true 0,.move true 0,.move true 0]

theorem valid_64 (t : Bool) : Valid ((fun _ => 64 : Bool → ℕ) t) := by simp [Valid]

theorem ptrlock_run_waiting : ∃ s, run (step (code ⟨0,0⟩ fun _ => 64)) (init Bool) waiting = some s ∧
    s.asleep = {true} ∧ (∀ t u, (s.pc t).Creator → (s.pc u).Creator → t = u) ∧
    (∀ t p, s.pc t = .got p → ∃ c : Bool, (s.pc c = .setSlow ∨ s.pc c = .created) ∧ p = 64) ∧
    (s.asleep.Nonempty → s.mem.word = 2 ∨ ∃ t, t ∉ s.asleep ∧ s.pc t = .setSlow) :=
  ⟨_,rfl,by decide,ptrlock_run (by simp) valid_64
    (show run (step (code ⟨0,0⟩ fun _ => 64)) (init Bool) waiting = some _ from rfl)⟩

/-- What a pointer lock is to its users. -/
inductive Cell where
  | null
  | owned
  | ptr (p : ℕ)
deriving DecidableEq, Repr

/-- The meaning of the word. -/
def Mem.cell (m : Mem ι) : Cell := if m.word = 0 then .null else if m.word ≤ 2 then .owned else .ptr m.word

omit [DecidableEq ι] in
theorem cell_of_two_lt {m : Mem ι} (h : 2 < m.word) : m.cell = .ptr m.word := by
  have h0 : m.word ≠ 0 := by omega
  have h2 : ¬(m.word ≤ 2) := by omega
  simp [Mem.cell, h0, h2]

/-- One atomic step of the cell: a call owns it, the owner writes its pointer, or a call takes the pointer
with it. -/
def CellStep (ptr : ι → ℕ) (s s' : State ι (Mem ι) Pc) : Prop :=
  (s'.mem.cell = s.mem.cell ∧ ∀ t, (s'.pc t).Creator → (s.pc t).Creator) ∨
    (∃ t, s.mem.cell = .null ∧ s'.mem.cell = .owned ∧ s'.pc t = .create) ∨
    ∃ t, s.mem.cell = .owned ∧ s.pc t = .create ∧ s'.mem.cell = .ptr (ptr t)

theorem creator_put {pc : ι → Pc} {t : ι} {p : Pc} (hp : p.Creator → (pc t).Creator) (u : ι) :
    (Function.update pc t p u).Creator → (pc u).Creator := by
  by_cases hu : u = t
  · subst hu
    simpa using hp
  · rw [Function.update_of_ne hu]
    exact id

/-- The futex lock is a one-shot cell: every step of a call is a step of the cell or leaves it as it is, and
a call returns a pointer only while the cell holds it. -/
theorem ptrlock_refines_cell (hptr : ∀ t, Valid (ptr t)) (h : run (step (code v ptr)) (init ι) es = some s)
    {e : Event ι} {s' : State ι (Mem ι) Pc} (hs : step (code v ptr) s e = some s') :
    CellStep ptr s s' ∧ ∀ t p, s'.pc t = .got p → s'.mem.cell = .ptr p := by
  have hk := knows_run hptr h
  constructor
  · cases step_cases hs with
    | access t f input ht hf =>
      have hkt := hk.2 t
      cases hpc : s.pc t with
      | own =>
        rw [hpc] at hf
        obtain rfl := Action.access.inj hf
        by_cases hword : s.mem.word = 0
        · exact Or.inr (Or.inl ⟨t,by simp [Mem.cell, hword],by simp [Mem.cell, hword],by simp [hword]⟩)
        · exact Or.inl ⟨by simp [hword],creator_put (by simp [hword, Pc.Creator])⟩
      | create =>
        rw [hpc] at hf hkt
        obtain rfl := Action.access.inj hf
        refine Or.inr (Or.inr ⟨t,?_,hpc,cell_of_two_lt (hptr t).two_lt⟩)
        rcases hkt.2 with hword | hword <;> simp [Mem.cell, hword]
      | getSlow =>
        rw [hpc] at hf
        obtain rfl := Action.access.inj hf
        refine Or.inl ⟨?_,creator_put (by simp [Pc.Creator])⟩
        by_cases hword : s.mem.word = 1 <;> simp [Mem.cell, hword]
      | doWait i =>
        rw [hpc] at hf
        obtain ⟨hm,hp⟩ := doSpin_cases hf input s.mem
        refine Or.inl ⟨by rw [hm],creator_put fun hc => ?_⟩
        rcases hp with hp | ⟨hp,-⟩ | ⟨j,hp⟩ <;> simp [hp, Pc.Creator] at hc
      | wait | setSlow => simp [hpc, code] at hf
      | created =>
        rw [hpc] at hf
        obtain rfl := Action.access.inj hf
        exact Or.inl ⟨rfl,creator_put (by simp [hpc])⟩
      | outside | recheck | read | got p =>
        rw [hpc] at hf
        obtain rfl := Action.access.inj hf
        refine Or.inl ⟨rfl,creator_put fun hc => ?_⟩
        revert hc
        simp only [Pc.Creator]
        try split_ifs
        all_goals simp
    | sleep t same next input hcode hm => exact Or.inl ⟨rfl,creator_put (by simp [(wait_next hcode).2.2, Pc.Creator])⟩
    | pass t same next input ht hcode hm => exact Or.inl ⟨rfl,creator_put (by simp [(wait_next hcode).2.2, Pc.Creator])⟩
    | wake t count next woken ht hcode hsub hcard =>
      refine Or.inl ⟨rfl,creator_put fun _ => ?_⟩
      cases hpc : s.pc t with
      | setSlow => simp [Pc.Creator]
      | doWait i => rw [hpc] at hcode; cases hcode
      | outside | own | getSlow | wait | recheck | read | got | create | created => rw [hpc] at hcode; cases hcode
    | interrupt t ht => exact Or.inl ⟨rfl,fun _ => id⟩
  · intro t p hp
    have hkt := (holds_step (stable hptr) hk hs).2 t
    rw [hp] at hkt
    rw [hkt.2, cell_of_two_lt hkt.1]

theorem ptrlock_refines_cell_waiting : ∃ s s', run (step (code ⟨0,0⟩ fun _ => 64)) (init Bool) waiting = some s ∧
    step (code ⟨0,0⟩ fun _ => 64) s (.move false 0) = some s' ∧ s'.mem.cell = .ptr 64 ∧ CellStep (fun _ => 64) s s' ∧
    ∀ t p, s'.pc t = .got p → s'.mem.cell = .ptr p :=
  ⟨_,_,rfl,rfl,rfl,ptrlock_refines_cell valid_64
    (show run (step (code ⟨0,0⟩ fun _ => 64)) (init Bool) waiting = some _ from rfl)
    (show step (code ⟨0,0⟩ fun _ => 64) _ (.move false 0) = some _ from rfl)⟩

theorem leads_of_set [Fintype ι] (hcard : Fintype.card ι ≤ 2 ^ 31 - 1) (hptr : ∀ t, Valid (ptr t)) (hc : c ∉ s.asleep)
    (hpc : s.pc c = .setSlow) (hword : s.mem.word = ptr c) (ht : t ∈ s.asleep) (hpt : s.pc t = .recheck) :
    Leads (code v ptr) s fun s' => ∃ c, s'.pc t = .got (ptr c) := by
  have htc : t ≠ c := fun h => hc (h ▸ ht)
  have hhalf : s.mem.half ≠ 2 := by simpa [Mem.half, hword] using (hptr c).half_ne
  refine Leads.wakeAll hc (by rw [hpc]; rfl) (s.asleep.card_le_univ.trans hcard) ?_
  refine Leads.move (t := t) 0 (by simp) (by simp [htc, hpt]; rfl) ?_
  refine Leads.move (t := t) 0 (by simp) (by simp [hhalf]; rfl) (Leads.done ⟨c,?_⟩)
  simp [hword]

/-- A sleeping call still returns the pointer by actions of the calls alone. -/
theorem sleeper_can_get [Fintype ι] (hcard : Fintype.card ι ≤ 2 ^ 31 - 1) (hptr : ∀ t, Valid (ptr t))
    (h : run (step (code v ptr)) (init ι) es = some s) (ht : t ∈ s.asleep) :
    Leads (code v ptr) s fun s' => ∃ c, s'.pc t = .got (ptr c) := by
  have hsleep : ∀ u ∈ s.asleep, s.pc u = .recheck :=
    asleep_run (fun _ _ _ _ h => (wait_next h).2.2) (by simp [init]) h
  obtain ⟨hc,hk⟩ := knows_run hptr h
  rcases sleeps_awaited hcard hptr h ⟨t,ht⟩ with hword | ⟨u,hu,hpu⟩
  · -- the owner has not set the pointer yet
    obtain ⟨c,howner⟩ : ∃ c, s.mem.owner = some c := by
      rw [← Option.ne_none_iff_exists']
      simp [hc.1, hword]
    have hpc : s.pc c = .create := by
      have hkc := hk c
      rcases creator_of_owner h howner with hp | hp | hp
      · exact hp
      all_goals
        rw [hp] at hkc
        have := hkc.2.2
        omega
    have hcs : c ∉ s.asleep := fun hmem => by simp [hsleep c hmem] at hpc
    have htc : t ≠ c := fun h => hcs (h ▸ ht)
    refine Leads.move 0 hcs (by rw [hpc]; rfl) (leads_of_set hcard hptr (c := c) hcs ?_ rfl ht ?_)
    · simp [hword]
    · simpa [htc] using hsleep t ht
  · have hku := hk u
    rw [hpu] at hku
    exact leads_of_set hcard hptr hu hpu hku.2.1 ht (hsleep t ht)

theorem sleeper_can_get_waiting : ∃ s, run (step (code ⟨0,0⟩ fun _ => 64)) (init Bool) waiting = some s ∧
    Leads (code ⟨0,0⟩ fun _ => 64) s fun s' => ∃ _ : Bool, s'.pc true = .got 64 :=
  ⟨_,rfl,sleeper_can_get (by simp) valid_64
    (show run (step (code ⟨0,0⟩ fun _ => 64)) (init Bool) waiting = some _ from rfl) (by decide)⟩

end Runs

end GompUlt.Ptrlock
