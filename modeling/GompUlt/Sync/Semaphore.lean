import Mathlib
import GompUlt.Sync.Wait

/-! # The futex semaphore

The low 31 bits of the word are the count; the top bit tells that threads may be waiting.
-/
namespace GompUlt.Semaphore
open Run Futex Wait

def semWait : BitVec 32 := 0x80000000#32

def semInc : BitVec 32 := 1#32

/-- The count in a word. -/
def low (word : BitVec 32) : BitVec 32 := word &&& ~~~semWait

/-- The word, and the numbers of posts and of waits completed so far. -/
structure Mem where
  word : BitVec 32
  posted : ℕ
  taken : ℕ
deriving DecidableEq, Repr

/-- Where a thread stands, with the value of its local `count`: in the loop of `gomp_sem_wait`, in one
of the two loops of `gomp_sem_wait_slow`, or in `gomp_sem_post`. -/
inductive Pc where
  | outside
  | waitFast (count : BitVec 32)
  | spin (i : ℕ)
  | setFlag
  | reread
  | take (count : BitVec 32)
  | waitFirst
  | reload
  | second (count : BitVec 32)
  | wakeMore
  | doWait (i : ℕ)
  | wait
  | post (count : BitVec 32)
  | postSlow
deriving DecidableEq, Repr

/-- The thread is about to publish a post. -/
def Pc.isPost : Pc → Bool
  | .post _ => true
  | _ => false

variable (v : SpinVars)

/-- The test of the first loop of `gomp_sem_wait_slow`. -/
def slowHead (count : BitVec 32) (input : ℕ) : Pc := if count = 0 then .spin (v.count input) else .second count

/-- The compare-and-swap that ends a wait; the weak one may fail on input 1. -/
def waitFast (count : BitVec 32) (input : ℕ) (m : Mem) : Mem × Pc :=
  if low count = 0 then (m,slowHead v count input)
  else if m.word = count ∧ input ≠ 1 then ({ m with word := count - semInc, taken := m.taken + 1 },.outside)
  else (m,.waitFast m.word)

/-- The second test of the first loop and its compare-and-swap. -/
def take (count : BitVec 32) (input : ℕ) (m : Mem) : Mem × Pc :=
  if count &&& semWait = 0 ∧ count ≠ 0 then
    if m.word = count then ({ m with word := count - semInc, taken := m.taken + 1 },.outside)
    else (m,slowHead v m.word input)
  else (m,slowHead v count input)

/-- After a wait in the second loop, with `wake` permits seen: more threads are woken when there were
more permits. -/
def afterTake (wake : BitVec 32) : Pc := if semInc < wake then .wakeMore else .outside

/-- After a post, with the value of the word before it. -/
def afterPost (count : BitVec 32) : Pc := if count &&& semWait ≠ 0 then .postSlow else .outside

/-- A turn of the second loop of `gomp_sem_wait_slow`. -/
def second (count : BitVec 32) (input : ℕ) (m : Mem) : Mem × Pc :=
  if m.word = count then
    if low count ≠ 0 then
      ({ m with word := semWait ||| (low count - semInc), taken := m.taken + 1 },afterTake (low count))
    else ({ m with word := semWait },.doWait (v.count input))
  else (m,.second m.word)

/-- A turn of the loop of `gomp_sem_post`. -/
def post (count : BitVec 32) (input : ℕ) (m : Mem) : Mem × Pc :=
  if m.word = count ∧ input ≠ 1 then
    ({ m with word := (count + semInc) &&& ~~~semWait, posted := m.posted + 1 },afterPost count)
  else (m,.post m.word)

/-- The next access of a thread to the word.  The input picks the call an outside thread makes, the
spin count and the failures of a weak compare-and-swap. -/
def code : Pc → Action Mem Pc
  | .outside => .access fun input m => (m,if input = 0 then .waitFast m.word else .post m.word)
  | .waitFast count => .access (waitFast v count)
  | .spin i => doSpin Mem.word 0 .spin .reread .setFlag i
  | .setFlag => .access fun _ m => if m.word = 0 then ({ m with word := semWait },.waitFirst) else (m,.reread)
  | .reread => .access fun _ m => (m,.take m.word)
  | .take count => .access (take v count)
  | .waitFirst => .wait (fun m => m.word == semWait) .reload
  | .reload => .access fun _ m => (m,.second m.word)
  | .second count => .access (second v count)
  | .wakeMore => .wake 1 .outside
  | .doWait i => doSpin Mem.word semWait .doWait .reload .wait i
  | .wait => .wait (fun m => m.word == semWait) .reload
  | .post count => .access (post count)
  | .postSlow => .wake 1 .outside

variable (ι : Type*)

/-- `gomp_sem_init`. -/
def init (value : ℕ) : State ι Mem Pc where
  mem := { word := BitVec.ofNat 32 value, posted := 0, taken := 0 }
  pc _ := .outside
  asleep := ∅

variable {ι}

/-! ## The two parts of the word -/

theorem low_toNat (word : BitVec 32) : (low word).toNat = word.toNat % 2 ^ 31 := by
  have hmask : (~~~semWait).toNat = 2 ^ 31 - 1 := by decide
  rw [low, BitVec.toNat_and, hmask, Nat.and_two_pow_sub_one_eq_mod]

theorem low_eq_zero {word : BitVec 32} : low word = 0 ↔ word.toNat % 2 ^ 31 = 0 := by
  rw [← BitVec.toNat_inj, low_toNat]
  rfl

theorem sub_toNat {count : BitVec 32} (h : count ≠ 0) : (count - semInc).toNat + 1 = count.toNat := by
  have hpos : count.toNat ≠ 0 := fun h0 => h (BitVec.eq_of_toNat_eq h0)
  have hone : semInc.toNat = 1 := rfl
  have hle : semInc ≤ count := by
    rw [BitVec.le_def, hone]
    omega
  rw [BitVec.toNat_sub_of_le hle, hone]
  omega

theorem low_sub {word : BitVec 32} (h : low word ≠ 0) : (low (word - semInc)).toNat + 1 = (low word).toNat := by
  have hpos := mt low_eq_zero.mpr h
  have hword : word ≠ 0 := by
    rintro rfl
    exact h rfl
  have hsub := sub_toNat hword
  rw [low_toNat, low_toNat]
  omega

theorem low_of_flag_clear {word : BitVec 32} (hflag : word &&& semWait = 0) (h : word ≠ 0) : low word ≠ 0 := by
  intro hlow
  have hword : word = low word ||| (word &&& semWait) := by
    have hall : ~~~semWait ||| semWait = BitVec.allOnes 32 := by decide
    rw [low, ← BitVec.and_or_distrib_left, hall, BitVec.and_allOnes]
  exact h (by rw [hword, hlow, hflag]; rfl)

theorem low_post {word : BitVec 32} (h : (low word).toNat + 1 < 2 ^ 31) :
    (low ((word + semInc) &&& ~~~semWait)).toNat = (low word).toNat + 1 := by
  have hsum : ((word + semInc) &&& ~~~semWait) = low (word + semInc) := rfl
  have hlow : (low (word + semInc)).toNat = (low word).toNat + 1 := by
    rw [low_toNat] at h ⊢
    rw [low_toNat, BitVec.toNat_add]
    have hone : semInc.toNat = 1 := rfl
    omega
  rw [hsum, low_toNat, hlow]
  omega

theorem flag_toNat {count : BitVec 32} (h : count.toNat < 2 ^ 31) : (semWait ||| count).toNat = 2 ^ 31 + count.toNat := by
  have hflag : semWait.toNat = 2 ^ 31 * 1 := rfl
  rw [BitVec.toNat_or, hflag, ← Nat.two_pow_add_eq_or_of_lt h, Nat.mul_one]

theorem low_flag {count : BitVec 32} (h : count.toNat < 2 ^ 31) : (low (semWait ||| count)).toNat = count.toNat := by
  rw [low_toNat, flag_toNat h]
  omega

/-! ## Permits are neither lost nor made -/

/-- The permits there were at first and those posted are taken or in the count. -/
def Balanced (value : ℕ) (m : Mem) : Prop := value + m.posted = m.taken + (low m.word).toNat

variable {v} {value : ℕ} {m : Mem}

theorem balanced_waitFast (h : Balanced value m) (count : BitVec 32) (input : ℕ) :
    Balanced value (waitFast v count input m).1 := by
  unfold waitFast
  split_ifs with hlow hcas
  · exact h
  · have hsub := low_sub hlow
    simp only [Balanced, hcas.1] at h ⊢
    omega
  · exact h

theorem balanced_take (h : Balanced value m) (count : BitVec 32) (input : ℕ) :
    Balanced value (take v count input m).1 := by
  unfold take
  split_ifs with hcount hcas
  · have hsub := low_sub (low_of_flag_clear hcount.1 hcount.2)
    simp only [Balanced, hcas] at h ⊢
    omega
  · exact h
  · exact h

theorem balanced_second (h : Balanced value m) (count : BitVec 32) (input : ℕ) :
    Balanced value (second v count input m).1 := by
  unfold second
  split_ifs with hcas hlow
  · have hsub := sub_toNat hlow
    have hlt : (low count).toNat < 2 ^ 31 := by
      rw [low_toNat]
      omega
    have hnew : (low (semWait ||| (low count - semInc))).toNat = _ := low_flag (by omega)
    simp only [Balanced, hcas, hnew] at h ⊢
    omega
  · have hzero : (low semWait).toNat = 0 := by decide
    have hcount : (low count).toNat = 0 := by simp [not_not.mp hlow]
    simp only [Balanced, hcas, hzero, hcount] at h ⊢
    exact h
  · exact h

theorem balanced_post (h : Balanced value m) (count : BitVec 32) (input : ℕ)
    (hroom : (low m.word).toNat + 1 < 2 ^ 31) : Balanced value (post count input m).1 := by
  unfold post
  split_ifs with hcas
  · have hnew := low_post (hcas.1 ▸ hroom)
    simp only [Balanced, hcas.1, hnew] at h ⊢
    omega
  · exact h

theorem balanced_access {p : Pc} {f : ℕ → Mem → Mem × Pc} (hf : code v p = .access f) (input : ℕ)
    (hroom : p.isPost = true → (low m.word).toNat + 1 < 2 ^ 31) (h : Balanced value m) :
    Balanced value (f input m).1 := by
  cases p with
  | spin i | doWait i =>
    rw [(doSpin_cases hf input m).1]
    exact h
  | waitFirst | wait | wakeMore | postSlow => cases hf
  | outside | reread | reload =>
    obtain rfl := Action.access.inj hf
    exact h
  | waitFast count =>
    obtain rfl := Action.access.inj hf
    exact balanced_waitFast h count input
  | take count =>
    obtain rfl := Action.access.inj hf
    exact balanced_take h count input
  | second count =>
    obtain rfl := Action.access.inj hf
    exact balanced_second h count input
  | post count =>
    obtain rfl := Action.access.inj hf
    exact balanced_post h count input (hroom rfl)
  | setFlag =>
    obtain rfl := Action.access.inj hf
    have hzero : (low semWait).toNat = (low 0).toNat := by decide
    simp only
    split_ifs with hword
    · simpa only [Balanced, hword, hzero] using h
    · exact h

/-- A post finds room for one more permit. -/
def Room (s : State ι Mem Pc) : Event ι → Prop
  | .move t _ => (s.pc t).isPost = true → (low s.mem.word).toNat + 1 < 2 ^ 31
  | _ => True

theorem balanced_run [DecidableEq ι] {es : List (Event ι)} {s s' : State ι Mem Pc} (h0 : Balanced value s.mem)
    (hroom : Along (step fun _ => code v) Room s es) (h : run (step fun _ => code v) s es = some s') :
    Balanced value s'.mem := by
  have hstep : ∀ s e s', Balanced value s.mem → Room s e → step (fun _ : ι => code v) s e = some s' →
      Balanced value s'.mem := by
    intro s e s' hb hr hs
    cases step_cases hs with
    | access t f input ht hf => exact balanced_access hf input hr hb
    | sleep t same next input hcode hm => exact hb
    | pass t same next input ht hcode hm => exact hb
    | wake t count next woken ht hcode hsub hcard => exact hb
    | interrupt t ht => exact hb
  exact run_invariant hstep h0 hroom h

/-! ## No wake-up is lost -/

/-- A woken thread, which sets the flag again or takes a permit, and a thread about to wake one. -/
def Owes (p : Pc) : Prop := p = .reload ∨ (∃ count, p = .second count) ∨ p = .wakeMore ∨ p = .postSlow

variable (v)

theorem wait_next {p next : Pc} {same : Mem → Bool} (h : code v p = .wait same next) :
    (same = fun m => m.word == semWait) ∧ next = .reload := by
  cases p with
  | waitFirst | wait => cases h; simp
  | spin i | doWait i => cases h
  | outside | waitFast | setFlag | reread | take | reload | second | wakeMore | post | postSlow => cases h

theorem wake_next {p next : Pc} {count : ℕ} (h : code v p = .wake count next) : count = 1 := by
  cases p with
  | wakeMore | postSlow => cases h; rfl
  | spin i | doWait i => cases h
  | outside | waitFast | setFlag | reread | take | reload | second | waitFirst | wait | post => cases h

theorem owed_second (count : BitVec 32) (input : ℕ) (m : Mem) :
    (second v count input m).1.word = semWait ∨ Owes (second v count input m).2 := by
  unfold second
  split_ifs with hcas hlow
  · by_cases hmore : semInc < low count
    · exact Or.inr (Or.inr (Or.inr (Or.inl (if_pos hmore))))
    · -- the only permit: the count left is 0 and the flag is set
      have hsub := sub_toNat hlow
      have hone : semInc.toNat = 1 := rfl
      have hle : (low count).toNat ≤ 1 := by simpa [BitVec.lt_def, hone] using hmore
      have hzero : low count - semInc = 0 := BitVec.eq_of_toNat_eq (by simp; omega)
      exact Or.inl (by simp [hzero])
  · exact Or.inl rfl
  · exact Or.inr (Or.inr (Or.inl ⟨_,rfl⟩))

theorem owed : Owed (fun _ : ι => code v) (fun m => m.word = semWait) Owes where
  access := by
    intro t p f input m hf h
    cases p with
    | spin i | doWait i =>
      have hm : m.word = semWait := by simpa [Owes] using h
      rw [(doSpin_cases hf input m).1]
      exact Or.inl hm
    | waitFirst | wait | wakeMore | postSlow => cases hf
    | outside | reread =>
      obtain rfl := Action.access.inj hf
      exact Or.inl (by simpa [Owes] using h)
    | setFlag =>
      obtain rfl := Action.access.inj hf
      have hm : m.word = semWait := by simpa [Owes] using h
      have hne : semWait ≠ 0 := by decide
      left
      simp only [hm, if_neg hne]
    | reload =>
      obtain rfl := Action.access.inj hf
      exact Or.inr (Or.inr (Or.inl ⟨_,rfl⟩))
    | waitFast count =>
      obtain rfl := Action.access.inj hf
      have hm : m.word = semWait := by simpa [Owes] using h
      have hzero : low semWait = 0 := by decide
      unfold waitFast
      split_ifs with hlow hcas
      · exact Or.inl hm
      · exact absurd (hcas.1 ▸ hm ▸ hzero) hlow
      · exact Or.inl hm
    | take count =>
      obtain rfl := Action.access.inj hf
      have hm : m.word = semWait := by simpa [Owes] using h
      have hflag : semWait &&& semWait ≠ 0 := by decide
      unfold take
      split_ifs with hcount hcas
      · exact absurd (hm.symm.trans hcas ▸ hcount.1) hflag
      · exact Or.inl hm
      · exact Or.inl hm
    | second count =>
      obtain rfl := Action.access.inj hf
      exact owed_second v count input m
    | post count =>
      obtain rfl := Action.access.inj hf
      have hm : m.word = semWait := by simpa [Owes] using h
      have hflag : semWait &&& semWait ≠ 0 := by decide
      unfold post
      split_ifs with hcas
      · right
        have hpost : afterPost semWait = .postSlow := if_pos hflag
        rw [← hcas.1, hm, hpost]
        exact Or.inr (Or.inr (Or.inr rfl))
      · exact Or.inl hm
  wait := by
    intro t p same next h
    obtain ⟨rfl,rfl⟩ := wait_next v h
    exact ⟨fun m hm => by simpa using hm,fun _ => Or.inl rfl⟩
  wake := by
    refine Or.inl ⟨fun t p count next h => ?_,fun t p same next h => ?_⟩
    · simp [wake_next v h]
    · exact Or.inl (wait_next v h).2

/-- In every run in which no post overflows the count, the waits completed and the permits left are the
permits there were and those posted; and a thread sleeps only while no permit is left and the flag
tells the next post to wake one, or an awake thread is about to set it or to wake one. -/
theorem sem_run [DecidableEq ι] {value : ℕ} (hvalue : value < 2 ^ 31) {es : List (Event ι)} {s : State ι Mem Pc}
    (hroom : Along (step fun _ => code v) Room (init ι value) es)
    (h : run (step fun _ => code v) (init ι value) es = some s) :
    value + s.mem.posted = s.mem.taken + (low s.mem.word).toNat ∧
      (s.asleep.Nonempty → s.mem.word = semWait ∨ ∃ t, t ∉ s.asleep ∧ Owes (s.pc t)) := by
  refine ⟨balanced_run ?_ hroom h,awaited_run (owed v) rfl h⟩
  simp only [Balanced, init, low_toNat, BitVec.toNat_ofNat]
  omega

/-- One permit: a first thread takes it, a second one falls asleep and the first one posts. -/
def posted : List (Event Bool) :=
  [.move false 0,.move false 0,.move true 0,.move true 0,.move true 0,.move true 0,.move true 0,.move false 1,.move false 0]

instance (s : State ι Mem Pc) : (e : Event ι) → Decidable (Room s e)
  | .move t _ => inferInstanceAs (Decidable ((s.pc t).isPost = true → (low s.mem.word).toNat + 1 < 2 ^ 31))
  | .wake _ _ | .interrupt _ => isTrue trivial

theorem sem_run_posted : ∃ s, run (step fun _ => code ⟨0,0⟩) (init Bool 1) posted = some s ∧
    s.asleep = {true} ∧ s.mem.posted = 1 ∧ 1 + s.mem.posted = s.mem.taken + (low s.mem.word).toNat ∧
    (s.asleep.Nonempty → s.mem.word = semWait ∨ ∃ t, t ∉ s.asleep ∧ Owes (s.pc t)) :=
  ⟨_,rfl,by decide,rfl,sem_run ⟨0,0⟩ (by decide) (along_of_check (by decide))
    (show run (step fun _ => code ⟨0,0⟩) (init Bool 1) posted = some _ from rfl)⟩

section Progress
variable {v} [DecidableEq ι] {s : State ι Mem Pc} {t u : ι}

/-- A wait completes and nobody posts. -/
def OneTaken (m : Mem) (s : State ι Mem Pc) : Prop := s.mem.taken = m.taken + 1 ∧ s.mem.posted = m.posted

theorem leads_of_fresh (hu : u ∉ s.asleep) (hpu : s.pc u = .second s.mem.word) (hlow : low s.mem.word ≠ 0) :
    Leads (fun _ => code v) s (OneTaken s.mem) := by
  have htaken : OneTaken s.mem ({ s with mem := (second v s.mem.word 0 s.mem).1 } : State ι Mem Pc) := by
    simp only [OneTaken, second, if_true, if_pos hlow, and_self]
  exact Leads.move 0 hu (by rw [hpu]; rfl) (Leads.done htaken)

theorem leads_of_second {count : BitVec 32} (hu : u ∉ s.asleep) (hpu : s.pc u = .second count)
    (hlow : low s.mem.word ≠ 0) : Leads (fun _ => code v) s (OneTaken s.mem) := by
  by_cases hcount : s.mem.word = count
  · exact leads_of_fresh hu (hcount ▸ hpu) hlow
  · refine Leads.move 0 hu (by rw [hpu]; rfl) ?_
    have hsecond : second v count 0 s.mem = (s.mem,.second s.mem.word) := by simp [second, hcount]
    rw [hsecond]
    exact leads_of_fresh (u := u) hu (by simp) hlow

theorem leads_of_reload (hu : u ∉ s.asleep) (hpu : s.pc u = .reload) (hlow : low s.mem.word ≠ 0) :
    Leads (fun _ => code v) s (OneTaken s.mem) := by
  refine Leads.move 0 hu (by rw [hpu]; rfl) ?_
  exact leads_of_fresh (u := u) hu (by simp) hlow

theorem leads_of_wake (hu : u ∉ s.asleep) (hcode : code v (s.pc u) = .wake 1 .outside) (ht : t ∈ s.asleep)
    (hpt : s.pc t = .reload) (hlow : low s.mem.word ≠ 0) : Leads (fun _ => code v) s (OneTaken s.mem) := by
  have htu : t ≠ u := fun h => hu (h ▸ ht)
  refine Leads.wakeOne hu ht hcode rfl ?_
  exact leads_of_reload (u := t) (by simp) (by simpa [htu] using hpt) hlow

/-- No permit is left over while a thread sleeps: the threads complete a wait by their own actions,
without another post. -/
theorem permit_can_be_taken {value : ℕ} {es : List (Event ι)}
    (h : run (step fun _ => code v) (init ι value) es = some s) (ht : t ∈ s.asleep) (hlow : low s.mem.word ≠ 0) :
    Leads (fun _ => code v) s (OneTaken s.mem) := by
  have hpt : s.pc t = .reload :=
    asleep_run (fun _ _ _ _ h => (wait_next v h).2) (by simp [init]) h t ht
  rcases awaited_run (owed v) rfl h ⟨t,ht⟩ with hm | ⟨u,hu,hpu⟩
  · have hzero : low semWait = 0 := by decide
    exact absurd (hm ▸ hzero) hlow
  · rcases hpu with hp | ⟨count,hp⟩ | hp | hp
    · exact leads_of_reload hu hp hlow
    · exact leads_of_second hu hp hlow
    · exact leads_of_wake hu (by rw [hp]; rfl) ht hpt hlow
    · exact leads_of_wake hu (by rw [hp]; rfl) ht hpt hlow

theorem permit_can_be_taken_posted : ∃ s, run (step fun _ => code ⟨0,0⟩) (init Bool 1) posted = some s ∧
    Leads (fun _ => code ⟨0,0⟩) s (OneTaken s.mem) :=
  ⟨_,rfl,permit_can_be_taken (t := true)
    (show run (step fun _ => code ⟨0,0⟩) (init Bool 1) posted = some _ from rfl) (by decide) (by decide)⟩

end Progress

end GompUlt.Semaphore
