import Mathlib
import GompUlt.Sync.Wait

/-! # Nested locks

The nested lock of OpenMP 2.5 is a futex on the thread id of its owner.  The one of OpenMP 3.0 is a
mutex with the task that owns it.  Both count how often the owner has set them, in an `int` that is
taken as a natural number here: a lock is set less than 2^31 times more often than it is unset.
-/
namespace GompUlt.NestLock
open Run Futex Wait

/-! ## `omp_nest_lock_25_t` -/
section Futex25

/-- `owner` is 0 or a thread id. -/
structure Lock25 where
  owner : ℕ
  count : ℕ
deriving DecidableEq, Repr

/-- Where a thread stands, with the number of its set calls that no unset call has undone. -/
inductive Pc25 where
  | outside (depth : ℕ)
  | set (depth : ℕ)
  | test (depth : ℕ)
  | first
  | again (depth : ℕ)
  | doWait (otid : ℕ+) (i : ℕ)
  | wait (otid : ℕ+)
  | unset (depth : ℕ)
  | release
  | wake
deriving DecidableEq, Repr

variable {ι : Type*} (v : SpinVars) (tid : ι → ℕ+)

/-- The next access of a thread to the lock.  The input picks the call an outside thread makes and the
spin count; only a thread that has set the lock unsets it. -/
def code25 (t : ι) : Pc25 → Action Lock25 Pc25
  | .outside depth => .access fun input m =>
    (m,if input = 0 then .set depth else if input = 1 then .test depth else if 0 < depth then .unset depth
      else .outside depth)
  | .set depth => .access fun input m =>
    if h : m.owner = 0 then ({ m with owner := tid t },.first)
    else if m.owner = tid t then (m,.again depth)
    else (m,.doWait ⟨m.owner,Nat.pos_of_ne_zero h⟩ (v.count input))
  | .test depth => .access fun _ m =>
    if m.owner = 0 then ({ m with owner := tid t },.first)
    else if m.owner = tid t then (m,.again depth)
    else (m,.outside depth)
  | .first => .access fun _ m => ({ m with count := 1 },.outside 1)
  | .again depth => .access fun _ m => ({ m with count := m.count + 1 },.outside (depth + 1))
  | .doWait otid i => doSpin Lock25.owner otid (.doWait otid) (.set 0) (.wait otid) i
  | .wait otid => .wait (fun m => m.owner == otid) (.set 0)
  | .unset depth => .access fun _ m =>
    ({ m with count := m.count - 1 },if m.count - 1 = 0 then .release else .outside (depth - 1))
  | .release => .access fun _ m => ({ m with owner := 0 },.wake)
  | .wake => .wake 1 (.outside 0)

/-- `gomp_init_nest_lock_25`. -/
def init25 (ι : Type*) : State ι Lock25 Pc25 where
  mem := { owner := 0, count := 0 }
  pc _ := .outside 0
  asleep := ∅

/-- How often a thread has set the lock, while that number is settled. -/
def Pc25.depth : Pc25 → ℕ
  | .outside depth | .set depth | .test depth | .again depth | .unset depth => depth
  | .first | .release => 1
  | .doWait _ _ | .wait _ | .wake => 0

variable {v tid}

/-- What a thread knows of the lock: it is the owner as long as it has set it, and the count is its own. -/
def Knows25 (tid : ι → ℕ+) (t : ι) (p : Pc25) (m : Lock25) : Prop :=
  (m.owner = tid t ↔ 0 < p.depth) ∧
    match p with
    | .first => True
    | .release => m.count = 0
    | .again depth | .unset depth => 0 < depth ∧ m.count = depth
    | p => 0 < p.depth → m.count = p.depth

variable (tid) in
theorem tid_ne_zero (t : ι) : (tid t : ℕ) ≠ 0 := (tid t).ne_zero

/-- A thread that is not the owner knows nothing of the count. -/
theorem Knows25.of_not_owner {t : ι} {p : Pc25} {m m' : Lock25} (h : Knows25 tid t p m) (hm : m.owner ≠ tid t)
    (hm' : m'.owner ≠ tid t) : Knows25 tid t p m' := by
  obtain ⟨howner,hcount⟩ := h
  have hdepth : ¬(0 < p.depth) := fun hd => hm (howner.mpr hd)
  refine ⟨iff_of_false hm' hdepth,?_⟩
  cases p <;> simp_all [Pc25.depth]

/-- A thread writes the lock only when it takes it or owns it. -/
theorem writes25 {t : ι} {p : Pc25} {f : ℕ → Lock25 → Lock25 × Pc25} {m : Lock25} (hf : code25 v tid t p = .access f)
    (hk : Knows25 tid t p m) (input : ℕ) : (f input m).1 = m ∨
      (m.owner = 0 ∨ m.owner = tid t) ∧ ((f input m).1.owner = 0 ∨ (f input m).1.owner = tid t) := by
  cases p with
  | doWait otid i => exact Or.inl (doSpin_cases hf input m).1
  | wait | wake => cases hf
  | outside depth =>
    obtain rfl := Action.access.inj hf
    exact Or.inl rfl
  | set depth | test depth =>
    obtain rfl := Action.access.inj hf
    simp only
    split_ifs with h0
    · exact Or.inr ⟨Or.inl h0,Or.inr rfl⟩
    · exact Or.inl rfl
    · exact Or.inl rfl
  | first | again depth | unset depth | release =>
    obtain rfl := Action.access.inj hf
    have howner : m.owner = tid t := hk.1.mpr (by simp_all [Knows25, Pc25.depth])
    simp [howner]

theorem stable25 (htid : Function.Injective tid) : Stable (code25 v tid) (fun _ => True) (Knows25 tid) where
  access := by
    intro t p f input m hf _ hk
    refine ⟨trivial,?_⟩
    have hne := tid_ne_zero tid t
    cases p with
    | doWait otid i =>
      obtain ⟨hm,hp⟩ := doSpin_cases hf input m
      rw [hm]
      rcases hp with hp | ⟨hp,-⟩ | ⟨j,hp⟩ <;> (rw [hp]; exact hk)
    | wait | wake => cases hf
    | outside depth =>
      obtain rfl := Action.access.inj hf
      simp only
      split_ifs <;> simp_all [Knows25, Pc25.depth]
    | set depth | test depth =>
      obtain rfl := Action.access.inj hf
      simp only
      split_ifs <;> simp_all [Knows25, Pc25.depth]
    | first | again depth | release =>
      obtain rfl := Action.access.inj hf
      simp_all [Knows25, Pc25.depth, hne.symm]
    | unset depth =>
      obtain rfl := Action.access.inj hf
      simp only
      split_ifs with hzero
      · simp_all [Knows25, Pc25.depth]
      · have hleft : 0 < m.count - 1 := Nat.pos_of_ne_zero hzero
        simp_all [Knows25, Pc25.depth]
  other := by
    intro t p f input m u q hf _ hk hu hku
    rcases writes25 hf hk input with hm | ⟨hm,hm'⟩
    · rwa [hm]
    · have hne : ∀ x : ℕ, x = 0 ∨ x = tid t → x ≠ tid u := by
        rintro x (rfl | rfl) hx
        · exact tid_ne_zero tid u hx.symm
        · exact hu (htid (PNat.coe_injective hx.symm))
      exact hku.of_not_owner (hne _ hm) (hne _ hm')
  wait := by
    intro t p same next m h _ hk
    cases p with
    | wait => cases h; simpa [Knows25, Pc25.depth] using hk
    | doWait => cases h
    | outside | set | test | first | again | unset | release | wake => cases h
  wake := by
    intro t p count next m h _ hk
    cases p with
    | wake => cases h; simpa [Knows25, Pc25.depth] using hk
    | doWait => cases h
    | outside | set | test | first | again | wait | unset | release => cases h

/-- A thread about to wake a sleeper, and one about to try to take the lock. -/
def Owes25 (p : Pc25) : Prop := p = .wake ∨ ∃ depth, p = .set depth

theorem owed25 : Owed (code25 v tid) (fun m => m.owner ≠ 0) Owes25 where
  access := by
    intro t p f input m hf h
    have hne := tid_ne_zero tid t
    cases p with
    | doWait otid i =>
      rw [(doSpin_cases hf input m).1]
      exact Or.inl (by simpa [Owes25] using h)
    | wait | wake => cases hf
    | set depth | test depth =>
      obtain rfl := Action.access.inj hf
      simp only
      left
      split_ifs <;> simp_all
    | release =>
      obtain rfl := Action.access.inj hf
      exact Or.inr (Or.inl rfl)
    | outside depth | first | again depth | unset depth =>
      obtain rfl := Action.access.inj hf
      exact Or.inl (by simpa [Owes25] using h)
  wait := by
    intro t p same next h
    cases p with
    | wait otid =>
      cases h
      refine ⟨fun m hm => ?_,fun _ => Or.inr ⟨0,rfl⟩⟩
      simp only [beq_iff_eq] at hm
      simp [hm]
    | doWait => cases h
    | outside | set | test | first | again | unset | release | wake => cases h
  wake := by
    refine Or.inl ⟨fun t p count next h => ?_,fun t p same next h => ?_⟩
    · cases p with
      | wake => cases h; decide
      | doWait => cases h
      | outside | set | test | first | again | wait | unset | release => cases h
    · cases p with
      | wait => cases h; exact Or.inr ⟨0,rfl⟩
      | doWait => cases h
      | outside | set | test | first | again | unset | release | wake => cases h

/-- In every run, at most one thread has set the nested lock, the count is how often it did, and a thread
sleeps only while another one owns the lock, or while an awake thread is about to try for it or to
wake one. -/
theorem nest_lock_25_run [DecidableEq ι] (htid : Function.Injective tid) {es : List (Event ι)}
    {s : State ι Lock25 Pc25} (h : run (step (code25 v tid)) (init25 ι) es = some s) :
    (∀ t u, 0 < (s.pc t).depth → 0 < (s.pc u).depth → t = u) ∧
      (∀ t depth, s.pc t = .outside depth → 0 < depth → s.mem.count = depth) ∧
      (s.asleep.Nonempty → s.mem.owner ≠ 0 ∨ ∃ t, t ∉ s.asleep ∧ Owes25 (s.pc t)) := by
  have hinit : Holds (fun _ => True) (Knows25 tid) (init25 ι) := by
    refine ⟨trivial,fun t => ?_⟩
    have hne := tid_ne_zero tid t
    simp [Knows25, init25, Pc25.depth, hne.symm]
  have hk := (holds_run (stable25 htid) hinit h).2
  refine ⟨fun t u ht hu => ?_,fun t depth hp hd => ?_,awaited_run owed25 rfl h⟩
  · exact htid (PNat.coe_injective (((hk t).1.mpr ht).symm.trans ((hk u).1.mpr hu)))
  · have hkt := (hk t).2
    rw [hp] at hkt
    exact hkt hd

/-- The first thread sets the lock twice and unsets it once while the second one waits for it. -/
def nested25 : List (Event Bool) :=
  [.move false 0,.move false 0,.move false 0,.move true 0,.move true 0,.move true 0,.move true 0,.move false 0,.move false 0,.move false 0,
    .move false 2,.move false 0]

def twoTids (t : Bool) : ℕ+ := ⟨t.toNat + 1,t.toNat.succ_pos⟩

theorem twoTids_injective : Function.Injective twoTids := by
  intro t u h
  have hval : t.toNat + 1 = u.toNat + 1 := congrArg PNat.val h
  cases t <;> cases u <;> first | rfl | cases hval

theorem nest_lock_25_run_nested : ∃ s, run (step (code25 ⟨0,0⟩ twoTids)) (init25 Bool) nested25 = some s ∧
    s.asleep = {true} ∧ s.mem.count = 1 ∧ (∀ t u, 0 < (s.pc t).depth → 0 < (s.pc u).depth → t = u) ∧
    (∀ t depth, s.pc t = .outside depth → 0 < depth → s.mem.count = depth) ∧
    (s.asleep.Nonempty → s.mem.owner ≠ 0 ∨ ∃ t, t ∉ s.asleep ∧ Owes25 (s.pc t)) :=
  ⟨_,rfl,by decide,rfl,nest_lock_25_run twoTids_injective
    (show run (step (code25 ⟨0,0⟩ twoTids)) (init25 Bool) nested25 = some _ from rfl)⟩

end Futex25

/-! ## `omp_nest_lock_t`

The mutex is taken as its holder: `GompUlt.Mutex` shows that there is at most one.
-/
section Mutex30

/-- `holder` is the task that locked the mutex, `owner` the one whose control variables are written. -/
structure Lock30 (ι : Type*) where
  holder : Option ι
  owner : Option ι
  count : ℕ

/-- Where a task stands, with the number of its set calls that no unset call has undone. -/
inductive Pc30 where
  | outside (depth : ℕ)
  | set (depth : ℕ)
  | lock
  | own
  | increment (depth : ℕ)
  | test (depth : ℕ)
  | again (depth : ℕ)
  | tryLock
  | tested
  | countOne
  | unset (depth : ℕ)
  | disown
  | unlock
deriving DecidableEq, Repr

variable {ι : Type*} [DecidableEq ι]

/-- The next access of a task to the lock.  `lock` stays where it is as long as the mutex is locked. -/
def code30 (t : ι) : Pc30 → Action (Lock30 ι) Pc30
  | .outside depth => .access fun input m =>
    (m,if input = 0 then .set depth else if input = 1 then .test depth else if 0 < depth then .unset depth
      else .outside depth)
  | .set depth => .access fun _ m => (m,if m.owner ≠ some t then .lock else .increment depth)
  | .lock => .access fun _ m => if m.holder = none then ({ m with holder := some t },.own) else (m,.lock)
  | .own => .access fun _ m => ({ m with owner := some t },.increment 0)
  | .increment depth => .access fun _ m => ({ m with count := m.count + 1 },.outside (depth + 1))
  | .test depth => .access fun _ m => (m,if m.owner = some t then .again depth else .tryLock)
  | .again depth => .access fun _ m => ({ m with count := m.count + 1 },.outside (depth + 1))
  | .tryLock => .access fun _ m => if m.holder = none then ({ m with holder := some t },.tested) else (m,.outside 0)
  | .tested => .access fun _ m => ({ m with owner := some t },.countOne)
  | .countOne => .access fun _ m => ({ m with count := 1 },.outside 1)
  | .unset depth => .access fun _ m =>
    ({ m with count := m.count - 1 },if m.count - 1 = 0 then .disown else .outside (depth - 1))
  | .disown => .access fun _ m => ({ m with owner := none },.unlock)
  | .unlock => .access fun _ m => ({ m with holder := none },.outside 0)

/-- `gomp_init_nest_lock_30`. -/
def init30 (ι : Type*) : State ι (Lock30 ι) Pc30 where
  mem := { holder := none, owner := none, count := 0 }
  pc _ := .outside 0
  asleep := ∅

def Pc30.held : Pc30 → Bool
  | .outside depth | .set depth | .test depth => 0 < depth
  | .lock | .tryLock => false
  | .own | .increment _ | .again _ | .tested | .countOne | .unset _ | .disown | .unlock => true

def Pc30.owned : Pc30 → Bool
  | .outside depth | .set depth | .test depth => 0 < depth
  | .lock | .tryLock | .own | .tested | .unlock => false
  | .increment _ | .again _ | .countOne | .unset _ | .disown => true

/-- The count as the holder of the mutex finds it. -/
def CountAt (p : Pc30) (count : ℕ) : Prop :=
  match p with
  | .outside depth | .set depth | .test depth => 0 < depth → count = depth
  | .lock | .tryLock | .countOne => True
  | .own | .tested | .disown | .unlock => count = 0
  | .increment depth | .again depth => count = depth
  | .unset depth => 0 < depth ∧ count = depth

/-- The owner has locked the mutex, and an unlocked one has count 0. -/
def Common30 (m : Lock30 ι) : Prop :=
  (∀ t, m.owner = some t → m.holder = some t) ∧ (m.holder = none → m.count = 0)

def Knows30 (t : ι) (p : Pc30) (m : Lock30 ι) : Prop :=
  (m.holder = some t ↔ p.held = true) ∧ (m.owner = some t ↔ p.owned = true) ∧ CountAt p m.count

omit [DecidableEq ι] in
/-- Without the mutex a task knows nothing of the count. -/
theorem Knows30.of_not_holder {t : ι} {p : Pc30} {m m' : Lock30 ι} (h : Knows30 t p m) (hm : m.holder ≠ some t)
    (hholder : m'.holder ≠ some t) (howner : m'.owner ≠ some t) : Knows30 t p m' := by
  have hheld : p.held = false := by simpa using mt h.1.mpr hm
  have howned : p.owned = false := by cases p <;> simp_all [Pc30.held, Pc30.owned]
  refine ⟨by simp [hholder, hheld],by simp [howner, howned],?_⟩
  cases p <;> simp_all [Pc30.held, CountAt]

/-- A task writes the lock only when it locks the mutex or has locked it, and leaves no other task in it. -/
theorem writes30 {t : ι} {p : Pc30} {f : ℕ → Lock30 ι → Lock30 ι × Pc30} {m : Lock30 ι} (hf : code30 t p = .access f)
    (hk : Knows30 t p m) (input : ℕ) : (f input m).1 = m ∨
      ∀ u, u ≠ t → m.holder ≠ some u ∧ (f input m).1.holder ≠ some u ∧
        (m.owner ≠ some u → (f input m).1.owner ≠ some u) := by
  have hno : ∀ u, u ≠ t → some t ≠ some u := fun u hu h => hu (Option.some.inj h).symm
  cases p with
  | outside depth | set depth | test depth =>
    obtain rfl := Action.access.inj hf
    exact Or.inl rfl
  | lock | tryLock =>
    obtain rfl := Action.access.inj hf
    simp only
    split_ifs with hfree
    · exact Or.inr fun u hu => ⟨by simp [hfree],hno u hu,id⟩
    · exact Or.inl rfl
  | own | increment depth | again depth | tested | countOne | unset depth | disown | unlock =>
    obtain rfl := Action.access.inj hf
    have hholder : m.holder = some t := hk.1.mpr rfl
    right
    intro u hu
    have := hno u hu
    simp_all

theorem stable30 : Stable (code30 : ι → Pc30 → _) Common30 Knows30 where
  access := by
    intro t p f input m hf hc hk
    cases p with
    | outside depth =>
      obtain rfl := Action.access.inj hf
      refine ⟨hc,?_⟩
      simp only
      split_ifs <;> simp_all [Knows30, Pc30.held, Pc30.owned, CountAt]
    | set depth | test depth =>
      obtain rfl := Action.access.inj hf
      refine ⟨hc,?_⟩
      by_cases howner : m.owner = some t
      · have hdepth : 0 < depth := by simpa [Pc30.owned] using hk.2.1.mp howner
        have hcount : m.count = depth := hk.2.2 hdepth
        simp_all [Knows30, Pc30.held, Pc30.owned, CountAt]
      · have hdepth : ¬(0 < depth) := fun h => howner (hk.2.1.mpr (by simpa [Pc30.owned] using h))
        simp_all [Knows30, Pc30.held, Pc30.owned, CountAt]
    | lock | tryLock =>
      obtain rfl := Action.access.inj hf
      simp only
      split_ifs with hfree
      · have hnone : ∀ u, m.owner ≠ some u := fun u h => by simpa [hfree] using hc.1 u h
        simp_all [Common30, Knows30, Pc30.held, Pc30.owned, CountAt]
      · exact ⟨hc,by simp_all [Knows30, Pc30.held, Pc30.owned, CountAt]⟩
    | own | increment depth | again depth | tested | countOne | disown =>
      obtain rfl := Action.access.inj hf
      simp_all [Common30, Knows30, Pc30.held, Pc30.owned, CountAt]
    | unset depth =>
      obtain rfl := Action.access.inj hf
      have hheld : m.holder = some t := hk.1.mpr rfl
      have hcount : 0 < depth ∧ m.count = depth := hk.2.2
      refine ⟨⟨hc.1,fun h => by simp [hheld] at h⟩,?_⟩
      simp only
      split_ifs with hzero
      · simp_all [Knows30, Pc30.held, Pc30.owned, CountAt]
      · have hleft : 0 < m.count - 1 := Nat.pos_of_ne_zero hzero
        simp_all [Knows30, Pc30.held, Pc30.owned, CountAt]
    | unlock =>
      obtain rfl := Action.access.inj hf
      have hheld : m.holder = some t := hk.1.mpr rfl
      have hnone : ∀ u, m.owner ≠ some u := by
        intro u h
        obtain rfl : t = u := Option.some.inj (hheld.symm.trans (hc.1 u h))
        simpa [Pc30.owned] using hk.2.1.mp h
      simp_all [Common30, Knows30, Pc30.held, Pc30.owned, CountAt]
  other := by
    intro t p f input m u q hf hc hk hu hku
    rcases writes30 hf hk input with hm | hm
    · rwa [hm]
    · obtain ⟨hholder,hholder',howner⟩ := hm u hu
      refine hku.of_not_holder hholder hholder' (howner fun h => ?_)
      have hheld : q.held = true := by
        have howned := hku.2.1.mp h
        cases q <;> simp_all [Pc30.held, Pc30.owned]
      exact hholder (hku.1.mpr hheld)
  wait := by
    intro t p same next m h
    cases p <;> cases h
  wake := by
    intro t p count next m h
    cases p <;> cases h

/-- In every run at most one task has locked the mutex of a nested lock, it alone is written as the owner
between its calls, and the count is the number of its set calls that are not undone. -/
theorem nest_lock_30_run {es : List (Event ι)} {s : State ι (Lock30 ι) Pc30}
    (h : run (step code30) (init30 ι) es = some s) :
    (∀ t u, (s.pc t).held = true → (s.pc u).held = true → t = u) ∧
      (∀ t depth, s.pc t = .outside depth →
        (s.mem.owner = some t ↔ 0 < depth) ∧ (0 < depth → s.mem.count = depth)) := by
  have hinit : Holds Common30 Knows30 (init30 ι) := by
    simp [Holds, Common30, Knows30, init30, Pc30.held, Pc30.owned, CountAt]
  have hk := (holds_run stable30 hinit h).2
  refine ⟨fun t u ht hu => ?_,fun t depth hp => ?_⟩
  · exact Option.some.inj (((hk t).1.mpr ht).symm.trans ((hk u).1.mpr hu))
  · have hkt := hk t
    rw [hp] at hkt
    exact ⟨by simpa [Pc30.owned] using hkt.2.1,hkt.2.2⟩

/-- The first task sets the lock twice and the second one waits at the mutex. -/
def nested30 : List (Event Bool) :=
  [.move false 0,.move false 0,.move false 0,.move false 0,.move false 0,.move true 0,.move true 0,.move true 0,.move false 0,.move false 0,.move false 0]

theorem nest_lock_30_run_nested : ∃ s, run (step code30) (init30 Bool) nested30 = some s ∧ s.pc true = .lock ∧
    s.mem.count = 2 ∧ (∀ t u, (s.pc t).held = true → (s.pc u).held = true → t = u) ∧
    (∀ t depth, s.pc t = .outside depth →
      (s.mem.owner = some t ↔ 0 < depth) ∧ (0 < depth → s.mem.count = depth)) :=
  ⟨_,rfl,rfl,rfl,nest_lock_30_run (show run (step code30) (init30 Bool) nested30 = some _ from rfl)⟩

end Mutex30

end GompUlt.NestLock
