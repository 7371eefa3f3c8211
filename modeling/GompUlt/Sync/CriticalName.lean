import Mathlib
import GompUlt.Lib.Futex

/-! # Named critical sections

The lock of a name is made by the first threads that meet it: each of them allocates one, and a compare
and swap decides whose lock is kept.  The others free theirs.
-/
namespace GompUlt.CriticalName
open Futex Run

variable {ι : Type*} [DecidableEq ι]

/-- The pointer of the name, the blocks that are allocated and who locked the mutex in each.  `maker` is the
thread that has not given up the block it allocated. -/
structure Mem (ι : Type*) where
  pptr : ℕ
  allocated : Finset ℕ
  holder : ℕ → Option ι
  maker : ℕ → Option ι

inductive Pc where
  | outside
  | alloc
  | initMutex (nlock : ℕ)
  | exchange (nlock : ℕ)
  | free (nlock plock : ℕ)
  | lock (plock : ℕ)
  | inside
  | unlock (plock : ℕ)
deriving DecidableEq

/-- `GOMP_critical_name_start` and `GOMP_critical_name_end`.  The mutex is taken as its holder, and `lock` stays
where it is as long as the mutex is locked.  The input is the block that `gomp_aligned_alloc` finds. -/
def code (t : ι) : Pc → Action (Mem ι) Pc
  | .outside => .access fun _ m => (m,if m.pptr = 0 then .alloc else .lock m.pptr)
  | .alloc => .access fun input m =>
    if input = 0 ∨ input ∈ m.allocated then (m,.alloc)
    else ({ m with allocated := insert input m.allocated, maker := Function.update m.maker input (some t) },
      .initMutex input)
  | .initMutex nlock => .access fun _ m => ({ m with holder := Function.update m.holder nlock none },.exchange nlock)
  | .exchange nlock => .access fun _ m =>
    if m.pptr = 0 then ({ m with pptr := nlock, maker := Function.update m.maker nlock none },.lock nlock)
    else (m,.free nlock m.pptr)
  | .free nlock plock => .access fun _ m =>
    ({ m with allocated := m.allocated.erase nlock, maker := Function.update m.maker nlock none },.lock plock)
  | .lock plock => .access fun _ m =>
    if m.holder plock = none then ({ m with holder := Function.update m.holder plock (some t) },.inside)
    else (m,.lock plock)
  | .inside => .access fun _ m => (m,.unlock m.pptr)
  | .unlock plock => .access fun _ m => ({ m with holder := Function.update m.holder plock none },.outside)

def init (ι : Type*) : State ι (Mem ι) Pc where
  mem := { pptr := 0, allocated := ∅, holder := fun _ => none, maker := fun _ => none }
  pc _ := .outside
  asleep := ∅

/-- The thread has the lock of the name. -/
def Pc.held : Pc → Bool
  | .inside | .unlock _ => true
  | _ => false

/-- The block that the thread has allocated and not given up. -/
def Pc.own : Pc → Option ℕ
  | .initMutex nlock | .exchange nlock | .free nlock _ => some nlock
  | _ => none

/-- The lock of the name, as the thread remembers it. -/
def Pc.known : Pc → Option ℕ
  | .free _ plock | .lock plock | .unlock plock => some plock
  | _ => none

/-- The blocks allocated are those of the threads and the lock of the name. -/
structure Common (m : Mem ι) : Prop where
  name : m.pptr ≠ 0 → m.pptr ∈ m.allocated ∧ m.maker m.pptr = none
  made : ∀ a t, m.maker a = some t → a ∈ m.allocated ∧ a ≠ 0
  kept : ∀ a ∈ m.allocated, m.maker a = none → a = m.pptr ∧ a ≠ 0

/-- What a thread knows of the memory. -/
structure Knows (t : ι) (p : Pc) (m : Mem ι) : Prop where
  own : ∀ a, m.maker a = some t ↔ p.own = some a
  known : ∀ a, p.known = some a → a = m.pptr ∧ a ≠ 0
  held : p.held = true → m.pptr ≠ 0
  holder : m.pptr ≠ 0 → (m.holder m.pptr = some t ↔ p.held = true)
  fresh : ∀ a, p = .exchange a → m.holder a = none

omit [DecidableEq ι] in
/-- A thread does not mind what others do with the blocks that are not its own, while the lock of the name stays
with whom it was. -/
theorem Knows.other {u : ι} {p : Pc} {m m' : Mem ι} (h : Knows u p m) (hmaker : ∀ a, m'.maker a = some u ↔ m.maker a = some u)
    (hpptr : m'.pptr = m.pptr) (hholder : m.pptr ≠ 0 → (m'.holder m.pptr = some u ↔ m.holder m.pptr = some u))
    (hfresh : ∀ a, m.maker a = some u → m.holder a = none → m'.holder a = none) : Knows u p m' := by
  refine ⟨fun a => (hmaker a).trans (h.own a),fun a ha => hpptr ▸ h.known a ha,fun hp => hpptr ▸ h.held hp,fun hne => ?_,?_⟩
  · rw [hpptr] at hne ⊢
    exact (hholder hne).trans (h.holder hne)
  · rintro a rfl
    exact hfresh a ((h.own a).mpr rfl) (h.fresh a rfl)

omit [DecidableEq ι] in
theorem maker_ne {m : Mem ι} {t u : ι} (hu : u ≠ t) {a : ℕ} (ha : m.maker a = some t) : m.maker a ≠ some u := by
  rw [ha]
  exact fun h => hu (Option.some.inj h).symm

omit [DecidableEq ι] in
theorem stable : Stable (code : ι → Pc → _) Common Knows where
  access := by
    intro t p f input m hf hc hk
    cases p with
    | outside =>
      obtain rfl := Action.access.inj hf
      refine ⟨hc,?_⟩
      dsimp only
      split_ifs with hnull
      · exact ⟨hk.own,fun a ha => (by cases ha),fun h => (by cases h),hk.holder,fun a ha => (by cases ha)⟩
      · refine ⟨hk.own,fun a ha => ?_,fun h => (by cases h),hk.holder,fun a ha => (by cases ha)⟩
        obtain rfl := Option.some.inj ha
        exact ⟨rfl,hnull⟩
    | alloc =>
      obtain rfl := Action.access.inj hf
      dsimp only
      split_ifs with htaken
      · exact ⟨hc,hk⟩
      · obtain ⟨hzero,hnew⟩ := not_or.mp htaken
        have hpptr : m.pptr ≠ 0 → m.pptr ≠ input := fun hne h => hnew (h ▸ (hc.name hne).1)
        refine ⟨⟨fun hne => ?_,fun a u ha => ?_,fun a ha hmaker => ?_⟩,⟨fun a => ?_,fun a ha => (by cases ha),
          fun h => (by cases h),hk.holder,fun a ha => (by cases ha)⟩⟩
        · dsimp only
          rw [Function.update_of_ne (hpptr hne)]
          exact ⟨Finset.mem_insert_of_mem (hc.name hne).1,(hc.name hne).2⟩
        · by_cases hai : a = input
          · subst hai
            exact ⟨Finset.mem_insert_self ..,hzero⟩
          · dsimp only at ha
            rw [Function.update_of_ne hai] at ha
            exact ⟨Finset.mem_insert_of_mem (hc.made a u ha).1,(hc.made a u ha).2⟩
        · have hai : a ≠ input := by
            rintro rfl
            simp at hmaker
          dsimp only at hmaker
          rw [Function.update_of_ne hai] at hmaker
          exact hc.kept a (Finset.mem_of_mem_insert_of_ne ha hai) hmaker
        · have hnone : m.maker a ≠ some t := fun h => by simpa [Pc.own] using (hk.own a).mp h
          by_cases hai : a = input
          · simp [hai, Pc.own]
          · simp [Function.update_of_ne hai, hnone, Pc.own, Ne.symm hai]
    | initMutex nlock =>
      obtain rfl := Action.access.inj hf
      have hmine : m.maker nlock = some t := (hk.own nlock).mpr rfl
      refine ⟨⟨hc.name,hc.made,hc.kept⟩,⟨hk.own,fun a ha => (by cases ha),fun h => (by cases h),fun hne => ?_,?_⟩⟩
      · have hother : m.pptr ≠ nlock := fun h => by simpa [h, hmine] using (hc.name hne).2
        dsimp only
        rw [Function.update_of_ne hother]
        exact hk.holder hne
      · rintro a ha
        obtain rfl := Pc.exchange.inj ha
        simp
    | exchange nlock =>
      obtain rfl := Action.access.inj hf
      have hmine : m.maker nlock = some t := (hk.own nlock).mpr rfl
      have hfree := hk.fresh nlock rfl
      dsimp only
      split_ifs with hnull
      · refine ⟨⟨fun _ => ⟨(hc.made nlock t hmine).1,by simp⟩,fun a u ha => ?_,fun a ha hmaker => ?_⟩,⟨fun a => ?_,
          fun a ha => ?_,fun h => (by cases h),fun _ => by simp [hfree, Pc.held],fun a ha => (by cases ha)⟩⟩
        · have han : a ≠ nlock := by
            rintro rfl
            simp at ha
          dsimp only at ha
          rw [Function.update_of_ne han] at ha
          exact hc.made a u ha
        · by_cases han : a = nlock
          · exact ⟨han,han ▸ (hc.made nlock t hmine).2⟩
          · dsimp only at hmaker
            rw [Function.update_of_ne han] at hmaker
            obtain ⟨h0,hne⟩ := hc.kept a ha hmaker
            exact absurd (h0.trans hnull) hne
        · by_cases han : a = nlock
          · simp [han, Pc.own]
          · have hnone : m.maker a ≠ some t := fun h => han (Option.some.inj ((hk.own a).mp h)).symm
            simp [Function.update_of_ne han, hnone, Pc.own]
        · obtain rfl := Option.some.inj ha
          exact ⟨rfl,(hc.made nlock t hmine).2⟩
      · refine ⟨hc,⟨hk.own,fun a ha => ?_,fun h => (by cases h),hk.holder,fun a ha => (by cases ha)⟩⟩
        obtain rfl := Option.some.inj ha
        exact ⟨rfl,hnull⟩
    | free nlock plock =>
      obtain rfl := Action.access.inj hf
      have hmine : m.maker nlock = some t := (hk.own nlock).mpr rfl
      obtain ⟨rfl,hplock⟩ := hk.known plock rfl
      have hother : m.pptr ≠ nlock := fun h => by simpa [h, hmine] using (hc.name hplock).2
      refine ⟨⟨fun _ => ⟨Finset.mem_erase.mpr ⟨hother,(hc.name hplock).1⟩,?_⟩,fun a u ha => ?_,fun a ha hmaker => ?_⟩,
        ⟨fun a => ?_,fun a ha => ?_,fun h => (by cases h),hk.holder,fun a ha => (by cases ha)⟩⟩
      · dsimp only
        rw [Function.update_of_ne hother]
        exact (hc.name hplock).2
      · have han : a ≠ nlock := by
          rintro rfl
          simp at ha
        dsimp only at ha
        rw [Function.update_of_ne han] at ha
        exact ⟨Finset.mem_erase.mpr ⟨han,(hc.made a u ha).1⟩,(hc.made a u ha).2⟩
      · obtain ⟨han,ha⟩ := Finset.mem_erase.mp ha
        dsimp only at hmaker
        rw [Function.update_of_ne han] at hmaker
        exact hc.kept a ha hmaker
      · by_cases han : a = nlock
        · simp [han, Pc.own]
        · have hnone : m.maker a ≠ some t := fun h => han (Option.some.inj ((hk.own a).mp h)).symm
          simp [Function.update_of_ne han, hnone, Pc.own]
      · exact ⟨(Option.some.inj ha).symm,(Option.some.inj ha) ▸ hplock⟩
    | lock plock =>
      obtain rfl := Action.access.inj hf
      obtain ⟨rfl,hplock⟩ := hk.known plock rfl
      dsimp only
      split_ifs with hfree
      · exact ⟨⟨hc.name,hc.made,hc.kept⟩,⟨hk.own,fun a ha => (by cases ha),fun _ => hplock,
          fun _ => by simp [Pc.held],fun a ha => (by cases ha)⟩⟩
      · exact ⟨hc,hk⟩
    | inside =>
      obtain rfl := Action.access.inj hf
      refine ⟨hc,⟨hk.own,fun a ha => ?_,hk.held,hk.holder,fun a ha => (by cases ha)⟩⟩
      obtain rfl := Option.some.inj ha
      exact ⟨rfl,hk.held rfl⟩
    | unlock plock =>
      obtain rfl := Action.access.inj hf
      obtain ⟨rfl,hplock⟩ := hk.known plock rfl
      exact ⟨⟨hc.name,hc.made,hc.kept⟩,⟨hk.own,fun a ha => (by cases ha),fun h => (by cases h),
        fun _ => by simp [Pc.held],fun a ha => (by cases ha)⟩⟩
  other := by
    intro t p f input m u q hf hc hk hu hku
    have hkeep : ∀ a v, (m.maker a = none ∨ m.maker a = some t) → v ≠ some u →
        ∀ b, Function.update m.maker a v b = some u ↔ m.maker b = some u := by
      intro a v hold hnew b
      by_cases hba : b = a
      · subst hba
        have hnot : m.maker b ≠ some u := by
          obtain h | h := hold
          · simp [h]
          · exact maker_ne hu h
        simp [hnew, hnot]
      · rw [Function.update_of_ne hba]
    have htu : some t ≠ some u := fun h => hu (Option.some.inj h).symm
    cases p with
    | outside | inside =>
      obtain rfl := Action.access.inj hf
      exact hku
    | alloc =>
      obtain rfl := Action.access.inj hf
      dsimp only
      split_ifs with htaken
      · exact hku
      · obtain ⟨-,hnew⟩ := not_or.mp htaken
        have hnone : m.maker input = none := by
          by_contra hsome
          obtain ⟨v,hv⟩ := Option.ne_none_iff_exists'.mp hsome
          exact hnew (hc.made input v hv).1
        exact hku.other (hkeep input _ (Or.inl hnone) htu) rfl (fun _ => Iff.rfl) fun _ _ h => h
    | initMutex nlock =>
      obtain rfl := Action.access.inj hf
      have hmine : m.maker nlock = some t := (hk.own nlock).mpr rfl
      refine hku.other (fun _ => Iff.rfl) rfl (fun hne => ?_) fun a _ hnone => ?_
      · have hother : m.pptr ≠ nlock := fun h => by simpa [h, hmine] using (hc.name hne).2
        dsimp only
        rw [Function.update_of_ne hother]
      · by_cases han : a = nlock
        · simp [han]
        · simpa [Function.update_of_ne han] using hnone
    | exchange nlock =>
      obtain rfl := Action.access.inj hf
      have hmine : m.maker nlock = some t := (hk.own nlock).mpr rfl
      dsimp only
      split_ifs with hnull
      · have hnot : q.held = false := by simpa using mt hku.held (by simp [hnull])
        refine ⟨fun b => (hkeep nlock none (Or.inr hmine) (by simp) b).trans (hku.own b),fun a ha => ?_,fun h => ?_,
          fun _ => ?_,hku.fresh⟩
        · obtain ⟨h0,hne⟩ := hku.known a ha
          exact absurd (h0.trans hnull) hne
        · rw [hnot] at h
          cases h
        · simp [hk.fresh nlock rfl, hnot]
      · exact hku
    | free nlock plock =>
      obtain rfl := Action.access.inj hf
      have hmine : m.maker nlock = some t := (hk.own nlock).mpr rfl
      exact hku.other (hkeep nlock none (Or.inr hmine) (by simp)) rfl (fun _ => Iff.rfl) fun _ _ h => h
    | lock plock =>
      obtain rfl := Action.access.inj hf
      obtain ⟨rfl,hplock⟩ := hk.known plock rfl
      dsimp only
      split_ifs with hfree
      · refine hku.other (fun _ => Iff.rfl) rfl (fun _ => by simp [hfree, htu]) fun a ha hnone => ?_
        have hother : a ≠ m.pptr := by
          rintro rfl
          simp [(hc.name hplock).2] at ha
        simpa [Function.update_of_ne hother] using hnone
      · exact hku
    | unlock plock =>
      obtain rfl := Action.access.inj hf
      obtain ⟨rfl,hplock⟩ := hk.known plock rfl
      have hmine : m.holder m.pptr = some t := (hk.holder hplock).mpr rfl
      refine hku.other (fun _ => Iff.rfl) rfl (fun _ => by simp [hmine, htu]) fun a _ hnone => ?_
      by_cases hap : a = m.pptr
      · simp [hap]
      · simpa [Function.update_of_ne hap] using hnone
  wait := by
    intro t p same next m h
    cases p <;> cases h
  wake := by
    intro t p count next m h
    cases p <;> cases h

/-- The block that the next step of the thread may touch or keep. -/
def Pc.uses : Pc → Option ℕ
  | .initMutex nlock | .exchange nlock | .free nlock _ => some nlock
  | .lock plock | .unlock plock => some plock
  | _ => none

section Runs
variable {es : List (Event ι)} {s : State ι (Mem ι) Pc}

omit [DecidableEq ι] in
theorem holds_init : Holds Common Knows (init ι) := by
  refine ⟨⟨fun h => absurd rfl h,fun a t h => (by cases h),fun a h => (by cases h)⟩,fun t => ?_⟩
  exact ⟨by simp [init, Pc.own],fun a h => (by cases h),fun h => (by cases h),fun h => absurd rfl h,fun a h => (by cases h)⟩

/-- The name keeps the lock it once has. -/
theorem pptr_step {e : Event ι} {s' : State ι (Mem ι) Pc} (h : step code s e = some s')
    (hne : s.mem.pptr ≠ 0) : s'.mem.pptr = s.mem.pptr := by
  cases step_cases h with
  | access t f input ht hf =>
    cases hpc : s.pc t with
    | exchange nlock =>
      rw [hpc] at hf
      obtain rfl := Action.access.inj hf
      simp [hne]
    | alloc | lock plock =>
      rw [hpc] at hf
      obtain rfl := Action.access.inj hf
      dsimp only
      split_ifs <;> rfl
    | outside | initMutex nlock | free nlock plock | inside | unlock plock =>
      rw [hpc] at hf
      obtain rfl := Action.access.inj hf
      rfl
  | sleep t same next input hcode hm => rfl
  | pass t same next input ht hcode hm => rfl
  | wake t count next woken ht hcode hsub hcard => rfl
  | interrupt t ht => rfl

/-- In every run at most one thread is between the start and the end of the critical sections of a name; all of
them use the one lock that the name keeps; no block is touched after it was freed, the lock of the name is
never freed, and no block is left over. -/
theorem critical_name_run (h : run (step code) (init ι) es = some s) :
    (∀ t u, (s.pc t).held = true → (s.pc u).held = true → t = u) ∧
      (∀ t a, s.pc t = .lock a ∨ s.pc t = .unlock a → a = s.mem.pptr) ∧
      (∀ t a, (s.pc t).uses = some a → a ∈ s.mem.allocated) ∧ (∀ t a p, s.pc t = .free a p → a ≠ s.mem.pptr) ∧
      ((∀ t, (s.pc t).own = none) → s.mem.allocated = if s.mem.pptr = 0 then ∅ else {s.mem.pptr}) ∧
      ∀ e s', step code s e = some s' → s.mem.pptr ≠ 0 → s'.mem.pptr = s.mem.pptr := by
  have hi : Holds Common Knows s := holds_run stable holds_init h
  obtain ⟨hc,hk⟩ := hi
  refine ⟨fun t u ht hu => ?_,fun t a ha => ?_,fun t a ha => ?_,fun t a p hp hname => ?_,fun hnone => ?_,
    fun e s' hs hne => pptr_step hs hne⟩
  · have hne := (hk t).held ht
    exact Option.some.inj ((((hk t).holder hne).mpr ht).symm.trans (((hk u).holder hne).mpr hu))
  · obtain hp | hp := ha
    · exact ((hk t).known a (by rw [hp]; rfl)).1
    · exact ((hk t).known a (by rw [hp]; rfl)).1
  · have hmine : (s.pc t).own = some a → a ∈ s.mem.allocated := fun hown =>
      (hc.made a t (((hk t).own a).mpr hown)).1
    have hlock : (s.pc t).known = some a → a ∈ s.mem.allocated := by
      intro hknown
      obtain ⟨rfl,hne⟩ := (hk t).known a hknown
      exact (hc.name hne).1
    cases hpc : s.pc t with
    | initMutex nlock | exchange nlock | free nlock plock =>
      rw [hpc] at ha hmine
      exact hmine ha
    | lock plock | unlock plock =>
      rw [hpc] at ha hlock
      exact hlock ha
    | outside | alloc | inside =>
      rw [hpc] at ha
      cases ha
  · have hown : s.mem.maker a = some t := ((hk t).own a).mpr (by rw [hp]; rfl)
    have hne := (hc.made a t hown).2
    rw [hname] at hown hne
    simp [(hc.name hne).2] at hown
  · have hmaker : ∀ a, s.mem.maker a = none := by
      intro a
      by_contra hsome
      obtain ⟨t,ht⟩ := Option.ne_none_iff_exists'.mp hsome
      have hown := ((hk t).own a).mp ht
      rw [hnone t] at hown
      cases hown
    split_ifs with hnull
    · refine Finset.eq_empty_of_forall_notMem fun a ha => ?_
      obtain ⟨rfl,hne⟩ := hc.kept a ha (hmaker a)
      exact hne hnull
    · ext a
      rw [Finset.mem_singleton]
      constructor
      · intro ha
        exact (hc.kept a ha (hmaker a)).1
      · rintro rfl
        exact (hc.name hnull).1

/-- Both threads allocate a lock; the first one's is kept, the second one frees its own and waits. -/
def race : List (Event Bool) :=
  [.move false 0,.move true 0,.move false 64,.move true 128,.move false 0,.move true 0,.move false 0,.move true 0,
    .move false 0,.move true 0,.move true 0]

theorem critical_name_run_race : ∃ s, run (step code) (init Bool) race = some s ∧ s.mem.pptr = 64 ∧
    s.mem.allocated = {64} ∧ s.pc false = .inside ∧ s.pc true = .lock 64 ∧
    (∀ t u, (s.pc t).held = true → (s.pc u).held = true → t = u) ∧
    (∀ t a, s.pc t = .lock a ∨ s.pc t = .unlock a → a = s.mem.pptr) ∧
    (∀ t a, (s.pc t).uses = some a → a ∈ s.mem.allocated) ∧ (∀ t a p, s.pc t = .free a p → a ≠ s.mem.pptr) ∧
    ((∀ t, (s.pc t).own = none) → s.mem.allocated = if s.mem.pptr = 0 then ∅ else {s.mem.pptr}) ∧
    ∀ e s', step code s e = some s' → s.mem.pptr ≠ 0 → s'.mem.pptr = s.mem.pptr :=
  ⟨_,rfl,rfl,by decide,rfl,rfl,critical_name_run (show run (step code) (init Bool) race = some _ from rfl)⟩

end Runs

end GompUlt.CriticalName
