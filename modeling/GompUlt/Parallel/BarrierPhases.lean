import GompUlt.Parallel.TeamBarrier

/-! # The phases of the team barrier

While application code runs, some thread has not arrived or the task count is positive, so that the
store of the last thread to arrive never meets another store.  The waiting flag belongs to the
current phase: it is raised by the last thread and cleared by the store that advances the
generation, whichever thread makes it.
-/
namespace GompUlt.Barrier
open Run Counting

variable {τ : Type*} [DecidableEq τ] [Fintype τ]

/-- The last thread of a phase, until it has released the barrier or raised the waiting flag. -/
def Mode.isLast : Mode → Bool
  | .resetting _ | .counting _ | .releasing _ | .setWaiting .. | .done _ true => true
  | .handle st | .entered st => gompBarrierLastThread st
  | _ => false

/-- A thread in the barrier: in the current phase or in the one before, which has been released. -/
structure InPhase (phase arrived returned : ℕ) (st : Word) : Prop where
  phases : returned = phase ∧ arrived = phase + 1 ∨ returned + 1 = phase ∧ arrived = phase
  count_eq : count st = returned % 2 ^ 29
  flags_eq : flags st % 4 = 1 ∨ flags st = 0

namespace State
variable (s : State τ) (t : τ)

def AllArrived : Prop := ∀ t, s.arrived t = s.phase + 1

/-- A thread that has not arrived in the current phase. -/
def Before : Prop := s.arrived t = s.phase ∧ s.returned t = s.phase

def Inside (st : Word) : Prop := InPhase s.phase (s.arrived t) (s.returned t) st

/-- The last thread to arrive. -/
def Last (st : Word) : Prop := s.Inside t st ∧ s.AllArrived ∧ flags st % 4 = 1

/-- Where application code stands. -/
def Runs : Option Word → Prop
  | none => s.Before t
  | some st => s.Inside t st

/-- What the local variables of a call promise. -/
def ModeOk : Mode → Prop
  | .app st | .opLock st _ | .op st _ => s.Runs t st
  | .opStore st g => s.Runs t st ∧ Agree s.generation g
  | .loaded st => s.Before t ∧ count st = s.phase % 2 ^ 29 ∧ flags st % 4 = 0
  | .resetting st | .counting st => s.Last t st
  | .releasing st => s.Last t st ∧ s.taskCount = 0
  | .waiting st | .checking st => s.Inside t st ∧ flags st = 0
  | .handle st | .entered st => s.Inside t st ∧ (gompBarrierLastThread st = true → s.AllArrived)
  | .setWaiting st g => s.Last t st ∧ count g = count s.generation
  | .loop st | .picked st | .finishing st | .finished st | .relock st => s.Inside t st
  | .clearing st g => s.Inside t st ∧ Agree s.generation g
  | .testing st => s.Inside t st ∧ s.taskCount = 0
  | .done st last => s.Inside t st ∧ s.AllArrived ∧ s.taskCount = 0 ∧
      (last = false → gompTeamBarrierWaitingForTasks s.generation = true)

omit [DecidableEq τ] [Fintype τ] in
/-- What is said about a thread depends on the shared fields and on its own calls. -/
theorem ModeOk.congr {s s' : State τ} {t : τ} {m : Mode} (hok : s.ModeOk t m) (hg : s'.generation = s.generation)
    (hc : s'.taskCount = s.taskCount) (hp : s'.phase = s.phase) (ha : s'.arrived t = s.arrived t)
    (hr : s'.returned t = s.returned t) (hall : s.AllArrived → s'.AllArrived) : s'.ModeOk t m := by
  have hin : ∀ st, s.Inside t st → s'.Inside t st := by
    intro st hst
    unfold State.Inside at hst ⊢
    rwa [hp,ha,hr]
  have hb : s.Before t → s'.Before t := by
    intro hb
    unfold State.Before at hb ⊢
    rwa [hp,ha,hr]
  have hrun : ∀ st, s.Runs t st → s'.Runs t st := by
    intro st hst
    cases st with
    | none => exact hb hst
    | some st => exact hin st hst
  have hlast : ∀ st, s.Last t st → s'.Last t st := fun st hst => ⟨hin st hst.1,hall hst.2.1,hst.2.2⟩
  cases m <;> simp only [ModeOk, hg, hc, hp] at hok ⊢
  case app st | opLock st _ | op st _ => exact hrun st hok
  case opStore st g => exact ⟨hrun st hok.1,hok.2⟩
  case loaded st => exact ⟨hb hok.1,hok.2⟩
  case resetting st | counting st => exact hlast st hok
  case releasing st | setWaiting st g => exact ⟨hlast st hok.1,hok.2⟩
  case waiting st | checking st | clearing st g | testing st => exact ⟨hin st hok.1,hok.2⟩
  case handle st | entered st => exact ⟨hin st hok.1,fun hl => hall (hok.2 hl)⟩
  case loop st | picked st | finishing st | finished st | relock st => exact hin st hok
  case done st last => exact ⟨hin st hok.1,hall hok.2.1,hok.2.2⟩

end State

structure Inv (s : State τ) : Prop where
  generation : count s.generation = s.phase % 2 ^ 29
  lock : ∀ t, (s.mode t).holdsLock = true ↔ s.lock = some t
  modes : ∀ t, s.ModeOk t (s.mode t)
  tasks : s.running ≤ s.taskCount
  single : ∀ t u, (s.mode t).isLast = true → (s.mode u).isLast = true → t = u
  waiting : gompTeamBarrierWaitingForTasks s.generation = true → s.AllArrived ∧ ∀ t, (s.mode t).isLast = false
  resetting : ∀ t st, s.mode t = .resetting st → s.awaited = 0
  reset : s.AllArrived → (∀ t st, s.mode t ≠ .resetting st) → s.awaited = Fintype.card τ
  partly : ¬ s.AllArrived →
    s.awaited + (Finset.univ.filter fun t => (s.arrived t == s.phase + 1) = true).card = Fintype.card τ

namespace Inv
variable {s : State τ} {t : τ} (h : Inv s)
include h

omit [DecidableEq τ] in
theorem lock_unique {u : τ} (ht : (s.mode t).holdsLock = true) (hu : (s.mode u).holdsLock = true) : u = t := by
  have e := ((h.lock t).mp ht).symm.trans ((h.lock u).mp hu)
  exact (Option.some.inj e).symm

omit [DecidableEq τ] in
/-- While a task runs inside the barrier the task count is not zero. -/
theorem taskCount_pos (ht : (s.mode t).inTask = true) : 0 < s.taskCount := by
  refine lt_of_lt_of_le ?_ h.tasks
  rw [State.running,Finset.card_pos]
  exact ⟨t,by simpa using ht⟩

omit [DecidableEq τ] in
/-- Application code runs only before the last arrival or under a task that is counted. -/
theorem not_released {st : Option Word} (hr : s.Runs t st) (hin : st.isSome = true → (s.mode t).inTask = true)
    (hall : s.AllArrived) : 0 < s.taskCount := by
  cases st with
  | none =>
    have ha := hall t
    have hb := hr.1
    omega
  | some st => exact h.taskCount_pos (hin rfl)

omit [DecidableEq τ] in
/-- A store under the lock changes nothing for the other threads. -/
theorem modes_other {g : Word} {c : ℕ} {l : Option τ} {f : τ → Mode} (ht : (s.mode t).holdsLock = true)
    (hc : c = s.taskCount ∨ ∀ u st, s.mode u ≠ .releasing st) {u : τ} (hu : u ≠ t) :
    ({ s with generation := g, taskCount := c, lock := l, mode := f } : State τ).ModeOk u (s.mode u) := by
  have hok := h.modes u
  have hlock : (s.mode u).holdsLock = false := by
    by_contra hne
    exact hu (h.lock_unique ht (by simpa using hne))
  cases hmode : s.mode u with
  | releasing st =>
    rw [hmode] at hok
    exact ⟨hok.1,hc.elim (fun e => e.trans hok.2) fun hn => absurd hmode (hn u st)⟩
  | _ =>
    rw [hmode] at hok hlock
    first
      | exact hok
      | cases hlock

/-- A step of one thread that changes the flags, the task count and the lock. -/
theorem move {g : Word} {c : ℕ} {l : Option τ} {m : Mode}
    (hm : ({ s with generation := g, taskCount := c, lock := l } : State τ).ModeOk t m)
    (hoth : ∀ u, u ≠ t → ({ s with generation := g, taskCount := c, lock := l } : State τ).ModeOk u (s.mode u))
    (hcount : count g = count s.generation) (hlock : m.holdsLock = true ↔ l = some t)
    (hlock' : ∀ u, u ≠ t → (l = some u ↔ s.lock = some u))
    (htasks : s.running + m.inTask.toNat ≤ c + (s.mode t).inTask.toNat)
    (hlast : m.isLast = true → ∀ u, u ≠ t → (s.mode u).isLast = false)
    (hwait : gompTeamBarrierWaitingForTasks g = true →
      s.AllArrived ∧ m.isLast = false ∧ ∀ u, u ≠ t → (s.mode u).isLast = false)
    (hres : ∀ st, s.mode t ≠ .resetting st) (hres' : ∀ st, m ≠ .resetting st) :
    Inv ({ s with generation := g, taskCount := c, lock := l }.setMode t m) := by
  have hmode : ∀ u, (({ s with generation := g, taskCount := c, lock := l } : State τ).setMode t m).mode u =
      if u = t then m else s.mode u := fun u => Function.update_apply ..
  constructor
  case generation => exact hcount.trans h.generation
  case lock =>
    intro u
    rw [hmode]
    split
    · next e =>
      subst e
      exact hlock
    · next hu => exact (h.lock u).trans (hlock' u hu).symm
  case modes =>
    intro u
    rw [hmode]
    split
    · next e =>
      subst e
      exact hm
    · next hu => exact hoth u hu
  case tasks =>
    have hcard := card_change
      (p := fun u => ((({ s with generation := g, taskCount := c, lock := l } : State τ).setMode t m).mode u).inTask)
      (q := fun u => (s.mode u).inTask) t fun u hu => by rw [hmode,if_neg hu]
    rw [hmode,if_pos rfl] at hcard
    unfold State.running at htasks ⊢
    change _ ≤ c
    omega
  case single =>
    intro u v hu hv
    rw [hmode] at hu hv
    split at hu
    · next e =>
      subst e
      split at hv
      · next e' => exact e'.symm
      · next hne => exact absurd hv (by simp [hlast hu v hne])
    · next hne =>
      split at hv
      · exact absurd hu (by simp [hlast hv u hne])
      · exact h.single u v hu hv
  case waiting =>
    intro hw
    obtain ⟨hall,hm',hoth'⟩ := hwait hw
    refine ⟨hall,fun u => ?_⟩
    rw [hmode]
    split
    · exact hm'
    · next hu => exact hoth' u hu
  case resetting =>
    intro u st hu
    rw [hmode] at hu
    split at hu
    · exact absurd hu (hres' st)
    · exact h.resetting u st hu
  case reset =>
    intro hall hno
    refine h.reset hall fun u st hu => ?_
    by_cases e : u = t
    · subst e
      exact hres st hu
    · exact hno u st (by rw [hmode,if_neg e,hu])
  case partly => exact h.partly

theorem go {m : Mode} (hm : s.ModeOk t m) (hlock : m.holdsLock = (s.mode t).holdsLock)
    (htasks : s.running + m.inTask.toNat ≤ s.taskCount + (s.mode t).inTask.toNat)
    (hlast : m.isLast = true → (s.mode t).isLast = true) (hres : ∀ st, s.mode t ≠ .resetting st)
    (hres' : ∀ st, m ≠ .resetting st) : Inv (s.setMode t m) := by
  have hother : (s.mode t).isLast = true → ∀ u, u ≠ t → (s.mode u).isLast = false := by
    intro ht u hu
    by_contra hne
    exact hu (h.single u t (by simpa using hne) ht)
  refine h.move hm (fun u _ => h.modes u) rfl (by rw [hlock]; exact h.lock t) (fun _ _ => Iff.rfl) htasks
    (fun hl => hother (hlast hl)) (fun hw => ?_) hres hres'
  obtain ⟨hall,hno⟩ := h.waiting hw
  refine ⟨hall,?_,fun u _ => hno u⟩
  by_contra hne
  exact absurd (hlast (by simpa using hne)) (by simp [hno t])

theorem acquire {m : Mode} {s' : State τ} (hs : s.acquire t m = some s') (hm : s.ModeOk t m)
    (hlock : m.holdsLock = true) (htasks : m.inTask = (s.mode t).inTask)
    (hlast : m.isLast = true → (s.mode t).isLast = true) (hres : ∀ st, s.mode t ≠ .resetting st)
    (hres' : ∀ st, m ≠ .resetting st) : Inv s' := by
  simp only [State.acquire, Option.ite_none_right_eq_some] at hs
  obtain ⟨hfree,hs⟩ := hs
  cases hs
  have hother : (s.mode t).isLast = true → ∀ u, u ≠ t → (s.mode u).isLast = false := by
    intro ht u hu
    by_contra hne
    exact hu (h.single u t (by simpa using hne) ht)
  have htask := h.tasks
  refine h.move (g := s.generation) (c := s.taskCount) hm (fun u _ => h.modes u) rfl (by simp [hlock])
    (fun u hu => by simp [hfree, hu.symm]) (by rw [htasks]; omega)
    (fun hl => hother (hlast hl)) (fun hw => ?_) hres hres'
  obtain ⟨hall,hno⟩ := h.waiting hw
  refine ⟨hall,?_,fun u _ => hno u⟩
  by_contra hne
  exact absurd (hlast (by simpa using hne)) (by simp [hno t])

/-- The thread stores flags under the lock and keeps or releases it. -/
theorem store {g : Word} {c : ℕ} {l : Option τ} {m : Mode} (ht : (s.mode t).holdsLock = true)
    (hm : ({ s with generation := g, taskCount := c, lock := l } : State τ).ModeOk t m) (hg : Agree s.generation g)
    (hc : c = s.taskCount ∨ ∀ u st, s.mode u ≠ .releasing st) (hlock : m.holdsLock = true ↔ l = some t)
    (hl : l = none ∨ l = some t) (htasks : s.running + m.inTask.toNat ≤ c + (s.mode t).inTask.toNat)
    (hlast : m.isLast = false) (hres' : ∀ st, m ≠ .resetting st) :
    Inv ({ s with generation := g, taskCount := c, lock := l }.setMode t m) := by
  refine h.move hm (fun u hu => h.modes_other ht hc hu) hg.1 hlock ?_ htasks (by simp [hlast]) ?_ ?_ hres'
  · intro u hu
    have hheld := (h.lock t).mp ht
    rcases hl with rfl | rfl
    · simp [hheld, hu.symm]
    · simp [hheld]
  · intro hw
    obtain ⟨hall,hno⟩ := h.waiting (hg.2 ▸ hw)
    exact ⟨hall,hlast,fun u _ => hno u⟩
  · intro st hst
    rw [hst] at ht
    cases ht

omit [DecidableEq τ] in
/-- The place of a thread that stays in the barrier when the generation is advanced. -/
theorem modes_advanced {g : Word} {l : Option τ} {r : τ → ℕ} {f : τ → Mode} (hall : s.AllArrived)
    (hc : s.taskCount = 0) {u : τ} (hr : r u = s.returned u) (hlast : (s.mode u).isLast = false)
    (hdone : ∀ st, s.mode u ≠ .done st false) :
    ({ s with generation := g, phase := s.phase + 1, lock := l, returned := r, mode := f } : State τ).ModeOk u
      (s.mode u) := by
  have hok := h.modes u
  have harr := hall u
  have hin : ∀ st, s.Inside u st → InPhase (s.phase + 1) (s.arrived u) (r u) st := by
    intro st hst
    refine ⟨.inr ⟨?_,harr⟩,by rw [hr]; exact hst.count_eq,hst.flags_eq⟩
    rcases hst.phases with ⟨hret,_⟩ | ⟨_,ha⟩
    · omega
    · omega
  have hbefore : ¬ s.Before u := fun hb => by
    have := hb.1
    omega
  have htask : (s.mode u).inTask = false := by
    by_contra hne
    have := h.taskCount_pos (t := u) (by simpa using hne)
    omega
  -- neither application code nor the last thread is left, only those that wait or look for tasks
  cases hmode : s.mode u with
  | app st | opLock st op | op st op =>
    rw [hmode] at hok htask
    cases st with
    | none => exact absurd hok hbefore
    | some st => cases htask
  | opStore st g =>
    rw [hmode] at hok htask
    cases st with
    | none => exact absurd hok.1 hbefore
    | some st => cases htask
  | loaded st =>
    rw [hmode] at hok
    exact absurd hok.1 hbefore
  | resetting st | counting st | releasing st | setWaiting st g =>
    rw [hmode] at hlast
    cases hlast
  | clearing st g | picked st | finishing st | finished st =>
    rw [hmode] at htask
    cases htask
  | waiting st | checking st =>
    rw [hmode] at hok
    exact ⟨hin st hok.1,hok.2⟩
  | handle st | entered st =>
    rw [hmode] at hok hlast
    exact ⟨hin st hok.1,fun hl => absurd hl (by simpa [Mode.isLast] using hlast)⟩
  | loop st | relock st =>
    rw [hmode] at hok
    exact hin st hok
  | testing st =>
    rw [hmode] at hok
    exact ⟨hin st hok.1,hc⟩
  | done st last =>
    cases last with
    | false => exact absurd hmode (hdone st)
    | true =>
      rw [hmode] at hlast
      cases hlast

/-- The store that advances the generation. -/
theorem advance {g : Word} {l : Option τ} {r : τ → ℕ} {m : Mode} (hall : s.AllArrived) (hc : s.taskCount = 0)
    (hg : count g = (s.phase + 1) % 2 ^ 29 ∧ flags g = 0) (hr : ∀ u, u ≠ t → r u = s.returned u)
    (hlast : ∀ u, u ≠ t → (s.mode u).isLast = false) (hdone : ∀ u, u ≠ t → ∀ st, s.mode u ≠ .done st false)
    (hm : ({ s with generation := g, phase := s.phase + 1, lock := l, returned := r } : State τ).ModeOk t m)
    (hlock : m.holdsLock = true ↔ l = some t) (hlock' : ∀ u, u ≠ t → (l = some u ↔ s.lock = some u))
    (htask : m.inTask = false) (hml : m.isLast = false) (hres : ∀ st, s.mode t ≠ .resetting st) :
    Inv ({ s with generation := g, phase := s.phase + 1, lock := l, returned := r }.setMode t m) := by
  have hmode : ∀ u, (({ s with generation := g, phase := s.phase + 1, lock := l, returned := r } : State τ).setMode
      t m).mode u = if u = t then m else s.mode u := fun u => Function.update_apply ..
  have hnoLast : ∀ u, ((({ s with generation := g, phase := s.phase + 1, lock := l, returned := r } :
      State τ).setMode t m).mode u).isLast = false := by
    intro u
    rw [hmode]
    split
    · exact hml
    · next hu => exact hlast u hu
  constructor
  case generation => exact hg.1
  case lock =>
    intro u
    rw [hmode]
    split
    · next e =>
      subst e
      exact hlock
    · next hu => exact (h.lock u).trans (hlock' u hu).symm
  case modes =>
    intro u
    rw [hmode]
    split
    · next e =>
      subst e
      exact hm
    · next hu => exact h.modes_advanced hall hc (hr u hu) (hlast u hu) (hdone u hu)
  case tasks =>
    have hcard := card_change
      (p := fun u => ((({ s with generation := g, phase := s.phase + 1, lock := l, returned := r } :
        State τ).setMode t m).mode u).inTask)
      (q := fun u => (s.mode u).inTask) t fun u hu => by rw [hmode,if_neg hu]
    rw [hmode,if_pos rfl,htask] at hcard
    have htasks := h.tasks
    unfold State.running at htasks ⊢
    change _ ≤ s.taskCount
    simp only [Bool.toNat_false] at hcard
    omega
  case single => exact fun u v hu => absurd hu (by simp [hnoLast u])
  case waiting =>
    intro hw
    rw [waitingForTasks_iff] at hw
    change decide (flags g / 2 % 2 = 1) = true at hw
    simp [hg.2] at hw
  case resetting =>
    intro u st hu
    have hno := hnoLast u
    rw [hu] at hno
    cases hno
  case reset =>
    intro hall'
    have hnew : s.arrived t = s.phase + 1 + 1 := hall' t
    have := hall t
    omega
  case partly =>
    intro _
    have hempty : (Finset.univ.filter fun u => (s.arrived u == s.phase + 1 + 1) = true) = ∅ := by
      rw [Finset.filter_eq_empty_iff]
      intro u _
      have := hall u
      simp
      omega
    change s.awaited + (Finset.univ.filter fun u => (s.arrived u == s.phase + 1 + 1) = true).card = _
    rw [hempty,Finset.card_empty,Nat.add_zero]
    refine h.reset hall fun u st hu => ?_
    by_cases e : u = t
    · subst e
      exact hres st hu
    · have hno := hlast u e
      rw [hu] at hno
      cases hno

/-- A thread that finds the generation advanced by one returns. -/
theorem comeBack {st : Word} (hin : s.Inside t st) (hf : flags st = 0) (hg : s.generation = st + barIncr)
    (hlock : (s.mode t).holdsLock = false) (htask : (s.mode t).inTask = false) (hlast : (s.mode t).isLast = false)
    (hres : ∀ st, s.mode t ≠ .resetting st) : Inv (s.comeBack t) := by
  have hphase : s.returned t + 1 = s.phase ∧ s.arrived t = s.phase := by
    refine hin.phases.resolve_left fun hcur => ?_
    have hadd := (count_add (g := st) (m := barIncr) (by rw [hf]; rfl)).1
    rw [← hg,h.generation,hin.count_eq,hcur.1] at hadd
    omega
  have hmode : ∀ u, (s.comeBack t).mode u = if u = t then .app none else s.mode u := fun u =>
    Function.update_apply ..
  have hret : ∀ u, u ≠ t → (s.comeBack t).returned u = s.returned u := fun u hu => Function.update_of_ne hu _ _
  have hself : (s.comeBack t).returned t = s.returned t + 1 := Function.update_self ..
  have hok : ∀ u, u ≠ t → (s.comeBack t).ModeOk u (s.mode u) := fun u hu =>
    (h.modes u).congr rfl rfl rfl rfl (hret u hu) id
  have hnoLast : ∀ u, ((s.comeBack t).mode u).isLast = true → (s.mode u).isLast = true := by
    intro u hu
    rw [hmode] at hu
    split at hu
    · cases hu
    · exact hu
  constructor
  case generation => exact h.generation
  case lock =>
    intro u
    rw [hmode]
    split
    · next e =>
      subst e
      have hl := h.lock u
      rw [hlock] at hl
      exact hl
    · exact h.lock u
  case modes =>
    intro u
    rw [hmode]
    split
    · next e =>
      subst e
      refine ⟨hphase.2,?_⟩
      rw [hself]
      exact hphase.1
    · next hu => exact hok u hu
  case tasks =>
    have hcard := card_change (p := fun u => ((s.comeBack t).mode u).inTask) (q := fun u => (s.mode u).inTask) t
      fun u hu => by rw [hmode,if_neg hu]
    rw [hmode,if_pos rfl,htask,show (Mode.app none).inTask = false from rfl] at hcard
    have htasks := h.tasks
    unfold State.running at htasks ⊢
    change _ ≤ s.taskCount
    omega
  case single => exact fun u v hu hv => h.single u v (hnoLast u hu) (hnoLast v hv)
  case waiting =>
    intro hw
    obtain ⟨hall,hno⟩ := h.waiting hw
    refine ⟨hall,fun u => ?_⟩
    by_contra hne
    exact absurd (hnoLast u (by simpa using hne)) (by simp [hno u])
  case resetting =>
    intro u st hu
    rw [hmode] at hu
    split at hu
    · cases hu
    · exact h.resetting u st hu
  case reset =>
    intro hall hno
    refine h.reset hall fun u st hu => ?_
    by_cases e : u = t
    · subst e
      exact hres st hu
    · exact hno u st (by rw [hmode,if_neg e,hu])
  case partly => exact h.partly

theorem arrive {st : Word} (hmt : s.mode t = .loaded st) : Inv (s.arrive t st) := by
  have hok := h.modes t
  rw [hmt] at hok
  obtain ⟨⟨harr,hret⟩,hcount,hflags⟩ := hok
  have hnot : ¬ s.AllArrived := fun hall => by
    have := hall t
    omega
  have hpart := h.partly hnot
  generalize hm : (if s.awaited - 1 = 0 then Mode.resetting (st ||| barWasLast) else .waiting (st &&& ~~~barCancelled)) = m
  have hmode : ∀ u, (s.arrive t st).mode u = if u = t then m else s.mode u := fun u => by
    rw [← hm]
    exact Function.update_apply ..
  have hne : ∀ u, u ≠ t → (s.arrive t st).arrived u = s.arrived u := fun u hu => Function.update_of_ne hu _ _
  have hself : (s.arrive t st).arrived t = s.phase + 1 := by
    rw [← harr]
    exact Function.update_self ..
  -- one more thread has arrived in this phase
  have hcard := card_change (p := fun u => (s.arrive t st).arrived u == s.phase + 1)
    (q := fun u => s.arrived u == s.phase + 1) t fun u hu => by rw [hne u hu]
  have hold : (s.arrived t == s.phase + 1) = false := by simp [harr]
  have hnew : ((s.arrive t st).arrived t == s.phase + 1) = true := by simp [hself]
  rw [hold,hnew,Bool.toNat_false,Bool.toNat_true] at hcard
  have hle : (Finset.univ.filter fun u => ((s.arrive t st).arrived u == s.phase + 1) = true).card ≤ Fintype.card τ :=
    Finset.card_le_univ _
  have hall : s.awaited - 1 = 0 → (s.arrive t st).AllArrived := by
    intro hz u
    have hfull : (Finset.univ.filter fun u => ((s.arrive t st).arrived u == s.phase + 1) = true) = Finset.univ := by
      apply Finset.eq_univ_of_card
      omega
    have hu := Finset.mem_univ u
    rw [← hfull,Finset.mem_filter] at hu
    exact beq_iff_eq.mp hu.2
  have hnall : s.awaited - 1 ≠ 0 → ¬ (s.arrive t st).AllArrived := by
    intro hz hall
    have hfull : (Finset.univ.filter fun u => ((s.arrive t st).arrived u == s.phase + 1) = true) = Finset.univ := by
      rw [Finset.filter_eq_self]
      intro u _
      exact beq_iff_eq.mpr (hall u)
    rw [hfull,Finset.card_univ] at hcard
    omega
  have hnoLast : ∀ u, (s.mode u).isLast = false := by
    intro u
    have hu := h.modes u
    by_contra hne
    cases hmu : s.mode u <;> rw [hmu] at hu hne
    case resetting st | counting st => exact hnot hu.2.1
    case releasing st | setWaiting st g => exact hnot hu.1.2.1
    case handle st | entered st => exact hnot (hu.2 (by simpa [Mode.isLast] using hne))
    case done st last => exact hnot hu.2.1
    all_goals exact hne rfl
  have hin : (s.arrive t st).Inside t (st ||| barWasLast) ∧ flags (st ||| barWasLast) % 4 = 1 ∧
      (s.arrive t st).Inside t (st &&& ~~~barCancelled) ∧ flags (st &&& ~~~barCancelled) = 0 := by
    have hfin : ∀ f < 8, f % 4 = 0 → (f ||| flags barWasLast) % 4 = 1 ∧ f &&& flags (~~~barCancelled) = 0 := by decide
    obtain ⟨h1,h2⟩ := hfin _ (flags_lt st) hflags
    rw [← flags_or] at h1
    rw [← flags_and] at h2
    have hphase : (s.arrive t st).returned t = s.phase := hret
    refine ⟨⟨.inl ⟨hphase,hself⟩,?_,.inl h1⟩,h1,⟨.inl ⟨hphase,hself⟩,?_,.inr h2⟩,h2⟩
    · rw [count_or (by decide),hcount,hphase]
    · rw [count_and (by decide),hcount,hphase]
  constructor
  case generation => exact h.generation
  case lock =>
    intro u
    rw [hmode]
    split
    · next e =>
      subst e
      have hl := h.lock u
      rw [hmt] at hl
      rw [← hm]
      split <;> exact hl
    · exact h.lock u
  case modes =>
    intro u
    rw [hmode]
    split
    · next e =>
      subst e
      rw [← hm]
      split
      · next hz => exact ⟨hin.1,hall hz,hin.2.1⟩
      · exact ⟨hin.2.2.1,hin.2.2.2⟩
    · next hu => exact (h.modes u).congr rfl rfl rfl (hne u hu) rfl fun hall => absurd hall hnot
  case tasks =>
    have hcard := card_change (p := fun u => ((s.arrive t st).mode u).inTask) (q := fun u => (s.mode u).inTask) t
      fun u hu => by rw [hmode,if_neg hu]
    have hmtask : m.inTask = false := by
      rw [← hm]
      split <;> rfl
    rw [hmode,if_pos rfl,hmtask,hmt,show (Mode.loaded st).inTask = false from rfl] at hcard
    have htasks := h.tasks
    unfold State.running at htasks ⊢
    change _ ≤ s.taskCount
    omega
  case single =>
    intro u v hu hv
    rw [hmode] at hu hv
    split at hu
    · next e =>
      split at hv
      · next e' => rw [e,e']
      · exact absurd hv (by simp [hnoLast v])
    · exact absurd hu (by simp [hnoLast u])
  case waiting => exact fun hw => absurd (h.waiting hw).1 hnot
  case resetting =>
    intro u st' hu
    rw [hmode] at hu
    split at hu
    · rw [← hm] at hu
      split at hu
      · next hz => exact hz
      · cases hu
    · have hno := hnoLast u
      rw [hu] at hno
      cases hno
  case reset =>
    intro hall' hno
    by_cases hz : s.awaited - 1 = 0
    · refine absurd ?_ (hno t (st ||| barWasLast))
      rw [hmode,if_pos rfl,← hm,if_pos hz]
    · exact absurd hall' (hnall hz)
  case partly =>
    intro hna
    have hz : s.awaited - 1 ≠ 0 := fun hz => hna (hall hz)
    change s.awaited - 1 + (Finset.univ.filter fun u => ((s.arrive t st).arrived u == s.phase + 1) = true).card = _
    omega

/-- The counter is reset for the next phase. -/
theorem resets {st : Word} (hmt : s.mode t = .resetting st) :
    Inv ({ s with awaited := Fintype.card τ }.setMode t (.counting st)) := by
  have hok := h.modes t
  rw [hmt] at hok
  have hmode : ∀ u, (({ s with awaited := Fintype.card τ } : State τ).setMode t (.counting st)).mode u =
      if u = t then .counting st else s.mode u := fun u => Function.update_apply ..
  have hone : ∀ u, ((({ s with awaited := Fintype.card τ } : State τ).setMode t (.counting st)).mode u).isLast = true →
      (s.mode u).isLast = true := by
    intro u hu
    rw [hmode] at hu
    split at hu
    · next e =>
      rw [e,hmt]
      rfl
    · exact hu
  constructor
  case generation => exact h.generation
  case lock =>
    intro u
    rw [hmode]
    split
    · next e =>
      subst e
      have hl := h.lock u
      rw [hmt] at hl
      exact hl
    · exact h.lock u
  case modes =>
    intro u
    rw [hmode]
    split
    · next e =>
      subst e
      exact hok
    · exact (h.modes u).congr rfl rfl rfl rfl rfl id
  case tasks =>
    have hcard := card_change
      (p := fun u => ((({ s with awaited := Fintype.card τ } : State τ).setMode t (.counting st)).mode u).inTask)
      (q := fun u => (s.mode u).inTask) t fun u hu => by rw [hmode,if_neg hu]
    rw [hmode,if_pos rfl,hmt,show (Mode.counting st).inTask = false from rfl,
      show (Mode.resetting st).inTask = false from rfl] at hcard
    have htasks := h.tasks
    unfold State.running at htasks ⊢
    change _ ≤ s.taskCount
    omega
  case single => exact fun u v hu hv => h.single u v (hone u hu) (hone v hv)
  case waiting =>
    intro hw
    have hno := (h.waiting hw).2 t
    rw [hmt] at hno
    cases hno
  case resetting =>
    intro u st' hu
    rw [hmode] at hu
    split at hu
    · cases hu
    · next hne => exact absurd (h.single u t (by rw [hu]; rfl) (by rw [hmt]; rfl)) hne
  case reset => exact fun _ _ => rfl
  case partly => exact fun hna => absurd hok.2.1 hna

omit [DecidableEq τ] in
/-- No thread is about to release the barrier while application code runs. -/
theorem no_releasing {st : Option Word} (hr : s.Runs t st) (hin : st.isSome = true → (s.mode t).inTask = true)
    (u : τ) (st' : Word) : s.mode u ≠ .releasing st' := by
  intro hu
  have hok := h.modes u
  rw [hu] at hok
  have hpos := h.not_released hr hin hok.1.2.1
  have hzero := hok.2
  omega

end Inv

theorem leaveHandle_cases (st : Word) : State.leaveHandle st = .checking st ∧ gompBarrierLastThread st = false ∨
    ∃ st', State.leaveHandle st = .waiting st' ∧ count st' = count st ∧ (flags st % 4 = 1 → flags st' = 0) := by
  unfold State.leaveHandle
  cases hl : gompBarrierLastThread st with
  | false => exact .inl ⟨by simp,rfl⟩
  | true =>
    refine .inr ⟨_,if_pos rfl,?_,?_⟩
    · rw [count_and (by decide),count_and (by decide)]
    · have hfin : ∀ f < 8, f % 4 = 1 → (f &&& flags (~~~barWasLast)) &&& flags (~~~barCancelled) = 0 := by decide
      intro hf
      rw [flags_and,flags_and]
      exact hfin _ (flags_lt st) hf

omit [DecidableEq τ] [Fintype τ] in
/-- What the thread knows when it leaves `gomp_barrier_handle_tasks`. -/
theorem State.Inside.leaveHandle {s : State τ} {t : τ} {st : Word} (hin : s.Inside t st) :
    s.ModeOk t (State.leaveHandle st) := by
  rcases leaveHandle_cases st with ⟨he,hl⟩ | ⟨st',he,hc,hf⟩
  · rw [he]
    refine ⟨hin,hin.flags_eq.resolve_left fun h1 => ?_⟩
    rw [lastThread_iff] at hl
    have : flags st % 2 = 1 := by omega
    simp [this] at hl
  · rw [he]
    have hf' : flags st' = 0 := by
      refine hf (hin.flags_eq.resolve_right fun h0 => ?_)
      unfold State.leaveHandle at he
      have hno : gompBarrierLastThread st = false := by simp [lastThread_iff, h0]
      rw [hno] at he
      cases he
    exact ⟨⟨hin.phases,hc.trans hin.count_eq,.inr hf'⟩,hf'⟩

/-- A step of the application code under the lock. -/
theorem Inv.perform {s s' : State τ} {t : τ} {st : Option Word} {o : Op} {flag : Bool} (h : Inv s)
    (hmt : s.mode t = .op st o) (hs : s.perform t st flag o = some s') : Inv s' := by
  have hok := h.modes t
  rw [hmt] at hok
  have hlk : (s.mode t).holdsLock = true := by rw [hmt]; rfl
  have hin : st.isSome = true → (s.mode t).inTask = true := by
    intro hst
    rw [hmt]
    cases st with
    | none => cases hst
    | some st => rfl
  have htask : ∀ g, (Mode.opStore st g).inTask = (s.mode t).inTask ∧ (Mode.app st).inTask = (s.mode t).inTask := by
    intro g
    rw [hmt]
    cases st <;> exact ⟨rfl,rfl⟩
  have hno := h.no_releasing hok hin
  have htasks := h.tasks
  have hheld := (h.lock t).mp hlk
  obtain ⟨hp1,hp2,hp3⟩ := agree_pending (g := s.generation)
  cases o with
  | create =>
    cases hs
    refine h.store (l := s.lock) hlk ⟨hok,hp1⟩ ⟨rfl,rfl⟩ (.inr hno) (by simp [Mode.holdsLock, hheld]) (.inr hheld) ?_
      rfl (by simp)
    rw [(htask _).1]
    omega
  | complete =>
    simp only [State.perform, Option.ite_none_right_eq_some] at hs
    obtain ⟨hlt,hs⟩ := hs
    cases hs
    refine h.store (g := s.generation) (c := s.taskCount - 1) hlk hok ⟨rfl,rfl⟩ (.inr hno) (by simp [Mode.holdsLock])
      (.inl rfl) ?_ rfl (by simp)
    rw [(htask 0#32).2]
    omega
  | cancel =>
    simp only [State.perform] at hs
    split at hs
    · cases hs
      refine h.store (g := s.generation) (c := s.taskCount) hlk hok ⟨rfl,rfl⟩ (.inl rfl) (by simp [Mode.holdsLock])
        (.inl rfl) ?_ rfl (by simp)
      rw [(htask 0#32).2]
      omega
    · cases hs
      refine h.go ⟨hok,hp3⟩ (by rw [hmt]; rfl) ?_ (by simp [Mode.isLast]) (by simp [hmt]) (by simp)
      rw [(htask _).1]
      omega
  | schedule =>
    cases hs
    refine h.go ⟨hok,?_⟩ (by rw [hmt]; rfl) ?_ (by simp [Mode.isLast]) (by simp [hmt]) (by simp)
    · split
      · exact hp1
      · exact hp2
    · rw [(htask _).1]
      omega

theorem leaveHandle_plain (st : Word) : (State.leaveHandle st).holdsLock = false ∧
    (State.leaveHandle st).inTask = false ∧ (State.leaveHandle st).isLast = false := by
  unfold State.leaveHandle
  split <;> exact ⟨rfl,rfl,rfl⟩

/-- The store of the last thread, without the lock. -/
theorem Inv.releases {s : State τ} {t : τ} {st : Word} (h : Inv s) (hmt : s.mode t = .releasing st) :
    Inv ({ s with generation := releaseState st, phase := s.phase + 1 }.comeBack t) := by
  have hok := h.modes t
  rw [hmt] at hok
  obtain ⟨⟨hin,hall,hlast⟩,hzero⟩ := hok
  have hret : s.returned t = s.phase := by
    have harr := hall t
    rcases hin.phases with ⟨hret,_⟩ | ⟨_,ha⟩
    · exact hret
    · omega
  have hspec := releaseState_spec hlast
  rw [hin.count_eq,hret] at hspec
  have hone : ∀ u, u ≠ t → (s.mode u).isLast = false := by
    intro u hu
    by_contra hne
    exact hu (h.single u t (by simpa using hne) (by rw [hmt]; rfl))
  refine h.advance (l := s.lock) hall hzero ⟨by rw [hspec.1]; omega,hspec.2⟩
    (fun u hu => Function.update_of_ne hu _ _) hone ?_ ⟨hall t,?_⟩ ?_ (fun _ _ => Iff.rfl) rfl rfl (by simp [hmt])
  · -- whoever completes the last task finds the waiting flag, which this thread has not raised
    intro u hu st' hd
    have hu' := h.modes u
    rw [hd] at hu'
    have hno := (h.waiting (hu'.2.2.2 rfl)).2 t
    rw [hmt] at hno
    cases hno
  · change Function.update s.returned t (s.returned t + 1) t = _
    rw [Function.update_self,hret]
  · have hl := h.lock t
    rw [hmt] at hl
    exact hl

/-- The store under the lock, by the last thread or by the one that completes the last task. -/
theorem Inv.dones {s : State τ} {t : τ} {st : Word} {last : Bool} (h : Inv s) (hmt : s.mode t = .done st last) :
    Inv ({ s with generation := gompTeamBarrierDone st, phase := s.phase + 1 }.release t
      (if last then State.leaveHandle st else .relock st)) := by
  have hok := h.modes t
  rw [hmt] at hok
  obtain ⟨hin,hall,hzero,hwait⟩ := hok
  have hlk : (s.mode t).holdsLock = true := by rw [hmt]; rfl
  have hret : s.returned t = s.phase := by
    have harr := hall t
    rcases hin.phases with ⟨hret,_⟩ | ⟨_,ha⟩
    · exact hret
    · omega
  have hspec := done_spec st
  rw [hin.count_eq,hret] at hspec
  have hone : ∀ u, u ≠ t → (s.mode u).isLast = false := by
    intro u hu
    cases last with
    | false => exact (h.waiting (hwait rfl)).2 u
    | true =>
      by_contra hne
      exact hu (h.single u t (by simpa using hne) (by rw [hmt]; rfl))
  have hin' : InPhase (s.phase + 1) (s.arrived t) (s.returned t) st :=
    ⟨.inr ⟨by omega,hall t⟩,hin.count_eq,hin.flags_eq⟩
  obtain ⟨hl1,hl2,hl3⟩ := leaveHandle_plain st
  refine h.advance (r := s.returned) hall hzero ⟨by rw [hspec.1]; omega,hspec.2⟩ (fun _ _ => rfl) hone ?_ ?_ ?_ ?_ ?_ ?_
    (by simp [hmt])
  · intro u hu st' hd
    exact hu (h.lock_unique hlk (by rw [hd]; rfl))
  · cases last with
    | false => exact hin'
    | true =>
      exact State.Inside.leaveHandle
        (s := { s with generation := gompTeamBarrierDone st, phase := s.phase + 1, lock := none }) hin'
  · cases last with
    | false => simp [Mode.holdsLock]
    | true => simp [hl1]
  · intro u hu
    simp [(h.lock t).mp hlk, hu.symm]
  · cases last with
    | false => rfl
    | true => exact hl2
  · cases last with
    | false => rfl
    | true => exact hl3

theorem access_inv {s s' : State τ} {t : τ} {more flag : Bool} (h : Inv s) (hs : s.access t more flag = some s') :
    Inv s' := by
  have hok := h.modes t
  have htasks := h.tasks
  have hlast : ∀ st, gompBarrierLastThread st = true → s.Inside t st → flags st % 4 = 1 := by
    intro st hl hin
    rw [lastThread_iff,decide_eq_true_eq] at hl
    rcases hin.flags_eq with hf | hf
    · exact hf
    · omega
  cases hmt : s.mode t <;> simp only [State.access, hmt] at hs <;> rw [hmt] at hok
  case app st => cases hs
  case opLock st op =>
    exact h.acquire hs hok rfl (by rw [hmt]; cases st <;> rfl) (by simp [Mode.isLast]) (by simp [hmt]) (by simp)
  case op st op => exact h.perform hmt hs
  case opStore st g =>
    cases hs
    refine h.store (c := s.taskCount) (by rw [hmt]; rfl) hok.1 hok.2 (.inl rfl) (by simp [Mode.holdsLock]) (.inl rfl) ?_
      rfl (by simp)
    rw [hmt]
    cases st <;> exact Nat.add_le_add_right htasks _
  case loaded st =>
    cases hs
    exact h.arrive hmt
  case resetting st =>
    cases hs
    exact h.resets hmt
  case counting st =>
    cases hs
    split
    · refine h.go ⟨hok.1,fun _ => hok.2.1⟩ (by rw [hmt]; rfl) (by rw [hmt]; exact htasks) (by simp [hmt, Mode.isLast])
        (by simp [hmt]) (by simp)
    · next hzero =>
      refine h.go ⟨hok,by simpa using hzero⟩ (by rw [hmt]; rfl) (by rw [hmt]; exact htasks) (by simp [hmt, Mode.isLast])
        (by simp [hmt]) (by simp)
  case releasing st =>
    cases hs
    exact h.releases hmt
  case waiting st =>
    split at hs
    · cases hs
      have hno : gompBarrierLastThread st = false := by simp [lastThread_iff, hok.2]
      exact h.go ⟨hok.1,by simp [hno]⟩ (by rw [hmt]; rfl) (by rw [hmt]; exact htasks) (by simp [Mode.isLast, hno])
        (by simp [hmt]) (by simp)
    · split at hs
      · next hg =>
        cases hs
        exact h.comeBack hok.1 hok.2 hg (by rw [hmt]; rfl) (by rw [hmt]; rfl) (by rw [hmt]; rfl) (by simp [hmt])
      · cases hs
        exact h.go hok (by rw [hmt]) (by rw [hmt]; exact htasks) (by simp [Mode.isLast]) (by simp [hmt]) (by simp)
  case checking st =>
    split at hs
    · next hg =>
      cases hs
      exact h.comeBack hok.1 hok.2 hg (by rw [hmt]; rfl) (by rw [hmt]; rfl) (by rw [hmt]; rfl) (by simp [hmt])
    · cases hs
      exact h.go hok (by rw [hmt]; rfl) (by rw [hmt]; exact htasks) (by simp [Mode.isLast]) (by simp [hmt]) (by simp)
  case handle st =>
    exact h.acquire hs hok rfl (by rw [hmt]; rfl) (by simp [hmt, Mode.isLast]) (by simp [hmt]) (by simp)
  case entered st =>
    split at hs
    · next hl =>
      have hall := hok.2 hl
      split at hs
      · next hzero =>
        cases hs
        exact h.go ⟨hok.1,hall,hzero,by simp⟩ (by rw [hmt]; rfl) (by rw [hmt]; exact htasks)
          (by simp [hmt, Mode.isLast, hl]) (by simp [hmt]) (by simp)
      · cases hs
        exact h.go ⟨⟨hok.1,hall,hlast st hl hok.1⟩,count_or (by decide)⟩ (by rw [hmt]; rfl) (by rw [hmt]; exact htasks)
          (by simp [hmt, Mode.isLast, hl]) (by simp [hmt]) (by simp)
    · cases hs
      exact h.go hok.1 (by rw [hmt]; rfl) (by rw [hmt]; exact htasks) (by simp [Mode.isLast]) (by simp [hmt]) (by simp)
  case setWaiting st g =>
    cases hs
    have hlk : (s.mode t).holdsLock = true := by rw [hmt]; rfl
    have hone : ∀ u, u ≠ t → (s.mode u).isLast = false := by
      intro u hu
      by_contra hne
      exact hu (h.single u t (by simpa using hne) (by rw [hmt]; rfl))
    exact h.move (c := s.taskCount) (l := s.lock) hok.1.1 (fun u hu => h.modes_other hlk (.inl rfl) hu) hok.2
      (by simp [Mode.holdsLock, (h.lock t).mp hlk]) (fun _ _ => Iff.rfl) (by rw [hmt]; exact htasks)
      (by simp [Mode.isLast]) (fun _ => ⟨hok.1.2.1,rfl,hone⟩) (by simp [hmt]) (by simp)
  case loop st =>
    split at hs
    · simp only [Option.ite_none_right_eq_some] at hs
      obtain ⟨hlt,hs⟩ := hs
      cases hs
      split
      · exact h.go ⟨hok,agree_pending.2.1⟩ (by rw [hmt]; rfl) (by rw [hmt]; exact hlt) (by simp [Mode.isLast])
          (by simp [hmt]) (by simp)
      · exact h.go hok (by rw [hmt]; rfl) (by rw [hmt]; exact hlt) (by simp [Mode.isLast]) (by simp [hmt]) (by simp)
    · cases hs
      obtain ⟨hl1,hl2,hl3⟩ := leaveHandle_plain st
      refine h.store (g := s.generation) (c := s.taskCount) (by rw [hmt]; rfl) (State.Inside.leaveHandle hok) ⟨rfl,rfl⟩
        (.inl rfl) (by simp [hl1]) (.inl rfl) (by rw [hmt,hl2]; exact htasks) hl3 ?_
      intro st' hr
      rw [hr] at hl3
      cases hl3
  case clearing st g =>
    cases hs
    have hlk : (s.mode t).holdsLock = true := by rw [hmt]; rfl
    exact h.store (c := s.taskCount) (l := s.lock) hlk hok.1 hok.2 (.inl rfl)
      (by simp [Mode.holdsLock, (h.lock t).mp hlk]) (.inr ((h.lock t).mp hlk))
      (by rw [hmt]; exact Nat.add_le_add_right htasks _) rfl (by simp)
  case picked st =>
    split at hs
    · cases hs
      exact h.go hok (by rw [hmt]; rfl) (by rw [hmt]; exact Nat.add_le_add_right htasks _) (by simp [Mode.isLast])
        (by simp [hmt]) (by simp)
    · cases hs
      exact h.store (g := s.generation) (c := s.taskCount) (by rw [hmt]; rfl) hok ⟨rfl,rfl⟩ (.inl rfl)
        (by simp [Mode.holdsLock]) (.inl rfl) (by rw [hmt]; exact Nat.add_le_add_right htasks _) rfl (by simp)
  case finishing st =>
    cases more with
    | true => exact h.acquire hs hok rfl (by rw [hmt]; rfl) (by simp [Mode.isLast]) (by simp [hmt]) (by simp)
    | false =>
      -- the task was suspended and goes on elsewhere
      simp only [State.acquire, Option.ite_none_right_eq_some] at hs
      obtain ⟨hfree,hs⟩ := hs
      cases hs
      refine h.move (g := s.generation) (c := s.taskCount) hok (fun u _ => h.modes u) rfl (by simp [Mode.holdsLock])
        (fun u hu => by simp [hfree, hu.symm]) (htasks.trans (Nat.le_add_right _ _)) (by simp [Mode.isLast]) (fun hw => ?_)
        (by simp [hmt]) (by simp)
      obtain ⟨hall,hno⟩ := h.waiting hw
      exact ⟨hall,rfl,fun u _ => hno u⟩
  case finished st =>
    cases hs
    have hin : (s.mode t).inTask = true := by rw [hmt]; rfl
    have hpos := h.taskCount_pos hin
    have hlk : (s.mode t).holdsLock = true := by rw [hmt]; rfl
    have hruns : s.Runs t (some st) := hok
    have hno := h.no_releasing hruns fun _ => hin
    have hcount : s.running ≤ s.taskCount - 1 + 1 := by omega
    split
    · next hzero =>
      exact h.store (g := s.generation) (l := s.lock) hlk ⟨hok,hzero⟩ ⟨rfl,rfl⟩ (.inr hno)
        (by simp [Mode.holdsLock, (h.lock t).mp hlk]) (.inr ((h.lock t).mp hlk)) (by rw [hmt]; exact hcount) rfl (by simp)
    · exact h.store (g := s.generation) (c := s.taskCount - 1) (l := s.lock) hlk hok ⟨rfl,rfl⟩ (.inr hno)
        (by simp [Mode.holdsLock, (h.lock t).mp hlk]) (.inr ((h.lock t).mp hlk)) (by rw [hmt]; exact hcount) rfl (by simp)
  case testing st =>
    cases hs
    split
    · next hw =>
      exact h.go ⟨hok.1,(h.waiting hw).1,hok.2,fun _ => hw⟩ (by rw [hmt]; rfl) (by rw [hmt]; exact htasks)
        (by simp [Mode.isLast]) (by simp [hmt]) (by simp)
    · exact h.go hok.1 (by rw [hmt]; rfl) (by rw [hmt]; exact htasks) (by simp [Mode.isLast]) (by simp [hmt]) (by simp)
  case done st last =>
    cases hs
    exact h.dones hmt
  case relock st =>
    exact h.acquire hs hok rfl (by rw [hmt]; rfl) (by simp [Mode.isLast]) (by simp [hmt]) (by simp)

theorem step_inv {s s' : State τ} {e : Event τ} (h : Inv s) (hs : step s e = some s') : Inv s' := by
  have htasks := h.tasks
  cases e with
  | start t =>
    simp only [step, Option.ite_none_right_eq_some] at hs
    obtain ⟨hmt,hs⟩ := hs
    cases hs
    have hok := h.modes t
    rw [hmt] at hok
    obtain ⟨hc,hf⟩ := startState_spec s.generation
    exact h.go ⟨hok,hc.trans h.generation,hf⟩ (by rw [hmt]; rfl) (by rw [hmt]; exact htasks) (by simp [Mode.isLast])
      (by simp [hmt]) (by simp)
  | operate t op =>
    simp only [step] at hs
    split at hs
    · next st hmt =>
      cases hs
      have hok := h.modes t
      rw [hmt] at hok
      exact h.go hok (by rw [hmt]; rfl) (by rw [hmt]; cases st <;> exact Nat.add_le_add_right htasks _)
        (by simp [Mode.isLast]) (by simp [hmt]) (by simp)
    · cases hs
  | leave t =>
    simp only [step] at hs
    split at hs
    · next st hmt =>
      cases hs
      have hok := h.modes t
      rw [hmt] at hok
      exact h.go hok (by rw [hmt]; rfl) (by rw [hmt]; exact Nat.add_le_add_right htasks _) (by simp [Mode.isLast])
        (by simp [hmt]) (by simp)
    · cases hs
  | access t more flag => exact access_inv h hs

omit [DecidableEq τ] in
theorem init_inv : Inv (init τ) := by
  constructor
  case generation => simp [init, count]
  case lock => simp [init, Mode.holdsLock]
  case modes => exact fun _ => ⟨rfl,rfl⟩
  case tasks => simp [init, State.running, Mode.inTask]
  case single => simp [init, Mode.isLast]
  case waiting =>
    intro hw
    rw [waitingForTasks_iff] at hw
    simp [init, flags] at hw
  case resetting => simp [init]
  case reset => exact fun _ _ => rfl
  case partly => simp [init]

namespace Inv
variable {s : State τ} (h : Inv s)
include h

omit [DecidableEq τ] in
/-- No thread is more than one phase behind, and none is ahead. -/
theorem phases (t : τ) : s.returned t ≤ s.phase ∧ s.phase ≤ s.arrived t := by
  have hok := h.modes t
  have hin : ∀ st, s.Inside t st → s.returned t ≤ s.phase ∧ s.phase ≤ s.arrived t := by
    intro st hst
    rcases hst.phases with ⟨h1,h2⟩ | ⟨h1,h2⟩ <;> omega
  have hb : s.Before t → s.returned t ≤ s.phase ∧ s.phase ≤ s.arrived t := fun hb => ⟨hb.2.le,hb.1.ge⟩
  have hrun : ∀ st, s.Runs t st → s.returned t ≤ s.phase ∧ s.phase ≤ s.arrived t := by
    intro st hst
    cases st with
    | none => exact hb hst
    | some st => exact hin st hst
  cases hm : s.mode t <;> rw [hm] at hok
  case app st | opLock st _ | op st _ => exact hrun st hok
  case opStore st g => exact hrun st hok.1
  case loaded st => exact hb hok.1
  case releasing st | setWaiting st g => exact hin st hok.1.1
  case loop st | picked st | finishing st | finished st | relock st => exact hin st hok
  case resetting st | counting st | waiting st | checking st | handle st | entered st | clearing st g | testing st =>
    exact hin st hok.1
  case done st last => exact hin st hok.1

omit [DecidableEq τ] in
/-- The counter is back before the first arrival of a phase. -/
theorem awaited_eq [Nonempty τ] (hnone : ∀ t, s.arrived t = s.phase) : s.awaited = Fintype.card τ := by
  have hnot : ¬ s.AllArrived := fun hall => by
    have h1 := hall (Classical.arbitrary τ)
    have h2 := hnone (Classical.arbitrary τ)
    omega
  have hempty : (Finset.univ.filter fun t => (s.arrived t == s.phase + 1) = true) = ∅ := by
    rw [Finset.filter_eq_empty_iff]
    intro t _
    simp [hnone t]
  have hpart := h.partly hnot
  rw [hempty] at hpart
  simpa using hpart

end Inv

omit [Fintype τ] in
theorem acquire_phase {s s' : State τ} {t : τ} {m : Mode} (hs : s.acquire t m = some s') : s'.phase = s.phase := by
  simp only [State.acquire, Option.ite_none_right_eq_some] at hs
  obtain ⟨_,hs⟩ := hs
  cases hs
  rfl

theorem perform_phase {s s' : State τ} {t : τ} {st : Option Word} {o : Op} {flag : Bool}
    (hs : s.perform t st flag o = some s') : s'.phase = s.phase := by
  cases o with
  | create | schedule =>
    cases hs
    rfl
  | complete =>
    simp only [State.perform, Option.ite_none_right_eq_some] at hs
    obtain ⟨_,hs⟩ := hs
    cases hs
    rfl
  | cancel =>
    simp only [State.perform] at hs
    split at hs <;> cases hs <;> rfl

/-- Only two stores advance the generation. -/
theorem access_phase {s s' : State τ} {t : τ} {more flag : Bool} (hs : s.access t more flag = some s') :
    s'.phase = s.phase ∨ s'.phase = s.phase + 1 ∧ s'.taskCount = s.taskCount ∧ s'.arrived = s.arrived ∧
      ((∃ st, s.mode t = .releasing st) ∨ ∃ st last, s.mode t = .done st last) := by
  cases hmt : s.mode t <;> simp only [State.access, hmt] at hs
  case releasing st =>
    cases hs
    exact .inr ⟨rfl,rfl,rfl,.inl ⟨st,rfl⟩⟩
  case done st last =>
    cases hs
    exact .inr ⟨rfl,rfl,rfl,.inr ⟨st,last,rfl⟩⟩
  case app => cases hs
  case op st op => exact .inl (perform_phase hs)
  case opLock | handle | finishing | relock => exact .inl (acquire_phase hs)
  case waiting | checking | entered | loop | picked =>
    split_ifs at hs <;> cases hs <;> exact .inl rfl
  all_goals
    cases hs
    exact .inl rfl

theorem step_phase {s s' : State τ} {e : Event τ} (h : Inv s) (hs : step s e = some s') :
    s'.phase = s.phase ∨ s'.phase = s.phase + 1 ∧ s.taskCount = 0 ∧ s'.taskCount = 0 ∧ s.AllArrived ∧
      s'.arrived = s.arrived := by
  cases e with
  | start t =>
    simp only [step, Option.ite_none_right_eq_some] at hs
    obtain ⟨_,hs⟩ := hs
    cases hs
    exact .inl rfl
  | operate t op | leave t =>
    simp only [step] at hs
    split at hs <;> cases hs
    exact .inl rfl
  | access t more flag =>
    refine (access_phase hs).imp_right fun ⟨hp,hc,ha,hmt⟩ => ?_
    have hok := h.modes t
    rcases hmt with ⟨st,hmt⟩ | ⟨st,last,hmt⟩ <;> rw [hmt] at hok
    · exact ⟨hp,hok.2,hc.trans hok.2,hok.1.2.1,ha⟩
    · exact ⟨hp,hok.2.2.1,hc.trans hok.2.2.1,hok.2.1,ha⟩

/-- What the barrier promises in a state and about the next access. -/
structure PhasesSafe (s : State τ) : Prop where
  returned : ∀ t k, k < s.returned t → k < s.phase ∧ ∀ u, k < s.arrived u
  awaited : (∀ t, s.arrived t = s.phase) → s.awaited = Fintype.card τ
  generation : count s.generation = s.phase % 2 ^ 29
  advances : ∀ e s', step s e = some s' →
    s'.phase = s.phase ∧ count s'.generation = count s.generation ∨
    s'.phase = s.phase + 1 ∧ count s'.generation = (count s.generation + 1) % 2 ^ 29 ∧ s.taskCount = 0 ∧
      s'.taskCount = 0 ∧ (∀ t, s.arrived t = s.phase + 1) ∧ s'.awaited = Fintype.card τ

/-- A thread returns from a phase only after all threads have arrived in it and the generation was
advanced, which happens once per phase, with no task left and the counter of awaited threads
reset; no other access changes the count. -/
theorem team_barrier_phases [Nonempty τ] {es : List (Event τ)} {s : State τ} (hr : run step (init τ) es = some s) :
    PhasesSafe s := by
  have h : Inv s := run_invariant (fun s e s' hi _ hs => step_inv hi hs) init_inv (along_true _ _) hr
  constructor
  case returned =>
    intro t k hk
    have ht := (h.phases t).1
    refine ⟨by omega,fun u => ?_⟩
    have hu := (h.phases u).2
    omega
  case awaited => exact h.awaited_eq
  case generation => exact h.generation
  case advances =>
    intro e s' hs
    have h' := step_inv h hs
    rcases step_phase h hs with hp | ⟨hp,hc,hc',hall,ha⟩
    · exact .inl ⟨hp,by rw [h'.generation,h.generation,hp]⟩
    · refine .inr ⟨hp,?_,hc,hc',hall,h'.awaited_eq fun t => ?_⟩
      · rw [h'.generation,h.generation,hp]
        omega
      · rw [ha,hp]
        exact hall t

/-- A task that one thread runs inside the barrier while the other arrives last. -/
def lateTask (a b : Fin 2) : List (Event (Fin 2)) :=
  [.operate a .create,.access a true true,.access a true true,.access a true true,.start a,.access a true true,
    .access a true true,.access a true true,.access a true true,.access a true false,.access a false true,.start b,
    .access b true true,.access b true true,.access b true true,.access b true true,.access b true true,
    .access b true true,.access b false true,.leave a,.access a true true,.access a true true,.access a true true,
    .access a true true,.access b true true]

theorem team_barrier_lateTask : ∃ s, run step (init (Fin 2)) (lateTask 0 1) = some s ∧ s.returned 1 = 1 ∧ s.phase = 1 ∧
    PhasesSafe s :=
  ⟨_,rfl,by decide,by decide,@team_barrier_phases (Fin 2) _ _ _ (lateTask 0 1) _ rfl⟩

end GompUlt.Barrier
