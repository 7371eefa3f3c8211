import GompUlt.Loop.Bounds
import Mathlib.Data.Int.Interval
import Mathlib.Data.Set.Card

/-! # The parts of a taskloop

The iterations are divided before the first task is made, into a length and the number of the task behind which
the length drops by one step.  Three loops then replay the division: over copies of the arguments, over the
arguments themselves, and over the arguments of tasks that are run later.
-/
namespace GompUlt.Taskloop
open Iter Tiling

/-- A value stored in a `TYPE`. -/
def word (T : IterType) (x : ℤ) : ℤ :=
  match T with
  | .long => long x
  | .ull => ull x

/-- `n`, none when its division faults; only the `unsigned long long` copy reads `GOMP_TASK_FLAG_UP`. -/
def count (T : IterType) (up : Bool) (start stop step : ℤ) : Option ℤ :=
  match T with
  | .long =>
    let s := long (step + if 0 < step then -1 else 1)
    (longDiv (long (long (stop - start) + s)) step).map ull
  | .ull => some (if up then ull (stop - start + step - 1) / step else ull (start - stop - step - 1) / ull (-step))

/-- How many tasks there are, how far the first of them goes, and the last one that goes as far. -/
structure Split where
  numTasks : ℤ
  taskStep : ℤ
  nfirst : ℤ
deriving DecidableEq, Repr

/-- Tasks whose sizes differ by at most one. -/
def evenly (T : IterType) (n step numTasks : ℤ) : Split :=
  let div := n / numTasks
  let mod := n % numTasks
  let taskStep := word T (word T div * step)
  if mod ≠ 0 then ⟨numTasks,word T (taskStep + step),ull (mod - 1)⟩ else ⟨numTasks,taskStep,n⟩

/-- The division under `GOMP_TASK_FLAG_GRAINSIZE`.  An `unsigned long` holds every quotient. -/
def byGrainsize (T : IterType) (n start stop step grainsize : ℤ) : Split :=
  let numTasks := n / grainsize
  if numTasks ≤ 1 then ⟨1,word T (stop - start),n⟩
  else if grainsize ≤ numTasks ∧ (T = .long ∨ numTasks ≠ ullMax) then
    let mul := ull (numTasks * grainsize)
    let taskStep := word T (word T grainsize * step)
    if mul ≠ n then ⟨numTasks,word T (taskStep + step),ull (n - mul - 1)⟩ else ⟨numTasks,taskStep,n⟩
  else evenly T n step numTasks

/-- The division without it. -/
def byTasks (T : IterType) (n step numTasks nthreads : ℤ) : Split :=
  let numTasks := if numTasks = 0 then nthreads else numTasks
  if n ≤ numTasks then ⟨n,step,n⟩ else evenly T n step numTasks

/-- The local variables of the loops, the bounds in the argument areas, and those that `fn` was called with. -/
structure Replay where
  start : ℤ
  taskStep : ℤ
  args : ℕ → ℤ × ℤ
  calls : List (ℤ × ℤ)

/-- The bounds of task `i` are written to an area. -/
def fill (T : IterType) (step nfirst : ℤ) (area i : ℕ) (s : Replay) : Replay where
  start := word T (s.start + s.taskStep)
  taskStep := if (i : ℤ) = nfirst then word T (s.taskStep - step) else s.taskStep
  args := Function.update s.args area (s.start,word T (s.start + s.taskStep))
  calls := s.calls

/-- `fn` is called with an area. -/
def callFn (area : ℕ) (s : Replay) : Replay := { s with calls := s.calls ++ [s.args area] }

/-- The three loops over the tasks. -/
inductive Branch where
  | copied
  | inPlace
  | deferred
deriving DecidableEq, Repr

/-- The bounds that the tasks find when they run. -/
def subranges (T : IterType) (step : ℤ) (p : Split) (start : ℤ) (branch : Branch) : List (ℤ × ℤ) :=
  let tasks := List.range p.numTasks.toNat
  let s : Replay := ⟨start,p.taskStep,fun _ => (0,0),[]⟩
  match branch with
  | .copied => (tasks.foldl (fun s i => callFn i (fill T step p.nfirst i i s)) s).calls
  | .inPlace => (tasks.foldl (fun s i => callFn 0 (fill T step p.nfirst 0 i s)) s).calls
  | .deferred => tasks.map (tasks.foldl (fun s i => fill T step p.nfirst i i s) s).args

/-- A loop whose number of iterations is computed without overflow, like the value behind its last iteration, and
how it is to be divided.  The team is given by its size. -/
structure Args extends Bounds where
  grain : Bool
  numTasks : ℕ
  team : Option ℕ
  end_mem : type.min ≤ toBounds.value toBounds.n ∧ toBounds.value toBounds.n ≤ type.max
  numTasks_lt : numTasks < 2 ^ 64
  grain_pos : grain = true → 0 < numTasks
  team_pos : ∀ n ∈ team, 0 < n ∧ n < 2 ^ 32

/-- What else a call reads; `cancelledLater` is what it reads with the lock held. -/
structure Call where
  ifFlag : Bool
  nogroup : Bool
  cpyfn : Bool
  finalTask : Bool
  taskCount : ℕ
  barrierCancelled : Bool
  taskgroupCancelled : Bool
  cancelledLater : Bool
deriving DecidableEq, Repr

namespace Args
open Bounds
variable (L : Args)

def nthreads : ℕ := L.team.getD 1

/-- The step as the code is given it. -/
def step : ℤ := word L.type L.incr

/-- The division of `n` iterations. -/
def split (n : ℤ) : Split :=
  if L.grain then byGrainsize L.type n L.start L.stop L.step L.numTasks
  else byTasks L.type n L.step L.numTasks L.nthreads

/-- The tasks are run by the thread itself. -/
def undeferred (c : Call) (p : Split) : Bool :=
  !c.ifFlag || L.team.isNone || c.finalTask || decide ((64 * L.nthreads : ℕ) % 2 ^ 32 < ull (c.taskCount + p.numTasks))

/-- The bounds handed to the tasks, none when the call makes no task or frees those it has made. -/
def gompTaskloop (c : Call) : Option (List (ℤ × ℤ)) :=
  if L.team.isSome && c.barrierCancelled then none
  else (count L.type (decide (0 < L.incr)) L.start L.stop L.step).bind fun n =>
    let p := L.split n
    if c.nogroup && c.taskgroupCancelled then none
    else if L.undeferred c p then
      some (subranges L.type L.step p L.start (if c.cpyfn then .copied else .inPlace))
    else if c.cancelledLater && !c.cpyfn then none
    else some (subranges L.type L.step p L.start .deferred)

/-- The call makes no task, or none that stays. -/
def cancelled (c : Call) : Bool :=
  (L.team.isSome && c.barrierCancelled) || (c.nogroup && c.taskgroupCancelled) ||
    (!L.undeferred c (L.split L.n) && c.cancelledLater && !c.cpyfn)

/-- The number of iterations of a part. -/
noncomputable def size (c : ℤ × ℤ) : ℕ := (iters L.incr c.1 c.2).ncard

/-- The iterations are divided into parts in their order. -/
structure Splits (l : List (ℤ × ℤ)) : Prop where
  first : ∀ c ∈ l.head?, c.1 = L.start
  chain : l.IsChain fun c d => d.1 = c.2
  nonempty : ∀ c ∈ l, (iters L.incr c.1 c.2).Nonempty
  once : ∀ x ∈ iters L.incr L.start L.stop, ∃! i : ℕ, ∃ c, l[i]? = some c ∧ x ∈ iters L.incr c.1 c.2
  inside : ∀ c ∈ l, iters L.incr c.1 c.2 ⊆ iters L.incr L.start L.stop
  grain : L.grain = true → ∀ c ∈ l, min (L.numTasks : ℤ) L.n ≤ L.size c ∧ L.size c < 2 * L.numTasks
  tasks : L.grain = false → (l.length : ℤ) = min (if L.numTasks = 0 then (L.nthreads : ℤ) else L.numTasks) L.n ∧
    ∀ c ∈ l, ∀ d ∈ l, L.size c ≤ L.size d + 1

variable {L}

/-! ## Words -/

theorem word_congr {T : IterType} {x y : ℤ} (h : ull x = ull y) : word T x = word T y := by
  cases T with
  | long => exact (long_ull x).symm.trans ((congrArg long h).trans (long_ull y))
  | ull => exact h

theorem ull_word (T : IterType) (x : ℤ) : ull (word T x) = ull x := by
  cases T with
  | long => exact Int.bmod_emod
  | ull => exact Int.emod_emod _ _

theorem word_eq {T : IterType} {x : ℤ} (h : T.min ≤ x ∧ x ≤ T.max) : word T x = x := by
  cases T with
  | long =>
    simp only [IterType.min, IterType.max, longMax] at h
    exact long_eq h.1 (by omega)
  | ull =>
    simp only [IterType.min, IterType.max, ullMax] at h
    exact ull_eq h.1 (by omega)

theorem word_add_word (T : IterType) (x y : ℤ) : word T (x + word T y) = word T (x + y) := by
  have h := ull_word T y
  apply word_congr
  unfold ull at h ⊢
  omega

theorem word_word_add_word (T : IterType) (x y : ℤ) : word T (word T x + word T y) = word T (x + y) := by
  have hx := ull_word T x
  have hy := ull_word T y
  apply word_congr
  unfold ull at hx hy ⊢
  omega

theorem word_word_sub_word (T : IterType) (x y : ℤ) : word T (word T x - word T y) = word T (x - y) := by
  have hx := ull_word T x
  have hy := ull_word T y
  apply word_congr
  unfold ull at hx hy ⊢
  omega

theorem word_word_mul_word (T : IterType) (x y : ℤ) : word T (word T x * word T y) = word T (x * y) := by
  have hx := ull_word T x
  have hy := ull_word T y
  apply word_congr
  unfold ull at hx hy ⊢
  rw [Int.mul_emod, hx, hy, ← Int.mul_emod]

theorem count_eq : count L.type (decide (0 < L.incr)) L.start L.stop L.step = some L.n := by
  unfold count step
  cases hT : L.type with
  | long =>
    have hrep := L.count_rep
    simp only [hT, spanMax, longMax] at hrep
    have hincr : word .long L.incr = L.incr := by
      obtain ⟨hi,hd,hlt,hspan⟩ | ⟨hi,hd,hlt,hspan⟩ := L.up_or_down
      · rw [if_pos hi, hd, hspan] at hrep
        exact long_eq (by omega) (by omega)
      · rw [if_neg (by omega), hd, hspan] at hrep
        exact long_eq (by omega) (by omega)
    dsimp only
    rw [hincr]
    exact L.longCount_eq hT
  | ull =>
    have h := L.ullCount_eq hT
    simp only [decide_eq_true_eq]
    exact congrArg some h

/-! ## The loops -/

theorem callFn_calls (area : ℕ) (s : Replay) : (callFn area s).calls = s.calls ++ [s.args area] := rfl

theorem fill_calls {T : IterType} {step nfirst : ℤ} {area i : ℕ} (s : Replay) :
    (fill T step nfirst area i s).calls = s.calls := rfl

/-- The local variables before task `i`. -/
structure Replayed (bnd τ : ℕ → ℤ) (i : ℕ) (s : Replay) : Prop where
  start : s.start = bnd i
  taskStep : s.taskStep = τ i

section Replay
variable {T : IterType} {step : ℤ} {p : Split} {m : ℕ} {bnd τ : ℕ → ℤ} (hm : p.numTasks = m) (h0 : p.taskStep = τ 0)
  (hbnd : ∀ i < m, word T (bnd i + τ i) = bnd (i + 1))
  (hτ : ∀ i < m, τ (i + 1) = if (i : ℤ) = p.nfirst then word T (τ i - step) else τ i)
include hbnd hτ

theorem Replayed.fill {i : ℕ} (hi : i < m) {s : Replay} (h : Replayed bnd τ i s) (area : ℕ) :
    Replayed bnd τ (i + 1) (fill T step p.nfirst area i s) ∧
    (Taskloop.fill T step p.nfirst area i s).args = Function.update s.args area (bnd i,bnd (i + 1)) := by
  obtain ⟨hs,ht⟩ := h
  unfold Taskloop.fill
  rw [hs, ht, hbnd i hi]
  exact ⟨⟨rfl,(hτ i hi).symm⟩,rfl⟩

/-- Loops that call `fn` at once, in whatever areas. -/
theorem replay_calls (area : ℕ → ℕ) {s : Replay} (h : Replayed bnd τ 0 s) {i : ℕ} (hi : i ≤ m) :
    Replayed bnd τ i ((List.range i).foldl (fun s i => callFn (area i) (Taskloop.fill T step p.nfirst (area i) i s)) s) ∧
    ((List.range i).foldl (fun s i => callFn (area i) (Taskloop.fill T step p.nfirst (area i) i s)) s).calls =
      s.calls ++ (List.range i).map fun i => (bnd i,bnd (i + 1)) := by
  induction i with
  | zero => exact ⟨h,(List.append_nil _).symm⟩
  | succ i ih =>
    obtain ⟨hr,hcalls⟩ := ih (by omega)
    obtain ⟨hr',hargs⟩ := hr.fill hbnd hτ (by omega) (area i)
    rw [List.range_succ, List.foldl_append, List.foldl_cons, List.foldl_nil, List.map_append, List.map_singleton]
    refine ⟨⟨hr'.start,hr'.taskStep⟩,?_⟩
    rw [callFn_calls, hargs, Function.update_self, fill_calls, hcalls, List.append_assoc]

/-- The loop that fills an area for each task. -/
theorem replay_args {s : Replay} (h : Replayed bnd τ 0 s) {i : ℕ} (hi : i ≤ m) :
    Replayed bnd τ i ((List.range i).foldl (fun s i => Taskloop.fill T step p.nfirst i i s) s) ∧
    ∀ j < i, ((List.range i).foldl (fun s i => Taskloop.fill T step p.nfirst i i s) s).args j = (bnd j,bnd (j + 1)) := by
  induction i with
  | zero => exact ⟨h,fun j hj => absurd hj (Nat.not_lt_zero j)⟩
  | succ i ih =>
    obtain ⟨hr,hargs⟩ := ih (by omega)
    obtain ⟨hr',hfill⟩ := hr.fill hbnd hτ (by omega) i
    rw [List.range_succ, List.foldl_append, List.foldl_cons, List.foldl_nil]
    refine ⟨hr',fun j hj => ?_⟩
    rw [hfill]
    by_cases hji : j = i
    · rw [hji, Function.update_self]
    · rw [Function.update_of_ne hji]
      exact hargs j (by omega)

include hm h0 in
/-- Every branch hands the same bounds to the tasks. -/
theorem subranges_eq (branch : Branch) :
    subranges T step p (bnd 0) branch = (List.range m).map fun i => (bnd i,bnd (i + 1)) := by
  have hinit : Replayed bnd τ 0 ⟨bnd 0,p.taskStep,fun _ => (0,0),[]⟩ := ⟨rfl,h0⟩
  unfold subranges
  rw [hm, Int.toNat_natCast]
  cases branch with
  | copied => exact (replay_calls hbnd hτ id hinit le_rfl).2
  | inPlace => exact (replay_calls hbnd hτ (fun _ => 0) hinit le_rfl).2
  | deferred => exact List.map_congr_left fun j hj => (replay_args hbnd hτ hinit le_rfl).2 j (List.mem_range.mp hj)

end Replay

/-! ## The division -/

/-- `m` tasks of `b` iterations, the first `r` of them with one more. -/
structure Plan (L : Args) where
  m : ℕ
  b : ℤ
  r : ℕ
  m_pos : 0 < m
  b_pos : 0 < b
  r_lt : r < m
  total : m * b + r = L.n

namespace Plan
variable (P : Plan L)

/-- The iterations before task `i`. -/
def cut (i : ℕ) : ℤ := i * P.b + min (i : ℤ) P.r

/-- The size of task `i`. -/
def width (i : ℕ) : ℤ := if i < P.r then P.b + 1 else P.b

variable {P}

theorem cut_zero : P.cut 0 = 0 := by
  simp [cut]

theorem cut_m : P.cut P.m = L.n := by
  have hr := P.r_lt
  rw [cut, min_eq_right (by omega)]
  exact P.total

theorem cut_succ (i : ℕ) : P.cut (i + 1) = P.cut i + P.width i := by
  unfold cut width
  push_cast
  rw [add_mul, one_mul]
  split <;> omega

theorem width_pos (i : ℕ) : 0 < P.width i := by
  have hb := P.b_pos
  unfold width
  split <;> omega

theorem cut_strictMono : StrictMono P.cut := by
  refine strictMono_nat_of_lt_succ fun i => ?_
  have := P.width_pos i
  rw [cut_succ]
  omega

/-- The division in words makes the plan. -/
structure Made (P : Plan L) (p : Split) : Prop where
  numTasks : p.numTasks = P.m
  taskStep : p.taskStep = word L.type (P.width 0 * L.incr)
  nfirst : ∀ i < P.m, (i : ℤ) = p.nfirst ↔ i + 1 = P.r

/-- A planned division hands task `i` the iterations from `cut i` to `cut (i + 1)`. -/
theorem Made.subranges {p : Split} (h : P.Made p) (branch : Branch) :
    subranges L.type L.step p L.start branch =
      (List.range P.m).map fun i => (L.value (P.cut i),L.value (P.cut (i + 1))) := by
  have hend : ∀ i < P.m, L.type.min ≤ L.value (P.cut (i + 1)) ∧ L.value (P.cut (i + 1)) ≤ L.type.max := by
    intro i hi
    have h0 := P.cut_strictMono (Nat.succ_pos i)
    rw [cut_zero] at h0
    have hle := P.cut_strictMono.monotone (show i + 1 ≤ P.m from hi)
    rw [cut_m] at hle
    obtain heq | hlt := eq_or_lt_of_le hle
    · rw [heq]
      exact L.end_mem
    · exact value_mem h0.le hlt
  have hbnd : ∀ i < P.m, word L.type (L.value (P.cut i) + word L.type (P.width i * L.incr)) = L.value (P.cut (i + 1)) := by
    intro i hi
    have hsum : L.value (P.cut i) + P.width i * L.incr = L.value (P.cut (i + 1)) := by
      unfold value
      rw [cut_succ, add_mul]
      omega
    rw [word_add_word, hsum, word_eq (hend i hi)]
  have hτ : ∀ i < P.m, word L.type (P.width (i + 1) * L.incr) =
      if (i : ℤ) = p.nfirst then word L.type (word L.type (P.width i * L.incr) - L.step) else word L.type (P.width i * L.incr) := by
    intro i hi
    simp only [h.nfirst i hi]
    unfold width
    split
    case isTrue hlt => rw [if_neg (by omega), if_pos (by omega)]
    case isFalse hge =>
      split
      case isTrue hlast =>
        rw [if_pos (by omega), step, word_word_sub_word, add_mul, one_mul, add_sub_cancel_right]
      case isFalse hnot => rw [if_neg (by omega)]
  have hstart : L.value (P.cut 0) = L.start := by
    rw [cut_zero, value, zero_mul, add_zero]
  have heq := subranges_eq h.numTasks h.taskStep hbnd hτ branch
  rw [hstart] at heq
  exact heq

/-- Parts that hold the iterations of the plan, laid end to end from the start. -/
structure Parts (P : Plan L) (f : ℕ → ℤ × ℤ) : Prop where
  first : (f 0).1 = L.start
  next : ∀ i, i + 1 < P.m → (f (i + 1)).1 = (f i).2
  mem : ∀ i < P.m, ∀ x, x ∈ iters L.incr (f i).1 (f i).2 ↔ ∃ y, P.cut i ≤ y ∧ y < P.cut (i + 1) ∧ x = L.value y

theorem parts_value : P.Parts fun i => (L.value (P.cut i),L.value (P.cut (i + 1))) where
  first := by rw [cut_zero, value, zero_mul, add_zero]
  next _ _ := rfl
  mem _ _ _ := mem_range

section Parts
variable {f : ℕ → ℤ × ℤ} (h : P.Parts f)
include h

theorem Parts.first_eq : ∀ c ∈ ((List.range P.m).map f).head?, c.1 = L.start := by
  intro c hc
  obtain ⟨m,hm⟩ : ∃ m, P.m = m + 1 := ⟨P.m - 1,by have := P.m_pos; omega⟩
  rw [hm, List.range_succ_eq_map, List.map_cons, List.head?_cons, Option.mem_some_iff] at hc
  rw [← hc]
  exact h.first

theorem Parts.isChain : ((List.range P.m).map f).IsChain fun c d => d.1 = c.2 := by
  rw [List.isChain_iff_getElem]
  intro i hi
  rw [List.length_map, List.length_range] at hi
  simp only [List.getElem_map, List.getElem_range]
  exact h.next i hi

theorem Parts.nonempty {i : ℕ} (hi : i < P.m) : (iters L.incr (f i).1 (f i).2).Nonempty :=
  ⟨_,(h.mem i hi _).mpr ⟨P.cut i,le_rfl,P.cut_strictMono (Nat.lt_succ_self i),rfl⟩⟩

theorem Parts.once {x : ℤ} (hx : x ∈ iters L.incr L.start L.stop) :
    ∃! i : ℕ, ∃ c, ((List.range P.m).map f)[i]? = some c ∧ x ∈ iters L.incr c.1 c.2 := by
  obtain ⟨y,hy,hyn,rfl⟩ := mem_space.mp hx
  obtain ⟨i,⟨hi,hlow,hhigh⟩,huniq⟩ := existsUnique_between P.cut_strictMono.monotone (m := P.m) (y := y)
    (by rw [cut_zero]; exact hy) (by rw [cut_m]; exact hyn)
  refine ⟨i,⟨f i,?_,(h.mem i hi _).mpr ⟨y,hlow,hhigh,rfl⟩⟩,?_⟩
  · rw [List.getElem?_map, List.getElem?_range hi]
    rfl
  · rintro j ⟨c,hc,hmem⟩
    have hj : j < P.m := by
      have := (List.getElem?_eq_some_iff.mp hc).1
      simpa using this
    rw [List.getElem?_map, List.getElem?_range hj] at hc
    obtain rfl := Option.some.inj hc
    obtain ⟨z,hz,hz',hval⟩ := (h.mem j hj _).mp hmem
    obtain rfl := value_inj hval
    exact huniq j ⟨hj,hz,hz'⟩

theorem Parts.inside {i : ℕ} (hi : i < P.m) : iters L.incr (f i).1 (f i).2 ⊆ iters L.incr L.start L.stop := by
  intro x hx
  obtain ⟨y,hy,hy',rfl⟩ := (h.mem i hi x).mp hx
  have h0 := P.cut_strictMono.monotone (Nat.zero_le i)
  have hm := P.cut_strictMono.monotone (show i + 1 ≤ P.m from hi)
  rw [cut_zero] at h0
  rw [cut_m] at hm
  exact mem_space.mpr ⟨y,by omega,by omega,rfl⟩

/-- The number of iterations of a part. -/
theorem Parts.size_eq {i : ℕ} (hi : i < P.m) : (L.size (f i) : ℤ) = P.width i := by
  have himage : iters L.incr (f i).1 (f i).2 = L.value '' Set.Ico (P.cut i) (P.cut (i + 1)) := by
    ext x
    rw [h.mem i hi x]
    constructor
    · rintro ⟨y,hy,hy',rfl⟩
      exact ⟨y,⟨hy,hy'⟩,rfl⟩
    · rintro ⟨y,⟨hy,hy'⟩,rfl⟩
      exact ⟨y,hy,hy',rfl⟩
  have hw := P.width_pos i
  have hcut := P.cut_succ i
  rw [size, himage, Set.ncard_image_of_injective _ fun _ _ => value_inj, ← Finset.coe_Ico, Set.ncard_coe_finset,
    Int.card_Ico]
  omega

end Parts

end Plan

/-! ## The three kinds of division -/

/-- The words of a division by `b`, with `r` left over. -/
theorem Plan.made (P : Plan L) : P.Made (if (P.r : ℤ) ≠ 0 then
    ⟨P.m,word L.type (word L.type (word L.type P.b * L.step) + L.step),ull (P.r - 1)⟩
    else ⟨P.m,word L.type (word L.type P.b * L.step),L.n⟩) := by
  have hn := L.n_lt
  have hb := P.b_pos
  have hr := P.r_lt
  have htotal := P.total
  have hmul : (P.m : ℤ) * 1 ≤ P.m * P.b := Int.mul_le_mul_of_nonneg_left hb (by omega)
  have hprod : word L.type (word L.type P.b * L.step) = word L.type (P.b * L.incr) := word_word_mul_word _ _ _
  have hsum : word L.type (word L.type (P.b * L.incr) + L.step) = word L.type ((P.b + 1) * L.incr) := by
    rw [step, word_word_add_word, add_mul, one_mul]
  rw [hprod, hsum]
  split
  case isTrue hne =>
    refine ⟨rfl,?_,fun i hi => ?_⟩
    · rw [Plan.width, if_pos (by omega)]
    · rw [ull_eq (x := (P.r : ℤ) - 1) (by omega) (by omega)]
      dsimp only
      omega
  case isFalse heq =>
    refine ⟨rfl,?_,fun i hi => ?_⟩
    · rw [Plan.width, if_neg (by omega)]
    · dsimp only
      omega

/-- Tasks of nearly one size. -/
theorem evenly_made {q : ℤ} (hq : 1 ≤ q) (hqn : q ≤ L.n) :
    ∃ P : Plan L, P.Made (evenly L.type L.n L.step q) ∧ P.m = q ∧ P.b = L.n / q ∧ P.r = L.n % q := by
  have hmod0 := Int.emod_nonneg L.n (show q ≠ 0 by omega)
  have hmod := Int.emod_lt_of_pos L.n (show 0 < q by omega)
  have hb : 1 ≤ L.n / q := (Int.le_ediv_iff_mul_le (by omega)).mpr (by omega)
  have hm : (q.toNat : ℤ) = q := Int.toNat_of_nonneg (by omega)
  have hr : ((L.n % q).toNat : ℤ) = L.n % q := Int.toNat_of_nonneg hmod0
  let P : Plan L := ⟨q.toNat,L.n / q,(L.n % q).toNat,by omega,hb,by omega,by
    rw [hm, hr]
    exact Int.mul_ediv_add_emod _ _⟩
  refine ⟨P,?_,hm,rfl,hr⟩
  have h := P.made
  simp only [P, hm, hr] at h
  exact h

/-- One task for each iteration. -/
theorem single_made : ∃ P : Plan L, P.Made ⟨L.n,L.step,L.n⟩ ∧ P.m = L.n ∧ P.b = 1 ∧ P.r = 0 := by
  have hpos := L.n_pos
  have hm : (L.n.toNat : ℤ) = L.n := Int.toNat_of_nonneg hpos.le
  let P : Plan L := ⟨L.n.toNat,1,0,by omega,one_pos,by omega,by
    rw [hm]
    simp⟩
  refine ⟨P,?_,hm,rfl,rfl⟩
  have h := P.made
  have hstep : word L.type (word L.type 1 * L.step) = L.step := by
    rw [step, word_word_mul_word, one_mul]
  simp only [P, hm, Nat.cast_zero, ne_eq, not_true_eq_false, if_false, hstep] at h
  exact h

/-- Tasks of the grain size, the first ones with one iteration of the rest each. -/
theorem grains_made {g : ℤ} (hg : 1 ≤ g) (hq : g ≤ L.n / g) :
    ∃ P : Plan L, P.Made (if ull (L.n / g * g) ≠ L.n then
      ⟨L.n / g,word L.type (word L.type (word L.type g * L.step) + L.step),ull (L.n - ull (L.n / g * g) - 1)⟩
      else ⟨L.n / g,word L.type (word L.type g * L.step),L.n⟩) ∧ P.m = L.n / g ∧ P.b = g ∧ P.r = L.n % g := by
  have hn := L.n_lt
  have hmod0 := Int.emod_nonneg L.n (show g ≠ 0 by omega)
  have hmod := Int.emod_lt_of_pos L.n (show 0 < g by omega)
  have hdiv := Int.ediv_mul_add_emod L.n g
  have hmul0 : 0 ≤ L.n / g * g := Int.mul_nonneg (by omega) (by omega)
  have hmul : ull (L.n / g * g) = L.n / g * g := ull_eq hmul0 (by omega)
  have hm : ((L.n / g).toNat : ℤ) = L.n / g := Int.toNat_of_nonneg (by omega)
  have hr : ((L.n % g).toNat : ℤ) = L.n % g := Int.toNat_of_nonneg hmod0
  let P : Plan L := ⟨(L.n / g).toNat,g,(L.n % g).toNat,by omega,hg,by omega,by
    rw [hm, hr]
    exact hdiv⟩
  refine ⟨P,?_,hm,rfl,hr⟩
  have h := P.made
  simp only [P, hm, hr] at h
  have hrest : L.n - L.n / g * g = L.n % g := by omega
  have hne : L.n / g * g ≠ L.n ↔ L.n % g ≠ 0 := by omega
  rw [hmul, hrest]
  simp only [hne]
  exact h

/-- A single task takes everything as it was given. -/
theorem whole_subranges (nfirst : ℤ) (branch : Branch) :
    subranges L.type L.step ⟨1,word L.type (L.stop - L.start),nfirst⟩ L.start branch = [(L.start,L.stop)] := by
  have hsum : word L.type (L.start + word L.type (L.stop - L.start)) = L.stop := by
    rw [word_add_word, add_sub_cancel, word_eq L.stop_mem]
  unfold subranges
  cases branch <;> simp [callFn, fill, hsum]

/-- The plan for it. -/
theorem whole_parts : ∃ P : Plan L, P.Parts (fun _ => (L.start,L.stop)) ∧ P.m = 1 ∧ P.b = L.n ∧ P.r = 0 := by
  refine ⟨⟨1,L.n,0,one_pos,L.n_pos,one_pos,by simp⟩,⟨rfl,fun i hi => absurd hi (by simp),fun i hi x => ?_⟩,rfl,rfl,rfl⟩
  obtain rfl : i = 0 := Nat.lt_one_iff.mp hi
  simp only [Plan.cut, Nat.cast_zero, zero_mul, zero_add, Nat.cast_one, one_mul, min_self, min_eq_right zero_le_one,
    add_zero]
  exact mem_space

/-! ## The sizes -/

/-- A plan and the parts that come of it in every branch. -/
structure Result (L : Args) (P : Plan L) (l : List (ℤ × ℤ)) : Prop where
  branches : ∀ branch, subranges L.type L.step (L.split L.n) L.start branch = l
  parts : ∃ f, P.Parts f ∧ l = (List.range P.m).map f

theorem Plan.Made.result {P : Plan L} (h : P.Made (L.split L.n)) :
    Result L P ((List.range P.m).map fun i => (L.value (P.cut i),L.value (P.cut (i + 1)))) :=
  ⟨h.subranges,_,P.parts_value,rfl⟩

/-- Every task of a plan has `b` iterations or one more, and none has more when nothing is left over. -/
theorem Result.size {P : Plan L} {l : List (ℤ × ℤ)} (h : Result L P l) :
    ∀ c ∈ l, P.b ≤ L.size c ∧ (L.size c : ℤ) ≤ P.b + min 1 (P.r : ℤ) := by
  obtain ⟨f,hf,rfl⟩ := h.parts
  intro c hc
  obtain ⟨i,hi,rfl⟩ := List.mem_map.mp hc
  rw [hf.size_eq (List.mem_range.mp hi), Plan.width]
  split <;> omega

theorem Result.length {P : Plan L} {l : List (ℤ × ℤ)} (h : Result L P l) : l.length = P.m := by
  obtain ⟨f,-,rfl⟩ := h.parts
  rw [List.length_map, List.length_range]

/-- With fewer grains than a grain has iterations, or with the sentinel for their number, a task is smaller than two
grains. -/
theorem few_grains {n g : ℤ} (hq : 1 < n / g) (hg : 1 ≤ g) (hfew : g ≤ n / g → n / g = ullMax) (hn : n < 2 ^ 64) :
    n / (n / g) + min 1 (n % (n / g)) < 2 * g := by
  have hmod := Int.emod_lt_of_pos n (show 0 < g by omega)
  have hmod0 := Int.emod_nonneg n (show g ≠ 0 by omega)
  have hdiv := Int.ediv_mul_add_emod n g
  have hrest := Int.emod_nonneg n (show n / g ≠ 0 by omega)
  have hsize := Int.ediv_mul_add_emod n (n / g)
  generalize n / g = q at *
  generalize n / q = b at *
  generalize n % q = r at *
  by_cases hle : g ≤ q
  · obtain rfl := hfew hle
    unfold ullMax at *
    omega
  · by_contra hlarge
    obtain hr | hr : r = 0 ∨ 1 ≤ r := by omega
    · have hb : 2 * g ≤ b := by omega
      nlinarith
    · have hb : 2 * g - 1 ≤ b := by omega
      nlinarith

/-- The grain size bounds the tasks. -/
theorem exists_result_grain (hgrain : L.grain = true) :
    ∃ P l, Result L P l ∧ min (L.numTasks : ℤ) L.n ≤ P.b ∧ P.b + min 1 (P.r : ℤ) < 2 * L.numTasks := by
  have hg := L.grain_pos hgrain
  have hn := L.n_lt
  have hpos := L.n_pos
  have hsplit : L.split L.n = byGrainsize L.type L.n L.start L.stop L.step L.numTasks := if_pos hgrain
  have hmod0 := Int.emod_nonneg L.n (show (L.numTasks : ℤ) ≠ 0 by omega)
  have hmod := Int.emod_lt_of_pos L.n (show (0 : ℤ) < L.numTasks by omega)
  have hdiv := Int.ediv_mul_add_emod L.n L.numTasks
  unfold byGrainsize at hsplit
  dsimp only at hsplit
  by_cases hone : L.n / L.numTasks ≤ 1
  · rw [if_pos hone] at hsplit
    obtain ⟨P,hparts,hm,hb,hr⟩ := L.whole_parts
    have hmul : L.n / L.numTasks * L.numTasks ≤ 1 * L.numTasks := Int.mul_le_mul_of_nonneg_right hone (by omega)
    refine ⟨P,[(L.start,L.stop)],⟨fun branch => ?_,_,hparts,by rw [hm]; rfl⟩,by omega,by omega⟩
    rw [hsplit, whole_subranges]
  · rw [if_neg hone] at hsplit
    by_cases hmany : (L.numTasks : ℤ) ≤ L.n / L.numTasks ∧ (L.type = .long ∨ L.n / L.numTasks ≠ ullMax)
    · rw [if_pos hmany] at hsplit
      obtain ⟨P,hmade,-,hb,hr⟩ := L.grains_made (g := L.numTasks) (by omega) hmany.1
      rw [← hsplit] at hmade
      refine ⟨P,_,hmade.result,by omega,?_⟩
      omega
    · rw [if_neg hmany] at hsplit
      obtain ⟨P,hmade,-,hb,hr⟩ := L.evenly_made (q := L.n / L.numTasks) (by omega)
        (Int.ediv_le_self _ hpos.le)
      rw [← hsplit] at hmade
      have hq : 1 < L.n / L.numTasks := not_le.mp hone
      refine ⟨P,_,hmade.result,?_,?_⟩
      · rw [hb]
        refine min_le_of_left_le ((Int.le_ediv_iff_mul_le (by omega)).mpr ?_)
        rw [mul_comm]
        omega
      · rw [hb, hr]
        exact few_grains hq (by omega) (fun hle => by
          have := hmany
          rw [not_and, not_or] at this
          exact not_ne_iff.mp (this hle).2) hn

theorem nthreads_pos : 0 < L.nthreads := by
  unfold nthreads
  cases hteam : L.team with
  | none => exact one_pos
  | some n => exact (L.team_pos n (by simp [hteam])).1

/-- Without it the number of tasks is the one asked for, unless there are fewer iterations. -/
theorem exists_result_tasks (hgrain : L.grain = false) : ∃ P l, Result L P l ∧
    (P.m : ℤ) = min (if L.numTasks = 0 then (L.nthreads : ℤ) else L.numTasks) L.n := by
  have hn := L.nthreads_pos
  have hsplit : L.split L.n = byTasks L.type L.n L.step L.numTasks L.nthreads := if_neg (by simp [hgrain])
  unfold byTasks at hsplit
  simp only [Nat.cast_eq_zero] at hsplit
  have hasked : 1 ≤ if L.numTasks = 0 then (L.nthreads : ℤ) else L.numTasks := by
    split <;> omega
  by_cases hall : L.n ≤ if L.numTasks = 0 then (L.nthreads : ℤ) else L.numTasks
  · rw [if_pos hall] at hsplit
    obtain ⟨P,hmade,hm,-,-⟩ := L.single_made
    rw [← hsplit] at hmade
    exact ⟨P,_,hmade.result,by rw [hm, min_eq_right hall]⟩
  · rw [if_neg hall] at hsplit
    obtain ⟨P,hmade,hm,-,-⟩ := L.evenly_made hasked (by omega)
    rw [← hsplit] at hmade
    exact ⟨P,_,hmade.result,by rw [hm, min_eq_left (by omega)]⟩

/-- What a plan comes to, but for the sizes. -/
theorem Result.splits {P : Plan L} {l : List (ℤ × ℤ)} (h : Result L P l)
    (hgrain : L.grain = true → min (L.numTasks : ℤ) L.n ≤ P.b ∧ P.b + min 1 (P.r : ℤ) < 2 * L.numTasks)
    (htasks : L.grain = false → (P.m : ℤ) = min (if L.numTasks = 0 then (L.nthreads : ℤ) else L.numTasks) L.n) :
    L.Splits l := by
  have hsize := h.size
  have hlen := h.length
  obtain ⟨f,hf,rfl⟩ := h.parts
  constructor
  case first => exact hf.first_eq
  case chain => exact hf.isChain
  case nonempty =>
    intro c hc
    obtain ⟨i,hi,rfl⟩ := List.mem_map.mp hc
    exact hf.nonempty (List.mem_range.mp hi)
  case once => exact fun x hx => hf.once hx
  case inside =>
    intro c hc
    obtain ⟨i,hi,rfl⟩ := List.mem_map.mp hc
    exact hf.inside (List.mem_range.mp hi)
  case grain =>
    intro hg c hc
    obtain ⟨hlow,hhigh⟩ := hgrain hg
    obtain ⟨h1,h2⟩ := hsize c hc
    exact ⟨hlow.trans h1,by omega⟩
  case tasks =>
    intro hg
    refine ⟨by rw [hlen]; exact htasks hg,fun c hc d hd => ?_⟩
    have h1 := (hsize c hc).2
    have h2 := (hsize d hd).1
    omega

theorem exists_result (L : Args) : ∃ P l, Result L P l ∧ L.Splits l := by
  cases hgrain : L.grain with
  | true =>
    obtain ⟨P,l,h,hsize⟩ := exists_result_grain hgrain
    exact ⟨P,l,h,h.splits (fun _ => hsize) (by simp [hgrain])⟩
  | false =>
    obtain ⟨P,l,h,hm⟩ := exists_result_tasks hgrain
    exact ⟨P,l,h,h.splits (by simp [hgrain]) fun _ => hm⟩

/-- Every call that is not cancelled hands its tasks the same parts, whichever of the three loops it takes, and the
parts divide the iterations as asked. -/
theorem gomp_taskloop_splits (L : Args) :
    ∃ l, L.Splits l ∧ ∀ c, L.gompTaskloop c = if L.cancelled c then none else some l := by
  obtain ⟨P,l,h,hsplits⟩ := L.exists_result
  refine ⟨l,hsplits,fun c => ?_⟩
  unfold gompTaskloop cancelled
  rw [count_eq]
  simp only [Option.bind_some, h.branches]
  cases L.team.isSome && c.barrierCancelled <;> cases c.nogroup && c.taskgroupCancelled <;>
    cases L.undeferred c (L.split L.n) <;> cases c.cancelledLater <;> cases c.cpyfn <;> rfl

/-- Iterations 0, 3, 6 and 9 in grains of two, for a team of four. -/
def fourByThrees : Args where
  type := .long
  start := 0
  stop := 11
  incr := 3
  incr_ne := by decide
  start_mem := IterType.zero_mem .long
  stop_mem := by decide
  nonempty := by simp [before]
  count_rep := by decide
  div_rep := by decide
  grain := true
  numTasks := 2
  team := some 4
  end_mem := by decide
  numTasks_lt := by decide
  grain_pos := by decide
  team_pos := by decide

/-- The tasks are run later. -/
def deferredCall : Call := ⟨true,false,false,false,0,false,false,false⟩

theorem gomp_taskloop_splits_fourByThrees :
    fourByThrees.gompTaskloop deferredCall = some [(0,6),(6,12)] ∧ fourByThrees.Splits [(0,6),(6,12)] := by
  obtain ⟨l,hsplits,hcall⟩ := gomp_taskloop_splits fourByThrees
  have hparts : fourByThrees.gompTaskloop deferredCall = some [(0,6),(6,12)] := by decide
  have hl : fourByThrees.gompTaskloop deferredCall = some l := hcall deferredCall
  rw [hparts, Option.some.injEq] at hl
  exact ⟨hparts,hl ▸ hsplits⟩

example : subranges .long (-2) (byGrainsize .long 10 20 0 (-2) 3) 20 .inPlace = [(20,12),(12,6),(6,0)] := by decide

end Args

end GompUlt.Taskloop
