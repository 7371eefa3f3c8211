import Mathlib
import GompUlt.Loop.IterLength

/-! # The stored chunk of a dynamic loop

The initialisation multiplies the chunk size by the step in the loop's type and does not look at what is lost.
The product still serves when its word is one of a smaller number of whole steps; the loop is then the one for
that number.
-/
namespace GompUlt.Iter
open Run

/-- The arguments of a dynamic loop.  `incr` is the step with its sign; an `unsigned long long` loop is given
its word. -/
structure DynamicArgs where
  type : IterType
  locked : Bool
  nthreads : ℕ
  start : ℤ
  stop : ℤ
  incr : ℤ
  chunkSize : ℤ
  nthreads_pos : 0 < nthreads
  nthreads_lt : nthreads < 2 ^ 32
  incr_ne : incr ≠ 0
  incr_le : |incr| ≤ ullMax
  incr_long : type = .long → -2 ^ 63 ≤ incr ∧ incr ≤ longMax
  chunk_mem : 1 ≤ chunkSize ∧ chunkSize ≤ type.max
  start_mem : type.min ≤ start ∧ start ≤ type.max
  stop_mem : type.min ≤ stop ∧ stop ≤ type.max

namespace DynamicArgs
variable (B : DynamicArgs)

/-- The work share after its initialisation. -/
def workShare : WorkShare :=
  match B.type with
  | .long => gompLoopInit B.nthreads B.start B.stop B.incr .dynamic B.chunkSize
  | .ull => gompLoopUllInit B.nthreads (decide (0 < B.incr)) B.start B.stop (ull B.incr) .dynamic B.chunkSize

theorem unit_incr_ne : (1 : ℤ) ≠ 0 := one_ne_zero

theorem unit_chunk_pos : (1 : ℤ) ≤ 1 := le_rfl

theorem no_iterations_mem (t : IterType) : t.min ≤ 0 ∧ 0 ≤ t.max := by cases t <;> decide

theorem no_iterations_rep : -2 ^ 63 ≤ (0 : ℤ) - 0 ∧ (0 : ℤ) - 0 ≤ longMax := by decide

/-- The operations ask for the type, the version and the size of the team; the other arguments are those of a
loop without iterations. -/
def team : Args where
  type := B.type
  sched := .dynamic
  locked := B.locked
  nthreads := B.nthreads
  start := 0
  stop := 0
  incr := 1
  chunkSize := 1
  nthreads_pos := B.nthreads_pos
  nthreads_lt := B.nthreads_lt
  incr_ne := unit_incr_ne
  chunk_pos := unit_chunk_pos
  start_mem := no_iterations_mem B.type
  stop_mem := no_iterations_mem B.type
  chunk_rep := by cases B.type <;> decide
  diff_rep _ := no_iterations_rep

def init : State := ⟨B.workShare,fun _ => .ready,[],0⟩

/-- What the product of the chunk size and the length of a step leaves in a word. -/
def product : ℤ := ull (B.chunkSize * |B.incr|)

/-- The product is still that of the step and a positive number. -/
def Exact : Prop :=
  B.product ≠ 0 ∧ |B.incr| ∣ B.product ∧ (B.type = .long → B.product ≤ if 0 < B.incr then longMax else 2 ^ 63)

/-- The stored chunk is `k` steps in the direction of the loop, and where the fast path is chosen, one more
fetch-and-add than there are threads finds room behind every value up to the end. -/
structure Stored (k : ℤ) : Prop where
  pos : 1 ≤ k
  rep : |k * B.incr| ≤ ullMax ∧ (B.type = .long → -2 ^ 63 ≤ k * B.incr ∧ k * B.incr ≤ longMax)
  stored : B.workShare.chunkSize = match B.type with
    | .long => k * B.incr
    | .ull => ull (k * B.incr)
  noWrap : B.team.usesFetch B.workShare = true → ∀ x, B.type.min ≤ x → x ≤ B.type.max →
    ¬before B.incr B.workShare.stop x → ∀ j : ℕ, j ≤ B.nthreads + 1 →
      B.type.min ≤ x + j * (k * B.incr) ∧ x + j * (k * B.incr) ≤ B.type.max

/-- No call faults, a call that returns a range returns one with an iteration in it, and a call that returns
none does so when all the iterations have been given out. -/
structure Deals (s : State) : Prop where
  returns : ∀ t, s.pc t ≠ .faulted
  nonempty : ∀ c ∈ s.chunks, c.1 ∈ iters B.incr c.1 c.2
  complete : ∀ t, s.pc t = .done → iters B.incr B.start B.stop ⊆ ⋃ c ∈ {c | c ∈ s.chunks}, iters B.incr c.1 c.2

variable {B} {k : ℤ}

/-! ## The number of steps in the stored chunk -/

/-- The word of the product is that of `k` steps. -/
structure Serves (B : DynamicArgs) (k : ℤ) : Prop where
  pos : 1 ≤ k
  word : ull (B.chunkSize * B.incr) = ull (k * B.incr)
  le : k * |B.incr| ≤ ullMax
  long : B.type = .long → k * |B.incr| ≤ if 0 < B.incr then longMax else 2 ^ 63

theorem up_or_down (B : DynamicArgs) : (0 < B.incr ∧ |B.incr| = B.incr) ∨ (B.incr < 0 ∧ |B.incr| = -B.incr) := by
  obtain h | h := lt_or_gt_of_ne B.incr_ne
  · exact Or.inr ⟨h,abs_of_neg h⟩
  · exact Or.inl ⟨h,abs_of_pos h⟩

theorem ull_neg_congr {x y : ℤ} (h : ull x = ull y) : ull (-x) = ull (-y) := by
  unfold ull at h ⊢
  omega

/-- Words agree upwards when they agree downwards. -/
theorem ull_abs_iff {x y : ℤ} : ull (x * |B.incr|) = ull (y * |B.incr|) ↔ ull (x * B.incr) = ull (y * B.incr) := by
  obtain ⟨-,hd⟩ | ⟨-,hd⟩ := B.up_or_down
  · rw [hd]
  · rw [hd, mul_neg, mul_neg]
    constructor
    · intro h
      simpa only [neg_neg] using ull_neg_congr h
    · exact ull_neg_congr

theorem Exact.serves (h : B.Exact) : ∃ k, B.Serves k := by
  obtain ⟨hne,⟨k,hk⟩,hlong⟩ := h
  have hD : 0 < |B.incr| := abs_pos.mpr B.incr_ne
  have hword : 0 ≤ B.product ∧ B.product < 2 ^ 64 := by
    unfold product ull
    omega
  rw [mul_comm] at hk
  have hpos : 0 < k := by
    by_contra hle
    have := Int.mul_nonpos_of_nonpos_of_nonneg (not_lt.mp hle) hD.le
    omega
  refine ⟨k,hpos,ull_abs_iff.mp ?_,?_,fun hT => ?_⟩
  · rw [← hk, product]
    unfold ull
    exact (Int.emod_emod _ _).symm
  · unfold ullMax
    omega
  · rw [← hk]
    exact hlong hT

theorem Serves.exact (h : B.Serves k) : B.Exact := by
  have hD : 0 < |B.incr| := abs_pos.mpr B.incr_ne
  have hle := h.le
  have hpos : 0 < k * |B.incr| := Int.mul_pos h.pos hD
  have hprod : B.product = k * |B.incr| := by
    rw [product, ull_abs_iff.mpr h.word]
    unfold ullMax at hle
    exact ull_eq hpos.le (by omega)
  unfold Exact
  rw [hprod]
  exact ⟨hpos.ne',Dvd.intro_left _ rfl,h.long⟩

theorem ull_long (x : ℤ) : ull (long x) = ull x := Int.bmod_emod

theorem Serves.mul_bounds (h : B.Serves k) : |k * B.incr| = k * |B.incr| ∧
    (B.type = .long → -2 ^ 63 ≤ k * B.incr ∧ k * B.incr ≤ longMax) := by
  have hpos := h.pos
  have hlong := h.long
  refine ⟨by rw [abs_mul, abs_of_pos (by omega)],fun hT => ?_⟩
  have hle := hlong hT
  unfold longMax at hle ⊢
  obtain ⟨hi,hd⟩ | ⟨hi,hd⟩ := B.up_or_down
  · have := Int.mul_pos (show 0 < k by omega) hi
    rw [hd, if_pos hi] at hle
    omega
  · have := Int.mul_neg_of_pos_of_neg (show 0 < k by omega) hi
    rw [hd, if_neg (by omega), mul_neg] at hle
    omega

theorem Stored.serves (h : B.Stored k) : B.Serves k := by
  obtain ⟨hpos,⟨hle,hlong⟩,hstored,-⟩ := h
  have habs : |k * B.incr| = k * |B.incr| := by rw [abs_mul, abs_of_pos (by omega)]
  refine ⟨hpos,?_,habs ▸ hle,fun hT => ?_⟩
  · unfold workShare gompLoopInit gompLoopUllInit at hstored
    cases hT : B.type with
    | long =>
      simp only [hT] at hstored
      rw [← hstored, ull_long]
    | ull =>
      simp only [hT] at hstored
      rw [← hstored, ull_mul_ull]
  · have hb := hlong hT
    rw [← habs]
    obtain ⟨hi,-⟩ | ⟨hi,-⟩ := B.up_or_down
    · have := Int.mul_pos (show 0 < k by omega) hi
      rw [if_pos hi, abs_of_pos this]
      exact hb.2
    · have := Int.mul_neg_of_pos_of_neg (show 0 < k by omega) hi
      rw [if_neg (by omega), abs_of_neg this]
      omega

theorem Serves.long_word (h : B.Serves k) : Iter.long (B.chunkSize * B.incr) = Iter.long (k * B.incr) := by
  rw [← long_ull, h.word, long_ull]

theorem Serves.chunkSize (h : B.Serves k) : B.workShare.chunkSize = match B.type with
    | .long => k * B.incr
    | .ull => ull (k * B.incr) := by
  unfold workShare gompLoopInit gompLoopUllInit
  cases hT : B.type with
  | long =>
    dsimp only
    obtain ⟨hlow,hhigh⟩ := h.mul_bounds.2 hT
    unfold longMax at hhigh
    rw [h.long_word]
    exact long_eq hlow (by omega)
  | ull =>
    dsimp only
    rw [ull_mul_ull, h.word]

/-! ## The loop for that number -/

variable (B) in
/-- The end of the loop, moved to the start when there are no iterations. -/
def bound : ℤ := if (0 < B.incr ∧ B.stop < B.start) ∨ (B.incr < 0 ∧ B.start < B.stop) then B.start else B.stop

theorem workShare_stop : B.workShare.stop = B.bound := by
  have hne := B.incr_ne
  unfold workShare gompLoopInit gompLoopUllInit bound
  cases B.type with
  | long => rfl
  | ull =>
    simp only [decide_eq_true_eq]
    split <;> split <;> first | rfl | omega

theorem workShare_next : B.workShare.next = B.start := by
  unfold workShare gompLoopInit gompLoopUllInit
  cases B.type <;> rfl

theorem workShare_incr : B.workShare.incr = match B.type with
    | .long => B.incr
    | .ull => ull B.incr := by
  unfold workShare gompLoopInit gompLoopUllInit
  cases B.type <;> rfl

theorem bound_mem : B.type.min ≤ B.bound ∧ B.bound ≤ B.type.max := by
  unfold bound
  split
  · exact B.start_mem
  · exact B.stop_mem

/-- Which side the end lies on. -/
theorem bound_side : (0 < B.incr ∧ B.start ≤ B.bound) ∨ (B.incr < 0 ∧ B.bound ≤ B.start) := by
  unfold bound
  obtain ⟨hi,-⟩ | ⟨hi,-⟩ := B.up_or_down
  · left
    split <;> omega
  · right
    split <;> omega

theorem iters_empty {b : ℤ} (hb : (0 < B.incr ∧ b ≤ B.start) ∨ (B.incr < 0 ∧ B.start ≤ b)) :
    iters B.incr B.start b = ∅ := by
  rw [Set.eq_empty_iff_forall_notMem]
  rintro x ⟨j,rfl,hj⟩
  unfold before at hj
  obtain ⟨hi,hb⟩ | ⟨hi,hb⟩ := hb
  · have := Int.mul_nonneg (Int.natCast_nonneg j) hi.le
    rw [if_pos hi] at hj
    omega
  · have := Int.mul_nonpos_of_nonneg_of_nonpos (Int.natCast_nonneg j) hi.le
    rw [if_neg (by omega)] at hj
    omega

/-- Moving the end takes no iteration away. -/
theorem iters_bound : iters B.incr B.start B.stop = iters B.incr B.start B.bound := by
  unfold bound
  split
  case isFalse => rfl
  case isTrue hempty => rw [iters_empty (b := B.stop) (by omega), iters_empty (b := B.start) (by omega)]

/-- A loop of the same team from `x` to the end, in chunks of `k` steps. -/
structure Counterpart (B : DynamicArgs) (k x : ℤ) (A : Args) : Prop where
  type : A.type = B.type
  sched : A.sched = .dynamic
  locked : A.locked = B.locked
  nthreads : A.nthreads = B.nthreads
  start : A.start = x
  stop : A.stop = B.bound
  incr : A.incr = B.incr
  chunkSize : A.chunkSize = k

theorem Serves.exists_counterpart (h : B.Serves k) (hk : k * |B.incr| ≤ B.type.max) {x : ℤ}
    (hx : B.type.min ≤ x ∧ x ≤ B.type.max)
    (hdiff : B.type = .long → -2 ^ 63 ≤ B.bound - x ∧ B.bound - x ≤ longMax) : ∃ A, B.Counterpart k x A := by
  refine ⟨⟨B.type,.dynamic,B.locked,B.nthreads,x,B.bound,B.incr,k,B.nthreads_pos,B.nthreads_lt,B.incr_ne,h.pos,hx,B.bound_mem,
    hk,hdiff⟩,?_⟩
  constructor <;> rfl

variable {A : Args} {x : ℤ}

/-- The team takes the same steps. -/
theorem Counterpart.step_eq (h : B.Counterpart k x A) : step A = step B.team := by
  obtain ⟨hT,hsched,hlocked,hn,-,-,-,-⟩ := h
  have hT' : A.type = B.team.type := hT
  have hs' : A.sched = B.team.sched := hsched
  have hl' : A.locked = B.team.locked := hlocked
  have hn' : A.nthreads = B.team.nthreads := hn
  funext s e
  unfold step call again Args.nextLocked Args.usesFetch Args.fetch Args.pass
  rw [hT', hs', hl', hn']

/-- It starts from the same work share. -/
theorem Counterpart.workShare_eq (hA : B.Counterpart k x A) (h : B.Serves k) (hx : x = B.start ∨ x = B.bound) :
    A.workShare = ⟨B.workShare.chunkSize,B.bound,B.workShare.incr,x,B.workShare.mode⟩ := by
  obtain ⟨hT,hsched,-,hn,hstart,hstop,hincr,hchunk⟩ := hA
  have hne := B.incr_ne
  have hside := B.bound_side
  have hcond : ¬((0 < B.incr ∧ B.bound < x) ∨ (B.incr < 0 ∧ x < B.bound)) := by
    omega
  have hcond' : ¬((0 < B.incr ∧ B.bound < x) ∨ (¬0 < B.incr ∧ x < B.bound)) := by
    omega
  have hbound : (if (0 < B.incr ∧ B.stop < B.start) ∨ (B.incr < 0 ∧ B.start < B.stop) then B.start else B.stop) =
    B.bound := rfl
  have hbound' : (if (0 < B.incr ∧ B.stop < B.start) ∨ (¬0 < B.incr ∧ B.start < B.stop) then B.start else B.stop) =
      B.bound := by
    rw [← hbound]
    split <;> split <;> first | rfl | omega
  unfold Args.workShare workShare
  rw [hT, hsched, hn, hstart, hstop, hincr, hchunk]
  cases B.type with
  | long => simp only [gompLoopInit, if_neg hcond, h.long_word, hbound]
  | ull => simp only [gompLoopUllInit, decide_eq_true_eq, if_neg hcond', ull_mul_ull, h.word, hbound']

theorem Counterpart.usesFetch_eq (hA : B.Counterpart k x A) (h : B.Serves k) (hx : x = B.start ∨ x = B.bound) :
    A.usesFetch A.workShare = B.team.usesFetch B.workShare := by
  rw [hA.workShare_eq h hx]
  unfold Args.usesFetch
  rw [hA.type, hA.sched]
  rfl

/-! ## The fast path -/

/-- The least `long`, which is its own complement, is too wide for the fast path. -/
theorem tooWide_least (n : ℤ) : tooWide n (Iter.long (- -2 ^ 63)) = true := by
  have hle : (ull (Iter.long (- -2 ^ 63))).toNat ≤ (ull n).toNat ||| (ull (Iter.long (- -2 ^ 63))).toNat := Nat.right_le_or
  have hval : (ull (Iter.long (- -2 ^ 63))).toNat = 2 ^ 63 := by decide
  simp only [tooWide, decide_eq_true_eq]
  omega

/-- The largest product downwards is too wide for the fast path. -/
theorem Serves.not_usesFetch (h : B.Serves k) (hk : B.type.max < k * |B.incr|) : B.team.usesFetch B.workShare = false := by
  have hle := h.le
  have hlong := h.long
  unfold Args.usesFetch
  cases hT : B.type with
  | ull =>
    simp only [hT, IterType.max] at hk
    omega
  | long =>
    have hle' := hlong hT
    have hchunk := h.chunkSize
    simp only [hT, IterType.max, longMax] at hk hle'
    obtain ⟨hi,hd⟩ | ⟨hi,hd⟩ := B.up_or_down
    · rw [if_pos hi] at hle'
      omega
    · rw [if_neg (by omega)] at hle'
      rw [hd, mul_neg] at hk hle'
      have hlimit : Iter.long (B.chunkSize * B.incr) = -2 ^ 63 := by
        rw [h.long_word]
        exact (long_eq (by omega) (by omega)).trans (by omega)
      simp only [team, hT, workShare, gompLoopInit, hlimit, if_neg (not_lt.mpr hi.le), tooWide_least, if_true]
      rfl

/-- The fast path is chosen only where it has room. -/
theorem Serves.noWrap (h : B.Serves k) (hfast : B.team.usesFetch B.workShare = true) {x : ℤ}
    (hx : B.type.min ≤ x ∧ x ≤ B.type.max) (hbefore : ¬before B.incr B.workShare.stop x) {j : ℕ} (hj : j ≤ B.nthreads + 1) :
    B.type.min ≤ x + j * (k * B.incr) ∧ x + j * (k * B.incr) ≤ B.type.max := by
  have hk : k * |B.incr| ≤ B.type.max := by
    by_contra hlt
    rw [h.not_usesFetch (not_le.mp hlt)] at hfast
    contradiction
  obtain ⟨A,hA⟩ := h.exists_counterpart hk B.bound_mem (fun _ => by unfold longMax; omega)
  have huse := (hA.usesFetch_eq h (Or.inr rfl)).trans hfast
  have hmargin : Margin A := by
    unfold Args.usesFetch at huse
    cases hT : A.type with
    | long => exact long_margin hT hA.sched (by simpa [hT, hA.sched] using huse)
    | ull => exact ull_margin hT hA.sched (by simpa [hT, hA.sched] using huse)
  have hstop : A.val A.N = B.bound := by
    rw [← (workShare_shape (A := A)).stop, hA.workShare_eq h (Or.inr rfl)]
  have hC : A.C = k * |B.incr| := by
    unfold Args.C Args.D
    rw [hA.chunkSize, hA.incr]
  have hpos : 0 < k * |B.incr| := Int.mul_pos h.pos (abs_pos.mpr B.incr_ne)
  have hmul : (j : ℤ) * (k * |B.incr|) ≤ (B.nthreads + 1) * (k * |B.incr|) :=
    Int.mul_le_mul_of_nonneg_right (by omega) hpos.le
  have hmul0 : 0 ≤ (j : ℤ) * (k * |B.incr|) := Int.mul_nonneg (by omega) hpos.le
  unfold Margin at hmargin
  rw [hstop, hC, hA.incr, hA.nthreads, hA.type] at hmargin
  rw [workShare_stop] at hbefore
  unfold before at hbefore
  obtain ⟨hi,hd⟩ | ⟨hi,hd⟩ := B.up_or_down
  · rw [if_pos hi] at hmargin hbefore
    rw [hd] at hmargin hmul hmul0
    omega
  · rw [if_neg (by omega)] at hmargin hbefore
    rw [hd] at hmargin hmul hmul0
    simp only [mul_neg] at hmargin hmul hmul0
    omega

theorem Serves.toStored (h : B.Serves k) : B.Stored k where
  pos := h.pos
  rep := by
    rw [h.mul_bounds.1]
    exact ⟨h.le,h.mul_bounds.2⟩
  stored := h.chunkSize
  noWrap hfast _ hmin hmax hbefore _ hj := h.noWrap hfast ⟨hmin,hmax⟩ hbefore hj

/-- Whatever has no wrap can be kept from the counterpart's runs. -/
theorem Counterpart.deals (hA : B.Counterpart k B.start A) (h : B.Serves k) {es : List Event} {s : State}
    (hr : run (step B.team) B.init es = some s) :
    B.Deals s ∧ es.length ≤ B.nthreads * (B.nthreads + 3) + A.N.toNat * chunkCost B.team := by
  have hinit : Iter.init A = B.init := by
    unfold Iter.init init
    rw [hA.workShare_eq h (Or.inl rfl), ← workShare_stop]
    congr 1
    rw [← workShare_next]
  rw [← hA.step_eq, ← hinit] at hr
  obtain ⟨l,p,hprog⟩ := run_progress (fun hov => by
    have := hov.2.1
    rw [hA.sched] at this
    contradiction) hr
  have hok := hprog.chunksOk
  have hlen := run_length_le (fun _ => rfl) rfl hr
  have hcost : chunkCost A = chunkCost B.team := by
    unfold chunkCost
    rw [hA.nthreads]
    rfl
  refine ⟨⟨hok.returns,?_,?_⟩,?_⟩
  · have hne := hok.nonempty
    rwa [hA.incr] at hne
  · have hall := hok.complete
    rw [hA.incr, hA.start, hA.stop, ← iters_bound] at hall
    exact hall
  · rw [hA.nthreads, hcost] at hlen
    exact hlen.trans (Nat.add_le_add_left (Nat.mul_le_mul_right _ hprog.length_le) _)

/-! ## A first chunk that reaches the end

Where the way to the end is no `long`, or the chunk is the least one, the cut takes everything at once. -/

variable (B) in
/-- Outside the fast path everything is taken at once. -/
structure Jumps : Prop where
  type : B.type = .long
  slow : B.locked = true ∨ B.team.usesFetch B.workShare = false
  clip : clip B.workShare B.workShare.chunkSize (Iter.long (B.bound - B.start)) = Iter.long (B.bound - B.start)

theorem Jumps.reaches (h : B.Jumps) : Iter.long (B.start + Iter.long (B.bound - B.start)) = B.bound := by
  have hmem := B.bound_mem
  simp only [h.type, IterType.min, IterType.max, longMax] at hmem
  have hsum : Iter.long (B.start + Iter.long (B.bound - B.start)) = Iter.long B.bound := by
    unfold Iter.long
    rw [Int.add_bmod_bmod, add_sub_cancel]
  rw [hsum]
  exact long_eq hmem.1 (by omega)

/-- A length that is no `long` changes its sign, and then no chunk is longer. -/
theorem Serves.jumps (h : B.Serves k) (hT : B.type = .long)
    (hslow : B.locked = true ∨ B.team.usesFetch B.workShare = false)
    (hfar : ¬(-2 ^ 63 ≤ B.bound - B.start ∧ B.bound - B.start ≤ longMax) ∨ B.type.max < k * |B.incr|) : B.Jumps := by
  refine ⟨hT,hslow,?_⟩
  have hstart := B.start_mem
  have hmem := B.bound_mem
  have hside := B.bound_side
  have hmul := h.mul_bounds.2 hT
  have hincr := workShare_incr (B := B)
  have hchunk := h.chunkSize
  have hpos := h.pos
  simp only [hT, IterType.min, IterType.max, longMax] at hstart hmem hmul hincr hchunk hfar
  have hleft : (-2 ^ 63 ≤ B.bound - B.start ∧ B.bound - B.start ≤ 2 ^ 63 - 1 ∧
      Iter.long (B.bound - B.start) = B.bound - B.start) ∨
      (2 ^ 63 - 1 < B.bound - B.start ∧ Iter.long (B.bound - B.start) = B.bound - B.start - 2 ^ 64) ∨
      (B.bound - B.start < -2 ^ 63 ∧ Iter.long (B.bound - B.start) = B.bound - B.start + 2 ^ 64) := by
    rw [Iter.long, Int.bmod_def]
    omega
  unfold Iter.clip
  rw [hincr, hchunk]
  obtain ⟨hi,hd⟩ | ⟨hi,hd⟩ := B.up_or_down
  · have := Int.mul_pos (show 0 < k by omega) hi
    rw [hd] at hfar
    rw [if_neg (by omega), if_pos (by omega)]
  · have := Int.mul_neg_of_pos_of_neg (show 0 < k by omega) hi
    rw [hd, mul_neg] at hfar
    rw [if_pos hi]
    split <;> omega

/-- Where a thread stands before and after the one chunk. -/
def JumpPc (B : DynamicArgs) (next : ℤ) : Pc → Prop
  | .ready => True
  | .loop start chunk => (start = B.start ∧ chunk = B.workShare.chunkSize) ∨ (start = B.bound ∧ next = B.bound)
  | .done => next = B.bound
  | .faulted => False

/-- Nothing has been given out, or everything. -/
structure Jumped (B : DynamicArgs) (s : State) : Prop where
  ws : s.ws = ⟨B.workShare.chunkSize,B.bound,B.workShare.incr,s.ws.next,B.workShare.mode⟩
  chunks : (s.chunks = [] ∧ s.ws.next = B.start) ∨
    (B.start ≠ B.bound ∧ s.chunks = [(B.start,B.bound)] ∧ s.ws.next = B.bound)
  pcs : ∀ t, JumpPc B s.ws.next (s.pc t)

variable {s s' : State} {t : ℕ}

theorem JumpPc.mono {pc : Pc} {next : ℤ} (h : JumpPc B next pc) : JumpPc B B.bound pc := by
  cases pc with
  | ready => trivial
  | loop start chunk => exact h.imp_right fun h => ⟨h.1,rfl⟩
  | done => rfl
  | faulted => exact h

theorem Jumped.setPc (h : B.Jumped s) {pc : Pc} (hpc : JumpPc B s.ws.next pc) : B.Jumped (s.setPc t pc) where
  ws := h.ws
  chunks := h.chunks
  pcs := by
    intro u
    by_cases hu : u = t
    · rw [hu]
      exact (congrArg (JumpPc B s.ws.next) (Function.update_self t pc s.pc)).mpr hpc
    · rw [setPc_pc hu]
      exact h.pcs u

/-- The one chunk is given out. -/
theorem Jumped.take (h : B.Jumped s) (hne : B.start ≠ B.bound) (hnext : s.ws.next = B.start) :
    B.Jumped (s.ret t { s.ws with next := B.bound } (some (B.start,B.bound))) where
  ws := by
    have hws := h.ws
    simp only [State.ret, State.setPc]
    rw [hws]
  chunks := by
    obtain ⟨hnil,-⟩ | ⟨-,-,hend⟩ := h.chunks
    · exact Or.inr ⟨hne,by simp [State.ret, State.setPc, hnil],rfl⟩
    · exact absurd (hnext.symm.trans hend) hne
  pcs := by
    intro u
    by_cases hu : u = t
    · rw [hu]
      exact (congrArg (JumpPc B B.bound) (Function.update_self t Pc.ready s.pc)).mpr (show B.JumpPc B.bound .ready from trivial)
    · rw [ret_pc hu]
      exact (h.pcs u).mono

theorem Jumped.next_eq (h : B.Jumped s) : s.ws.next = B.start ∨ s.ws.next = B.bound := by
  obtain ⟨-,h⟩ | ⟨-,-,h⟩ := h.chunks
  · exact Or.inl h
  · exact Or.inr h

theorem Jumped.call (hj : B.Jumps) (h : B.Jumped s) : B.Jumped (call B.team s t) := by
  have hT := hj.type
  have hnext := h.next_eq
  have hslow := hj.slow
  unfold Iter.call
  split
  case isTrue hlocked =>
    have hop : B.team.nextLocked s.ws = some (if s.ws.next = B.bound then (s.ws,none) else
        ({ s.ws with next := B.bound },some (B.start,B.bound))) := by
      have hstop : s.ws.stop = B.bound := congrArg WorkShare.stop h.ws
      have hclip : clip s.ws s.ws.chunkSize (Iter.long (B.bound - B.start)) = Iter.long (B.bound - B.start) := by
        rw [h.ws]
        exact hj.clip
      unfold Args.nextLocked gompIterDynamicNextLocked
      simp only [team, hT, hstop]
      by_cases hend : s.ws.next = B.bound
      · simp only [if_pos hend]
      · have hstart : s.ws.next = B.start := hnext.resolve_right hend
        simp only [if_neg hend]
        rw [hstart, hclip, hj.reaches]
    rw [hop]
    dsimp only
    split
    case isTrue hend => exact h.setPc hend
    case isFalse hend =>
      have hstart : s.ws.next = B.start := hnext.resolve_right hend
      exact h.take (hstart ▸ hend) hstart
  case isFalse hlocked =>
    have huse : B.team.usesFetch s.ws = false := by
      rw [h.ws]
      exact hslow.resolve_left hlocked
    rw [if_neg (by simp [huse])]
    refine h.setPc ?_
    obtain hnext | hnext := hnext
    · exact Or.inl ⟨hnext,by rw [h.ws]⟩
    · exact Or.inr ⟨hnext,hnext⟩

theorem Jumped.again (hj : B.Jumps) (h : B.Jumped s) {start chunk : ℤ} (hpc : s.pc t = .loop start chunk) :
    B.Jumped (again B.team s t start chunk) := by
  have hT := hj.type
  have hstop : s.ws.stop = B.bound := congrArg WorkShare.stop h.ws
  have hok := h.pcs t
  rw [hpc] at hok
  have hpass : ∀ start chunk, B.team.pass s.ws start chunk = some (dynamicPass s.ws start chunk) := by
    intro start chunk
    unfold Args.pass
    simp only [team, hT]
  unfold Iter.again
  rw [hpass, dynamicPass]
  by_cases hend : start = B.bound
  · have hnext : s.ws.next = B.bound := by
      obtain ⟨hs,-⟩ | ⟨-,hn⟩ := hok
      · obtain hn | hn := h.next_eq
        · rw [hn, ← hs, hend]
        · exact hn
      · exact hn
    simp only [hstop, if_pos hend]
    exact h.setPc hnext
  · obtain ⟨rfl,rfl⟩ : start = B.start ∧ chunk = B.workShare.chunkSize := hok.resolve_right fun hb => hend hb.1
    have hclip : clip s.ws B.workShare.chunkSize (Iter.long (B.bound - B.start)) = Iter.long (B.bound - B.start) := by
      rw [h.ws]
      exact hj.clip
    simp only [hstop, if_neg hend, hclip, hj.reaches]
    unfold casNext
    by_cases hsame : s.ws.next = B.start
    · simp only [if_pos hsame]
      exact h.take hend hsame
    · have hnext : s.ws.next = B.bound := h.next_eq.resolve_left hsame
      simp only [if_neg hsame]
      exact h.setPc (Or.inr ⟨hnext,hnext⟩)

theorem step_jumped (hj : B.Jumps) {e : Event} (h : B.Jumped s) (hs : step B.team s e = some s') : B.Jumped s' := by
  cases e with
  | call t =>
    simp only [step, Option.ite_none_right_eq_some, Option.some.injEq] at hs
    obtain ⟨-,rfl⟩ := hs
    exact h.call hj
  | again t =>
    simp only [step] at hs
    split at hs
    case h_1 start chunk hpc =>
      obtain rfl := Option.some.inj hs
      exact h.again hj hpc
    case h_2 => contradiction

theorem init_jumped (B : DynamicArgs) : B.Jumped B.init where
  ws := by
    have hstop := workShare_stop (B := B)
    rw [← hstop]
    rfl
  chunks := Or.inl ⟨rfl,workShare_next⟩
  pcs _ := trivial

theorem Jumped.deals (h : B.Jumped s) : B.Deals s where
  returns t hpc := by
    have hok := h.pcs t
    rw [hpc] at hok
    exact hok
  nonempty c hc := by
    obtain ⟨hnil,-⟩ | ⟨hne,hone,-⟩ := h.chunks
    · rw [hnil] at hc
      exact absurd hc List.not_mem_nil
    · rw [hone] at hc
      obtain rfl := List.mem_singleton.mp hc
      refine ⟨0,by simp,?_⟩
      unfold before
      have hside := B.bound_side
      dsimp only
      split <;> omega
  complete t hpc := by
    have hok := h.pcs t
    rw [hpc] at hok
    have hnext : s.ws.next = B.bound := hok
    rw [iters_bound]
    intro x hx
    obtain ⟨-,hn⟩ | ⟨-,hone,-⟩ := h.chunks
    · have hside := B.bound_side
      rw [iters_empty (b := B.bound) (by omega)] at hx
      exact absurd hx (Set.notMem_empty x)
    · rw [hone]
      exact Set.mem_biUnion (show (B.start,B.bound) ∈ [(B.start,B.bound)] from List.mem_singleton_self _) hx

/-- Such a loop is over after one chunk. -/
theorem Jumps.run_deals (hj : B.Jumps) {es : List Event} (hr : run (step B.team) B.init es = some s) :
    B.Deals s ∧ es.length ≤ B.nthreads * (B.nthreads + 3) + chunkCost B.team := by
  have h : B.Jumped s := run_invariant (fun _ _ _ h _ hs => step_jumped hj h hs) (init_jumped B) (along_true _ es) hr
  have hlen := run_length_le (fun _ => rfl) rfl hr
  have hone : s.chunks.length ≤ 1 := by
    obtain ⟨hnil,-⟩ | ⟨-,hone,-⟩ := h.chunks
    · simp [hnil]
    · simp [hone]
  refine ⟨h.deals,hlen.trans (Nat.add_le_add_left ?_ _)⟩
  exact (Nat.mul_le_mul_right _ hone).trans_eq (one_mul _)

/-! ## The fast path of a `long` loop

It does not look at the way to the end, so the loop may be longer than any `long`.  Raised by 2^63 its values are
those of an `unsigned long long` loop, which takes the same steps. -/

def raiseChunk (c : ℤ × ℤ) : ℤ × ℤ := (c.1 + 2 ^ 63,c.2 + 2 ^ 63)

def raiseWs (ws : WorkShare) : WorkShare :=
  ⟨ull ws.chunkSize,ws.stop + 2 ^ 63,ull ws.incr,ws.next + 2 ^ 63,ws.mode ||| if 0 < ws.incr then 0 else 2⟩

def raise (s : State) : State := ⟨raiseWs s.ws,s.pc,s.chunks.map raiseChunk,s.fetches⟩

theorem long_raise (x : ℤ) : Iter.long x + 2 ^ 63 = ull (x + 2 ^ 63) := by
  rw [Iter.long, Int.bmod_def]
  unfold ull
  omega

theorem mem_iters_raise {incr a b x : ℤ} : x + 2 ^ 63 ∈ iters incr (a + 2 ^ 63) (b + 2 ^ 63) ↔ x ∈ iters incr a b := by
  have hbefore : ∀ y, before incr (y + 2 ^ 63) (b + 2 ^ 63) ↔ before incr y b := by
    intro y
    unfold before
    split <;> omega
  constructor
  · rintro ⟨j,hx,hj⟩
    exact ⟨j,by omega,(hbefore x).mp hj⟩
  · rintro ⟨j,rfl,hj⟩
    exact ⟨j,by omega,(hbefore _).mpr hj⟩

theorem fetch_raise {ws : WorkShare} (hmode : ws.mode = 1) :
    ullDynamicFetch (raiseWs ws) = (raiseWs (dynamicFetch ws).1,(dynamicFetch ws).2.map raiseChunk) := by
  have hnext : ull (ws.next + 2 ^ 63 + ull ws.chunkSize) = Iter.long (ws.next + ws.chunkSize) + 2 ^ 63 := by
    rw [ull_add_ull, long_raise]
    congr 1
    omega
  unfold ullDynamicFetch dynamicFetch
  simp only [raiseWs, hnext, hmode, add_le_add_iff_right, add_lt_add_iff_right]
  by_cases hi : 0 < ws.incr
  · simp only [if_pos hi, Nat.or_zero, show 1 &&& 2 = 0 from rfl, if_true]
    split
    · simp
    · simp [raiseChunk, ite_add]
  · simp only [if_neg hi, show ¬(1 ||| 2) &&& 2 = 0 by decide, if_false]
    split
    · simp
    · simp [raiseChunk, ite_add]

/-- The raised loop. -/
structure Raised (B : DynamicArgs) (k : ℤ) (A : Args) : Prop where
  type : A.type = .ull
  sched : A.sched = .dynamic
  locked : A.locked = false
  nthreads : A.nthreads = B.nthreads
  start : A.start = B.start + 2 ^ 63
  stop : A.stop = B.bound + 2 ^ 63
  incr : A.incr = B.incr
  chunkSize : A.chunkSize = k

theorem Serves.exists_raised (h : B.Serves k) (hT : B.type = .long) : ∃ A, B.Raised k A := by
  have hstart := B.start_mem
  have hmem := B.bound_mem
  simp only [hT, IterType.min, IterType.max, longMax] at hstart hmem
  refine ⟨⟨.ull,.dynamic,false,B.nthreads,B.start + 2 ^ 63,B.bound + 2 ^ 63,B.incr,k,B.nthreads_pos,B.nthreads_lt,
    B.incr_ne,h.pos,?_,?_,h.le,by simp⟩,?_⟩
  · simp only [IterType.min, IterType.max, ullMax]
    omega
  · simp only [IterType.min, IterType.max, ullMax]
    omega
  · constructor <;> rfl

/-- What the fast path of a `long` loop has been tested for. -/
theorem Serves.long_mode (h : B.Serves k) (hT : B.type = .long) (hm : B.workShare.mode ≠ 0) :
    B.workShare.mode = 1 ∧ tooWide B.nthreads (k * |B.incr|) = false ∧ (B.nthreads + 1) * (k * |B.incr|) ≤ 2 ^ 62 ∧
    (if 0 < B.incr then B.bound < longMax - (B.nthreads + 1) * (k * |B.incr|)
      else (B.nthreads + 1) * (k * |B.incr|) - longMax < B.bound) := by
  have hbound : (if (0 < B.incr ∧ B.stop < B.start) ∨ (B.incr < 0 ∧ B.start < B.stop) then B.start else B.stop) =
    B.bound := rfl
  have hn := B.nthreads_lt
  have hmul := h.mul_bounds.2 hT
  have hpos : 0 < k * |B.incr| := Int.mul_pos h.pos (abs_pos.mpr B.incr_ne)
  have hle := h.le
  have hprod : tooWide B.nthreads (k * |B.incr|) = false → 0 ≤ (B.nthreads + 1) * (k * |B.incr|) ∧
      (B.nthreads + 1) * (k * |B.incr|) ≤ 2 ^ 62 := by
    intro hw
    unfold ullMax at hle
    obtain ⟨h1,h2⟩ := lt_of_not_tooWide (by omega) (by omega) hw
    refine ⟨Int.mul_nonneg (by omega) hpos.le,?_⟩
    calc ((B.nthreads : ℤ) + 1) * (k * |B.incr|) ≤ 2 ^ 31 * 2 ^ 31 :=
          Int.mul_le_mul (by omega) (by omega) (by omega) (by omega)
      _ = 2 ^ 62 := by norm_num
  unfold longMax at hmul
  unfold workShare at hm ⊢
  simp only [hT, gompLoopInit, hbound, h.long_word] at hm ⊢
  rw [long_eq hmul.1 (by omega)] at hm ⊢
  obtain ⟨hi,hd⟩ | ⟨hi,hd⟩ := B.up_or_down
  · rw [hd] at hprod ⊢
    simp only [if_pos hi] at hm ⊢
    cases hw : tooWide B.nthreads (k * B.incr) with
    | true => simp [hw] at hm
    | false =>
      have hp := hprod hw
      have hin : Iter.long ((B.nthreads + 1) * (k * B.incr)) = (B.nthreads + 1) * (k * B.incr) :=
        long_eq (by omega) (by omega)
      have hout : Iter.long (longMax - (B.nthreads + 1) * (k * B.incr)) = longMax - (B.nthreads + 1) * (k * B.incr) :=
        long_eq (by unfold longMax; omega) (by unfold longMax; omega)
      simp only [hw, hin, hout, Bool.false_eq_true, if_false] at hm ⊢
      split at hm
      case isTrue hlt => exact ⟨if_pos hlt,trivial,hp.2,hlt⟩
      case isFalse => contradiction
  · rw [hd, mul_neg] at hprod ⊢
    simp only [if_neg (not_lt.mpr hi.le)] at hm ⊢
    rcases hmul.1.eq_or_lt with hlimit | hlow
    · -- the least `long` has no complement
      rw [← hlimit] at hm
      simp only [tooWide_least, if_true] at hm
      contradiction
    · rw [long_eq (x := -(k * B.incr)) (by omega) (by omega)] at hm ⊢
      cases hw : tooWide B.nthreads (-(k * B.incr)) with
      | true => simp [hw] at hm
      | false =>
        have hp := hprod hw
        have hin : Iter.long ((B.nthreads + 1) * -(k * B.incr)) = (B.nthreads + 1) * -(k * B.incr) :=
          long_eq (by omega) (by omega)
        have hout : Iter.long ((B.nthreads + 1) * -(k * B.incr) - longMax) = (B.nthreads + 1) * -(k * B.incr) - longMax :=
          long_eq (by unfold longMax; omega) (by unfold longMax; omega)
        simp only [hw, hin, hout, Bool.false_eq_true, if_false] at hm ⊢
        split at hm
        case isTrue hlt => exact ⟨if_pos hlt,trivial,hp.2,hlt⟩
        case isFalse => contradiction

/-- Both loops choose the fast path together. -/
theorem Raised.workShare_eq (hA : B.Raised k A) (h : B.Serves k) (hT : B.type = .long)
    (hm : B.workShare.mode ≠ 0) : A.workShare = raiseWs B.workShare := by
  obtain ⟨hTA,hsched,-,hn,hstart,hstop,hincr,hchunk⟩ := hA
  obtain ⟨hmode,hwide,hprod,htest⟩ := h.long_mode hT hm
  have hle := h.le
  have hpos : 0 < k * |B.incr| := Int.mul_pos h.pos (abs_pos.mpr B.incr_ne)
  have hroom : 0 < ((B.nthreads : ℤ) + 1) * (k * |B.incr|) := Int.mul_pos (by omega) hpos
  have hmem := B.bound_mem
  simp only [hT, IterType.min, IterType.max] at hmem
  unfold longMax at hmem htest
  unfold ullMax at hle
  have hside := B.bound_side
  have hw : raiseWs B.workShare =
      ⟨ull (k * B.incr),B.bound + 2 ^ 63,ull B.incr,B.start + 2 ^ 63,1 ||| if 0 < B.incr then 0 else 2⟩ := by
    have hincr' : B.workShare.incr = B.incr := by
      rw [workShare_incr, hT]
    have hchunk' : B.workShare.chunkSize = k * B.incr := by
      rw [h.chunkSize, hT]
    rw [raiseWs, hincr', hchunk', hmode, workShare_stop, workShare_next]
  have hin : ull ((B.nthreads + 1) * (k * |B.incr|)) = (B.nthreads + 1) * (k * |B.incr|) := ull_eq hroom.le (by omega)
  rw [hw]
  unfold Args.workShare
  rw [hTA, hsched, hn, hstart, hstop, hincr, hchunk]
  have hword : ull (k * ull B.incr) = ull (k * B.incr) := ull_mul_ull _ _
  simp only [gompLoopUllInit, decide_eq_true_eq, hword]
  obtain ⟨hi,hd⟩ | ⟨hi,hd⟩ := B.up_or_down
  · rw [hd] at hle hpos hroom hin hwide hprod htest
    have hchunk' : ull (k * B.incr) = k * B.incr := ull_eq hpos.le (by omega)
    have hout : ull (ullMax - (B.nthreads + 1) * (k * B.incr)) = ullMax - (B.nthreads + 1) * (k * B.incr) :=
      ull_eq (by unfold ullMax; omega) (by unfold ullMax; omega)
    rw [if_pos hi] at htest
    simp only [if_pos hi, hchunk', hwide, hin, hout, Bool.false_eq_true, if_false]
    rw [if_neg (by omega), if_pos (by unfold ullMax; omega)]
  · rw [hd, mul_neg] at hle hpos hroom hin hwide hprod htest
    have hneg : ull (-ull (k * B.incr)) = -(k * B.incr) := by
      have hchunk' : ull (k * B.incr) = k * B.incr + 2 ^ 64 := by
        unfold ull
        omega
      rw [hchunk']
      unfold ull
      omega
    have hout : ull ((B.nthreads + 1) * -(k * B.incr) - ullMax) = (B.nthreads + 1) * -(k * B.incr) + 1 := by
      unfold ull ullMax
      omega
    rw [if_neg (by omega)] at htest
    have hup : ¬0 < B.incr := by omega
    simp only [if_neg hup, hneg, hwide, hin, hout, Bool.false_eq_true, if_false]
    rw [if_neg (by omega), if_pos (by omega)]

/-- The fast path is in use and no thread has begun a pass. -/
structure Fetching (s : State) : Prop where
  mode : s.ws.mode = 1
  pcs : ∀ t start chunk, s.pc t ≠ .loop start chunk

theorem raise_ret {ws : WorkShare} (r : Option (ℤ × ℤ)) :
    raise (s.ret t ws r) = (raise s).ret t (raiseWs ws) (r.map raiseChunk) := by
  cases r with
  | none => rfl
  | some c => simp [raise, State.ret, State.setPc]

theorem dynamicFetch_mode (ws : WorkShare) : (dynamicFetch ws).1.mode = ws.mode := by
  unfold dynamicFetch
  dsimp only
  split <;> split <;> rfl

/-- A raised step is a step of the raised loop. -/
theorem Fetching.step (hA : B.Raised k A) (hT : B.type = .long) (hlocked : B.locked = false) (h : Fetching s) {e : Event}
    (hs : step B.team s e = some s') : Fetching s' ∧ Iter.step A (raise s) e = some (raise s') := by
  cases e with
  | call t =>
    simp only [Iter.step, Option.ite_none_right_eq_some, Option.some.injEq] at hs
    obtain ⟨⟨ht,hpc⟩,rfl⟩ := hs
    have hcall : Iter.call B.team s t =
        { s with fetches := s.fetches + 1 }.ret t (dynamicFetch s.ws).1 (dynamicFetch s.ws).2 := by
      have huse : B.team.usesFetch s.ws = true := by
        unfold Args.usesFetch
        simp [team, hT, h.mode]
      unfold Iter.call
      rw [if_neg (by simp [team, hlocked]), if_pos huse]
      unfold Args.fetch
      simp only [team, hT]
    have hraised : Iter.call A (raise s) t =
        { raise s with fetches := s.fetches + 1 }.ret t (raiseWs (dynamicFetch s.ws).1) ((dynamicFetch s.ws).2.map raiseChunk) := by
      have huse : A.usesFetch (raise s).ws = true := by
        unfold Args.usesFetch
        simp only [hA.type, hA.sched, raise, raiseWs, h.mode]
        split <;> decide
      unfold Iter.call
      rw [if_neg (by simp [hA.locked]), if_pos huse]
      unfold Args.fetch
      simp only [hA.type]
      rw [show (raise s).ws = raiseWs s.ws from rfl, fetch_raise h.mode]
      rfl
    refine ⟨?_,?_⟩
    · rw [hcall]
      have hno : ∀ r, Fetching ({ s with fetches := s.fetches + 1 }.ret t (dynamicFetch s.ws).1 r) := by
        intro r
        constructor
        · cases r <;> exact (dynamicFetch_mode s.ws).trans h.mode
        · intro u
          cases r <;> exact no_loop_update h.pcs (fun _ _ => Pc.noConfusion) u
      exact hno _
    · have hn : t < A.nthreads := by
        rw [hA.nthreads]
        exact ht
      rw [hcall, raise_ret, Iter.step, if_pos ⟨hn,hpc⟩, hraised]
      rfl
  | again t =>
    simp only [Iter.step] at hs
    split at hs
    case h_1 start chunk hpc => exact absurd hpc (h.pcs t start chunk)
    case h_2 => contradiction

theorem Fetching.run (hA : B.Raised k A) (hT : B.type = .long) (hlocked : B.locked = false) (h : Fetching s)
    {es : List Event} (hr : Run.run (Iter.step B.team) s es = some s') :
    Run.run (Iter.step A) (raise s) es = some (raise s') := by
  induction es generalizing s with
  | nil =>
    obtain rfl : s = s' := by simpa [Run.run] using hr
    rfl
  | cons e es ih =>
    obtain ⟨u,hu,hrest⟩ := run_cons.mp hr
    obtain ⟨h',hstep⟩ := h.step hA hT hlocked hu
    exact run_cons.mpr ⟨_,hstep,ih h' hrest⟩

/-- The runs of a loop on the fast path are those of the raised loop. -/
theorem Raised.deals (hA : B.Raised k A) (h : B.Serves k) (hT : B.type = .long) (hlocked : B.locked = false)
    (hm : B.workShare.mode ≠ 0) {es : List Event} (hr : run (step B.team) B.init es = some s) :
    B.Deals s ∧ es.length ≤ B.nthreads * (B.nthreads + 3) + A.N.toNat * chunkCost B.team := by
  have hfetching : Fetching B.init := ⟨(h.long_mode hT hm).1,fun _ _ _ => Pc.noConfusion⟩
  have hraised := hfetching.run hA hT hlocked hr
  have hinit : raise B.init = Iter.init A := by
    unfold Iter.init
    rw [hA.workShare_eq h hT hm]
    rfl
  rw [hinit] at hraised
  obtain ⟨l,p,hprog⟩ := run_progress (fun hov => by
    have := hov.1
    rw [hA.type] at this
    contradiction) hraised
  have hok := hprog.chunksOk
  have hlen := run_length_le (fun _ => rfl) rfl hraised
  have hcost : chunkCost A = chunkCost B.team := by
    unfold chunkCost
    rw [hA.nthreads]
    rfl
  refine ⟨⟨hok.returns,fun c hc => ?_,fun t hpc => ?_⟩,?_⟩
  · have hne := hok.nonempty _ (List.mem_map_of_mem hc)
    rw [hA.incr] at hne
    exact mem_iters_raise.mp hne
  · have hall := hok.complete t hpc
    rw [hA.incr, hA.start, hA.stop] at hall
    rw [iters_bound]
    intro x hx
    obtain ⟨c',hc',hx'⟩ := Set.mem_iUnion₂.mp (hall (mem_iters_raise.mpr hx))
    obtain ⟨c,hc,rfl⟩ := List.mem_map.mp hc'
    exact Set.mem_biUnion (show c ∈ s.chunks from hc) (mem_iters_raise.mp hx')
  · rw [hA.nthreads, hcost] at hlen
    exact hlen.trans (Nat.add_le_add_left (Nat.mul_le_mul_right _ hprog.length_le) _)

/-! ## The runs -/

/-- Whichever of the three kinds the loop is of, its runs are right and end. -/
theorem Serves.run_deals (h : B.Serves k) :
    ∃ bound, ∀ es s, run (step B.team) B.init es = some s → B.Deals s ∧ es.length ≤ bound := by
  by_cases hnear : k * |B.incr| ≤ B.type.max ∧ (B.type = .long → -2 ^ 63 ≤ B.bound - B.start ∧ B.bound - B.start ≤ longMax)
  · obtain ⟨A,hA⟩ := h.exists_counterpart hnear.1 B.start_mem hnear.2
    exact ⟨_,fun es s hr => hA.deals h hr⟩
  · have hT : B.type = .long := by
      cases hT : B.type with
      | long => rfl
      | ull =>
        refine absurd ⟨?_,fun hlong => ?_⟩ hnear
        · rw [hT]
          exact h.le
        · rw [hT] at hlong
          contradiction
    by_cases hfast : B.locked = false ∧ B.team.usesFetch B.workShare = true
    · have hm : B.workShare.mode ≠ 0 := by
        have huse := hfast.2
        unfold Args.usesFetch at huse
        simpa [team, hT] using huse
      obtain ⟨A,hA⟩ := h.exists_raised hT
      exact ⟨_,fun es s hr => hA.deals h hT hfast.1 hm hr⟩
    · have hslow : B.locked = true ∨ B.team.usesFetch B.workShare = false := by
        simpa [Classical.or_iff_not_imp_left] using hfast
      have hfar : ¬(-2 ^ 63 ≤ B.bound - B.start ∧ B.bound - B.start ≤ longMax) ∨ B.type.max < k * |B.incr| := by
        by_contra hboth
        rw [not_or, not_not, not_lt] at hboth
        exact hnear ⟨hboth.2,fun _ => hboth.1⟩
      exact ⟨_,fun es s hr => (h.jumps hT hslow hfar).run_deals hr⟩

/-- A product that the type holds is exact. -/
theorem exact_of_le (h : B.chunkSize * |B.incr| ≤ B.type.max) : B.Exact := by
  have hD : 0 < |B.incr| := abs_pos.mpr B.incr_ne
  have hchunk := B.chunk_mem.1
  have hpos : 0 < B.chunkSize * |B.incr| := Int.mul_pos (by omega) hD
  refine Serves.exact ⟨hchunk,rfl,?_,fun hT => ?_⟩
  · refine h.trans ?_
    cases B.type <;> simp [IterType.max, longMax, ullMax]
  · rw [hT] at h
    refine h.trans ?_
    simp only [IterType.max, longMax]
    split <;> omega

theorem one_lt_word : 1 < 2 ^ 32 := by decide

/-- 25 iterations in steps of four, and a chunk size whose product is 2^64. -/
def lostProduct : DynamicArgs where
  type := .long
  locked := false
  nthreads := 1
  start := 0
  stop := 100
  incr := 4
  chunkSize := 2 ^ 62
  nthreads_pos := Nat.one_pos
  nthreads_lt := one_lt_word
  incr_ne := by decide
  incr_le := by decide
  incr_long := by decide
  chunk_mem := by decide
  start_mem := IterType.zero_mem .long
  stop_mem := by decide

end DynamicArgs

end GompUlt.Iter
