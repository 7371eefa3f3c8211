import GompUlt.Lib.Futex

/-! # Spinning before a sleep

`do_spin` reads the word a number of times and tells whether it changed; `do_wait` is `do_spin`
followed, when nothing changed, by `futex_wait`.
-/
namespace GompUlt.Wait
open Futex

/-- `gomp_spin_count_var` and `gomp_throttled_spin_count_var`. -/
structure SpinVars where
  spinCount : ℕ
  throttledSpinCount : ℕ

/-- The count `do_spin` starts from: the throttled one when more threads are managed than cpus are
available, which is the input. -/
def SpinVars.count (v : SpinVars) (input : ℕ) : ℕ := if input = 0 then v.spinCount else v.throttledSpinCount

variable {M P : Type*}

/-- One turn of the loop of `do_spin`, with `i` turns left. -/
def doSpin {W : Type*} [DecidableEq W] (word : M → W) (val : W) (again : ℕ → P) (changed expired : P) (i : ℕ) :
    Action M P :=
  .access fun _ m =>
    match i with
    | 0 => (m,expired)
    | i + 1 => if word m ≠ val then (m,changed) else (m,again i)

/-- Spinning leaves the memory alone and goes on at one of three places. -/
theorem doSpin_cases {W : Type*} [DecidableEq W] {word : M → W} {val : W} {again : ℕ → P} {changed expired : P}
    {i : ℕ} {f : ℕ → M → M × P} (h : doSpin word val again changed expired i = .access f) (input : ℕ) (m : M) :
    (f input m).1 = m ∧
      ((f input m).2 = expired ∨ (f input m).2 = changed ∧ word m ≠ val ∨ ∃ j, (f input m).2 = again j) := by
  simp only [doSpin, Action.access.injEq] at h
  subst h
  cases i with
  | zero => exact ⟨rfl,Or.inl rfl⟩
  | succ i =>
    by_cases hw : word m = val
    · simp [hw]
    · simp [hw]

end GompUlt.Wait
