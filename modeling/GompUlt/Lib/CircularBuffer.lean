import Mathlib.Data.List.Nodup
import Mathlib.Data.List.Range
import Mathlib.Logic.Function.Basic
import Mathlib.Tactic.Common

/-! # Circular buffers

The contents of a circular buffer of `T` slots are the `num` slots from `cur` on, with wrap-around.
-/
namespace GompUlt.CircularBuffer

variable {α : Type*} {buf : ℕ → α} {T cur num : ℕ} {x : α}

/-- The contents, oldest first. -/
def window (buf : ℕ → α) (T cur num : ℕ) : List α := (List.range num).map fun i => buf ((cur + i) % T)

@[simp] theorem window_zero : window buf T cur 0 = [] := rfl

@[simp] theorem length_window : (window buf T cur num).length = num := by
  simp [window]

theorem window_mod : window buf T (cur % T) num = window buf T cur num := by
  simp [window]

/-- The oldest slot and the rest. -/
theorem window_succ : window buf T cur (num + 1) = buf (cur % T) :: window buf T (cur + 1) num := by
  simp [window, List.range_succ_eq_map, Function.comp_def, Nat.add_assoc, Nat.add_comm 1]

/-- All but the newest slot, and that one. -/
theorem window_concat : window buf T cur (num + 1) = window buf T cur num ++ [buf ((cur + num) % T)] := by
  simp [window, List.range_succ]

/-- A free slot behind the newest one is written. -/
theorem window_push (hnum : num < T) :
    window (Function.update buf ((cur + num) % T) x) T cur (num + 1) = window buf T cur num ++ [x] := by
  rw [window_concat,Function.update_self]
  congr 1
  refine List.map_congr_left fun i hi => ?_
  rw [List.mem_range] at hi
  refine Function.update_of_ne (fun he => ?_) _ _
  have hlt : i + (num - i) = num := by omega
  have hsub : (cur + i) % T = (cur + i + (num - i)) % T := by rw [Nat.add_assoc,hlt,he]
  have hmod : (num - i) % T = 0 := by
    have hz := Nat.sub_mod_eq_zero_of_mod_eq hsub.symm
    rwa [Nat.add_sub_cancel_left] at hz
  rw [Nat.mod_eq_of_lt (by omega)] at hmod
  omega

/-- In a full buffer the oldest slot becomes the newest one when `cur` moves on. -/
theorem window_full (hT : 0 < T) : window buf T (cur + 1) T = (window buf T cur T).tail ++ [buf (cur % T)] := by
  cases T with
  | zero => exact absurd hT (lt_irrefl 0)
  | succ T =>
    rw [window_concat,window_succ,List.tail_cons]
    congr 3
    rw [Nat.add_assoc,Nat.add_comm 1 T,Nat.add_mod_right]

end GompUlt.CircularBuffer
