import GompUlt.Loop.IterRuns
import Mathlib.Algebra.BigOperators.Group.Finset.Basic

/-! # How long a loop runs

A pass of a compare-and-swap loop fails only when another thread has been given a chunk since, so the number of
chunks bounds the number of steps.  This needs nothing of the chunks themselves.
-/
namespace GompUlt.Iter
open Run

variable {A : Args} {s s' : State} {ws w : WorkShare} {t : ℕ}

/-- The steps that a thread may still take unless another chunk is returned. -/
def patience (A : Args) (ws : WorkShare) : Pc → ℕ
  | .ready => A.nthreads + 3
  | .loop start _ => if ws.next = start then 1 else 2
  | .done => 0
  | .faulted => 0

def potential (A : Args) (s : State) : ℕ := ∑ t ∈ Finset.range A.nthreads, patience A s.ws (s.pc t)

/-- What the return of a chunk is charged for. -/
def chunkCost (A : Args) : ℕ := 2 * A.nthreads + 6

/-- Threads outside the team do not move. -/
def Outside (A : Args) (s : State) : Prop := ∀ t, A.nthreads ≤ t → s.pc t = .ready

theorem setPc_pc {p : Pc} {u : ℕ} (hu : u ≠ t) : (s.setPc t p).pc u = s.pc u := Function.update_of_ne hu _ _

theorem ret_pc {r : Option (ℤ × ℤ)} {u : ℕ} (hu : u ≠ t) : (s.ret t ws r).pc u = s.pc u := by
  cases r with
  | none => exact setPc_pc hu
  | some c => exact setPc_pc hu

theorem ret_some_length (c : ℤ × ℤ) : (s.ret t ws (some c)).chunks.length = s.chunks.length + 1 := List.length_append

theorem patience_le (ws w : WorkShare) (p : Pc) : patience A w p ≤ patience A ws p + 1 := by
  cases p with
  | loop start chunk =>
    simp only [patience]
    split <;> split <;> omega
  | ready => exact Nat.le_succ _
  | done => exact Nat.zero_le _
  | faulted => exact Nat.zero_le _

/-- One thread moves and the shared word may change. -/
theorem potential_move (ht : t < A.nthreads) (p : Pc) (chunks : List (ℤ × ℤ)) (fetches : ℕ) :
    potential A ⟨w,Function.update s.pc t p,chunks,fetches⟩ + patience A s.ws (s.pc t) ≤
      potential A s + patience A w p + if w = s.ws then 0 else A.nthreads := by
  have hmem : t ∈ Finset.range A.nthreads := Finset.mem_range.mpr ht
  unfold potential
  rw [← Finset.add_sum_erase _ _ hmem, ← Finset.add_sum_erase _ (fun t => patience A s.ws (s.pc t)) hmem]
  dsimp only
  rw [Function.update_self]
  have hothers : ∑ u ∈ (Finset.range A.nthreads).erase t, patience A w (Function.update s.pc t p u) ≤
      ∑ u ∈ (Finset.range A.nthreads).erase t, patience A s.ws (s.pc u) + if w = s.ws then 0 else A.nthreads := by
    split
    case isTrue hws =>
      refine le_of_eq (Finset.sum_congr rfl fun u hu => ?_)
      rw [hws, Function.update_of_ne (Finset.ne_of_mem_erase hu)]
    case isFalse =>
      calc ∑ u ∈ (Finset.range A.nthreads).erase t, patience A w (Function.update s.pc t p u)
          ≤ ∑ u ∈ (Finset.range A.nthreads).erase t, (patience A s.ws (s.pc u) + 1) := by
            refine Finset.sum_le_sum fun u hu => ?_
            rw [Function.update_of_ne (Finset.ne_of_mem_erase hu)]
            exact patience_le _ _ _
        _ = ∑ u ∈ (Finset.range A.nthreads).erase t, patience A s.ws (s.pc u) + (A.nthreads - 1) := by
            rw [Finset.sum_add_distrib, Finset.sum_const, Finset.card_erase_of_mem hmem, Finset.card_range, smul_eq_mul,
              mul_one]
        _ ≤ _ := by omega
  omega

/-- A thread is given a chunk. -/
theorem potential_chunk (ht : t < A.nthreads) (hp : 1 ≤ patience A s.ws (s.pc t)) (c : ℤ × ℤ) :
    potential A (s.ret t w (some c)) + 1 ≤ potential A s + chunkCost A := by
  have h := potential_move (s := s) (w := w) ht .ready (s.chunks ++ [c]) s.fetches
  have hready : patience A w .ready = A.nthreads + 3 := rfl
  change potential A ⟨w,Function.update s.pc t .ready,s.chunks ++ [c],s.fetches⟩ + 1 ≤ _
  unfold chunkCost
  split at h <;> omega

/-- A thread that has not begun a pass is told that nothing is left. -/
theorem potential_ready_done (ht : t < A.nthreads) (hp : s.pc t = .ready) (fetches : ℕ) :
    potential A ({ s with fetches := fetches }.ret t w none) + 1 ≤ potential A s := by
  have h := potential_move (s := s) (w := w) ht .done s.chunks fetches
  have hready : patience A s.ws (s.pc t) = A.nthreads + 3 := by rw [hp]; rfl
  have hdone : patience A w .done = 0 := rfl
  change potential A ⟨w,Function.update s.pc t .done,s.chunks,fetches⟩ + 1 ≤ _
  split at h <;> omega

theorem potential_setPc (ht : t < A.nthreads) {p : Pc} (hp : patience A s.ws p + 1 ≤ patience A s.ws (s.pc t)) :
    potential A (s.setPc t p) + 1 ≤ potential A s := by
  have h := potential_move (s := s) (w := s.ws) ht p s.chunks s.fetches
  rw [if_pos rfl] at h
  change potential A ⟨s.ws,Function.update s.pc t p,s.chunks,s.fetches⟩ + 1 ≤ _
  omega

/-- What a pass can come to. -/
theorem pass_cases (A : Args) (ws : WorkShare) (start chunk : ℤ) : A.pass ws start chunk = none ∨
    A.pass ws start chunk = some (ws,.ret none) ∨
    ∃ nend c, A.pass ws start chunk = some (casNext ws start nend c) := by
  unfold Args.pass dynamicPass ullDynamicPass guidedPass ullGuidedPass
  by_cases hstop : start = ws.stop
  · right; left
    cases A.type <;> cases A.sched <;> simp [hstop]
  · cases A.type <;> cases A.sched <;> simp only [if_neg hstop]
    · exact Or.inr (Or.inr ⟨_,_,rfl⟩)
    · cases guidedEnd ws A.nthreads start with
      | none => exact Or.inl rfl
      | some nend => exact Or.inr (Or.inr ⟨_,_,rfl⟩)
    · exact Or.inr (Or.inr ⟨_,_,rfl⟩)
    · exact Or.inr (Or.inr ⟨_,_,rfl⟩)

theorem again_potential (ht : t < A.nthreads) {start chunk : ℤ} (hpc : s.pc t = .loop start chunk) :
    potential A (again A s t start chunk) + 1 + s.chunks.length * chunkCost A ≤
      potential A s + (again A s t start chunk).chunks.length * chunkCost A := by
  have hp : 1 ≤ patience A s.ws (s.pc t) := by
    rw [hpc, patience]
    split <;> omega
  unfold again
  obtain hpass | hpass | ⟨nend,c,hpass⟩ := pass_cases A s.ws start chunk
  · rw [hpass]
    have h := potential_setPc (p := .faulted) ht hp
    exact Nat.add_le_add_right h _
  · rw [hpass]
    have h := potential_setPc (p := .done) ht hp
    exact Nat.add_le_add_right h _
  · rw [hpass]
    unfold casNext
    by_cases hsame : s.ws.next = start
    · simp only [if_pos hsame]
      rw [ret_some_length, add_mul, one_mul]
      have h := potential_chunk (w := ⟨s.ws.chunkSize,s.ws.stop,s.ws.incr,nend,s.ws.mode⟩) ht hp (start,nend)
      omega
    · have hold : patience A s.ws (s.pc t) = 2 := by
        rw [hpc, patience, if_neg hsame]
      have hnew : patience A s.ws (.loop s.ws.next c) = 1 := if_pos rfl
      have h := potential_setPc (s := s) (p := .loop s.ws.next c) ht (by omega)
      simp only [if_neg hsame]
      exact Nat.add_le_add_right h _

theorem call_potential (ht : t < A.nthreads) (hpc : s.pc t = .ready) :
    potential A (call A s t) + 1 + s.chunks.length * chunkCost A ≤
      potential A s + (call A s t).chunks.length * chunkCost A := by
  have hold : patience A s.ws (s.pc t) = A.nthreads + 3 := by rw [hpc]; rfl
  have hret : ∀ fetches w r, potential A ({ s with fetches := fetches }.ret t w r) + 1 + s.chunks.length * chunkCost A ≤
      potential A s + ({ s with fetches := fetches }.ret t w r).chunks.length * chunkCost A := by
    intro fetches w r
    cases r with
    | none => exact Nat.add_le_add_right (potential_ready_done ht hpc fetches) _
    | some c =>
      have h := potential_chunk (s := { s with fetches := fetches }) (w := w) ht (by dsimp only; omega) c
      have hsame : potential A { s with fetches := fetches } = potential A s := rfl
      rw [ret_some_length, add_mul, one_mul]
      dsimp only
      omega
  unfold call
  split
  · split
    · exact hret s.fetches _ _
    · have h := potential_setPc (s := s) (p := .faulted) ht (by rw [hold, patience]; omega)
      exact Nat.add_le_add_right h _
  · split
    · exact hret (s.fetches + 1) _ _
    · have h := potential_setPc (s := s) (p := .loop s.ws.next s.ws.chunkSize) ht (by
        rw [hold, patience, if_pos rfl]
        omega)
      exact Nat.add_le_add_right h _

theorem step_potential (ho : Outside A s) {e : Event} (hs : step A s e = some s') :
    Outside A s' ∧ potential A s' + 1 + s.chunks.length * chunkCost A ≤ potential A s + s'.chunks.length * chunkCost A := by
  have hupdate : ∀ t, t < A.nthreads → (∀ u, u ≠ t → s'.pc u = s.pc u) → Outside A s' := by
    intro t ht hu u hge
    rw [hu u (by omega)]
    exact ho u hge
  cases e with
  | call t =>
    simp only [step, Option.ite_none_right_eq_some, Option.some.injEq] at hs
    obtain ⟨⟨ht,hpc⟩,rfl⟩ := hs
    refine ⟨hupdate t ht fun u hu => ?_,call_potential ht hpc⟩
    unfold call
    split
    · split
      · exact ret_pc hu
      · exact setPc_pc hu
    · split
      · exact ret_pc hu
      · exact setPc_pc hu
  | again t =>
    simp only [step] at hs
    split at hs
    case h_1 start chunk hpc =>
      obtain rfl := Option.some.inj hs
      have ht : t < A.nthreads := by
        by_contra hge
        rw [ho t (by omega)] at hpc
        contradiction
      refine ⟨hupdate t ht fun u hu => ?_,again_potential ht hpc⟩
      unfold again
      split
      · exact ret_pc hu
      · exact setPc_pc hu
      · exact setPc_pc hu
    case h_2 => contradiction

/-- Every step is paid for by what the threads may still do or by a chunk. -/
theorem run_potential (ho : Outside A s) {es : List Event} (hr : run (step A) s es = some s') :
    es.length + potential A s' + s.chunks.length * chunkCost A ≤ potential A s + s'.chunks.length * chunkCost A := by
  induction es generalizing s with
  | nil =>
    obtain rfl : s = s' := by simpa [run] using hr
    simp
  | cons e es ih =>
    obtain ⟨u,hu,hrest⟩ := run_cons.mp hr
    obtain ⟨ho',hstep⟩ := step_potential ho hu
    have htail := ih ho' hrest
    rw [List.length_cons]
    omega

/-- A team that is given `m` chunks takes a number of steps linear in `m`. -/
theorem run_length_le (hpc : ∀ t, s.pc t = .ready) (hnil : s.chunks = []) {es : List Event}
    (hr : run (step A) s es = some s') :
    es.length ≤ A.nthreads * (A.nthreads + 3) + s'.chunks.length * chunkCost A := by
  have h := run_potential (fun t _ => hpc t) hr
  have hinit : potential A s = A.nthreads * (A.nthreads + 3) := by
    simp [potential, hpc, patience]
  rw [hnil, List.length_nil, zero_mul, hinit] at h
  omega

/-- Not more chunks are given than the loop has values. -/
theorem Progress.length_le {l : List (ℤ × ℤ)} {p : ℤ} (h : Progress A s l p) : s.chunks.length ≤ A.N.toNat := by
  have hlen := h.tiled.length_le
  have hN := h.tiled.le A.N_nonneg
  rw [h.chunks, List.length_map]
  omega

end GompUlt.Iter
