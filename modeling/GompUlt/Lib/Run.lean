import Mathlib.Tactic.Common

/-! # Runs of a partial transition function

A step may be refused.  A run is a list of events all of whose steps are taken, and a
condition on the steps of a run reads the state before each of them.
-/
namespace GompUlt.Run

variable {σ ε : Type*} (step : σ → ε → Option σ)

/-- The state after the events, none when one of them is refused. -/
def run (s : σ) : List ε → Option σ
  | [] => some s
  | e :: es => (step s e).bind fun s' => run s' es

/-- Every step taken along the events meets the condition. -/
def Along (cond : σ → ε → Prop) (s : σ) : List ε → Prop
  | [] => True
  | e :: es => cond s e ∧ ∀ s', step s e = some s' → Along cond s' es

/-- The same condition, checked by running. -/
def checkAlong (cond : σ → ε → Prop) [∀ s e, Decidable (cond s e)] (s : σ) : List ε → Bool
  | [] => true
  | e :: es =>
    decide (cond s e) &&
      match step s e with
      | none => true
      | some s' => checkAlong cond s' es

variable {step}

theorem along_of_check {cond : σ → ε → Prop} [∀ s e, Decidable (cond s e)] {s : σ} {es : List ε}
    (h : checkAlong step cond s es = true) : Along step cond s es := by
  induction es generalizing s with
  | nil => trivial
  | cons e es ih =>
    simp only [checkAlong, Bool.and_eq_true, decide_eq_true_eq] at h
    refine ⟨h.1,fun s' hs => ih ?_⟩
    simpa [hs] using h.2

theorem run_cons {s s' : σ} {e : ε} {es : List ε} :
    run step s (e :: es) = some s' ↔ ∃ t, step s e = some t ∧ run step t es = some s' := by
  simp [run, Option.bind_eq_some_iff]

/-- A run follows a total function on abstract states, step by step. -/
theorem run_simulates {τ : Type*} {f : τ → ε → τ} {cond : σ → ε → Prop} {R : σ → τ → Prop}
    (hstep : ∀ s a e s', R s a → cond s e → step s e = some s' → R s' (f a e)) {s s' : σ} {a : τ} {es : List ε}
    (h0 : R s a) (hc : Along step cond s es) (hr : run step s es = some s') : R s' (es.foldl f a) := by
  induction es generalizing s a with
  | nil =>
    obtain rfl : s = s' := by simpa [run] using hr
    exact h0
  | cons e es ih =>
    obtain ⟨t,ht,hrest⟩ := run_cons.mp hr
    exact ih (hstep s a e t h0 hc.1 ht) (hc.2 t ht) hrest

/-- What every step that meets the condition preserves, the run preserves. -/
theorem run_invariant {cond : σ → ε → Prop} {Inv : σ → Prop}
    (hstep : ∀ s e s', Inv s → cond s e → step s e = some s' → Inv s') {s s' : σ} {es : List ε}
    (h0 : Inv s) (hc : Along step cond s es) (hr : run step s es = some s') : Inv s' :=
  run_simulates (f := fun (_ : Unit) _ => ()) (R := fun s _ => Inv s)
    (fun s _ e s' hi hc hs => hstep s e s' hi hc hs) (a := ()) h0 hc hr

/-- Two conditions that agree on the steps taken from invariant states hold along the same runs. -/
theorem along_iff {P Q : σ → ε → Prop} {Inv : σ → Prop}
    (hstep : ∀ s e s', Inv s → P s e → step s e = some s' → Inv s')
    (hiff : ∀ s e s', Inv s → step s e = some s' → (P s e ↔ Q s e)) {s s' : σ} {es : List ε} (h0 : Inv s)
    (hr : run step s es = some s') : Along step P s es ↔ Along step Q s es := by
  induction es generalizing s with
  | nil => exact Iff.rfl
  | cons e es ih =>
    obtain ⟨t,ht,hrest⟩ := run_cons.mp hr
    have htail : P s e → ∀ u, step s e = some u → (Along step P u es ↔ Along step Q u es) := by
      intro hP u hu
      obtain rfl : t = u := Option.some.inj (ht.symm.trans hu)
      exact ih (hstep s e t h0 hP ht) hrest
    have hhead := hiff s e t h0 ht
    constructor
    · exact fun h => ⟨hhead.mp h.1,fun u hu => (htail h.1 u hu).mp (h.2 u hu)⟩
    · exact fun h => ⟨hhead.mpr h.1,fun u hu => (htail (hhead.mpr h.1) u hu).mpr (h.2 u hu)⟩

theorem along_true (s : σ) (es : List ε) : Along step (fun _ _ => True) s es := by
  induction es generalizing s with
  | nil => trivial
  | cons e es ih => exact ⟨trivial,fun s' _ => ih s'⟩

theorem along_of_forall {P : ε → Prop} {es : List ε} (h : ∀ e ∈ es, P e) (s : σ) : Along step (fun _ e => P e) s es := by
  induction es generalizing s with
  | nil => trivial
  | cons e es ih =>
    exact ⟨h e List.mem_cons_self,fun s' _ => ih (fun e' he => h e' (List.mem_cons_of_mem e he)) s'⟩

end GompUlt.Run
