import GompUlt.Depend.DependHash
import Mathlib.Data.List.Perm.Subperm

/-! # The chains of depend entries

The pointers of a chain are told apart from what stands in it: one predicate says that the
store holds a list for every address, another which entries these lists have and in which
order.
-/
namespace GompUlt.Depend
open LinkChain

variable {τ α : Type*}

/-- Of two tasks the first was created before the second; the list is newest first. -/
def Earlier : List τ → τ → τ → Prop
  | [], _, _ => False
  | n :: created, e, t => (t = n ∧ e ∈ created) ∨ Earlier created e t

theorem Earlier.mem {created : List τ} {e t : τ} (h : Earlier created e t) : e ∈ created ∧ t ∈ created := by
  induction created with
  | nil => exact h.elim
  | cons n created ih =>
    rcases h with ⟨rfl,he⟩ | h
    · simp [he]
    · simp [ih h]

namespace DependState

/-- Every address has its list in the store, and the hash table points at its first entry. -/
def Holds (s : DependState τ α) (chain : α → List (τ × ℕ)) : Prop :=
  ∀ a, Linked s.links (chain a) ∧ s.dependHash a = (chain a).head?

/-- The lists have exactly the entered entries that are not redundant, with at most one live
out entry each.  An entry is redundant_out only while a later task's out entry is live. -/
structure ChainsOk (s : DependState τ α) (entered : τ × ℕ → Prop) (chain : α → List (τ × ℕ)) : Prop where
  mem : ∀ a e, e ∈ chain a ↔ entered e ∧ s.addr e = a ∧ s.redundant e = false
  ordered : ∀ a, (chain a).Pairwise fun e e' => s.redundantOut e = true → s.redundantOut e' = true
  liveOut : ∀ a, ∀ e ∈ chain a, ∀ e' ∈ chain a, s.isIn e = false → s.redundantOut e = false →
    s.isIn e' = false → s.redundantOut e' = false → e = e'
  later : ∀ a, ∀ e ∈ chain a, s.redundantOut e = true → s.isIn e = false ∧
    ∃ o ∈ chain a, s.isIn o = false ∧ s.redundantOut o = false ∧ Earlier s.created e.1 o.1

section Pointers
variable [DecidableEq τ] [DecidableEq α] {s s' : DependState τ α} {chain : α → List (τ × ℕ)} {a : α}

omit [DecidableEq τ] in
/-- A store that holds a new list for one address and keeps the fields of all others. -/
theorem Holds.replace (hh : s.Holds chain) {u : List (τ × ℕ)} (hl : Linked s'.links u)
    (hd : s'.dependHash = Function.update s.dependHash a u.head?)
    (hf : ∀ b ≠ a, ∀ x ∈ chain b, s'.links.next x = s.links.next x ∧ s'.links.prev x = s.links.prev x) :
    s'.Holds (Function.update chain a u) := by
  intro b
  by_cases hb : b = a
  · subst hb
    simp [hd, hl]
  · rw [Function.update_of_ne hb, hd, Function.update_of_ne hb]
    exact ⟨(hh b).1.congr (hf b hb),(hh b).2⟩

omit [DecidableEq α] in
/-- A new first entry: its next field and the prev field of the old first entry. -/
theorem linked_push {h : Fields (τ × ℕ)} {u : List (τ × ℕ)} {e slot : τ × ℕ} (hl : Linked h (slot :: u))
    (he : e ∉ slot :: u) (hp : h.prev e = none) :
    Linked ((h.setNext e (some slot)).setPrev slot (some e)) (e :: slot :: u) := by
  have hes : e ≠ slot := by rintro rfl; simp at he
  refine Linked.insert_of (a := []) (b := slot :: u) (n := e) hl he ?_ ?_ ?_ ?_
  · simp
  · simp [Function.update_of_ne hes, hp]
  · intro x hx
    simp [Function.update_of_ne hx]
  · intro x hx
    simp [Function.update_apply, eq_comm]

omit [DecidableEq α] in
/-- The older out entry is taken out and linked in again behind the last live one. -/
theorem moveOut_eq {h : Fields (τ × ℕ)} {out last n p : τ × ℕ} (hn : h.next out = some n)
    (hp : h.prev out = some p) : moveOut h out last = some ((h.unlink out).insertAfter last out) := by
  have hu : h.unlink out = (h.setPrev n (some p)).setNext p (some n) := by
    have hpo : (h.setPrev n (some p)).prev out = some p := by
      by_cases e : out = n
      · simp [e]
      · simp [Function.update_of_ne e, hp]
    simp only [Fields.unlink, hn, hp, Fields.setPrevOf, hpo, setPrev_next, Fields.setNextOf]
  simp only [moveOut, hn, hp, hu]
  rfl

omit [DecidableEq α] in
theorem moveOut_linked {h : Fields (τ × ℕ)} {out last : τ × ℕ} {x v w : List (τ × ℕ)}
    (hl : Linked h (x ++ out :: (v ++ last :: w))) (hx : x ≠ []) :
    ∃ h', moveOut h out last = some h' ∧ Linked h' (x ++ v ++ last :: out :: w) ∧
      ∀ y, y ∉ x ++ out :: (v ++ last :: w) → h'.next y = h.next y ∧ h'.prev y = h.prev y := by
  obtain ⟨p,hp⟩ : ∃ p, x.getLast? = some p := Option.isSome_iff_exists.mp (by simpa using hx)
  obtain ⟨n,hn⟩ : ∃ n, (v ++ last :: w).head? = some n := Option.isSome_iff_exists.mp (by simp)
  have hno : h.next out = some n := hl.next_mid.trans hn
  have hpo : h.prev out = some p := hl.prev_mid.trans hp
  have hout : out ∉ x ++ (v ++ last :: w) := (List.nodup_cons.mp (List.nodup_middle.mp hl.nodup)).1
  have hun : Linked (h.unlink out) ((x ++ v) ++ last :: w) := by simpa using hl.unlink
  refine ⟨_,moveOut_eq hno hpo,?_,fun y hy => ?_⟩
  · simpa using hun.insertAfter (n := out) (by simpa using hout)
  · have hnm := List.mem_of_head? hn
    have hpm := List.mem_of_getLast? hp
    have hy' : y ∉ x ∧ y ≠ out ∧ y ∉ v ∧ y ≠ last ∧ y ∉ w := by simpa [not_or] using hy
    have hyn : n ≠ y := by
      rintro rfl
      simp only [List.mem_append, List.mem_cons] at hnm
      tauto
    have hyp : p ≠ y := by
      rintro rfl
      exact hy'.1 hpm
    have hln : (h.unlink out).next last ≠ some y := by
      rw [hun.next_mid]
      intro e
      exact hy'.2.2.2.2 (List.mem_of_head? e)
    have hune : (h.unlink out).next y = h.next y := by
      have hpu : (h.setPrevOf (h.next out) (h.prev out)).prev out = some p := by simp [setPrevOf_prev, hpo]
      simp only [Fields.unlink, hpu, setPrevOf_next, Fields.setNextOf, setNext_next]
      rw [Function.update_of_ne (Ne.symm hyp)]
    constructor
    · simp only [Fields.insertAfter, setPrevOf_next, setNext_next, setPrev_next]
      rw [Function.update_of_ne hy'.2.2.2.1, Function.update_of_ne hy'.2.1, hune]
    · have hlo : out ≠ last := by rintro rfl; simp at hout
      simp [Fields.insertAfter, setPrevOf_prev, Function.update_of_ne hlo, hln, hy'.2.1, unlink_prev, hno, hyn]

end Pointers

section Scan
variable [DecidableEq τ] {s : DependState τ α} {task d : τ}

/-- The task is put in the vectors of all the given tasks. -/
def hold (s : DependState τ α) (ds : List τ) (task : τ) : DependState τ α :=
  ds.foldl (fun s d => s.addDepender d task) s

/-- Only the vectors and num_dependees change. -/
theorem addDepender_eq (s : DependState τ α) (d task : τ) :
    ∃ v n, s.addDepender d task = { s with dependers := v, numDependees := n } := by
  unfold addDepender
  split
  · exact ⟨_,_,rfl⟩
  · split
    · exact ⟨s.dependers,s.numDependees,rfl⟩
    · exact ⟨_,_,rfl⟩

theorem hold_eq (s : DependState τ α) (ds : List τ) (task : τ) :
    ∃ v n, s.hold ds task = { s with dependers := v, numDependees := n } := by
  induction ds generalizing s with
  | nil => exact ⟨s.dependers,s.numDependees,rfl⟩
  | cons d ds ih =>
    obtain ⟨v,n,h⟩ := s.addDepender_eq d task
    obtain ⟨v',n',h'⟩ := ih (s.addDepender d task)
    refine ⟨v',n',?_⟩
    rw [h] at h'
    simpa [hold, h] using h'

@[simp] theorem addDepender_links : (s.addDepender d task).links = s.links := by
  obtain ⟨v,n,h⟩ := s.addDepender_eq d task
  rw [h]
@[simp] theorem addDepender_isIn : (s.addDepender d task).isIn = s.isIn := by
  obtain ⟨v,n,h⟩ := s.addDepender_eq d task
  rw [h]
@[simp] theorem addDepender_redundantOut : (s.addDepender d task).redundantOut = s.redundantOut := by
  obtain ⟨v,n,h⟩ := s.addDepender_eq d task
  rw [h]

/-- The entries of a chain before the first redundant_out one. -/
def live (s : DependState τ α) (u : List (τ × ℕ)) : List (τ × ℕ) := u.takeWhile fun e => !s.redundantOut e

/-- The tasks of the entries that an in or out use depends on. -/
def awaited (s : DependState τ α) (isIn : Bool) (v : List (τ × ℕ)) : List τ :=
  (v.filter fun e => !(isIn && s.isIn e)).map Prod.fst

/-- The last out entry. -/
def lastOut (s : DependState τ α) (v : List (τ × ℕ)) : Option (τ × ℕ) := (v.filter fun e => !s.isIn e).getLast?

theorem getLast?_cons_or {κ : Type*} (x : κ) (v : List κ) (y : Option κ) :
    (x :: v).getLast?.or y = v.getLast?.or (some x) := by
  cases v with
  | nil => simp
  | cons z v => simp [List.getLast?_cons]

/-- The loop over a chain visits its live entries, and fuel for its length is enough. -/
theorem scanChain_eq (task : τ) (isIn : Bool) {p rest : List (τ × ℕ)} {fuel : ℕ} (out last : Option (τ × ℕ))
    (hl : Linked s.links (p ++ rest)) (hf : rest.length ≤ fuel) :
    scanChain task isIn fuel s rest.head? out last =
      some (s.hold (s.awaited isIn (s.live rest)) task,(s.lastOut (s.live rest)).or out,
        (s.live rest).getLast?.or last) := by
  induction rest generalizing s p fuel out last with
  | nil => cases fuel <;> simp [scanChain, live, awaited, lastOut, hold]
  | cons ent rest ih =>
    obtain ⟨fuel,rfl⟩ : ∃ n, fuel = n + 1 := ⟨fuel - 1,by simp at hf; omega⟩
    have hn : s.links.next ent = rest.head? := hl.next_mid
    have hf' : rest.length ≤ fuel := by simpa using hf
    simp only [List.head?_cons, scanChain]
    by_cases hr : s.redundantOut ent = true
    · simp [hr, live, awaited, lastOut, hold]
    · have hlive : s.live (ent :: rest) = ent :: s.live rest := by simp [live, hr]
      rw [if_neg hr, hlive, getLast?_cons_or]
      by_cases hi : (isIn && s.isIn ent) = true
      · have hin : s.isIn ent = true := (Bool.and_eq_true_iff.mp hi).2
        rw [if_pos hi, hn, ih _ _ (p := p ++ [ent]) (by simpa using hl) hf']
        have ha : s.awaited isIn (ent :: s.live rest) = s.awaited isIn (s.live rest) := by
          rw [awaited, List.filter_cons_of_neg (by simp [hi]), awaited]
        have ho : s.lastOut (ent :: s.live rest) = s.lastOut (s.live rest) := by simp [lastOut, hin]
        rw [ha, ho]
      · rw [if_neg hi, hn, ih _ _ (s := s.addDepender ent.1 task) (p := p ++ [ent]) (by simpa using hl) hf']
        have ha : s.awaited isIn (ent :: s.live rest) = ent.1 :: s.awaited isIn (s.live rest) := by
          rw [awaited, List.filter_cons_of_pos (by simp [hi]), List.map_cons, awaited]
        rw [ha]
        simp only [live, awaited, lastOut, hold, addDepender_redundantOut, addDepender_isIn, List.foldl_cons]
        by_cases hin : s.isIn ent = true
        · simp [hin]
        · simp only [hin, Bool.not_false, List.filter_cons_of_pos, getLast?_cons_or]
          rfl

end Scan

end DependState
end GompUlt.Depend
