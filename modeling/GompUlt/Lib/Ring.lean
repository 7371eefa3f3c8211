import Mathlib.Data.List.Chain
import Mathlib.Data.List.Nodup
import Mathlib.Tactic.Common

/-! # Circular doubly linked lists over an explicit link store

A store keeps a next and a prev field for every node.  A ring is a duplicate-free
list whose neighbours, the last and the first included, point at each other.  Every
splice of a ring is reduced by rotation to a splice at its first element.
-/
namespace GompUlt.LinkRing

/-- The next and prev fields of all nodes. -/
structure Links (α : Type*) where
  next : α → α
  prev : α → α

variable {α : Type*} [DecidableEq α]

def Links.setNext (h : Links α) (a b : α) : Links α := { h with next := Function.update h.next a b }
def Links.setPrev (h : Links α) (a b : α) : Links α := { h with prev := Function.update h.prev a b }

/-- A node alone in its ring. -/
def Links.selfLoop (h : Links α) (n : α) : Links α := (h.setNext n n).setPrev n n

/-- The two stores that make the neighbours named by a node point back at it. -/
def Links.attach (h : Links α) (n : α) : Links α :=
  let h := h.setPrev (h.next n) n
  h.setNext (h.prev n) n

/-- The two stores that make the neighbours of a node skip it. -/
def Links.detach (h : Links α) (n : α) : Links α :=
  let h := h.setPrev (h.next n) (h.prev n)
  h.setNext (h.prev n) (h.next n)

/-- A node linked in between two given neighbours. -/
def Links.splice (h : Links α) (n nx pv : α) : Links α := ((h.setNext n nx).setPrev n pv).attach n

@[simp] theorem setNext_next (h : Links α) (a b : α) : (h.setNext a b).next = Function.update h.next a b := rfl
@[simp] theorem setNext_prev (h : Links α) (a b : α) : (h.setNext a b).prev = h.prev := rfl
@[simp] theorem setPrev_next (h : Links α) (a b : α) : (h.setPrev a b).next = h.next := rfl
@[simp] theorem setPrev_prev (h : Links α) (a b : α) : (h.setPrev a b).prev = Function.update h.prev a b := rfl

@[simp] theorem selfLoop_next (h : Links α) (n : α) : (h.selfLoop n).next = Function.update h.next n n := rfl
@[simp] theorem selfLoop_prev (h : Links α) (n : α) : (h.selfLoop n).prev = Function.update h.prev n n := rfl

@[simp] theorem detach_prev (h : Links α) (n : α) :
    (h.detach n).prev = Function.update h.prev (h.next n) (h.prev n) := rfl

@[simp] theorem detach_next (h : Links α) (n : α) :
    (h.detach n).next = Function.update h.next (h.prev n) (h.next n) := by
  have hp : (h.setPrev (h.next n) (h.prev n)).prev n = h.prev n := by
    by_cases hn : n = h.next n
    · rw [setPrev_prev, ← hn, Function.update_self]
    · rw [setPrev_prev, Function.update_of_ne hn]
  simp only [Links.detach, setNext_next, setPrev_next, hp]

/-- The two stores of detach may also be made the other way round. -/
theorem setPrev_setNext_eq_detach (h : Links α) (n : α) :
    (h.setNext (h.prev n) (h.next n)).setPrev ((h.setNext (h.prev n) (h.next n)).next n) (h.prev n) =
      h.detach n := by
  have hx : (h.setNext (h.prev n) (h.next n)).next n = h.next n := by
    by_cases hn : n = h.prev n
    · rw [setNext_next, ← hn, Function.update_self]
    · rw [setNext_next, Function.update_of_ne hn]
  have hnext := detach_next h n
  rw [hx]
  cases hd : h.detach n with
  | mk nx pv =>
    rw [hd] at hnext
    have hprev := congrArg Links.prev hd
    simp only at hnext
    simp only [detach_prev] at hprev
    rw [hnext, ← hprev]
    rfl

theorem splice_next (h : Links α) {n nx pv : α} (hn : n ≠ nx) :
    (h.splice n nx pv).next = Function.update (Function.update h.next n nx) pv n := by
  simp [Links.splice, Links.attach, Function.update_of_ne hn]

theorem splice_prev (h : Links α) {n nx pv : α} :
    (h.splice n nx pv).prev = Function.update (Function.update h.prev n pv) nx n := by
  simp [Links.splice, Links.attach]

omit [DecidableEq α] in
/-- Two nodes that point at each other. -/
def Link (h : Links α) (a b : α) : Prop := h.next a = b ∧ h.prev b = a

omit [DecidableEq α] in
/-- The list is a ring of the store, read from its first element. -/
def IsRing (h : Links α) (u : List α) : Prop :=
  u.Nodup ∧ (u ++ u.head?.toList).IsChain (Link h)

section Reading
variable {h : Links α}
omit [DecidableEq α]

@[simp] theorem isRing_nil : IsRing h [] := by simp [IsRing]

theorem isRing_cons {n : α} {ws : List α} :
    IsRing h (n :: ws) ↔ (n :: ws).Nodup ∧ (n :: ws).IsChain (Link h) ∧ Link h ((n :: ws).getLast (by simp)) n := by
  simp only [IsRing, List.head?_cons, Option.toList_some, List.isChain_append, List.isChain_singleton, true_and]
  simp [List.getLast?_eq_some_getLast]

theorem isRing_singleton {n : α} : IsRing h [n] ↔ h.next n = n ∧ h.prev n = n := by
  simp [isRing_cons, Link]

/-- The reading of a ring may start at any of its nodes. -/
theorem IsRing.rotate {u v : List α} (hr : IsRing h (u ++ v)) : IsRing h (v ++ u) := by
  cases u with
  | nil => simpa using hr
  | cons x u =>
    cases v with
    | nil => simpa using hr
    | cons y v =>
      rw [List.cons_append, isRing_cons] at hr
      obtain ⟨hd,hc,hl⟩ := hr
      rw [← List.cons_append] at hd hc
      obtain ⟨hx,hy,hxy⟩ := List.isChain_append.mp hc
      rw [List.cons_append, isRing_cons]
      refine ⟨List.nodup_append_comm.mp hd,List.isChain_append.mpr ⟨hy,hx,?_⟩,?_⟩
      · intro a ha b hb
        obtain rfl : x = b := by simpa using hb
        obtain ⟨_,rfl⟩ := List.mem_getLast?_eq_getLast ha
        simpa using hl
      · have hlast : ((y :: (v ++ x :: u)).getLast (by simp)) = (x :: u).getLast (by simp) := by simp
        rw [hlast]
        exact hxy _ (by simp [List.getLast?_eq_some_getLast]) y (by simp)

theorem IsRing.nodup {u : List α} (hr : IsRing h u) : u.Nodup := hr.1

/-- The successor and the predecessor of the node a ring is read from. -/
theorem IsRing.next_prev {n : α} {ws : List α} (hr : IsRing h (n :: ws)) :
    h.next n = ws.headD n ∧ h.prev n = ws.getLastD n := by
  obtain ⟨_,hc,hl⟩ := isRing_cons.mp hr
  cases ws with
  | nil => simpa [Link] using hl
  | cons a ws =>
    refine ⟨?_,?_⟩
    · simpa using (List.isChain_cons_cons.mp hc).1.1
    · simpa [Link, List.getLastD_eq_getLast?, List.getLast?_eq_some_getLast] using hl.2

/-- The neighbours of a node in the middle of the reading. -/
theorem IsRing.next_prev_mid {n : α} {u v : List α} (hr : IsRing h (u ++ n :: v)) :
    h.next n = (v ++ u).headD n ∧ h.prev n = (v ++ u).getLastD n :=
  IsRing.next_prev (by simpa using hr.rotate)

theorem IsRing.next_eq_iff {n r : α} {u v w : List α} (hr : IsRing h (u ++ n :: (w ++ r :: v))) :
    h.next n = r ↔ w = [] := by
  have hx := hr.next_prev_mid.1
  cases w with
  | nil => simpa using hx
  | cons z w =>
    have hz : z ≠ r := by
      rintro rfl
      have hd := hr.nodup
      simp [List.nodup_append] at hd
    simpa [hx] using hz

theorem IsRing.prev_eq_iff {n p : α} {u v w : List α} (hr : IsRing h (u ++ p :: (w ++ n :: v))) :
    h.prev n = p ↔ w = [] := by
  have hx := (IsRing.next_prev_mid (u := u ++ p :: w) (by simpa using hr)).2
  rcases List.eq_nil_or_concat w with rfl | ⟨w,z,rfl⟩
  · simpa [List.getLastD_eq_getLast?, List.getLast?_append, List.getLast?_cons] using hx
  · have hz : z ≠ p := by
      rintro rfl
      have hd := hr.nodup
      simp [List.nodup_append] at hd
    simpa [hx, List.getLastD_eq_getLast?, List.getLast?_append, List.getLast?_cons] using hz

theorem IsRing.next_prev_mem {n : α} {u : List α} (hr : IsRing h u) (hn : n ∈ u) :
    h.next n ∈ u ∧ h.prev n ∈ u := by
  obtain ⟨l₁,l₂,rfl⟩ := List.append_of_mem hn
  obtain ⟨hx,hp⟩ := hr.next_prev_mid
  have hm : ∀ a ∈ l₂ ++ l₁, a ∈ l₁ ++ n :: l₂ := by
    intro a ha
    simp only [List.mem_append, List.mem_cons] at ha ⊢
    tauto
  rw [hx, hp]
  cases he : l₂ ++ l₁ with
  | nil => simp
  | cons a l =>
    rw [he] at hm
    refine ⟨hm a (by simp),hm _ ?_⟩
    rw [List.getLastD_eq_getLast?, List.getLast?_eq_some_getLast (by simp), Option.getD_some]
    exact List.getLast_mem _

/-- On the members next and prev are inverse to each other. -/
theorem IsRing.next_prev_inverse {n : α} {u : List α} (hr : IsRing h u) (hn : n ∈ u) :
    h.next (h.prev n) = n ∧ h.prev (h.next n) = n := by
  obtain ⟨l₁,l₂,rfl⟩ := List.append_of_mem hn
  have hr : IsRing h (n :: (l₂ ++ l₁)) := by simpa using hr.rotate
  obtain ⟨hx,hp⟩ := hr.next_prev
  obtain ⟨_,hc,hl⟩ := isRing_cons.mp hr
  cases he : l₂ ++ l₁ with
  | nil =>
    rw [he] at hx hp
    simp_all
  | cons a l =>
    rw [he] at hx hp hc hl
    have hlast : (n :: a :: l).getLast (by simp) = (a :: l).getLastD n := by
      simp [List.getLastD_eq_getLast?, List.getLast?_eq_some_getLast]
    rw [hlast] at hl
    refine ⟨?_,?_⟩
    · rw [hp]
      exact hl.1
    · rw [hx]
      exact (List.isChain_cons_cons.mp hc).1.2

/-- The members are met by following next from the first one. -/
theorem IsRing.iterate_next {n t : α} {u : List α} (hr : IsRing h u) (ht : u.head? = some t) (hn : n ∈ u) :
    ∃ k, h.next^[k] t = n := by
  obtain ⟨v,w,rfl⟩ := List.append_of_mem hn
  induction v using List.reverseRecOn generalizing n w with
  | nil => exact ⟨0,by simpa using ht.symm⟩
  | append_singleton v a ih =>
    have hnext : h.next a = n := (IsRing.next_eq_iff (u := v) (w := []) (by simpa using hr)).mpr rfl
    obtain ⟨k,hk⟩ := ih (n := a) (w := n :: w) (by simpa using hr) (by simpa using ht) (by simp)
    exact ⟨k + 1,by rw [Function.iterate_succ_apply', hk, hnext]⟩

/-- The first element points back at the last one. -/
theorem IsRing.getLast?_eq {u : List α} {t : α} (hr : IsRing h u) (ht : u.head? = some t) :
    u.getLast? = some (h.prev t) := by
  cases u with
  | nil => simp at ht
  | cons x u =>
    obtain rfl : x = t := by simpa using ht
    rw [hr.next_prev.2, List.getLast?_cons, List.getLastD_eq_getLast?]

/-- The last element points at the first one. -/
theorem IsRing.head?_eq {u : List α} {p : α} (hr : IsRing h u) (hp : u.getLast? = some p) :
    u.head? = some (h.next p) := by
  obtain ⟨v,rfl⟩ := List.getLast?_eq_some_iff.mp hp
  rw [(IsRing.next_prev (by simpa using hr.rotate)).1]
  cases v <;> simp

/-- A store that agrees on the fields of the members has the same ring. -/
theorem IsRing.congr {h' : Links α} {u : List α} (hr : IsRing h u)
    (ha : ∀ a ∈ u, h'.next a = h.next a ∧ h'.prev a = h.prev a) : IsRing h' u := by
  refine ⟨hr.1,hr.2.imp_of_mem_imp ?_⟩
  have hm : ∀ a ∈ u ++ u.head?.toList, a ∈ u := by
    intro a ha
    rcases List.mem_append.mp ha with ha | ha
    · exact ha
    · exact List.mem_of_mem_head? (by simpa [eq_comm] using ha)
  intro a b hma hmb hl
  exact ⟨(ha a (hm a hma)).1.trans hl.1,(ha b (hm b hmb)).2.trans hl.2⟩

end Reading

section Writing
variable {h : Links α}

theorem isRing_selfLoop (h : Links α) (n : α) : IsRing (h.selfLoop n) [n] := by
  simp [isRing_singleton]

theorem IsRing.selfLoop {u : List α} (hr : IsRing h u) {n : α} (hn : n ∉ u) : IsRing (h.selfLoop n) u := by
  refine hr.congr ?_
  intro a ha
  have hne : a ≠ n := fun e => hn (e ▸ ha)
  simp [hne]

omit [DecidableEq α] in
/-- In a duplicate-free list the first of two neighbours is not the last element
and the second is not the first. -/
private theorem neighbours_ne {u : List α} (hd : u.Nodup) {a b : α} {l₁ l₂ : List α}
    (he : u = l₁ ++ a :: b :: l₂) (hne : u ≠ []) : a ≠ u.getLast hne ∧ b ≠ u.head hne := by
  subst he
  refine ⟨?_,?_⟩
  · intro ha
    have hl : (l₁ ++ a :: b :: l₂).getLast hne ∈ b :: l₂ := by
      rw [List.getLast_append_of_ne_nil _ (by simp), List.getLast_cons (by simp)]
      exact List.getLast_mem _
    rw [← ha] at hl
    exact (List.nodup_cons.mp (List.nodup_append.mp hd).2.1).1 hl
  · cases l₁ with
    | nil =>
      intro hb
      have hab : a = b := by simpa using hb.symm
      simp [hab] at hd
    | cons c l₁ =>
      intro hb
      have hbc : b = c := by simpa using hb
      simp [hbc] at hd

/-- Linking a fresh node in before the first element of a ring. -/
theorem IsRing.splice {ws : List α} (hr : IsRing h ws) {n nx pv : α} (hn : n ∉ ws)
    (hx : ws.head? = some nx) (hp : ws.getLast? = some pv) : IsRing (h.splice n nx pv) (n :: ws) := by
  obtain ⟨w,ws,rfl⟩ : ∃ w ws', ws = w :: ws' := by cases ws <;> simp_all
  obtain rfl : w = nx := by simpa using hx
  have hpv : (w :: ws).getLast (by simp) = pv := by
    rwa [List.getLast?_eq_some_getLast (by simp), Option.some.injEq] at hp
  obtain ⟨hd,hc,_⟩ := isRing_cons.mp hr
  have hnw : n ≠ w := fun e => hn (by simp [e])
  have hnp : n ≠ pv := fun e => hn (by rw [e, ← hpv]; exact List.getLast_mem _)
  rw [isRing_cons, List.isChain_cons_cons]
  refine ⟨List.nodup_cons.mpr ⟨hn,hd⟩,⟨?_,?_⟩,?_⟩
  · refine ⟨?_,?_⟩
    · rw [splice_next h hnw, Function.update_of_ne hnp, Function.update_self]
    · rw [splice_prev, Function.update_self]
  · rw [List.isChain_iff_forall_rel_of_append_cons_cons] at hc ⊢
    intro a b l₁ l₂ he
    obtain ⟨hal,hbf⟩ := neighbours_ne hd he (by simp)
    have ham : a ∈ w :: ws := by rw [he]; simp
    have hbm : b ∈ w :: ws := by rw [he]; simp
    have han : a ≠ n := fun e => hn (e ▸ ham)
    have hbn : b ≠ n := fun e => hn (e ▸ hbm)
    have hbw : b ≠ w := by simpa using hbf
    have hap : a ≠ pv := hpv ▸ hal
    obtain ⟨h1,h2⟩ := hc he
    refine ⟨?_,?_⟩
    · rw [splice_next h hnw, Function.update_of_ne hap, Function.update_of_ne han, h1]
    · rw [splice_prev, Function.update_of_ne hbw, Function.update_of_ne hbn, h2]
  · rw [List.getLast_cons (by simp), hpv]
    refine ⟨?_,?_⟩
    · rw [splice_next h hnw, Function.update_self]
    · rw [splice_prev, Function.update_of_ne hnw, Function.update_self]

/-- Unlinking the first element of a ring with at least two members. -/
theorem IsRing.detach {n : α} {ws : List α} (hr : IsRing h (n :: ws)) : IsRing (h.detach n) ws := by
  cases ws with
  | nil => simp
  | cons w ws =>
    obtain ⟨hx,hp⟩ := hr.next_prev
    obtain ⟨hd,hc,_⟩ := isRing_cons.mp hr
    obtain ⟨_,hc⟩ := List.isChain_cons_cons.mp hc
    have hx : h.next n = w := by simpa using hx
    have hp : h.prev n = (w :: ws).getLast (by simp) := by
      simpa [List.getLastD_eq_getLast?, List.getLast?_eq_some_getLast] using hp
    have hd' := (List.nodup_cons.mp hd).2
    rw [isRing_cons]
    refine ⟨hd',?_,?_⟩
    · rw [List.isChain_iff_forall_rel_of_append_cons_cons] at hc ⊢
      intro a b l₁ l₂ he
      obtain ⟨hal,hbf⟩ := neighbours_ne hd' he (by simp)
      obtain ⟨h1,h2⟩ := hc he
      refine ⟨?_,?_⟩
      · rw [detach_next, hp, Function.update_of_ne hal, h1]
      · rw [detach_prev, hx, Function.update_of_ne (by simpa using hbf), h2]
    · refine ⟨?_,?_⟩
      · rw [detach_next, hp, Function.update_self, hx]
      · rw [detach_prev, hx, Function.update_self, hp]

/-- A fresh node linked in at any position of the reading. -/
theorem IsRing.insert {u v : List α} (hr : IsRing h (u ++ v)) {n nx pv : α} (hn : n ∉ u ++ v)
    (hx : (v ++ u).head? = some nx) (hp : (v ++ u).getLast? = some pv) :
    IsRing (h.splice n nx pv) (u ++ n :: v) := by
  have hn' : n ∉ v ++ u := by simpa [and_comm] using hn
  exact IsRing.rotate (u := n :: v) (hr.rotate.splice hn' hx hp)

/-- A member unlinked at any position of the reading. -/
theorem IsRing.erase {u v : List α} {n : α} (hr : IsRing h (u ++ n :: v)) :
    IsRing (h.detach n) (u ++ v) :=
  IsRing.rotate (IsRing.detach (by simpa using hr.rotate))

/-- Insertion before the node at the cut of the reading. -/
theorem IsRing.insertBefore {u v : List α} (hr : IsRing h (u ++ v)) {n t : α} (hn : n ∉ u ++ v)
    (ht : (v ++ u).head? = some t) : IsRing (h.splice n t (h.prev t)) (u ++ n :: v) :=
  hr.insert hn ht (hr.rotate.getLast?_eq ht)

/-- Insertion after the node before the cut of the reading. -/
theorem IsRing.insertAfter {u v : List α} (hr : IsRing h (u ++ v)) {n p : α} (hn : n ∉ u ++ v)
    (hp : (v ++ u).getLast? = some p) : IsRing (h.splice n (h.next p) p) (u ++ n :: v) :=
  hr.insert hn (hr.rotate.head?_eq hp) hp

/-- A splice between two members of one ring leaves a disjoint ring alone. -/
theorem IsRing.splice_frame {u w : List α} (hr : IsRing h w) {n nx pv : α}
    (hd : w.Disjoint (n :: u)) (hn : n ∉ u) (hx : nx ∈ u) (hp : pv ∈ u) :
    IsRing (h.splice n nx pv) w := by
  refine hr.congr ?_
  intro a ha
  have hm : a ∉ n :: u := fun hb => hd ha hb
  have h1 : a ≠ n := fun e => hm (by simp [e])
  have h2 : a ≠ nx := fun e => hm (by simp [e, hx])
  have h3 : a ≠ pv := fun e => hm (by simp [e, hp])
  have hnx : n ≠ nx := fun e => hn (e ▸ hx)
  rw [splice_next h hnx, splice_prev]
  simp [h1, h2, h3]

theorem IsRing.insertBefore_frame {u w : List α} (hz : IsRing h w) (hr : IsRing h u) {n t : α}
    (hd : w.Disjoint (n :: u)) (hn : n ∉ u) (ht : t ∈ u) : IsRing (h.splice n t (h.prev t)) w :=
  hz.splice_frame hd hn ht (hr.next_prev_mem ht).2

theorem IsRing.insertAfter_frame {u w : List α} (hz : IsRing h w) (hr : IsRing h u) {n p : α}
    (hd : w.Disjoint (n :: u)) (hn : n ∉ u) (hp : p ∈ u) : IsRing (h.splice n (h.next p) p) w :=
  hz.splice_frame hd hn (hr.next_prev_mem hp).1 hp

theorem IsRing.detach_frame {u w : List α} (hz : IsRing h w) (hr : IsRing h u) {n : α}
    (hd : w.Disjoint u) (hn : n ∈ u) : IsRing (h.detach n) w := by
  refine hz.congr ?_
  intro a ha
  have hm : a ∉ u := fun hb => hd ha hb
  have h2 : a ≠ h.next n := fun e => hm (e ▸ (hr.next_prev_mem hn).1)
  have h3 : a ≠ h.prev n := fun e => hm (e ▸ (hr.next_prev_mem hn).2)
  simp [h2, h3]

end Writing

/-- Two disjoint rings of one store. -/
structure Rings (h : Links α) (u w : List α) : Prop where
  left : IsRing h u
  right : IsRing h w
  disjoint : w.Disjoint u

section Pair
variable {h : Links α} {u v w : List α} {n : α}

omit [DecidableEq α] in
theorem Rings.symm (hr : Rings h u w) : Rings h w u := ⟨hr.right,hr.left,fun _ ha hb => hr.disjoint hb ha⟩

omit [DecidableEq α] in
theorem Rings.nodup (hr : Rings h u w) : (u ++ w).Nodup :=
  List.nodup_append.mpr ⟨hr.left.nodup,hr.right.nodup,fun _ ha _ hb e => hr.disjoint (e ▸ hb) ha⟩

omit [DecidableEq α] in
theorem Rings.rotate (hr : Rings h (u ++ v) w) : Rings h (v ++ u) w :=
  ⟨hr.left.rotate,hr.right,fun _ ha hb => hr.disjoint ha (by simpa [or_comm] using hb)⟩

omit [DecidableEq α] in
theorem Rings.nil_left (hr : IsRing h w) : Rings h [] w := ⟨isRing_nil,hr,by simp⟩

omit [DecidableEq α] in
private theorem disjoint_insert (hd : w.Disjoint (u ++ v)) (hz : n ∉ w) : w.Disjoint (n :: (u ++ v)) := by
  intro a ha hm
  rcases List.mem_cons.mp hm with rfl | hm
  · exact hz ha
  · exact hd ha hm

omit [DecidableEq α] in
private theorem disjoint_mid (hd : w.Disjoint (n :: (u ++ v))) : w.Disjoint (u ++ n :: v) :=
  fun _ ha hm => hd ha (List.perm_middle.mem_iff.mp hm)

theorem Rings.selfLoop (hr : IsRing h w) (hz : n ∉ w) : Rings (h.selfLoop n) [n] w :=
  ⟨isRing_selfLoop h n,hr.selfLoop hz,by simpa using hz⟩

theorem Rings.insertBefore (hr : Rings h (u ++ v) w) (hn : n ∉ u ++ v) (hz : n ∉ w) {t : α}
    (ht : (v ++ u).head? = some t) : Rings (h.splice n t (h.prev t)) (u ++ n :: v) w := by
  have hd := disjoint_insert hr.disjoint hz
  have htm : t ∈ u ++ v := List.perm_append_comm.mem_iff.mp (List.mem_of_head? ht)
  exact ⟨hr.left.insertBefore hn ht,hr.right.insertBefore_frame hr.left hd hn htm,disjoint_mid hd⟩

theorem Rings.insertAfter (hr : Rings h (u ++ v) w) (hn : n ∉ u ++ v) (hz : n ∉ w) {p : α}
    (hp : (v ++ u).getLast? = some p) : Rings (h.splice n (h.next p) p) (u ++ n :: v) w := by
  have hd := disjoint_insert hr.disjoint hz
  have hpm : p ∈ u ++ v := List.perm_append_comm.mem_iff.mp (List.mem_of_getLast? hp)
  exact ⟨hr.left.insertAfter hn hp,hr.right.insertAfter_frame hr.left hd hn hpm,disjoint_mid hd⟩

theorem Rings.erase (hr : Rings h (u ++ n :: v) w) : Rings (h.detach n) (u ++ v) w := by
  refine ⟨hr.left.erase,hr.right.detach_frame hr.left hr.disjoint (by simp),?_⟩
  intro a ha hm
  exact hr.disjoint ha (List.perm_middle.mem_iff.mpr (List.mem_cons_of_mem _ hm))

end Pair

section Frame
variable {h h₁ h₂ : Links α} {n nx pv : α} {S : α → Prop}

/-- Two stores that agree on every node outside a set. -/
def AgreeOff (S : α → Prop) (h h' : Links α) : Prop := ∀ a, ¬S a → h'.next a = h.next a ∧ h'.prev a = h.prev a

omit [DecidableEq α] in
theorem AgreeOff.refl : AgreeOff S h h := fun _ _ => ⟨rfl,rfl⟩

omit [DecidableEq α] in
theorem AgreeOff.trans (h1 : AgreeOff S h h₁) (h2 : AgreeOff S h₁ h₂) : AgreeOff S h h₂ := fun a ha =>
  ⟨(h2 a ha).1.trans (h1 a ha).1,(h2 a ha).2.trans (h1 a ha).2⟩

omit [DecidableEq α] in
theorem AgreeOff.mono {S' : α → Prop} (ha : AgreeOff S h h₁) (hs : ∀ a, S a → S' a) : AgreeOff S' h h₁ :=
  fun a hn => ha a fun hm => hn (hs a hm)

theorem agreeOff_selfLoop (hn : S n) : AgreeOff S h (h.selfLoop n) := by
  intro a ha
  have h1 : a ≠ n := by rintro rfl; exact ha hn
  simp [h1]

theorem agreeOff_splice (hn : S n) (hx : S nx) (hp : S pv) : AgreeOff S h (h.splice n nx pv) := by
  intro a ha
  have h1 : a ≠ n := by rintro rfl; exact ha hn
  have h2 : a ≠ nx := by rintro rfl; exact ha hx
  have h3 : a ≠ pv := by rintro rfl; exact ha hp
  refine ⟨?_,by simp [splice_prev, h1, h2]⟩
  by_cases hnx : n = nx
  · subst hnx
    simp [Links.splice, Links.attach, h1]
  · simp [splice_next h hnx, h1, h3]

theorem agreeOff_detach (hx : S (h.next n)) (hp : S (h.prev n)) : AgreeOff S h (h.detach n) := by
  intro a ha
  have h2 : a ≠ h.next n := by rintro rfl; exact ha hx
  have h3 : a ≠ h.prev n := by rintro rfl; exact ha hp
  simp [h2, h3]

omit [DecidableEq α] in
/-- A ring outside the set is left alone. -/
theorem IsRing.agreeOff {u : List α} (hr : IsRing h u) (ha : AgreeOff S h h₁) (hu : ∀ a ∈ u, ¬S a) : IsRing h₁ u :=
  hr.congr fun a hm => ha a (hu a hm)

end Frame

end GompUlt.LinkRing
