import GompUlt.Lib.Run
import GompUlt.Lib.ListSegment
import Mathlib.Data.Finset.Insert
import Mathlib.Data.Fintype.Basic

/-! # Recycling of work-share blocks

`alloc_work_share` runs inside a critical section of its callers; `free_work_share` is lock-free.
A call of either is split into its accesses to memory the other may touch.  The link field of a
block shares its storage with `next_ws`, so a block in use may have it overwritten at any time.
-/
namespace GompUlt.WorkShare
open Run ListSegment

/-- Where the one call of `alloc_work_share` stands. -/
inductive AllocPc where
  | idle
  | loadFree
  | loaded (ws : Option ℕ)
  | cut (ws next : ℕ)
  | splice (next : ℕ)
deriving DecidableEq, Repr

/-- Where a thread stands in `free_work_share`, and for which block. -/
inductive FreePc where
  | idle
  | load (ws : ℕ)
  | link (ws : ℕ) (nextWs : Option ℕ)
  | cas (ws : ℕ) (nextWs : Option ℕ)
deriving DecidableEq, Repr

def FreePc.block : FreePc → Option ℕ
  | .idle => none
  | .load ws | .link ws _ | .cas ws _ => some ws

/-- The blocks of a team, numbered in the order of their allocation.  `used` are the blocks
returned by `alloc_work_share` and not yet pushed on `work_share_list_free`. -/
structure State (n : ℕ) where
  nextFree : ℕ → Option ℕ
  nextAlloc : ℕ → Option ℕ
  listAlloc : Option ℕ
  listFree : Option ℕ
  chunk : ℕ
  numBlocks : ℕ
  used : Finset ℕ
  alloc : AllocPc
  free : Fin n → FreePc

variable {n : ℕ}

/-- `gomp_new_team`: block 0 is in use, blocks 1 to 7 wait on `work_share_list_alloc`. -/
def init (n : ℕ) : State n where
  nextFree := chain (fun _ => none) 1 6
  nextAlloc := fun _ => none
  listAlloc := some 1
  listFree := none
  chunk := 8
  numBlocks := 8
  used := {0}
  alloc := .idle
  free := fun _ => .idle

/-- A fresh chunk twice as long as the last one: its first block is returned, the others are chained. -/
def grow (s : State n) : State n :=
  let chunk := s.chunk * 2
  let ws := s.numBlocks
  { s with
    chunk := chunk
    nextAlloc := Function.update (Function.update s.nextAlloc ws (s.nextAlloc 0)) 0 (some ws)
    listAlloc := some (ws + 1)
    nextFree := chain s.nextFree (ws + 1) (chunk - 2)
    numBlocks := ws + chunk
    used := insert ws s.used
    alloc := .idle }

/-- Entry of `alloc_work_share`: the head of `work_share_list_alloc` when there is one. -/
def allocEnter (s : State n) : State n :=
  match s.listAlloc with
  | some ws => { s with listAlloc := s.nextFree ws, used := insert ws s.used }
  | none => { s with alloc := .loadFree }

/-- The next memory access of the call of `alloc_work_share` in progress. -/
def allocNext (s : State n) : Option (State n) :=
  match s.alloc with
  | .idle => none
  | .loadFree => some { s with alloc := .loaded s.listFree }
  | .loaded none => some (grow s)
  | .loaded (some ws) =>
    match s.nextFree ws with
    | some next => some { s with alloc := .cut ws next }
    | none => some (grow s)
  | .cut ws next => some { s with nextFree := Function.update s.nextFree ws none, alloc := .splice next }
  | .splice next => some { s with listAlloc := s.nextFree next, used := insert next s.used, alloc := .idle }

def setFree (s : State n) (t : Fin n) (p : FreePc) : State n := { s with free := Function.update s.free t p }

/-- The next memory access of a thread in `free_work_share`. -/
def freeNext (s : State n) (t : Fin n) : Option (State n) :=
  match s.free t with
  | .idle => none
  | .load ws => some (setFree s t (.link ws s.listFree))
  | .link ws nextWs => some (setFree { s with nextFree := Function.update s.nextFree ws nextWs } t (.cas ws nextWs))
  | .cas ws nextWs =>
    if s.listFree = nextWs then
      some (setFree { s with listFree := some ws, used := s.used.erase ws } t .idle)
    else some (setFree s t (.load ws))

/-- A construct uses the block and no thread is freeing it. -/
def heldByConstruct (s : State n) (ws : ℕ) : Prop := ws ∈ s.used ∧ ∀ t, (s.free t).block ≠ some ws

instance (s : State n) (ws : ℕ) : Decidable (heldByConstruct s ws) := inferInstanceAs (Decidable (_ ∧ _))

inductive Event (n : ℕ) where
  | alloc
  | allocNext
  | free (t : Fin n) (ws : ℕ)
  | freeNext (t : Fin n)
  | useNextWs (ws : ℕ) (v : Option ℕ)

/-- One event.  Calls of `alloc_work_share` are serialised; a block is freed once, by its last user. -/
def step (s : State n) : Event n → Option (State n)
  | .alloc => if s.alloc = .idle then some (allocEnter s) else none
  | .allocNext => allocNext s
  | .free t ws => if s.free t = .idle ∧ heldByConstruct s ws then some (setFree s t (.load ws)) else none
  | .freeNext t => freeNext s t
  | .useNextWs ws v =>
    if heldByConstruct s ws then some { s with nextFree := Function.update s.nextFree ws v } else none

/-- The block `alloc_work_share` returns with this event. -/
def returned (s : State n) : Event n → Option ℕ
  | .alloc => s.listAlloc
  | .allocNext =>
    match s.alloc with
    | .loaded none => some s.numBlocks
    | .loaded (some ws) => if s.nextFree ws = none then some s.numBlocks else none
    | .splice next => some next
    | _ => none
  | _ => none

/-- The blocks in use, with the one a call of `alloc_work_share` has detached and is about to return. -/
def inUse (s : State n) : Finset ℕ :=
  match s.alloc with
  | .splice next => insert next s.used
  | _ => s.used

/-- The head of the blocks to allocate: between the detachment of a list and the store to
`work_share_list_alloc` the call in progress holds it. -/
def allocHead (s : State n) : Option ℕ :=
  match s.alloc with
  | .splice next => s.nextFree next
  | _ => s.listAlloc

/-! ## The three places of a block -/

/-- What the call of `alloc_work_share` in progress relies on: the head it has loaded stays on the
free list, since only this call takes blocks off it. -/
def AllocOk (s : State n) (F : List ℕ) : AllocPc → Prop
  | .idle => True
  | .loadFree | .loaded none => s.listAlloc = none
  | .loaded (some ws) => s.listAlloc = none ∧ ws ∈ F
  | .cut ws next => s.listAlloc = none ∧ ws ∈ F ∧ s.nextFree ws = some next
  | .splice next => next ∉ s.used

/-- The blocks to allocate are `A`, the freed ones are `F`, and every block is in one place. -/
structure Placed (s : State n) (A F : List ℕ) : Prop where
  alloc : IsSeg s.nextFree (allocHead s) A none
  free : IsSeg s.nextFree s.listFree F none
  all : ∀ ws, ws < s.numBlocks ↔ ws ∈ inUse s ∨ ws ∈ A ∨ ws ∈ F
  used_alloc : ∀ ws ∈ inUse s, ws ∉ A
  used_free : ∀ ws ∈ inUse s, ws ∉ F
  alloc_free : ∀ ws ∈ A, ws ∉ F
  allocPc : AllocOk s F s.alloc
  freePc : ∀ t ws, (s.free t).block = some ws → ws ∈ s.used
  single : ∀ t t' ws, (s.free t).block = some ws → (s.free t').block = some ws → t = t'
  linked : ∀ t ws nextWs, s.free t = .cas ws nextWs → s.nextFree ws = nextWs
  chunk_pos : 0 < s.chunk

variable {s s' : State n} {A F : List ℕ}

theorem mem_inUse {ws : ℕ} : ws ∈ inUse s ↔ ws ∈ s.used ∨ s.alloc = .splice ws := by
  unfold inUse
  split
  case h_1 next heq => simp [heq, or_comm, eq_comm]
  case h_2 hne => exact ⟨Or.inl,fun h => h.resolve_right (hne ws)⟩

theorem used_subset_inUse : s.used ⊆ inUse s := fun _ h => mem_inUse.mpr (Or.inl h)

theorem init_placed (n : ℕ) : Placed (init n) (List.range' 1 7) [] where
  alloc := chain_isSeg _ 1 6
  free := rfl
  all ws := by
    simp only [init, inUse, Finset.mem_singleton, List.mem_range'_1, List.not_mem_nil, or_false]
    omega
  used_alloc ws hws := by
    simp only [init, inUse, Finset.mem_singleton] at hws
    simp [hws]
  used_free _ _ := List.not_mem_nil
  alloc_free _ _ := List.not_mem_nil
  allocPc := trivial
  freePc _ _ h := by cases h
  single _ _ _ h := by cases h
  linked _ _ _ h := by cases h
  chunk_pos := Nat.succ_pos 7

/-! ## Steps of `free_work_share` -/

/-- The link field of a block in use may be written: nothing on a list changes. -/
theorem Placed.setLink (h : Placed s A F) {ws : ℕ} {v : Option ℕ} (hu : ws ∈ s.used)
    (hc : ∀ t nextWs, s.free t ≠ .cas ws nextWs) :
    Placed { s with nextFree := Function.update s.nextFree ws v } A F := by
  have hA := h.used_alloc ws (used_subset_inUse hu)
  have hF := h.used_free ws (used_subset_inUse hu)
  have hpc := h.allocPc
  constructor
  case alloc =>
    have hhead : allocHead { s with nextFree := Function.update s.nextFree ws v } = allocHead s := by
      unfold allocHead
      dsimp only
      split
      case h_1 next heq =>
        rw [heq] at hpc
        rw [Function.update_of_ne]
        rintro rfl
        exact hpc hu
      case h_2 => rfl
    rw [hhead]
    exact h.alloc.update hA v
  case free => exact h.free.update hF v
  case all => exact h.all
  case used_alloc => exact h.used_alloc
  case used_free => exact h.used_free
  case alloc_free => exact h.alloc_free
  case allocPc =>
    dsimp only
    cases heq : s.alloc with
    | idle => trivial
    | loadFree => rwa [heq] at hpc
    | loaded w =>
      rw [heq] at hpc
      cases w <;> exact hpc
    | cut w next =>
      rw [heq] at hpc
      refine ⟨hpc.1,hpc.2.1,?_⟩
      dsimp only
      rw [Function.update_of_ne,hpc.2.2]
      rintro rfl
      exact hF hpc.2.1
    | splice next => rwa [heq] at hpc
  case freePc => exact h.freePc
  case single => exact h.single
  case linked =>
    intro t w nextWs ht
    have hne : w ≠ ws := by
      rintro rfl
      exact hc t nextWs ht
    simpa [hne] using h.linked t w nextWs ht
  case chunk_pos => exact h.chunk_pos

/-- A thread moves inside its call, or enters one for a block nobody else is freeing. -/
theorem Placed.setFree (h : Placed s A F) {t : Fin n} {p : FreePc}
    (hu : ∀ ws, p.block = some ws → ws ∈ s.used)
    (hs : ∀ ws, p.block = some ws → ∀ t', (s.free t').block = some ws → t' = t)
    (hl : ∀ ws nextWs, p = .cas ws nextWs → s.nextFree ws = nextWs) : Placed (setFree s t p) A F := by
  constructor
  case alloc => exact h.alloc
  case free => exact h.free
  case all => exact h.all
  case used_alloc => exact h.used_alloc
  case used_free => exact h.used_free
  case alloc_free => exact h.alloc_free
  case allocPc => exact h.allocPc
  case freePc =>
    intro t' ws hb
    by_cases ht : t' = t
    · subst ht
      exact hu ws (by simpa [WorkShare.setFree] using hb)
    · exact h.freePc t' ws (by simpa [WorkShare.setFree, ht] using hb)
  case single =>
    intro t₁ t₂ ws h₁ h₂
    by_cases ht₁ : t₁ = t
    · subst ht₁
      by_cases ht₂ : t₂ = t₁
      · exact ht₂.symm
      · exact (hs ws (by simpa [WorkShare.setFree] using h₁) t₂
          (by simpa [WorkShare.setFree, ht₂] using h₂)).symm
    · by_cases ht₂ : t₂ = t
      · subst ht₂
        exact hs ws (by simpa [WorkShare.setFree] using h₂) t₁ (by simpa [WorkShare.setFree, ht₁] using h₁)
      · exact h.single t₁ t₂ ws (by simpa [WorkShare.setFree, ht₁] using h₁)
          (by simpa [WorkShare.setFree, ht₂] using h₂)
  case linked =>
    intro t' ws nextWs hb
    by_cases ht : t' = t
    · subst ht
      exact hl ws nextWs (by simpa [WorkShare.setFree] using hb)
    · exact h.linked t' ws nextWs (by simpa [WorkShare.setFree, ht] using hb)
  case chunk_pos => exact h.chunk_pos

/-- The compare-and-swap succeeds: the link written before is right, whatever happened since the load. -/
theorem Placed.push (h : Placed s A F) {t : Fin n} {ws : ℕ} {nextWs : Option ℕ}
    (ht : s.free t = .cas ws nextWs) (hfree : s.listFree = nextWs) :
    Placed (WorkShare.setFree { s with listFree := some ws, used := s.used.erase ws } t .idle) A (ws :: F) := by
  have hb : (s.free t).block = some ws := by rw [ht]; rfl
  have hu := h.freePc t ws hb
  have hA := h.used_alloc ws (used_subset_inUse hu)
  have hpc := h.allocPc
  have hns : s.alloc ≠ .splice ws := by
    intro he
    rw [he] at hpc
    exact hpc hu
  have hother : ∀ t', t' ≠ t → (s.free t').block ≠ some ws := fun t' hne hb' => hne (h.single t' t ws hb' hb)
  constructor
  case alloc => exact h.alloc
  case free =>
    refine ⟨rfl,?_⟩
    change IsSeg s.nextFree (s.nextFree ws) F none
    rw [h.linked t ws nextWs ht,← hfree]
    exact h.free
  case all =>
    intro w
    have hall := h.all w
    simp only [mem_inUse] at hall ⊢
    change w < s.numBlocks ↔ (w ∈ s.used.erase ws ∨ s.alloc = .splice w) ∨ w ∈ A ∨ w ∈ ws :: F
    rw [hall,Finset.mem_erase,List.mem_cons]
    by_cases hw : w = ws
    · subst hw
      simp [hu]
    · simp [hw]
  case used_alloc =>
    intro w hw
    refine h.used_alloc w (mem_inUse.mpr ?_)
    obtain hw | hw := mem_inUse.mp hw
    · exact Or.inl (Finset.mem_of_mem_erase hw)
    · exact Or.inr hw
  case used_free =>
    intro w hw hF
    obtain hw | hw := mem_inUse.mp hw
    · obtain ⟨hne,hw⟩ := Finset.mem_erase.mp hw
      obtain rfl | hF := List.mem_cons.mp hF
      · exact hne rfl
      · exact h.used_free w (used_subset_inUse hw) hF
    · obtain rfl | hF := List.mem_cons.mp hF
      · exact hns hw
      · exact h.used_free w (mem_inUse.mpr (Or.inr hw)) hF
  case alloc_free =>
    intro w hw hF
    obtain rfl | hF := List.mem_cons.mp hF
    · exact hA hw
    · exact h.alloc_free w hw hF
  case allocPc =>
    change AllocOk _ (ws :: F) s.alloc
    cases heq : s.alloc with
    | idle => trivial
    | loadFree => rwa [heq] at hpc
    | loaded w =>
      rw [heq] at hpc
      cases w with
      | none => exact hpc
      | some w => exact ⟨hpc.1,List.mem_cons_of_mem _ hpc.2⟩
    | cut w next =>
      rw [heq] at hpc
      exact ⟨hpc.1,List.mem_cons_of_mem _ hpc.2.1,hpc.2.2⟩
    | splice next =>
      rw [heq] at hpc
      exact fun hmem => hpc (Finset.mem_of_mem_erase hmem)
  case freePc =>
    intro t' w hw
    by_cases hne : t' = t
    · subst hne
      simp [WorkShare.setFree, FreePc.block] at hw
    · simp only [WorkShare.setFree, ne_eq, hne, not_false_eq_true, Function.update_of_ne] at hw
      refine Finset.mem_erase.mpr ⟨?_,h.freePc t' w hw⟩
      rintro rfl
      exact hother t' hne hw
  case single =>
    intro t₁ t₂ w h₁ h₂
    by_cases ht₁ : t₁ = t
    · subst ht₁
      simp [WorkShare.setFree, FreePc.block] at h₁
    · by_cases ht₂ : t₂ = t
      · subst ht₂
        simp [WorkShare.setFree, FreePc.block] at h₂
      · exact h.single t₁ t₂ w (by simpa [WorkShare.setFree, ht₁] using h₁)
          (by simpa [WorkShare.setFree, ht₂] using h₂)
  case linked =>
    intro t' w v hw
    by_cases hne : t' = t
    · subst hne
      simp [WorkShare.setFree] at hw
    · exact h.linked t' w v (by simpa [WorkShare.setFree, hne] using hw)
  case chunk_pos => exact h.chunk_pos

theorem freeNext_placed (h : Placed s A F) {t : Fin n} (hs : freeNext s t = some s') :
    ∃ F', Placed s' A F' := by
  have hself : ∀ ws, (s.free t).block = some ws → ∀ t', (s.free t').block = some ws → t' = t :=
    fun ws hb t' hb' => h.single t' t ws hb' hb
  unfold freeNext at hs
  split at hs
  case h_1 => cases hs
  case h_2 ws ht =>
    obtain rfl := Option.some.inj hs
    refine ⟨F,h.setFree ?_ ?_ (by simp)⟩
    · exact fun w hw => h.freePc t w (by rw [ht]; exact hw)
    · exact fun w hw => hself w (by rw [ht]; exact hw)
  case h_3 ws nextWs ht =>
    obtain rfl := Option.some.inj hs
    have hb : (s.free t).block = some ws := by rw [ht]; rfl
    have hnc : ∀ t' v, s.free t' ≠ .cas ws v := by
      intro t' v ht'
      obtain rfl := hself ws hb t' (by rw [ht']; rfl)
      rw [ht] at ht'
      cases ht'
    refine ⟨F,(h.setLink (h.freePc t ws hb) hnc).setFree ?_ ?_ ?_⟩
    · exact fun w hw => h.freePc t w (by rw [ht]; exact hw)
    · exact fun w hw => hself w (by rw [ht]; exact hw)
    · intro w v he
      cases he
      simp
  case h_4 ws nextWs ht =>
    split at hs
    case isTrue hfree =>
      obtain rfl := Option.some.inj hs
      exact ⟨_,h.push ht hfree⟩
    case isFalse =>
      obtain rfl := Option.some.inj hs
      refine ⟨F,h.setFree ?_ ?_ (by simp)⟩
      · exact fun w hw => h.freePc t w (by rw [ht]; exact hw)
      · exact fun w hw => hself w (by rw [ht]; exact hw)

/-! ## Steps of `alloc_work_share` -/

theorem allocHead_eq (h : ∀ next, s.alloc ≠ .splice next) : allocHead s = s.listAlloc := by
  unfold allocHead
  split
  case h_1 next heq => exact absurd heq (h next)
  case h_2 => rfl

theorem inUse_eq (h : ∀ next, s.alloc ≠ .splice next) : inUse s = s.used := by
  unfold inUse
  split
  case h_1 next heq => exact absurd heq (h next)
  case h_2 => rfl

/-- The call moves on without touching a list. -/
theorem Placed.setAlloc (h : Placed s A F) {p : AllocPc} (hs : ∀ next, s.alloc ≠ .splice next)
    (hp : ∀ next, p ≠ .splice next) (hok : AllocOk s F p) : Placed { s with alloc := p } A F := by
  have hu := inUse_eq (s := { s with alloc := p }) hp
  have hu' := inUse_eq hs
  constructor
  case alloc =>
    rw [allocHead_eq (s := { s with alloc := p }) hp]
    simpa [allocHead_eq hs] using h.alloc
  case free => exact h.free
  case all =>
    rw [hu]
    simpa [hu'] using h.all
  case used_alloc =>
    rw [hu]
    simpa [hu'] using h.used_alloc
  case used_free =>
    rw [hu]
    simpa [hu'] using h.used_free
  case alloc_free => exact h.alloc_free
  case allocPc =>
    change AllocOk { s with alloc := p } F p
    cases p with
    | loaded w => cases w <;> exact hok
    | _ => exact hok
  case freePc => exact h.freePc
  case single => exact h.single
  case linked => exact h.linked
  case chunk_pos => exact h.chunk_pos

/-- The head of `work_share_list_alloc` is handed out. -/
theorem Placed.pop (h : Placed s A F) {ws : ℕ} (hidle : s.alloc = .idle) (hl : s.listAlloc = some ws) :
    ∃ A', A = ws :: A' ∧
      Placed { s with listAlloc := s.nextFree ws, used := insert ws s.used } A' F := by
  have hs : ∀ next, s.alloc ≠ .splice next := by simp [hidle]
  have hseg := h.alloc
  rw [allocHead_eq hs,hl] at hseg
  cases A with
  | nil => cases hseg
  | cons w A' =>
    obtain ⟨he,htail⟩ := hseg
    obtain rfl := Option.some.inj he
    have hnd := h.alloc.nodup
    have hall := h.all
    have hua := h.used_alloc
    have huf := h.used_free
    rw [inUse_eq hs] at hall hua huf
    refine ⟨A',rfl,?_⟩
    have hu := inUse_eq (s := { s with listAlloc := s.nextFree ws, used := insert ws s.used }) hs
    constructor
    case alloc =>
      rw [allocHead_eq (s := { s with listAlloc := s.nextFree ws, used := insert ws s.used }) hs]
      exact htail
    case free => exact h.free
    case all =>
      intro w
      rw [hu]
      have := hall w
      simp only [List.mem_cons] at this
      simp only [Finset.mem_insert]
      tauto
    case used_alloc =>
      intro w hw hA
      rw [hu] at hw
      obtain rfl | hw := Finset.mem_insert.mp hw
      · exact (List.nodup_cons.mp hnd).1 hA
      · exact hua w hw (List.mem_cons_of_mem _ hA)
    case used_free =>
      intro w hw
      rw [hu] at hw
      obtain rfl | hw := Finset.mem_insert.mp hw
      · exact h.alloc_free w List.mem_cons_self
      · exact huf w hw
    case alloc_free => exact fun w hw => h.alloc_free w (List.mem_cons_of_mem _ hw)
    case allocPc =>
      dsimp only
      rw [hidle]
      trivial
    case freePc => exact fun t w hw => Finset.mem_insert_of_mem (h.freePc t w hw)
    case single => exact h.single
    case linked => exact h.linked
    case chunk_pos => exact h.chunk_pos

theorem Placed.alloc_nil (h : Placed s A F) (hs : ∀ next, s.alloc ≠ .splice next) (hl : s.listAlloc = none) :
    A = [] := by
  have hseg := h.alloc
  rw [allocHead_eq hs,hl] at hseg
  cases A with
  | nil => rfl
  | cons x A => exact absurd hseg.1 (by simp)

/-- A fresh chunk: its first block is handed out, the others are the blocks to allocate. -/
theorem Placed.grow (h : Placed s A F) (hs : ∀ next, s.alloc ≠ .splice next) (hl : s.listAlloc = none) :
    Placed (WorkShare.grow s) (List.range' (s.numBlocks + 1) (s.chunk * 2 - 1)) F := by
  obtain rfl := h.alloc_nil hs hl
  have hc := h.chunk_pos
  have hall := h.all
  have huf := h.used_free
  rw [inUse_eq hs] at hall huf
  have hold : ∀ w, w < s.numBlocks → chain s.nextFree (s.numBlocks + 1) (s.chunk * 2 - 2) w = s.nextFree w :=
    fun w hw => chain_of_lt (by omega)
  have hFlt : ∀ w ∈ F, w < s.numBlocks := fun w hw => (hall w).mpr (Or.inr (Or.inr hw))
  have hult : ∀ w ∈ s.used, w < s.numBlocks := fun w hw => (hall w).mpr (Or.inl hw)
  constructor
  case alloc =>
    have hk : s.chunk * 2 - 1 = s.chunk * 2 - 2 + 1 := by omega
    rw [hk]
    exact chain_isSeg _ _ _
  case free => exact h.free.congr fun w hw => hold w (hFlt w hw)
  case all =>
    intro w
    change w < s.numBlocks + s.chunk * 2 ↔ w ∈ insert s.numBlocks s.used ∨ _ ∨ _
    have := hall w
    simp only [List.not_mem_nil, false_or] at this
    simp only [Finset.mem_insert, List.mem_range'_1]
    constructor
    · intro hw
      by_cases hlt : w < s.numBlocks
      · tauto
      · omega
    · rintro ((rfl | hw) | hw | hw)
      · omega
      · have := hult w hw
        omega
      · omega
      · have := hFlt w hw
        omega
  case used_alloc =>
    intro w hw hA
    change w ∈ insert s.numBlocks s.used at hw
    rw [List.mem_range'_1] at hA
    obtain rfl | hw := Finset.mem_insert.mp hw
    · omega
    · have := hult w hw
      omega
  case used_free =>
    intro w hw hF
    change w ∈ insert s.numBlocks s.used at hw
    obtain rfl | hw := Finset.mem_insert.mp hw
    · exact absurd (hFlt _ hF) (lt_irrefl _)
    · exact huf w hw hF
  case alloc_free =>
    intro w hw hF
    rw [List.mem_range'_1] at hw
    have := hFlt w hF
    omega
  case allocPc => trivial
  case freePc => exact fun t w hw => Finset.mem_insert_of_mem (h.freePc t w hw)
  case single => exact h.single
  case linked =>
    intro t w v ht
    change s.free t = .cas w v at ht
    change chain _ _ _ w = v
    rw [hold w (hult w (h.freePc t w (by rw [ht]; rfl)))]
    exact h.linked t w v ht
  case chunk_pos => exact Nat.mul_pos hc (by decide)

/-- All freed blocks behind the loaded head are detached; the first of them will be returned. -/
theorem Placed.cut (h : Placed s A F) {ws next : ℕ} (hc : s.alloc = .cut ws next) :
    ∃ A' F', Placed { s with nextFree := Function.update s.nextFree ws none, alloc := .splice next } A' F' := by
  have hs : ∀ next, s.alloc ≠ .splice next := by simp [hc]
  have hok := h.allocPc
  rw [hc] at hok
  obtain ⟨hl,hws,hnext⟩ := hok
  obtain rfl := h.alloc_nil hs hl
  obtain ⟨F₁,F₂,rfl⟩ := List.append_of_mem hws
  have hnd := h.free.nodup
  -- behind the head stands `next`, and behind it the rest
  obtain ⟨m,hseg₁,rfl,hseg₂⟩ := isSeg_append.mp h.free
  rw [hnext] at hseg₂
  obtain _ | ⟨x,F₂⟩ := F₂
  · cases hseg₂
  obtain ⟨he,hrest⟩ := hseg₂
  obtain rfl := Option.some.inj he
  have hall := h.all
  have huf := h.used_free
  rw [inUse_eq hs] at hall huf
  rw [List.nodup_append] at hnd
  obtain ⟨hnd₁,hnd₂,hdis⟩ := hnd
  obtain ⟨hws₂,hnd₃⟩ := List.nodup_cons.mp hnd₂
  obtain ⟨hx₂,-⟩ := List.nodup_cons.mp hnd₃
  have hmem : ∀ w, w ∈ inUse { s with nextFree := Function.update s.nextFree ws none, alloc := .splice next } ↔
      w = next ∨ w ∈ s.used := by
    intro w
    rw [mem_inUse]
    simp [or_comm, eq_comm]
  have hne : next ≠ ws := by
    rintro rfl
    exact hws₂ List.mem_cons_self
  refine ⟨F₂,F₁ ++ [ws],?_⟩
  constructor
  case alloc =>
    change IsSeg _ (Function.update s.nextFree ws none next) F₂ none
    rw [Function.update_of_ne hne]
    exact hrest.update (fun hm => hws₂ (List.mem_cons_of_mem _ hm)) none
  case free =>
    refine IsSeg.setLast (t := s.nextFree ws) (isSeg_concat.mpr ⟨hseg₁,rfl⟩) ?_ none
    exact fun hm => hdis ws hm ws List.mem_cons_self rfl
  case all =>
    intro w
    rw [hmem]
    have := hall w
    simp only [List.not_mem_nil, false_or, List.mem_append, List.mem_cons] at this
    change w < s.numBlocks ↔ _
    simp only [List.mem_append, List.mem_singleton]
    tauto
  case used_alloc =>
    intro w hw hA
    obtain rfl | hw := (hmem w).mp hw
    · exact hx₂ hA
    · exact huf w hw (by simp [hA])
  case used_free =>
    intro w hw hF
    obtain rfl | hw := (hmem w).mp hw
    · obtain hF | hF := List.mem_append.mp hF
      · exact hdis w hF w (by simp) rfl
      · exact hne (List.mem_singleton.mp hF)
    · refine huf w hw ?_
      obtain hF | hF := List.mem_append.mp hF
      · exact List.mem_append_left _ hF
      · exact List.mem_append_right _ (by simp [List.mem_singleton.mp hF])
  case alloc_free =>
    intro w hw hF
    obtain hF | hF := List.mem_append.mp hF
    · exact hdis w hF w (by simp [hw]) rfl
    · obtain rfl := List.mem_singleton.mp hF
      exact hws₂ (List.mem_cons_of_mem _ hw)
  case allocPc => exact fun hu => huf next hu (by simp)
  case freePc => exact h.freePc
  case single => exact h.single
  case linked =>
    intro t w v ht
    have hwu := h.freePc t w (by rw [ht]; rfl)
    have hwne : w ≠ ws := by
      rintro rfl
      exact huf w hwu (by simp)
    change Function.update s.nextFree ws none w = v
    rw [Function.update_of_ne hwne]
    exact h.linked t w v ht
  case chunk_pos => exact h.chunk_pos

/-- The detached blocks are stored as the ones to allocate, and the call returns. -/
theorem Placed.splice (h : Placed s A F) {next : ℕ} (hc : s.alloc = .splice next) :
    Placed { s with listAlloc := s.nextFree next, used := insert next s.used, alloc := .idle } A F := by
  have hu : inUse s = insert next s.used := by simp [inUse, hc]
  have hhead : allocHead s = s.nextFree next := by simp [allocHead, hc]
  have halloc := h.alloc
  have hall := h.all
  have hua := h.used_alloc
  have huf := h.used_free
  rw [hhead] at halloc
  rw [hu] at hall hua huf
  exact ⟨halloc,h.free,hall,hua,huf,h.alloc_free,trivial,
    fun t w hw => Finset.mem_insert_of_mem (h.freePc t w hw),h.single,h.linked,h.chunk_pos⟩

theorem allocNext_placed (h : Placed s A F) (hs : allocNext s = some s') : ∃ A' F', Placed s' A' F' := by
  have hok := h.allocPc
  unfold allocNext at hs
  split at hs
  case h_1 => cases hs
  case h_2 hc =>
    obtain rfl := Option.some.inj hs
    rw [hc] at hok
    refine ⟨A,F,h.setAlloc (by simp [hc]) (by simp) ?_⟩
    cases hfree : s.listFree with
    | none => exact hok
    | some ws =>
      refine ⟨hok,?_⟩
      have hseg := h.free
      rw [hfree] at hseg
      exact List.mem_of_head? hseg.head?_eq.symm
  case h_3 hc =>
    obtain rfl := Option.some.inj hs
    rw [hc] at hok
    exact ⟨_,_,h.grow (by simp [hc]) hok⟩
  case h_4 ws hc =>
    rw [hc] at hok
    split at hs
    case h_1 next hnext =>
      obtain rfl := Option.some.inj hs
      exact ⟨A,F,h.setAlloc (by simp [hc]) (by simp) ⟨hok.1,hok.2,hnext⟩⟩
    case h_2 =>
      obtain rfl := Option.some.inj hs
      exact ⟨_,_,h.grow (by simp [hc]) hok.1⟩
  case h_5 ws next hc =>
    obtain rfl := Option.some.inj hs
    exact h.cut hc
  case h_6 next hc =>
    obtain rfl := Option.some.inj hs
    exact ⟨A,F,h.splice hc⟩

def HasPlaces (s : State n) : Prop := ∃ A F, Placed s A F

theorem step_hasPlaces {e : Event n} (h : HasPlaces s) (hs : step s e = some s') : HasPlaces s' := by
  obtain ⟨A,F,h⟩ := h
  cases e with
  | alloc =>
    simp only [step, Option.ite_none_right_eq_some, Option.some.injEq] at hs
    obtain ⟨hidle,rfl⟩ := hs
    unfold allocEnter
    split
    case h_1 ws hl =>
      obtain ⟨A',-,hA'⟩ := h.pop hidle hl
      exact ⟨A',F,hA'⟩
    case h_2 hl => exact ⟨A,F,h.setAlloc (by simp [hidle]) (by simp) hl⟩
  | allocNext => exact allocNext_placed h hs
  | free t ws =>
    simp only [step, Option.ite_none_right_eq_some, Option.some.injEq] at hs
    obtain ⟨⟨-,hu,hfree⟩,rfl⟩ := hs
    refine ⟨A,F,h.setFree ?_ ?_ (by simp)⟩
    · intro w hw
      cases hw
      exact hu
    · intro w hw t' ht'
      cases hw
      exact absurd ht' (hfree t')
  | freeNext t =>
    obtain ⟨F',hF'⟩ := freeNext_placed h hs
    exact ⟨A,F',hF'⟩
  | useNextWs ws v =>
    simp only [step, Option.ite_none_right_eq_some, Option.some.injEq] at hs
    obtain ⟨⟨hu,hfree⟩,rfl⟩ := hs
    refine ⟨A,F,h.setLink hu ?_⟩
    intro t v' ht
    exact hfree t (by rw [ht]; rfl)

/-- A returned block was not in use and is not the head of the free list. -/
theorem Placed.returned (h : Placed s A F) {e : Event n} (he : (step s e).isSome) {ws : ℕ}
    (hr : returned s e = some ws) : ws ∉ s.used ∧ s.listFree ≠ some ws := by
  have hok := h.allocPc
  -- fresh blocks have no place yet
  have hfresh : s.numBlocks ∉ s.used ∧ s.listFree ≠ some s.numBlocks := by
    constructor
    · exact fun hu => lt_irrefl _ ((h.all _).mpr (Or.inl (used_subset_inUse hu)))
    · intro hl
      have hseg := h.free
      rw [hl] at hseg
      exact lt_irrefl _ ((h.all _).mpr (Or.inr (Or.inr (List.mem_of_head? hseg.head?_eq.symm))))
  cases e with
  | alloc =>
    have hidle : s.alloc = .idle := by
      by_contra hne
      simp [step, hne] at he
    obtain ⟨A',rfl,-⟩ := h.pop hidle hr
    constructor
    · exact fun hu => h.used_alloc ws (used_subset_inUse hu) List.mem_cons_self
    · intro hl
      have hseg := h.free
      rw [hl] at hseg
      exact h.alloc_free ws List.mem_cons_self (List.mem_of_head? hseg.head?_eq.symm)
  | allocNext =>
    unfold WorkShare.returned at hr
    dsimp only at hr
    split at hr
    case h_1 =>
      obtain rfl := Option.some.inj hr
      exact hfresh
    case h_2 =>
      obtain ⟨-,hr⟩ := Option.ite_none_right_eq_some.mp hr
      obtain rfl := Option.some.inj hr
      exact hfresh
    case h_3 next hc =>
      obtain rfl := Option.some.inj hr
      rw [hc] at hok
      refine ⟨hok,fun hl => ?_⟩
      have hseg := h.free
      rw [hl] at hseg
      exact h.used_free next (mem_inUse.mpr (Or.inr hc)) (List.mem_of_head? hseg.head?_eq.symm)
    case h_4 => cases hr
  | free t ws => cases hr
  | freeNext t => cases hr
  | useNextWs ws v => cases hr

def ExactlyOne (p q r : Prop) : Prop := (p ∧ ¬q ∧ ¬r) ∨ (¬p ∧ q ∧ ¬r) ∨ (¬p ∧ ¬q ∧ r)

/-- In every interleaving, every block of the team is in use, or on the list of blocks to allocate,
or on the list of freed blocks, and in one of them only; `alloc_work_share` returns no block that is
in use, and none that is the head of the list of freed blocks. -/
theorem workShare_places (n : ℕ) (es : List (Event n)) (s : State n) (hr : run step (init n) es = some s) :
    (∃ A F, IsSeg s.nextFree (allocHead s) A none ∧ IsSeg s.nextFree s.listFree F none ∧ A.Nodup ∧ F.Nodup ∧
      (∀ ws < s.numBlocks, ExactlyOne (ws ∈ inUse s) (ws ∈ A) (ws ∈ F)) ∧
      (s.alloc = .idle → inUse s = s.used ∧ allocHead s = s.listAlloc)) ∧
    ∀ e ws, (step s e).isSome → returned s e = some ws → ws ∉ s.used ∧ s.listFree ≠ some ws := by
  have hstep : ∀ (s : State n) e s', HasPlaces s → True → step s e = some s' → HasPlaces s' :=
    fun _ _ _ hi _ hs => step_hasPlaces hi hs
  have hinv : HasPlaces s := run_invariant hstep ⟨_,_,init_placed n⟩ (along_true _ es) hr
  obtain ⟨A,F,h⟩ := hinv
  refine ⟨⟨A,F,h.alloc,h.free,h.alloc.nodup,h.free.nodup,fun ws hws => ?_,fun hidle => ?_⟩,
    fun e ws he hret => h.returned he hret⟩
  · obtain hw | hw | hw := (h.all ws).mp hws
    · exact Or.inl ⟨hw,h.used_alloc ws hw,h.used_free ws hw⟩
    · exact Or.inr (Or.inl ⟨fun hu => h.used_alloc ws hu hw,hw,h.alloc_free ws hw⟩)
    · exact Or.inr (Or.inr ⟨fun hu => h.used_free ws hu hw,fun hA => h.alloc_free ws hA hw,hw⟩)
  · have hs : ∀ next, s.alloc ≠ .splice next := by simp [hidle]
    exact ⟨inUse_eq hs,allocHead_eq hs⟩

/-- Thread 0 loads the head of the free list and stalls while the list behind that head is detached. -/
def stalledPush : List (Event 2) :=
  List.replicate 7 .alloc ++
    [.free 0 1,.freeNext 0,.freeNext 0,.freeNext 0,.free 1 2,.freeNext 1,.freeNext 1,.freeNext 1,.alloc,
     .allocNext,.free 0 3,.freeNext 0,.allocNext,.allocNext,.allocNext,.freeNext 0,.freeNext 0]

theorem workShare_places_stalledPush :
    ∃ s, run step (init 2) stalledPush = some s ∧ s.listFree = some 3 ∧ 1 ∈ s.used ∧
      ∀ e ws, (step s e).isSome → returned s e = some ws → ws ∉ s.used ∧ s.listFree ≠ some ws := by
  refine ⟨_,rfl,rfl,by decide,?_⟩
  exact (workShare_places 2 stalledPush _ rfl).2

end GompUlt.WorkShare
