import GompUlt.Parallel.Dock

/-! # What threads do to the dock

What a thread knows of the dock stays true when another one changes the memory, and tells it where it goes on
when the dock is opened.
-/
namespace GompUlt.Dock

/-! ## What an action does to the memory -/
section Changes
variable {size : ℕ → ℕ} {t u : Tid} {m m' : Mem}

/-- What an action does to the memory, except for the opening of the dock. -/
inductive Change (size : ℕ → ℕ) (t : Tid) (m : Mem) : Mem → Prop
  | same : Change size t m m
  | arrive : t.2 ∉ m.arrived → t.2 < m.expected →
      (t = (0,0) ∧ Opened size m ∨ Home size t m ∧ m.threads t.2 = t) → Change size t m (m.arrive t)
  | reset : m.Opens t → Change size t m { m with awaited := m.total }
  | clear (p : ℕ) : Released size .again t m p → Change size t m { m with fn := Function.update m.fn t none }
  | ran (k : ℕ) : (t,k) ∉ m.ran → k < m.phase → t.2 < size k → t.1 = maker size k t.2 →
      Change size t m { m with ran := m.ran ++ [(t,k)] }
  | ended (k : ℕ) : m.phase = k + 1 → (t,k) ∈ m.ran → (t = (0,0) ∨ Live size t m) →
      Change size t m { m with ended := Function.update m.ended k (insert t.2 (m.ended k)) }
  | register : Live size t m → used size m.phase ≤ t.2 → t.2 ∉ m.arrived →
      Change size t m { m with threads := Function.update m.threads t.2 t }
  | threadsUsed (n : ℕ) : t = (0,0) → Change size t m { m with threadsUsed := n }
  | first : t = (0,0) → m.phase = 0 → m.expected = 0 →
      Change size t m
        { m with threadsUsed := size 0, total := size 0, awaited := size 0, generation := 0, expected := size 0 }
  | grow (k : ℕ) : t = (0,0) → 0 ∉ m.arrived → m.total = m.expected → 0 < m.expected → m.expected < size k →
      Change size t m { m.reinit (size k) with threadsUsed := size k }
  | shrink (k total : ℕ) : t = (0,0) → Ahead size m k total total → size k < total →
      Change size t m (m.reinit (size k))
  | total (n : ℕ) : t = (0,0) → 0 ∉ m.arrived → Change size t m { m with total := n }
  | release (k i total : ℕ) : t = (0,0) → Lead size m k total total (size k) 0 i → 0 < i → i < size k →
      i < used size k → Change size t m { m with fn := Function.update m.fn (m.threads i) (some k) }
  | launch (k i total : ℕ) : t = (0,0) → Lead size m k total total (size k) i (size k) → 0 < i → used size k ≤ i →
      i < size k → i < total → Change size t m { m with created := Function.update m.created (k,i) true }

theorem Common.not_full (h : 0 ∉ m.arrived) (hpos : 0 < m.expected) : ¬m.Full := by
  intro hfull
  rw [hfull] at h
  exact h (Finset.mem_range.mpr hpos)

theorem Common.card_lt (hc : Common size m) (h : ¬m.Full) : m.arrived.card < m.expected := by
  have hlt := Finset.card_lt_card (Finset.ssubset_iff_subset_ne.mpr ⟨hc.arrived,h⟩)
  rwa [Finset.card_range] at hlt

/-- An atomic addition of an unsigned difference to the count. -/
theorem reinit_awaited {awaited card expected total count : ℕ} (hsum : awaited + card = expected)
    (htotal : total = expected) (hcard : card < count) (hcount : count < 2 ^ 32) (hbound : expected < 2 ^ 32) :
    uint (awaited + usub count total) + card = count := by
  unfold usub uint
  omega

theorem arrive_awaited {awaited card expected : ℕ} (hsum : awaited + card = expected) (hcard : card < expected)
    (hbound : expected < 2 ^ 32) : usub awaited 1 + (card + 1) = expected := by
  unfold usub uint
  omega

theorem Common.arrive_count (hc : Common size m) (hnew : t.2 ∉ m.arrived) (hlt : t.2 < m.expected) :
    (m.arrive t).awaited + (m.arrive t).arrived.card = m.expected := by
  have hnot : ¬m.Full := by
    intro hfull
    rw [hfull] at hnew
    exact hnew (Finset.mem_range.mpr hlt)
  change usub m.awaited 1 + (insert t.2 m.arrived).card = m.expected
  rw [Finset.card_insert_of_notMem hnew]
  exact arrive_awaited (hc.count hnot) (hc.card_lt hnot) hc.bound


/-- The occupants of two places are two threads. -/
theorem Live.place_ne (ht : t = (0,0) ∨ Live size t m) (hu : Live size u m) (hut : u ≠ t) : u.2 ≠ t.2 := by
  intro hplace
  obtain rfl | ht := ht
  · have := hu.place
    omega
  · exact hut (Prod.ext (by rw [hu.born, ht.born, hplace]) hplace)

/-- A thread that has been let go and has to leave is no occupant any more. -/
theorem Released.gone {stop : Stop} {p k i : ℕ} (h : Released size stop t m p) (hgone : ¬t.2 < size p) (hk : p < k) :
    t ≠ (maker size k i,i) := by
  rintro rfl
  have hlt : p < maker size k i := maker_of_gone (Nat.not_lt.mp hgone) hk
  have hle : maker size k i ≤ p := h.born.trans_le (maker_le p i)
  omega

theorem Live.maker_member (h : Live size t m) {p : ℕ} (hp : m.phase = p + 1) (hlt : t.2 < size p) :
    t.1 = maker size p t.2 := by
  rw [h.born, hp, maker_of_lt hlt]

theorem Change.common (hsize : ∀ k, 0 < size k ∧ size k < 2 ^ 32) (hc : Common size m) (h : Change size t m m') :
    Common size m' := by
  cases h with
  | same => exact hc
  | arrive hnew hlt hwho =>
    refine { hc with
      arrived := ?_
      count := fun _ => hc.arrive_count hnew hlt
      opened := fun h0 => ?_
      latest := fun _ => ⟨Finset.mem_insert_self .., ?_⟩
      seated := fun i hi hpos => ?_ }
    · exact Finset.insert_subset (Finset.mem_range.mpr hlt) hc.arrived
    · obtain ⟨-,hopened⟩ | ⟨hhome,-⟩ := hwho
      · exact { hopened with }
      · have hplace := hhome.place
        have h0' : 0 ∈ m.arrived := (Finset.mem_insert.mp h0).resolve_left (by omega)
        exact { hc.opened h0' with }
    · obtain ⟨rfl,-⟩ | ⟨hhome,-⟩ := hwho
      · exact (maker_zero (fun k => (hsize k).1) m.phase).symm
      · exact hhome.born
    · obtain rfl | hi := Finset.mem_insert.mp hi
      · obtain ⟨rfl,-⟩ | ⟨hhome,hseat⟩ := hwho
        · exact absurd hpos (Nat.lt_irrefl 0)
        · have heq : t = (maker size m.phase t.2,t.2) := Prod.ext hhome.born rfl
          exact ⟨hseat.trans heq,heq ▸ hhome.created⟩
      · exact hc.seated i hi hpos
  | reset hopens =>
    exact { hc with
      count := fun hnot => absurd hopens.full hnot
      opened := fun h0 => { hc.opened h0 with } }
  | clear p hrel =>
    refine { hc with opened := fun h0 => ?_ }
    have hopened := hc.opened h0
    refine { hopened with told := fun i hpos hi hused => ?_ }
    have hne : (maker size m.phase i,i) ≠ t := by
      intro heq
      by_cases hlt : t.2 < size p
      · -- a member of the region has not ended it, but all of them had when the master came
        obtain ⟨hmember,-⟩ := hrel.member hlt
        exact hmember.ended (hopened.left p hmember.phase t.2 hlt)
      · exact hrel.gone hlt hrel.before heq.symm
    dsimp only
    rw [Function.update_of_ne hne]
    exact hopened.told i hpos hi hused
  | ran k hnot hk hlt hborn =>
    refine { hc with opened := fun h0 => ?_, ended := fun p i hi => ?_, ran := fun u p hu => ?_, once := ?_ }
    · exact { hc.opened h0 with }
    · obtain ⟨hp,hi',hran⟩ := hc.ended p i hi
      exact ⟨hp,hi',List.mem_append_left _ hran⟩
    · obtain hu | hu := List.mem_append.mp hu
      · exact hc.ran u p hu
      · obtain ⟨rfl,rfl⟩ := Prod.mk.inj (List.mem_singleton.mp hu)
        exact ⟨hk,hlt,hborn⟩
    · rw [List.nodup_append_comm]
      exact List.nodup_cons.mpr ⟨hnot,hc.once⟩
  | ended k hphase hran hwho =>
    have hmono : ∀ p i, i ∈ m.ended p → i ∈ Function.update m.ended k (insert t.2 (m.ended k)) p := by
      intro p i hi
      by_cases hp : p = k
      · subst hp
        simpa using Or.inr hi
      · rwa [Function.update_of_ne hp]
    refine { hc with
      opened := fun h0 => ?_
      ended := fun p i hi => ?_
      past := fun p hp i hi => hmono p i (hc.past p hp i hi) }
    · have hopened := hc.opened h0
      exact { hopened with left := fun p hp i hi => hmono p i (hopened.left p hp i hi) }
    · by_cases hp : p = k
      · subst hp
        dsimp only at hi ⊢
        rw [Function.update_self] at hi
        obtain rfl | hi := Finset.mem_insert.mp hi
        · obtain ⟨hlt,hsz,hborn⟩ := hc.ran t p hran
          exact ⟨hlt,hsz,hborn ▸ hran⟩
        · exact hc.ended p i hi
      · dsimp only at hi ⊢
        rw [Function.update_of_ne hp] at hi
        exact hc.ended p i hi
  | register hlive hused hnew =>
    refine { hc with opened := fun h0 => ?_, seated := fun i hi hpos => ?_, members := fun p hp i hpos hi => ?_ }
    · exact { hc.opened h0 with }
    · have hne : i ≠ t.2 := by
        rintro rfl
        exact hnew hi
      dsimp only
      rw [Function.update_of_ne hne]
      exact hc.seated i hi hpos
    · have hne : i ≠ t.2 := by
        rintro rfl
        rw [hp] at hused
        exact absurd hi (Nat.not_lt.mpr hused)
      dsimp only
      rw [Function.update_of_ne hne]
      exact hc.members p hp i hpos hi
  | threadsUsed n ht =>
    exact { hc with
      opened := fun h0 => { hc.opened h0 with } }
  | first ht hphase hexp =>
    have hempty : m.arrived = ∅ := by
      have hsub := hc.arrived
      rwa [hexp, Finset.range_zero, Finset.subset_empty] at hsub
    refine { hc with generation := ?_, arrived := ?_, count := ?_, bound := (hsize 0).2, opened := ?_, latest := ?_ }
    · have hgen : uint (8 * 0) = 0 := by
        unfold uint
        rfl
      dsimp only
      rw [hphase, hgen]
    · simp [hempty]
    · simp [hempty]
    · simp [hempty]
    · simp [hempty]
  | grow k ht h0 htotal hpos hlt =>
    have hnot := Common.not_full h0 hpos
    have hcard := hc.card_lt hnot
    refine { hc with arrived := ?_, count := fun _ => ?_, bound := (hsize k).2, opened := fun h => absurd h h0 }
    · exact hc.arrived.trans (Finset.range_subset_range.mpr hlt.le)
    · exact reinit_awaited (hc.count hnot) htotal (hcard.trans hlt) (hsize k).2 hc.bound
  | shrink k total ht hahead hlt =>
    have hpos : 0 < m.expected := by
      rw [hahead.expected]
      omega
    have hnot := Common.not_full hahead.arrived hpos
    have hsub : m.arrived ⊆ Finset.range (size k) := by
      intro i hi
      rw [Finset.mem_range]
      by_contra hge
      have hi0 : 0 < i := Nat.pos_of_ne_zero fun h => hahead.arrived (h ▸ hi)
      -- only a thread of the next region could have such a place, and none is made yet
      have hmade := (hc.seated i hi hi0).2
      rw [hahead.phase, maker_of_used_le (Nat.not_lt.mp hge), hahead.made i] at hmade
      cases hmade
    have hcard : m.arrived.card < size k := by
      have hss : m.arrived ⊂ Finset.range (size k) := by
        refine Finset.ssubset_iff_subset_ne.mpr ⟨hsub,fun heq => hahead.arrived ?_⟩
        rw [heq]
        exact Finset.mem_range.mpr (hsize k).1
      simpa using Finset.card_lt_card hss
    refine { hc with
      arrived := hsub
      count := fun _ => ?_
      bound := (hsize k).2
      opened := fun h => absurd h hahead.arrived }
    exact reinit_awaited (hc.count hnot) (hahead.total.trans hahead.expected.symm) hcard (hsize k).2 hc.bound
  | total n ht h0 => exact { hc with opened := fun h => absurd h h0 }
  | release k i total ht hlead hpos hi hused => exact { hc with opened := fun h => absurd h hlead.arrived }
  | launch k i total ht hlead hpos hused hi hlt =>
    have hmono : ∀ u, m.created u = true → Function.update m.created (k,i) true u = true := by
      intro u hu
      by_cases hne : u = (k,i)
      · simp [hne]
      · rwa [Function.update_of_ne hne]
    refine { hc with
      opened := fun h => absurd h hlead.arrived
      seated := fun j hj hj0 => ?_
      members := fun p hp j hj0 hj => ?_
      future := fun r j hr => ?_ }
    · exact ⟨(hc.seated j hj hj0).1,hmono _ (hc.seated j hj hj0).2⟩
    · exact ⟨(hc.members p hp j hj0 hj).1,hmono _ (hc.members p hp j hj0 hj).2⟩
    · have hne : (r,j) ≠ (k,i) := by
        intro heq
        have hphase := hlead.phase
        obtain ⟨rfl,-⟩ := Prod.mk.inj heq
        exact absurd hr (Nat.not_lt.mpr hphase.ge)
      dsimp only
      rw [Function.update_of_ne hne]
      exact hc.future r j hr

theorem Change.live (h : Change size t m m') (hu : Live size u m) : Live size u m' := by
  cases h with
  | same | arrive | reset | clear | ran | ended | register | threadsUsed | total | release =>
    exact ⟨hu.place,hu.born,hu.expected,hu.created⟩
  | first ht hphase hexp =>
    have hlt := hu.expected
    omega
  | grow k ht h0 htotal hpos hlt => exact ⟨hu.place,hu.born,hu.expected.trans hlt,hu.created⟩
  | shrink k total ht hahead hlt =>
    refine ⟨hu.place,hu.born,?_,hu.created⟩
    by_contra hge
    -- the thread would be one of the region after, and none of these is made yet
    have hborn := hu.born
    rw [hahead.phase, maker_of_used_le (Nat.not_lt.mp hge)] at hborn
    have hmade := hu.created
    rw [show u = (k + 1,u.2) from Prod.ext hborn rfl, hahead.made u.2] at hmade
    cases hmade
  | launch k i total ht hlead hpos hused hi hlt =>
    refine ⟨hu.place,hu.born,hu.expected,?_⟩
    by_cases hne : u = (k,i)
    · simp [hne]
    · dsimp only
      rw [Function.update_of_ne hne]
      exact hu.created

/-- Who is in `ended` stays there. -/
theorem Change.ended_mono (h : Change size t m m') {p i : ℕ} (hi : i ∈ m.ended p) : i ∈ m'.ended p := by
  cases h with
  | ended k hphase hran hwho =>
    by_cases hp : p = k
    · subst hp
      simpa using Or.inr hi
    · simpa [Function.update_of_ne hp] using hi
  | _ => exact hi

theorem Change.phase (h : Change size t m m') : m'.phase = m.phase := by
  cases h <;> rfl

/-- The threads that are kept have their places in the pool. -/
theorem Common.kept (hc : Common size m) {i : ℕ} (hpos : 0 < i) (hused : i < used size m.phase) :
    m.threads i = (maker size m.phase i,i) ∧ m.created (maker size m.phase i,i) = true := by
  cases hphase : m.phase with
  | zero =>
    rw [hphase] at hused
    exact absurd hused (Nat.not_lt_zero i)
  | succ p =>
    rw [hphase] at hused
    have hlt : i < size p := hused
    rw [maker_of_lt hlt]
    exact hc.members p hphase i hpos hlt

theorem Change.home (hc : Common size m) (h : Change size t m m') (hut : u ≠ t) (hu : Home size u m) :
    Home size u m' := by
  refine { h.live hu.toLive with fn := ?_, ended := fun p hp hlt => h.ended_mono (hu.ended p (h.phase ▸ hp) hlt) }
  cases h with
  | clear p hrel =>
    dsimp only
    rw [Function.update_of_ne hut]
    exact hu.fn
  | release k i total ht hlead hpos hi hused =>
    have hphase := hlead.phase
    subst hphase
    rw [(hc.kept hpos hused).1]
    by_cases hne : u = (maker size m.phase i,i)
    · subst hne
      dsimp only
      rw [Function.update_self]
      exact Or.inr ⟨rfl,hi,hused⟩
    · dsimp only
      rw [Function.update_of_ne hne]
      exact hu.fn
  | _ => exact hu.fn

theorem Change.member (h : Change size t m m') (hut : u ≠ t) {p : ℕ} (hu : Member size u m p) :
    Member size u m' p := by
  have hplace : (t = (0,0) ∨ Live size t m) → u.2 ≠ t.2 := fun ht => Live.place_ne ht hu.toLive hut
  refine { h.live hu.toLive with
    phase := h.phase.trans hu.phase, lt := hu.lt, arrived := ?_, ended := ?_, seated := ?_ }
  · cases h with
    | arrive hnew hlt hwho =>
      have hne := hplace (hwho.imp And.left fun hw => hw.1.toLive)
      exact fun hmem => hu.arrived ((Finset.mem_insert.mp hmem).resolve_left hne)
    | _ => exact hu.arrived
  · cases h with
    | ended k hphase hran hwho =>
      have hne := hplace hwho
      obtain rfl : p = k := Nat.succ.inj (hu.phase.symm.trans hphase)
      dsimp only
      rw [Function.update_self]
      exact fun hmem => hu.ended ((Finset.mem_insert.mp hmem).resolve_left hne)
    | _ => exact hu.ended
  · cases h with
    | register hlive hused hnew =>
      dsimp only
      rw [Function.update_of_ne (hplace (Or.inr hlive))]
      exact hu.seated
    | _ => exact hu.seated

/-- Only a thread that is at home gets a function from the master. -/
theorem Change.fn_eq (hc : Common size m) (h : Change size t m m') (hut : u ≠ t)
    (hu : ∀ i, 0 < i → i < size m.phase → i < used size m.phase → (∀ p, m.phase = p + 1 → ∀ i < size p, i ∈ m.ended p) →
      u ≠ (maker size m.phase i,i)) : m'.fn u = m.fn u := by
  cases h with
  | clear p hrel =>
    dsimp only
    rw [Function.update_of_ne hut]
  | release k i total ht hlead hpos hi hused =>
    dsimp only
    have hphase := hlead.phase
    subst hphase
    rw [(hc.kept hpos hused).1]
    exact Function.update_of_ne (hu i hpos hi hused hlead.left) ..
  | _ => rfl

theorem Change.ran_iff (h : Change size t m m') (hut : u ≠ t) (p : ℕ) : (u,p) ∈ m'.ran ↔ (u,p) ∈ m.ran := by
  cases h with
  | ran k hnot hk hlt hborn => simp [hut]
  | _ => exact Iff.rfl

theorem Change.inside (hc : Common size m) (h : Change size t m m') (hut : u ≠ t) {k : ℕ} (hu : Inside size u m k) :
    Inside size u m' k := by
  refine { h.member hut hu.toMember with fn := (h.fn_eq hc hut ?_).trans hu.fn }
  rintro i - - - hleft -
  exact hu.ended (hleft k hu.phase u.2 hu.lt)

theorem Change.released (hc : Common size m) (h : Change size t m m') (hut : u ≠ t) {stop : Stop} {p : ℕ}
    (hu : Released size stop u m p) : Released size stop u m' p := by
  refine { hu with
    before := h.phase ▸ hu.before, fn := (h.fn_eq hc hut ?_).trans hu.fn
    member := fun hlt => ⟨h.member hut (hu.member hlt).1,fun hran => (hu.member hlt).2 ((h.ran_iff hut p).mp hran)⟩ }
  intro i hpos hi hused hleft
  by_cases hlt : u.2 < size p
  · have hmember := (hu.member hlt).1
    exact absurd (hleft p hmember.phase u.2 hlt) hmember.ended
  · exact hu.gone hlt hu.before

theorem Mem.Opens.pos (h : m.Opens t) : 0 < m.expected := by
  have h0 := h.master
  rw [h.full] at h0
  exact Finset.mem_range.mp h0

theorem Change.opens (h : Change size t m m') (hut : u ≠ t) (hu : m.Opens u) :
    m'.Opens u ∧ (m.awaited = m.expected → m'.awaited = m'.expected) := by
  have hnot : 0 ∉ m.arrived → False := fun h0 => h0 hu.master
  cases h with
  | arrive hnew hlt hwho =>
    rw [hu.full] at hnew
    exact absurd (Finset.mem_range.mpr hlt) hnew
  | reset hopens => exact absurd (hu.last.symm.trans hopens.last) hut
  | first ht hphase hexp =>
    have hpos := hu.pos
    omega
  | grow k ht h0 htotal hpos hlt => exact (hnot h0).elim
  | shrink k total ht hahead hlt => exact (hnot hahead.arrived).elim
  | same | clear | ran | ended | register | threadsUsed | total | release | launch =>
    exact ⟨⟨hu.full,hu.last,hu.master⟩,id⟩

theorem Change.not_opens (hc : Common size m) (h : Change size t m m') (hut : u ≠ t) (hu : ¬m.Opens u) :
    ¬m'.Opens u := by
  intro ho
  cases h with
  | arrive => exact hut ho.last.symm
  | first ht hphase hexp =>
    have hmem := hc.arrived ho.master
    rw [hexp] at hmem
    exact absurd (Finset.mem_range.mp hmem) (Nat.lt_irrefl 0)
  | grow k ht h0 htotal hpos hlt => exact h0 ho.master
  | shrink k total ht hahead hlt => exact hahead.arrived ho.master
  | _ => exact hu ⟨ho.full,ho.last,ho.master⟩

theorem Change.generation (hc : Common size m) (h : Change size t m m') : m'.generation = m.generation := by
  cases h with
  | first ht hphase hexp =>
    rw [hc.generation, hphase]
    unfold uint
    rfl
  | _ => rfl

theorem Change.arrived_mono (h : Change size t m m') {i : ℕ} (hi : i ∈ m.arrived) : i ∈ m'.arrived := by
  cases h with
  | arrive => exact Finset.mem_insert_of_mem hi
  | _ => exact hi

theorem Change.lead (h : Change size t m m') (ht : t ≠ (0,0)) {k total expected n lo hi : ℕ}
    (hu : Lead size m k total expected n lo hi) : Lead size m' k total expected n lo hi := by
  cases h with
  | first ht0 | grow _ ht0 | shrink _ _ ht0 | total _ ht0 | threadsUsed _ ht0 | release _ _ _ ht0 | launch _ _ _ ht0 =>
    exact absurd ht0 ht
  | same | reset | ran | register => exact { hu with }
  | arrive hnew hlt hwho =>
    have hplace := (hwho.resolve_left fun h => ht h.1).1.place
    refine { hu with arrived := fun h0 => ?_ }
    exact hu.arrived ((Finset.mem_insert.mp h0).resolve_left hplace.ne)
  | clear p hrel =>
    refine { hu with told := fun i hpos hi hsz hused => ?_ }
    have hne : (maker size k i,i) ≠ t := by
      intro heq
      by_cases hlt : t.2 < size p
      · obtain ⟨hmember,-⟩ := hrel.member hlt
        exact hmember.ended (hu.left p (hu.phase.symm.trans hmember.phase) t.2 hlt)
      · exact hrel.gone hlt (hu.phase ▸ hrel.before) heq.symm
    dsimp only
    rw [Function.update_of_ne hne]
    exact hu.told i hpos hi hsz hused
  | ended p hphase hran hwho =>
    refine { hu with left := fun q hq i hi => ?_ }
    exact (Change.ended p hphase hran hwho).ended_mono (hu.left q hq i hi)

theorem Change.ahead (h : Change size t m m') (ht : t ≠ (0,0)) {k total expected : ℕ}
    (hu : Ahead size m k total expected) : Ahead size m' k total expected := by
  cases h with
  | first ht0 | grow _ ht0 | shrink _ _ ht0 | total _ ht0 | threadsUsed _ ht0 | release _ _ _ ht0 | launch _ _ _ ht0 =>
    exact absurd ht0 ht
  | same | reset | ran | register | clear | ended => exact { hu with }
  | arrive hnew hlt hwho =>
    have hplace := (hwho.resolve_left fun h => ht h.1).1.place
    refine { hu with arrived := fun h0 => ?_ }
    exact hu.arrived ((Finset.mem_insert.mp h0).resolve_left hplace.ne)

theorem Change.seat (h : Change size t m m') (hut : u ≠ t) (hu : Live size u m) :
    (m.threads u.2 = u → m'.threads u.2 = u) ∧ (u.2 ∉ m.arrived → u.2 ∉ m'.arrived) := by
  cases h with
  | arrive hnew hlt hwho =>
    have hne : u.2 ≠ t.2 := Live.place_ne (hwho.imp And.left fun hw => hw.1.toLive) hu hut
    exact ⟨id,fun hnot hmem => hnot ((Finset.mem_insert.mp hmem).resolve_left hne)⟩
  | register hlive hused hnew =>
    refine ⟨fun hseat => ?_,id⟩
    dsimp only
    rw [Function.update_of_ne (Live.place_ne (Or.inr hlive) hu hut)]
    exact hseat
  | _ => exact ⟨id,id⟩

theorem Change.threadsUsed_eq (h : Change size t m m') (ht : t ≠ (0,0)) : m'.threadsUsed = m.threadsUsed := by
  cases h with
  | first ht0 | grow _ ht0 | threadsUsed _ ht0 => exact absurd ht0 ht
  | _ => rfl

theorem Change.comes (hc : Common size m) (h : Change size t m m') (hut : u ≠ t) {stop : Stop}
    (hu : Comes size u m stop) : Comes size u m' stop := by
  have hworker : Home size u m ∧ Side size u m.phase stop ∧ u.2 ∉ m.arrived ∧ m.threads u.2 = u →
      Home size u m' ∧ Side size u m'.phase stop ∧ u.2 ∉ m'.arrived ∧ m'.threads u.2 = u := by
    rintro ⟨hhome,hside,hnew,hseat⟩
    have hs := h.seat hut hhome.toLive
    exact ⟨h.home hc hut hhome,h.phase.symm ▸ hside,hs.2 hnew,hs.1 hseat⟩
  cases stop with
  | start k old => exact ⟨hu.1,hu.2.1,h.lead (fun ht => hut (hu.1.trans ht.symm)) hu.2.2⟩
  | first => exact hworker hu
  | again => exact hworker hu

theorem Change.waits (hc : Common size m) (h : Change size t m m') (hut : u ≠ t) {stop : Stop}
    (hu : Waits size u m stop) : Waits size u m' stop := by
  have hworker : Home size u m ∧ Side size u m.phase stop → Home size u m' ∧ Side size u m'.phase stop :=
    fun hw => ⟨h.home hc hut hw.1,h.phase.symm ▸ hw.2⟩
  cases stop with
  | start k old =>
    obtain ⟨hz,hold,hphase,hused⟩ := hu
    exact ⟨hz,hold,h.phase.trans hphase,(h.threadsUsed_eq fun ht => hut (hz.trans ht.symm)).trans hused⟩
  | first => exact hworker hu
  | again => exact hworker hu

theorem Change.passed (hc : Common size m) (h : Change size t m m') (hut : u ≠ t) {stop : Stop}
    (hu : Passed size u m stop) : Passed size u m' stop := by
  have hworker : (∃ p, Released size stop u m p) → ∃ p, Released size stop u m' p :=
    fun ⟨p,hp⟩ => ⟨p,h.released hc hut hp⟩
  cases stop with
  | start k old =>
    obtain ⟨hz,hold,hahead,hnot⟩ := hu
    exact ⟨hz,hold,h.ahead (fun ht => hut (hz.trans ht.symm)) hahead,mt (h.ran_iff hut k).mp hnot⟩
  | first => exact hworker hu
  | again => exact hworker hu

theorem Change.knowsBar (hc : Common size m) (h : Change size t m m') (hut : u ≠ t) {stop : Stop} {b : Bar}
    (hu : KnowsBar size u m stop b) : KnowsBar size u m' stop b := by
  have hgen := (h.generation hc).symm
  have hwait : ∀ state,
      Waits size u m stop ∧ u.2 ∈ m.arrived ∧ state = m.generation ∧ ¬m.Opens u ∨
        Passed size u m stop ∧ (u.1 = maker size m.phase u.2 → state ≠ m.generation) →
      Waits size u m' stop ∧ u.2 ∈ m'.arrived ∧ state = m'.generation ∧ ¬m'.Opens u ∨
        Passed size u m' stop ∧ (u.1 = maker size m'.phase u.2 → state ≠ m'.generation) := by
    rintro state (⟨hwaits,hmem,heq,hnot⟩ | ⟨hpassed,hne⟩)
    · exact Or.inl ⟨h.waits hc hut hwaits,h.arrived_mono hmem,heq.trans hgen,h.not_opens hc hut hnot⟩
    · rw [h.phase, ← hgen]
      exact Or.inr ⟨h.passed hc hut hpassed,hne⟩
  cases b with
  | load => exact h.comes hc hut hu
  | arrive state => exact ⟨h.comes hc hut hu.1,hu.2.trans hgen⟩
  | reset => exact ⟨h.waits hc hut hu.1,(h.opens hut hu.2).1⟩
  | read =>
    have ho := h.opens hut hu.2.1
    exact ⟨h.waits hc hut hu.1,ho.1,ho.2 hu.2.2⟩
  | store generation =>
    have ho := h.opens hut hu.2.1
    exact ⟨h.waits hc hut hu.1,ho.1,ho.2 hu.2.2.1,hu.2.2.2.trans hgen⟩
  | wake => exact h.passed hc hut hu
  | spin state i => exact hwait state hu
  | sleep state => exact hwait state hu
  | recheck state => exact hwait state hu

/-- What a thread knows stays true when others act. -/
theorem Change.knows (hc : Common size m) (h : Change size t m m') (hut : u ≠ t) {q : Pc} (hu : Knows size u q m) :
    Knows size u q m' := by
  have hphase := h.phase
  have hmaster : u = (0,0) → t ≠ (0,0) := fun heq ht => hut (heq.trans ht.symm)
  have hran := h.ran_iff hut
  cases q with
  | begin k => exact ⟨hu.1,h.lead (hmaster hu.1) hu.2⟩
  | grow k old => exact ⟨hu.1,hu.2.1,hu.2.2.1,h.lead (hmaster hu.1) hu.2.2.2⟩
  | release k old i => exact ⟨hu.1,hu.2.1,hu.2.2.1,hu.2.2.2.1,hu.2.2.2.2.1,h.lead (hmaster hu.1) hu.2.2.2.2.2⟩
  | launch k old i =>
    obtain ⟨hz,hold,hpos,hle,hused,hlead⟩ := hu
    exact ⟨hz,hold,hpos,hle,hused,h.lead (hmaster hz) hlead⟩
  | shrink k old =>
    obtain ⟨hz,hold,hlt,hahead,hnot⟩ := hu
    exact ⟨hz,hold,hlt,h.ahead (hmaster hz) hahead,mt (hran k).mp hnot⟩
  | shrunk k => exact ⟨hu.1,h.ahead (hmaster hu.1) hu.2.1,mt (hran k).mp hu.2.2⟩
  | unborn =>
    obtain ⟨hplace,hfn,hcreated⟩ := hu
    by_cases hnew : m.created u = true
    · obtain ⟨hhome,hused,harrived⟩ := hcreated hnew
      obtain ⟨-,harrived'⟩ := h.seat hut hhome.toLive
      refine ⟨hplace,?_,fun _ => ⟨h.home hc hut hhome,hphase.symm ▸ hused,harrived' harrived⟩⟩
      refine (h.fn_eq hc hut ?_).trans hfn
      rintro i - - hi - rfl
      exact absurd hused (Nat.not_le.mpr hi)
    · refine ⟨hplace,(h.fn_eq hc hut ?_).trans hfn,fun hnew' => ?_⟩
      · rintro i hpos - hused - rfl
        exact hnew (hc.kept hpos hused).2
      · cases h with
        | launch k i total ht hlead hpos hused hi hlt =>
          have heq : u = (k,i) := by
            by_contra hne
            dsimp only at hnew'
            rw [Function.update_of_ne hne] at hnew'
            exact hnew hnew'
          subst heq
          obtain ⟨hk,-,-,hexpected,-,-,-,-⟩ := hlead
          subst hk
          have hlive : Live size (m.phase,i) { m with created := Function.update m.created (m.phase,i) true } :=
            ⟨hpos,(maker_of_used_le hused).symm,hlt.trans_eq hexpected.symm,hnew'⟩
          refine ⟨{ hlive with fn := Or.inl hfn, ended := ?_ },hused,fun hmem => ?_⟩
          · intro p hp hlt'
            rw [hp] at hused
            exact absurd hlt' (Nat.not_lt.mpr hused)
          · have hseated := (hc.seated i hmem hpos).2
            rw [maker_of_used_le hused] at hseated
            exact hnew hseated
        | _ => exact absurd hnew' hnew
  | register =>
    obtain ⟨hhome,hused,harrived⟩ := hu
    obtain ⟨-,harrived'⟩ := h.seat hut hhome.toLive
    exact ⟨h.home hc hut hhome,hphase.symm ▸ hused,harrived' harrived⟩
  | fetch =>
    obtain ⟨p,hp⟩ := hu
    exact ⟨p,h.released hc hut hp⟩
  | clear localFn =>
    obtain ⟨p,hp,hfn⟩ := hu
    have hp' := h.released hc hut hp
    exact ⟨p,hp',hfn.trans (hp.fn.trans hp'.fn.symm)⟩
  | bar stop b => exact h.knowsBar hc hut hu
  | run k =>
    exact ⟨mt (hran k).mp hu.1,hu.2.imp (fun hw => ⟨hw.1,h.ahead (hmaster hw.1) hw.2⟩) fun hw => h.inside hc hut hw⟩
  | final k =>
    exact ⟨(hran k).mpr hu.1,hu.2.imp (fun hw => ⟨hw.1,h.ahead (hmaster hw.1) hw.2⟩) fun hw => h.inside hc hut hw⟩
  | finish k =>
    obtain ⟨hphase',hmine,hwho⟩ := hu
    refine ⟨hphase.trans hphase',h.ended_mono hmine,
      hwho.imp (fun hw => ⟨hw.1,h.ahead (hmaster hw.1) hw.2⟩) fun hw => ?_⟩
    obtain ⟨hhome,hlt,harrived,hseat⟩ := hw
    obtain ⟨hseat',harrived'⟩ := h.seat hut hhome.toLive
    exact ⟨h.home hc hut hhome,hlt,harrived' harrived,hseat' hseat⟩
  | done =>
    obtain hz | ⟨p,hp,hrest⟩ := hu
    · exact Or.inl hz
    · exact Or.inr ⟨p,hphase ▸ hp,hrest⟩

/-! ## The opening of the dock -/

theorem Mem.Opens.arrived (h : m.Opens t) {i : ℕ} (hi : i < m.expected) : i ∈ m.arrived := by
  rw [h.full]
  exact Finset.mem_range.mpr hi

theorem Mem.Opens.common (hc : Common size m) (ho : m.Opens t) (hawaited : m.awaited = m.expected) :
    Common size (m.open m.generation) := by
  have hopened := hc.opened ho.master
  refine ⟨?_,Finset.empty_subset _,fun _ => hawaited,hc.bound,fun h0 => ?_,
    fun hne => absurd hne Finset.not_nonempty_empty,fun i hi => ?_,fun p hp i hpos hi => ?_,
    fun p i hi => ?_,fun u p hu => ?_,hc.once,fun p hp => ?_,fun r i hr => ?_⟩
  · change uint (m.generation + 8) = uint (8 * (m.phase + 1))
    rw [hc.generation]
    unfold uint
    omega
  · exact absurd h0 (Finset.notMem_empty 0)
  · exact absurd hi (Finset.notMem_empty i)
  · obtain rfl : m.phase = p := Nat.succ.inj hp
    refine hc.seated i (ho.arrived ?_) hpos
    rw [hopened.expected]
    exact hi.trans_le (Nat.le_max_left ..)
  · obtain ⟨hlt,hrest⟩ := hc.ended p i hi
    exact ⟨Nat.lt_succ_of_lt hlt,hrest⟩
  · obtain ⟨hlt,hrest⟩ := hc.ran u p hu
    exact ⟨Nat.lt_succ_of_lt hlt,hrest⟩
  · obtain hlt | heq := Nat.lt_or_eq_of_le (Nat.le_of_lt_succ hp)
    · exact hc.past p hlt
    · exact hopened.left p heq.symm
  · exact hc.future r i (Nat.lt_of_succ_lt hr)

/-- What the opening means for a worker that waits for it. -/
theorem Home.released (hc : Common size m) (ho : m.Opens t) (hu : Home size u m) {stop : Stop}
    (hside : Side size u m.phase stop) : Released size stop u (m.open m.generation) m.phase := by
  have hopened := hc.opened ho.master
  have heq : u = (maker size m.phase u.2,u.2) := Prod.ext hu.born rfl
  have hpresent : u.2 < size m.phase ∨ u.2 < used size m.phase := by
    have hlt := hu.expected
    rw [hopened.expected] at hlt
    exact lt_max_iff.mp hlt
  refine ⟨hu.place,hu.born,Nat.lt_succ_self _,hside,fun hfirst => ?_,?_,
    fun hlt => ⟨⟨⟨hu.place,?_,hu.expected,hu.created⟩,rfl,hlt,Finset.notMem_empty _,fun hend => ?_,?_⟩,fun hran => ?_⟩⟩
  · subst hfirst
    exact hpresent.resolve_right (Nat.not_lt.mpr hside)
  · change m.fn u = _
    cases stop with
    | start k old => exact hside.elim
    | first =>
      obtain hfn | ⟨-,-,hlt⟩ := hu.fn
      · rw [hfn, if_neg]
        exact fun h => by cases h.1
      · exact absurd hlt (Nat.not_lt.mpr hside)
    | again =>
      by_cases hlt : u.2 < size m.phase
      · rw [if_pos ⟨rfl,hlt⟩, heq]
        exact hopened.told u.2 hu.place hlt hside
      · rw [if_neg fun h => hlt h.2]
        exact hu.fn.resolve_right fun h => hlt h.2.1
  · change u.1 = maker size (m.phase + 1) u.2
    rw [maker_of_lt hlt]
    exact hu.born
  · exact absurd (hc.ended _ _ hend).1 (Nat.lt_irrefl _)
  · exact (hc.seated u.2 (ho.arrived hu.expected) hu.place).1.trans heq.symm
  · exact absurd (hc.ran _ _ hran).1 (Nat.lt_irrefl _)

theorem Mem.Opens.ahead (hc : Common size m) (ho : m.Opens t) (hused : m.threadsUsed = size m.phase) :
    Ahead size (m.open m.generation) m.phase (present size m.phase) (present size m.phase) ∧ (u,m.phase) ∉ m.ran := by
  have hopened := hc.opened ho.master
  have htotal := hopened.total.trans hopened.expected
  refine ⟨⟨rfl,Finset.notMem_empty 0,htotal,hopened.expected,hused,fun i => ?_⟩,fun hran => ?_⟩
  · exact hc.future (m.phase + 1) i (Nat.lt_succ_self _)
  · exact absurd (hc.ran _ _ hran).1 (Nat.lt_irrefl _)

/-- A worker that was let go before has left its place. -/
theorem Released.later (ho : m.Opens t) {stop : Stop} {p : ℕ} (hu : Released size stop u m p) :
    Released size stop u (m.open m.generation) p := by
  refine { hu with before := Nat.lt_succ_of_lt hu.before, member := fun hlt => ?_ }
  have hmember := (hu.member hlt).1
  exact absurd (ho.arrived hmember.expected) hmember.arrived

theorem Comes.not_opens {stop : Stop} (hu : Comes size u m stop) : ¬m.Opens t := by
  intro ho
  cases stop with
  | start k old => exact hu.2.2.arrived ho.master
  | first => exact hu.2.2.1 (ho.arrived hu.1.expected)
  | again => exact hu.2.2.1 (ho.arrived hu.1.expected)

/-- The opening lets all that wait go on. -/
theorem Waits.passed (hc : Common size m) (ho : m.Opens t) {stop : Stop} (hu : Waits size u m stop) :
    Passed size u (m.open m.generation) stop := by
  cases stop with
  | start k old =>
    obtain ⟨hz,hold,rfl,hused⟩ := hu
    exact ⟨hz,hold,ho.ahead hc hused⟩
  | first => exact ⟨m.phase,hu.1.released hc ho hu.2⟩
  | again => exact ⟨m.phase,hu.1.released hc ho hu.2⟩

theorem Passed.later (ho : m.Opens t) {stop : Stop} (hu : Passed size u m stop) :
    Passed size u (m.open m.generation) stop := by
  have hworker : (∃ p, Released size stop u m p) → ∃ p, Released size stop u (m.open m.generation) p :=
    fun ⟨p,hp⟩ => ⟨p,hp.later ho⟩
  cases stop with
  | start k old => exact absurd ho.master hu.2.2.1.arrived
  | first => exact hworker hu
  | again => exact hworker hu

/-- A thread that has not come to the dock again when it is opened is no occupant of its place any more. -/
theorem Passed.not_born (ho : m.Opens t) {stop : Stop} (hu : Passed size u m stop) :
    u.1 ≠ maker size (m.phase + 1) u.2 := by
  have hworker : (∃ p, Released size stop u m p) → u.1 ≠ maker size (m.phase + 1) u.2 := by
    rintro ⟨p,hp⟩ heq
    by_cases hlt : u.2 < size p
    · have hmember := (hp.member hlt).1
      exact hmember.arrived (ho.arrived hmember.expected)
    · exact hp.gone hlt (Nat.lt_succ_of_lt hp.before) (Prod.ext heq rfl)
  cases stop with
  | start k old => exact absurd ho.master hu.2.2.1.arrived
  | first => exact hworker hu
  | again => exact hworker hu

theorem Common.open_ne (hc : Common size m) : m.generation ≠ (m.open m.generation).generation := by
  change m.generation ≠ uint (m.generation + 8)
  rw [hc.generation]
  unfold uint
  omega

theorem Mem.Opens.knowsBar (hc : Common size m) (ho : m.Opens t) (hut : u ≠ t) {stop : Stop} {b : Bar}
    (hu : KnowsBar size u m stop b) : KnowsBar size u (m.open m.generation) stop b := by
  have hother : ¬m.Opens u := fun hu => hut (hu.last.symm.trans ho.last)
  have hwait : ∀ state,
      Waits size u m stop ∧ u.2 ∈ m.arrived ∧ state = m.generation ∧ ¬m.Opens u ∨
        Passed size u m stop ∧ (u.1 = maker size m.phase u.2 → state ≠ m.generation) →
      Passed size u (m.open m.generation) stop ∧
        (u.1 = maker size (m.phase + 1) u.2 → state ≠ (m.open m.generation).generation) := by
    rintro state (⟨hwaits,-,rfl,-⟩ | ⟨hpassed,-⟩)
    · exact ⟨hwaits.passed hc ho,fun _ => hc.open_ne⟩
    · exact ⟨hpassed.later ho,fun hborn => absurd hborn (hpassed.not_born ho)⟩
  cases b with
  | load => exact absurd ho hu.not_opens
  | arrive state => exact absurd ho hu.1.not_opens
  | reset => exact absurd hu.2 hother
  | read => exact absurd hu.2.1 hother
  | store generation => exact absurd hu.2.1 hother
  | wake => exact hu.later ho
  | spin state i => exact Or.inr (hwait state hu)
  | sleep state => exact Or.inr (hwait state hu)
  | recheck state => exact Or.inr (hwait state hu)

/-- What a thread knows when another one opens the dock: it waits there, has left, or is not made yet. -/
theorem Mem.Opens.knows (hc : Common size m) (ho : m.Opens t) (hut : u ≠ t) {q : Pc} (hu : Knows size u q m) :
    Knows size u q (m.open m.generation) := by
  cases q with
  | begin k => exact absurd ho.master hu.2.arrived
  | grow k old => exact absurd ho.master hu.2.2.2.arrived
  | release k old i => exact absurd ho.master hu.2.2.2.2.2.arrived
  | launch k old i => exact absurd ho.master hu.2.2.2.2.2.arrived
  | shrink k old => exact absurd ho.master hu.2.2.2.1.arrived
  | shrunk k => exact absurd ho.master hu.2.1.arrived
  | unborn =>
    refine ⟨hu.1,hu.2.1,fun hcreated => ?_⟩
    obtain ⟨hhome,-,harrived⟩ := hu.2.2 hcreated
    exact absurd (ho.arrived hhome.expected) harrived
  | register => exact absurd (ho.arrived hu.1.expected) hu.2.2
  | fetch =>
    obtain ⟨p,hp⟩ := hu
    exact ⟨p,hp.later ho⟩
  | clear localFn =>
    obtain ⟨p,hp,hfn⟩ := hu
    exact ⟨p,hp.later ho,hfn⟩
  | bar stop b => exact ho.knowsBar hc hut hu
  | run k =>
    obtain ⟨-,⟨-,hahead⟩ | hinside⟩ := hu
    · exact absurd ho.master hahead.arrived
    · exact absurd (ho.arrived hinside.expected) hinside.arrived
  | final k =>
    obtain ⟨-,⟨-,hahead⟩ | hinside⟩ := hu
    · exact absurd ho.master hahead.arrived
    · exact absurd (ho.arrived hinside.expected) hinside.arrived
  | finish k =>
    obtain ⟨-,-,⟨-,hahead⟩ | ⟨hhome,-,harrived,-⟩⟩ := hu
    · exact absurd ho.master hahead.arrived
    · exact absurd (ho.arrived hhome.expected) harrived
  | done =>
    obtain hz | ⟨p,hp,hrest⟩ := hu
    · exact Or.inl hz
    · exact Or.inr ⟨p,Nat.lt_succ_of_lt hp,hrest⟩

end Changes

end GompUlt.Dock
