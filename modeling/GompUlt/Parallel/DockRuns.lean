import GompUlt.Parallel.DockSteps

/-! # Runs of the dock

Every step of a thread is one of the changes or the opening of the dock.  So in every run the regions are run one
by one, each by its threads, and the dock does not block.
-/
namespace GompUlt.Dock
open Futex Run Wait

/-! ## The steps of a thread -/
section Steps
variable {size : ℕ → ℕ} {v : SpinVars} {t : Tid} {m m' : Mem} {f : ℕ → Mem → Mem × Pc} (input : ℕ)

/-- A step changes the memory or opens the dock. -/
def Acts (size : ℕ → ℕ) (t : Tid) (m m' : Mem) : Prop :=
  Change size t m m' ∨ m.Opens t ∧ m.awaited = m.expected ∧ m' = m.open m.generation

theorem eq_zero_of_used (hsize : ∀ k, 0 < size k) {k : ℕ} (h : used size k = 0) : k = 0 := by
  cases k with
  | zero => rfl
  | succ k => exact absurd h (hsize k).ne'

theorem begin_step (hsize : ∀ k, 0 < size k ∧ size k < 2 ^ 32) {k : ℕ}
    (hf : code size v t (.begin k) = .access f) (hu : Knows size t (.begin k) m) :
    Acts size t m (f input m).1 ∧ Knows size t (f input m).2 (f input m).1 := by
  obtain ⟨ht,hlead⟩ := hu
  obtain rfl := Action.access.inj hf
  have hn := hlead.threadsUsed
  have hpos := (hsize k).1
  dsimp only
  split_ifs with hle hzero
  · have hpresent : present size k = used size k := max_eq_right (hn ▸ hle)
    refine ⟨Or.inl (.threadsUsed (size k) ht),ht,hn,Nat.one_pos,hpos,Or.inl rfl,?_⟩
    rw [hpresent]
    exact { hlead with threadsUsed := rfl, told := fun i hi hlt => by omega }
  · obtain rfl : k = 0 := eq_zero_of_used (fun k => (hsize k).1) (hn.symm.trans hzero)
    have hexp : m.expected = 0 := hlead.expected
    have hpresent : present size 0 = size 0 := max_eq_left (Nat.zero_le _)
    refine ⟨Or.inl (.first ht hlead.phase hexp),ht,hn,Nat.one_pos,hpos,Or.inl rfl,?_⟩
    rw [hpresent]
    exact { hlead with total := rfl, expected := rfl, threadsUsed := rfl, told := fun i hi hlt => by omega }
  · have hlt : used size k < size k := by omega
    have htotal := hlead.total.trans hlead.expected.symm
    have hexp : 0 < m.expected := by
      rw [hlead.expected]
      omega
    refine ⟨Or.inl (.grow k ht hlead.arrived htotal hexp (hlead.expected.trans_lt hlt)),ht,hn,hlt,?_⟩
    exact { hlead with expected := rfl, threadsUsed := rfl }

theorem grow_step {k old : ℕ} (hsize : ∀ k, 0 < size k)
    (hf : code size v t (.grow k old) = .access f) (hu : Knows size t (.grow k old) m) :
    Acts size t m (f input m).1 ∧ Knows size t (f input m).2 (f input m).1 := by
  obtain ⟨ht,hold,hlt,hlead⟩ := hu
  obtain rfl := Action.access.inj hf
  have hpresent : present size k = size k := max_eq_left hlt.le
  refine ⟨Or.inl (.total (size k) ht hlead.arrived),ht,hold,Nat.one_pos,hsize k,Or.inl rfl,?_⟩
  rw [hpresent]
  exact { hlead with total := rfl, told := fun i hi hlt => by omega }

theorem release_step {k old i : ℕ} (hc : Common size m)
    (hf : code size v t (.release k old i) = .access f) (hu : Knows size t (.release k old i) m) :
    Acts size t m (f input m).1 ∧ Knows size t (f input m).2 (f input m).1 := by
  obtain ⟨ht,hold,hpos,hle,hlow,hlead⟩ := hu
  subst hold
  obtain rfl := Action.access.inj hf
  dsimp only
  split_ifs with hi
  · obtain ⟨hsz,hused⟩ := lt_min_iff.mp hi
    have hseat : m.threads i = (maker size k i,i) := by
      have hphase := hlead.phase
      subst hphase
      exact (hc.kept hpos hused).1
    refine ⟨Or.inl (.release k i _ ht hlead hpos hsz hused),ht,rfl,Nat.succ_pos i,hsz,Or.inr hused,
      { hlead with told := ?_ }⟩
    intro j hj hlt hjsz hjused
    dsimp only
    rw [hseat]
    by_cases hji : j = i
    · rw [hji, Function.update_self]
    · rw [Function.update_of_ne fun heq => hji (Prod.mk.inj heq).2]
      exact hlead.told j hj (by omega) hjsz hjused
  · refine ⟨Or.inl .same,ht,rfl,hpos,hle,fun hlt => ?_,
      { hlead with
        told := ?_
        launched := fun j hj hused hlt => by omega
        made := fun j _ => hlead.made j (Nat.zero_le j) }⟩
    · exact Nat.not_lt.mp fun hused => hi (lt_min hlt hused)
    · intro j hj hjsz _ hjused
      have hlt : j < i := (lt_min hjsz hjused).trans_le (Nat.not_lt.mp hi)
      exact hlead.told j hj hlt hjsz hjused

theorem launch_step {k old i : ℕ}
    (hf : code size v t (.launch k old i) = .access f) (hu : Knows size t (.launch k old i) m) :
    Acts size t m (f input m).1 ∧ Knows size t (f input m).2 (f input m).1 := by
  obtain ⟨ht,hold,hpos,hle,hused,hlead⟩ := hu
  obtain rfl := Action.access.inj hf
  dsimp only
  split_ifs with hi
  · have hpresent : i < present size k := hi.trans_le (Nat.le_max_left ..)
    refine ⟨Or.inl (.launch k i _ ht hlead hpos (hused hi) hi hpresent),ht,hold,Nat.succ_pos i,hi,fun _ => ?_,
      { hlead with launched := fun j hj hle hlt => ?_, made := fun j hj => ?_ }⟩
    · exact (hused hi).trans (Nat.le_succ i)
    · by_cases hji : j = i
      · simp [hji]
      · dsimp only
        rw [Function.update_of_ne fun heq => hji (Prod.mk.inj heq).2]
        exact hlead.launched j hj hle (by omega)
    · have hne : (k,j) ≠ (k,i) := by
        intro heq
        have hji := (Prod.mk.inj heq).2
        omega
      dsimp only
      rw [Function.update_of_ne hne]
      exact hlead.made j (by omega)
  · obtain rfl : i = size k := Nat.le_antisymm hle (Nat.not_lt.mp hi)
    exact ⟨Or.inl .same,ht,hold,hlead⟩

theorem shrink_step {k old : ℕ}
    (hf : code size v t (.shrink k old) = .access f) (hu : Knows size t (.shrink k old) m) :
    Acts size t m (f input m).1 ∧ Knows size t (f input m).2 (f input m).1 := by
  obtain ⟨ht,-,hlt,hahead,hnot⟩ := hu
  obtain rfl := Action.access.inj hf
  have hpresent : size k < present size k := hlt.trans_le (Nat.le_max_right ..)
  exact ⟨Or.inl (.shrink k _ ht hahead hpresent),ht,{ hahead with expected := rfl },hnot⟩

theorem shrunk_step {k : ℕ}
    (hf : code size v t (.shrunk k) = .access f) (hu : Knows size t (.shrunk k) m) :
    Acts size t m (f input m).1 ∧ Knows size t (f input m).2 (f input m).1 := by
  obtain ⟨ht,hahead,hnot⟩ := hu
  obtain rfl := Action.access.inj hf
  exact ⟨Or.inl (.total (size k) ht hahead.arrived),hnot,Or.inl ⟨ht,{ hahead with total := rfl }⟩⟩

theorem worker_step {p : Pc} (hp : p = .unborn ∨ p = .register ∨ p = .fetch)
    (hf : code size v t p = .access f) (hu : Knows size t p m) :
    Acts size t m (f input m).1 ∧ Knows size t (f input m).2 (f input m).1 := by
  obtain rfl | rfl | rfl := hp
  · obtain rfl := Action.access.inj hf
    refine ⟨Or.inl .same,?_⟩
    dsimp only
    split_ifs with hcreated
    · exact hu.2.2 hcreated
    · exact hu
  · obtain rfl := Action.access.inj hf
    obtain ⟨hhome,hused,harrived⟩ := hu
    refine ⟨Or.inl (.register hhome.toLive hused harrived),{ hhome with },hused,harrived,?_⟩
    simp
  · obtain rfl := Action.access.inj hf
    obtain ⟨p,hrel⟩ := hu
    exact ⟨Or.inl .same,p,hrel,rfl⟩

theorem clear_step {localFn : Option ℕ}
    (hf : code size v t (.clear localFn) = .access f) (hu : Knows size t (.clear localFn) m) :
    Acts size t m (f input m).1 ∧ Knows size t (f input m).2 (f input m).1 := by
  obtain ⟨p,hrel,rfl⟩ := hu
  obtain rfl := Action.access.inj hf
  refine ⟨Or.inl (.clear p hrel),?_⟩
  dsimp only
  rw [hrel.fn]
  by_cases hlt : t.2 < size p
  · obtain ⟨hmember,hran⟩ := hrel.member hlt
    rw [if_pos ⟨rfl,hlt⟩]
    exact ⟨hran,Or.inr { hmember with fn := by simp }⟩
  · rw [if_neg fun h => hlt h.2]
    exact Or.inr ⟨p,hrel.before,Nat.not_lt.mp hlt,hrel.born⟩

theorem Passed.knows {stop : Stop} (hu : Passed size t m stop) : Knows size t (behind size t stop) m := by
  cases stop with
  | start k old =>
    obtain ⟨ht,hold,hahead,hnot⟩ := hu
    dsimp only [behind]
    split_ifs with hlt
    · exact ⟨ht,hold,hold ▸ hlt,hahead,hnot⟩
    · have hpresent : present size k = size k := max_eq_left (hold ▸ Nat.not_lt.mp hlt)
      rw [hpresent] at hahead
      exact ⟨hnot,Or.inl ⟨ht,hahead⟩⟩
  | first =>
    obtain ⟨p,hrel⟩ := hu
    obtain rfl : t.1 = p := hrel.born.trans (maker_of_used_le hrel.side)
    obtain ⟨hmember,hran⟩ := hrel.member (hrel.new rfl)
    have hfn : m.fn t = none := hrel.fn.trans (if_neg fun h => by cases h.1)
    exact ⟨hran,Or.inr { hmember with fn := hfn }⟩
  | again => exact hu

theorem Comes.arrives {stop : Stop} (hsize : ∀ k, 0 < size k) (hc : Common size m) (hu : Comes size t m stop) :
    t.2 ∉ m.arrived ∧ t.2 < m.expected ∧ (t = (0,0) ∧ Opened size m ∨ Home size t m ∧ m.threads t.2 = t) ∧
      Waits size t (m.arrive t) stop := by
  cases stop with
  | start k old =>
    obtain ⟨rfl,hold,hlead⟩ := hu
    have hphase := hlead.phase
    subst hphase
    have hexp := hlead.expected
    have hpos : 0 < m.expected := by
      rw [hexp]
      exact (hsize m.phase).trans_le (Nat.le_max_left ..)
    have hmade : ∀ i, 0 < i → i < m.expected → m.created (maker size m.phase i,i) = true := by
      intro i hi hlt
      by_cases hused : i < used size m.phase
      · exact (hc.kept hi hused).2
      · rw [hexp] at hlt
        rw [maker_of_used_le (Nat.not_lt.mp hused)]
        exact hlead.launched i hi (Nat.not_lt.mp hused) ((lt_max_iff.mp hlt).resolve_right hused)
    have hopened : Opened size m :=
      ⟨hlead.total.trans hexp.symm,hexp,fun i hi hlt hused => hlead.told i hi hlt hlt hused,hlead.left,hmade⟩
    exact ⟨hlead.arrived,hpos,Or.inl ⟨rfl,hopened⟩,rfl,hold,rfl,hlead.threadsUsed⟩
  | first => exact ⟨hu.2.2.1,hu.1.expected,Or.inr ⟨hu.1,hu.2.2.2⟩,{ hu.1 with },hu.2.1⟩
  | again => exact ⟨hu.2.2.1,hu.1.expected,Or.inr ⟨hu.1,hu.2.2.2⟩,{ hu.1 with },hu.2.1⟩

theorem Waits.reset {stop : Stop} (hu : Waits size t m stop) : Waits size t { m with awaited := m.total } stop := by
  cases stop with
  | start k old => exact hu
  | first => exact ⟨{ hu.1 with },hu.2⟩
  | again => exact ⟨{ hu.1 with },hu.2⟩

theorem bar_step (hsize : ∀ k, 0 < size k ∧ size k < 2 ^ 32) {stop : Stop} {b : Bar}
    (hc : Common size m) (hf : code size v t (.bar stop b) = .access f) (hu : Knows size t (.bar stop b) m) :
    Acts size t m (f input m).1 ∧ Knows size t (f input m).2 (f input m).1 := by
  cases b with
  | load =>
    obtain rfl := Action.access.inj hf
    refine ⟨Or.inl .same,hu,?_⟩
    dsimp only
    rw [hc.generation]
    unfold uint
    omega
  | arrive state =>
    obtain rfl := Action.access.inj hf
    obtain ⟨hcomes,rfl⟩ := hu
    obtain ⟨hnew,hlt,hwho,hwaits⟩ := hcomes.arrives (fun k => (hsize k).1) hc
    have hchange : Change size t m (m.arrive t) := .arrive hnew hlt hwho
    have hc' := hchange.common hsize hc
    have hcount := hc.arrive_count hnew hlt
    have hmem : t.2 ∈ (m.arrive t).arrived := Finset.mem_insert_self ..
    refine ⟨Or.inl hchange,?_⟩
    dsimp only
    split_ifs with hzero
    · have hfull : (m.arrive t).Full := by
        by_contra hnot
        have hcard := hc'.card_lt hnot
        rw [hzero, Nat.zero_add] at hcount
        exact absurd hcount hcard.ne
      refine ⟨hwaits,hfull,rfl,?_⟩
      rw [hfull]
      exact Finset.mem_range.mpr (Nat.zero_lt_of_lt hlt)
    · refine Or.inl ⟨hwaits,hmem,rfl,fun ho => hzero ?_⟩
      rw [ho.full, Finset.card_range] at hcount
      exact Nat.add_eq_right.mp hcount
  | reset =>
    obtain rfl := Action.access.inj hf
    obtain ⟨hwaits,hopens⟩ := hu
    exact ⟨Or.inl (.reset hopens),hwaits.reset,⟨hopens.full,hopens.last,hopens.master⟩,(hc.opened hopens.master).total⟩
  | read =>
    obtain rfl := Action.access.inj hf
    exact ⟨Or.inl .same,hu.1,hu.2.1,hu.2.2,rfl⟩
  | store generation =>
    obtain rfl := Action.access.inj hf
    obtain ⟨hwaits,hopens,heq,rfl⟩ := hu
    exact ⟨Or.inr ⟨hopens,heq,rfl⟩,hwaits.passed hc hopens⟩
  | wake => cases hf
  | spin state i =>
    obtain ⟨hm,hnext⟩ := doSpin_cases hf input m
    rw [hm]
    refine ⟨Or.inl .same,?_⟩
    obtain hnext | ⟨hnext,-⟩ | ⟨j,hnext⟩ := hnext
    · rw [hnext]
      exact hu
    · rw [hnext]
      exact hu
    · rw [hnext]
      exact hu
  | sleep state => cases hf
  | recheck state =>
    obtain rfl := Action.access.inj hf
    refine ⟨Or.inl .same,?_⟩
    dsimp only
    split_ifs with hsame
    · exact hu
    · obtain ⟨-,-,heq,-⟩ | ⟨hpassed,-⟩ := hu
      · exact absurd heq.symm hsame
      · exact hpassed.knows

/-- Who is in region `k` belongs to it, and the dock has not been opened since. -/
theorem in_region (hsize : ∀ k, 0 < size k) {k : ℕ}
    (hu : t = (0,0) ∧ Ahead size m k (size k) (size k) ∨ Inside size t m k) :
    m.phase = k + 1 ∧ t.2 < size k ∧ t.1 = maker size k t.2 := by
  obtain ⟨rfl,hahead⟩ | hinside := hu
  · exact ⟨hahead.phase,hsize k,(maker_zero hsize k).symm⟩
  · exact ⟨hinside.phase,hinside.lt,hinside.maker_member hinside.phase hinside.lt⟩

theorem region_step (hsize : ∀ k, 0 < size k) {p : Pc} {k : ℕ}
    (hc : Common size m) (hp : p = .run k ∨ p = .final k ∨ p = .finish k) (hf : code size v t p = .access f)
    (hu : Knows size t p m) : Acts size t m (f input m).1 ∧ Knows size t (f input m).2 (f input m).1 := by
  obtain rfl | rfl | rfl := hp
  · obtain rfl := Action.access.inj hf
    obtain ⟨hnot,hwho⟩ := hu
    obtain ⟨hphase,hlt,hborn⟩ := in_region hsize hwho
    have hk : k < m.phase := hphase ▸ Nat.lt_succ_self k
    refine ⟨Or.inl (.ran k hnot hk hlt hborn),List.mem_append_right _ (List.mem_singleton_self _),?_⟩
    exact hwho.imp (fun hw => ⟨hw.1,{ hw.2 with }⟩) fun hw => { hw with }
  · obtain rfl := Action.access.inj hf
    obtain ⟨hran,hwho⟩ := hu
    have hmem : t.2 ∈ Function.update m.ended k (insert t.2 (m.ended k)) k := by simp
    obtain ⟨ht,hahead⟩ | hinside := hwho
    · exact ⟨Or.inl (.ended k hahead.phase hran (Or.inl ht)),hahead.phase,hmem,Or.inl ⟨ht,{ hahead with }⟩⟩
    · refine ⟨Or.inl (.ended k hinside.phase hran (Or.inr hinside.toLive)),hinside.phase,hmem,Or.inr ⟨?_,hinside.lt,
        hinside.arrived,hinside.seated⟩⟩
      refine { hinside.toLive with fn := Or.inl hinside.fn, ended := fun p hp _ => ?_ }
      obtain rfl : k = p := Nat.succ.inj (hinside.phase.symm.trans hp)
      simp
  · obtain rfl := Action.access.inj hf
    refine ⟨Or.inl .same,?_⟩
    obtain ⟨hphase,hmine,hwho⟩ := hu
    dsimp only
    split_ifs with hall hmaster
    · obtain ⟨ht,hahead⟩ | ⟨hhome,-⟩ := hwho
      · have hsub : m.ended k ⊆ Finset.range (size k) := fun i hi => Finset.mem_range.mpr (hc.ended k i hi).2.1
        have hleft : m.ended k = Finset.range (size k) := Finset.eq_of_subset_of_card_le hsub (by simp [hall])
        refine ⟨ht,hphase,hahead.arrived,hahead.total,hahead.expected,hahead.threadsUsed,fun p hp i hi => ?_,
          fun i hi hlt => absurd hlt (Nat.not_lt_zero i),fun i _ _ hlt => absurd hlt (Nat.not_lt_zero i),
          fun i _ => hahead.made i⟩
        obtain rfl := Nat.succ.inj hp
        rw [hleft]
        exact Finset.mem_range.mpr hi
      · have := hhome.place
        omega
    · obtain ⟨rfl,-⟩ | ⟨hhome,hlt,harrived,hseat⟩ := hwho
      · exact absurd rfl hmaster
      · refine ⟨hhome,?_,harrived,hseat⟩
        rw [hphase]
        exact hlt
    · exact ⟨hphase,hmine,hwho⟩

theorem own_step (hsize : ∀ k, 0 < size k ∧ size k < 2 ^ 32) {p : Pc}
    (hc : Common size m) (hf : code size v t p = .access f) (hu : Knows size t p m) :
    Acts size t m (f input m).1 ∧ Knows size t (f input m).2 (f input m).1 := by
  have hpos : ∀ k, 0 < size k := fun k => (hsize k).1
  cases p with
  | begin k => exact begin_step input hsize hf hu
  | grow k old => exact grow_step input hpos hf hu
  | release k old i => exact release_step input hc hf hu
  | launch k old i => exact launch_step input hf hu
  | shrink k old => exact shrink_step input hf hu
  | shrunk k => exact shrunk_step input hf hu
  | unborn => exact worker_step input (Or.inl rfl) hf hu
  | register => exact worker_step input (Or.inr (Or.inl rfl)) hf hu
  | fetch => exact worker_step input (Or.inr (Or.inr rfl)) hf hu
  | clear localFn => exact clear_step input hf hu
  | bar stop b => exact bar_step input hsize hc hf hu
  | run k => exact region_step input hpos hc (Or.inl rfl) hf hu
  | final k => exact region_step input hpos hc (Or.inr (Or.inl rfl)) hf hu
  | finish k => exact region_step input hpos hc (Or.inr (Or.inr rfl)) hf hu
  | done =>
    obtain rfl := Action.access.inj hf
    exact ⟨Or.inl .same,hu⟩

theorem stable (hsize : ∀ k, 0 < size k ∧ size k < 2 ^ 32) (v : SpinVars) :
    Stable (code size v) (Common size) (Knows size) where
  access := by
    intro t p f input m hf hc hu
    obtain ⟨hchange | ⟨hopens,hawaited,heq⟩,hown⟩ := own_step input hsize hc hf hu
    · exact ⟨hchange.common hsize hc,hown⟩
    · exact ⟨heq ▸ hopens.common hc hawaited,hown⟩
  other := by
    intro t p f input m u q hf hc ht hut hu
    obtain ⟨hchange | ⟨hopens,-,heq⟩,-⟩ := own_step input hsize hc hf ht
    · exact hchange.knows hc hut hu
    · exact heq ▸ hopens.knows hc hut hu
  wait := by
    intro t p same next m h hc hu
    cases p with
    | bar stop b =>
      cases b with
      | sleep state =>
        obtain ⟨-,rfl⟩ := Action.wait.inj h
        exact hu
      | _ => cases h
    | _ => cases h
  wake := by
    intro t p count next m h hc hu
    cases p with
    | bar stop b =>
      cases b with
      | wake =>
        obtain ⟨-,rfl⟩ := Action.wake.inj h
        exact Passed.knows hu
      | _ => cases h
    | _ => cases h

end Steps

section Runs
variable {size : ℕ → ℕ} {v : SpinVars} {es : List (Event Tid)} {s : State Tid Mem Pc}

theorem holds_init (size : ℕ → ℕ) : Holds (Common size) (Knows size) init := by
  have hempty : ∀ {p : Prop} {i : ℕ}, i ∈ (∅ : Finset ℕ) → p := fun h => absurd h (Finset.notMem_empty _)
  have hcommon : Common size init.mem := by
    constructor
    case generation =>
      unfold uint
      rfl
    case arrived => exact Finset.empty_subset _
    case count => exact fun hnot => absurd rfl hnot
    case bound => decide
    case opened => exact hempty
    case latest => exact fun hne => absurd hne Finset.not_nonempty_empty
    case seated => exact fun _ => hempty
    case members => rintro p ⟨⟩
    case ended => exact fun _ _ => hempty
    case ran => rintro t p ⟨⟩
    case once => exact List.nodup_nil
    case past => exact fun p hp => absurd hp (Nat.not_lt_zero _)
    case future => exact fun _ _ _ => rfl
  refine ⟨hcommon,fun t => ?_⟩
  dsimp only [init]
  split_ifs with hplace hmaker
  · exact ⟨Nat.pos_of_ne_zero hplace,rfl,fun h => by cases h⟩
  · have ht : t = (0,0) := Prod.ext hmaker (Decidable.not_not.mp hplace)
    refine ⟨ht,rfl,Finset.notMem_empty 0,rfl,rfl,rfl,fun p hp => (by cases hp),?_,?_,?_⟩
    · exact fun i _ hlt => absurd hlt (Nat.not_lt_zero i)
    · exact fun i _ _ hlt => absurd hlt (Nat.not_lt_zero i)
    · exact fun _ _ => rfl
  · exact Or.inl ⟨Decidable.not_not.mp hplace,hmaker⟩

/-- The threads of region `k` are those with the places below `size k` that the dock knows, each runs it once, with its
own function, none begins before all threads of the regions before have been there, and no two regions overlap. -/
structure OneByOne (size : ℕ → ℕ) (s : State Tid Mem Pc) : Prop where
  members : ∀ t k, (t,k) ∈ s.mem.ran → t.2 < size k ∧ t.1 = maker size k t.2
  once : s.mem.ran.Nodup
  begins : ∀ t k, s.pc t = .run k → t.2 < size k ∧ t.1 = maker size k t.2 ∧ (t,k) ∉ s.mem.ran ∧
    ∀ p < k, ∀ i < size p, ((maker size p i,i),p) ∈ s.mem.ran
  complete : ∀ k, s.pc (0,0) = .begin (k + 1) → ∀ i < size k, ((maker size k i,i),k) ∈ s.mem.ran
  alone : ∀ t u k l, s.pc t = .run k ∨ s.pc t = .final k → s.pc u = .run l ∨ s.pc u = .final l → k = l

/-- In every run of a program that starts one region after another, whatever their numbers of threads, the regions are
run one by one and in full. -/
theorem dock_run (hsize : ∀ k, 1 < size k ∧ size k < 2 ^ 32) (h : run (step (code size v)) init es = some s) :
    OneByOne size s := by
  have hpos : ∀ k, 0 < size k := fun k => Nat.zero_lt_of_lt (hsize k).1
  obtain ⟨hc,hk⟩ : Holds (Common size) (Knows size) s :=
    holds_run (stable (fun k => ⟨hpos k,(hsize k).2⟩) v) (holds_init size) h
  have hregion : ∀ t k, s.pc t = .run k ∨ s.pc t = .final k →
      s.mem.phase = k + 1 ∧ t.2 < size k ∧ t.1 = maker size k t.2 := by
    intro t k hpc
    have ht := hk t
    obtain hpc | hpc := hpc
    · rw [hpc] at ht
      exact in_region hpos ht.2
    · rw [hpc] at ht
      exact in_region hpos ht.2
  refine ⟨fun t k ht => (hc.ran t k ht).2,hc.once,fun t k hpc => ?_,fun k hpc i hi => ?_,fun t u k l ht hu => ?_⟩
  · obtain ⟨hphase,hlt,hborn⟩ := hregion t k (Or.inl hpc)
    have ht := hk t
    rw [hpc] at ht
    refine ⟨hlt,hborn,ht.1,fun p hp i hi => (hc.ended p i (hc.past p ?_ i hi)).2.2⟩
    rw [hphase]
    exact Nat.succ_lt_succ hp
  · have hmaster := hk (0,0)
    rw [hpc] at hmaster
    exact (hc.ended k i (hmaster.2.left k rfl i hi)).2.2
  · exact Nat.succ.inj ((hregion t k ht).1.symm.trans (hregion u l hu).1)

/-- Region 0 has three threads and each later one two. -/
def sizes (k : ℕ) : ℕ := if k = 0 then 3 else 2

theorem sizes_ok (k : ℕ) : 1 < sizes k ∧ sizes k < 2 ^ 32 := by
  unfold sizes
  split <;> decide

/-- The turns of some threads, one after another. -/
def turns (l : List (ℕ × ℕ)) : List (Event Tid) := l.flatMap fun p => List.replicate p.2 (.move (0,p.1) 0)

/-- In region 1 the thread with place 2 is not needed any more; it comes to the dock last, opens it and ends. -/
def shrinking : List (Event Tid) :=
  turns [(0,9),(1,4),(2,7)] ++ [.wake (0,2) {(0,0)}] ++ turns [(0,1),(1,3),(0,2),(1,2),(2,2),(0,7),(1,3),(2,6)] ++
    [.wake (0,2) ∅] ++ turns [(2,2),(1,5),(0,5),(1,1),(0,1)]

theorem run_shrinking : ∃ s, run (step (code sizes ⟨0,0⟩)) init shrinking = some s ∧ s.pc (0,2) = .done ∧
    s.mem.ran = [((0,0),0),((0,1),0),((0,2),0),((0,1),1),((0,0),1)] := by
  have hview : (run (step (code sizes ⟨0,0⟩)) init shrinking).map (fun s => (s.pc (0,2),s.mem.ran)) =
      some (.done,[((0,0),0),((0,1),0),((0,2),0),((0,1),1),((0,0),1)]) := by
    decide +kernel
  obtain ⟨s,hs,hview⟩ := Option.map_eq_some_iff.mp hview
  exact ⟨s,hs,Prod.mk.inj hview⟩

theorem dock_run_shrinking : ∃ s, run (step (code sizes ⟨0,0⟩)) init shrinking = some s ∧ s.pc (0,2) = .done ∧
    s.mem.ran = [((0,0),0),((0,1),0),((0,2),0),((0,1),1),((0,0),1)] ∧ OneByOne sizes s := by
  obtain ⟨s,hs,hpc,hran⟩ := run_shrinking
  exact ⟨s,hs,hpc,hran,dock_run sizes_ok hs⟩

end Runs

/-! ## The dock does not block -/
section Progress
variable {size : ℕ → ℕ} {v : SpinVars} {es : List (Event Tid)} {s : State Tid Mem Pc} {t u : Tid} {m : Mem} {q : Pc}

/-- The thread has to wait for what another one does. -/
def Idle (size : ℕ → ℕ) (t : Tid) (m : Mem) : Pc → Prop
  | .unborn => m.created t = false
  | .bar _ (.spin state _) | .bar _ (.sleep state) | .bar _ (.recheck state) => m.generation = state
  | .finish k => (m.ended k).card ≠ size k
  | .done => True
  | _ => False

/-- The thread sleeps although the dock was opened. -/
def Overslept (_ : Tid) : Pc → Mem → Prop
  | .bar _ (.recheck state),m => m.generation ≠ state
  | _,_ => False

def Wakes : Pc → Prop
  | .bar _ .wake => True
  | _ => False

theorem idle_bar (hu : Knows size u q m) (hborn : u.1 = maker size m.phase u.2) {stop : Stop} {state i : ℕ}
    (hq : q = .bar stop (.spin state i) ∨ q = .bar stop (.sleep state) ∨ q = .bar stop (.recheck state))
    (hstate : m.generation = state) : Waits size u m stop ∧ u.2 ∈ m.arrived ∧ ¬m.Opens u := by
  have hw : Waits size u m stop ∧ u.2 ∈ m.arrived ∧ state = m.generation ∧ ¬m.Opens u ∨
      Passed size u m stop ∧ (u.1 = maker size m.phase u.2 → state ≠ m.generation) := by
    obtain rfl | rfl | rfl := hq
    · exact hu
    · exact hu
    · exact hu
  obtain ⟨hwaits,hmem,-,hnot⟩ | ⟨-,hne⟩ := hw
  · exact ⟨hwaits,hmem,hnot⟩
  · exact absurd hstate.symm (hne hborn)

theorem not_done (hsize : ∀ k, 0 < size k) (hu : Knows size u .done m) : u.1 ≠ maker size m.phase u.2 := by
  intro hborn
  obtain ⟨hplace,hne⟩ | ⟨p,hp,hle,hbefore⟩ := hu
  · rw [hplace, maker_zero hsize] at hborn
    exact hne hborn
  · have hlt : p < maker size m.phase u.2 := maker_of_gone hle hp
    have hle' : maker size p u.2 ≤ p := maker_le p u.2
    omega

/-- Once the master has come to the dock, only those that have arrived wait. -/
theorem idle_arrived (hsize : ∀ k, 0 < size k) (hc : Common size m) (h0 : 0 ∈ m.arrived) (hu : Knows size u q m)
    (hborn : u.1 = maker size m.phase u.2) (hlt : u.2 < m.expected) (hidle : Idle size u m q) :
    u.2 ∈ m.arrived ∧ ¬m.Opens u := by
  have hopened := hc.opened h0
  cases q with
  | unborn =>
    have hmade := hopened.made u.2 hu.1 hlt
    rw [show (maker size m.phase u.2,u.2) = u from Prod.ext hborn.symm rfl] at hmade
    exact Bool.noConfusion (hmade.symm.trans hidle)
  | bar stop b =>
    cases b with
    | spin state i => exact (idle_bar hu hborn (Or.inl rfl) hidle).2
    | sleep state => exact (idle_bar (i := 0) hu hborn (Or.inr (Or.inl rfl)) hidle).2
    | recheck state => exact (idle_bar (i := 0) hu hborn (Or.inr (Or.inr rfl)) hidle).2
    | _ => exact hidle.elim
  | finish k =>
    -- all have left the region before
    have hsub : m.ended k ⊆ Finset.range (size k) := fun i hi => Finset.mem_range.mpr (hc.ended k i hi).2.1
    have hsup : Finset.range (size k) ⊆ m.ended k := fun i hi => hopened.left k hu.1 i (Finset.mem_range.mp hi)
    have hcard := congrArg Finset.card (hsub.antisymm hsup)
    rw [Finset.card_range] at hcard
    exact absurd hcard hidle
  | done => exact absurd hborn (not_done hsize hu)
  | _ => exact hidle.elim

/-- A thread of a region that has not ended it does not wait. -/
theorem not_idle_member (hsize : ∀ k, 0 < size k) (hc : Common size m) {p : ℕ} (hphase : m.phase = p + 1)
    (hu : Knows size u q m) (hplace : 0 < u.2) (hlt : u.2 < size p) (hborn : u.1 = maker size p u.2)
    (hnot : u.2 ∉ m.ended p) : ¬Idle size u m q := by
  intro hidle
  have hborn' : u.1 = maker size m.phase u.2 := by
    rw [hphase, maker_of_lt hlt]
    exact hborn
  have hbar : ∀ {stop}, Waits size u m stop ∧ u.2 ∈ m.arrived ∧ ¬m.Opens u → False := by
    rintro stop ⟨hwaits,-,-⟩
    cases stop with
    | start k old =>
      obtain ⟨rfl,-⟩ := hwaits
      exact absurd hplace (Nat.lt_irrefl 0)
    | first => exact hnot (hwaits.1.ended p hphase hlt)
    | again => exact hnot (hwaits.1.ended p hphase hlt)
  cases q with
  | unborn =>
    have hmade := (hc.members p hphase u.2 hplace hlt).2
    rw [show (maker size p u.2,u.2) = u from Prod.ext hborn.symm rfl] at hmade
    exact Bool.noConfusion (hmade.symm.trans hidle)
  | bar stop b =>
    cases b with
    | spin state i => exact hbar (idle_bar hu hborn' (Or.inl rfl) hidle)
    | sleep state => exact hbar (idle_bar (i := 0) hu hborn' (Or.inr (Or.inl rfl)) hidle)
    | recheck state => exact hbar (idle_bar (i := 0) hu hborn' (Or.inr (Or.inr rfl)) hidle)
    | _ => exact hidle.elim
  | finish k =>
    obtain rfl : k = p := Nat.succ.inj (hu.1.symm.trans hphase)
    exact hnot hu.2.1
  | done => exact absurd hborn' (not_done hsize hu)
  | _ => exact hidle.elim

/-- There is always a thread that does not wait for others. -/
theorem exists_not_idle (hsize : ∀ k, 0 < size k) (hi : Holds (Common size) (Knows size) s) :
    ∃ t, ¬Idle size t s.mem (s.pc t) := by
  obtain ⟨hc,hk⟩ := hi
  by_contra hall
  have hidle : ∀ t, Idle size t s.mem (s.pc t) := fun t => not_not.mp fun hnot => hall ⟨t,hnot⟩
  -- the master waits at the dock or for the end of a region
  have hmaster : 0 ∈ s.mem.arrived ∨ ∃ k, s.pc (0,0) = .finish k := by
    have hu := hk (0,0)
    have hi := hidle (0,0)
    have hborn : ((0,0) : Tid).1 = maker size s.mem.phase ((0,0) : Tid).2 := (maker_zero hsize _).symm
    cases hq : s.pc (0,0) with
    | unborn =>
      rw [hq] at hu
      exact absurd hu.1 (Nat.lt_irrefl 0)
    | bar stop b =>
      rw [hq] at hu hi
      cases b with
      | spin state i => exact Or.inl (idle_bar hu hborn (Or.inl rfl) hi).2.1
      | sleep state => exact Or.inl (idle_bar (i := 0) hu hborn (Or.inr (Or.inl rfl)) hi).2.1
      | recheck state => exact Or.inl (idle_bar (i := 0) hu hborn (Or.inr (Or.inr rfl)) hi).2.1
      | _ => exact hi.elim
    | finish k => exact Or.inr ⟨k,rfl⟩
    | done =>
      rw [hq] at hu
      exact absurd hborn (not_done hsize hu)
    | _ =>
      rw [hq] at hi
      exact hi.elim
  obtain h0 | ⟨k,hq⟩ := hmaster
  · by_cases hfull : s.mem.Full
    · -- the thread that came last opens the dock
      obtain ⟨hmem,hborn⟩ := hc.latest ⟨0,h0⟩
      have hlt := Finset.mem_range.mp (hc.arrived hmem)
      exact (idle_arrived hsize hc h0 (hk s.mem.last) hborn hlt (hidle _)).2 ⟨hfull,rfl,h0⟩
    · -- one that is expected has not arrived
      obtain ⟨i,hi,hnot⟩ := Finset.exists_of_ssubset (Finset.ssubset_iff_subset_ne.mpr ⟨hc.arrived,hfull⟩)
      exact hnot (idle_arrived hsize hc h0 (hk (maker size s.mem.phase i,i)) rfl (Finset.mem_range.mp hi) (hidle _)).1
  · have hu := hk (0,0)
    have hi := hidle (0,0)
    rw [hq] at hu hi
    obtain ⟨hphase,hmine,-⟩ := hu
    have hsub : s.mem.ended k ⊆ Finset.range (size k) := fun i hi => Finset.mem_range.mpr (hc.ended k i hi).2.1
    have hne : s.mem.ended k ≠ Finset.range (size k) := by
      intro heq
      have hcard : (s.mem.ended k).card = size k := by rw [heq, Finset.card_range]
      exact hi hcard
    obtain ⟨i,hlt,hnot⟩ := Finset.exists_of_ssubset (Finset.ssubset_iff_subset_ne.mpr ⟨hsub,hne⟩)
    have hpos : 0 < i := Nat.pos_of_ne_zero fun h => hnot (h ▸ hmine)
    exact not_idle_member hsize hc hphase (hk (maker size k i,i)) hpos (Finset.mem_range.mp hlt) rfl hnot (hidle _)

/-- Who changes the word of the dock wakes the sleepers next. -/
theorem generation_step (hsize : ∀ k, 0 < size k) {f : ℕ → Mem → Mem × Pc} (input : ℕ)
    (hc : Common size m) (hf : code size v t q = .access f) (hu : Knows size t q m) :
    (f input m).1.generation = m.generation ∨ Wakes (f input m).2 := by
  cases q with
  | begin k =>
    obtain rfl := Action.access.inj hf
    dsimp only
    split_ifs with hle hzero
    · exact Or.inl rfl
    · obtain ⟨-,hlead⟩ := hu
      have hk : k = 0 := eq_zero_of_used hsize (hlead.threadsUsed.symm.trans hzero)
      left
      rw [hc.generation, hlead.phase, hk]
      unfold uint
      rfl
    · exact Or.inl rfl
  | release k old i | launch k old i =>
    obtain rfl := Action.access.inj hf
    dsimp only
    split_ifs <;> exact Or.inl rfl
  | bar stop b =>
    cases b with
    | wake | sleep state => cases hf
    | store generation =>
      obtain rfl := Action.access.inj hf
      exact Or.inr trivial
    | spin state i => exact Or.inl (congrArg Mem.generation (doSpin_cases hf input m).1)
    | _ =>
      obtain rfl := Action.access.inj hf
      exact Or.inl rfl
  | _ =>
    obtain rfl := Action.access.inj hf
    exact Or.inl rfl

theorem signals (hsize : ∀ k, 0 < size k ∧ size k < 2 ^ 32) (v : SpinVars) :
    Signals (code size v) (Common size) (Knows size) Overslept Wakes where
  access := by
    intro t p f input m u q hf hc hk hstale
    obtain hgen | hwakes := generation_step (fun k => (hsize k).1) input hc hf hk
    · refine Or.inl ?_
      cases q with
      | bar stop b =>
        cases b with
        | recheck state => exact fun heq => hstale (hgen.trans heq)
        | _ => exact hstale
      | _ => exact hstale
    · exact Or.inr hwakes
  keep := by
    intro t p f input m hf hp
    cases p with
    | bar stop b =>
      cases b with
      | wake => cases hf
      | _ => cases hp
    | _ => cases hp
  wait := by
    intro t p same next h
    cases p with
    | bar stop b =>
      cases b with
      | sleep state =>
        obtain ⟨rfl,rfl⟩ := Action.wait.inj h
        exact ⟨id,fun m hm hne => hne (of_decide_eq_true hm)⟩
      | _ => cases h
    | _ => cases h

theorem sleep_next (t : Tid) (p : Pc) (same : Mem → Bool) (next : Pc)
    (h : code size v t p = .wait same next) : ∃ stop state, next = .bar stop (.recheck state) := by
  cases p with
  | bar stop b =>
    cases b with
    | sleep state =>
      obtain ⟨-,rfl⟩ := Action.wait.inj h
      exact ⟨stop,state,rfl⟩
    | _ => cases h
  | _ => cases h

theorem wake_count {count : ℕ} {next : Pc} (h : code size v t q = .wake count next) :
    count = 2 ^ 31 - 1 := by
  cases q with
  | bar stop b =>
    cases b with
    | wake => exact (Action.wake.inj h).1.symm
    | _ => cases h
  | _ => cases h

/-- The dock does not block: as long as a wake-up reaches all who sleep, in every state of a run some thread is
awake and has not to wait for what another one does. -/
theorem dock_progress (hsize : ∀ k, 1 < size k ∧ size k < 2 ^ 32)
    (hfew : Along (step (code size v)) (fun s _ => s.asleep.card < 2 ^ 31) init es)
    (h : run (step (code size v)) init es = some s) : ∃ t, t ∉ s.asleep ∧ ¬Idle size t s.mem (s.pc t) := by
  have hsize' : ∀ k, 0 < size k ∧ size k < 2 ^ 32 := fun k => ⟨Nat.zero_lt_of_lt (hsize k).1,(hsize k).2⟩
  have hst := stable hsize' v
  have hall : ∀ s (_ : Event Tid), s.asleep.card < 2 ^ 31 → Few (code size v) s :=
    fun s _ hcard t count next hcode => (wake_count hcode).symm ▸ Nat.le_pred_of_lt hcard
  have hsignalled : Signalled Overslept Wakes s :=
    signalled_run (signals hsize' v) hst hall (holds_init size) rfl hfew h
  have hresume : ∀ t ∈ s.asleep, ∃ stop state, s.pc t = .bar stop (.recheck state) :=
    asleep_run sleep_next (fun t ht => absurd ht (Finset.notMem_empty t)) h
  obtain ⟨t,ht⟩ := exists_not_idle (fun k => (hsize' k).1) (holds_run hst (holds_init size) h)
  by_cases hasleep : t ∈ s.asleep
  · -- whoever opened the dock still has to wake the sleepers
    obtain ⟨stop,state,hq⟩ := hresume t hasleep
    rw [hq] at ht
    have hstale : Overslept t (s.pc t) s.mem := by
      rw [hq]
      exact ht
    obtain ⟨w,hw,hwakes⟩ := hsignalled t hasleep hstale
    refine ⟨w,hw,fun hidle => ?_⟩
    cases hq : s.pc w with
    | bar stop b =>
      rw [hq] at hwakes hidle
      cases b with
      | wake => exact hidle
      | _ => exact hwakes
    | _ =>
      rw [hq] at hwakes
      exact hwakes
  · exact ⟨t,hasleep,ht⟩

theorem dock_progress_shrinking : ∃ s, run (step (code sizes ⟨0,0⟩)) init shrinking = some s ∧
    ∃ t, t ∉ s.asleep ∧ ¬Idle sizes t s.mem (s.pc t) := by
  have hfew : Along (step (code sizes ⟨0,0⟩)) (fun s _ => s.asleep.card < 2 ^ 31) init shrinking :=
    along_of_check (by decide +kernel)
  obtain ⟨s,hs,-⟩ := run_shrinking
  exact ⟨s,hs,dock_progress sizes_ok hfew hs⟩

end Progress

end GompUlt.Dock
