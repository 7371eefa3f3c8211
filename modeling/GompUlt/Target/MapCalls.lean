import GompUlt.Target.MapVars

/-! # The calls on a device

Each call keeps the invariant of the tree and the counters.  An ordinary key leaves the tree with its
last reference and takes a reference of its descriptor with it; a count that stands for a declare
target object is never changed.
-/
namespace GompUlt.Target

variable {exact links : Prop} {s s' : State} {pend : List (Option ℕ)} {held fresh : Option ℕ} {d k : ℕ}

/-- Keys stay, and so do the counts that are not numbers; new link objects come only where `links`
allows them. -/
structure Fixed (links : Prop) (s s' : State) : Prop where
  numKeys : s.numKeys ≤ s'.numKeys
  permanent : ∀ k < s.numKeys, ¬s.Finite k → (s'.key k).refcount = (s.key k).refcount
  finite : ∀ k < s.numKeys, s.Finite k → s'.Finite k
  new : ∀ k < s'.numKeys, s.numKeys ≤ k → (s'.key k).refcount = refcountLink → links

/-- What leaves the keys alone. -/
theorem Fixed.of_key (hn : s'.numKeys = s.numKeys) (hk : s'.key = s.key) : Fixed links s s' := by
  refine ⟨hn.ge,fun k _ _ => by rw [hk],fun k _ hf => ?_,fun k hlt hge => ?_⟩
  · unfold State.Finite
    rw [hk]
    exact hf
  · rw [hn] at hlt
    exact absurd hlt (Nat.not_lt.mpr hge)

theorem Fixed.refl (s : State) : Fixed links s s := Fixed.of_key rfl rfl

theorem Fixed.trans {s'' : State} (h : Fixed links s s') (h' : Fixed links s' s'') : Fixed links s s'' := by
  have hle : ∀ k, k < s.numKeys → k < s'.numKeys := fun k hk => lt_of_lt_of_le hk h.numKeys
  refine ⟨h.numKeys.trans h'.numKeys,fun k hk hf => ?_,fun k hk hf => ?_,fun k hk hge hl => ?_⟩
  · have hrc := h.permanent k hk hf
    rw [h'.permanent k (hle k hk) (by unfold State.Finite; rw [hrc]; exact hf),hrc]
  · exact h'.finite k (hle k hk) (h.finite k hk hf)
  · by_cases hlt : k < s'.numKeys
    · by_cases hf : s'.Finite k
      · exact absurd hl (h'.finite k hlt hf).2
      · exact h.new k hlt hge ((h'.permanent k hlt hf).symm.trans hl)
    · exact h'.new k hk (Nat.not_lt.mp hlt) hl

theorem Keeps.fixed (h : Keeps s s') : Fixed links s s' :=
  ⟨h.numKeys,h.permanent,h.finite,fun k hk hge hl => absurd hl (h.new k hk hge).2⟩

/-- The descriptor of the call is made before the entries, and is written after them. -/
theorem Keeps.fixed_call {t t' : State} (h : Keeps t t') (hn : t.numKeys = s.numKeys) (hk : t.key = s.key)
    (hn' : s'.numKeys = t'.numKeys) (hk' : s'.key = t'.key) : Fixed links s s' :=
  ((Fixed.of_key hn hk).trans h.fixed).trans (Fixed.of_key hn' hk')

section Descriptors

/-- A change of one descriptor that leaves its list alone. -/
theorem setDesc_inv (h : Inv exact s pend held fresh) {f : Desc → Desc} {held' fresh' : Option ℕ}
    (hsame : (f (s.desc d)).list = (s.desc d).list ∧ (f (s.desc d)).mapped = (s.desc d).mapped)
    (hfinite : (s.desc d).refcount ≠ refcountInfinity ∧ (f (s.desc d)).refcount ≠ refcountInfinity)
    (hheld : ∀ e, e ≠ d → (held' = some e ↔ held = some e) ∧ (fresh' = some e ↔ fresh = some e))
    (hd : DescOk (f (s.desc d)) (s.owned d + (s.modifyDesc d f).hold held' d) (fresh' = some d)) :
    Inv exact (s.modifyDesc d f) pend held' fresh' := by
  have hdesc : (s.modifyDesc d f).desc d = f (s.desc d) := Function.update_self ..
  have hother : ∀ e, e ≠ d → (s.modifyDesc d f).desc e = s.desc e := fun e he => Function.update_of_ne he _ _
  have hrefs : ∀ k, (s.modifyDesc d f).refs k = s.refs k := by
    refine fun k => refs_congr rfl fun e _ => ?_
    by_cases he : e = d
    · rw [he,hdesc]
      exact ⟨hsame.2,hsame.1⟩
    · rw [hother e he]
      exact ⟨rfl,rfl⟩
  refine ⟨h.nodup,h.mem_lt,h.disjoint,h.range,h.tgt_lt,h.link,fun k hk hf => ?_,fun k hk hf => ?_,fun k hk hf => ?_,
    fun e he k hm => ?_,h.pend_known,fun e he => ?_,fun e he => ?_⟩
  · have hperm := h.permanent k hk hf
    change ((s.modifyDesc d f).desc (s.key k).tgt).refcount = _ ∧ ((s.modifyDesc d f).desc (s.key k).tgt).releases = 0
    rw [hother]
    · exact hperm
    · intro e
      exact hfinite.1 (e ▸ hperm.1)
  · obtain ⟨h1,h2⟩ := h.finite k hk hf
    refine ⟨?_,h2⟩
    change ((s.modifyDesc d f).desc (s.key k).tgt).refcount ≠ _
    by_cases e : (s.key k).tgt = d
    · rw [e,hdesc]
      exact hfinite.2
    · rw [hother _ e]
      exact h1
  · rw [hrefs]
    exact h.count k hk hf
  · refine h.list_known e he k ?_
    by_cases hed : e = d
    · rw [hed,hdesc,hsame.1] at hm
      exact hed ▸ hm
    · rw [hother e hed] at hm
      exact hm
  · by_cases hed : e = d
    · subst hed
      rw [hdesc]
      exact hd
    · have hold : (s.modifyDesc d f).hold held' e = s.hold held e := by
        unfold State.hold
        rw [hother e hed]
        simp only [(hheld e hed).1]
      rw [hother e hed,hold]
      intro hne
      obtain ⟨h1,h2,h3,h4⟩ := h.desc e he hne
      refine ⟨h1,h2,?_,h4⟩
      rw [(hheld e hed).2]
      exact h3
  · by_cases hed : e = d
    · rw [hed,hdesc] at he
      exact absurd he hfinite.2
    · rw [hother e hed] at he ⊢
      obtain ⟨hm,hrel,hne⟩ := h.region e he
      exact ⟨hm,hrel,fun e' => hne ((hheld e hed).1.mp e')⟩

/-- A new descriptor has no keys. -/
theorem addDesc_inv (h : Inv exact s [] none none) {x : Desc} (hx : x.list = [] ∧ x.mapped = false)
    (hinf : x.refcount = refcountInfinity → x.releases = 0 ∧ held ≠ some s.numDescs)
    (hheld : ∀ e, e ≠ s.numDescs → held ≠ some e ∧ fresh ≠ some e)
    (hok : DescOk x (if held = some s.numDescs then 1 else 0) (fresh = some s.numDescs)) :
    Inv exact (s.addDesc x) [] held fresh := by
  have hdesc : (s.addDesc x).desc s.numDescs = x := Function.update_self ..
  have hother : ∀ e, e < s.numDescs → (s.addDesc x).desc e = s.desc e := fun e he => Function.update_of_ne he.ne _ _
  have hrefs : ∀ k, (s.addDesc x).refs k = s.refs k := by
    intro k
    unfold State.refs
    have hsum : (s.addDesc x).numDescs = s.numDescs + 1 := rfl
    rw [hsum,Finset.sum_range_succ,hdesc,hx.2]
    simp only [Bool.false_eq_true, ↓reduceIte, Nat.add_zero]
    exact Finset.sum_congr rfl fun e he => by rw [hother e (Finset.mem_range.mp he)]
  refine ⟨h.nodup,h.mem_lt,h.disjoint,h.range,fun k hk => (h.tgt_lt k hk).trans (Nat.lt_succ_self _),h.link,
    fun k hk hf => ?_,fun k hk hf => ?_,fun k hk hf => ?_,fun e he k hm => ?_,h.pend_known,fun e he => ?_,fun e he => ?_⟩
  · change ((s.addDesc x).desc (s.key k).tgt).refcount = _ ∧ ((s.addDesc x).desc (s.key k).tgt).releases = 0
    rw [hother _ (h.tgt_lt k hk)]
    exact h.permanent k hk hf
  · change ((s.addDesc x).desc (s.key k).tgt).refcount ≠ _ ∧ _
    rw [hother _ (h.tgt_lt k hk)]
    exact h.finite k hk hf
  · rw [hrefs]
    exact h.count k hk hf
  · change e < s.numDescs + 1 at he
    by_cases hed : e = s.numDescs
    · rw [hed,hdesc,hx.1] at hm
      cases hm
    · rw [hother e (by omega)] at hm
      exact h.list_known e (by omega) k hm
  · change e < s.numDescs + 1 at he
    by_cases hed : e = s.numDescs
    · subst hed
      have howned : (s.addDesc x).owned s.numDescs = 0 := by
        refine List.countP_eq_zero.mpr fun k hk => ?_
        have := h.tgt_lt k (h.mem_lt k hk)
        simp [State.addDesc, this.ne]
      have hhold : (s.addDesc x).hold held s.numDescs = if held = some s.numDescs then 1 else 0 := by
        unfold State.hold
        rw [hdesc,hx.2]
        simp
      rw [hdesc,howned,hhold,zero_add]
      exact hok
    · have hlt : e < s.numDescs := by omega
      have hhold : (s.addDesc x).hold held e = s.hold none e := by
        unfold State.hold
        rw [hother e hlt,if_neg (hheld e hed).1]
        simp
      rw [hother e hlt,hhold]
      intro hne
      obtain ⟨h1,h2,h3,h4⟩ := h.desc e hlt hne
      refine ⟨h1,h2,h3.trans (and_congr_right fun _ => ?_),h4⟩
      exact iff_of_true nofun (hheld e hed).2
  · by_cases hed : e = s.numDescs
    · rw [hed,hdesc] at he ⊢
      exact ⟨hx.2,hinf he⟩
    · have hsame : (s.addDesc x).desc e = s.desc e := Function.update_of_ne hed _ _
      rw [hsame] at he ⊢
      exact ⟨(h.region e he).1,(h.region e he).2.1,(hheld e hed).1⟩

/-- The list of a structured region takes over the references of the call. -/
theorem setList_inv {os : List (Option ℕ)} (h : Inv exact s os (some d) none) (hd : d < s.numDescs)
    (hu : (s.desc d).mapped = false) :
    Inv exact (s.modifyDesc d fun x => { x with list := os, mapped := true }) [] none none := by
  have hdesc : (s.modifyDesc d fun x => { x with list := os, mapped := true }).desc d =
      { s.desc d with list := os, mapped := true } := Function.update_self ..
  have hother : ∀ e, e ≠ d → (s.modifyDesc d fun x => { x with list := os, mapped := true }).desc e = s.desc e :=
    fun e he => Function.update_of_ne he _ _
  have hcore : ∀ e, ((s.modifyDesc d fun x => { x with list := os, mapped := true }).desc e).refcount =
      (s.desc e).refcount ∧ ((s.modifyDesc d fun x => { x with list := os, mapped := true }).desc e).releases =
      (s.desc e).releases := by
    intro e
    by_cases he : e = d
    · rw [he,hdesc]
      exact ⟨rfl,rfl⟩
    · rw [hother e he]
      exact ⟨rfl,rfl⟩
  have hrefs : ∀ k, (s.modifyDesc d fun x => { x with list := os, mapped := true }).refs k =
      s.refs k + os.count (some k) := by
    intro k
    have hmem : d ∈ Finset.range s.numDescs := Finset.mem_range.mpr hd
    unfold State.refs
    have hsum : (s.modifyDesc d fun x => { x with list := os, mapped := true }).numDescs = s.numDescs := rfl
    rw [hsum,← Finset.add_sum_erase _ _ hmem,← Finset.add_sum_erase (Finset.range s.numDescs) _ hmem,hdesc,hu]
    simp only [↓reduceIte, Bool.false_eq_true, zero_add]
    rw [Nat.add_comm]
    congr 1
    exact Finset.sum_congr rfl fun e he => by rw [hother e (Finset.ne_of_mem_erase he)]
  refine ⟨h.nodup,h.mem_lt,h.disjoint,h.range,h.tgt_lt,h.link,fun k hk hf => ?_,fun k hk hf => ?_,fun k hk hf => ?_,
    fun e he k hm => ?_,fun k hm => absurd hm List.not_mem_nil,fun e he => ?_,fun e he => ?_⟩
  · have hperm := h.permanent k hk hf
    rw [← (hcore _).1,← (hcore _).2] at hperm
    exact hperm
  · obtain ⟨h1,h2⟩ := h.finite k hk hf
    rw [← (hcore _).1] at h1
    exact ⟨h1,h2⟩
  · rw [hrefs,List.count_nil,Nat.add_zero]
    exact h.count k hk hf
  · by_cases hed : e = d
    · rw [hed,hdesc] at hm
      exact h.pend_known k hm
    · rw [hother e hed] at hm
      exact h.list_known e he k hm
  · have hhold : (s.modifyDesc d fun x => { x with list := os, mapped := true }).hold none e = s.hold (some d) e := by
      unfold State.hold
      by_cases hed : e = d
      · subst hed
        rw [hdesc,hu]
        simp
      · have hne : ¬some d = some e := fun e' => hed (Option.some.inj e').symm
        rw [hother e hed,if_neg hne]
        simp
    have hok := h.desc e he
    rw [← hhold] at hok
    unfold DescOk at hok ⊢
    rw [(hcore e).1,(hcore e).2]
    exact hok
  · rw [(hcore e).1] at he
    have hed : e ≠ d := fun e' => (h.region e he).2.2 (by rw [e'])
    rw [hother e hed]
    exact ⟨(h.region e he).1,(h.region e he).2.1,nofun⟩

/-- A descriptor without a region gives up the list it was built with. -/
theorem forget_inv {os : List (Option ℕ)} (h : Inv exact s os held fresh) (hexact : ¬exact) :
    Inv exact s [] held fresh := by
  refine ⟨h.nodup,h.mem_lt,h.disjoint,h.range,h.tgt_lt,h.link,h.permanent,h.finite,fun k hk hf => ⟨?_,fun e => absurd e hexact⟩,
    h.list_known,fun k hm => absurd hm List.not_mem_nil,h.desc,h.region⟩
  have := (h.count k hk hf).1
  rw [List.count_nil]
  omega

theorem ItemOk.addDesc {i : Item} (h : ItemOk s i) (x : Desc) : ItemOk (s.addDesc x) i := by
  cases i with
  | object y => exact h
  | struct a fields => exact h

/-- What the keys of the tree have room for. -/
def RoomFor (s : State) (n : ℕ) : Prop := ∀ k ∈ s.memMap, s.Finite k → (s.key k).refcount + n < refcountLink

theorem RoomFor.room {n : ℕ} (h : RoomFor s n) (hi : Inv exact s pend held fresh) (hn : n < refcountLink) : Room s n := by
  intro k hk hf
  by_cases hm : k ∈ s.memMap
  · exact h k hm hf
  · have := (hi.finite k hk hf).2.2
    have hzero : (s.key k).refcount = 0 := by
      by_contra hne
      exact hm (this.mpr (Nat.pos_of_ne_zero hne))
    omega

theorem gompMapVars_inv {kind : VarsKind} {items : List Item} (h : Inv exact s [] none none)
    (hok : ∀ i ∈ items, ItemOk s i) (hexact : exact → kind ≠ .enterData) (hroom : RoomFor s (numEntries items))
    (hn : numEntries items + 1 < refcountLink) (hs : s.gompMapVars kind items = some s') :
    Inv exact s' [] none none ∧ Fixed links s s' := by
  unfold State.gompMapVars at hs
  obtain ⟨⟨s1,os⟩,hmap,he⟩ := Option.map_eq_some_iff.mp hs
  have hlt := refcountLink_lt
  have hnd : s.numDescs < s.numDescs + 1 := Nat.lt_succ_self _
  by_cases hkind : kind = .enterData
  · -- nothing holds the descriptor until it has keys
    rw [if_pos hkind] at hmap
    have h0 : Inv exact (s.addDesc ⟨0,[],false,0⟩) [] none (some s.numDescs) := by
      refine addDesc_inv h ⟨rfl,rfl⟩ nofun (fun e he => ⟨nofun,fun e' => he (Option.some.inj e').symm⟩) fun _ => ?_
      exact ⟨Nat.zero_le _,fun _ => rfl,by simp,by decide⟩
    have hready : Ready exact (s.addDesc ⟨0,[],false,0⟩) [] none (some s.numDescs) s.numDescs (0 + numEntries items) := by
      have hself : (s.addDesc ⟨0,[],false,0⟩).desc s.numDescs = ⟨0,[],false,0⟩ := Function.update_self ..
      refine ⟨h0,?_,?_,hnd,?_,?_,.inr rfl⟩
      · rw [zero_add]
        exact hroom.room h (by omega)
      · rw [hself]
        dsimp only
        omega
      · rw [hself]
        exact (by decide : 0 ≠ refcountInfinity)
      · rw [hself]
    obtain ⟨h1,hk1⟩ := mapItems_spec (fun i hi => (hok i hi).addDesc _) hready hmap
    have h1' := forget_inv h1.inv fun e => hexact e hkind
    have hrel := Open.releases h1.inv h1.is_open
    obtain ⟨hle,hcount,_,hbound⟩ := h1.inv.desc s.numDescs h1.is_open.lt h1.is_open.refcount
    have hsum := hcount hrel
    have hmod : ∀ f : Desc → Desc, (f (s1.desc s.numDescs)).mapped = (s1.desc s.numDescs).mapped →
        (s1.modifyDesc s.numDescs f).hold none s.numDescs = s1.hold none s.numDescs := by
      intro f hf
      have hself : (s1.modifyDesc s.numDescs f).desc s.numDescs = f (s1.desc s.numDescs) := Function.update_self ..
      unfold State.hold
      rw [hself,hf]
    have hother : ∀ e, e ≠ s.numDescs → ((none : Option ℕ) = some e ↔ (none : Option ℕ) = some e) ∧
        ((none : Option ℕ) = some e ↔ some s.numDescs = some e) := fun e he =>
      ⟨Iff.rfl,iff_of_false nofun fun e' => he (Option.some.inj e').symm⟩
    rw [if_pos hkind] at he
    split at he
    · next hzero =>
      subst he
      refine ⟨setDesc_inv h1' ⟨rfl,rfl⟩ ⟨h1.is_open.refcount,h1.is_open.refcount⟩ hother ?_,hk1.fixed_call rfl rfl rfl rfl⟩
      rw [hmod _ rfl]
      intro _
      dsimp only
      rw [hrel]
      exact ⟨le_rfl,nofun,iff_of_true rfl ⟨by rw [← hsum]; exact hzero,nofun⟩,hbound⟩
    · next hzero =>
      subst he
      have hid : s1.modifyDesc s.numDescs id = s1 := by
        unfold State.modifyDesc
        rw [id,Function.update_eq_self]
      rw [← hid]
      refine ⟨setDesc_inv h1' ⟨rfl,rfl⟩ ⟨h1.is_open.refcount,h1.is_open.refcount⟩ hother ?_,hk1.fixed_call rfl rfl rfl rfl⟩
      rw [hmod _ rfl]
      intro _
      dsimp only [id]
      refine ⟨hle,hcount,?_,hbound⟩
      rw [hrel]
      refine iff_of_false (by omega) fun hc => hzero ?_
      rw [hsum]
      exact hc.1
  · rw [if_neg hkind] at hmap
    have h0 : Inv exact (s.addDesc ⟨1,[],false,0⟩) [] (some s.numDescs) none := by
      refine addDesc_inv h ⟨rfl,rfl⟩ nofun (fun e he => ⟨fun e' => he (Option.some.inj e').symm,nofun⟩) fun _ => ?_
      exact ⟨Nat.zero_le _,fun _ => by simp,by simp,by decide⟩
    have hready : Ready exact (s.addDesc ⟨1,[],false,0⟩) [] (some s.numDescs) none s.numDescs (0 + numEntries items) := by
      have hself : (s.addDesc ⟨1,[],false,0⟩).desc s.numDescs = ⟨1,[],false,0⟩ := Function.update_self ..
      refine ⟨h0,?_,?_,hnd,?_,?_,.inl rfl⟩
      · rw [zero_add]
        exact hroom.room h (by omega)
      · rw [hself]
        dsimp only
        omega
      · rw [hself]
        exact (by decide : 1 ≠ refcountInfinity)
      · rw [hself]
    obtain ⟨h1,hk1⟩ := mapItems_spec (fun i hi => (hok i hi).addDesc _) hready hmap
    rw [List.append_nil] at h1
    rw [if_neg hkind] at he
    subst he
    exact ⟨setList_inv h1.inv h1.is_open.lt h1.is_open.unmapped,hk1.fixed_call rfl rfl rfl rfl⟩

end Descriptors

section Drop

/-- A descriptor that loses one of its n + 1 references. -/
theorem dropDesc_ok {n : ℕ} (hrel : (s.desc d).releases = 0) (hcount : (s.desc d).refcount = n + 1)
    (hbound : (s.desc d).refcount < refcountInfinity) :
    DescOk ((s.dropDesc d).desc d) n False ∧ ((s.dropDesc d).desc d).refcount < refcountInfinity ∧
      ((s.dropDesc d).desc d).list = (s.desc d).list ∧ ((s.dropDesc d).desc d).mapped = (s.desc d).mapped ∧
      ∀ e, e ≠ d → (s.dropDesc d).desc e = s.desc e := by
  unfold State.dropDesc
  split
  · have hself : (s.modifyDesc d fun x => { x with refcount := x.refcount - 1 }).desc d =
        { s.desc d with refcount := (s.desc d).refcount - 1 } := Function.update_self ..
    rw [hself]
    dsimp only
    refine ⟨fun _ => ?_,by omega,rfl,rfl,fun e he => Function.update_of_ne he _ _⟩
    dsimp only
    rw [hrel]
    exact ⟨Nat.zero_le _,fun _ => by omega,iff_of_false nofun fun hc => by have := hc.1; omega,by omega⟩
  · have hself : (s.modifyDesc d fun x => { x with releases := x.releases + 1 }).desc d =
        { s.desc d with releases := (s.desc d).releases + 1 } := Function.update_self ..
    rw [hself]
    refine ⟨fun _ => ?_,hbound,rfl,rfl,fun e he => Function.update_of_ne he _ _⟩
    dsimp only
    rw [hrel]
    exact ⟨le_rfl,nofun,iff_of_true rfl ⟨by omega,not_false⟩,hbound⟩

/-- The state in which an ordinary key has left the tree. -/
structure Dropped (s s' : State) (k : ℕ) : Prop where
  numKeys : s'.numKeys = s.numKeys
  numDescs : s'.numDescs = s.numDescs
  other : ∀ l, l ≠ k → s'.key l = s.key l
  key : s'.key k = { s.key k with refcount := 0 }
  memMap : s'.memMap = (s.key k).linkKey.toList ++ s.memMap.erase k
  apart : ∀ n, (s.key k).linkKey = some n → ∀ l ∈ s.memMap.erase k, ¬s.KeysMeet n l
  desc : s'.desc = (s.dropDesc (s.key k).tgt).desc

theorem remove_setRefcount (r : ℕ) : (s.setRefcount k r).remove k = (s.remove k).setRefcount k r := by
  have hmeets : (s.setRefcount k r).meets (s.key k).hostStart (s.key k).hostEnd =
      s.meets (s.key k).hostStart (s.key k).hostEnd :=
    funext fun l => meets_congr setRefcount_hostStart setRefcount_hostEnd
  unfold State.remove
  rw [setRefcount_hostStart,setRefcount_hostEnd,hmeets]
  rfl

theorem dropDesc_eq (s : State) (d : ℕ) : s.dropDesc d = { s with desc := (s.dropDesc d).desc } := by
  unfold State.dropDesc
  split <;> rfl

theorem dropDesc_congr (h : s'.desc = s.desc) : (s'.dropDesc d).desc = (s.dropDesc d).desc := by
  unfold State.dropDesc State.modifyDesc
  rw [h]
  by_cases hr : (s.desc d).refcount > 1
  · rw [if_pos hr,if_pos hr]
  · rw [if_neg hr,if_neg hr]

theorem unmapKey_dropped (h : Inv exact s pend held fresh) (hk : k ∈ s.memMap)
    (hs : (s.setRefcount k 0).unmapKey k = some s') : Dropped s s' k := by
  have hdrop : ∀ m : List ℕ,
      State.dropDesc { s.setRefcount k 0 with memMap := m } (s.key k).tgt =
        { s.setRefcount k 0 with memMap := m, desc := (s.dropDesc (s.key k).tgt).desc } := by
    intro m
    have hdesc : (State.dropDesc { s.setRefcount k 0 with memMap := m } (s.key k).tgt).desc =
        (s.dropDesc (s.key k).tgt).desc := dropDesc_congr rfl
    rw [dropDesc_eq,hdesc]
  have hself : (s.setRefcount k 0).key k = { s.key k with refcount := 0 } := Function.update_self ..
  have hother : ∀ l, l ≠ k → (s.setRefcount k 0).key l = s.key l := fun l hl => Function.update_of_ne hl _ _
  unfold State.unmapKey at hs
  rw [remove_setRefcount,remove_eq h hk] at hs
  dsimp only at hs
  cases hl : (s.key k).linkKey with
  | none =>
    have hlink : ((({ s with memMap := s.memMap.erase k } : State).setRefcount k 0).key k).linkKey = none :=
      setRefcount_linkKey.trans hl
    rw [hlink] at hs
    simp only [Option.map_some, Option.some.injEq] at hs
    rw [setRefcount_tgt] at hs
    have hs' := (hdrop (s.memMap.erase k)).symm.trans hs
    subst hs'
    exact ⟨rfl,rfl,hother,hself,by rw [hl]; rfl,fun n hn => absurd (hl.symm.trans hn) nofun,rfl⟩
  | some n =>
    have hlink : ((({ s with memMap := s.memMap.erase k } : State).setRefcount k 0).key k).linkKey = some n :=
      setRefcount_linkKey.trans hl
    rw [hlink] at hs
    obtain ⟨s1,hins,he⟩ := Option.map_eq_some_iff.mp hs
    obtain ⟨rfl,hno⟩ := insert_spec hins
    dsimp only at he
    rw [setRefcount_tgt] at he
    have hs' := (hdrop (n :: s.memMap.erase k)).symm.trans he
    subst hs'
    refine ⟨rfl,rfl,hother,hself,by rw [hl]; rfl,fun m hm l hml => ?_,rfl⟩
    rw [hl] at hm
    cases hm
    have := hno l hml
    unfold State.KeysMeet at this ⊢
    rw [setRefcount_hostStart,setRefcount_hostEnd,meets_congr setRefcount_hostStart setRefcount_hostEnd] at this
    exact this

theorem Dropped.finite_iff (hw : Dropped s s' k) (hf : s.Finite k) (l : ℕ) : s'.Finite l ↔ s.Finite l := by
  by_cases hl : l = k
  · subst hl
    refine iff_of_true ?_ hf
    unfold State.Finite
    rw [hw.key]
    exact (by decide : 0 ≠ refcountInfinity ∧ 0 ≠ refcountLink)
  · unfold State.Finite
    rw [hw.other l hl]

theorem Dropped.object (hw : Dropped s s' k) (l : ℕ) : (s'.key l).hostStart = (s.key l).hostStart ∧
    (s'.key l).hostEnd = (s.key l).hostEnd ∧ (s'.key l).tgt = (s.key l).tgt ∧ (s'.key l).linkKey = (s.key l).linkKey := by
  by_cases hl : l = k
  · rw [hl,hw.key]
    exact ⟨rfl,rfl,rfl,rfl⟩
  · rw [hw.other l hl]
    exact ⟨rfl,rfl,rfl,rfl⟩

theorem Dropped.meet_iff (hw : Dropped s s' k) (a b : ℕ) : s'.KeysMeet a b ↔ s.KeysMeet a b := by
  unfold State.KeysMeet
  rw [meets_congr (hw.object b).1 (hw.object b).2.1,(hw.object a).1,(hw.object a).2.1]

/-- The descriptor of the key is the only one that loses a key of the tree. -/
theorem Dropped.owned (hw : Dropped s s' k) (h : Inv exact s pend held fresh) (hk : k ∈ s.memMap) {e : ℕ}
    (he : (s.desc e).refcount ≠ refcountInfinity) :
    s'.owned e + (if (s.key k).tgt = e then 1 else 0) = s.owned e := by
  have htgt : ∀ l : List ℕ, l.countP (fun l => decide ((s'.key l).tgt = e)) =
      l.countP fun l => decide ((s.key l).tgt = e) :=
    fun l => List.countP_congr fun a _ => by rw [(hw.object a).2.2.1]
  have hlink : (s.key k).linkKey.toList.countP (fun l => decide ((s.key l).tgt = e)) = 0 := by
    refine List.countP_eq_zero.mpr fun n hn => ?_
    obtain ⟨hlt,hl⟩ := h.link k (h.mem_lt k hk) n (Option.mem_toList.mp hn)
    have hinf := (h.permanent n hlt fun hf => hf.2 hl).1
    simp only [decide_eq_true_eq]
    rintro rfl
    exact he hinf
  have hperm := (List.perm_cons_erase hk).countP_eq fun l => decide ((s.key l).tgt = e)
  unfold State.owned
  rw [hw.memMap,List.countP_append,htgt,htgt,hlink,hperm,List.countP_cons]
  simp only [decide_eq_true_eq]
  omega

theorem mem_erase_ne (h : Inv exact s pend held fresh) {l : ℕ} (hl : l ∈ s.memMap.erase k) : l ∈ s.memMap ∧ l ≠ k :=
  ⟨List.mem_of_mem_erase hl,fun e => (List.Nodup.not_mem_erase h.nodup) (e ▸ hl)⟩

/-- The link object that comes back meets none of the keys that stay. -/
theorem Dropped.disjoint (hw : Dropped s s' k) (h : Inv exact s pend held fresh) {a b : ℕ} (ha : a ∈ s'.memMap)
    (hb : b ∈ s'.memMap) (hab : a ≠ b) : ¬s'.KeysMeet a b := by
  rw [hw.meet_iff]
  rw [hw.memMap] at ha hb
  rcases List.mem_append.mp ha with ha | ha <;> rcases List.mem_append.mp hb with hb | hb
  · have e := (Option.mem_toList.mp ha).symm.trans (Option.mem_toList.mp hb)
    exact absurd (Option.some.inj e) hab
  · exact hw.apart a (Option.mem_toList.mp ha) b hb
  · exact fun hm => hw.apart b (Option.mem_toList.mp hb) a ha (KeysMeet.symm hm)
  · exact h.disjoint a (mem_erase_ne h ha).1 b (mem_erase_ne h hb).1 hab

theorem Dropped.known (hw : Dropped s s' k) {l : ℕ} (hl : s.Known l) : s'.Known l := by
  refine ⟨by rw [hw.numKeys]; exact hl.1,?_⟩
  by_cases e : l = k
  · rw [e,hw.key]
    exact (by decide : 0 ≠ refcountLink)
  · rw [hw.other l e]
    exact hl.2

/-- The descriptor of the key counts one reference less, and keeps its list. -/
structure DropsDesc (s s' : State) (held : Option ℕ) (k : ℕ) : Prop where
  permanent : (s.desc (s.key k).tgt).refcount ≠ refcountInfinity
  ok : DescOk (s'.desc (s.key k).tgt) (s'.owned (s.key k).tgt + s.hold held (s.key k).tgt) False
  bound : (s'.desc (s.key k).tgt).refcount < refcountInfinity
  mapped : ∀ e, (s'.desc e).mapped = (s.desc e).mapped ∧ (s'.desc e).list = (s.desc e).list
  other : ∀ e, e ≠ (s.key k).tgt → s'.desc e = s.desc e

theorem Dropped.drops (hw : Dropped s s' k) (h : Inv exact s pend held none) (hk : k ∈ s.memMap) (hf : s.Finite k) :
    DropsDesc s s' held k := by
  have hlt := h.mem_lt k hk
  obtain ⟨hinf,_,_⟩ := h.finite k hlt hf
  obtain ⟨_,hcount,hone,hbound⟩ := h.desc _ (h.tgt_lt k hlt) hinf
  have howned := hw.owned h hk hinf
  rw [if_pos rfl] at howned
  have hrel : (s.desc (s.key k).tgt).releases = 0 := by
    by_contra hne
    have := (hone.mp (by omega)).1
    omega
  obtain ⟨hdok,hdlt,hdlist,hdmapped,hdother⟩ := dropDesc_ok (n := s'.owned (s.key k).tgt + s.hold held (s.key k).tgt)
    hrel (by rw [hcount hrel]; omega) hbound
  rw [← hw.desc] at hdok hdlt hdlist hdmapped hdother
  refine ⟨hinf,hdok,hdlt,fun e => ?_,hdother⟩
  by_cases he : e = (s.key k).tgt
  · rw [he]
    exact ⟨hdmapped,hdlist⟩
  · rw [hdother e he]
    exact ⟨rfl,rfl⟩

/-- The other ordinary keys are counted and in the tree as before. -/
theorem Dropped.finite (hw : Dropped s s' k) (hd : DropsDesc s s' held k) (h : Inv exact s pend held none)
    (hk : k ∈ s.memMap) (hf : s.Finite k) {l : ℕ} (hl : l < s.numKeys) (hlf : s'.Finite l) :
    (s'.desc (s'.key l).tgt).refcount ≠ refcountInfinity ∧
      (s'.key l).refcount < refcountLink ∧ (l ∈ s'.memMap ↔ 0 < (s'.key l).refcount) := by
  rw [hw.finite_iff hf] at hlf
  obtain ⟨h1,h2,h3⟩ := h.finite l hl hlf
  have hmem : l ∈ s'.memMap ↔ l ∈ s.memMap.erase k := by
    rw [hw.memMap,List.mem_append]
    refine or_iff_right fun hm => ?_
    exact hlf.2 (h.link k (h.mem_lt k hk) l (Option.mem_toList.mp hm)).2
  rw [hmem,(hw.object l).2.2.1]
  refine ⟨?_,?_⟩
  · by_cases e : (s.key l).tgt = (s.key k).tgt
    · rw [e]
      exact hd.bound.ne
    · rw [hd.other _ e]
      exact h1
  · by_cases e : l = k
    · rw [e,hw.key]
      exact ⟨(by decide : 0 < refcountLink),iff_of_false (List.Nodup.not_mem_erase h.nodup) (lt_irrefl 0)⟩
    · rw [hw.other l e,List.mem_erase_of_ne e]
      exact ⟨h2,h3⟩

/-- Every descriptor counts the keys that are left. -/
theorem Dropped.descOk (hw : Dropped s s' k) (hd : DropsDesc s s' held k) (h : Inv exact s pend held none)
    (hk : k ∈ s.memMap) {e : ℕ} (he : e < s.numDescs) :
    DescOk (s'.desc e) (s'.owned e + s'.hold held e) (none = some e) := by
  have hhold : s'.hold held e = s.hold held e := by
    unfold State.hold
    rw [(hd.mapped e).1]
  rw [hhold]
  by_cases hed : e = (s.key k).tgt
  · rw [hed]
    intro hne
    obtain ⟨h1,h2,h3,h4⟩ := hd.ok hne
    exact ⟨h1,h2,h3.trans (and_congr_right fun _ => iff_of_true not_false nofun),h4⟩
  · intro hne
    rw [hd.other e hed] at hne
    have howned := hw.owned h hk hne
    rw [if_neg (Ne.symm hed),Nat.add_zero] at howned
    rw [howned,hd.other e hed]
    exact h.desc e he hne

/-- A key without references is gone, and its descriptor may go with it. -/
theorem Dropped.inv (hw : Dropped s s' k) (h : Inv exact s pend held none) (hk : k ∈ s.memMap) (hf : s.Finite k)
    {pend' : List (Option ℕ)} (hsame : ∀ l, l ≠ k → pend'.count (some l) = pend.count (some l))
    (hzero : s.refs k + pend'.count (some k) = 0) : Inv exact s' pend' held none := by
  have hd := hw.drops h hk hf
  have hlink : ∀ n, (s.key k).linkKey = some n → n < s.numKeys ∧ (s.key n).refcount = refcountLink :=
    h.link k (h.mem_lt k hk)
  constructor
  · rw [hw.memMap]
    cases hl : (s.key k).linkKey with
    | none => exact h.nodup.erase k
    | some n =>
      refine List.nodup_cons.mpr ⟨fun hm => ?_,h.nodup.erase k⟩
      exact hw.apart n hl n hm (meets_self (h.range n (hlink n hl).1))
  · intro l hl
    rw [hw.numKeys]
    rw [hw.memMap] at hl
    rcases List.mem_append.mp hl with hl | hl
    · exact (hlink l (Option.mem_toList.mp hl)).1
    · exact h.mem_lt l (mem_erase_ne h hl).1
  · exact fun a ha b hb hab => hw.disjoint h ha hb hab
  · intro l hl
    rw [hw.numKeys] at hl
    rw [(hw.object l).1,(hw.object l).2.1]
    exact h.range l hl
  · intro l hl
    rw [hw.numKeys] at hl
    rw [(hw.object l).2.2.1,hw.numDescs]
    exact h.tgt_lt l hl
  · intro l hl n hn
    rw [hw.numKeys] at hl ⊢
    rw [(hw.object l).2.2.2] at hn
    obtain ⟨hnlt,hnl⟩ := h.link l hl n hn
    refine ⟨hnlt,?_⟩
    rw [hw.other]
    · exact hnl
    · rintro rfl
      exact hf.2 hnl
  · intro l hl hnf
    rw [hw.numKeys] at hl
    rw [hw.finite_iff hf] at hnf
    have hperm := h.permanent l hl hnf
    rw [(hw.object l).2.2.1,hd.other]
    · exact hperm
    · intro e
      exact hd.permanent (e ▸ hperm.1)
  · intro l hl hlf
    rw [hw.numKeys] at hl
    exact hw.finite hd h hk hf hl hlf
  · intro l hl hlf
    rw [hw.numKeys] at hl
    rw [hw.finite_iff hf] at hlf
    rw [refs_congr (s := s) hw.numDescs fun e _ => hd.mapped e]
    by_cases e : l = k
    · subst e
      rw [hw.key,hzero]
      exact ⟨le_rfl,fun _ => rfl⟩
    · rw [hsame l e,hw.other l e]
      exact h.count l hl hlf
  · intro e he l hm
    rw [hw.numDescs] at he
    rw [(hd.mapped e).2] at hm
    exact hw.known (h.list_known e he l hm)
  · intro l hm
    by_cases e : l = k
    · have hpos := List.count_pos_iff.mpr hm
      rw [e] at hpos
      omega
    · refine hw.known (h.pend_known l ?_)
      rw [← List.count_pos_iff,← hsame l e]
      exact List.count_pos_iff.mpr hm
  · intro e he
    rw [hw.numDescs] at he
    exact hw.descOk hd h hk he
  · intro e he
    by_cases hed : e = (s.key k).tgt
    · rw [hed] at he
      exact absurd he hd.bound.ne
    · rw [hd.other e hed] at he ⊢
      exact h.region e he

theorem Dropped.fixed (hw : Dropped s s' k) (hf : s.Finite k) : Fixed links s s' := by
  refine ⟨hw.numKeys.ge,fun l _ hnf => ?_,fun l _ hlf => (hw.finite_iff hf l).mpr hlf,fun l hl hge => ?_⟩
  · rw [hw.other]
    rintro rfl
    exact hnf hf
  · rw [hw.numKeys] at hl
    exact absurd hl (Nat.not_lt.mpr hge)

end Drop

end GompUlt.Target
