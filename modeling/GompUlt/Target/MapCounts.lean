import GompUlt.Target.DeviceMap

/-! # The reference counts of mapped objects

The invariant of the tree and of the counters is stated for a call in progress: `pend` are the
references that a list which is being built or taken apart still holds, `held` is the descriptor
whose region is being opened or closed, and `fresh` is one that holds no reference yet.
-/
namespace GompUlt.Target

/-- The count of the key is an ordinary number. -/
def State.Finite (s : State) (k : ℕ) : Prop :=
  (s.key k).refcount ≠ refcountInfinity ∧ (s.key k).refcount ≠ refcountLink

/-- The key can be referenced from a list. -/
def State.Known (s : State) (k : ℕ) : Prop := k < s.numKeys ∧ (s.key k).refcount ≠ refcountLink

def State.KeysMeet (s : State) (k l : ℕ) : Prop := s.meets (s.key k).hostStart (s.key k).hostEnd l = true

/-- The region of the descriptor counts for one. -/
def State.hold (s : State) (held : Option ℕ) (d : ℕ) : ℕ :=
  (if (s.desc d).mapped then 1 else 0) + if held = some d then 1 else 0

/-- A descriptor that counts n references: it is freed when there are none, and only once. -/
def DescOk (x : Desc) (n : ℕ) (exempt : Prop) : Prop :=
  x.refcount ≠ refcountInfinity →
    x.releases ≤ 1 ∧ (x.releases = 0 → x.refcount = n) ∧ (x.releases = 1 ↔ n = 0 ∧ ¬exempt) ∧
      x.refcount < refcountInfinity

structure Inv (exact : Prop) (s : State) (pend : List (Option ℕ)) (held fresh : Option ℕ) : Prop where
  nodup : s.memMap.Nodup
  mem_lt : ∀ k ∈ s.memMap, k < s.numKeys
  disjoint : ∀ k ∈ s.memMap, ∀ l ∈ s.memMap, k ≠ l → ¬s.KeysMeet k l
  range : ∀ k < s.numKeys, (s.key k).hostStart < (s.key k).hostEnd
  tgt_lt : ∀ k < s.numKeys, (s.key k).tgt < s.numDescs
  link : ∀ k < s.numKeys, ∀ n, (s.key k).linkKey = some n → n < s.numKeys ∧ (s.key n).refcount = refcountLink
  permanent : ∀ k < s.numKeys, ¬s.Finite k →
    (s.desc (s.key k).tgt).refcount = refcountInfinity ∧ (s.desc (s.key k).tgt).releases = 0
  finite : ∀ k < s.numKeys, s.Finite k → (s.desc (s.key k).tgt).refcount ≠ refcountInfinity ∧
    (s.key k).refcount < refcountLink ∧ (k ∈ s.memMap ↔ 0 < (s.key k).refcount)
  count : ∀ k < s.numKeys, s.Finite k → s.refs k + pend.count (some k) ≤ (s.key k).refcount ∧
    (exact → s.refs k + pend.count (some k) = (s.key k).refcount)
  list_known : ∀ d < s.numDescs, ∀ k, some k ∈ (s.desc d).list → s.Known k
  pend_known : ∀ k, some k ∈ pend → s.Known k
  desc : ∀ d < s.numDescs, DescOk (s.desc d) (s.owned d + s.hold held d) (fresh = some d)
  region : ∀ d, (s.desc d).refcount = refcountInfinity →
    (s.desc d).mapped = false ∧ (s.desc d).releases = 0 ∧ held ≠ some d

theorem init_inv (exact : Prop) : Inv exact init [] none none := by
  constructor <;> simp [init]

section Fields
variable {s : State} {k l d r : ℕ} {f : Desc → Desc}

@[simp] theorem setRefcount_hostStart : ((s.setRefcount k r).key l).hostStart = (s.key l).hostStart := by
  by_cases h : l = k <;> simp [State.setRefcount, h]

@[simp] theorem setRefcount_hostEnd : ((s.setRefcount k r).key l).hostEnd = (s.key l).hostEnd := by
  by_cases h : l = k <;> simp [State.setRefcount, h]

@[simp] theorem setRefcount_tgt : ((s.setRefcount k r).key l).tgt = (s.key l).tgt := by
  by_cases h : l = k <;> simp [State.setRefcount, h]

@[simp] theorem setRefcount_linkKey : ((s.setRefcount k r).key l).linkKey = (s.key l).linkKey := by
  by_cases h : l = k <;> simp [State.setRefcount, h]

theorem setRefcount_refcount :
    ((s.setRefcount k r).key l).refcount = if l = k then r else (s.key l).refcount := by
  by_cases h : l = k <;> simp [State.setRefcount, h]

@[simp] theorem setRefcount_rest : (s.setRefcount k r).numKeys = s.numKeys ∧
    (s.setRefcount k r).desc = s.desc ∧ (s.setRefcount k r).numDescs = s.numDescs ∧
    (s.setRefcount k r).memMap = s.memMap := ⟨rfl,rfl,rfl,rfl⟩

/-- Two states with the same tree and the same ranges have the same overlaps. -/
theorem meets_congr {s' : State} {a b : ℕ} (h1 : (s'.key l).hostStart = (s.key l).hostStart)
    (h2 : (s'.key l).hostEnd = (s.key l).hostEnd) : s'.meets a b l = s.meets a b l := by
  unfold State.meets
  rw [h1,h2]

/-- The references are read off the lists. -/
theorem refs_congr {s' : State} (hn : s'.numDescs = s.numDescs)
    (hd : ∀ d < s.numDescs, (s'.desc d).mapped = (s.desc d).mapped ∧ (s'.desc d).list = (s.desc d).list) :
    s'.refs k = s.refs k := by
  unfold State.refs
  rw [hn]
  refine Finset.sum_congr rfl fun d hm => ?_
  rw [(hd d (Finset.mem_range.mp hm)).1,(hd d (Finset.mem_range.mp hm)).2]

theorem owned_congr {s' : State} (hm : s'.memMap = s.memMap) (ht : ∀ l ∈ s.memMap, (s'.key l).tgt = (s.key l).tgt) :
    s'.owned d = s.owned d := by
  unfold State.owned
  rw [hm]
  exact List.countP_congr fun l hl => by rw [ht l hl]

end Fields

section Tree
variable {exact : Prop} {s s' : State} {pend : List (Option ℕ)} {held fresh : Option ℕ} {k : ℕ}

theorem meets_self (h : (s.key k).hostStart < (s.key k).hostEnd) : s.KeysMeet k k := by
  unfold State.KeysMeet State.meets overlaps
  simp
  omega

theorem meets_of_point {a b x l : ℕ} (h1 : a ≤ x) (h2 : x < b) (h3 : (s.key l).hostStart ≤ x)
    (h4 : x < (s.key l).hostEnd) : s.meets a b l = true := by
  unfold State.meets overlaps
  simp
  omega

theorem lookup_some {a b : ℕ} (h : s.lookup a b = some k) : k ∈ s.memMap ∧ s.meets a b k = true :=
  ⟨List.mem_of_find?_eq_some h,List.find?_some h⟩

theorem insert_spec (h : s.insert k = some s') : s' = { s with memMap := k :: s.memMap } ∧
    ∀ l ∈ s.memMap, ¬s.KeysMeet k l := by
  unfold State.insert at h
  split at h
  · cases h
  · next hn =>
    refine ⟨(Option.some.inj h).symm,fun l hl hm => hn ?_⟩
    unfold State.lookup
    rw [List.find?_isSome]
    exact ⟨l,hl,hm⟩

/-- A key of the tree is the only one that splay_tree_remove can find for it. -/
theorem remove_eq (h : Inv exact s pend held fresh) (hk : k ∈ s.memMap) :
    s.remove k = { s with memMap := s.memMap.erase k } := by
  have hp : ∀ l ∈ s.memMap, s.meets (s.key k).hostStart (s.key k).hostEnd l = (l == k) := by
    intro l hl
    by_cases hlk : l = k
    · subst hlk
      rw [beq_self_eq_true]
      exact meets_self (h.range l (h.mem_lt l hl))
    · rw [beq_false_of_ne hlk,Bool.eq_false_iff]
      exact h.disjoint k hk l hl (Ne.symm hlk)
  unfold State.remove
  rw [List.erase_eq_eraseP',State.mk.injEq]
  refine ⟨rfl,rfl,rfl,rfl,?_⟩
  have congr : ∀ (m : List ℕ) (p q : ℕ → Bool), (∀ l ∈ m, p l = q l) → m.eraseP p = m.eraseP q := by
    intro m p q hpq
    induction m with
    | nil => rfl
    | cons a m ih =>
      rw [List.eraseP_cons,List.eraseP_cons,hpq a List.mem_cons_self,
        ih fun l hl => hpq l (List.mem_cons_of_mem a hl)]
  exact congr _ _ _ hp

end Tree

/-- What a part of gomp_map_vars leaves as it is: the objects of the keys, the counts that are not
numbers, and the tree, from which only link objects go. -/
structure Keeps (s s' : State) : Prop where
  numKeys : s.numKeys ≤ s'.numKeys
  numDescs : s'.numDescs = s.numDescs
  object : ∀ k < s.numKeys, (s'.key k).hostStart = (s.key k).hostStart ∧ (s'.key k).hostEnd = (s.key k).hostEnd
  permanent : ∀ k < s.numKeys, ¬s.Finite k → (s'.key k).refcount = (s.key k).refcount
  finite : ∀ k < s.numKeys, s.Finite k → s'.Finite k
  new : ∀ k < s'.numKeys, s.numKeys ≤ k → s'.Finite k
  mem : ∀ k ∈ s.memMap, (s.key k).refcount ≠ refcountLink → k ∈ s'.memMap
  old : ∀ k ∈ s'.memMap, k < s.numKeys → k ∈ s.memMap

theorem Keeps.refl (s : State) : Keeps s s :=
  ⟨le_rfl,rfl,fun _ _ => ⟨rfl,rfl⟩,fun _ _ _ => rfl,fun _ _ h => h,fun _ h h' => absurd h (Nat.not_lt.mpr h'),
    fun _ h _ => h,fun _ h _ => h⟩

theorem Keeps.link_iff {s s' : State} (h : Keeps s s') {k : ℕ} (hk : k < s.numKeys) :
    (s'.key k).refcount = refcountLink ↔ (s.key k).refcount = refcountLink := by
  constructor
  · intro hl
    by_contra hn
    by_cases hf : s.Finite k
    · exact (h.finite k hk hf).2 hl
    · exact hn ((h.permanent k hk hf).symm.trans hl)
  · intro hl
    rw [h.permanent k hk fun hf => hf.2 hl]
    exact hl

theorem Keeps.trans {s s' s'' : State} (h : Keeps s s') (h' : Keeps s' s'') (hlt : ∀ k ∈ s.memMap, k < s.numKeys) :
    Keeps s s'' := by
  have hle : ∀ k, k < s.numKeys → k < s'.numKeys := fun k hk => lt_of_lt_of_le hk h.numKeys
  constructor
  · exact h.numKeys.trans h'.numKeys
  · exact h'.numDescs.trans h.numDescs
  · intro k hk
    rw [(h'.object k (hle k hk)).1,(h'.object k (hle k hk)).2]
    exact h.object k hk
  · intro k hk hf
    have hrc := h.permanent k hk hf
    have hf' : ¬s'.Finite k := by
      unfold State.Finite
      rw [hrc]
      exact hf
    rw [h'.permanent k (hle k hk) hf',hrc]
  · exact fun k hk hf => h'.finite k (hle k hk) (h.finite k hk hf)
  · intro k hk hge
    by_cases hlt' : k < s'.numKeys
    · exact h'.finite k hlt' (h.new k hlt' hge)
    · exact h'.new k hk (Nat.not_lt.mp hlt')
  · intro k hk hl
    exact h'.mem k (h.mem k hk hl) fun e => hl ((h.link_iff (hlt k hk)).mp e)
  · exact fun k hk hlt' => h.old k (h'.old k hk (hle k hlt')) hlt'

/-- There is room for n more references to every key. -/
def Room (s : State) (n : ℕ) : Prop := ∀ k < s.numKeys, s.Finite k → (s.key k).refcount + n < refcountLink

theorem refcountLink_lt : refcountLink < refcountInfinity ∧ refcountInfinity < wordSize := by decide

section AddRef
variable {exact : Prop} {s : State} {pend : List (Option ℕ)} {held fresh : Option ℕ} {k : ℕ}

/-- Only how often a key is referenced matters. -/
theorem Inv.congr {pend' : List (Option ℕ)} (h : Inv exact s pend held fresh)
    (hp : ∀ k, pend'.count (some k) = pend.count (some k)) : Inv exact s pend' held fresh := by
  refine ⟨h.nodup,h.mem_lt,h.disjoint,h.range,h.tgt_lt,h.link,h.permanent,h.finite,fun k hk hf => ?_,h.list_known,
    fun k hk => h.pend_known k ?_,h.desc,h.region⟩
  · rw [hp]
    exact h.count k hk hf
  · rw [← List.count_pos_iff,← hp k]
    exact List.count_pos_iff.mpr hk

/-- A change of the count of one key, together with its references. -/
theorem setRefcount_inv (h : Inv exact s pend held fresh) (hk : k < s.numKeys) (hf : s.Finite k) {r : ℕ}
    (hr : r < refcountLink) (hmem : 0 < r ↔ k ∈ s.memMap) {pend' : List (Option ℕ)}
    (hother : ∀ l, l ≠ k → pend'.count (some l) = pend.count (some l))
    (hle : s.refs k + pend'.count (some k) ≤ r ∧ (exact → s.refs k + pend'.count (some k) = r))
    (hknown : ∀ l, some l ∈ pend' → s.Known l) : Inv exact (s.setRefcount k r) pend' held fresh := by
  have hrefs : ∀ l, (s.setRefcount k r).refs l = s.refs l := fun l => refs_congr rfl fun d _ => ⟨rfl,rfl⟩
  have hfin : ∀ l, (s.setRefcount k r).Finite l ↔ s.Finite l := by
    intro l
    unfold State.Finite
    rw [setRefcount_refcount]
    split
    · next e =>
      subst e
      have := refcountLink_lt
      exact iff_of_true ⟨by omega,by omega⟩ hf
    · exact Iff.rfl
  have hkeep : ∀ l, s.Known l → (s.setRefcount k r).Known l := by
    rintro l ⟨hl,hne⟩
    refine ⟨hl,?_⟩
    rw [setRefcount_refcount]
    split
    · exact hr.ne
    · exact hne
  constructor
  · exact h.nodup
  · exact h.mem_lt
  · intro a ha b hb hab
    have := h.disjoint a ha b hb hab
    unfold State.KeysMeet at this ⊢
    rw [setRefcount_hostStart,setRefcount_hostEnd,meets_congr setRefcount_hostStart setRefcount_hostEnd]
    exact this
  · intro a ha
    rw [setRefcount_hostStart,setRefcount_hostEnd]
    exact h.range a ha
  · intro a ha
    rw [setRefcount_tgt]
    exact h.tgt_lt a ha
  · intro a ha n hn
    rw [setRefcount_linkKey] at hn
    obtain ⟨hnlt,hnl⟩ := h.link a ha n hn
    refine ⟨hnlt,?_⟩
    rw [setRefcount_refcount,if_neg]
    · exact hnl
    · rintro rfl
      exact hf.2 hnl
  · intro a ha hnf
    rw [hfin] at hnf
    rw [setRefcount_tgt]
    exact h.permanent a ha hnf
  · intro a ha haf
    rw [hfin] at haf
    obtain ⟨h1,h2⟩ := h.finite a ha haf
    rw [setRefcount_tgt,setRefcount_refcount]
    refine ⟨h1,?_⟩
    split
    · next e => exact ⟨hr,e ▸ hmem.symm⟩
    · exact h2
  · intro a ha haf
    rw [hfin] at haf
    rw [hrefs,setRefcount_refcount]
    split
    · next e => exact e ▸ hle
    · next hne =>
      rw [hother a hne]
      exact h.count a ha haf
  · exact fun d hd l hl => hkeep l (h.list_known d hd l hl)
  · exact fun l hl => hkeep l (hknown l hl)
  · intro d hd
    have howned : (s.setRefcount k r).owned d = s.owned d := owned_congr rfl fun l _ => setRefcount_tgt
    rw [howned]
    exact h.desc d hd
  · exact h.region

theorem setRefcount_keeps (hf : s.Finite k) {r : ℕ} (hr : r < refcountLink) : Keeps s (s.setRefcount k r) := by
  refine ⟨le_rfl,rfl,fun l _ => ⟨setRefcount_hostStart,setRefcount_hostEnd⟩,fun l _ hnf => ?_,fun l _ hl => ?_,
    fun _ h h' => absurd h (Nat.not_lt.mpr h'),fun _ hm _ => hm,fun _ hm _ => hm⟩
  · rw [setRefcount_refcount,if_neg]
    rintro rfl
    exact hnf hf
  · unfold State.Finite
    rw [setRefcount_refcount]
    split
    · have := refcountLink_lt
      exact ⟨by omega,by omega⟩
    · exact hl

/-- One more reference to a key of the tree. -/
theorem addRef_inv (h : Inv exact s pend held fresh) (hk : k ∈ s.memMap) (hl : (s.key k).refcount ≠ refcountLink)
    {n : ℕ} (hroom : Room s (n + 1)) :
    Inv exact (s.addRef k) (some k :: pend) held fresh ∧ Keeps s (s.addRef k) ∧ Room (s.addRef k) n ∧
      (s.addRef k).desc = s.desc := by
  have hlt := h.mem_lt k hk
  have hsmaller : Room s n := fun l hl hlf => by have := hroom l hl hlf; omega
  unfold State.addRef
  split
  · next hinf =>
    have hf : s.Finite k := ⟨hinf,hl⟩
    have hbound := hroom k hlt hf
    have hw := refcountLink_lt
    rw [Nat.mod_eq_of_lt (by omega)]
    have hc := h.count k hlt hf
    refine ⟨setRefcount_inv h hlt hf (by omega) ⟨fun _ => hk,fun _ => Nat.succ_pos _⟩ ?_ ?_ ?_,
      setRefcount_keeps hf (by omega),?_,rfl⟩
    · intro l hne
      rw [List.count_cons_of_ne]
      exact fun e => hne (Option.some.inj e).symm
    · rw [List.count_cons_self]
      exact ⟨by omega,fun he => by have := hc.2 he; omega⟩
    · intro l hm
      rcases List.mem_cons.mp hm with e | hm
      · cases e
        exact ⟨hlt,hl⟩
      · exact h.pend_known l hm
    · intro l hl hlf
      have hlf' : s.Finite l := by
        by_cases e : l = k
        · exact e ▸ hf
        · unfold State.Finite at hlf
          rw [setRefcount_refcount,if_neg e] at hlf
          exact hlf
      have := hroom l hl hlf'
      rw [setRefcount_refcount]
      split
      · next e => subst e; omega
      · omega
  · next hinf =>
    have hinf' : (s.key k).refcount = refcountInfinity := not_not.mp hinf
    refine ⟨⟨h.nodup,h.mem_lt,h.disjoint,h.range,h.tgt_lt,h.link,h.permanent,h.finite,fun l hl hlf => ?_,h.list_known,
      fun l hm => ?_,h.desc,h.region⟩,Keeps.refl s,hsmaller,rfl⟩
    · rw [List.count_cons_of_ne]
      · exact h.count l hl hlf
      · intro e
        cases e
        exact hlf.1 hinf'
    · rcases List.mem_cons.mp hm with e | hm
      · cases e
        exact ⟨hlt,hl⟩
      · exact h.pend_known l hm

end AddRef

section NewKey
variable {exact : Prop} {s s' : State} {pend : List (Option ℕ)} {held fresh : Option ℕ} {d : ℕ} {x : Obj}

theorem KeysMeet.symm {k l : ℕ} (h : s.KeysMeet k l) : s.KeysMeet l k := by
  unfold State.KeysMeet State.meets overlaps at h ⊢
  rw [Bool.or_comm (decide ((s.key k).hostEnd ≤ (s.key l).hostStart)),
    Bool.and_comm (decide ((s.key k).hostStart = (s.key k).hostEnd))] at h
  exact h

/-- The tree without the link object that the new key replaces. -/
def withoutLink (s : State) : Option ℕ → List ℕ
  | none => s.memMap
  | some n => s.memMap.erase n

/-- The state with the new key. -/
structure WithKey (s s' : State) (d : ℕ) (x : Obj) (linkKey : Option ℕ) : Prop where
  numKeys : s'.numKeys = s.numKeys + 1
  numDescs : s'.numDescs = s.numDescs
  old : ∀ l < s.numKeys, s'.key l = s.key l
  new : s'.key s.numKeys = ⟨x.hostaddr,x.hostEnd,d,1,linkKey⟩
  memMap : s'.memMap = s.numKeys :: withoutLink s linkKey
  other : ∀ e, e ≠ d → s'.desc e = s.desc e
  desc : s'.desc d = { s.desc d with refcount := ((s.desc d).refcount + 1) % wordSize }
  apart : ∀ l ∈ withoutLink s linkKey, l ≠ s.numKeys → s.meets x.hostaddr x.hostEnd l = false

theorem newKey_withKey (h : Inv exact s pend held fresh) {linkKey : Option ℕ} (hlink : ∀ n ∈ linkKey, n ∈ s.memMap)
    (hs : s.newKey d x linkKey = some s') : WithKey s s' d x linkKey := by
  have key : ∀ m : List ℕ, m = withoutLink s linkKey →
      (({ s with
        memMap := m
        key := Function.update s.key s.numKeys ⟨x.hostaddr,x.hostEnd,d,1,linkKey⟩
        numKeys := s.numKeys + 1 } : State).modifyDesc d fun y =>
          { y with refcount := (y.refcount + 1) % wordSize }).insert s.numKeys = some s' →
      WithKey s s' d x linkKey := by
    rintro m rfl hm
    obtain ⟨rfl,hno⟩ := insert_spec hm
    refine ⟨rfl,rfl,fun l hl => Function.update_of_ne hl.ne _ _,Function.update_self ..,rfl,
      fun e he => Function.update_of_ne he _ _,Function.update_self ..,fun l hl hne => ?_⟩
    have := hno l hl
    simpa [State.KeysMeet, State.meets, State.modifyDesc, hne] using this
  cases linkKey with
  | none => exact key s.memMap rfl hs
  | some n =>
    have hn := hlink n rfl
    unfold State.newKey at hs
    dsimp only at hs
    rw [remove_eq h hn] at hs
    exact key (s.memMap.erase n) rfl hs

/-- The descriptor of the call that is in progress. -/
structure Open (s : State) (held fresh : Option ℕ) (d : ℕ) : Prop where
  lt : d < s.numDescs
  refcount : (s.desc d).refcount ≠ refcountInfinity
  unmapped : (s.desc d).mapped = false
  is_open : held = some d ∨ fresh = some d

theorem Open.releases (h : Inv exact s pend held fresh) (hd : Open s held fresh d) : (s.desc d).releases = 0 := by
  obtain ⟨hle,_,hone,_⟩ := h.desc d hd.lt hd.refcount
  by_contra hne
  obtain ⟨hsum,hnot⟩ := hone.mp (by omega)
  rcases hd.is_open with e | e
  · rw [State.hold,if_pos e] at hsum
    omega
  · exact hnot e

/-- A link object belongs to an image, so no other descriptor loses a key when it goes. -/
theorem owned_withoutLink (h : Inv exact s pend held fresh) {linkKey : Option ℕ}
    (hlink : ∀ n ∈ linkKey, n ∈ s.memMap ∧ (s.key n).refcount = refcountLink) {e : ℕ}
    (he : (s.desc e).refcount ≠ refcountInfinity) :
    (withoutLink s linkKey).countP (fun k => (s.key k).tgt = e) = s.owned e := by
  cases linkKey with
  | none => rfl
  | some n =>
    obtain ⟨hn,hl⟩ := hlink n rfl
    have htgt : (s.key n).tgt ≠ e := by
      rintro rfl
      exact he (h.permanent n (h.mem_lt n hn) fun hf => hf.2 hl).1
    have hperm := List.perm_cons_erase hn
    have hcount := hperm.countP_eq fun k => (s.key k).tgt = e
    rw [List.countP_cons_of_neg (by simpa using htgt)] at hcount
    exact hcount.symm

theorem refs_of_ge (h : Inv exact s pend held fresh) {k : ℕ} (hk : s.numKeys ≤ k) : s.refs k = 0 := by
  refine Finset.sum_eq_zero fun d hd => ?_
  split
  · refine List.count_eq_zero_of_not_mem fun hm => ?_
    exact absurd (h.list_known d (Finset.mem_range.mp hd) k hm).1 (Nat.not_lt.mpr hk)
  · rfl

/-- What is left of the tree when the link object goes. -/
theorem withoutLink_spec (h : Inv exact s pend held fresh) {linkKey : Option ℕ}
    (hlink : ∀ n ∈ linkKey, n ∈ s.memMap ∧ (s.key n).refcount = refcountLink) :
    (withoutLink s linkKey).Nodup ∧ (∀ l ∈ withoutLink s linkKey, l ∈ s.memMap) ∧
      ∀ l ∈ s.memMap, (s.key l).refcount ≠ refcountLink → l ∈ withoutLink s linkKey := by
  cases linkKey with
  | none => exact ⟨h.nodup,fun l hl => hl,fun l hl _ => hl⟩
  | some n =>
    refine ⟨h.nodup.erase n,fun l hl => List.mem_of_mem_erase hl,fun l hl hne => ?_⟩
    refine (List.mem_erase_of_ne ?_).mpr hl
    rintro rfl
    exact hne (hlink l rfl).2

theorem WithKey.finite_iff {linkKey : Option ℕ} (hw : WithKey s s' d x linkKey) {k : ℕ} (hk : k < s.numKeys) :
    s'.Finite k ↔ s.Finite k := by
  unfold State.Finite
  rw [hw.old k hk]

theorem WithKey.new_finite {linkKey : Option ℕ} (hw : WithKey s s' d x linkKey) : s'.Finite s.numKeys := by
  unfold State.Finite
  rw [hw.new]
  exact (by decide : 1 ≠ refcountInfinity ∧ 1 ≠ refcountLink)

theorem WithKey.refs_eq {linkKey : Option ℕ} (hw : WithKey s s' d x linkKey) (k : ℕ) : s'.refs k = s.refs k := by
  refine refs_congr hw.numDescs fun e _ => ?_
  by_cases hed : e = d
  · rw [hed,hw.desc]
    exact ⟨rfl,rfl⟩
  · rw [hw.other e hed]
    exact ⟨rfl,rfl⟩

theorem WithKey.keeps {linkKey : Option ℕ} (hw : WithKey s s' d x linkKey) (h : Inv exact s pend held fresh)
    (hlink : ∀ n ∈ linkKey, n ∈ s.memMap ∧ (s.key n).refcount = refcountLink) : Keeps s s' := by
  obtain ⟨_,hsub,hkept⟩ := withoutLink_spec h hlink
  constructor
  · rw [hw.numKeys]
    exact Nat.le_succ _
  · exact hw.numDescs
  · intro k hk
    rw [hw.old k hk]
    exact ⟨rfl,rfl⟩
  · intro k hk _
    rw [hw.old k hk]
  · exact fun k hk hf => (hw.finite_iff hk).mpr hf
  · intro k hk hge
    rw [hw.numKeys] at hk
    obtain rfl : k = s.numKeys := by omega
    exact hw.new_finite
  · intro k hk hl
    rw [hw.memMap]
    exact List.mem_cons_of_mem _ (hkept k hk hl)
  · intro k hk hlt
    rw [hw.memMap] at hk
    rcases List.mem_cons.mp hk with rfl | hm
    · exact absurd hlt (lt_irrefl _)
    · exact hsub k hm

/-- The descriptors count the new key as well. -/
theorem WithKey.descOk {linkKey : Option ℕ} (hw : WithKey s s' d x linkKey) (h : Inv exact s pend held fresh)
    (hd : Open s held fresh d) (hlink : ∀ n ∈ linkKey, n ∈ s.memMap ∧ (s.key n).refcount = refcountLink)
    (hdesc : (s.desc d).refcount + 1 < refcountLink) {e : ℕ} (he : e < s.numDescs) :
    DescOk (s'.desc e) (s'.owned e + s'.hold held e) (fresh = some e) := by
  obtain ⟨_,hsub,_⟩ := withoutLink_spec h hlink
  have hrest : (withoutLink s linkKey).countP (fun k => (s'.key k).tgt = e) =
      (withoutLink s linkKey).countP fun k => (s.key k).tgt = e :=
    List.countP_congr fun k hk => by rw [hw.old k (h.mem_lt k (hsub k hk))]
  have howned : s'.owned e = (withoutLink s linkKey).countP (fun k => (s.key k).tgt = e) +
      if d = e then 1 else 0 := by
    unfold State.owned
    rw [hw.memMap,List.countP_cons,hrest,hw.new]
    by_cases hed : d = e <;> simp [hed]
  by_cases hed : e = d
  · subst hed
    have hsum := (h.desc e he hd.refcount).2.1 (Open.releases h hd)
    have hhold : s'.hold held e = s.hold held e := by
      unfold State.hold
      rw [hw.desc]
    have hlt := refcountLink_lt
    rw [hw.desc,howned,owned_withoutLink h hlink hd.refcount,if_pos rfl,hhold,Nat.mod_eq_of_lt (by omega)]
    intro _
    dsimp only
    rw [Open.releases h hd]
    exact ⟨Nat.zero_le _,fun _ => by omega,by simp,by omega⟩
  · have hhold : s'.hold held e = s.hold held e := by
      unfold State.hold
      rw [hw.other e hed]
    rw [hw.other e hed,howned,if_neg (Ne.symm hed),hhold]
    intro hne
    rw [owned_withoutLink h hlink hne]
    exact h.desc e he hne

theorem WithKey.split {linkKey : Option ℕ} (hw : WithKey s s' d x linkKey) {l : ℕ} (hl : l < s'.numKeys) :
    l = s.numKeys ∨ l < s.numKeys := by
  rw [hw.numKeys] at hl
  omega

/-- The new key meets none of the others. -/
theorem WithKey.disjoint {linkKey : Option ℕ} (hw : WithKey s s' d x linkKey) (h : Inv exact s pend held fresh)
    (hlink : ∀ n ∈ linkKey, n ∈ s.memMap ∧ (s.key n).refcount = refcountLink) :
    ∀ k ∈ s'.memMap, ∀ l ∈ s'.memMap, k ≠ l → ¬s'.KeysMeet k l := by
  obtain ⟨_,hsub,_⟩ := withoutLink_spec h hlink
  have hold : ∀ l ∈ withoutLink s linkKey, s'.key l = s.key l := fun l hl => hw.old l (h.mem_lt l (hsub l hl))
  have hone : ∀ l ∈ withoutLink s linkKey, ¬s'.KeysMeet s.numKeys l := by
    intro l hl hm
    have hne : l ≠ s.numKeys := (h.mem_lt l (hsub l hl)).ne
    unfold State.KeysMeet at hm
    rw [meets_congr (s := s) (by rw [hold l hl]) (by rw [hold l hl]),hw.new,hw.apart l hl hne] at hm
    cases hm
  intro k hk l hl hkl
  rw [hw.memMap] at hk hl
  rcases List.mem_cons.mp hk with rfl | hk <;> rcases List.mem_cons.mp hl with rfl | hl
  · exact absurd rfl hkl
  · exact hone l hl
  · exact fun hm => hone k hk (KeysMeet.symm hm)
  · have := h.disjoint k (hsub k hk) l (hsub l hl) hkl
    unfold State.KeysMeet at this ⊢
    rw [meets_congr (s := s) (by rw [hold l hl]) (by rw [hold l hl]),hold k hk]
    exact this

/-- An ordinary key is in the tree as long as it is counted; the new one is counted once. -/
theorem WithKey.finite {linkKey : Option ℕ} (hw : WithKey s s' d x linkKey) (h : Inv exact s pend held fresh)
    (hlink : ∀ n ∈ linkKey, n ∈ s.memMap ∧ (s.key n).refcount = refcountLink)
    (hdesc : (s.desc d).refcount + 1 < refcountLink) :
    ∀ k < s'.numKeys, s'.Finite k → (s'.desc (s'.key k).tgt).refcount ≠ refcountInfinity ∧
      (s'.key k).refcount < refcountLink ∧ (k ∈ s'.memMap ↔ 0 < (s'.key k).refcount) := by
  obtain ⟨_,hsub,hkept⟩ := withoutLink_spec h hlink
  have hlt := refcountLink_lt
  have hdref : (s'.desc d).refcount ≠ refcountInfinity := by
    rw [hw.desc,Nat.mod_eq_of_lt (by omega)]
    dsimp only
    omega
  intro k hk hf
  rcases hw.split hk with rfl | hk
  · rw [hw.new,hw.memMap]
    exact ⟨hdref,(by decide : 1 < refcountLink),iff_of_true List.mem_cons_self Nat.one_pos⟩
  · rw [hw.finite_iff hk] at hf
    obtain ⟨h1,hbound,h2⟩ := h.finite k hk hf
    rw [hw.old k hk,← h2,hw.memMap]
    refine ⟨?_,hbound,?_⟩
    · by_cases e : (s.key k).tgt = d
      · rw [e]
        exact hdref
      · rw [hw.other _ e]
        exact h1
    · constructor
      · intro hm
        rcases List.mem_cons.mp hm with rfl | hm
        · exact absurd hk (lt_irrefl _)
        · exact hsub k hm
      · exact fun hm => List.mem_cons_of_mem _ (hkept k hm hf.2)

/-- A new key for an object that meets no other, apart from the link object it replaces. -/
theorem WithKey.inv {linkKey : Option ℕ} (hw : WithKey s s' d x linkKey) (h : Inv exact s pend held fresh)
    (hd : Open s held fresh d) (hlink : ∀ n ∈ linkKey, n ∈ s.memMap ∧ (s.key n).refcount = refcountLink)
    (hx : x.hostaddr < x.hostEnd) (hdesc : (s.desc d).refcount + 1 < refcountLink) :
    Inv exact s' (some s.numKeys :: pend) held fresh := by
  obtain ⟨hnd,hsub,_⟩ := withoutLink_spec h hlink
  have hnew : s.numKeys ∉ withoutLink s linkKey := fun hm => absurd (h.mem_lt _ (hsub _ hm)) (lt_irrefl _)
  have hgrow : ∀ l, l < s.numKeys → l < s'.numKeys := fun l hl => by
    rw [hw.numKeys]
    omega
  have hknown : ∀ l, s.Known l → s'.Known l := by
    rintro l ⟨hl,hne⟩
    refine ⟨hgrow l hl,?_⟩
    rw [hw.old l hl]
    exact hne
  have hlt := refcountLink_lt
  have hrefcount : ((s.desc d).refcount + 1) % wordSize = (s.desc d).refcount + 1 := Nat.mod_eq_of_lt (by omega)
  constructor
  · rw [hw.memMap]
    exact List.nodup_cons.mpr ⟨hnew,hnd⟩
  · intro k hk
    rw [hw.memMap] at hk
    rcases List.mem_cons.mp hk with rfl | hk
    · rw [hw.numKeys]
      exact Nat.lt_succ_self _
    · exact hgrow k (h.mem_lt k (hsub k hk))
  · exact hw.disjoint h hlink
  · intro k hk
    rcases hw.split hk with rfl | hk
    · rw [hw.new]
      exact hx
    · rw [hw.old k hk]
      exact h.range k hk
  · intro k hk
    rw [hw.numDescs]
    rcases hw.split hk with rfl | hk
    · rw [hw.new]
      exact hd.lt
    · rw [hw.old k hk]
      exact h.tgt_lt k hk
  · intro k hk n hn
    have hold : n < s.numKeys ∧ (s.key n).refcount = refcountLink := by
      rcases hw.split hk with rfl | hk
      · rw [hw.new] at hn
        obtain ⟨hnm,hnl⟩ := hlink n hn
        exact ⟨h.mem_lt n hnm,hnl⟩
      · rw [hw.old k hk] at hn
        exact h.link k hk n hn
    rw [hw.old n hold.1]
    exact ⟨hgrow n hold.1,hold.2⟩
  · intro k hk hnf
    rcases hw.split hk with rfl | hk
    · refine absurd ?_ hnf
      exact hw.new_finite
    · rw [hw.finite_iff hk] at hnf
      have hperm := h.permanent k hk hnf
      rw [hw.old k hk,hw.other]
      · exact hperm
      · intro e
        exact hd.refcount (e ▸ hperm.1)
  · exact hw.finite h hlink hdesc
  · intro k hk hf
    rw [hw.refs_eq]
    rcases hw.split hk with rfl | hk
    · rw [hw.new,refs_of_ge h le_rfl,List.count_cons_self,
        List.count_eq_zero_of_not_mem fun hm => absurd (h.pend_known _ hm).1 (lt_irrefl _)]
      exact ⟨le_rfl,fun _ => rfl⟩
    · rw [hw.old k hk,List.count_cons_of_ne (by simpa using hk.ne')]
      exact h.count k hk ((hw.finite_iff hk).mp hf)
  · intro e he k hm
    rw [hw.numDescs] at he
    refine hknown k (h.list_known e he k ?_)
    by_cases hed : e = d
    · rw [hed,hw.desc] at hm
      exact hed ▸ hm
    · rw [hw.other e hed] at hm
      exact hm
  · intro k hm
    rcases List.mem_cons.mp hm with e | hm
    · cases e
      refine ⟨?_,hw.new_finite.2⟩
      rw [hw.numKeys]
      exact Nat.lt_succ_self _
    · exact hknown k (h.pend_known k hm)
  · intro e he
    rw [hw.numDescs] at he
    exact hw.descOk h hd hlink hdesc he
  · intro e he
    by_cases hed : e = d
    · rw [hed,hw.desc] at he
      dsimp only at he
      omega
    · rw [hw.other e hed] at he ⊢
      exact h.region e he

end NewKey

end GompUlt.Target
