import GompUlt.Target.MapCounts

/-! # The two loops of gomp_map_vars

Each entry of a map list takes at most one reference.  The first loop gives a key to the objects that
are mapped already, the second one to the others; the loop over the pointers of a pointer set writes
only to entries that have none.
-/
namespace GompUlt.Target

variable {exact : Prop} {s s' : State} {pend : List (Option ℕ)} {held fresh : Option ℕ} {d n : ℕ}

/-- A call in progress for the descriptor d, with room for n more references. -/
structure Ready (exact : Prop) (s : State) (pend : List (Option ℕ)) (held fresh : Option ℕ) (d n : ℕ) : Prop where
  inv : Inv exact s pend held fresh
  room : Room s n
  desc_room : (s.desc d).refcount + n < refcountLink
  is_open : Open s held fresh d

theorem Ready.congr {pend' : List (Option ℕ)} (h : Ready exact s pend held fresh d n)
    (hp : ∀ k, pend'.count (some k) = pend.count (some k)) : Ready exact s pend' held fresh d n :=
  ⟨h.inv.congr hp,h.room,h.desc_room,h.is_open⟩

theorem Ready.none (h : Ready exact s pend held fresh d n) : Ready exact s (none :: pend) held fresh d n :=
  h.congr fun k => List.count_cons_of_ne (by simp)

/-- The key of an entry holds the first byte of its object. -/
def EntryOk (s : State) (x : Obj) (o : Option ℕ) : Prop :=
  ∀ k, o = some k → k ∈ s.memMap ∧ (s.key k).refcount ≠ refcountLink ∧ (s.key k).hostStart ≤ x.hostaddr ∧
    x.hostaddr < (s.key k).hostEnd

theorem entryOk_none (s : State) (x : Obj) : EntryOk s x none := fun _ h => by cases h

theorem EntryOk.keeps {x : Obj} {o : Option ℕ} (h : EntryOk s x o) (hk : Keeps s s')
    (hlt : ∀ k ∈ s.memMap, k < s.numKeys) : EntryOk s' x o := by
  intro k ho
  obtain ⟨hm,hl,h1,h2⟩ := h k ho
  have hkn := hlt k hm
  rw [(hk.object k hkn).1,(hk.object k hkn).2]
  exact ⟨hk.mem k hm hl,fun e => hl ((hk.link_iff hkn).mp e),h1,h2⟩

/-- The object is not a link object of the image. -/
def Clear (s : State) (x : Obj) : Prop :=
  ∀ l ∈ s.memMap, (s.key l).refcount = refcountLink → s.meets x.hostaddr (x.hostaddr + x.size) l = false

theorem Clear.keeps {x : Obj} (h : Clear s x) (hk : Keeps s s') (hlt : ∀ k ∈ s'.memMap, k < s'.numKeys) :
    Clear s' x := by
  intro l hl hlink
  by_cases hold : l < s.numKeys
  · rw [meets_congr (hk.object l hold).1 (hk.object l hold).2]
    exact h l (hk.old l hl hold) ((hk.link_iff hold).mp hlink)
  · exact absurd hlink (hk.new l (hlt l hl) (Nat.not_lt.mp hold)).2

section Entries

/-- One more reference to a key that is in the tree. -/
theorem Ready.addRef {k : ℕ} (h : Ready exact s pend held fresh d (n + 1)) (hk : k ∈ s.memMap)
    (hl : (s.key k).refcount ≠ refcountLink) :
    Ready exact (s.addRef k) (some k :: pend) held fresh d n ∧ Keeps s (s.addRef k) := by
  obtain ⟨hinv,hkeep,hroom,hdesc⟩ := addRef_inv h.inv hk hl h.room
  refine ⟨⟨hinv,hroom,?_,?_⟩,hkeep⟩
  · rw [hdesc]
    have := h.desc_room
    omega
  · refine ⟨?_,?_,?_,h.is_open.is_open⟩
    · rw [hkeep.numDescs]
      exact h.is_open.lt
    · rw [hdesc]
      exact h.is_open.refcount
    · rw [hdesc]
      exact h.is_open.unmapped

theorem existing_spec {k a b : ℕ} {kind : MapKind} (h : Ready exact s pend held fresh d (n + 1)) (hk : k ∈ s.memMap)
    (hl : (s.key k).refcount ≠ refcountLink) (hs : s.gompMapVarsExisting k a b kind = some s') :
    Ready exact s' (some k :: pend) held fresh d n ∧ Keeps s s' ∧ (s.key k).hostStart ≤ a ∧ b ≤ (s.key k).hostEnd := by
  unfold State.gompMapVarsExisting at hs
  split at hs
  · cases hs
  · next hc =>
    cases hs
    simp only [Bool.or_eq_true, decide_eq_true_eq, not_or, Nat.not_lt] at hc
    obtain ⟨hready,hkeep⟩ := h.addRef hk hl
    exact ⟨hready,hkeep,hc.1.2,hc.2⟩

/-- The key found for an object goes into its entry. -/
theorem existing_entryOk {k b : ℕ} {x : Obj} (h : Ready exact s pend held fresh d n) (hk : k ∈ s.memMap)
    (hl : (s.key k).refcount ≠ refcountLink) (hkeep : Keeps s s') (h1 : (s.key k).hostStart ≤ x.hostaddr)
    (hx : x.hostaddr < b) (h2 : b ≤ (s.key k).hostEnd) : EntryOk s' x (some k) := by
  refine EntryOk.keeps (s := s) (fun l hl' => ?_) hkeep h.inv.mem_lt
  cases hl'
  exact ⟨hk,hl,h1,lt_of_lt_of_le hx h2⟩

theorem fieldsExisting_spec {fields : List Obj} {os : List (Option ℕ)} (hsize : ∀ x ∈ fields, 0 < x.size)
    (hclear : ∀ x ∈ fields, Clear s x) (h : Ready exact s pend held fresh d (n + fields.length))
    (hs : s.fieldsExisting fields = some (s',os)) :
    Ready exact s' (os ++ pend) held fresh d n ∧ Keeps s s' ∧ List.Forall₂ (EntryOk s') fields os ∧ none ∉ os := by
  induction fields generalizing s pend os with
  | nil =>
    simp only [State.fieldsExisting, Option.some.injEq, Prod.mk.injEq] at hs
    obtain ⟨rfl,rfl⟩ := hs
    exact ⟨h,Keeps.refl s,List.Forall₂.nil,List.not_mem_nil⟩
  | cons x fields ih =>
    simp only [State.fieldsExisting, Option.bind_eq_some_iff, Option.map_eq_some_iff] at hs
    obtain ⟨⟨s1,k⟩,hx,⟨⟨s2,rest⟩,hrest,hs⟩⟩ := hs
    cases hs
    unfold State.gompMapFieldsExisting at hx
    split at hx
    · cases hx
    · next m hm =>
      obtain ⟨s1',hex,he⟩ := Option.map_eq_some_iff.mp hx
      cases he
      obtain ⟨hmem,hmeets⟩ := lookup_some hm
      have hl : (s.key k).refcount ≠ refcountLink := by
        intro hlink
        have := hclear x List.mem_cons_self k hmem hlink
        rw [this] at hmeets
        cases hmeets
      rw [List.length_cons,← Nat.add_assoc] at h
      obtain ⟨h1,hk1,ha,hb⟩ := existing_spec h hmem hl hex
      obtain ⟨h2,hk2,hall,hnone⟩ := ih (fun y hy => hsize y (List.mem_cons_of_mem x hy))
        (fun y hy => (hclear y (List.mem_cons_of_mem x hy)).keeps hk1 h1.inv.mem_lt) h1 hrest
      have hpos := hsize x List.mem_cons_self
      have hentry := existing_entryOk h hmem hl hk1 ha (show x.hostaddr < x.hostaddr + x.size by omega) hb
      refine ⟨h2.congr fun l => ?_,hk1.trans hk2 h.inv.mem_lt,
        List.Forall₂.cons (hentry.keeps hk2 h1.inv.mem_lt) hall,?_⟩
      · simp only [List.cons_append, List.count_cons, List.count_append]
        omega
      · simpa using hnone

/-- The object of an entry is not empty, where the loops look at it. -/
def ObjOk (x : Obj) : Prop :=
  x.hostaddr = 0 ∨ x.kind ∈ [MapKind.firstprivateInt,.useDevicePtr,.alwaysPointer] ∨ x.hostaddr < x.hostEnd

theorem firstObject_spec {x : Obj} {a : State.Answer (ℕ × ℕ)} (hx : ObjOk x)
    (h : Ready exact s pend held fresh d (n + 1)) (hs : s.firstObject x = some a) :
    Ready exact a.state (a.key :: pend) held fresh d (n + [a.key].count none) ∧ Keeps s a.state ∧
      EntryOk a.state x a.key := by
  have skip : ∀ b p, a = ⟨s,b,p,none⟩ → Ready exact a.state (a.key :: pend) held fresh d (n + [a.key].count none) ∧
      Keeps s a.state ∧ EntryOk a.state x a.key := by
    rintro b p rfl
    exact ⟨by simpa using h.none,Keeps.refl s,entryOk_none s x⟩
  unfold State.firstObject at hs
  split at hs
  · exact skip _ _ (Option.some.inj hs).symm
  · next h0 =>
    split at hs
    · exact skip _ _ (Option.some.inj hs).symm
    · split at hs
      · cases hs
      · exact skip _ _ (Option.some.inj hs).symm
    · exact skip _ _ (Option.some.inj hs).symm
    · exact skip _ _ (Option.some.inj hs).symm
    · next hk1 hk2 hk3 hk4 =>
      have hpos : x.hostaddr < x.hostEnd := by
        rcases hx with hx | hx | hx
        · exact absurd hx h0
        · simp only [List.mem_cons, List.not_mem_nil, or_false] at hx
          rcases hx with e | e | e
          · exact absurd e hk1
          · exact absurd e hk2
          · exact absurd e hk3
        · exact hx
      split at hs
      · next m hm =>
        obtain ⟨hmem,_⟩ := lookup_some hm
        split at hs
        · next hl =>
          obtain ⟨s1,hex,he⟩ := Option.map_eq_some_iff.mp hs
          cases he
          obtain ⟨h1,hkeep,ha,hb⟩ := existing_spec h hmem hl hex
          exact ⟨by simpa using h1,hkeep,existing_entryOk h hmem hl hkeep ha hpos hb⟩
        · exact skip _ _ (Option.some.inj hs).symm
      · split at hs
        · exact skip _ _ (Option.some.inj hs).symm
        · exact skip _ _ (Option.some.inj hs).symm

theorem firstEntry_spec {x : Obj} {pset : Option (ℕ × ℕ)} {a : State.Answer (ℕ × ℕ)} (hx : ObjOk x)
    (h : Ready exact s pend held fresh d (n + 1)) (hs : s.firstEntry pset x = some a) :
    Ready exact a.state (a.key :: pend) held fresh d (n + [a.key].count none) ∧ Keeps s a.state ∧
      EntryOk a.state x a.key := by
  unfold State.firstEntry at hs
  split at hs
  · split at hs
    · cases hs
      exact ⟨by simpa using h.none,Keeps.refl s,entryOk_none s x⟩
    · exact firstObject_spec hx h hs
  · exact firstObject_spec hx h hs

end Entries

section Passes

/-- The keys that the first loop gives: the elements of a structure have all one, or none. -/
inductive Matches (s : State) : List Item → List (Option ℕ) → Prop
  | nil : Matches s [] []
  | object {x o items os} : EntryOk s x o → Matches s items os → Matches s (.object x :: items) (o :: os)
  | missing {h fields items os} : Matches s items os →
      Matches s (.struct h fields :: items) (List.replicate fields.length none ++ os)
  | found {h fields items ks os} : List.Forall₂ (EntryOk s) fields ks → none ∉ ks → Matches s items os →
      Matches s (.struct h fields :: items) (ks ++ os)

theorem Matches.keeps {items : List Item} {os : List (Option ℕ)} (h : Matches s items os) (hk : Keeps s s')
    (hlt : ∀ k ∈ s.memMap, k < s.numKeys) : Matches s' items os := by
  induction h with
  | nil => exact .nil
  | object ho _ ih => exact .object (ho.keeps hk hlt) ih
  | missing _ ih => exact .missing ih
  | found hall hnone _ ih => exact .found (hall.imp fun _ _ ho => ho.keeps hk hlt) hnone ih

/-- What gomp_map_vars relies on: objects are not empty, and the elements of a structure are no link
objects. -/
def ItemOk (s : State) : Item → Prop
  | .object x => ObjOk x
  | .struct _ fields => fields ≠ [] ∧ ∀ x ∈ fields, 0 < x.size ∧ Clear s x

theorem ItemOk.keeps {i : Item} (h : ItemOk s i) (hk : Keeps s s') (hlt : ∀ k ∈ s'.memMap, k < s'.numKeys) :
    ItemOk s' i := by
  cases i with
  | object x => exact h
  | struct a fields => exact ⟨h.1,fun x hx => ⟨(h.2 x hx).1,(h.2 x hx).2.keeps hk hlt⟩⟩

theorem numEntries_cons (i : Item) (items : List Item) :
    numEntries (i :: items) = (itemObjs i).length + numEntries items := by
  simp [numEntries]

theorem firstPass_spec {items : List Item} {pset : Option (ℕ × ℕ)} {b : Bool} {os : List (Option ℕ)}
    (hok : ∀ i ∈ items, ItemOk s i) (h : Ready exact s pend held fresh d (n + numEntries items))
    (hs : s.firstPass pset items = some (s',b,os)) :
    Ready exact s' (os ++ pend) held fresh d (n + os.count none) ∧ Keeps s s' ∧ Matches s' items os := by
  induction items generalizing s pend pset b os n with
  | nil =>
    simp only [State.firstPass, Option.some.injEq, Prod.mk.injEq] at hs
    obtain ⟨rfl,_,rfl⟩ := hs
    exact ⟨by simpa [numEntries] using h,Keeps.refl s,.nil⟩
  | cons i items ih =>
    rw [numEntries_cons] at h
    cases i with
    | object x =>
      simp only [State.firstPass, Option.bind_eq_some_iff, Option.map_eq_some_iff] at hs
      obtain ⟨a,ha,⟨⟨s2,b2,rest⟩,hrest,he⟩⟩ := hs
      cases he
      have h' : Ready exact s pend held fresh d (n + numEntries items + 1) := by
        simpa [itemObjs, Nat.add_comm, Nat.add_left_comm, Nat.add_assoc] using h
      obtain ⟨h1,hk1,ho⟩ := firstEntry_spec (hok _ List.mem_cons_self) h' ha
      rw [Nat.add_right_comm] at h1
      obtain ⟨h2,hk2,hm⟩ := ih (fun j hj => (hok j (List.mem_cons_of_mem _ hj)).keeps hk1 h1.inv.mem_lt) h1 hrest
      refine ⟨?_,hk1.trans hk2 h.inv.mem_lt,.object (ho.keeps hk2 h1.inv.mem_lt) hm⟩
      have hcount : n + [a.key].count none + rest.count none = n + (a.key :: rest).count none := by
        simp only [List.count_cons, List.count_nil]
        omega
      rw [← hcount]
      refine h2.congr fun k => ?_
      simp only [List.cons_append, List.count_cons, List.count_append]
      omega
    | struct a fields =>
      obtain ⟨_,hfields⟩ := hok _ List.mem_cons_self
      simp only [State.firstPass] at hs
      split at hs
      · obtain ⟨⟨s2,b2,rest⟩,hrest,he⟩ := Option.map_eq_some_iff.mp hs
        cases he
        have h' : Ready exact s pend held fresh d (n + fields.length + numEntries items) := by
          rw [Nat.add_assoc]
          exact h
        obtain ⟨h2,hk2,hm⟩ := ih (fun j hj => hok j (List.mem_cons_of_mem _ hj)) h' hrest
        refine ⟨?_,hk2,.missing hm⟩
        have hcount : n + fields.length + rest.count none =
            n + (List.replicate fields.length none ++ rest).count none := by
          rw [List.count_append,List.count_replicate_self]
          omega
        rw [← hcount]
        refine h2.congr fun k => ?_
        rw [List.append_assoc,List.count_append,List.count_eq_zero_of_not_mem (by simp [List.mem_replicate]),zero_add]
      · obtain ⟨⟨s1,ks⟩,hf,hs⟩ := Option.bind_eq_some_iff.mp hs
        obtain ⟨⟨s2,b2,rest⟩,hrest,he⟩ := Option.map_eq_some_iff.mp hs
        cases he
        have h' : Ready exact s pend held fresh d (n + numEntries items + fields.length) := by
          simpa [itemObjs, Nat.add_comm, Nat.add_left_comm, Nat.add_assoc] using h
        obtain ⟨h1,hk1,hall,hnone⟩ := fieldsExisting_spec (fun x hx => (hfields x hx).1)
          (fun x hx => (hfields x hx).2) h' hf
        obtain ⟨h2,hk2,hm⟩ := ih (fun j hj => (hok j (List.mem_cons_of_mem _ hj)).keeps hk1 h1.inv.mem_lt) h1 hrest
        refine ⟨?_,hk1.trans hk2 h.inv.mem_lt,
          .found (hall.imp fun _ _ ho => ho.keeps hk2 h1.inv.mem_lt) hnone hm⟩
        rw [List.count_append,List.count_eq_zero_of_not_mem hnone,zero_add]
        refine h2.congr fun k => ?_
        simp only [List.append_assoc, List.count_append]
        omega

end Passes

section SecondPass

theorem Ready.mono {m : ℕ} (h : Ready exact s pend held fresh d n) (hm : m ≤ n) :
    Ready exact s pend held fresh d m := by
  refine ⟨h.inv,fun k hk hf => ?_,?_,h.is_open⟩
  · have := h.room k hk hf
    omega
  · have := h.desc_room
    omega

/-- The pointer set whose pointers may follow has a key in the tree, and no later entry has it yet. -/
def PsetOk (s : State) (pset : Option ℕ) (os : List (Option ℕ)) : Prop :=
  ∀ k, pset = some k → k ∈ s.memMap ∧ (s.key k).refcount ≠ refcountLink ∧ some k ∉ os

theorem psetOk_none (s : State) (os : List (Option ℕ)) : PsetOk s none os := fun _ h => by cases h

theorem newKey_ready {x : Obj} {linkKey : Option ℕ} (h : Ready exact s pend held fresh d (n + 1))
    (hlink : ∀ m ∈ linkKey, m ∈ s.memMap ∧ (s.key m).refcount = refcountLink) (hx : x.hostaddr < x.hostEnd)
    (hs : s.newKey d x linkKey = some s') :
    Ready exact s' (some s.numKeys :: pend) held fresh d n ∧ Keeps s s' ∧ EntryOk s' x (some s.numKeys) := by
  have hw := newKey_withKey h.inv (fun m hm => (hlink m hm).1) hs
  have hroom := h.desc_room
  have hlt := refcountLink_lt
  have hinv := hw.inv h.inv h.is_open hlink hx (by omega)
  have hkeep := hw.keeps h.inv hlink
  refine ⟨⟨hinv,fun k hk hf => ?_,?_,?_,?_,?_,h.is_open.is_open⟩,hkeep,fun k hk => ?_⟩
  · by_cases hold : k < s.numKeys
    · rw [hw.old k hold]
      have := h.room k hold ((hw.finite_iff hold).mp hf)
      omega
    · rw [hw.numKeys] at hk
      obtain rfl : k = s.numKeys := by omega
      rw [hw.new]
      dsimp only
      omega
  · rw [hw.desc]
    dsimp only
    rw [Nat.mod_eq_of_lt (by omega)]
    omega
  · rw [hw.numDescs]
    exact h.is_open.lt
  · rw [hw.desc]
    dsimp only
    rw [Nat.mod_eq_of_lt (by omega)]
    omega
  · rw [hw.desc]
    exact h.is_open.unmapped
  · cases hk
    refine ⟨?_,hw.new_finite.2,?_⟩
    · rw [hw.memMap]
      exact List.mem_cons_self
    · rw [hw.new]
      exact ⟨le_rfl,hx⟩

/-- An entry without a key: it gets one, or its kind needs none. -/
theorem secondObject_spec {x : Obj} {a : State.Answer ℕ} (hx : ObjOk x) (h : Ready exact s pend held fresh d (n + 1))
    (hs : s.secondObject d x = some a) :
    Ready exact a.state (a.key :: pend) held fresh d n ∧ Keeps s a.state ∧ EntryOk a.state x a.key ∧
      ∀ k, a.pset = some k → k = s.numKeys ∧ a.key = some k := by
  have skip : a = ⟨s,false,none,none⟩ → Ready exact a.state (a.key :: pend) held fresh d n ∧ Keeps s a.state ∧
      EntryOk a.state x a.key ∧ ∀ k, a.pset = some k → k = s.numKeys ∧ a.key = some k := by
    rintro rfl
    exact ⟨h.none.mono (Nat.le_succ n),Keeps.refl s,entryOk_none s x,fun k hk => by cases hk⟩
  unfold State.secondObject at hs
  split at hs
  · exact skip (Option.some.inj hs).symm
  · next h0 =>
    split at hs
    · exact skip (Option.some.inj hs).symm
    · exact skip (Option.some.inj hs).symm
    · exact skip (Option.some.inj hs).symm
    · exact skip (Option.some.inj hs).symm
    · split at hs
      · cases hs
      · split at hs
        · cases hs
        · exact skip (Option.some.inj hs).symm
    · next hk1 hk2 hk3 hk4 hk5 =>
      have hpos : x.hostaddr < x.hostEnd := by
        rcases hx with hx | hx | hx
        · exact absurd hx h0
        · simp only [List.mem_cons, List.not_mem_nil, or_false] at hx
          rcases hx with e | e | e
          · exact absurd e hk2
          · exact absurd e hk3
          · exact absurd e hk5
        · exact hx
      -- a new key, with or without a link object
      have new : ∀ linkKey : Option ℕ, (∀ m ∈ linkKey, m ∈ s.memMap ∧ (s.key m).refcount = refcountLink) →
          (if State.handlesNew x then
            (s.newKey d x linkKey).map fun s' =>
              (⟨s',false,if x.kind = .toPset then some s.numKeys else none,some s.numKeys⟩ : State.Answer ℕ)
          else none) = some a → Ready exact a.state (a.key :: pend) held fresh d n ∧ Keeps s a.state ∧
            EntryOk a.state x a.key ∧ ∀ k, a.pset = some k → k = s.numKeys ∧ a.key = some k := by
        intro linkKey hlink ha
        split at ha
        · obtain ⟨s1,hnew,he⟩ := Option.map_eq_some_iff.mp ha
          subst he
          obtain ⟨h1,hk,ho⟩ := newKey_ready h hlink hpos hnew
          refine ⟨h1,hk,ho,fun k hk => ?_⟩
          dsimp only at hk ⊢
          split at hk
          · cases hk
            exact ⟨rfl,rfl⟩
          · cases hk
        · cases ha
      dsimp only at hs
      split at hs
      · next m hm =>
        obtain ⟨hmem,_⟩ := lookup_some hm
        split at hs
        · next hl =>
          obtain ⟨s1,hex,he⟩ := Option.map_eq_some_iff.mp hs
          cases he
          obtain ⟨h1,hkeep,ha,hb⟩ := existing_spec h hmem hl hex
          exact ⟨h1,hkeep,existing_entryOk h hmem hl hkeep ha hpos hb,fun k hk => by cases hk⟩
        · next hl =>
          refine new (some m) (fun l hlm => ?_) hs
          cases hlm
          exact ⟨hmem,not_not.mp hl⟩
      · exact new none (fun l hl => by cases hl) hs

theorem inPset_range {x : Obj} {a b : ℕ} (h : State.inPset a b x = true) : a ≤ x.hostaddr ∧ x.hostaddr < b := by
  simp only [State.inPset, Bool.and_eq_true, decide_eq_true_eq] at h
  have : x.hostaddr + 8 ≤ b := h.2
  exact ⟨h.1.2,by omega⟩

/-- An entry that is in the range of a pointer set just mapped has no key. -/
theorem inPset_none {x : Obj} {o : Option ℕ} {k : ℕ} (h : Inv exact s pend held fresh) (ho : EntryOk s x o)
    (hk : k ∈ s.memMap) (hne : o ≠ some k)
    (hin : State.inPset (s.key k).hostStart (s.key k).hostEnd x = true) : o = none := by
  obtain ⟨h1,h2⟩ := inPset_range hin
  cases o with
  | none => rfl
  | some l =>
    obtain ⟨hl,_,h3,h4⟩ := ho l rfl
    have hkl : k ≠ l := fun e => hne (by rw [e])
    exact absurd (meets_of_point h1 h2 h3 h4) (h.disjoint k hk l hl hkl)

theorem secondEntry_spec {x : Obj} {o : Option ℕ} {pset : Option ℕ} {later : List (Option ℕ)} {a : State.Answer ℕ}
    (hx : ObjOk x) (h : Ready exact s (o :: pend) held fresh d (n + [o].count none)) (ho : EntryOk s x o)
    (hp : PsetOk s pset (o :: later)) (hlater : ∀ k, some k ∈ later → k < s.numKeys)
    (hs : s.secondEntry d pset x o = some a) :
    Ready exact a.state (a.key :: pend) held fresh d n ∧ Keeps s a.state ∧ EntryOk a.state x a.key ∧
      PsetOk a.state a.pset later := by
  have plain : s.secondPlain d x o = some a →
      Ready exact a.state (a.key :: pend) held fresh d n ∧ Keeps s a.state ∧ EntryOk a.state x a.key ∧
        PsetOk a.state a.pset later := by
    intro hs
    cases o with
    | some k =>
      cases hs
      exact ⟨by simpa using h,Keeps.refl s,ho,psetOk_none s later⟩
    | none =>
      have h' : Ready exact s pend held fresh d (n + 1) := by
        have hcount : n + [(none : Option ℕ)].count none = n + 1 := by simp
        rw [hcount] at h
        exact h.congr fun k => (List.count_cons_of_ne (by simp)).symm
      obtain ⟨h1,hk,hentry,hnew⟩ := secondObject_spec hx h' hs
      refine ⟨h1,hk,hentry,fun k hpk => ?_⟩
      obtain ⟨rfl,hkey⟩ := hnew k hpk
      obtain ⟨hmem,hl,_⟩ := hentry s.numKeys hkey
      exact ⟨hmem,hl,fun hm => absurd (hlater _ hm) (lt_irrefl _)⟩
  unfold State.secondEntry at hs
  split at hs
  · next k =>
    split at hs
    · next hin =>
      obtain ⟨hmem,hl,hnot⟩ := hp k rfl
      have hne : o ≠ some k := fun e => hnot (by rw [e]; exact List.mem_cons_self)
      obtain rfl := inPset_none h.inv ho hmem hne hin
      cases hs
      have h' : Ready exact s pend held fresh d (n + 1) := by
        have hcount : n + [(none : Option ℕ)].count none = n + 1 := by simp
        rw [hcount] at h
        exact h.congr fun k => (List.count_cons_of_ne (by simp)).symm
      obtain ⟨h1,hk⟩ := h'.addRef hmem hl
      have hlt := h.inv.mem_lt k hmem
      obtain ⟨hlo,hhi⟩ := inPset_range hin
      refine ⟨h1,hk,existing_entryOk h' hmem hl hk hlo (Nat.lt_succ_self _) hhi,fun l hpl => ?_⟩
      cases hpl
      exact ⟨hk.mem k hmem hl,fun e => hl ((hk.link_iff hlt).mp e),fun hm => hnot (List.mem_cons_of_mem _ hm)⟩
    · exact plain hs
  · exact plain hs

theorem secondEntries_spec {objs : List Obj} {os os' : List (Option ℕ)} (later : List (Option ℕ)) {pset pset' : Option ℕ}
    (hx : ∀ x ∈ objs, ObjOk x) (h : Ready exact s (os ++ pend) held fresh d (n + os.count none))
    (hall : List.Forall₂ (EntryOk s) objs os) (hp : PsetOk s pset (os ++ later))
    (hlater : ∀ k, some k ∈ later → k < s.numKeys)
    (hs : s.secondEntries d pset objs os = some (s',pset',os')) :
    Ready exact s' (os' ++ pend) held fresh d n ∧ Keeps s s' ∧ PsetOk s' pset' later := by
  induction objs generalizing s os pend pset pset' os' n with
  | nil =>
    cases hall
    simp only [State.secondEntries, Option.some.injEq, Prod.mk.injEq] at hs
    obtain ⟨rfl,rfl,rfl⟩ := hs
    exact ⟨by simpa using h,Keeps.refl s,hp⟩
  | cons x objs ih =>
    obtain _ | @⟨_,o,_,os,ho,hall⟩ := hall
    simp only [State.secondEntries, Option.bind_eq_some_iff, Option.map_eq_some_iff] at hs
    obtain ⟨a,ha,⟨⟨s2,p2,rest⟩,hrest,he⟩⟩ := hs
    cases he
    have hcount : n + (o :: os).count none = n + os.count none + [o].count none := by
      simp only [List.count_cons, List.count_nil]
      omega
    rw [hcount,List.cons_append] at h
    have hbound : ∀ k, some k ∈ os ++ later → k < s.numKeys := by
      intro k hk
      rcases List.mem_append.mp hk with hk | hk
      · exact (h.inv.pend_known k (by simp [hk])).1
      · exact hlater k hk
    obtain ⟨h1,hk1,_,hp1⟩ := secondEntry_spec (hx x List.mem_cons_self) h ho hp hbound ha
    have hlt := h.inv.mem_lt
    have h1' : Ready exact a.state (os ++ (a.key :: pend)) held fresh d (n + os.count none) := by
      refine h1.congr fun k => ?_
      simp only [List.count_cons, List.count_append]
      omega
    obtain ⟨h2,hk2,hp2⟩ := ih (fun y hy => hx y (List.mem_cons_of_mem x hy)) h1'
      (hall.imp fun _ _ hy => hy.keeps hk1 hlt) hp1 (fun k hk => lt_of_lt_of_le (hlater k hk) hk1.numKeys) hrest
    refine ⟨h2.congr fun k => ?_,hk1.trans hk2 hlt,hp2⟩
    simp only [List.cons_append, List.count_cons, List.count_append]
    omega

theorem objOk_field {x : Obj} (h : 0 < x.size) : ObjOk x := by
  refine Or.inr (Or.inr ?_)
  unfold Obj.hostEnd
  split
  · unfold pointerSize
    omega
  · omega

theorem secondPass_spec {items : List Item} {os os' : List (Option ℕ)} {pset : Option ℕ}
    (hok : ∀ i ∈ items, ItemOk s i) (hm : Matches s items os)
    (h : Ready exact s (os ++ pend) held fresh d (n + os.count none)) (hp : PsetOk s pset os)
    (hs : s.secondPass d pset items os = some (s',os')) :
    Ready exact s' (os' ++ pend) held fresh d n ∧ Keeps s s' := by
  induction items generalizing s os pend pset os' n with
  | nil =>
    cases hm
    simp only [State.secondPass, Option.some.injEq, Prod.mk.injEq] at hs
    obtain ⟨rfl,rfl⟩ := hs
    exact ⟨by simpa using h,Keeps.refl s⟩
  | cons i items ih =>
    have hlt := h.inv.mem_lt
    -- the entries of the first item, and then the other items
    have go : ∀ (mine : List (Option ℕ)) {others mine' : List (Option ℕ)} {s1 : State} {p1 : Option ℕ} {rest : List (Option ℕ)},
        os = mine ++ others → Matches s items others →
        Ready exact s1 (mine' ++ (others ++ pend)) held fresh d (n + others.count none) → Keeps s s1 →
        PsetOk s1 p1 others → s1.secondPass d p1 items others = some (s',rest) → os' = mine' ++ rest →
        Ready exact s' (os' ++ pend) held fresh d n ∧ Keeps s s' := by
      intro mine others mine' s1 p1 rest hos hrest h1 hk1 hp1 hsec hos'
      have h1' : Ready exact s1 (others ++ (mine' ++ pend)) held fresh d (n + others.count none) := by
        refine h1.congr fun k => ?_
        simp only [List.count_append]
        omega
      obtain ⟨h2,hk2⟩ := ih (fun j hj => (hok j (List.mem_cons_of_mem i hj)).keeps hk1 h1.inv.mem_lt)
        (hrest.keeps hk1 hlt) h1' hp1 hsec
      refine ⟨h2.congr fun k => ?_,hk1.trans hk2 hlt⟩
      rw [hos']
      simp only [List.count_append]
      omega
    have hbound : ∀ k, some k ∈ os → k < s.numKeys := fun k hk =>
      (h.inv.pend_known k (List.mem_append_left _ hk)).1
    cases hm with
    | @object x o items os ho hrest =>
      simp only [State.secondPass, Option.bind_eq_some_iff, Option.map_eq_some_iff, List.take_succ_cons,
        List.take_zero, List.drop_succ_cons, List.drop_zero] at hs
      obtain ⟨⟨s1,p1,mine⟩,h1,⟨⟨s2,rest⟩,h2,he⟩⟩ := hs
      cases he
      have h' : Ready exact s ([o] ++ (os ++ pend)) held fresh d (n + os.count none + [o].count none) := by
        have hcount : n + (o :: os).count none = n + os.count none + [o].count none := by
          simp only [List.count_cons, List.count_nil]
          omega
        rw [← hcount]
        exact h
      obtain ⟨hr1,hk1,hp1⟩ := secondEntries_spec os (fun y hy => by
          rw [List.mem_singleton.mp hy]
          exact hok _ List.mem_cons_self) h' (List.Forall₂.cons ho .nil) hp
        (fun k hk => hbound k (List.mem_cons_of_mem o hk)) h1
      exact go [o] rfl hrest hr1 hk1 hp1 h2 rfl
    | @missing a fields items os hrest =>
      obtain ⟨hne,hfields⟩ := hok _ List.mem_cons_self
      have hlen : (List.replicate fields.length (none : Option ℕ)).length = fields.length := List.length_replicate
      have hhead : (List.replicate fields.length (none : Option ℕ)).head? = some none := by
        cases fields with
        | nil => exact absurd rfl hne
        | cons x fields => rfl
      simp only [State.secondPass, List.take_left' hlen, List.drop_left' hlen, hhead, ne_eq, not_true_eq_false,
        ↓reduceIte] at hs
      have hcount : n + (List.replicate fields.length none ++ os).count none =
          n + os.count none + (List.replicate fields.length (none : Option ℕ)).count none := by
        rw [List.count_append]
        omega
      rw [hcount,List.append_assoc] at h
      split at hs
      · obtain ⟨⟨s1,p1,mine⟩,h1,hs⟩ := Option.bind_eq_some_iff.mp hs
        obtain ⟨⟨s2,rest⟩,h2,he⟩ := Option.map_eq_some_iff.mp hs
        cases he
        have hall : List.Forall₂ (EntryOk s) fields (List.replicate fields.length none) := by
          rw [List.forall₂_iff_get]
          refine ⟨by simp,fun j _ _ => ?_⟩
          simpa using entryOk_none s _
        obtain ⟨hr1,hk1,hp1⟩ := secondEntries_spec os (fun y hy => objOk_field (hfields y hy).1) h hall
          (psetOk_none s _) (fun k hk => hbound k (List.mem_append_right _ hk)) h1
        exact go (List.replicate fields.length none) rfl hrest hr1 hk1 hp1 h2 rfl
      · obtain ⟨⟨s1,mine⟩,h1,hs⟩ := Option.bind_eq_some_iff.mp hs
        obtain ⟨⟨s2,rest⟩,h2,he⟩ := Option.map_eq_some_iff.mp hs
        cases he
        rw [List.count_replicate_self] at h
        have h' : Ready exact s (os ++ pend) held fresh d (n + os.count none + fields.length) := by
          refine h.congr fun k => ?_
          have hzero : (List.replicate fields.length (none : Option ℕ)).count (some k) = 0 :=
            List.count_eq_zero_of_not_mem (by simp [List.mem_replicate])
          rw [@List.count_append _ _ _ (List.replicate fields.length none),hzero,zero_add]
        obtain ⟨hr1,hk1,_,_⟩ := fieldsExisting_spec (fun x hx => (hfields x hx).1) (fun x hx => (hfields x hx).2) h' h1
        exact go (List.replicate fields.length none) rfl hrest hr1 hk1 (psetOk_none s1 os) h2 rfl
    | @found a fields items ks os hall hnone hrest =>
      obtain ⟨hne,_⟩ := hok _ List.mem_cons_self
      have hlen : ks.length = fields.length := hall.length_eq.symm
      have hhead : ks.head? ≠ some none := fun e => hnone (List.mem_of_head? e)
      simp only [State.secondPass, List.take_left' hlen, List.drop_left' hlen, hhead, ne_eq, not_false_eq_true,
        ↓reduceIte] at hs
      obtain ⟨⟨s2,rest⟩,h2,he⟩ := Option.map_eq_some_iff.mp hs
      cases he
      have h' : Ready exact s (ks ++ (os ++ pend)) held fresh d (n + os.count none) := by
        have hcount : (ks ++ os).count none = os.count none := by
          rw [List.count_append,List.count_eq_zero_of_not_mem hnone,zero_add]
        rw [hcount,List.append_assoc] at h
        exact h
      exact go ks rfl hrest h' (Keeps.refl s) (psetOk_none s os) h2 rfl

/-- Both loops: every entry takes at most one reference. -/
theorem mapItems_spec {items : List Item} {os : List (Option ℕ)} (hok : ∀ i ∈ items, ItemOk s i)
    (h : Ready exact s pend held fresh d (n + numEntries items)) (hs : s.mapItems d items = some (s',os)) :
    Ready exact s' (os ++ pend) held fresh d n ∧ Keeps s s' := by
  unfold State.mapItems at hs
  obtain ⟨⟨s1,b,os1⟩,hfirst,hs⟩ := Option.bind_eq_some_iff.mp hs
  obtain ⟨h1,hk1,hm⟩ := firstPass_spec hok h hfirst
  split at hs
  · obtain ⟨h2,hk2⟩ := secondPass_spec (fun i hi => (hok i hi).keeps hk1 h1.inv.mem_lt) hm h1 (psetOk_none s1 os1) hs
    exact ⟨h2,hk1.trans hk2 h.inv.mem_lt⟩
  · cases hs
    exact ⟨h1.mono (Nat.le_add_right _ _),hk1⟩

end SecondPass

end GompUlt.Target
