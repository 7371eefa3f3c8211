import GompUlt.Target.MapCalls
import Mathlib.Algebra.Order.BigOperators.Group.Finset

/-! # Whole histories of structured and unstructured mappings

Structured regions alone keep exact counts.  gomp_exit_data may take away references that a
structured region still relies on, and it counts down a link object; where it does neither, no
descriptor is freed while it is needed.
-/
namespace GompUlt.Target
open Run

variable {exact links : Prop} {s s' : State} {pend : List (Option ℕ)} {held fresh : Option ℕ} {d k : ℕ}

section UnmapVars

theorem drop_pend (h : Inv exact s (some k :: pend) held fresh) (hf : ¬s.Finite k) : Inv exact s pend held fresh := by
  refine ⟨h.nodup,h.mem_lt,h.disjoint,h.range,h.tgt_lt,h.link,h.permanent,h.finite,fun l hl hlf => ?_,h.list_known,
    fun l hm => h.pend_known l (List.mem_cons_of_mem _ hm),h.desc,h.region⟩
  have hne : some k ≠ some l := fun e => hf (Option.some.inj e ▸ hlf)
  rw [← List.count_cons_of_ne hne]
  exact h.count l hl hlf

theorem unmapEntry_inv {o : Option ℕ} (h : Inv exact s (o :: pend) held none) (hs : s.unmapEntry o = some s') :
    Inv exact s' pend held none ∧ Fixed links s s' ∧ s'.numDescs = s.numDescs := by
  cases o with
  | none =>
    cases hs
    exact ⟨h.congr fun k => (List.count_cons_of_ne (by simp)).symm,Fixed.refl s,rfl⟩
  | some k =>
    obtain ⟨hlt,hl⟩ := h.pend_known k List.mem_cons_self
    by_cases hinf : (s.key k).refcount = refcountInfinity
    · -- a declare target object keeps its count
      have hs' : s = s' := by
        have hne : refcountInfinity ≠ 1 := by decide
        simpa [State.unmapEntry, hinf, hne] using hs
      subst hs'
      exact ⟨drop_pend h fun hf => hf.1 hinf,Fixed.refl s,rfl⟩
    · have hf : s.Finite k := ⟨hinf,hl⟩
      obtain ⟨_,hbound,hmem⟩ := h.finite k hlt hf
      obtain ⟨hle,hexact⟩ := h.count k hlt hf
      rw [List.count_cons_self] at hle hexact
      have hother : ∀ l, l ≠ k → pend.count (some l) = (some k :: pend).count (some l) := fun l hne =>
        (List.count_cons_of_ne fun e => hne (Option.some.inj e).symm).symm
      by_cases hone : (s.key k).refcount = 1
      · have hs' : (s.setRefcount k 0).unmapKey k = some s' := by
          simpa [State.unmapEntry, hone] using hs
        have hk : k ∈ s.memMap := hmem.mpr (by omega)
        have hw := unmapKey_dropped h hk hs'
        exact ⟨hw.inv h hk hf hother (by omega),hw.fixed hf,hw.numDescs⟩
      · have hs' : s.setRefcount k ((s.key k).refcount - 1) = s' := by
          have hgt : (s.key k).refcount > 1 := by omega
          simpa [State.unmapEntry, hgt, hinf] using hs
        subst hs'
        refine ⟨setRefcount_inv h hlt hf (by omega) ?_ hother ⟨by omega,fun e => by have := hexact e; omega⟩
          fun l hm => h.pend_known l (List.mem_cons_of_mem _ hm),(setRefcount_keeps hf (by omega)).fixed,rfl⟩
        exact iff_of_true (by omega) (hmem.mpr (by omega))

theorem unmapEntries_inv {os : List (Option ℕ)} (h : Inv exact s os held none) (hs : s.unmapEntries os = some s') :
    Inv exact s' [] held none ∧ Fixed links s s' ∧ s'.numDescs = s.numDescs := by
  induction os generalizing s with
  | nil =>
    cases hs
    exact ⟨h,Fixed.refl _,rfl⟩
  | cons o os ih =>
    obtain ⟨s1,h1,hs⟩ := Option.bind_eq_some_iff.mp hs
    obtain ⟨hinv,hfix,hn⟩ := unmapEntry_inv h h1
    obtain ⟨hinv',hfix',hn'⟩ := ih hinv hs
    exact ⟨hinv',hfix.trans hfix',hn'.trans hn⟩

/-- The references of a region that ends are those of its list. -/
theorem beginUnmap_inv (h : Inv exact s [] none none) (hd : d < s.numDescs) (hm : (s.desc d).mapped = true) :
    Inv exact (s.modifyDesc d fun x => { x with mapped := false }) (s.desc d).list (some d) none := by
  have hdesc : (s.modifyDesc d fun x => { x with mapped := false }).desc d = { s.desc d with mapped := false } :=
    Function.update_self ..
  have hother : ∀ e, e ≠ d → (s.modifyDesc d fun x => { x with mapped := false }).desc e = s.desc e :=
    fun e he => Function.update_of_ne he _ _
  have hcore : ∀ e, ((s.modifyDesc d fun x => { x with mapped := false }).desc e).refcount = (s.desc e).refcount ∧
      ((s.modifyDesc d fun x => { x with mapped := false }).desc e).releases = (s.desc e).releases ∧
      ((s.modifyDesc d fun x => { x with mapped := false }).desc e).list = (s.desc e).list := by
    intro e
    by_cases he : e = d
    · rw [he,hdesc]
      exact ⟨rfl,rfl,rfl⟩
    · rw [hother e he]
      exact ⟨rfl,rfl,rfl⟩
  have hrefs : ∀ k, (s.modifyDesc d fun x => { x with mapped := false }).refs k + (s.desc d).list.count (some k) =
      s.refs k := by
    intro k
    have hmem : d ∈ Finset.range s.numDescs := Finset.mem_range.mpr hd
    unfold State.refs
    have hsum : (s.modifyDesc d fun x => { x with mapped := false }).numDescs = s.numDescs := rfl
    rw [hsum,← Finset.add_sum_erase _ _ hmem,← Finset.add_sum_erase (Finset.range s.numDescs) _ hmem,hdesc,hm]
    simp only [↓reduceIte, Bool.false_eq_true, zero_add]
    rw [Nat.add_comm]
    congr 1
    exact Finset.sum_congr rfl fun e he => by rw [hother e (Finset.ne_of_mem_erase he)]
  refine ⟨h.nodup,h.mem_lt,h.disjoint,h.range,h.tgt_lt,h.link,fun k hk hf => ?_,fun k hk hf => ?_,fun k hk hf => ?_,
    fun e he k hmem => ?_,h.list_known d hd,fun e he => ?_,fun e he => ?_⟩
  · have hperm := h.permanent k hk hf
    rw [← (hcore _).1,← (hcore _).2.1] at hperm
    exact hperm
  · obtain ⟨h1,h2⟩ := h.finite k hk hf
    rw [← (hcore _).1] at h1
    exact ⟨h1,h2⟩
  · rw [hrefs]
    exact h.count k hk hf
  · rw [(hcore e).2.2] at hmem
    exact h.list_known e he k hmem
  · have hhold : (s.modifyDesc d fun x => { x with mapped := false }).hold (some d) e = s.hold none e := by
      unfold State.hold
      by_cases hed : e = d
      · subst hed
        rw [hdesc,hm]
        simp
      · have hne : ¬some d = some e := fun e' => hed (Option.some.inj e').symm
        rw [hother e hed,if_neg hne]
        simp
    have hok := h.desc e he
    rw [← hhold] at hok
    unfold DescOk at hok ⊢
    rw [(hcore e).1,(hcore e).2.1]
    exact hok
  · rw [(hcore e).1] at he
    have hed : e ≠ d := by
      rintro rfl
      have := (h.region e he).1
      rw [hm] at this
      cases this
    rw [hother e hed]
    exact ⟨(h.region e he).1,(h.region e he).2.1,fun e' => hed (Option.some.inj e').symm⟩

/-- The descriptor of a region that has ended. -/
theorem endUnmap_inv (h : Inv exact s [] (some d) none) (hd : d < s.numDescs) : Inv exact (s.dropDesc d) [] none none := by
  have hinf : (s.desc d).refcount ≠ refcountInfinity := fun e => (h.region d e).2.2 rfl
  obtain ⟨hle,hcount,hone,hbound⟩ := h.desc d hd hinf
  have hhold : s.hold (some d) d = s.hold none d + 1 := by
    unfold State.hold
    simp
  rw [hhold] at hcount hone
  have hrel : (s.desc d).releases = 0 := by
    by_contra hne
    have := (hone.mp (by omega)).1
    omega
  obtain ⟨hdok,hdlt,hdlist,hdmapped,_⟩ := dropDesc_ok (n := s.owned d + s.hold none d) hrel (by rw [hcount hrel]; omega) hbound
  have hheld : ∀ e, e ≠ d → ((none : Option ℕ) = some e ↔ some d = some e) ∧
      ((none : Option ℕ) = some e ↔ (none : Option ℕ) = some e) := fun e he =>
    ⟨iff_of_false nofun fun e' => he (Option.some.inj e').symm,Iff.rfl⟩
  have hgo : ∀ f : Desc → Desc, s.dropDesc d = s.modifyDesc d f → Inv exact (s.dropDesc d) [] none none := by
    intro f hf
    have hself : (s.modifyDesc d f).desc d = f (s.desc d) := Function.update_self ..
    rw [hf,hself] at hdok hdlt hdlist hdmapped
    rw [hf]
    refine setDesc_inv h ⟨hdlist,hdmapped⟩ ⟨hinf,hdlt.ne⟩ hheld ?_
    have hhold' : (s.modifyDesc d f).hold none d = s.hold none d := by
      unfold State.hold
      rw [hself,hdmapped]
    rw [hhold']
    intro hne
    obtain ⟨h1,h2,h3,h4⟩ := hdok hne
    exact ⟨h1,h2,h3.trans (and_congr_right fun _ => iff_of_true not_false nofun),h4⟩
  unfold State.dropDesc at hgo ⊢
  split
  · next hgt =>
    rw [if_pos hgt] at hgo
    exact hgo _ rfl
  · next hgt =>
    rw [if_neg hgt] at hgo
    exact hgo _ rfl

theorem dropDesc_fixed (s : State) (d : ℕ) : Fixed links s (s.dropDesc d) := by
  rw [dropDesc_eq]
  exact Fixed.of_key rfl rfl

theorem gompUnmapVars_inv (h : Inv exact s [] none none) (hd : d < s.numDescs) (hm : (s.desc d).mapped = true)
    (hs : s.gompUnmapVars d = some s') : Inv exact s' [] none none ∧ Fixed links s s' := by
  unfold State.gompUnmapVars at hs
  obtain ⟨s1,h1,he⟩ := Option.map_eq_some_iff.mp hs
  subst he
  have hbegin := beginUnmap_inv h hd hm
  obtain ⟨hinv,hfix,hn⟩ := unmapEntries_inv hbegin h1
  have hd' : d < s1.numDescs := by
    rw [hn]
    exact hd
  have hfix0 : Fixed links s (s.modifyDesc d fun x => { x with mapped := false }) := Fixed.of_key rfl rfl
  exact ⟨endUnmap_inv hinv hd',(hfix0.trans hfix).trans (dropDesc_fixed s1 d)⟩

end UnmapVars

section ExitData

/-- gomp_exit_data gives up a reference of its own: the key is no link object, and the structured
regions keep theirs. -/
def ExitOk (s : State) (x : State.ExitObj) : Prop :=
  ∀ k, s.lookupAt x.pick x.hostaddr (x.hostaddr + x.size) = some k →
    (s.key k).refcount ≠ refcountLink ∧
      ((s.key k).refcount ≠ refcountInfinity →
        if State.isDelete x.kind then s.refs k = 0 else s.refs k < (s.key k).refcount)

def ExitsOk (s : State) : List State.ExitObj → Prop
  | [] => True
  | x :: xs => ExitOk s x ∧ ∀ s', s.exitEntry x = some s' → ExitsOk s' xs

theorem lookupAt_mem {pick a b : ℕ} (h : s.lookupAt pick a b = some k) : k ∈ s.memMap :=
  List.mem_of_mem_filter (List.mem_of_getElem? h)

theorem exitEntry_inv {x : State.ExitObj} (h : Inv exact s [] none none) (hexact : ¬exact) (hok : ExitOk s x)
    (hs : s.exitEntry x = some s') : Inv exact s' [] none none ∧ Fixed links s s' := by
  unfold State.exitEntry at hs
  split at hs
  case isFalse => cases hs
  case isTrue =>
    split at hs
    · cases hs
      exact ⟨h,Fixed.refl _⟩
    · next k hk =>
      have hmem := lookupAt_mem hk
      have hlt := h.mem_lt k hmem
      obtain ⟨hlink,hrefs⟩ := hok k hk
      dsimp only at hs
      by_cases hinf : (s.key k).refcount = refcountInfinity
      · -- the count of a declare target object is written back as it is
        have hr : State.exitRefcount x.kind (s.key k).refcount = (s.key k).refcount := by
          simp [State.exitRefcount, hinf]
        rw [hr,if_neg (by rw [hinf]; decide)] at hs
        have hid : s.setRefcount k (s.key k).refcount = s := by
          unfold State.setRefcount
          rw [Function.update_eq_self]
        rw [hid] at hs
        cases hs
        exact ⟨h,Fixed.refl _⟩
      · have hf : s.Finite k := ⟨hinf,hlink⟩
        obtain ⟨_,hbound,hpos⟩ := h.finite k hlt hf
        have hpos' := hpos.mp hmem
        have hne : (s.key k).refcount - 1 ≠ refcountInfinity := by
          have := refcountLink_lt
          omega
        have hr : State.exitRefcount x.kind (s.key k).refcount =
            if State.isDelete x.kind then 0 else (s.key k).refcount - 1 := by
          simp [State.exitRefcount, hpos', hinf, hne]
        have hle := hrefs hinf
        by_cases hzero : State.exitRefcount x.kind (s.key k).refcount = 0
        · rw [if_pos hzero,hzero] at hs
          have hw := unmapKey_dropped h hmem hs
          refine ⟨hw.inv h hmem hf (fun _ _ => rfl) ?_,hw.fixed hf⟩
          rw [List.count_nil,Nat.add_zero]
          rw [hr] at hzero
          split at hle
          · exact hle
          · next hd =>
            rw [if_neg hd] at hzero
            omega
        · rw [if_neg hzero] at hs
          cases hs
          rw [hr] at hzero ⊢
          split at hle
          · next hd => exact absurd (if_pos hd) hzero
          · next hd =>
            rw [if_neg hd] at hzero ⊢
            refine ⟨setRefcount_inv h hlt hf (by omega) ?_ (fun _ _ => rfl) ⟨?_,fun e => absurd e hexact⟩ nofun,
              (setRefcount_keeps hf (by omega)).fixed⟩
            · exact iff_of_true (by omega) hmem
            · rw [List.count_nil]
              omega

theorem gompExitData_inv {xs : List State.ExitObj} (h : Inv exact s [] none none) (hexact : ¬exact) (hok : ExitsOk s xs)
    (hs : s.gompExitData xs = some s') : Inv exact s' [] none none ∧ Fixed links s s' := by
  induction xs generalizing s with
  | nil =>
    cases hs
    exact ⟨h,Fixed.refl _⟩
  | cons x xs ih =>
    obtain ⟨s1,h1,hs⟩ := Option.bind_eq_some_iff.mp hs
    obtain ⟨hinv,hfix⟩ := exitEntry_inv h hexact hok.1 h1
    obtain ⟨hinv',hfix'⟩ := ih hinv (hok.2 s1 h1) hs
    exact ⟨hinv',hfix.trans hfix'⟩

end ExitData

section LoadImage

/-- The count of a declare target object. -/
def imageRefcount (x : State.ImageObj) : ℕ := if x.isLink then refcountLink else refcountInfinity

/-- The state with one more declare target object. -/
def withImage (s : State) (d : ℕ) (x : State.ImageObj) : State :=
  { s with
    key := Function.update s.key s.numKeys ⟨x.hostStart,x.hostEnd,d,imageRefcount x,none⟩
    numKeys := s.numKeys + 1
    memMap := s.numKeys :: s.memMap }

theorem withImage_old {x : State.ImageObj} {l : ℕ} (hl : l < s.numKeys) : (withImage s d x).key l = s.key l :=
  Function.update_of_ne hl.ne _ _

theorem withImage_new {x : State.ImageObj} :
    (withImage s d x).key s.numKeys = ⟨x.hostStart,x.hostEnd,d,imageRefcount x,none⟩ := Function.update_self ..

theorem withImage_finite {x : State.ImageObj} : ¬(withImage s d x).Finite s.numKeys := by
  unfold State.Finite
  rw [withImage_new]
  unfold imageRefcount
  split
  · exact fun hf => hf.2 rfl
  · exact fun hf => hf.1 rfl

theorem withImage_inv {x : State.ImageObj} (h : Inv exact s [] none none) (hd : d < s.numDescs)
    (himage : (s.desc d).refcount = refcountInfinity ∧ (s.desc d).releases = 0) (hx : x.hostStart < x.hostEnd)
    (hapart : ∀ l ∈ s.memMap, ¬(withImage s d x).KeysMeet s.numKeys l) : Inv exact (withImage s d x) [] none none := by
  have hsplit : ∀ l, l < s.numKeys + 1 → l = s.numKeys ∨ l < s.numKeys := fun l hl => by omega
  have hnew : s.numKeys ∉ s.memMap := fun hm => absurd (h.mem_lt _ hm) (lt_irrefl _)
  have hfin : ∀ l < s.numKeys, (withImage s d x).Finite l → s.Finite l := by
    intro l hl hf
    unfold State.Finite at hf
    rw [withImage_old hl] at hf
    exact hf
  -- an ordinary key is an old one
  have hold : ∀ l < s.numKeys + 1, (withImage s d x).Finite l → l < s.numKeys ∧ s.Finite l := by
    intro l hl hf
    rcases hsplit l hl with rfl | hl
    · exact absurd hf withImage_finite
    · exact ⟨hl,hfin l hl hf⟩
  have hmem : ∀ l ∈ (withImage s d x).memMap, l = s.numKeys ∨ l ∈ s.memMap := fun l hl => List.mem_cons.mp hl
  constructor
  · exact List.nodup_cons.mpr ⟨hnew,h.nodup⟩
  · intro l hl
    rcases hmem l hl with rfl | hl
    · exact Nat.lt_succ_self _
    · exact (h.mem_lt l hl).trans (Nat.lt_succ_self _)
  · intro a ha b hb hab
    rcases hmem a ha with rfl | ha <;> rcases hmem b hb with rfl | hb
    · exact absurd rfl hab
    · exact hapart b hb
    · exact fun hm => hapart a ha (KeysMeet.symm hm)
    · have := h.disjoint a ha b hb hab
      have hkb := withImage_old (d := d) (x := x) (h.mem_lt b hb)
      unfold State.KeysMeet at this ⊢
      rw [meets_congr (s := s) (by rw [hkb]) (by rw [hkb]),withImage_old (h.mem_lt a ha)]
      exact this
  · intro l hl
    rcases hsplit l hl with rfl | hl
    · rw [withImage_new]
      exact hx
    · rw [withImage_old hl]
      exact h.range l hl
  · intro l hl
    rcases hsplit l hl with rfl | hl
    · rw [withImage_new]
      exact hd
    · rw [withImage_old hl]
      exact h.tgt_lt l hl
  · intro l hl n hn
    rcases hsplit l hl with rfl | hl
    · rw [withImage_new] at hn
      cases hn
    · rw [withImage_old hl] at hn
      obtain ⟨hnlt,hnl⟩ := h.link l hl n hn
      rw [withImage_old hnlt]
      exact ⟨hnlt.trans (Nat.lt_succ_self _),hnl⟩
  · intro l hl hnf
    rcases hsplit l hl with rfl | hl
    · rw [withImage_new]
      exact himage
    · rw [withImage_old hl]
      refine h.permanent l hl fun hf => hnf ?_
      unfold State.Finite
      rw [withImage_old hl]
      exact hf
  · intro l hl hf
    obtain ⟨hlt,hf⟩ := hold l hl hf
    obtain ⟨h1,h2,h3⟩ := h.finite l hlt hf
    rw [withImage_old hlt]
    refine ⟨h1,h2,?_⟩
    rw [← h3]
    exact ⟨fun hm => (hmem l hm).resolve_left hlt.ne,fun hm => List.mem_cons_of_mem _ hm⟩
  · intro l hl hf
    obtain ⟨hlt,hf⟩ := hold l hl hf
    have hrefs : (withImage s d x).refs l = s.refs l := refs_congr rfl fun e _ => ⟨rfl,rfl⟩
    rw [withImage_old hlt,hrefs]
    exact h.count l hlt hf
  · intro e he l hm
    obtain ⟨hlt,hne⟩ := h.list_known e he l hm
    refine ⟨hlt.trans (Nat.lt_succ_self _),?_⟩
    rw [withImage_old hlt]
    exact hne
  · exact fun l hm => absurd hm List.not_mem_nil
  · intro e he hne
    have howned : (withImage s d x).owned e = s.owned e := by
      have hed : d ≠ e := fun e' => hne (e' ▸ himage.1)
      unfold State.owned
      change List.countP _ (s.numKeys :: s.memMap) = _
      rw [List.countP_cons_of_neg (by rw [withImage_new]; simpa using hed)]
      exact List.countP_congr fun l hl => by rw [withImage_old (h.mem_lt l hl)]
    rw [howned]
    exact h.desc e he hne
  · exact h.region

theorem withImage_fixed {x : State.ImageObj} (hlink : x.isLink = true → links) : Fixed links s (withImage s d x) := by
  refine ⟨Nat.le_succ _,fun l hl _ => by rw [withImage_old hl],fun l hl hf => ?_,fun l hl hge he => ?_⟩
  · unfold State.Finite
    rw [withImage_old hl]
    exact hf
  · obtain rfl : l = s.numKeys := le_antisymm (Nat.lt_succ_iff.mp hl) hge
    rw [withImage_new] at he
    dsimp only [imageRefcount] at he
    split at he
    · next hx => exact hlink hx
    · exact absurd he (by decide)

theorem loadObjects_inv {xs : List State.ImageObj} (h : Inv exact s [] none none) (hd : d < s.numDescs)
    (himage : (s.desc d).refcount = refcountInfinity ∧ (s.desc d).releases = 0)
    (hx : ∀ x ∈ xs, x.hostStart < x.hostEnd) (hlinks : ∀ x ∈ xs, x.isLink = true → links)
    (hs : s.loadObjects d xs = some s') :
    Inv exact s' [] none none ∧ Fixed links s s' := by
  induction xs generalizing s with
  | nil =>
    cases hs
    exact ⟨h,Fixed.refl _⟩
  | cons x xs ih =>
    obtain ⟨s1,h1,hs⟩ := Option.bind_eq_some_iff.mp hs
    obtain ⟨he,hno⟩ := insert_spec h1
    have hs1 : s1 = withImage s d x := he
    subst hs1
    have hinv := withImage_inv h hd himage (hx x List.mem_cons_self) hno
    obtain ⟨hinv',hfix⟩ := ih hinv hd himage (fun y hy => hx y (List.mem_cons_of_mem x hy))
      (fun y hy => hlinks y (List.mem_cons_of_mem x hy)) hs
    exact ⟨hinv',(withImage_fixed (hlinks x List.mem_cons_self)).trans hfix⟩

theorem gompLoadImageToDevice_inv {xs : List State.ImageObj} (h : Inv exact s [] none none)
    (hx : ∀ x ∈ xs, x.hostStart < x.hostEnd) (hlinks : ∀ x ∈ xs, x.isLink = true → links)
    (hs : s.gompLoadImageToDevice xs = some s') :
    Inv exact s' [] none none ∧ Fixed links s s' := by
  unfold State.gompLoadImageToDevice at hs
  have h0 : Inv exact (s.addDesc ⟨refcountInfinity,[],false,0⟩) [] none none :=
    addDesc_inv h ⟨rfl,rfl⟩ (fun _ => ⟨rfl,nofun⟩) (fun _ _ => ⟨nofun,nofun⟩) fun hne => absurd rfl hne
  have himage : ((s.addDesc ⟨refcountInfinity,[],false,0⟩).desc s.numDescs).refcount = refcountInfinity ∧
      ((s.addDesc ⟨refcountInfinity,[],false,0⟩).desc s.numDescs).releases = 0 := by
    have hself : (s.addDesc ⟨refcountInfinity,[],false,0⟩).desc s.numDescs = ⟨refcountInfinity,[],false,0⟩ :=
      Function.update_self ..
    rw [hself]
    exact ⟨rfl,rfl⟩
  obtain ⟨hinv,hfix⟩ := loadObjects_inv h0 (Nat.lt_succ_self _) himage hx hlinks hs
  have hfix0 : Fixed links s (s.addDesc ⟨refcountInfinity,[],false,0⟩) := Fixed.of_key rfl rfl
  exact ⟨hinv,hfix0.trans hfix⟩

end LoadImage

section Steps

/-- The elements of a structure are no link objects. -/
def FieldsClear (s : State) : Item → Prop
  | .object _ => True
  | .struct _ fields => ∀ x ∈ fields, Clear s x

/-- A call that keeps link objects out of the ordinary counting, keeps the counts in their range, and
takes from gomp_exit_data only references that no structured region holds. -/
def Balanced (s : State) : Event → Prop
  | .mapVars _ items => (∀ i ∈ items, FieldsClear s i) ∧ RoomFor s (numEntries items)
  | .unmapVars _ => True
  | .exitData objs => ExitsOk s objs
  | .loadImage _ => True

/-- The calls of structured regions, on a device without link objects. -/
def Event.structured : Event → Bool
  | .mapVars kind _ => kind ≠ .enterData
  | .unmapVars _ => true
  | .exitData _ => false
  | .loadImage objs => objs.all fun x => !x.isLink

theorem itemOk_of_wellFormed {i : Item} (h : i.wellFormed = true) (hc : FieldsClear s i) : ItemOk s i := by
  cases i with
  | object x =>
    simp only [Item.wellFormed, Bool.or_eq_true, decide_eq_true_eq] at h
    unfold ItemOk ObjOk
    rcases h with (h | h) | h
    · exact .inl h
    · rcases List.mem_cons.mp h with h | h
      · refine .inr (.inr ?_)
        unfold Obj.hostEnd pointerSize
        rw [if_pos h]
        omega
      · exact .inr (.inl h)
    · refine .inr (.inr ?_)
      unfold Obj.hostEnd pointerSize
      split <;> omega
  | struct a fields =>
    simp only [Item.wellFormed, Bool.and_eq_true, List.all_eq_true, decide_eq_true_eq] at h
    exact ⟨h.1.2,fun x hx => ⟨h.2 x hx,hc x hx⟩⟩

theorem step_inv {e : Event} (h : Inv exact s [] none none) (hb : Balanced s e)
    (hst : exact ∨ ¬links → e.structured = true) (hs : s.step e = some s') :
    Inv exact s' [] none none ∧ Fixed links s s' := by
  unfold State.step at hs
  split at hs
  case isFalse => cases hs
  case isTrue hen =>
    cases e with
    | mapVars kind items =>
      simp only [State.enabled, Bool.and_eq_true, List.all_eq_true, decide_eq_true_eq] at hen
      have hfits : numEntries items + 1 < refcountLink := by
        have hmax : maxEntries + 1 < refcountLink := by decide
        have := hen.2
        omega
      refine gompMapVars_inv h (fun i hi => itemOk_of_wellFormed (hen.1.2 i hi) (hb.1 i hi)) (fun he => ?_) hb.2 hfits hs
      simpa [Event.structured] using hst (.inl he)
    | unmapVars d =>
      simp only [State.enabled, Bool.and_eq_true, decide_eq_true_eq] at hen
      exact gompUnmapVars_inv h hen.1 hen.2 hs
    | exitData objs =>
      refine gompExitData_inv h (fun he => ?_) hb hs
      cases hst (.inl he)
    | loadImage objs =>
      simp only [State.enabled, List.all_eq_true, decide_eq_true_eq] at hen
      refine gompLoadImageToDevice_inv h hen (fun x hx hlink => ?_) hs
      by_contra hl
      have := List.all_eq_true.mp (hst (.inr hl)) x hx
      rw [hlink] at this
      cases this

end Steps

section Structured

def NoLinks (s : State) : Prop := ∀ k < s.numKeys, (s.key k).refcount ≠ refcountLink

theorem NoLinks.fixed (h : NoLinks s) (hfix : Fixed False s s') : NoLinks s' := by
  intro k hk hl
  by_cases hlt : k < s.numKeys
  · by_cases hf : s.Finite k
    · exact (hfix.finite k hlt hf).2 hl
    · exact h k hlt ((hfix.permanent k hlt hf).symm.trans hl)
  · exact hfix.new k hk (Nat.not_lt.mp hlt) hl

theorem refs_le_entries (s : State) (k : ℕ) : s.refs k ≤ s.entries := by
  refine Finset.sum_le_sum fun d _ => ?_
  split
  · exact List.count_le_length
  · exact le_rfl

theorem balanced_of_structured {e : Event} (h : Inv True s [] none none) (hno : NoLinks s) (he : e.structured = true)
    (hen : s.enabled e = true) : Balanced s e := by
  cases e with
  | mapVars kind items =>
    simp only [State.enabled, Bool.and_eq_true, List.all_eq_true, decide_eq_true_eq] at hen
    constructor
    · intro i _
      cases i with
      | object x => trivial
      | struct a fields => exact fun x _ l hl hlink => absurd hlink (hno l (h.mem_lt l hl))
    · -- the exact counts are bounded by the entries of the lists
      intro k hk hf
      have hcount := (h.count k (h.mem_lt k hk) hf).2 trivial
      rw [List.count_nil,Nat.add_zero] at hcount
      have hle := refs_le_entries s k
      have hmax : maxEntries < refcountLink := by decide
      have := hen.2
      omega
  | unmapVars d => trivial
  | exitData objs => cases he
  | loadImage objs => trivial

theorem structured_step {e : Event} (h : Inv True s [] none none ∧ NoLinks s) (he : e.structured = true)
    (hs : s.step e = some s') : Inv True s' [] none none ∧ NoLinks s' := by
  have hen : s.enabled e = true := by
    by_contra hn
    unfold State.step at hs
    rw [if_neg hn] at hs
    cases hs
  have hb := balanced_of_structured h.1 h.2 he hen
  have hst : True ∨ ¬False → e.structured = true := fun _ => he
  obtain ⟨hinv,hfix⟩ := step_inv h.1 hb hst hs
  exact ⟨hinv,h.2.fixed hfix⟩

/-- A region that is still to be unmapped counts for one. -/
def State.region (s : State) (d : ℕ) : ℕ := if (s.desc d).mapped then 1 else 0

/-- Structured regions count exactly: a key counts the live list entries that refer to it and is in
the tree while there are any; a descriptor counts its keys in the tree and its own region, and is
freed once, when nothing is left to count. -/
theorem structured_mapping_counts (es : List Event) (s : State) (hes : ∀ e ∈ es, e.structured = true)
    (hrun : Run.run State.step init es = some s) :
    (∀ k < s.numKeys, (s.key k).refcount ≠ refcountInfinity →
      (s.key k).refcount = s.refs k ∧ (k ∈ s.memMap ↔ 0 < s.refs k)) ∧
    ∀ d < s.numDescs, (s.desc d).refcount ≠ refcountInfinity →
      ((s.desc d).releases = if s.owned d + s.region d = 0 then 1 else 0) ∧
      ((s.desc d).releases = 0 → (s.desc d).refcount = s.owned d + s.region d) := by
  have h0 : Inv True init [] none none ∧ NoLinks init := ⟨init_inv True,fun k hk => absurd hk (Nat.not_lt_zero k)⟩
  obtain ⟨hinv,hno⟩ := Run.run_invariant (fun _ _ _ hi he hs => structured_step hi he hs) h0
    (Run.along_of_forall hes init) hrun
  constructor
  · intro k hk hinf
    have hf : s.Finite k := ⟨hinf,hno k hk⟩
    have hcount := (hinv.count k hk hf).2 trivial
    rw [List.count_nil,Nat.add_zero] at hcount
    refine ⟨hcount.symm,?_⟩
    rw [hcount]
    exact (hinv.finite k hk hf).2.2
  · intro d hd hinf
    have hhold : s.hold none d = s.region d := by simp [State.hold, State.region]
    obtain ⟨hle,hcount,hone,_⟩ := hinv.desc d hd hinf
    rw [hhold] at hcount hone
    refine ⟨?_,hcount⟩
    split
    · next hzero => exact hone.mpr ⟨hzero,by simp⟩
    · next hpos =>
      have : (s.desc d).releases ≠ 1 := fun e => hpos (hone.mp e).1
      omega

def nestedRegions : List Event :=
  [.mapVars .data [.object ⟨.tofrom,100,16⟩,.object ⟨.toPset,200,16⟩,.object ⟨.pointer,200,0⟩],
    .mapVars .target [.object ⟨.to,104,4⟩,.struct 300 [⟨.to,300,4⟩,⟨.to,304,4⟩]],.unmapVars 0]

theorem structured_mapping_counts_nestedRegions : ∃ s, Run.run State.step init nestedRegions = some s ∧
    (∀ k < s.numKeys, (s.key k).refcount ≠ refcountInfinity →
      (s.key k).refcount = s.refs k ∧ (k ∈ s.memMap ↔ 0 < s.refs k)) ∧
    ∀ d < s.numDescs, (s.desc d).refcount ≠ refcountInfinity →
      ((s.desc d).releases = if s.owned d + s.region d = 0 then 1 else 0) ∧
      ((s.desc d).releases = 0 → (s.desc d).refcount = s.owned d + s.region d) :=
  ⟨_,rfl,structured_mapping_counts nestedRegions _ (by decide) rfl⟩

end Structured

section Unstructured

/-- No descriptor is freed twice, or while a key of the tree or of a live list belongs to it. -/
def State.Safe (s : State) : Prop :=
  (∀ d < s.numDescs, (s.desc d).mapped = true → ∀ k, some k ∈ (s.desc d).list → (s.desc (s.key k).tgt).releases = 0) ∧
    (∀ k ∈ s.memMap, (s.desc (s.key k).tgt).releases = 0) ∧ ∀ d < s.numDescs, (s.desc d).releases ≤ 1

theorem refs_pos {k : ℕ} (hd : d < s.numDescs) (hm : (s.desc d).mapped = true) (hk : some k ∈ (s.desc d).list) :
    0 < s.refs k := by
  have hterm : 0 < if (s.desc d).mapped then (s.desc d).list.count (some k) else 0 := by
    rw [if_pos hm]
    exact List.count_pos_iff.mpr hk
  have hle := Finset.single_le_sum (f := fun e => if (s.desc e).mapped then (s.desc e).list.count (some k) else 0)
    (fun e _ => Nat.zero_le _) (Finset.mem_range.mpr hd)
  exact lt_of_lt_of_le hterm hle

theorem Inv.mem_releases (h : Inv exact s [] none none) {k : ℕ} (hk : k ∈ s.memMap) :
    (s.desc (s.key k).tgt).releases = 0 := by
  have hlt := h.mem_lt k hk
  by_cases hf : s.Finite k
  · obtain ⟨hle,_,hone,_⟩ := h.desc _ (h.tgt_lt k hlt) (h.finite k hlt hf).1
    have howned : 0 < s.owned (s.key k).tgt := List.countP_pos_iff.mpr ⟨k,hk,by simp⟩
    have : (s.desc (s.key k).tgt).releases ≠ 1 := by
      intro e
      have := (hone.mp e).1
      omega
    omega
  · exact (h.permanent k hlt hf).2

theorem Inv.safe (h : Inv exact s [] none none) : s.Safe := by
  refine ⟨fun d hd hm k hk => ?_,fun k hk => h.mem_releases hk,fun d hd => ?_⟩
  · obtain ⟨hlt,hl⟩ := h.list_known d hd k hk
    by_cases hf : s.Finite k
    · -- the list itself is one of the references that the key counts
      have hpos := refs_pos hd hm hk
      have hle := (h.count k hlt hf).1
      exact h.mem_releases ((h.finite k hlt hf).2.2.mpr (by omega))
    · exact (h.permanent k hlt hf).2
  · by_cases hinf : (s.desc d).refcount = refcountInfinity
    · rw [(h.region d hinf).2.1]
      exact Nat.zero_le 1
    · exact (h.desc d hd hinf).1

/-- The counts of declare target objects in the first state are those of the second. -/
def KeepsPermanent (s s' : State) : Prop :=
  ∀ k < s.numKeys, (s.key k).refcount = refcountInfinity ∨ (s.key k).refcount = refcountLink →
    (s'.key k).refcount = (s.key k).refcount

theorem Fixed.keepsPermanent (h : Fixed links s s') : KeepsPermanent s s' := by
  intro k hk hc
  refine h.permanent k hk fun hf => ?_
  rcases hc with hc | hc
  · exact hf.1 hc
  · exact hf.2 hc

/-- Histories whose calls are balanced keep every descriptor that is needed. -/
theorem balanced_mappings_safe (es es' : List Event) (s s' : State) (hc : Along State.step Balanced init es)
    (hrun : run State.step init es = some s) (hc' : Along State.step Balanced s es')
    (hrun' : run State.step s es' = some s') : s'.Safe ∧ KeepsPermanent s s' := by
  have hstep : ∀ t e t', Inv False t [] none none → Balanced t e → t.step e = some t' →
      Inv False t' [] none none ∧ Fixed True t t' :=
    fun _ _ _ hi hb hs => step_inv hi hb (by simp) hs
  have hinv : Inv False s [] none none :=
    run_invariant (fun t e t' hi hb hs => (hstep t e t' hi hb hs).1) (init_inv False) hc hrun
  have hstep' : ∀ t e t', Inv False t [] none none ∧ Fixed True s t → Balanced t e → t.step e = some t' →
      Inv False t' [] none none ∧ Fixed True s t' := by
    intro t e t' hi hb hs
    obtain ⟨hi',hfix⟩ := hstep t e t' hi.1 hb hs
    exact ⟨hi',hi.2.trans hfix⟩
  obtain ⟨hinv',hfix⟩ := run_invariant hstep' ⟨hinv,Fixed.refl s⟩ hc' hrun'
  exact ⟨hinv'.safe,hfix.keepsPermanent⟩

instance (x : State.ExitObj) : Decidable (ExitOk s x) :=
  inferInstanceAs (Decidable (∀ k ∈ s.lookupAt x.pick x.hostaddr (x.hostaddr + x.size),
    (s.key k).refcount ≠ refcountLink ∧ ((s.key k).refcount ≠ refcountInfinity →
      if State.isDelete x.kind then s.refs k = 0 else s.refs k < (s.key k).refcount)))

instance decidableExitsOk : ∀ (s : State) (xs : List State.ExitObj), Decidable (ExitsOk s xs)
  | _, [] => isTrue trivial
  | s, x :: xs =>
    have (s' : State) : Decidable (ExitsOk s' xs) := decidableExitsOk s' xs
    inferInstanceAs (Decidable (ExitOk s x ∧ ∀ s' ∈ s.exitEntry x, ExitsOk s' xs))

instance (x : Obj) : Decidable (Clear s x) :=
  inferInstanceAs (Decidable (∀ l ∈ s.memMap, (s.key l).refcount = refcountLink →
    s.meets x.hostaddr (x.hostaddr + x.size) l = false))

instance decidableFieldsClear (s : State) : ∀ i : Item, Decidable (FieldsClear s i)
  | .object _ => isTrue trivial
  | .struct _ fields => inferInstanceAs (Decidable (∀ x ∈ fields, Clear s x))

instance (n : ℕ) : Decidable (RoomFor s n) :=
  inferInstanceAs (Decidable (∀ k ∈ s.memMap, (s.key k).refcount ≠ refcountInfinity ∧ (s.key k).refcount ≠ refcountLink →
    (s.key k).refcount + n < refcountLink))

instance decidableBalanced (s : State) : ∀ e : Event, Decidable (Balanced s e)
  | .mapVars _ items => inferInstanceAs (Decidable ((∀ i ∈ items, FieldsClear s i) ∧ RoomFor s (numEntries items)))
  | .unmapVars _ => isTrue trivial
  | .exitData objs => inferInstanceAs (Decidable (ExitsOk s objs))
  | .loadImage _ => isTrue trivial

def enteredObjects : List Event :=
  [.loadImage [⟨500,508,true⟩,⟨600,608,false⟩],.mapVars .enterData [.object ⟨.to,100,16⟩],
    .mapVars .data [.object ⟨.tofrom,100,8⟩,.object ⟨.to,500,8⟩,.object ⟨.to,600,8⟩]]

def exitedObjects : List Event :=
  [.exitData [⟨.release,100,16,0⟩,⟨.delete,600,8,0⟩],.unmapVars 2,.mapVars .enterData [.object ⟨.to,100,16⟩],
    .exitData [⟨.delete,100,16,0⟩]]

theorem balanced_mappings_safe_exitedObjects : ∃ s s', run State.step init enteredObjects = some s ∧
    run State.step s exitedObjects = some s' ∧ s'.Safe ∧ KeepsPermanent s s' :=
  ⟨_,_,rfl,rfl,balanced_mappings_safe enteredObjects exitedObjects _ _ (along_of_check (by decide)) rfl
    (along_of_check (by decide)) rfl⟩

/-- Two data regions map an object and the first one ends; then the object is deleted. -/
def deletedObject : List Event :=
  [.mapVars .data [.object ⟨.tofrom,100,16⟩],.mapVars .data [.object ⟨.tofrom,100,16⟩],.unmapVars 0,
    .exitData [⟨.delete,100,16,0⟩]]

theorem balanced_mappings_safe_deletedObject : ¬∀ (es es' : List Event) (s s' : State),
    run State.step init es = some s → run State.step s es' = some s' → s'.Safe ∧ KeepsPermanent s s' := by
  intro h
  have hsafe := (h deletedObject [] _ _ rfl rfl).1
  have hfreed := hsafe.1 1 (by decide) rfl 0 (by decide)
  exact absurd hfreed (by decide)

end Unstructured

end GompUlt.Target
