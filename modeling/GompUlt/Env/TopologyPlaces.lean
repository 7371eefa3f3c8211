import GompUlt.Env.CpuAffinity
import Mathlib

/-! # Places from the topology of the machine

`gomp_affinity_init_level` reads for each CPU of the process which CPUs share its socket or its core, and opens
places for them in a list of a fixed number of slots.
-/
namespace GompUlt.TopologyPlaces
open CpuAffinity

/-- `strtoul (env, &end, 10)`. -/
def strtoulTen (env : List Char) : Number :=
  let sign := readSign (skipSpace env)
  let n := readDigits 10 0 sign.2
  if n.2 = sign.2 then ⟨0,false,env⟩
  else if 2 ^ 64 ≤ n.1 then ⟨2 ^ 64 - 1,true,n.2⟩
  else ⟨if sign.1 then (2 ^ 64 - n.1) % 2 ^ 64 else n.1,false,n.2⟩

/-- The last CPU of a range, none where the loop over the line is left. -/
def readLast (first : ℕ) : List Char → Option (ℕ × List Char)
  | [] => some (first,[])
  | c :: p =>
    if c = '-' then
      let n := strtoulTen p
      if n.erange ∨ n.value < first then none else some (n.value,n.rest)
    else some (first,c :: p)

def skipComma : List Char → List Char
  | [] => []
  | c :: p => if c = ',' then p else c :: p

/-- The ranges that are read from a line, in at most so many rounds; none when it takes more, or when the loop over
a range never ends. -/
def readSiblings : ℕ → List Char → Option (List (ℕ × ℕ))
  | 0, _ => none
  | _ + 1, [] => some []
  | n + 1, c :: p =>
    if c = '\n' then some []
    else
      let first := strtoulTen (c :: p)
      if first.erange then some []
      else
        match readLast first.value first.rest with
        | none => some []
        | some (last,rest) =>
          if last = 2 ^ 64 - 1 then none
          else (readSiblings n (skipComma rest)).map fun ranges => (first.value,last) :: ranges

/-- A file that holds a line, over which the loop ends. -/
structure SiblingsList where
  line : List Char
  ranges : List (ℕ × ℕ)
  nonempty : line ≠ []
  reads : readSiblings (line.length + 1) line = some ranges

/-- The CPUs in the order in which the loop comes to them. -/
def SiblingsList.cpus (l : SiblingsList) : List ℕ :=
  l.ranges.flatMap fun r => List.range' r.1 (r.2 + 1 - r.1)

/-- The set of CPUs of the process, and the files that are there. -/
structure Machine where
  cpusetSize : ℕ
  cpus : Finset ℕ
  inSet : ∀ i ∈ cpus, i < 8 * cpusetSize
  core : ℕ → Option SiblingsList
  thread : ℕ → Option SiblingsList

def Machine.max (m : Machine) : ℕ := 8 * m.cpusetSize

def Machine.siblingsList (m : Machine) (thisLevel i : ℕ) : Option SiblingsList :=
  if thisLevel = 3 then m.core i else m.thread i

inductive Level where
  | threads
  | cores
  | sockets
deriving DecidableEq, Repr

def Level.toNat : Level → ℕ
  | .threads => 1
  | .cores => 2
  | .sockets => 3

/-- The copy of the set of CPUs, the places list, and the indices of it that have been used. -/
structure State where
  copy : Finset ℕ
  places : ℕ → Finset ℕ
  len : ℕ
  used : List ℕ

/-- `gomp_places_list[gomp_places_list_len]` is read. -/
def State.use (s : State) : State := { s with used := s.len :: s.used }

/-- `gomp_affinity_init_place`. -/
def State.initPlace (s : State) (pl : ℕ) : State := { s with places := Function.update s.places pl ∅ }

/-- `gomp_affinity_add_cpus`, for a CPU and so many after it. -/
def affinityAddCpus (max : ℕ) (stride : ℤ) : ℕ → ℕ → Finset ℕ → Bool × Finset ℕ
  | more, num, p =>
    if max ≤ num then (false,p)
    else
      match more with
      | 0 => (true,insert num p)
      | more + 1 =>
        let next := ((num + stride) % 2 ^ 64).toNat
        if (stride < 0 ∧ num < next) ∨ (0 < stride ∧ next < num) then (false,insert num p)
        else affinityAddCpus max stride more next (insert num p)

/-- The body of the loop over a range, with the place that is open. -/
def openCpu (m : Machine) (level thisLevel : ℕ) (inner : State → State) (a : State × ℕ) (first : ℕ) : State × ℕ :=
  if first ∉ a.1.copy then a
  else if thisLevel = 3 ∧ level < thisLevel then (inner a.1,a.2)
  else
    let b := if level = 1 then (a.1.use.initPlace a.1.len,a.1.len) else a
    let p := affinityAddCpus m.max 0 0 first (b.1.places b.2)
    let s := { b.1 with places := Function.update b.1.places b.2 p.2 }
    if p.1 then ({ s with copy := s.copy.erase first, len := if level = 1 then s.len + 1 else s.len },b.2)
    else (s,b.2)

/-- The body of the loop over the CPUs. -/
def visit (m : Machine) (level thisLevel : ℕ) (inner : State → State) (i : ℕ) (s : State) : State :=
  if i ∉ s.copy then s
  else
    match m.siblingsList thisLevel i with
    | none => { s with copy := s.copy.erase i }
    | some l =>
      let s₁ := if level = thisLevel then s.use.initPlace s.len else s.use
      let s₂ := (l.cpus.foldl (openCpu m level thisLevel inner) (s₁,s.len)).1
      { s₂ with
        copy := s₂.copy.erase i
        len := if level = thisLevel ∧ i ∉ s₂.copy then s₂.len + 1 else s₂.len }

def scan (count : ℕ) (body : ℕ → State → State) : List ℕ → State → State
  | [], s => s
  | i :: is, s => if s.len < count then scan count body is (body i s) else s

/-- `gomp_affinity_init_level_1` with a `this_level` of 2. -/
def initThreads (m : Machine) (level count : ℕ) : State → State :=
  scan count (visit m level 2 id) (List.range m.max)

/-- `gomp_affinity_init_level_1` with a `this_level` of 3. -/
def initCores (m : Machine) (level count : ℕ) : State → State :=
  scan count (visit m level 3 (initThreads m level count)) (List.range m.max)

structure Result where
  ok : Bool
  places : Option (ℕ → Finset ℕ)
  len : ℕ
  used : List ℕ

/-- The number of slots that are asked for. -/
def Machine.allotted (m : Machine) (count : ℕ) : ℕ := if m.cpus.card < count then m.cpus.card else count

/-- `gomp_affinity_init_level`; `room` is what the allocation returns, with whatever the sets hold. -/
def initLevel (m : Machine) (level : Level) (count : ℕ) (room : Option (ℕ → Finset ℕ)) : Result :=
  match room with
  | none => ⟨false,none,0,[]⟩
  | some places =>
    let s := initCores m level.toNat (m.allotted count) ⟨m.cpus,places,0,[]⟩
    if s.len = 0 then ⟨false,none,0,s.used⟩ else ⟨true,some s.places,s.len,s.used⟩

/-- The numbers of places that are opened one after another at the level of the threads, if the lists of so many
CPUs are read. -/
def groupSizes (m : Machine) : List ℕ → Finset ℕ → List ℕ
  | [], _ => []
  | i :: is, left =>
    if i ∉ left then groupSizes m is left
    else
      match m.thread i with
      | none => groupSizes m is (left.erase i)
      | some l => (left ∩ l.cpus.toFinset).card :: groupSizes m is ((left \ l.cpus.toFinset).erase i)

/-- The CPUs that are left when the lists of the threads are read, none when they are not. -/
def threadsLeft (m : Machine) : List ℕ → Finset ℕ → Finset ℕ
  | [], _ => ∅
  | i :: is, left =>
    if i ∉ left then threadsLeft m is left
    else
      match m.core i with
      | none => threadsLeft m is (left.erase i)
      | some l => if Disjoint l.cpus.toFinset left then threadsLeft m is (left.erase i) else left

/-- The slots are used up at the end of a group, if at all. -/
def EndsAt (count : ℕ) (sizes : List ℕ) : Prop :=
  ∀ k, (sizes.take k).sum < count → (sizes.take (k + 1)).sum ≤ count

/-- The places that are reported. -/
structure Reported (m : Machine) (level : ℕ) (places : ℕ → Finset ℕ) (len : ℕ) : Prop where
  nonempty : ∀ k < len, (places k).Nonempty
  subset : ∀ k < len, places k ⊆ m.cpus
  disjoint : ∀ j k, j < k → k < len → Disjoint (places j) (places k)
  single : level = 1 → ∀ k < len, (places k).card = 1

/-- The slots that have been used are there. -/
structure State.Within (s : State) (count : ℕ) : Prop where
  len : s.len ≤ count
  used : ∀ k ∈ s.used, k < count

section Reports
variable {m : Machine} {level thisLevel : ℕ} {s : State}

/-- The places have no CPU that is still in the copy. -/
structure Opened (m : Machine) (level : ℕ) (s : State) : Prop where
  reported : Reported m level s.places s.len
  apart : ∀ k < s.len, Disjoint (s.places k) s.copy
  copy : s.copy ⊆ m.cpus

/-- A place that is still open is beside the others. -/
structure Opening (m : Machine) (s : State) : Prop where
  subset : s.places s.len ⊆ m.cpus
  disjoint : ∀ k < s.len, Disjoint (s.places k) (s.places s.len)
  apart : Disjoint (s.places s.len) s.copy

variable {s' : State} {inner : State → State} {first : ℕ}

theorem Opened.congr (h : Opened m level s) (hlen : s'.len = s.len) (hplaces : ∀ k < s.len, s'.places k = s.places k)
    (hcopy : s'.copy ⊆ s.copy) : Opened m level s' := by
  obtain ⟨⟨hne,hsub,hdis,hone⟩,hapart,hin⟩ := h
  refine ⟨⟨?_,?_,?_,?_⟩,?_,hcopy.trans hin⟩
  · intro k hk
    rw [hplaces k (hlen ▸ hk)]
    exact hne k (hlen ▸ hk)
  · intro k hk
    rw [hplaces k (hlen ▸ hk)]
    exact hsub k (hlen ▸ hk)
  · intro j k hjk hk
    rw [hplaces k (hlen ▸ hk),hplaces j (hjk.trans (hlen ▸ hk))]
    exact hdis j k hjk (hlen ▸ hk)
  · intro h1 k hk
    rw [hplaces k (hlen ▸ hk)]
    exact hone h1 k (hlen ▸ hk)
  · intro k hk
    rw [hplaces k (hlen ▸ hk)]
    exact Finset.disjoint_of_subset_right hcopy (hapart k (hlen ▸ hk))

/-- The open place is reported once it has a CPU. -/
theorem Opened.close (h : Opened m level s) (ho : Opening m s) (hne : (s.places s.len).Nonempty)
    (hone : level = 1 → (s.places s.len).card = 1) : Opened m level { s with len := s.len + 1 } := by
  refine ⟨⟨?_,?_,?_,?_⟩,?_,h.copy⟩
  · intro k hk
    rcases Nat.lt_succ_iff_lt_or_eq.1 hk with hk | rfl
    · exact h.reported.nonempty k hk
    · exact hne
  · intro k hk
    rcases Nat.lt_succ_iff_lt_or_eq.1 hk with hk | rfl
    · exact h.reported.subset k hk
    · exact ho.subset
  · intro j k hjk hk
    rcases Nat.lt_succ_iff_lt_or_eq.1 hk with hk | rfl
    · exact h.reported.disjoint j k hjk hk
    · exact ho.disjoint j hjk
  · intro h1 k hk
    rcases Nat.lt_succ_iff_lt_or_eq.1 hk with hk | rfl
    · exact h.reported.single h1 k hk
    · exact hone h1
  · intro k hk
    rcases Nat.lt_succ_iff_lt_or_eq.1 hk with hk | rfl
    · exact h.apart k hk
    · exact ho.apart

/-- A place that has been emptied is open. -/
theorem opening_empty (hempty : s.places s.len = ∅) : Opening m s := by
  refine ⟨?_,fun k _ => ?_,?_⟩ <;> simp [hempty]

/-- A CPU goes from the copy to the open place. -/
def State.move (s : State) (first : ℕ) : State :=
  { s with
    copy := s.copy.erase first
    places := Function.update s.places s.len (insert first (s.places s.len)) }

@[simp] theorem State.move_len (s : State) (first : ℕ) : (s.move first).len = s.len := rfl
@[simp] theorem State.move_used (s : State) (first : ℕ) : (s.move first).used = s.used := rfl
@[simp] theorem State.move_copy (s : State) (first : ℕ) : (s.move first).copy = s.copy.erase first := rfl
@[simp] theorem State.move_places (s : State) (first : ℕ) :
    (s.move first).places s.len = insert first (s.places s.len) := Function.update_self ..

theorem State.move_places_of_lt {k : ℕ} (hk : k < s.len) (first : ℕ) : (s.move first).places k = s.places k :=
  Function.update_of_ne hk.ne ..

/-- A place is opened for one CPU. -/
def State.single (s : State) (first : ℕ) : State :=
  ⟨s.copy.erase first,Function.update s.places s.len {first},s.len + 1,s.len :: s.used⟩

@[simp] theorem State.single_len (s : State) (first : ℕ) : (s.single first).len = s.len + 1 := rfl
@[simp] theorem State.single_used (s : State) (first : ℕ) : (s.single first).used = s.len :: s.used := rfl
@[simp] theorem State.single_copy (s : State) (first : ℕ) : (s.single first).copy = s.copy.erase first := rfl

theorem Opened.move (h : Opened m level s) : Opened m level (s.move first) :=
  h.congr rfl (fun _ hk => State.move_places_of_lt hk first) (Finset.erase_subset ..)

theorem Opening.move (h : Opened m level s) (ho : Opening m s) (hfirst : first ∈ s.copy) :
    Opening m (s.move first) := by
  refine ⟨?_,?_,?_⟩
  · rw [State.move_len,State.move_places]
    exact Finset.insert_subset (h.copy hfirst) ho.subset
  · intro k hk
    have hlt : k < s.len := hk
    rw [State.move_len,State.move_places,State.move_places_of_lt hlt]
    refine Finset.disjoint_insert_right.2 ⟨?_,ho.disjoint k hk⟩
    exact fun hin => Finset.disjoint_left.1 (h.apart k hk) hin hfirst
  · rw [State.move_len,State.move_places,State.move_copy]
    refine Finset.disjoint_insert_left.2 ⟨Finset.notMem_erase _ _,?_⟩
    exact Finset.disjoint_of_subset_right (Finset.erase_subset ..) ho.apart

theorem addCpus_one (h : s.copy ⊆ m.cpus) (hfirst : first ∈ s.copy) (p : Finset ℕ) :
    affinityAddCpus m.max 0 0 first p = (true,insert first p) := by
  have hlt : ¬ m.max ≤ first := Nat.not_le.2 (m.inSet first (h hfirst))
  simp [affinityAddCpus,hlt]

/-- A CPU is added to the place of a core or a socket. -/
theorem openCpu_member (h : s.copy ⊆ m.cpus) (hfirst : first ∈ s.copy) (hlevel : level ≠ 1)
    (hthis : level = thisLevel) : openCpu m level thisLevel inner (s,s.len) first = (s.move first,s.len) := by
  have hin : ¬ (thisLevel = 3 ∧ level < thisLevel) := by omega
  simp only [openCpu,hfirst,not_true,if_false,hin,hlevel,addCpus_one h hfirst,if_true]
  rfl

/-- A place is opened for a thread. -/
theorem openCpu_thread (h : s.copy ⊆ m.cpus) (hfirst : first ∈ s.copy) (pl : ℕ) :
    openCpu m 1 2 inner (s,pl) first = (s.single first,s.len) := by
  have h2 : (s.use.initPlace s.len).copy ⊆ m.cpus := h
  simp only [openCpu,hfirst,not_true,if_false,if_true,addCpus_one h2 hfirst]
  simp [State.single,State.initPlace,State.use]

theorem openCpu_inner (hfirst : first ∈ s.copy) (hlevel : level < 3) (pl : ℕ) :
    openCpu m level 3 inner (s,pl) first = (inner s,pl) := by
  simp [openCpu,hfirst,hlevel]

theorem openCpu_skip (hfirst : first ∉ s.copy) (pl : ℕ) :
    openCpu m level thisLevel inner (s,pl) first = (s,pl) := by
  simp [openCpu,hfirst]

/-- What the loop over a line makes of the open place of a core or a socket. -/
structure Collected (m : Machine) (level : ℕ) (s t : State) : Prop where
  len : t.len = s.len
  used : t.used = s.used
  opened : Opened m level t
  opening : Opening m t
  kept : ∀ i, i ∈ s.copy ∨ i ∈ s.places s.len → i ∈ t.copy ∨ i ∈ t.places t.len

theorem fold_member (hlevel : level ≠ 1) (hthis : level = thisLevel) (cpus : List ℕ) :
    ∀ {s : State}, Opened m level s → Opening m s →
      Collected m level s (cpus.foldl (openCpu m level thisLevel inner) (s,s.len)).1 := by
  induction cpus with
  | nil => exact fun h ho => ⟨rfl,rfl,h,ho,fun _ hi => hi⟩
  | cons c cpus ih =>
    intro s h ho
    rw [List.foldl_cons]
    by_cases hc : c ∈ s.copy
    · rw [openCpu_member h.copy hc hlevel hthis]
      obtain ⟨hlen,hused,hopened,hopening,hkept⟩ := @ih (s.move c) h.move (ho.move h hc)
      refine ⟨hlen,hused,hopened,hopening,fun i hi => hkept i ?_⟩
      rw [State.move_len,State.move_places,State.move_copy,Finset.mem_erase,Finset.mem_insert]
      tauto
    · rw [openCpu_skip hc]
      exact ih h ho

theorem scan_keeps {P : State → Prop} {count : ℕ} {body : ℕ → State → State}
    (hbody : ∀ i s, s.len < count → P s → P (body i s)) (is : List ℕ) :
    ∀ {s : State}, P s → P (scan count body is s) := by
  induction is with
  | nil => exact fun h => h
  | cons i is ih =>
    intro s h
    simp only [scan]
    split
    · exact ih (hbody i s ‹_› h)
    · exact h

theorem fold_inner {P : State → Prop} (hlevel : level < 3) (hinner : ∀ s, P s → P (inner s)) (cpus : List ℕ) (pl : ℕ) :
    ∀ {s : State}, P s → P (cpus.foldl (openCpu m level 3 inner) (s,pl)).1 := by
  induction cpus with
  | nil => exact fun h => h
  | cons c cpus ih =>
    intro s h
    rw [List.foldl_cons]
    by_cases hc : c ∈ s.copy
    · rw [openCpu_inner hc hlevel]
      exact ih (hinner s h)
    · rw [openCpu_skip hc]
      exact ih h

/-- What the loop over a line does at the level of the threads: each CPU that is left gets a place. -/
structure Spread (m : Machine) (cpus : List ℕ) (s t : State) : Prop where
  len : t.len = s.len + (s.copy ∩ cpus.toFinset).card
  used : ∀ k, k ∈ t.used ↔ k ∈ s.used ∨ s.len ≤ k ∧ k < t.len
  copy : t.copy = s.copy \ cpus.toFinset
  opened : Opened m 1 t

theorem Opened.single (h : Opened m 1 s) (hfirst : first ∈ s.copy) : Opened m 1 (s.single first) := by
  set e : State := ⟨s.copy,Function.update s.places s.len ∅,s.len,s.len :: s.used⟩ with he
  have hbase : Opened m 1 e := h.congr rfl (fun k hk => Function.update_of_ne hk.ne ..) subset_rfl
  have hempty : e.places e.len = ∅ := Function.update_self ..
  have hone : (e.move first).places e.len = {first} := by
    rw [State.move_places,hempty]
    rfl
  have hsingle : s.single first = { e.move first with len := e.len + 1 } := by
    simp [State.single,State.move,he]
  rw [hsingle]
  refine Opened.close hbase.move ((opening_empty hempty).move hbase hfirst) ?_ fun _ => ?_
  · rw [State.move_len,hone]
    exact Finset.singleton_nonempty first
  · rw [State.move_len,hone]
    exact Finset.card_singleton first

theorem fold_thread (cpus : List ℕ) : ∀ {s : State} (pl : ℕ), Opened m 1 s →
    Spread m cpus s (cpus.foldl (openCpu m 1 2 inner) (s,pl)).1 := by
  induction cpus with
  | nil => exact fun pl h => ⟨by simp,fun k => by simp,by simp,h⟩
  | cons c cpus ih =>
    intro s pl h
    rw [List.foldl_cons]
    by_cases hc : c ∈ s.copy
    · rw [openCpu_thread h.copy hc]
      obtain ⟨hlen,hused,hcopy,hopened⟩ := ih s.len (h.single hc)
      have hmem : c ∈ s.copy ∩ (c :: cpus).toFinset := by simp [hc]
      have hrest : (s.single c).len + ((s.single c).copy ∩ cpus.toFinset).card =
          s.len + (s.copy ∩ (c :: cpus).toFinset).card := by
        have hinsert : s.copy ∩ (c :: cpus).toFinset = insert c (s.copy.erase c ∩ cpus.toFinset) := by
          rw [List.toFinset_cons,Finset.insert_inter_distrib,Finset.insert_erase hc]
        rw [hinsert,Finset.card_insert_of_notMem (by simp),State.single_len,State.single_copy]
        omega
      refine ⟨?_,?_,?_,hopened⟩
      · rw [hlen,hrest]
      · intro k
        have hle : s.len + 1 ≤ (cpus.foldl (openCpu m 1 2 inner) (s.single c,s.len)).1.len :=
          hlen ▸ Nat.le_add_right ..
        rw [hused,State.single_used,State.single_len,List.mem_cons]
        constructor
        · rintro ((rfl | hin) | ⟨hge,hlt⟩)
          · exact Or.inr ⟨le_rfl,hle⟩
          · exact Or.inl hin
          · exact Or.inr ⟨Nat.le_of_succ_le hge,hlt⟩
        · rintro (hin | ⟨hge,hlt⟩)
          · exact Or.inl (Or.inr hin)
          · rcases hge.eq_or_lt with rfl | hgt
            · exact Or.inl (Or.inl rfl)
            · exact Or.inr ⟨hgt,hlt⟩
      · rw [hcopy,State.single_copy,List.toFinset_cons]
        ext x
        simp only [Finset.mem_sdiff,Finset.mem_erase,Finset.mem_insert]
        tauto
    · rw [openCpu_skip hc]
      obtain ⟨hlen,hused,hcopy,hopened⟩ := ih pl h
      have hsame : s.copy ∩ (c :: cpus).toFinset = s.copy ∩ cpus.toFinset := by
        rw [List.toFinset_cons,Finset.inter_insert_of_notMem hc]
      refine ⟨hsame ▸ hlen,hused,?_,hopened⟩
      rw [hcopy,List.toFinset_cons,Finset.sdiff_insert_of_notMem hc]

theorem visit_skip {i : ℕ} (hi : i ∉ s.copy) : visit m level thisLevel inner i s = s := if_pos hi

theorem visit_missing {i : ℕ} (hi : i ∈ s.copy) (hl : m.siblingsList thisLevel i = none) :
    visit m level thisLevel inner i s = { s with copy := s.copy.erase i } := by
  simp [visit,hi,hl]

theorem Opened.erase (h : Opened m level s) (i : ℕ) : Opened m level { s with copy := s.copy.erase i } :=
  h.congr rfl (fun _ _ => rfl) (Finset.erase_subset ..)

/-- The places are well formed and the slots are there. -/
structure Kept (m : Machine) (level count : ℕ) (s : State) : Prop where
  opened : Opened m level s
  within : s.Within count

variable {count : ℕ}

theorem State.Within.use (h : s.Within count) (hlt : s.len < count) : s.use.Within count := by
  refine ⟨h.len,fun k hk => ?_⟩
  rcases List.mem_cons.1 hk with rfl | hk
  · exact hlt
  · exact h.used k hk

/-- A place is opened for a core or a socket. -/
theorem visit_member (hlevel : level ≠ 1) (hthis : level = thisLevel) (i : ℕ) (hlt : s.len < count)
    (h : Kept m level count s) : Kept m level count (visit m level thisLevel inner i s) := by
  by_cases hi : i ∈ s.copy
  · rcases hl : m.siblingsList thisLevel i with _ | l
    · rw [visit_missing hi hl]
      exact ⟨h.opened.erase i,h.within.len,h.within.used⟩
    · set e := s.use.initPlace s.len with he
      have hbase : Opened m level e := h.opened.congr rfl (fun k hk => Function.update_of_ne hk.ne ..) subset_rfl
      have hopening : Opening m e := opening_empty (Function.update_self ..)
      obtain ⟨hlen,hused,hopened,hopen,hkept⟩ :=
        @fold_member m level thisLevel inner hlevel hthis l.cpus e hbase hopening
      set t := (l.cpus.foldl (openCpu m level thisLevel inner) (e,e.len)).1 with ht
      have hwithin : e.Within count := ⟨h.within.len,(h.within.use hlt).used⟩
      have hvisit : visit m level thisLevel inner i s =
          { t with copy := t.copy.erase i, len := if i ∉ t.copy then t.len + 1 else t.len } := by
        simp only [visit,hi,not_true,if_false,hl,hthis,if_true,true_and]
        subst hthis
        rfl
      have htlen : t.len = s.len := hlen
      rw [hvisit]
      by_cases hin : i ∈ t.copy
      · rw [if_neg (not_not.2 hin)]
        exact ⟨hopened.erase i,hlen ▸ hwithin.len,hused ▸ hwithin.used⟩
      · rw [if_pos hin]
        have hplace : i ∈ t.places t.len := (hkept i (Or.inl hi)).resolve_left hin
        have hclose := hopened.close hopen ⟨i,hplace⟩ fun h1 => absurd h1 hlevel
        exact ⟨hclose.erase i,htlen ▸ hlt,hused ▸ hwithin.used⟩
  · rw [visit_skip hi]
    exact h

/-- The lists of the cores are read inside of those of the sockets. -/
theorem visit_inner {P : State → Prop} (hlevel : level < 3) (hinner : ∀ s, P s → P (inner s))
    (huse : s.len < count → P s → P s.use) (herase : ∀ i s, P s → P { s with copy := s.copy.erase i }) (i : ℕ)
    (hlt : s.len < count) (h : P s) : P (visit m level 3 inner i s) := by
  by_cases hi : i ∈ s.copy
  · rcases hl : m.siblingsList 3 i with _ | l
    · rw [visit_missing hi hl]
      exact herase i s h
    · have hne : level ≠ 3 := hlevel.ne
      have hfold := @fold_inner m level inner P hlevel hinner l.cpus s.len s.use (huse hlt h)
      simp only [visit,hi,not_true,if_false,hl,hne,false_and]
      exact herase i _ hfold
  · rw [visit_skip hi]
    exact h

/-- What the loop at the level of the threads does for a CPU that has a list. -/
theorem visit_thread {i : ℕ} {l : SiblingsList} (h : Opened m 1 s) (hi : i ∈ s.copy) (hl : m.thread i = some l) :
    ∃ t, Spread m l.cpus s.use t ∧ visit m 1 2 inner i s = { t with copy := t.copy.erase i } := by
  have hbase : Opened m 1 s.use := h.congr rfl (fun _ _ => rfl) subset_rfl
  refine ⟨_,@fold_thread m inner l.cpus s.use s.len hbase,?_⟩
  have hl2 : m.siblingsList 2 i = some l := hl
  simp [visit,hi,hl2]

theorem visit_thread_opened (i : ℕ) (h : Opened m 1 s) : Opened m 1 (visit m 1 2 inner i s) := by
  by_cases hi : i ∈ s.copy
  · rcases hl : m.thread i with _ | l
    · rw [visit_missing hi (show m.siblingsList 2 i = none from hl)]
      exact h.erase i
    · obtain ⟨t,ht,hvisit⟩ := @visit_thread m s inner i l h hi hl
      rw [hvisit]
      exact ht.opened.erase i
  · rw [visit_skip hi]
    exact h

/-- The slots that have been used stay used, and the CPUs that are gone stay gone. -/
theorem visit_thread_mono (i : ℕ) (h : Opened m 1 s) :
    s.used ⊆ (visit m 1 2 inner i s).used ∧ (visit m 1 2 inner i s).copy ⊆ s.copy ∧ i ∉ (visit m 1 2 inner i s).copy := by
  by_cases hi : i ∈ s.copy
  · rcases hl : m.thread i with _ | l
    · rw [visit_missing hi (show m.siblingsList 2 i = none from hl)]
      exact ⟨List.Subset.refl _,Finset.erase_subset ..,Finset.notMem_erase _ _⟩
    · obtain ⟨t,ht,hvisit⟩ := @visit_thread m s inner i l h hi hl
      rw [hvisit]
      refine ⟨fun k hk => (ht.used k).2 (Or.inl (List.mem_cons_of_mem _ hk)),?_,Finset.notMem_erase _ _⟩
      refine (Finset.erase_subset ..).trans ?_
      rw [ht.copy]
      exact Finset.sdiff_subset
  · rw [visit_skip hi]
    exact ⟨List.Subset.refl _,subset_rfl,hi⟩

@[simp] theorem endsAt_nil (count : ℕ) : EndsAt count [] := fun k h => by simp

@[simp] theorem endsAt_zero (sizes : List ℕ) : EndsAt 0 sizes := fun _ h => absurd h (Nat.not_lt_zero _)

theorem endsAt_cons (hpos : 0 < count) (n : ℕ) (sizes : List ℕ) :
    EndsAt count (n :: sizes) ↔ n ≤ count ∧ EndsAt (count - n) sizes := by
  constructor
  · intro h
    refine ⟨by simpa using h 0 (by simpa using hpos),fun k hk => ?_⟩
    have hnext := h (k + 1)
    simp only [List.take_succ_cons,List.sum_cons] at hnext
    have := hnext (by omega)
    omega
  · rintro ⟨hn,h⟩ k hk
    rcases k with _ | k
    · simpa using hn
    · have hnext := h k
      simp only [List.take_succ_cons,List.sum_cons] at hk ⊢
      have := hnext (by omega)
      omega

theorem scan_full {body : ℕ → State → State} (h : count ≤ s.len) (is : List ℕ) : scan count body is s = s := by
  rcases is with _ | ⟨i,is⟩
  · rfl
  · exact if_neg (Nat.not_lt.2 h)

theorem scan_empty (h : s.copy = ∅) (is : List ℕ) : scan count (visit m level thisLevel inner) is s = s := by
  induction is with
  | nil => rfl
  | cons i is ih =>
    rw [scan,visit_skip (by simp [h]),ih]
    exact ite_self s

/-- The slots are there exactly when they are used up at the end of a group. -/
theorem scan_thread_within (is : List ℕ) : ∀ {s : State}, Kept m 1 count s →
    ((scan count (visit m 1 2 inner) is s).Within count ↔ EndsAt (count - s.len) (groupSizes m is s.copy)) := by
  induction is with
  | nil => exact fun h => ⟨fun _ => endsAt_nil _,fun _ => h.within⟩
  | cons i is ih =>
    intro s h
    by_cases hlt : s.len < count
    · rw [scan,if_pos hlt,groupSizes]
      by_cases hi : i ∈ s.copy
      · rw [if_neg (not_not.2 hi)]
        rcases hl : m.thread i with _ | l
        · rw [visit_missing hi (show m.siblingsList 2 i = none from hl)]
          exact ih ⟨h.opened.erase i,h.within.len,h.within.used⟩
        · obtain ⟨t,ht,hvisit⟩ := @visit_thread m s inner i l h.opened hi hl
          have htlen : t.len = s.len + (s.copy ∩ l.cpus.toFinset).card := ht.len
          have htcopy : t.copy = s.copy \ l.cpus.toFinset := ht.copy
          simp only
          rw [hvisit,endsAt_cons (by omega)]
          by_cases hle : t.len ≤ count
          · have hkept : Kept m 1 count { t with copy := t.copy.erase i } := by
              refine ⟨ht.opened.erase i,hle,fun k hk => ?_⟩
              rcases (ht.used k).1 hk with hk | ⟨_,hk⟩
              · exact (h.within.use hlt).used k hk
              · exact hk.trans_le hle
            rw [ih hkept,← htcopy,show count - s.len - (s.copy ∩ l.cpus.toFinset).card = count - t.len by omega]
            exact ⟨fun hends => ⟨by omega,hends⟩,And.right⟩
          · -- the group goes on past the last slot
            have hused : count ∈ t.used := (ht.used count).2 (Or.inr ⟨h.within.len,Nat.lt_of_not_le hle⟩)
            refine ⟨fun hwithin => absurd (hwithin.used count ?_) (lt_irrefl _),fun hends => absurd hends.1 (by omega)⟩
            have hrun : Opened m 1 { t with copy := t.copy.erase i } ∧ count ∈ t.used := ⟨ht.opened.erase i,hused⟩
            refine (@scan_keeps (fun u => Opened m 1 u ∧ count ∈ u.used) count _ (fun j u _ hu => ?_) is _ hrun).2
            exact ⟨visit_thread_opened j hu.1,(visit_thread_mono j hu.1).1 hu.2⟩
      · rw [if_pos hi,visit_skip hi]
        exact ih h
    · rw [scan_full (Nat.le_of_not_lt hlt),show count - s.len = 0 by omega]
      exact ⟨fun _ => endsAt_zero _,fun _ => h.within⟩

/-- The list is full, or no CPU is left. -/
def Done (count : ℕ) (s : State) : Prop := count ≤ s.len ∨ s.copy = ∅

theorem scan_thread_done (is : List ℕ) : ∀ {s : State}, Opened m 1 s →
    count ≤ (scan count (visit m 1 2 inner) is s).len ∨
      ∀ i ∈ is, i ∉ (scan count (visit m 1 2 inner) is s).copy := by
  induction is with
  | nil => exact fun _ => Or.inr fun _ h => absurd h List.not_mem_nil
  | cons i is ih =>
    intro s h
    by_cases hlt : s.len < count
    · rw [scan,if_pos hlt]
      have hnext := @visit_thread_opened m s inner i h
      refine (ih hnext).imp_right fun hrest j hj => ?_
      rcases List.mem_cons.1 hj with rfl | hj
      · have hrun : Opened m 1 (visit m 1 2 inner j s) ∧ j ∉ (visit m 1 2 inner j s).copy :=
          ⟨hnext,(visit_thread_mono j h).2.2⟩
        refine (@scan_keeps (fun u => Opened m 1 u ∧ j ∉ u.copy) count _ (fun k u _ hu => ?_) is _ hrun).2
        exact ⟨visit_thread_opened k hu.1,fun hin => hu.2 ((visit_thread_mono k hu.1).2.1 hin)⟩
      · exact hrest j hj
    · exact Or.inl (by rw [scan_full (Nat.le_of_not_lt hlt)]; exact Nat.le_of_not_lt hlt)

theorem initThreads_opened (h : Opened m 1 s) : Opened m 1 (initThreads m 1 count s) :=
  scan_keeps (fun i _ _ h => visit_thread_opened i h) _ h

theorem initThreads_done (h : Opened m 1 s) : Done count (initThreads m 1 count s) := by
  have hopened := @initThreads_opened m s count h
  refine (@scan_thread_done m id count (List.range m.max) s h).imp_right fun hnone => ?_
  refine Finset.eq_empty_of_forall_notMem fun i hi => hnone i (List.mem_range.2 ?_) hi
  exact m.inSet i (hopened.copy hi)

theorem initThreads_of_done (h : Done count s) : initThreads m 1 count s = s := by
  rcases h with hfull | hempty
  · exact scan_full hfull _
  · exact scan_empty hempty _

theorem fold_done (h : Done count s) (cpus : List ℕ) (pl : ℕ) :
    cpus.foldl (openCpu m 1 3 (initThreads m 1 count)) (s,pl) = (s,pl) := by
  induction cpus with
  | nil => rfl
  | cons c cpus ih =>
    by_cases hc : c ∈ s.copy
    · rw [List.foldl_cons,openCpu_inner hc (by decide),initThreads_of_done h,ih]
    · rw [List.foldl_cons,openCpu_skip hc,ih]

/-- The lists of the threads are read once a CPU that is left turns up in a list of a socket. -/
theorem fold_started (h : Opened m 1 s) (pl : ℕ) : ∀ cpus : List ℕ,
    (cpus.foldl (openCpu m 1 3 (initThreads m 1 count)) (s,pl)).1 =
      if Disjoint cpus.toFinset s.copy then s else initThreads m 1 count s := by
  intro cpus
  induction cpus with
  | nil => simp
  | cons c cpus ih =>
    rw [List.foldl_cons]
    by_cases hc : c ∈ s.copy
    · have hmeet : ¬ Disjoint (c :: cpus).toFinset s.copy := by simp [hc]
      rw [openCpu_inner hc (by decide),fold_done (initThreads_done h),if_neg hmeet]
    · rw [openCpu_skip hc,ih]
      simp [hc]

theorem scan_of_done (h : Done count s) (is : List ℕ) :
    scan count (visit m 1 3 (initThreads m 1 count)) is s = s := by
  rcases h with hfull | hempty
  · exact scan_full hfull _
  · exact scan_empty hempty _

theorem groupSizes_empty (is : List ℕ) : groupSizes m is ∅ = [] := by
  induction is with
  | nil => rfl
  | cons i is ih => rw [groupSizes,if_pos (Finset.notMem_empty i),ih]

theorem scan_core_within (is : List ℕ) : ∀ {s : State}, Kept m 1 count s → s.len = 0 →
    ((scan count (visit m 1 3 (initThreads m 1 count)) is s).Within count ↔
      EndsAt count (groupSizes m (List.range m.max) (threadsLeft m is s.copy))) := by
  induction is with
  | nil =>
    intro s h _
    rw [threadsLeft,groupSizes_empty]
    exact ⟨fun _ => endsAt_nil _,fun _ => h.within⟩
  | cons i is ih =>
    intro s h hzero
    by_cases hlt : s.len < count
    · rw [scan,if_pos hlt,threadsLeft]
      by_cases hi : i ∈ s.copy
      · rw [if_neg (not_not.2 hi)]
        have herased : Kept m 1 count { s with copy := s.copy.erase i } :=
          ⟨h.opened.erase i,h.within.len,h.within.used⟩
        rcases hl : m.core i with _ | l
        · rw [visit_missing hi (show m.siblingsList 3 i = none from hl)]
          exact ih herased hzero
        · have hl3 : m.siblingsList 3 i = some l := hl
          have huse : Opened m 1 s.use := h.opened.congr rfl (fun _ _ => rfl) subset_rfl
          have hfold := @fold_started m s.use count huse s.len l.cpus
          have hvisit : visit m 1 3 (initThreads m 1 count) i s =
              { (l.cpus.foldl (openCpu m 1 3 (initThreads m 1 count)) (s.use,s.len)).1 with
                copy := (l.cpus.foldl (openCpu m 1 3 (initThreads m 1 count)) (s.use,s.len)).1.copy.erase i } := by
            simp [visit,hi,hl3]
          rw [hvisit,hfold]
          simp only
          rw [show s.use.copy = s.copy from rfl]
          by_cases hdis : Disjoint l.cpus.toFinset s.copy
          · simp only [if_pos hdis]
            exact ih ⟨huse.erase i,h.within.len,(h.within.use hlt).used⟩ hzero
          · simp only [if_neg hdis]
            have hthreads := @scan_thread_within m id count (List.range m.max) s.use ⟨huse,h.within.use hlt⟩
            rw [show count - s.use.len = count by rw [show s.use.len = s.len from rfl,hzero]; rfl] at hthreads
            have hdone := @initThreads_done m s.use count huse
            set t := initThreads m 1 count s.use with ht
            have hrest : Done count { t with copy := t.copy.erase i } := by
              refine hdone.imp_right fun hempty => ?_
              simp [hempty]
            rw [scan_of_done hrest]
            refine Iff.trans ⟨fun hw => ⟨hw.len,hw.used⟩,fun hw => ⟨hw.len,hw.used⟩⟩ hthreads
      · rw [if_pos hi,visit_skip hi]
        exact ih h hzero
    · have hcount : count = 0 := by omega
      rw [scan_full (Nat.le_of_not_lt hlt),hcount]
      exact ⟨fun _ => endsAt_zero _,fun _ => hcount ▸ h.within⟩

theorem initCores_opened (h : Opened m 1 s) : Opened m 1 (initCores m 1 count s) := by
  refine scan_keeps (fun i s hlt h => ?_) _ h
  exact @visit_inner m 1 s _ count (Opened m 1) (by decide) (fun s h => initThreads_opened h)
    (fun _ h => h.congr rfl (fun _ _ => rfl) subset_rfl) (fun i s h => h.erase i) i hlt h

theorem initCores_kept (level : Level) (hlevel : level ≠ .threads) (h : Kept m level.toNat count s) :
    Kept m level.toNat count (initCores m level.toNat count s) := by
  have hone : level.toNat ≠ 1 := by cases level <;> simp_all [Level.toNat]
  have hthreads : level.toNat ≠ 3 → ∀ s, Kept m level.toNat count s →
      Kept m level.toNat count (initThreads m level.toNat count s) := by
    intro hcores s h
    have htwo : level.toNat = 2 := by cases level <;> simp_all [Level.toNat]
    exact scan_keeps (fun i _ hlt h => visit_member hone htwo i hlt h) _ h
  refine scan_keeps (fun i s hlt h => ?_) _ h
  by_cases hcores : level.toNat = 3
  · exact visit_member hone hcores i hlt h
  · refine @visit_inner m level.toNat s _ count (Kept m level.toNat count) (by cases level <;> simp_all [Level.toNat])
      (hthreads hcores) (fun hlt h => ⟨h.opened.congr rfl (fun _ _ => rfl) subset_rfl,h.within.use hlt⟩)
      (fun i s h => ⟨h.opened.erase i,h.within.len,h.within.used⟩) i hlt h

end Reports

/-- The slots that are used are there, and the places that are reported are non-empty, apart from each other and
inside the set of the process. -/
structure Result.Sound (m : Machine) (level : Level) (count : ℕ) (r : Result) : Prop where
  used : ∀ k ∈ r.used, k < m.allotted count
  len : r.len ≤ m.allotted count
  reported : ∀ places ∈ r.places, Reported m level.toNat places r.len

/-- Places for cores and sockets fit whatever the machine is like; those for threads fit when the slots are used up
at the end of a group of threads, if at all. -/
theorem initLevel_sound_iff (m : Machine) (level : Level) (count : ℕ) (room : Option (ℕ → Finset ℕ)) :
    (initLevel m level count room).Sound m level count ↔
      (level = .threads → room.isSome →
        EndsAt (m.allotted count) (groupSizes m (List.range m.max) (threadsLeft m (List.range m.max) m.cpus))) := by
  rcases room with _ | places
  · refine ⟨fun _ _ h => absurd h (by simp),fun _ => ⟨fun k hk => ?_,Nat.zero_le _,fun p hp => ?_⟩⟩
    · exact absurd hk List.not_mem_nil
    · exact absurd hp (by simp [initLevel])
  · set s : State := ⟨m.cpus,places,0,[]⟩ with hs
    have hstart : Kept m level.toNat (m.allotted count) s := by
      refine ⟨⟨⟨?_,?_,?_,?_⟩,?_,subset_rfl⟩,Nat.zero_le _,fun k hk => absurd hk List.not_mem_nil⟩ <;> simp [hs]
    set t := initCores m level.toNat (m.allotted count) s with ht
    have hopened : Opened m level.toNat t := by
      by_cases hlevel : level = .threads
      · subst hlevel
        exact initCores_opened hstart.opened
      · exact (initCores_kept level hlevel hstart).opened
    have hsound : (initLevel m level count (some places)).Sound m level count ↔ t.Within (m.allotted count) := by
      simp only [initLevel,← hs,← ht]
      by_cases hzero : t.len = 0
      · rw [if_pos hzero]
        exact ⟨fun h => ⟨hzero ▸ Nat.zero_le _,h.used⟩,fun h => ⟨h.used,Nat.zero_le _,by simp⟩⟩
      · rw [if_neg hzero]
        refine ⟨fun h => ⟨h.len,h.used⟩,fun h => ⟨h.used,h.len,fun p hp => ?_⟩⟩
        rw [← Option.some.inj (Option.mem_def.1 hp)]
        exact hopened.reported
    rw [hsound]
    by_cases hlevel : level = .threads
    · subst hlevel
      have hcores := scan_core_within (List.range m.max) hstart rfl
      exact ⟨fun h _ _ => hcores.1 h,fun h => hcores.2 (h rfl rfl)⟩
    · exact ⟨fun _ h => absurd h hlevel,fun _ => (initCores_kept level hlevel hstart).within⟩

/-- Two threads that share a core. -/
def pairLine : SiblingsList := ⟨['0','-','1','\n'],[(0,1)],by decide,by decide⟩

def pairMachine : Machine where
  cpusetSize := 1
  cpus := {0,1}
  inSet := by decide
  core := fun _ => some pairLine
  thread := fun _ => some pairLine

/-- A request for one thread opens the place of the other one behind the list. -/
theorem initLevel_overrun :
    ¬ (initLevel pairMachine .threads 1 (some fun _ => ∅)).Sound pairMachine .threads 1 ∧
      1 ∈ (initLevel pairMachine .threads 1 (some fun _ => ∅)).used ∧ pairMachine.allotted 1 = 1 ∧
      (initLevel pairMachine .threads 1 (some fun _ => ∅)).len = 2 :=
  ⟨fun h => absurd (h.used 1 (by decide)) (by decide),by decide,by decide,by decide⟩

end GompUlt.TopologyPlaces
