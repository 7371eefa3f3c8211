import GompUlt.Env.TopologyPlaces
import Mathlib

/-! # OMP_PLACES given as a list

The value is read twice.  The first pass runs before there is a list and counts the slots that will be needed; the
second one makes the places, copies them with a stride and removes those that are negated.
-/
namespace GompUlt.PlaceList
open CpuAffinity TopologyPlaces

/-- What `strtol` returns, whether it sets errno, and where it stops. -/
structure SignedNumber where
  value : ℤ
  erange : Bool
  rest : List Char

/-- `strtol (env, &end, 10)`. -/
def strtolTen (env : List Char) : SignedNumber :=
  let sign := readSign (skipSpace env)
  let n := readDigits 10 0 sign.2
  if n.2 = sign.2 then ⟨0,false,env⟩
  else if sign.1 then
    if 2 ^ 63 < n.1 then ⟨-2 ^ 63,true,n.2⟩ else ⟨-n.1,false,n.2⟩
  else
    if 2 ^ 63 ≤ n.1 then ⟨2 ^ 63 - 1,true,n.2⟩ else ⟨n.1,false,n.2⟩

/-- The stride after a length. -/
def readStride (len : ℕ) : List Char → Option (ℕ × ℤ × List Char)
  | [] => some (len,1,[])
  | c :: env =>
    if c = ':' then
      let n := strtolTen (skipSpace env)
      if n.erange then none else some (len,n.value,skipSpace n.rest)
    else some (len,1,c :: env)

/-- A length below the limit and a stride, where there are any. -/
def readLen (limit : ℕ) : List Char → Option (ℕ × ℤ × List Char)
  | [] => some (1,1,[])
  | c :: env =>
    if c = ':' then
      let n := strtoulTen (skipSpace env)
      if n.erange ∨ n.value = 0 ∨ limit ≤ n.value then none else readStride n.value (skipSpace n.rest)
    else some (1,1,c :: env)

/-- The variables this_negate, this_num, this_len and this_stride. -/
structure Cpus where
  negate : Bool
  num : ℕ
  len : ℕ
  stride : ℤ
deriving DecidableEq, Repr

/-- A sign of negation, with the space after it. -/
def readNegate : List Char → Bool × List Char
  | [] => (false,[])
  | c :: env => if c = '!' then (true,skipSpace env) else (false,c :: env)

/-- A round of the loop between the braces, up to the character that ends it.  A `strtoul` value is below any
limit that a length has here. -/
def readCpus (env : List Char) : Option (Cpus × List Char) :=
  let sign := readNegate env
  let n := strtoulTen sign.2
  if n.erange then none
  else
    match readLen (2 ^ 64) (skipSpace n.rest) with
    | none => none
    | some (len,stride,rest) => if sign.1 ∧ len ≠ 1 then none else some (⟨sign.1,n.value,len,stride⟩,rest)

/-- The negation of a place and where its loop starts. -/
def readOpen (env : List Char) : Option (Bool × List Char) :=
  let sign := readNegate (skipSpace env)
  match sign.2 with
  | [] => none
  | c :: env => if c = '{' then some (sign.1,skipSpace env) else none

/-- `gomp_places_list`, each entry by the allocated place it points to, the sets that these hold,
`gomp_places_list_len`, and the indices that have been used. -/
structure Slots where
  list : List ℕ
  sets : ℕ → Finset ℕ
  len : ℕ
  used : List ℕ

def Slots.entry (s : Slots) (k : ℕ) : ℕ := s.list.getD k 0

def Slots.use (s : Slots) (k : ℕ) : Slots := { s with used := k :: s.used }

def Slots.setPlace (s : Slots) (p : ℕ) (cpus : Finset ℕ) : Slots := { s with sets := Function.update s.sets p cpus }

/-- `gomp_affinity_remove_cpu`. -/
def affinityRemoveCpu (max num : ℕ) (p : Finset ℕ) : Bool × Finset ℕ :=
  if max ≤ num then (false,p) else if num ∉ p then (false,p) else (true,p.erase num)

/-- The CPUs of a round are added in the first pass over the braces and removed in the second one. -/
def changePlace (max : ℕ) (pass : Bool) (i : Cpus) : Option (ℕ × Slots) → Bool × Option (ℕ × Slots)
  | none => (true,none)
  | some (p,s) =>
    if pass = i.negate then
      let r := if i.negate then affinityRemoveCpu max i.num (s.sets p)
        else affinityAddCpus max i.stride (i.len - 1) i.num (s.sets p)
      (r.1,some (p,s.setPlace p r.2))
    else (true,some (p,s))

/-- What comes of the loop between the braces; the flag tells that a CPU was negated. -/
inductive Braces (σ : Type*) where
  | invalid (s : σ)
  | closed (s : σ) (negated : Bool) (env : List Char)

section Lengths
variable {env rest : List Char}

theorem strtoulTen_length (env : List Char) : (strtoulTen env).rest.length ≤ env.length := by
  have hspace := skipSpace_length env
  have hsign := readSign_length (skipSpace env)
  have hdigits := readDigits_length 10 0 (readSign (skipSpace env)).2
  simp only [strtoulTen]
  split
  · exact le_rfl
  · split <;> exact hdigits.trans (hsign.trans hspace)

theorem strtolTen_length (env : List Char) : (strtolTen env).rest.length ≤ env.length := by
  have hspace := skipSpace_length env
  have hsign := readSign_length (skipSpace env)
  have hdigits := readDigits_length 10 0 (readSign (skipSpace env)).2
  simp only [strtolTen]
  split
  · exact le_rfl
  · split <;> split <;> exact hdigits.trans (hsign.trans hspace)

theorem readStride_length {len len' : ℕ} {stride : ℤ} (h : readStride len env = some (len',stride,rest)) :
    rest.length ≤ env.length := by
  rcases env with _ | ⟨c,env⟩
  · simp only [readStride,Option.some.injEq,Prod.mk.injEq] at h
    exact h.2.2 ▸ le_rfl
  · have hspace := skipSpace_length env
    have hnumber := strtolTen_length (skipSpace env)
    have hafter := skipSpace_length (strtolTen (skipSpace env)).rest
    simp only [readStride] at h
    split at h
    · split at h
      · exact absurd h (by simp)
      · simp only [Option.some.injEq,Prod.mk.injEq] at h
        rw [← h.2.2,List.length_cons]
        omega
    · simp only [Option.some.injEq,Prod.mk.injEq] at h
      exact h.2.2 ▸ le_rfl

theorem readLen_length {limit len : ℕ} {stride : ℤ} (h : readLen limit env = some (len,stride,rest)) :
    rest.length ≤ env.length := by
  rcases env with _ | ⟨c,env⟩
  · simp only [readLen,Option.some.injEq,Prod.mk.injEq] at h
    exact h.2.2 ▸ le_rfl
  · have hspace := skipSpace_length env
    have hnumber := strtoulTen_length (skipSpace env)
    have hafter := skipSpace_length (strtoulTen (skipSpace env)).rest
    simp only [readLen] at h
    split at h
    · split at h
      · exact absurd h (by simp)
      · have hstride := readStride_length h
        rw [List.length_cons]
        omega
    · simp only [Option.some.injEq,Prod.mk.injEq] at h
      exact h.2.2 ▸ le_rfl

theorem readNegate_length (env : List Char) : (readNegate env).2.length ≤ env.length := by
  rcases env with _ | ⟨c,env⟩
  · exact le_rfl
  · have hspace := skipSpace_length env
    simp only [readNegate]
    split
    · exact hspace.trans (Nat.le_succ _)
    · exact le_rfl

theorem readCpus_length {i : Cpus} (h : readCpus env = some (i,rest)) : rest.length ≤ env.length := by
  have hsign := readNegate_length env
  have hnumber := strtoulTen_length (readNegate env).2
  have hafter := skipSpace_length (strtoulTen (readNegate env).2).rest
  simp only [readCpus] at h
  split at h
  · exact absurd h (by simp)
  · split at h
    · exact absurd h (by simp)
    · rename_i hlen
      have hlen := readLen_length hlen
      split at h
      · exact absurd h (by simp)
      · simp only [Option.some.injEq,Prod.mk.injEq] at h
        rw [← h.2]
        omega

theorem readOpen_length {negate : Bool} (h : readOpen env = some (negate,rest)) : rest.length ≤ env.length := by
  have hspace := skipSpace_length env
  have hsign := readNegate_length (skipSpace env)
  simp only [readOpen] at h
  split at h
  · exact absurd h (by simp)
  · rename_i c cs hcons
    have hafter := skipSpace_length cs
    rw [hcons,List.length_cons] at hsign
    split at h
    · simp only [Option.some.injEq,Prod.mk.injEq] at h
      rw [← h.2]
      omega
    · exact absurd h (by simp)

end Lengths

/-- A round of the loop between the braces by its text: it is not read, ended by no proper character, by the closing
brace, or by a comma. -/
inductive CpusRound where
  | unread
  | unended (i : Cpus)
  | last (i : Cpus) (env : List Char)
  | more (i : Cpus) (env : List Char)

def cpusRound (env : List Char) : CpusRound :=
  match readCpus env with
  | none => .unread
  | some (i,[]) => .unended i
  | some (i,c :: env) => if c = '}' then .last i env else if c = ',' then .more i env else .unended i

/-- What follows a round with a proper end is shorter. -/
theorem cpusRound_shorter {env rest : List Char} {i : Cpus}
    (h : cpusRound env = .last i rest ∨ cpusRound env = .more i rest) : rest.length < env.length := by
  simp only [cpusRound] at h
  split at h
  · simp at h
  · simp at h
  · rename_i c cs hread
    have hlen := readCpus_length hread
    rw [List.length_cons] at hlen
    have hrest : rest.length ≤ cs.length := by
      split at h
      · simp only [CpusRound.last.injEq,reduceCtorEq,or_false] at h
        exact h.2 ▸ le_rfl
      · split at h
        · simp only [CpusRound.more.injEq,reduceCtorEq,false_or] at h
          exact h.2 ▸ le_rfl
        · simp at h
    omega

/-- The loop between the braces. -/
def parseBraces (max : ℕ) (pass : Bool) (negated : Bool) (env : List Char) (s : Option (ℕ × Slots)) :
    Braces (Option (ℕ × Slots)) :=
  match _h : cpusRound env with
  | .unread => .invalid s
  | .unended i => .invalid (changePlace max pass i s).2
  | .last i rest =>
    let r := changePlace max pass i s
    if r.1 then .closed r.2 (negated || i.negate) rest else .invalid r.2
  | .more i rest =>
    let r := changePlace max pass i s
    if r.1 then parseBraces max pass (negated || i.negate) rest r.2 else .invalid r.2
termination_by env.length
decreasing_by exact cpusRound_shorter (.inr _h)

/-- What `parse_one_place` reads. -/
structure Item where
  negate : Bool
  len : ℕ
  stride : ℤ
  env : List Char
deriving DecidableEq, Repr

/-- What `parse_one_place` comes to. -/
structure Parsed where
  places : Option Slots
  item : Option Item

/-- The repetition of a place, after its closing brace. -/
def readItem (negate : Bool) (env : List Char) : Option Item :=
  match readLen 65536 (skipSpace env) with
  | none => none
  | some (len,stride,rest) => if negate ∧ len ≠ 1 then none else some ⟨negate,len,stride,rest⟩

/-- `parse_one_place`.  The braces are gone through again when there is a list and a CPU was negated. -/
def parseOnePlace (max : ℕ) (places : Option Slots) (env : List Char) : Parsed :=
  let p := places.map fun s => (s.entry s.len,s.use s.len)
  match readOpen env with
  | none => ⟨p.map Prod.snd,none⟩
  | some (negate,start) =>
    match parseBraces max false false start p with
    | .invalid q => ⟨q.map Prod.snd,none⟩
    | .closed q negated env =>
      if places.isSome && negated then
        match parseBraces max true false start q with
        | .invalid r => ⟨r.map Prod.snd,none⟩
        | .closed r _ env => ⟨r.map Prod.snd,readItem negate env⟩
      else ⟨q.map Prod.snd,readItem negate env⟩

section Passes
variable {max : ℕ}

/-- What changes of the slots in `parse_one_place`: nothing but the sets. -/
structure SameSlots (s t : Slots) : Prop where
  list : t.list = s.list
  len : t.len = s.len
  used : t.used = s.used

theorem changePlace_slots (pass : Bool) (i : Cpus) (p : ℕ) (s : Slots) :
    ∃ t, (changePlace max pass i (some (p,s))).2 = some (p,t) ∧ SameSlots s t := by
  simp only [changePlace]
  split
  · exact ⟨_,rfl,rfl,rfl,rfl⟩
  · exact ⟨_,rfl,rfl,rfl,rfl⟩

/-- The loop over the braces with a list and without one. -/
structure BracesAgree (s : Slots) (p : ℕ) (listed unlisted : Braces (Option (ℕ × Slots))) : Prop where
  stopped : ∀ q, listed = .invalid q → ∃ t, q = some (p,t) ∧ SameSlots s t
  went : ∀ q n env, listed = .closed q n env →
    (∃ t, q = some (p,t) ∧ SameSlots s t) ∧ unlisted = .closed none n env

theorem SameSlots.trans {s t u : Slots} (h : SameSlots s t) (h' : SameSlots t u) : SameSlots s u :=
  ⟨h'.list.trans h.list,h'.len.trans h.len,h'.used.trans h.used⟩

theorem BracesAgree.of_same {s t : Slots} {p : ℕ} {listed unlisted : Braces (Option (ℕ × Slots))}
    (h : SameSlots s t) (hagree : BracesAgree t p listed unlisted) : BracesAgree s p listed unlisted := by
  refine ⟨fun q hq => ?_,fun q n env hq => ?_⟩
  · obtain ⟨u,hu,hsame⟩ := hagree.stopped q hq
    exact ⟨u,hu,h.trans hsame⟩
  · obtain ⟨⟨u,hu,hsame⟩,hun⟩ := hagree.went q n env hq
    exact ⟨⟨u,hu,h.trans hsame⟩,hun⟩

theorem SameSlots.refl (s : Slots) : SameSlots s s := ⟨rfl,rfl,rfl⟩

section Equations
variable {pass negated : Bool} {env rest : List Char} {i : Cpus} {s : Option (ℕ × Slots)}

theorem parseBraces_unread (h : cpusRound env = .unread) : parseBraces max pass negated env s = .invalid s := by
  rw [parseBraces]
  split <;> simp_all

theorem parseBraces_unended (h : cpusRound env = .unended i) :
    parseBraces max pass negated env s = .invalid (changePlace max pass i s).2 := by
  rw [parseBraces]
  split <;> simp_all

theorem parseBraces_last (h : cpusRound env = .last i rest) :
    parseBraces max pass negated env s =
      if (changePlace max pass i s).1 then .closed (changePlace max pass i s).2 (negated || i.negate) rest
      else .invalid (changePlace max pass i s).2 := by
  rw [parseBraces]
  split <;> simp_all

theorem parseBraces_more (h : cpusRound env = .more i rest) :
    parseBraces max pass negated env s =
      if (changePlace max pass i s).1 then parseBraces max pass (negated || i.negate) rest (changePlace max pass i s).2
      else .invalid (changePlace max pass i s).2 := by
  rw [parseBraces]
  split <;> simp_all

end Equations

/-- Both passes over the braces read as the pass without a list does. -/
theorem parseBraces_agree (pass negated : Bool) (env : List Char) (p : ℕ) (s : Slots) :
    BracesAgree s p (parseBraces max pass negated env (some (p,s))) (parseBraces max false negated env none) := by
  induction hn : env.length using Nat.strong_induction_on generalizing env s negated with
  | _ n ih =>
    subst hn
    rcases hround : cpusRound env with _ | i | ⟨i,rest⟩ | ⟨i,rest⟩
    · rw [parseBraces_unread hround,parseBraces_unread hround]
      refine ⟨fun q hq => ?_,fun q n env hq => ?_⟩
      · cases hq
        exact ⟨s,rfl,.refl s⟩
      · cases hq
    · rw [parseBraces_unended hround]
      obtain ⟨t,ht,hsame⟩ := @changePlace_slots max pass i p s
      refine ⟨fun q hq => ?_,fun q n env hq => ?_⟩
      · cases hq
        exact ⟨t,ht,hsame⟩
      · cases hq
    · rw [parseBraces_last hround,parseBraces_last hround]
      obtain ⟨t,ht,hsame⟩ := @changePlace_slots max pass i p s
      refine ⟨fun q hq => ?_,fun q n env hq => ?_⟩
      · split at hq <;> cases hq
        exact ⟨t,ht,hsame⟩
      · split at hq <;> cases hq
        exact ⟨⟨t,ht,hsame⟩,rfl⟩
    · rw [parseBraces_more hround,parseBraces_more hround]
      obtain ⟨t,ht,hsame⟩ := @changePlace_slots max pass i p s
      rw [ht]
      by_cases hok : (changePlace max pass i (some (p,s))).1
      · rw [if_pos hok]
        exact (ih _ (cpusRound_shorter (.inr hround)) _ _ t rfl).of_same hsame
      · rw [if_neg hok]
        refine ⟨fun q hq => ?_,fun q n env hq => ?_⟩
        · cases hq
          exact ⟨t,rfl,hsame⟩
        · cases hq

theorem parseBraces_length (pass negated : Bool) (env : List Char) : ∀ {s q n rest},
    parseBraces max pass negated env s = .closed q n rest → rest.length < env.length := by
  induction hn : env.length using Nat.strong_induction_on generalizing env negated with
  | _ len ih =>
    intro s q n rest h
    subst hn
    rcases hround : cpusRound env with _ | i | ⟨i,after⟩ | ⟨i,after⟩
    · rw [parseBraces_unread hround] at h
      cases h
    · rw [parseBraces_unended hround] at h
      cases h
    · rw [parseBraces_last hround] at h
      split at h <;> cases h
      exact cpusRound_shorter (.inl hround)
    · rw [parseBraces_more hround] at h
      split at h
      · exact (ih _ (cpusRound_shorter (.inr hround)) _ after rfl h).trans (cpusRound_shorter (.inr hround))
      · cases h

/-- A stride leaves the length that was read before it. -/
theorem readStride_len {len len' : ℕ} {stride : ℤ} {env rest : List Char}
    (h : readStride len env = some (len',stride,rest)) : len' = len := by
  rcases env with _ | ⟨c,env⟩
  · simp only [readStride,Option.some.injEq,Prod.mk.injEq] at h
    exact h.1.symm
  · simp only [readStride] at h
    split at h
    · split at h
      · cases h
      · simp only [Option.some.injEq,Prod.mk.injEq] at h
        exact h.1.symm
    · simp only [Option.some.injEq,Prod.mk.injEq] at h
      exact h.1.symm

theorem readLen_pos {limit len : ℕ} {stride : ℤ} {env rest : List Char}
    (h : readLen limit env = some (len,stride,rest)) : 0 < len := by
  rcases env with _ | ⟨c,env⟩
  · simp only [readLen,Option.some.injEq,Prod.mk.injEq] at h
    omega
  · simp only [readLen] at h
    split at h
    · split at h
      · cases h
      · rename_i hgood
        obtain rfl := readStride_len h
        omega
    · simp only [Option.some.injEq,Prod.mk.injEq] at h
      omega

theorem readItem_spec {negate : Bool} {env : List Char} {item : Item} (h : readItem negate env = some item) :
    0 < item.len ∧ item.env.length ≤ env.length := by
  simp only [readItem] at h
  split at h
  · cases h
  · rename_i hlen
    have hspace := skipSpace_length env
    have hrest := readLen_length hlen
    split at h <;> cases h
    exact ⟨readLen_pos hlen,hrest.trans hspace⟩

/-- What `parse_one_place` reads without a list. -/
theorem parseOnePlace_none (env : List Char) : (parseOnePlace max none env).item =
    (readOpen env).bind fun o =>
      match parseBraces max false false o.2 none with
      | .invalid _ => none
      | .closed _ _ rest => readItem o.1 rest := by
  simp only [parseOnePlace,Option.map_none,Option.isSome_none,Bool.false_and]
  rcases readOpen env with _ | ⟨negate,start⟩
  · rfl
  · simp only [Option.bind_some]
    rcases parseBraces max false false start none with q | ⟨q,n,rest⟩
    · rfl
    · rfl

theorem parseOnePlace_spec {env : List Char} {item : Item} (h : (parseOnePlace max none env).item = some item) :
    0 < item.len ∧ item.env.length < env.length := by
  rw [parseOnePlace_none] at h
  rcases hopen : readOpen env with _ | ⟨negate,start⟩
  · rw [hopen] at h
    cases h
  · rw [hopen,Option.bind_some] at h
    rcases hbraces : parseBraces max false false start none with q | ⟨q,n,rest⟩
    · rw [hbraces] at h
      cases h
    · rw [hbraces] at h
      have hread := readItem_spec h
      have hlen := parseBraces_length false false start hbraces
      have hstart := readOpen_length hopen
      exact ⟨hread.1,by omega⟩

/-- With a list `parse_one_place` reads what it reads without one, or stops; of the slots it uses the last one. -/
theorem parseOnePlace_listed (s : Slots) (env : List Char) :
    (∃ t, (parseOnePlace max (some s) env).places = some t ∧ SameSlots (s.use s.len) t) ∧
      ∀ item, (parseOnePlace max (some s) env).item = some item → (parseOnePlace max none env).item = some item := by
  rw [parseOnePlace_none]
  simp only [parseOnePlace,Option.map_some,Option.isSome_some,Bool.true_and]
  rcases readOpen env with _ | ⟨negate,start⟩
  · exact ⟨⟨_,rfl,.refl _⟩,fun _ h => h⟩
  · have hfirst := @parseBraces_agree max false false start (s.entry s.len) (s.use s.len)
    simp only [Option.bind_some]
    rcases hbraces : parseBraces max false false start (some (s.entry s.len,s.use s.len)) with q | ⟨q,n,rest⟩
    · obtain ⟨t,rfl,hsame⟩ := hfirst.stopped q hbraces
      exact ⟨⟨t,rfl,hsame⟩,fun _ h => absurd h (by simp)⟩
    · obtain ⟨⟨t,rfl,hsame⟩,hnone⟩ := hfirst.went q n rest hbraces
      rw [hnone]
      rcases n with _ | _
      · exact ⟨⟨t,rfl,hsame⟩,fun _ h => h⟩
      · have hsecond := @parseBraces_agree max true false start (s.entry s.len) t
        simp only [if_true]
        rcases hagain : parseBraces max true false start (some (s.entry s.len,t)) with r | ⟨r,n,rest'⟩
        · obtain ⟨u,rfl,hsame'⟩ := hsecond.stopped r hagain
          exact ⟨⟨u,rfl,hsame.trans hsame'⟩,fun _ h => absurd h (by simp)⟩
        · obtain ⟨⟨u,rfl,hsame'⟩,hnone'⟩ := hsecond.went r n rest' hagain
          rw [hnone] at hnone'
          cases hnone'
          exact ⟨⟨u,rfl,hsame.trans hsame'⟩,fun _ h => h⟩

end Passes

/-- The count of the first pass, none where the value is invalid, and what it has read. -/
structure Counted where
  count : Option ℕ
  items : List Item

/-- The slots that are counted for a place; the first one that is negated needs one to be compared in. -/
def countItem (anyNegate : Bool) (count : ℕ) (item : Item) : ℕ :=
  if item.negate then (if anyNegate then count else count + 1) else count + item.len

/-- The first pass over the value. -/
def countPlaces (max : ℕ) (anyNegate : Bool) (count : ℕ) (env : List Char) : Counted :=
  match _h : (parseOnePlace max none env).item with
  | none => ⟨none,[]⟩
  | some item =>
    if 65536 < countItem anyNegate count item then ⟨none,[item]⟩
    else
      match _hrest : item.env with
      | [] => ⟨some (countItem anyNegate count item),[item]⟩
      | c :: rest =>
        if c = ',' then
          let r := countPlaces max (anyNegate || item.negate) (countItem anyNegate count item) rest
          ⟨r.count,item :: r.items⟩
        else ⟨none,[item]⟩
termination_by env.length
decreasing_by
  have hlen := (parseOnePlace_spec _h).2
  rw [_hrest,List.length_cons] at hlen
  omega

/-- `gomp_affinity_init_place` for the place behind the last one. -/
def Slots.initPlace (s : Slots) : Slots := (s.use s.len).setPlace (s.entry s.len) ∅

/-- The loop of `gomp_affinity_copy_place` over the CPUs. -/
def copyCpus (max : ℕ) (stride : ℤ) (dest src : ℕ) : List ℕ → (ℕ → Finset ℕ) → Bool × (ℕ → Finset ℕ)
  | [], sets => (true,sets)
  | i :: is, sets =>
    if i ∉ sets src then copyCpus max stride dest src is sets
    else
      let next := ((i + stride) % 2 ^ 64).toNat
      if (stride < 0 ∧ i < next) ∨ (0 < stride ∧ (next < i ∨ max ≤ next)) then (false,sets)
      else copyCpus max stride dest src is (Function.update sets dest (insert next (sets dest)))

/-- `gomp_affinity_copy_place`. -/
def affinityCopyPlace (max : ℕ) (stride : ℤ) (dest src : ℕ) (sets : ℕ → Finset ℕ) : Bool × (ℕ → Finset ℕ) :=
  copyCpus max stride dest src (List.range max) (Function.update sets dest ∅)

/-- A place is repeated so many times more, from the given repetition on. -/
def copyPlaces (max : ℕ) (stride : ℤ) : ℕ → ℕ → Slots → Bool × Slots
  | 0, _, s => (true,s)
  | n + 1, count, s =>
    let t := (s.use (s.len + count)).use (s.len + count + 1)
    let r := affinityCopyPlace max stride (s.entry (s.len + count + 1)) (s.entry (s.len + count)) s.sets
    if r.1 then copyPlaces max stride n (count + 1) { t with sets := r.2 } else (false,{ t with sets := r.2 })

/-- The first place that equals the one behind the last. -/
def findSame : ℕ → ℕ → Slots → Option ℕ × Slots
  | 0, _, s => (none,s)
  | n + 1, count, s =>
    let t := (s.use count).use s.len
    if s.sets (s.entry count) = s.sets (s.entry s.len) then (some count,t) else findSame n (count + 1) t

/-- The entries after a place move down, and the place goes behind them. -/
def Slots.removePlace (s : Slots) (count : ℕ) : Slots :=
  let moved := s.list.take count ++ (s.list.drop (count + 1)).take (s.len - count - 1) ++ s.list.drop (s.len - 1)
  { s with
    list := moved.set (s.len - 1) (s.entry count)
    len := s.len - 1
    used := List.range' count (s.len - count) ++ s.used }

/-- What the second pass does with a place that has been read. -/
def placeItem (max : ℕ) (item : Item) (s : Slots) : Bool × Slots :=
  if item.negate then
    match findSame s.len 0 s with
    | (none,t) => (false,t)
    | (some count,t) => (true,t.removePlace count)
  else if item.len = 1 then (true,{ s with len := s.len + 1 })
  else
    let r := copyPlaces max item.stride (item.len - 1) 0 s
    (r.1,if r.1 then { r.2 with len := r.2.len + item.len } else r.2)

/-- What comes of the second pass: whether it reached the end, the slots it left, and for each round what it read
and the slots after it. -/
structure Filled where
  ok : Bool
  slots : Slots
  rounds : List (Item × Slots)

/-- The second pass over the value. -/
def fillPlaces (max : ℕ) (s : Slots) (env : List Char) : Filled :=
  let parsed := parseOnePlace max (some s.initPlace) env
  let t := parsed.places.getD s.initPlace
  match _h : parsed.item with
  | none => ⟨false,t,[]⟩
  | some item =>
    let r := placeItem max item t
    if r.1 then
      match _hrest : item.env with
      | [] => ⟨true,r.2,[(item,r.2)]⟩
      | _ :: rest =>
        let f := fillPlaces max r.2 rest
        ⟨f.ok,f.slots,(item,r.2) :: f.rounds⟩
    else ⟨false,r.2,[]⟩
termination_by env.length
decreasing_by
  have hlen := (parseOnePlace_spec ((parseOnePlace_listed s.initPlace env).2 item _h)).2
  rw [_hrest,List.length_cons] at hlen
  omega

/-- The entries are the places that were allocated in some order, and only these have been used. -/
structure Slots.Sound (s : Slots) (count : ℕ) : Prop where
  list : s.list.Perm (List.range count)
  used : ∀ k ∈ s.used, k < count

section Bounds
variable {max count : ℕ} {s t : Slots}

theorem Slots.Sound.use (h : s.Sound count) {k : ℕ} (hk : k < count) : (s.use k).Sound count := by
  refine ⟨h.list,fun j hj => ?_⟩
  rcases List.mem_cons.1 hj with rfl | hj
  · exact hk
  · exact h.used j hj

theorem Slots.Sound.same (h : s.Sound count) (hsame : SameSlots s t) : t.Sound count :=
  ⟨hsame.list ▸ h.list,hsame.used ▸ h.used⟩

theorem copyPlaces_sound (stride : ℤ) (n : ℕ) : ∀ (k : ℕ) {s : Slots}, s.Sound count → s.len + k + n < count →
    (copyPlaces max stride n k s).2.Sound count ∧ (copyPlaces max stride n k s).2.len = s.len := by
  induction n with
  | zero => exact fun _ _ h _ => ⟨h,rfl⟩
  | succ n ih =>
    intro k s h hlt
    have huse : ((s.use (s.len + k)).use (s.len + k + 1)).Sound count :=
      (h.use (by omega)).use (by omega)
    simp only [copyPlaces]
    split
    · exact ih (k + 1) ⟨huse.list,huse.used⟩ (by change s.len + (k + 1) + n < count; omega)
    · exact ⟨⟨huse.list,huse.used⟩,rfl⟩

theorem findSame_sound (n : ℕ) : ∀ (k : ℕ) {s : Slots}, s.Sound count → k + n = s.len → s.len < count →
    (findSame n k s).2.Sound count ∧ (findSame n k s).2.len = s.len ∧ ∀ j, (findSame n k s).1 = some j → j < s.len := by
  induction n with
  | zero => exact fun _ _ h _ _ => ⟨h,rfl,fun _ hj => by cases hj⟩
  | succ n ih =>
    intro k s h hk hlt
    have huse : ((s.use k).use s.len).Sound count := (h.use (by omega)).use hlt
    simp only [findSame]
    split
    · refine ⟨huse,rfl,fun j hj => ?_⟩
      cases hj
      omega
    · have hnext := @ih (k + 1) ((s.use k).use s.len) huse (by change k + 1 + n = s.len; omega) hlt
      exact hnext

/-- The entries after a place move down by one, and it goes to the end of them. -/
theorem removePlace_list {l : List ℕ} {k len : ℕ} (hk : k < len) (hlen : len ≤ l.length) :
    ((l.take k ++ (l.drop (k + 1)).take (len - k - 1) ++ l.drop (len - 1)).set (len - 1) (l.getD k 0)).Perm l := by
  have hdrop : l.drop (len - 1) = l.getD (len - 1) 0 :: l.drop len := by
    rw [List.drop_eq_getElem_cons (by omega),List.getD_eq_getElem _ _ (by omega),show len - 1 + 1 = len by omega]
  have hrest : (l.drop (k + 1)).take (len - k - 1) ++ l.drop len = l.drop (k + 1) := by
    conv_rhs => rw [← List.take_append_drop (len - k - 1) (l.drop (k + 1)),List.drop_drop]
    rw [show k + 1 + (len - k - 1) = len by omega]
  have hsplit : l.take k ++ l.getD k 0 :: l.drop (k + 1) = l := by
    rw [List.getD_eq_getElem _ _ (by omega),← List.drop_eq_getElem_cons (by omega),List.take_append_drop]
  have hbefore : (l.take k ++ (l.drop (k + 1)).take (len - k - 1)).length = len - 1 := by
    simp only [List.length_append,List.length_take,List.length_drop]
    omega
  rw [hdrop,List.set_append_right _ _ hbefore.le,hbefore,Nat.sub_self,List.set_cons_zero]
  calc l.take k ++ (l.drop (k + 1)).take (len - k - 1) ++ l.getD k 0 :: l.drop len
      = l.take k ++ ((l.drop (k + 1)).take (len - k - 1) ++ l.getD k 0 :: l.drop len) := List.append_assoc ..
    List.Perm _ (l.take k ++ l.getD k 0 :: ((l.drop (k + 1)).take (len - k - 1) ++ l.drop len)) :=
        List.perm_middle.append_left _
    _ = l := by rw [hrest,hsplit]

theorem removePlace_sound (h : s.Sound count) {k : ℕ} (hk : k < s.len) (hlen : s.len ≤ count) :
    (s.removePlace k).Sound count := by
  have hlength : s.list.length = count := by simpa using h.list.length_eq
  refine ⟨(removePlace_list hk (hlength ▸ hlen)).trans h.list,fun j hj => ?_⟩
  rcases List.mem_append.1 hj with hj | hj
  · rw [List.mem_range'_1] at hj
    omega
  · exact h.used j hj

/-- What a place that has been read does to the slots, when there are enough of them. -/
theorem placeItem_sound {item : Item} (h : s.Sound count) (hlt : s.len < count) (hpos : 0 < item.len)
    (hfit : item.negate = false → s.len + item.len ≤ count) :
    (placeItem max item s).2.Sound count ∧ ((placeItem max item s).1 = true →
      (item.negate = true → (placeItem max item s).2.len + 1 = s.len) ∧
      (item.negate = false → (placeItem max item s).2.len = s.len + item.len)) := by
  simp only [placeItem]
  rcases hneg : item.negate with _ | _
  · have hfit := hfit hneg
    simp only [Bool.false_eq_true,if_false]
    by_cases hone : item.len = 1
    · rw [if_pos hone]
      exact ⟨⟨h.list,h.used⟩,fun _ => ⟨fun h => absurd h (by decide),fun _ => by rw [hone]⟩⟩
    · rw [if_neg hone]
      obtain ⟨hsound,hlen⟩ := @copyPlaces_sound max count item.stride (item.len - 1) 0 s h (by omega)
      set r := copyPlaces max item.stride (item.len - 1) 0 s with hr
      rcases hok : r.1 with _ | _
      · exact ⟨hsound,fun h => by cases h⟩
      · exact ⟨⟨hsound.list,hsound.used⟩,fun _ => ⟨fun h => absurd h (by decide),fun _ => congrArg (· + item.len) hlen⟩⟩
  · simp only [if_true]
    obtain ⟨hsound,hlen,hfound⟩ := findSame_sound s.len 0 h (Nat.zero_add _) hlt
    rcases hfind : findSame s.len 0 s with ⟨_ | k,t⟩
    · rw [hfind] at hsound
      exact ⟨hsound,fun h => by cases h⟩
    · rw [hfind] at hsound hlen hfound
      have hk : k < t.len := hlen ▸ hfound k rfl
      have hsame : t.len = s.len := hlen
      refine ⟨removePlace_sound hsound hk (hsame ▸ hlt.le),fun _ => ⟨fun _ => ?_,fun h => absurd h (by decide)⟩⟩
      change t.len - 1 + 1 = s.len
      omega

theorem countPlaces_eq (anyNegate : Bool) (counted : ℕ) (env : List Char) :
    countPlaces max anyNegate counted env =
      match (parseOnePlace max none env).item with
      | none => ⟨none,[]⟩
      | some item =>
        if 65536 < countItem anyNegate counted item then ⟨none,[item]⟩
        else
          match item.env with
          | [] => ⟨some (countItem anyNegate counted item),[item]⟩
          | c :: rest =>
            if c = ',' then
              ⟨(countPlaces max (anyNegate || item.negate) (countItem anyNegate counted item) rest).count,
                item :: (countPlaces max (anyNegate || item.negate) (countItem anyNegate counted item) rest).items⟩
            else ⟨none,[item]⟩ := by
  rw [countPlaces]
  split
  · simp_all
  · rename_i item hitem
    rw [hitem]
    simp only
    split
    · rfl
    · split <;> simp_all

theorem countItem_le (anyNegate : Bool) (counted : ℕ) (item : Item) : counted ≤ countItem anyNegate counted item := by
  simp only [countItem]
  split
  · split <;> omega
  · omega

/-- The count has room for the place to be read and, once one is negated, for one more. -/
theorem countItem_room {anyNegate : Bool} {counted len : ℕ} (item : Item) (h : len + anyNegate.toNat ≤ counted) :
    (item.negate = true → len + 1 ≤ countItem anyNegate counted item) ∧
      (item.negate = false → len + item.len + anyNegate.toNat ≤ countItem anyNegate counted item) := by
  refine ⟨fun hneg => ?_,fun hneg => ?_⟩
  · rw [countItem,if_pos hneg]
    cases anyNegate <;> simp_all
  · rw [countItem,if_neg (by simp [hneg])]
    omega

/-- What a first pass that ends well has read first. -/
theorem countPlaces_some {anyNegate : Bool} {counted : ℕ} {env : List Char}
    (h : (countPlaces max anyNegate counted env).count = some count) :
    ∃ item, (parseOnePlace max none env).item = some item ∧
      ((item.env = [] ∧ count = countItem anyNegate counted item ∧
          (countPlaces max anyNegate counted env).items = [item]) ∨
        ∃ rest, item.env = ',' :: rest ∧
          (countPlaces max (anyNegate || item.negate) (countItem anyNegate counted item) rest).count = some count ∧
          (countPlaces max anyNegate counted env).items =
            item :: (countPlaces max (anyNegate || item.negate) (countItem anyNegate counted item) rest).items) := by
  rw [countPlaces_eq] at h ⊢
  rcases hitem : (parseOnePlace max none env).item with _ | item
  · rw [hitem] at h
    cases h
  · rw [hitem] at h
    simp only at h ⊢
    refine ⟨item,rfl,?_⟩
    split at h
    · cases h
    · rename_i hle
      rw [if_neg hle]
      rcases henv : item.env with _ | ⟨c,rest⟩
      · rw [henv] at h
        cases h
        exact Or.inl ⟨rfl,rfl,rfl⟩
      · rw [henv] at h
        simp only at h ⊢
        split at h
        · rename_i hcomma
          subst hcomma
          exact Or.inr ⟨rest,rfl,h,by simp⟩
        · cases h

/-- The count never shrinks. -/
theorem countPlaces_le (env : List Char) : ∀ {anyNegate : Bool} {counted : ℕ},
    (countPlaces max anyNegate counted env).count = some count → counted ≤ count := by
  induction hn : env.length using Nat.strong_induction_on generalizing env with
  | _ len ih =>
    intro anyNegate counted h
    obtain ⟨item,hitem,⟨_,hcount,_⟩ | ⟨rest,hrest,hnext,_⟩⟩ := countPlaces_some h
    · exact hcount ▸ countItem_le anyNegate counted item
    · have hshort := (parseOnePlace_spec hitem).2
      rw [hrest,List.length_cons] at hshort
      exact (countItem_le anyNegate counted item).trans (ih rest.length (by omega) rest rfl hnext)

theorem fillPlaces_eq (s : Slots) (env : List Char) : fillPlaces max s env =
    match (parseOnePlace max (some s.initPlace) env).item with
    | none => ⟨false,(parseOnePlace max (some s.initPlace) env).places.getD s.initPlace,[]⟩
    | some item =>
      let r := placeItem max item ((parseOnePlace max (some s.initPlace) env).places.getD s.initPlace)
      if r.1 then
        match item.env with
        | [] => ⟨true,r.2,[(item,r.2)]⟩
        | _ :: rest =>
          ⟨(fillPlaces max r.2 rest).ok,(fillPlaces max r.2 rest).slots,(item,r.2) :: (fillPlaces max r.2 rest).rounds⟩
      else ⟨false,r.2,[]⟩ := by
  rw [fillPlaces]
  simp only
  split
  · simp_all
  · rename_i item hitem
    rw [hitem]
    simp only
    split
    · split <;> simp_all
    · rfl

/-- The second pass against the first one. -/
structure Filled.Follows (f : Filled) (count : ℕ) (items : List Item) : Prop where
  slots : f.slots.Sound count
  rounds : ∀ r ∈ f.rounds, r.2.Sound count
  start : f.rounds.map Prod.fst <+: items
  whole : f.ok = true → f.rounds.map Prod.fst = items

theorem fillPlaces_follows (env : List Char) : ∀ {anyNegate : Bool} {counted : ℕ} {s : Slots},
    (countPlaces max anyNegate counted env).count = some count → s.Sound count → s.len + anyNegate.toNat ≤ counted →
    (fillPlaces max s env).Follows count (countPlaces max anyNegate counted env).items := by
  induction hn : env.length using Nat.strong_induction_on generalizing env with
  | _ len ih =>
    intro anyNegate counted s h hs hroom
    subst hn
    obtain ⟨item,hitem,hcase⟩ := countPlaces_some h
    obtain ⟨hpos,hshort⟩ := parseOnePlace_spec hitem
    -- the slot in which the place is read is one of those counted
    have hcount : countItem anyNegate counted item ≤ count := by
      rcases hcase with ⟨_,hlast,_⟩ | ⟨rest,_,hnext,_⟩
      · exact hlast.ge
      · exact countPlaces_le rest hnext
    obtain ⟨hneg,hadd⟩ := countItem_room item hroom
    have hlt : s.len < count := by
      rcases hnegate : item.negate with _ | _
      · have := hadd hnegate
        omega
      · have := hneg hnegate
        omega
    have hcleared : s.initPlace.Sound count := ⟨hs.list,(hs.use hlt).used⟩
    have hinit : (s.initPlace.use s.initPlace.len).Sound count := hcleared.use hlt
    obtain ⟨⟨t,ht,hsame⟩,hagree⟩ := @parseOnePlace_listed max s.initPlace env
    have htsound : t.Sound count := hinit.same hsame
    have htlen : t.len = s.len := hsame.len
    rw [fillPlaces_eq,ht,Option.getD_some]
    rcases hread : (parseOnePlace max (some s.initPlace) env).item with _ | item'
    · exact ⟨htsound,by simp,List.nil_prefix,fun h => absurd h (by simp)⟩
    · have hsameItem : item' = item := Option.some.inj ((hagree item' hread).symm.trans hitem)
      subst hsameItem
      obtain ⟨hrsound,hr⟩ := @placeItem_sound max count t item' htsound (htlen ▸ hlt) hpos
        fun hnegate => by have := hadd hnegate; omega
      set r := placeItem max item' t with hrdef
      simp only
      by_cases hok : r.1 = true
      · obtain ⟨hrneg,hradd⟩ := hr hok
        rw [if_pos hok]
        rcases hcase with ⟨hend,_,hitems⟩ | ⟨rest,hend,hnext,hitems⟩
        · rw [hend,hitems]
          refine ⟨hrsound,fun q hq => ?_,List.prefix_rfl,fun _ => rfl⟩
          rw [List.mem_singleton.1 hq]
          exact hrsound
        · have hrroom : r.2.len + (anyNegate || item'.negate).toNat ≤ countItem anyNegate counted item' := by
            rcases hnegate : item'.negate with _ | _
            · have := hadd hnegate
              have := hradd hnegate
              rw [Bool.or_false]
              omega
            · have := hneg hnegate
              have := hrneg hnegate
              rw [Bool.or_true,Bool.toNat_true]
              omega
          rw [hend,List.length_cons] at hshort
          obtain ⟨hslots,hrounds,hpre,hwhole⟩ := ih rest.length (by omega) rest rfl hnext hrsound hrroom
          rw [hend,hitems]
          refine ⟨hslots,fun q hq => ?_,List.cons_prefix_cons.2 ⟨rfl,hpre⟩,fun hdone => ?_⟩
          · rcases List.mem_cons.1 hq with rfl | hq
            · exact hrsound
            · exact hrounds q hq
          · exact congrArg (item' :: ·) (hwhole hdone)
      · rw [if_neg hok]
        exact ⟨hrsound,by simp,List.nil_prefix,fun h => absurd h (by simp)⟩

end Bounds

/-- `gomp_affinity_finalize_place_list`: the places that have a CPU of the process move to the front. -/
def finalizeLoop (cpus : Finset ℕ) : ℕ → ℕ → ℕ → Slots → ℕ × Slots
  | 0, _, j, s => (j,s)
  | n + 1, i, j, s =>
    let t := s.setPlace (s.entry i) (s.sets (s.entry i) ∩ cpus)
    if t.sets (s.entry i) ≠ ∅ then finalizeLoop cpus n (i + 1) (j + 1) { t with list := t.list.set j (s.entry i) }
    else finalizeLoop cpus n (i + 1) j t

def finalizePlaceList (cpus : Finset ℕ) (s : Slots) : Option Slots :=
  let r := finalizeLoop cpus s.len 0 0 s
  if r.1 = 0 then none else some { r.2 with len := r.1 }

/-- What `parse_places_var` returns, whether it took the invalid path, `gomp_places_list` and its length, and the
two passes. -/
structure Outcome where
  ret : Bool
  invalid : Bool
  list : Option (List ℕ)
  len : ℕ
  counted : Counted
  filled : Option Filled

/-- `parse_places_var` for a list; `alloc` is what the allocation of so many places returns. -/
def parsePlacesVar (max : ℕ) (cpus : Finset ℕ) (ignore : Bool) (alloc : ℕ → Option (ℕ → Finset ℕ)) (value : List Char) :
    Outcome :=
  let env := skipSpace value
  let counted := if env = [] then ⟨none,[]⟩ else countPlaces max false 0 env
  match counted.count with
  | none => ⟨false,true,none,0,counted,none⟩
  | some count =>
    if ignore then ⟨false,false,none,0,counted,none⟩
    else
      match alloc count with
      | none => ⟨false,false,none,0,counted,none⟩
      | some sets =>
        let f := fillPlaces max ⟨List.range count,sets,0,[]⟩ env
        if f.ok ∧ f.slots.len ≠ 0 then
          match finalizePlaceList cpus f.slots with
          | none => ⟨false,true,none,0,counted,some f⟩
          | some s => ⟨true,false,some s.list,s.len,counted,some f⟩
        else ⟨false,true,none,0,counted,some f⟩

/-- The second pass reads what the first one did or takes the invalid path; it uses the slots that were counted and
keeps them all; and the invalid path leaves no list. -/
theorem parsePlacesVar_sound (max : ℕ) (cpus : Finset ℕ) (ignore : Bool) (alloc : ℕ → Option (ℕ → Finset ℕ))
    (value : List Char) : let r := parsePlacesVar max cpus ignore alloc value
    (∀ f ∈ r.filled, ∃ count ∈ r.counted.count, f.slots.Sound count ∧ (∀ q ∈ f.rounds, q.2.Sound count) ∧
        f.rounds.map Prod.fst <+: r.counted.items ∧ (f.rounds.map Prod.fst = r.counted.items ∨ r.invalid = true)) ∧
      (r.invalid = true → r.list = none ∧ r.len = 0) := by
  intro r
  set env := skipSpace value with henv
  set counted : Counted := if env = [] then ⟨none,[]⟩ else countPlaces max false 0 env with hcounted
  have hr : r = parsePlacesVar max cpus ignore alloc value := rfl
  simp only [parsePlacesVar,← henv,← hcounted] at hr
  rcases hcount : counted.count with _ | count
  · rw [hcount] at hr
    rw [hr]
    exact ⟨fun f hf => absurd hf (by simp),fun _ => ⟨rfl,rfl⟩⟩
  · have hne : env ≠ [] := fun hempty => by simp [hcounted,hempty] at hcount
    rw [if_neg hne] at hcounted
    rw [hcount] at hr
    simp only at hr
    split at hr
    · rw [hr]
      exact ⟨fun f hf => absurd hf (by simp),fun h => absurd h (by simp)⟩
    · rcases halloc : alloc count with _ | sets
      · rw [halloc] at hr
        rw [hr]
        exact ⟨fun f hf => absurd hf (by simp),fun h => absurd h (by simp)⟩
      · rw [halloc] at hr
        simp only at hr
        have hstart : (⟨List.range count,sets,0,[]⟩ : Slots).Sound count :=
          ⟨List.Perm.refl _,fun k hk => absurd hk List.not_mem_nil⟩
        obtain ⟨hslots,hrounds,hpre,hwhole⟩ := fillPlaces_follows env (hcounted ▸ hcount) hstart (Nat.zero_le 0)
        rw [← hcounted] at hpre hwhole
        set f := fillPlaces max ⟨List.range count,sets,0,[]⟩ env with hf
        have hfilled (b : Bool) (h : f.ok = true ∨ b = true) : ∃ c ∈ counted.count, f.slots.Sound c ∧
            (∀ q ∈ f.rounds, q.2.Sound c) ∧ f.rounds.map Prod.fst <+: counted.items ∧
              (f.rounds.map Prod.fst = counted.items ∨ b = true) :=
          ⟨count,hcount,hslots,hrounds,hpre,h.imp_left hwhole⟩
        split at hr
        · rename_i hgood
          rcases hfinal : finalizePlaceList cpus f.slots with _ | s
          · rw [hfinal] at hr
            rw [hr]
            refine ⟨fun g hg => ?_,fun _ => ⟨rfl,rfl⟩⟩
            cases hg
            exact hfilled true (Or.inr rfl)
          · rw [hfinal] at hr
            rw [hr]
            refine ⟨fun g hg => ?_,fun h => absurd h (by simp)⟩
            cases hg
            exact hfilled false (Or.inl hgood.1)
        · rw [hr]
          refine ⟨fun g hg => ?_,fun _ => ⟨rfl,rfl⟩⟩
          cases hg
          exact hfilled true (Or.inr rfl)

end GompUlt.PlaceList
