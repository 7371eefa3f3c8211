import Mathlib

/-! # GOMP_CPU_AFFINITY

The value of the variable is read item by item, twice: the first pass counts the places, the second one writes
them.  A string is the list of its characters before the terminator.
-/
namespace GompUlt.CpuAffinity

/-- `isspace` in the C locale. -/
def isspace (c : Char) : Bool := c = ' ' || (9 ≤ c.toNat && c.toNat ≤ 13)

/-- `while (isspace (*env)) ++env;` -/
def skipSpace (env : List Char) : List Char := env.dropWhile isspace

/-- The value of a digit in a base up to 36. -/
def digitOf (base : ℕ) (c : Char) : Option ℕ :=
  let d := if '0' ≤ c ∧ c ≤ '9' then c.toNat - 48
    else if 'a' ≤ c ∧ c ≤ 'z' then c.toNat - 87
    else if 'A' ≤ c ∧ c ≤ 'Z' then c.toNat - 55
    else 36
  if d < base then some d else none

def readSign : List Char → Bool × List Char
  | [] => (false,[])
  | c :: cs => if c = '-' then (true,cs) else if c = '+' then (false,cs) else (false,c :: cs)

/-- The base of a number that is read in base 0, and where its digits begin. -/
def readBase : List Char → ℕ × List Char
  | c :: x :: d :: cs =>
    if c = '0' ∧ (x = 'x' ∨ x = 'X') ∧ (digitOf 16 d).isSome then (16,d :: cs)
    else (if c = '0' then 8 else 10,c :: x :: d :: cs)
  | cs => (if cs.head? = some '0' then 8 else 10,cs)

def readDigits (base : ℕ) : ℕ → List Char → ℕ × List Char
  | n, [] => (n,[])
  | n, c :: cs =>
    match digitOf base c with
    | some d => readDigits base (n * base + d) cs
    | none => (n,c :: cs)

/-- What `strtoul` returns, whether it sets errno, and where it stops. -/
structure Number where
  value : ℕ
  erange : Bool
  rest : List Char

/-- `strtoul (env, &end, 0)`; without a digit it stops where it began. -/
def strtoul (env : List Char) : Number :=
  let sign := readSign (skipSpace env)
  let base := readBase sign.2
  let n := readDigits base.1 0 base.2
  if n.2 = base.2 then ⟨0,false,env⟩
  else if 2 ^ 64 ≤ n.1 then ⟨2 ^ 64 - 1,true,n.2⟩
  else ⟨if sign.1 then (2 ^ 64 - n.1) % 2 ^ 64 else n.1,false,n.2⟩

structure Item where
  cpuBeg : ℕ
  cpuEnd : ℕ
  cpuStride : ℕ
deriving DecidableEq, Repr

def Item.needed (i : Item) : ℕ := (i.cpuEnd - i.cpuBeg) / i.cpuStride + 1

/-- The stride of a range, none for an invalid one. -/
def readStride (cpuBeg cpuEnd : ℕ) : List Char → Option (Item × List Char)
  | [] => some (⟨cpuBeg,cpuEnd,1⟩,[])
  | c :: env =>
    if c = ':' then
      let n := strtoul env
      if n.erange ∨ n.value = 0 ∨ 65536 ≤ n.value then none else some (⟨cpuBeg,cpuEnd,n.value⟩,n.rest)
    else some (⟨cpuBeg,cpuEnd,1⟩,c :: env)

/-- The end of a range and its stride. -/
def readRange (cpuBeg : ℕ) : List Char → Option (Item × List Char)
  | [] => some (⟨cpuBeg,cpuBeg,1⟩,[])
  | c :: env =>
    if c = '-' then
      let n := strtoul env
      if n.erange ∨ 65536 ≤ n.value ∨ n.value < cpuBeg then none else readStride cpuBeg n.value n.rest
    else some (⟨cpuBeg,cpuBeg,1⟩,c :: env)

/-- One item of the list: a CPU, or a range with an optional stride. -/
def readItem (env : List Char) : Option (Item × List Char) :=
  let n := strtoul env
  if n.erange ∨ 65536 ≤ n.value then none else readRange n.value n.rest

/-- Where the next item begins; none at the terminator.  A comma is passed over, any other character is left
where it is. -/
def afterItem (env : List Char) : Option (List Char) :=
  match skipSpace env with
  | [] => none
  | c :: cs => if c = ',' then some cs else some (c :: cs)

/-- What a round of the loop comes to. -/
inductive Round where
  | invalid
  | last (i : Item)
  | more (i : Item) (env : List Char)
deriving DecidableEq, Repr

def round (env : List Char) : Round :=
  match readItem (skipSpace env) with
  | none => .invalid
  | some (i,rest) =>
    match afterItem rest with
    | none => .last i
    | some env => .more i env

section Pass
variable {σ : Type*} (body : σ → Item → σ)

/-- A pass over the value, in at most so many rounds: none when it takes more, an error when it ends at an
invalid item. -/
def pass : ℕ → List Char → σ → Option (Except σ σ)
  | 0, _, _ => none
  | n + 1, env, s =>
    match round env with
    | .invalid => some (.error s)
    | .last i => some (.ok (body s i))
    | .more i env => pass n env (body s i)

end Pass

/-- A place is the list of its CPUs. -/
abbrev Place := List ℕ

/-- `gomp_places_list`, `gomp_places_list_len` and the slots that have been initialised so far, in this order. -/
structure Writing where
  places : List Place
  len : ℕ
  writes : List ℕ

/-- The second pass for one item.  `gomp_affinity_add_cpus` refuses a CPU that the sets have no bit for; its slot
is then used again. -/
def writePlaces (cpus : ℕ) (cpuStride : ℕ) : ℕ → ℕ → Writing → Writing
  | 0, _, w => w
  | needed + 1, cpuBeg, w =>
    writePlaces cpus cpuStride needed (cpuBeg + cpuStride)
      ⟨w.places.set w.len (if cpuBeg < cpus then [cpuBeg] else []),if cpuBeg < cpus then w.len + 1 else w.len,
        w.writes ++ [w.len]⟩

/-- The places list: none is NULL. -/
structure Places where
  list : Option (List Place)
  len : ℕ

/-- No empty list is left behind. -/
def Places.Sound (p : Places) : Prop := p.list = none ∨ p.len ≠ 0

structure Result where
  value : Bool
  places : Places
  count : ℕ
  writes : List ℕ

/-- `parse_affinity`, each pass in at most `rounds` rounds.  `alloc` says for which counts `gomp_affinity_alloc`
gets its memory. -/
def parseAffinity (alloc : ℕ → Bool) (cpus : ℕ) (entry : Places) (ignore : Bool) (rounds : ℕ) :
    Option (List Char) → Option Result
  | none => some ⟨false,entry,0,[]⟩
  | some env =>
    match pass (fun count i => count + i.needed) rounds env 0 with
    | none => none
    | some (.error count) => some ⟨false,entry,count,[]⟩
    | some (.ok count) =>
      if ignore then some ⟨false,entry,count,[]⟩
      else if alloc count = false then some ⟨false,⟨none,0⟩,count,[]⟩
      else
        match pass (fun w i => writePlaces cpus i.cpuStride i.needed i.cpuBeg w) rounds env
            ⟨List.replicate count [],0,[]⟩ with
        | none => none
        | some (.error w) => some ⟨false,⟨some w.places,w.len⟩,count,w.writes⟩
        | some (.ok w) =>
          if w.len = 0 then some ⟨false,⟨none,0⟩,count,w.writes⟩ else some ⟨true,⟨some w.places,w.len⟩,count,w.writes⟩

/-- An item can begin here: at a number, a dash or a comma, or at the terminator. -/
def startsItem (env : List Char) : Bool :=
  match env with
  | [] => true
  | c :: cs => c = ',' || c = '-' || (digitOf 10 c).isSome || (c = '+' && (cs.head?.any fun d => (digitOf 10 d).isSome))

/-- Read item by item, the value comes to a character that no item can begin with. -/
inductive Stuck : List Char → Prop
  | here {env : List Char} (h : startsItem (skipSpace env) = false) : Stuck env
  | later {env env' : List Char} {i : Item} (h : round env = .more i env') (hs : Stuck env') : Stuck env

section Scan

theorem readDigits_length (base n : ℕ) (env : List Char) : (readDigits base n env).2.length ≤ env.length := by
  induction env generalizing n with
  | nil => exact le_rfl
  | cons c cs ih =>
    rw [readDigits]
    split
    · exact (ih _).trans (Nat.le_succ _)
    · exact le_rfl

/-- Digits are read exactly when there is one. -/
theorem readDigits_rest {base n : ℕ} {env : List Char} :
    (readDigits base n env).2 = env ↔ (env.head?.any fun c => (digitOf base c).isSome) = false := by
  cases env with
  | nil => simp [readDigits]
  | cons c cs =>
    rw [readDigits]
    cases hd : digitOf base c with
    | none => simp [hd]
    | some d =>
      have hlen := readDigits_length base (n * base + d) cs
      simp only [List.head?_cons, Option.any_some, hd, Option.isSome_some, Bool.true_eq_false, iff_false]
      intro h
      rw [h, List.length_cons] at hlen
      omega

theorem readBase_length (env : List Char) : (readBase env).2.length ≤ env.length := by
  unfold readBase
  split
  · split
    · simp only [List.length_cons]
      omega
    · exact le_rfl
  · exact le_rfl

theorem readSign_length (env : List Char) : (readSign env).2.length ≤ env.length := by
  unfold readSign
  split
  · exact le_rfl
  · split
    · exact Nat.le_succ _
    · split
      · exact Nat.le_succ _
      · exact le_rfl

theorem skipSpace_length (env : List Char) : (skipSpace env).length ≤ env.length :=
  (List.dropWhile_suffix _).length_le

theorem strtoul_length (env : List Char) : (strtoul env).rest.length ≤ env.length := by
  have hlen : (readDigits (readBase (readSign (skipSpace env)).2).1 0 (readBase (readSign (skipSpace env)).2).2).2.length ≤
      env.length :=
    (readDigits_length _ _ _).trans ((readBase_length _).trans ((readSign_length _).trans (skipSpace_length env)))
  unfold strtoul
  dsimp only
  split
  · exact le_rfl
  · split
    · exact hlen
    · exact hlen

/-- Whether a number begins here, after its sign. -/
def startsNumber (env : List Char) : Bool := (readSign env).2.head?.any fun c => (digitOf 10 c).isSome

theorem readDigits_length_lt {base n : ℕ} {env : List Char}
    (h : (env.head?.any fun c => (digitOf base c).isSome) = true) :
    (readDigits base n env).2.length < env.length := by
  cases env with
  | nil => cases h
  | cons c cs =>
    obtain ⟨d,hd⟩ := Option.isSome_iff_exists.mp (by simpa using h)
    rw [readDigits, hd]
    exact Nat.lt_succ_of_le (readDigits_length _ _ _)

theorem readBase_of_no_digit {env : List Char} (h : (env.head?.any fun c => (digitOf 10 c).isSome) = false) :
    readBase env = (10,env) := by
  have hzero : env.head? ≠ some '0' := by
    intro h0
    rw [h0] at h
    exact absurd h (by decide)
  unfold readBase
  split
  next c x d cs =>
    have hc : c ≠ '0' := fun hc => hzero (by rw [hc, List.head?_cons])
    rw [if_neg fun h => hc h.1, if_neg hc]
  next => rw [if_neg hzero]

theorem readBase_of_digit {env : List Char} (h : (env.head?.any fun c => (digitOf 10 c).isSome) = true) :
    ((readBase env).2.head?.any fun c => (digitOf (readBase env).1 c).isSome) = true := by
  unfold readBase
  split
  next c x d cs =>
    split
    next hex => exact hex.2.2
    next =>
      split
      next hc =>
        subst hc
        simp only [List.head?_cons, Option.any_some]
        decide
      next => exact h
  next =>
    split
    next hzero =>
      simp only [hzero, Option.any_some]
      decide
    next => exact h

/-- With no number to read, `strtoul` returns 0 and stops where it began. -/
theorem strtoul_of_not_starts {env : List Char} (h : startsNumber (skipSpace env) = false) :
    strtoul env = ⟨0,false,env⟩ := by
  have hbase := readBase_of_no_digit h
  unfold strtoul
  dsimp only
  rw [if_pos]
  rw [hbase]
  exact readDigits_rest.mpr h

theorem strtoul_length_lt {env : List Char} (h : startsNumber (skipSpace env) = true) :
    (strtoul env).rest.length < env.length := by
  have hdigit := readBase_of_digit h
  have hlt : (readDigits (readBase (readSign (skipSpace env)).2).1 0 (readBase (readSign (skipSpace env)).2).2).2.length <
      env.length :=
    (readDigits_length_lt hdigit).trans_le ((readBase_length _).trans ((readSign_length _).trans (skipSpace_length env)))
  have hread : ¬ (readDigits (readBase (readSign (skipSpace env)).2).1 0 (readBase (readSign (skipSpace env)).2).2).2 =
      (readBase (readSign (skipSpace env)).2).2 := by
    intro heq
    rw [readDigits_rest, hdigit] at heq
    cases heq
  unfold strtoul
  dsimp only
  rw [if_neg hread]
  split
  · exact hlt
  · exact hlt

theorem readStride_length {b e : ℕ} {env rest : List Char} {i : Item} (h : readStride b e env = some (i,rest)) :
    rest.length ≤ env.length := by
  cases env with
  | nil =>
    cases h
    exact le_rfl
  | cons c env =>
    rw [readStride] at h
    split at h
    · dsimp only at h
      split at h
      · cases h
      · cases h
        exact (strtoul_length env).trans (Nat.le_succ _)
    · cases h
      exact le_rfl

/-- A range takes its dash, whatever follows. -/
theorem readRange_length {b : ℕ} {env rest : List Char} {i : Item} (h : readRange b env = some (i,rest)) :
    rest.length ≤ env.length ∧ (env.head? = some '-' → rest.length < env.length) := by
  cases env with
  | nil =>
    cases h
    exact ⟨le_rfl,fun h => by cases h⟩
  | cons c env =>
    rw [readRange] at h
    split at h
    · dsimp only at h
      split at h
      · cases h
      · have hlen := (readStride_length h).trans (strtoul_length env)
        exact ⟨hlen.trans (Nat.le_succ _),fun _ => Nat.lt_succ_of_le hlen⟩
    · rename_i hc
      cases h
      refine ⟨le_rfl,fun hhead => absurd (Option.some.inj hhead) hc⟩

theorem readItem_length {env rest : List Char} {i : Item} (h : readItem env = some (i,rest)) :
    rest.length ≤ env.length := by
  rw [readItem] at h
  split at h
  · cases h
  · exact (readRange_length h).1.trans (strtoul_length env)

/-- An item that begins neither at the terminator nor at a comma is not empty. -/
theorem readItem_length_lt {c : Char} {cs rest : List Char} {i : Item} (hspace : skipSpace (c :: cs) = c :: cs)
    (hstart : startsItem (c :: cs) = true) (hc : c ≠ ',') (h : readItem (c :: cs) = some (i,rest)) :
    rest.length < (c :: cs).length := by
  rw [readItem] at h
  split at h
  next => cases h
  next =>
    have hrange := readRange_length h
    cases hnum : startsNumber (c :: cs) with
    | true => exact hrange.1.trans_lt (strtoul_length_lt (by rw [hspace, hnum]))
    | false =>
      rw [strtoul_of_not_starts (by rw [hspace, hnum])] at hrange
      apply hrange.2
      -- without a number only the dash is left
      simp only [startsNumber, readSign] at hnum
      simp only [startsItem, hc, decide_false, Bool.false_or, Bool.or_eq_true, decide_eq_true_eq, Bool.and_eq_true] at hstart
      split at hnum
      next hdash => rw [hdash, List.head?_cons]
      next =>
        split at hnum
        next hplus =>
          subst hplus
          simp only [hnum, Bool.false_eq_true, and_false, or_false] at hstart
          exact absurd hstart (by decide)
        next hdash hplus =>
          simp only [List.head?_cons, Option.any_some] at hnum
          simp [hnum, hdash, hplus] at hstart

/-- Where no item can begin, an empty one is read. -/
theorem readItem_of_not_starts {env : List Char} (hspace : skipSpace env = env) (h : startsItem env = false) :
    readItem env = some (⟨0,0,1⟩,env) := by
  cases env with
  | nil => cases h
  | cons c cs =>
    simp only [startsItem, Bool.or_eq_false_iff, decide_eq_false_iff_not] at h
    obtain ⟨⟨⟨hcomma,hdash⟩,hdigit⟩,hplus⟩ := h
    have hnum : startsNumber (c :: cs) = false := by
      simp only [startsNumber, readSign, if_neg hdash]
      split
      next hc => simpa [hc] using hplus
      next => simpa using hdigit
    rw [readItem, strtoul_of_not_starts (by rw [hspace, hnum])]
    simp [readRange, hdash]

theorem skipSpace_skipSpace (env : List Char) : skipSpace (skipSpace env) = skipSpace env :=
  List.dropWhile_idempotent _ env

theorem afterItem_length {env env' : List Char} (h : afterItem env = some env') : env'.length ≤ env.length := by
  have hlen := skipSpace_length env
  unfold afterItem at h
  split at h
  next => cases h
  next c cs heq =>
    rw [heq, List.length_cons] at hlen
    split at h
    · cases h
      omega
    · cases h
      exact hlen

/-- Where no item can begin, the loop stays. -/
theorem round_of_not_starts {env : List Char} (h : startsItem (skipSpace env) = false) :
    round env = .more ⟨0,0,1⟩ (skipSpace env) := by
  rw [round, readItem_of_not_starts (skipSpace_skipSpace env) h]
  cases hs : skipSpace env with
  | nil =>
    rw [hs] at h
    cases h
  | cons c cs =>
    have hc : c ≠ ',' := by
      rintro rfl
      rw [hs] at h
      cases h
    have hsp := skipSpace_skipSpace env
    rw [hs] at hsp
    simp [afterItem, hsp, hc]

/-- Every other round makes progress. -/
theorem round_length_lt {env env' : List Char} {i : Item} (h : startsItem (skipSpace env) = true)
    (hr : round env = .more i env') : env'.length < env.length := by
  have hskip := skipSpace_length env
  have hsp := skipSpace_skipSpace env
  unfold round at hr
  split at hr
  next => cases hr
  next j rest hitem =>
    split at hr
    next => cases hr
    next e hafter =>
      cases hr
      have hlen := afterItem_length hafter
      cases hs : skipSpace env with
      | nil =>
        have hrest := readItem_length hitem
        rw [hs, List.length_nil, Nat.le_zero, List.length_eq_zero_iff] at hrest
        rw [hrest] at hafter
        cases hafter
      | cons c cs =>
        rw [hs] at hitem hsp h hskip
        by_cases hc : c = ','
        · subst hc
          have hrest : rest = ',' :: cs := by
            have : readItem (',' :: cs) = some (⟨0,0,1⟩,',' :: cs) := by
              have hnum : startsNumber (skipSpace (',' :: cs)) = false := by
                rw [hsp, startsNumber, readSign, if_neg (by decide), if_neg (by decide)]
                rfl
              rw [readItem, strtoul_of_not_starts hnum]
              simp [readRange]
            rw [this] at hitem
            cases hitem
            rfl
          subst hrest
          simp only [afterItem, hsp, if_true, Option.some.injEq] at hafter
          subst hafter
          exact hskip
        · have hlt := readItem_length_lt hsp h hc hitem
          omega

end Scan
section Runs
variable {σ τ : Type*}

/-- From where no item can begin, a pass takes any number of rounds. -/
theorem pass_of_not_starts (body : σ → Item → σ) (rounds : ℕ) :
    ∀ {env : List Char} (s : σ), startsItem (skipSpace env) = false → pass body rounds env s = none := by
  induction rounds with
  | zero => exact fun _ _ => rfl
  | succ n ih =>
    intro env s h
    rw [pass, round_of_not_starts h]
    exact ih _ (by rw [skipSpace_skipSpace, h])

theorem pass_of_stuck (body : σ → Item → σ) {env : List Char} (h : Stuck env) (rounds : ℕ) (s : σ) :
    pass body rounds env s = none := by
  induction h generalizing rounds s with
  | here h => exact pass_of_not_starts body rounds s h
  | later h _ ih =>
    cases rounds with
    | zero => rfl
    | succ n =>
      rw [pass, h]
      exact ih n _

/-- A pass over a value that does not get stuck ends after at most one round for each character and one more. -/
theorem pass_isSome (body : σ → Item → σ) (rounds : ℕ) :
    ∀ {env : List Char} (s : σ), ¬ Stuck env → env.length < rounds → (pass body rounds env s).isSome := by
  induction rounds with
  | zero => exact fun _ _ h => absurd h (Nat.not_lt_zero _)
  | succ n ih =>
    intro env s hstuck hlen
    rw [pass]
    split
    next => rfl
    next => rfl
    next i env' hr =>
      have hstart : startsItem (skipSpace env) = true := by
        cases h : startsItem (skipSpace env) with
        | true => rfl
        | false => exact absurd (Stuck.here h) hstuck
      have hlt := round_length_lt hstart hr
      exact ih _ (fun h => hstuck (Stuck.later hr h)) (by omega)

/-- Both passes take the same path. -/
theorem pass_same {f : σ → Item → σ} {g : τ → Item → τ} {R : σ → τ → Prop}
    (hstep : ∀ s t i, R s t → R (f s i) (g t i)) (rounds : ℕ) :
    ∀ {env : List Char} {s s' : σ} (t : τ), R s t → pass f rounds env s = some (.ok s') →
      ∃ t', pass g rounds env t = some (.ok t') ∧ R s' t' := by
  induction rounds with
  | zero => exact fun _ _ h => by cases h
  | succ n ih =>
    intro env s s' t hR h
    rw [pass] at h ⊢
    split at h
    next => cases h
    next i hr =>
      cases h
      exact ⟨_,rfl,hstep s t i hR⟩
    next i env' hr => exact ih _ (hstep s t i hR) h

end Runs

/-- So many places have been written, all into slots that have been counted. -/
structure Writing.Within (w : Writing) (count : ℕ) : Prop where
  writes : w.writes.length = count
  len : w.len ≤ count
  slots : ∀ k ∈ w.writes, k < count

theorem writePlaces_within (cpus cpuStride needed : ℕ) :
    ∀ {cpuBeg count : ℕ} {w : Writing}, w.Within count →
      (writePlaces cpus cpuStride needed cpuBeg w).Within (count + needed) := by
  induction needed with
  | zero => exact fun h => h
  | succ n ih =>
    intro cpuBeg count w h
    have hcount : count + (n + 1) = count + 1 + n := by omega
    rw [writePlaces, hcount]
    apply ih
    refine ⟨by simp [h.writes],?_,fun k hk => ?_⟩
    · dsimp only
      have := h.len
      split <;> omega
    · rcases List.mem_append.mp hk with hold | hnew
      · exact (h.slots k hold).trans (Nat.lt_succ_self _)
      · rw [List.mem_singleton.mp hnew]
        exact Nat.lt_succ_of_le h.len

/-- What is asked of a return: the second pass has written no more places than the first one counted, and no
empty list is left behind by a failure. -/
structure Result.Good (r : Result) : Prop where
  writes : r.writes.length ≤ r.count
  slots : ∀ k ∈ r.writes, k < r.count
  sound : r.value = false → r.places.Sound

variable {alloc : ℕ → Bool} {cpus : ℕ} {entry : Places} {ignore : Bool}

theorem parseAffinity_good (hentry : entry.Sound) {rounds : ℕ} {env : Option (List Char)} {r : Result}
    (h : parseAffinity alloc cpus entry ignore rounds env = some r) : r.Good := by
  cases env with
  | none =>
    cases h
    exact ⟨le_rfl,fun k hk => absurd hk List.not_mem_nil,fun _ => hentry⟩
  | some env =>
    have hzero : ∀ {count : ℕ} {places : Places}, places.Sound → Result.Good ⟨false,places,count,[]⟩ := fun hsound =>
      ⟨Nat.zero_le _,fun k hk => absurd hk List.not_mem_nil,fun _ => hsound⟩
    rw [parseAffinity] at h
    split at h
    next => cases h
    next => cases h; exact hzero hentry
    next count hcount =>
      split at h
      next => cases h; exact hzero hentry
      next =>
        split at h
        next => cases h; exact hzero (Or.inl rfl)
        next =>
          -- the second pass cannot come to an invalid item
          obtain ⟨w,hw,hwithin⟩ := pass_same (R := fun count (w : Writing) => w.Within count)
            (g := fun w i => writePlaces cpus i.cpuStride i.needed i.cpuBeg w)
            (fun s t i hst => writePlaces_within cpus i.cpuStride i.needed hst) rounds
            ⟨List.replicate count [],0,[]⟩ ⟨rfl,le_rfl,fun k hk => absurd hk List.not_mem_nil⟩ hcount
          rw [hw] at h
          dsimp only at h
          split at h
          · cases h
            exact ⟨hwithin.writes.le,hwithin.slots,fun _ => Or.inl rfl⟩
          · cases h
            exact ⟨hwithin.writes.le,hwithin.slots,fun hfalse => by cases hfalse⟩

theorem parseAffinity_isSome {env : List Char} (h : ¬ Stuck env) :
    (parseAffinity alloc cpus entry ignore (env.length + 1) (some env)).isSome := by
  obtain ⟨e,he⟩ := Option.isSome_iff_exists.mp
    (pass_isSome (fun count i => count + Item.needed i) (env.length + 1) 0 h (Nat.lt_succ_self _))
  rw [parseAffinity, he]
  cases e with
  | error count => rfl
  | ok count =>
    obtain ⟨e,he⟩ := Option.isSome_iff_exists.mp
      (pass_isSome (fun w i => writePlaces cpus i.cpuStride i.needed i.cpuBeg w) (env.length + 1)
        ⟨List.replicate count [],0,[]⟩ h (Nat.lt_succ_self _))
    dsimp only
    split
    · rfl
    · split
      · rfl
      · rw [he]
        cases e with
        | error w => rfl
        | ok w =>
          dsimp only
          split <;> rfl

/-- The function returns, and keeps what is asked of a return, exactly when the value never comes to a character
that no item can begin with. -/
theorem affinity_returns_iff (hentry : entry.Sound) {env : List Char} :
    (∃ rounds r, parseAffinity alloc cpus entry ignore rounds (some env) = some r ∧ r.Good) ↔ ¬ Stuck env := by
  constructor
  · rintro ⟨rounds,r,h,-⟩ hstuck
    rw [parseAffinity, pass_of_stuck _ hstuck] at h
    cases h
  · intro h
    obtain ⟨r,hr⟩ := Option.isSome_iff_exists.mp (parseAffinity_isSome h)
    exact ⟨_,r,hr,parseAffinity_good hentry hr⟩

/-- A range with a stride and a CPU. -/
theorem affinity_returns_range : ∃ rounds r,
    parseAffinity (fun _ => true) 64 ⟨none,0⟩ false rounds (some "1-5:2, 7".toList) = some r ∧ r.Good :=
  (affinity_returns_iff (Or.inl rfl)).mpr fun h => by
    have hfirst : round "1-5:2, 7".toList = .more ⟨1,5,2⟩ [' ','7'] := by decide
    have hlast : round [' ','7'] = .last ⟨7,7,1⟩ := by decide
    cases h with
    | here h => exact absurd h (by decide)
    | later h hs =>
      rw [hfirst] at h
      cases h
      cases hs with
      | here h => exact absurd h (by decide)
      | later h _ =>
        rw [hlast] at h
        cases h

/-- At a letter the loop goes on for ever. -/
theorem affinity_letter : ¬ ∃ rounds r,
    parseAffinity (fun _ => true) 64 ⟨none,0⟩ false rounds (some ['a']) = some r ∧ r.Good := by
  rintro ⟨rounds,r,h,-⟩
  rw [parseAffinity, pass_of_stuck _ (Stuck.here (by decide))] at h
  cases h

end GompUlt.CpuAffinity
