import GompUlt.Env.PlaceList

/-! # The places list as it is displayed

OMP_DISPLAY_ENV prints the places as a value of OMP_PLACES, with one item for each run of neighbouring CPUs.  Read
back, that value gives the same places in the same order.
-/
namespace GompUlt.PlaceList
open CpuAffinity TopologyPlaces

/-- `fprintf (stderr, "%lu", n)`. -/
def printUnsigned (n : ℕ) : List Char := Nat.toDigits 10 n

/-- The end of a run of CPUs. -/
def printLen (len : ℕ) : List Char := if 1 < len then ':' :: printUnsigned len else []

/-- The variables `len` and `notfirst` of `gomp_affinity_print_place`, and what has been printed. -/
structure Printing where
  len : ℕ
  notfirst : Bool
  out : List Char

/-- The body of the loop over the CPUs. -/
def printCpu (p : Finset ℕ) (s : Printing) (i : ℕ) : Printing :=
  if i ∈ p then
    if s.len = 0 then ⟨1,true,s.out ++ (if s.notfirst then [','] else []) ++ printUnsigned i⟩
    else ⟨s.len + 1,s.notfirst,s.out⟩
  else ⟨0,s.notfirst,s.out ++ printLen s.len⟩

/-- `gomp_affinity_print_place`. -/
def affinityPrintPlace (max : ℕ) (p : Finset ℕ) : List Char :=
  let s := (List.range max).foldl (printCpu p) ⟨0,false,[]⟩
  s.out ++ printLen s.len

/-- The value of OMP_PLACES that `handle_omp_display_env` prints. -/
def displayPlaces (max : ℕ) : List (Finset ℕ) → List Char
  | [] => []
  | [p] => '{' :: affinityPrintPlace max p ++ ['}']
  | p :: q :: places => '{' :: affinityPrintPlace max p ++ '}' :: ',' :: displayPlaces max (q :: places)

/-! ## Numbers -/

/-- No digit begins here. -/
def NoDigit (env : List Char) : Prop := (env.head?.any fun c => (digitOf 10 c).isSome) = false

theorem digitOf_digit {c : Char} (hc : c.isDigit = true) : digitOf 10 c = some (c.toNat - '0'.toNat) := by
  simp only [Char.isDigit, Bool.and_eq_true, decide_eq_true_eq] at hc
  have h1 : '0' ≤ c ∧ c ≤ '9' := hc
  have hlow : 48 ≤ c.toNat := h1.1
  have hhigh : c.toNat ≤ 57 := h1.2
  simp only [digitOf, if_pos h1]
  rw [if_pos (by omega)]
  rfl

theorem readDigits_append {ds rest : List Char} (hds : ∀ c ∈ ds, c.isDigit = true) (hrest : NoDigit rest) (n : ℕ) :
    readDigits 10 n (ds ++ rest) = (Nat.ofDigitChars 10 ds n,rest) := by
  induction ds generalizing n with
  | nil =>
    cases rest with
    | nil => rfl
    | cons c rest =>
      have hc : digitOf 10 c = none := by simpa [NoDigit] using hrest
      simp [readDigits, hc]
  | cons c ds ih =>
    have hc := digitOf_digit (hds c List.mem_cons_self)
    rw [List.cons_append, readDigits, hc, Nat.ofDigitChars_cons, Nat.mul_comm 10 n]
    exact ih (fun d hd => hds d (List.mem_cons_of_mem _ hd)) _

theorem isDigit_printUnsigned (n : ℕ) : ∀ c ∈ printUnsigned n, c.isDigit = true := fun _ hc =>
  Nat.isDigit_of_mem_toDigits (by decide) (by decide) hc

/-- A printed number begins with a digit. -/
theorem printUnsigned_cons (n : ℕ) : ∃ c cs, printUnsigned n = c :: cs ∧ c.isDigit = true := by
  cases h : printUnsigned n with
  | nil => exact absurd h Nat.toDigits_ne_nil
  | cons c cs => exact ⟨c,cs,rfl,isDigit_printUnsigned n c (h ▸ List.mem_cons_self)⟩

theorem digit_plain {c : Char} (hc : c.isDigit = true) :
    isspace c = false ∧ c ≠ '!' ∧ c ≠ '-' ∧ c ≠ '+' := by
  simp only [Char.isDigit, Bool.and_eq_true, decide_eq_true_eq] at hc
  have hlow : 48 ≤ c.toNat := hc.1
  have hhigh : c.toNat ≤ 57 := hc.2
  refine ⟨?_,?_,?_,?_⟩
  · have hspace : c ≠ ' ' := by
      rintro rfl
      revert hlow
      decide
    simp [isspace, hspace]
    omega
  all_goals
    rintro rfl
    revert hlow
    decide

theorem skipSpace_digits (n : ℕ) (rest : List Char) :
    skipSpace (printUnsigned n ++ rest) = printUnsigned n ++ rest := by
  obtain ⟨c,cs,hcs,hc⟩ := printUnsigned_cons n
  rw [hcs, List.cons_append, skipSpace, List.dropWhile_cons, (digit_plain hc).1]
  rfl

theorem readNegate_digits (n : ℕ) (rest : List Char) :
    readNegate (printUnsigned n ++ rest) = (false,printUnsigned n ++ rest) := by
  obtain ⟨c,cs,hcs,hc⟩ := printUnsigned_cons n
  rw [hcs, List.cons_append, readNegate, if_neg (digit_plain hc).2.1]

/-- A printed number is read back. -/
theorem strtoulTen_digits {n : ℕ} (hn : n < 2 ^ 64) {rest : List Char} (hrest : NoDigit rest) :
    strtoulTen (printUnsigned n ++ rest) = ⟨n,false,rest⟩ := by
  have hsign : readSign (printUnsigned n ++ rest) = (false,printUnsigned n ++ rest) := by
    obtain ⟨c,cs,hcs,hc⟩ := printUnsigned_cons n
    rw [hcs, List.cons_append, readSign, if_neg (digit_plain hc).2.2.1, if_neg (digit_plain hc).2.2.2]
  have hread := readDigits_append (isDigit_printUnsigned n) hrest 0
  have hvalue : Nat.ofDigitChars 10 (printUnsigned n) 0 = n := Nat.ofDigitChars_ten_toDigits
  rw [hvalue] at hread
  have hne : rest ≠ printUnsigned n ++ rest := by
    intro h
    have hlen := congrArg List.length h
    obtain ⟨c,cs,hcs,-⟩ := printUnsigned_cons n
    rw [hcs, List.length_append, List.length_cons] at hlen
    omega
  unfold strtoulTen
  simp only [skipSpace_digits, hsign, hread]
  rw [if_neg hne, if_neg (by omega)]
  rfl

/-! ## Runs of CPUs -/

/-- A run by its first CPU and its length, as it is printed. -/
def runText (r : ℕ × ℕ) : List Char := printUnsigned r.1 ++ printLen r.2

def joinRuns : List (ℕ × ℕ) → List Char
  | [] => []
  | [r] => runText r
  | r :: q :: rs => runText r ++ ',' :: joinRuns (q :: rs)

/-- The runs with the comma before the next one. -/
def separated (rs : List (ℕ × ℕ)) : List Char := if rs.isEmpty then [] else joinRuns rs ++ [',']

def cpusOf : List (ℕ × ℕ) → Finset ℕ
  | [] => ∅
  | r :: rs => Finset.Ico r.1 (r.1 + r.2) ∪ cpusOf rs

theorem joinRuns_concat (rs : List (ℕ × ℕ)) (r : ℕ × ℕ) : joinRuns (rs ++ [r]) = separated rs ++ runText r := by
  induction rs with
  | nil => rfl
  | cons q rs ih =>
    cases rs with
    | nil => simp [joinRuns, separated]
    | cons q' rs =>
      rw [List.cons_append, List.cons_append, joinRuns, ← List.cons_append, ih]
      simp [separated, joinRuns]

theorem cpusOf_concat (rs : List (ℕ × ℕ)) (r : ℕ × ℕ) :
    cpusOf (rs ++ [r]) = cpusOf rs ∪ Finset.Ico r.1 (r.1 + r.2) := by
  induction rs with
  | nil => simp [cpusOf]
  | cons q rs ih => simp only [List.cons_append, cpusOf, ih, Finset.union_assoc]

/-- What has been printed for the CPUs below `k`; the last run may still grow. -/
structure Printed (p : Finset ℕ) (k : ℕ) (s : Printing) (rs : List (ℕ × ℕ)) : Prop where
  bounds : ∀ r ∈ rs, 0 < r.2 ∧ r.1 + r.2 ≤ k
  cpus : cpusOf rs = p.filter (· < k)
  text : (s.len = 0 ∧ s.out = joinRuns rs ∧ s.notfirst = !rs.isEmpty) ∨
    ∃ qs a, rs = qs ++ [(a,s.len)] ∧ 0 < s.len ∧ a + s.len = k ∧ s.notfirst = true ∧
      s.out = separated qs ++ printUnsigned a

theorem filter_succ_of_mem {p : Finset ℕ} {k : ℕ} (hk : k ∈ p) : p.filter (· < k + 1) = p.filter (· < k) ∪ {k} := by
  ext i
  simp only [Finset.mem_filter, Finset.mem_union, Finset.mem_singleton]
  constructor
  · rintro ⟨hi,hlt⟩
    obtain h | h := Nat.lt_succ_iff_lt_or_eq.mp hlt
    · exact Or.inl ⟨hi,h⟩
    · exact Or.inr h
  · rintro (⟨hi,hlt⟩ | rfl)
    · exact ⟨hi,by omega⟩
    · exact ⟨hk,Nat.lt_succ_self i⟩

theorem filter_succ_of_notMem {p : Finset ℕ} {k : ℕ} (hk : k ∉ p) : p.filter (· < k + 1) = p.filter (· < k) := by
  ext i
  simp only [Finset.mem_filter]
  constructor
  · rintro ⟨hi,hlt⟩
    have hne : i ≠ k := by
      rintro rfl
      exact hk hi
    exact ⟨hi,by omega⟩
  · rintro ⟨hi,hlt⟩
    exact ⟨hi,by omega⟩

theorem Printed.step {p : Finset ℕ} {k : ℕ} {s : Printing} {rs : List (ℕ × ℕ)} (h : Printed p k s rs) :
    ∃ rs', Printed p (k + 1) (printCpu p s k) rs' := by
  obtain ⟨hbounds,hcpus,htext⟩ := h
  have hwiden : ∀ r ∈ rs, 0 < r.2 ∧ r.1 + r.2 ≤ k + 1 := fun r hr => ⟨(hbounds r hr).1,(hbounds r hr).2.trans k.le_succ⟩
  unfold printCpu
  by_cases hk : k ∈ p
  · rw [if_pos hk]
    obtain ⟨hlen,hout,hfirst⟩ | ⟨qs,a,rfl,hpos,hsum,hfirst,hout⟩ := htext
    · rw [if_pos hlen]
      refine ⟨rs ++ [(k,1)],?_,?_,Or.inr ⟨rs,k,rfl,Nat.one_pos,rfl,rfl,?_⟩⟩
      · intro r hr
        obtain hr | hr := List.mem_append.mp hr
        · exact hwiden r hr
        · obtain rfl := List.mem_singleton.mp hr
          exact ⟨Nat.one_pos,le_rfl⟩
      · rw [cpusOf_concat, hcpus, filter_succ_of_mem hk, Nat.Ico_succ_singleton]
      · cases rs with
        | nil => simp [hout, hfirst, separated, joinRuns]
        | cons q rs => simp [hout, hfirst, separated]
    · rw [if_neg hpos.ne']
      refine ⟨qs ++ [(a,s.len + 1)],?_,?_,Or.inr ⟨qs,a,rfl,Nat.succ_pos _,by dsimp only; omega,hfirst,hout⟩⟩
      · intro r hr
        obtain hr | hr := List.mem_append.mp hr
        · exact hwiden r (List.mem_append_left _ hr)
        · obtain rfl := List.mem_singleton.mp hr
          exact ⟨Nat.succ_pos _,by dsimp only; omega⟩
      · rw [cpusOf_concat] at hcpus ⊢
        dsimp only at hcpus ⊢
        have hgrow : Finset.Ico a (a + (s.len + 1)) = Finset.Ico a (a + s.len) ∪ {k} := by
          ext i
          simp only [Finset.mem_Ico, Finset.mem_union, Finset.mem_singleton]
          omega
        rw [hgrow, filter_succ_of_mem hk, ← hcpus, Finset.union_assoc]
  · rw [if_neg hk]
    obtain ⟨hlen,hout,hfirst⟩ | ⟨qs,a,rfl,hpos,hsum,hfirst,hout⟩ := htext
    · refine ⟨rs,hwiden,by rw [filter_succ_of_notMem hk, hcpus],Or.inl ⟨rfl,?_,hfirst⟩⟩
      simp [hlen, hout, printLen]
    · refine ⟨qs ++ [(a,s.len)],hwiden,by rw [filter_succ_of_notMem hk, hcpus],Or.inl ⟨rfl,?_,?_⟩⟩
      · rw [joinRuns_concat, runText, hout, List.append_assoc]
      · simp [hfirst]

/-- A place is printed as the runs of its CPUs. -/
theorem affinityPrintPlace_runs {max : ℕ} {p : Finset ℕ} (hp : p.Nonempty) (hmax : ∀ i ∈ p, i < max) :
    ∃ rs, rs ≠ [] ∧ affinityPrintPlace max p = joinRuns rs ∧ (∀ r ∈ rs, 0 < r.2 ∧ r.1 + r.2 ≤ max) ∧ cpusOf rs = p := by
  have hloop : ∀ k, ∃ rs, Printed p k ((List.range k).foldl (printCpu p) ⟨0,false,[]⟩) rs := by
    intro k
    induction k with
    | zero => exact ⟨[],by simp,by simp [cpusOf],Or.inl ⟨rfl,rfl,rfl⟩⟩
    | succ k ih =>
      obtain ⟨rs,hrs⟩ := ih
      rw [List.range_succ, List.foldl_append]
      exact hrs.step
  obtain ⟨rs,hbounds,hcpus,htext⟩ := hloop max
  have hall : cpusOf rs = p := by
    rw [hcpus]
    exact Finset.filter_true_of_mem hmax
  refine ⟨rs,?_,?_,hbounds,hall⟩
  · rintro rfl
    obtain ⟨i,hi⟩ := hp
    rw [← hall] at hi
    simp [cpusOf] at hi
  · unfold affinityPrintPlace
    obtain ⟨hlen,hout,-⟩ | ⟨qs,a,hrs,-,-,-,hout⟩ := htext
    · simp [hlen, hout, printLen]
    · dsimp only
      rw [hout, hrs, joinRuns_concat, runText, List.append_assoc]

/-! ## Reading the runs back -/

/-- What ends a run. -/
theorem ending_plain {c : Char} (hc : c = ',' ∨ c = '}') (rest : List Char) :
    skipSpace (c :: rest) = c :: rest ∧ c ≠ ':' ∧ NoDigit (c :: rest) := by
  obtain rfl | rfl := hc
  · exact ⟨rfl,by decide,rfl⟩
  · exact ⟨rfl,by decide,rfl⟩

theorem readCpus_run {r : ℕ × ℕ} (hpos : 0 < r.2) (hlt : r.1 + r.2 ≤ 2 ^ 64) {c : Char} (hc : c = ',' ∨ c = '}')
    (rest : List Char) (hlen : r.2 < 2 ^ 64) :
    readCpus (runText r ++ c :: rest) = some (⟨false,r.1,r.2,1⟩,c :: rest) := by
  obtain ⟨hspace,hcolon,hdigit⟩ := ending_plain hc rest
  unfold readCpus runText printLen
  rw [List.append_assoc, readNegate_digits]
  dsimp only
  split
  case isTrue hlong =>
    have hnum : strtoulTen (printUnsigned r.1 ++ ':' :: (printUnsigned r.2 ++ c :: rest)) =
        ⟨r.1,false,':' :: (printUnsigned r.2 ++ c :: rest)⟩ := strtoulTen_digits (by omega) rfl
    have hcount : strtoulTen (printUnsigned r.2 ++ c :: rest) = ⟨r.2,false,c :: rest⟩ := strtoulTen_digits hlen hdigit
    have hcolons : skipSpace (':' :: (printUnsigned r.2 ++ c :: rest)) = ':' :: (printUnsigned r.2 ++ c :: rest) := rfl
    have hread : readLen (2 ^ 64) (':' :: (printUnsigned r.2 ++ c :: rest)) = some (r.2,1,c :: rest) := by
      rw [readLen, if_pos rfl, skipSpace_digits, hcount]
      dsimp only
      rw [if_neg (by simp; omega), hspace, readStride, if_neg hcolon]
    simp only [List.cons_append, hnum, hcolons, hread]
    rfl
  case isFalse hshort =>
    have hone : r.2 = 1 := by omega
    have hnum : strtoulTen (printUnsigned r.1 ++ ([] ++ c :: rest)) = ⟨r.1,false,c :: rest⟩ :=
      strtoulTen_digits (by omega) hdigit
    simp only [hnum, hspace, readLen, if_neg hcolon, hone]
    rfl

/-- A run of CPUs that fits is added to a place. -/
theorem affinityAddCpus_run {max : ℕ} (hmax : max ≤ 2 ^ 64) (more num : ℕ) (p : Finset ℕ) (h : num + more < max) :
    affinityAddCpus max 1 more num p = (true,p ∪ Finset.Ico num (num + (more + 1))) := by
  induction more generalizing num p with
  | zero =>
    rw [affinityAddCpus, if_neg (by omega), Finset.insert_eq, Finset.union_comm]
    congr 2
    exact (Nat.Ico_succ_singleton num).symm
  | succ more ih =>
    have hnext : (((num : ℤ) + 1) % 2 ^ 64).toNat = num + 1 := by omega
    rw [affinityAddCpus, if_neg (by omega)]
    dsimp only
    rw [hnext, if_neg (by omega), ih (num + 1) _ (by omega)]
    congr 1
    ext i
    simp only [Finset.mem_union, Finset.mem_insert, Finset.mem_Ico]
    by_cases hi : i ∈ p
    · simp [hi]
    · simp only [hi, or_false, false_or]
      omega

/-- The place that is being read gets more CPUs, when there is one. -/
def addCpus (cpus : Finset ℕ) : Option (ℕ × Slots) → Option (ℕ × Slots)
  | none => none
  | some (p,s) => some (p,s.setPlace p (s.sets p ∪ cpus))

theorem addCpus_addCpus (a b : Finset ℕ) (s : Option (ℕ × Slots)) : addCpus b (addCpus a s) = addCpus (a ∪ b) s := by
  cases s with
  | none => rfl
  | some q =>
    simp only [addCpus, Slots.setPlace, Function.update_self, Function.update_idem, Finset.union_assoc]

theorem changePlace_run {max : ℕ} (hmax : max ≤ 2 ^ 64) {r : ℕ × ℕ} (hpos : 0 < r.2) (hle : r.1 + r.2 ≤ max)
    (s : Option (ℕ × Slots)) :
    changePlace max false ⟨false,r.1,r.2,1⟩ s = (true,addCpus (Finset.Ico r.1 (r.1 + r.2)) s) := by
  cases s with
  | none => rfl
  | some q =>
    have hadd := affinityAddCpus_run hmax (r.2 - 1) r.1 (q.2.sets q.1) (by omega)
    rw [Nat.sub_add_cancel hpos] at hadd
    simp only [changePlace, if_true, Bool.false_eq_true, if_false, hadd, addCpus]

theorem parseBraces_runs {max : ℕ} (hmax : max < 2 ^ 64) {rs : List (ℕ × ℕ)} (hne : rs ≠ [])
    (hrs : ∀ r ∈ rs, 0 < r.2 ∧ r.1 + r.2 ≤ max) (rest : List Char) (s : Option (ℕ × Slots)) :
    parseBraces max false false (joinRuns rs ++ '}' :: rest) s = .closed (addCpus (cpusOf rs) s) false rest := by
  induction rs generalizing s with
  | nil => exact absurd rfl hne
  | cons r rs ih =>
    obtain ⟨hpos,hle⟩ := hrs r List.mem_cons_self
    cases rs with
    | nil =>
      have hread := readCpus_run hpos (by omega) (Or.inr rfl) rest (by omega)
      have hround : cpusRound (joinRuns [r] ++ '}' :: rest) = .last ⟨false,r.1,r.2,1⟩ rest := by
        simp [cpusRound, joinRuns, hread]
      rw [parseBraces_last hround, changePlace_run hmax.le hpos hle]
      simp [cpusOf]
    | cons q rs =>
      have hread := readCpus_run hpos (by omega) (Or.inl rfl) (joinRuns (q :: rs) ++ '}' :: rest) (by omega)
      have hround : cpusRound (joinRuns (r :: q :: rs) ++ '}' :: rest) =
          .more ⟨false,r.1,r.2,1⟩ (joinRuns (q :: rs) ++ '}' :: rest) := by
        simp [cpusRound, joinRuns, hread]
      rw [parseBraces_more hround, changePlace_run hmax.le hpos hle]
      dsimp only
      rw [if_pos rfl, Bool.or_false, ih (by simp) (fun x hx => hrs x (List.mem_cons_of_mem _ hx)), addCpus_addCpus]
      rfl

/-- The text of a place with what follows it is read as one place. -/
theorem parseOnePlace_place {max : ℕ} (hmax : max < 2 ^ 64) {p : Finset ℕ} (hp : p.Nonempty) (hlt : ∀ i ∈ p, i < max)
    {rest : List Char} (hrest : rest = [] ∨ ∃ cs, rest = ',' :: cs) (places : Option Slots) :
    parseOnePlace max places ('{' :: affinityPrintPlace max p ++ '}' :: rest) =
      ⟨places.map fun s => (s.use s.len).setPlace (s.entry s.len) (s.sets (s.entry s.len) ∪ p),
        some ⟨false,1,1,rest⟩⟩ := by
  obtain ⟨rs,hne,htext,hrs,hcpus⟩ := affinityPrintPlace_runs hp hlt
  have hopen : readOpen ('{' :: affinityPrintPlace max p ++ '}' :: rest) =
      some (false,affinityPrintPlace max p ++ '}' :: rest) := by
    have hstart : skipSpace (affinityPrintPlace max p ++ '}' :: rest) = affinityPrintPlace max p ++ '}' :: rest := by
      rw [htext]
      obtain ⟨r,qs,rfl⟩ := List.exists_cons_of_ne_nil hne
      cases qs with
      | nil => simp only [joinRuns, runText, List.append_assoc, skipSpace_digits]
      | cons q qs => simp only [joinRuns, runText, List.append_assoc, skipSpace_digits]
    change some (false,skipSpace (affinityPrintPlace max p ++ '}' :: rest)) = _
    rw [hstart]
  have hitem : readItem false rest = some ⟨false,1,1,rest⟩ := by
    obtain rfl | ⟨cs,rfl⟩ := hrest
    · rfl
    · rfl
  rw [htext] at hopen
  unfold parseOnePlace
  simp only [htext, hopen, parseBraces_runs hmax hne hrs, Bool.and_false, Bool.false_eq_true, if_false, hitem, hcpus]
  cases places with
  | none => rfl
  | some s => rfl

/-! ## The whole value -/

/-- Places that can be displayed and read back: not empty, of CPUs that the sets have bits for. -/
def Displayable (max : ℕ) (places : List (Finset ℕ)) : Prop := ∀ p ∈ places, p.Nonempty ∧ ∀ i ∈ p, i < max

/-- The value after its first place. -/
theorem displayPlaces_cons (max : ℕ) (p : Finset ℕ) (places : List (Finset ℕ)) :
    displayPlaces max (p :: places) = '{' :: affinityPrintPlace max p ++ '}' ::
      (if places = [] then [] else ',' :: displayPlaces max places) := by
  cases places with
  | nil => rfl
  | cons q places => simp [displayPlaces]

theorem displayPlaces_rest (max : ℕ) (places : List (Finset ℕ)) :
    (if places = [] then [] else ',' :: displayPlaces max places) = [] ∨
      ∃ cs, (if places = [] then [] else ',' :: displayPlaces max places) = ',' :: cs := by
  split
  · exact Or.inl rfl
  · exact Or.inr ⟨_,rfl⟩

/-- The first pass counts the places. -/
theorem countPlaces_display {max : ℕ} (hmax : max < 2 ^ 64) {places : List (Finset ℕ)} (hne : places ≠ [])
    (h : Displayable max places) {counted : ℕ} (hle : counted + places.length ≤ 65536) :
    (countPlaces max false counted (displayPlaces max places)).count = some (counted + places.length) := by
  induction places generalizing counted with
  | nil => exact absurd rfl hne
  | cons p places ih =>
    obtain ⟨hp,hlt⟩ := h p List.mem_cons_self
    have hread := parseOnePlace_place hmax hp hlt (displayPlaces_rest max places) none
    rw [List.length_cons] at hle ⊢
    rw [countPlaces_eq, displayPlaces_cons, hread]
    have hitem : countItem false counted ⟨false,1,1,if places = [] then [] else ',' :: displayPlaces max places⟩ =
        counted + 1 := rfl
    simp only [hitem]
    rw [if_neg (by omega)]
    by_cases hlast : places = []
    · simp [hlast]
    · have hnext := ih hlast (fun q hq => h q (List.mem_cons_of_mem _ hq))
        (show counted + 1 + places.length ≤ 65536 by omega)
      simp only [if_neg hlast, if_true, Bool.or_false, hnext]
      congr 1
      omega

/-- The places that have been read are in the first slots. -/
structure Filling (count : ℕ) (done : List (Finset ℕ)) (s : Slots) : Prop where
  list : s.list = List.range count
  len : s.len = done.length
  sets : ∀ k, (hk : k < done.length) → s.sets k = done[k]

theorem Filling.entry {count : ℕ} {done : List (Finset ℕ)} {s : Slots} (h : Filling count done s) {k : ℕ}
    (hk : k < count) : s.entry k = k := by
  unfold Slots.entry
  rw [h.list, List.getD_eq_getElem _ _ (by simpa using hk), List.getElem_range]

/-- The second pass makes the places. -/
theorem fillPlaces_display {max count : ℕ} (hmax : max < 2 ^ 64) {places done : List (Finset ℕ)} (hne : places ≠ [])
    (h : Displayable max places) {s : Slots} (hs : Filling count done s) (hcount : done.length + places.length = count) :
    (fillPlaces max s (displayPlaces max places)).ok = true ∧
      Filling count (done ++ places) (fillPlaces max s (displayPlaces max places)).slots := by
  induction places generalizing done s with
  | nil => exact absurd rfl hne
  | cons p places ih =>
    obtain ⟨hp,hlt⟩ := h p List.mem_cons_self
    rw [List.length_cons] at hcount
    have hread := parseOnePlace_place hmax hp hlt (displayPlaces_rest max places) (some s.initPlace)
    have hentry : s.entry s.len = s.len := hs.entry (by rw [hs.len]; omega)
    have hentry' : s.initPlace.entry s.initPlace.len = s.len := hentry
    rw [fillPlaces_eq, displayPlaces_cons, hread]
    simp only [Option.map_some, Option.getD_some, placeItem, Bool.false_eq_true, if_false, if_true, hentry']
    have hnext : Filling count (done ++ [p]) { (s.initPlace.use s.initPlace.len).setPlace s.len
        (s.initPlace.sets s.len ∪ p) with len := s.len + 1 } := by
      refine ⟨hs.list,?_,fun k hk => ?_⟩
      · rw [List.length_append, hs.len]
        rfl
      · rw [List.length_append, List.length_singleton] at hk
        simp only [Slots.setPlace, Slots.use, Slots.initPlace, hentry]
        by_cases hlast : k = s.len
        · subst hlast
          simp [hs.len]
        · rw [Function.update_of_ne hlast, Function.update_of_ne hlast]
          have hklt : k < done.length := by
            have := hs.len
            omega
          rw [hs.sets k hklt, List.getElem_append_left hklt]
    by_cases hlast : places = []
    · simp only [if_pos hlast, true_and]
      rw [hlast]
      exact hnext
    · simp only [if_neg hlast]
      have hmore := ih hlast (fun q hq => h q (List.mem_cons_of_mem _ hq)) hnext (by simp; omega)
      rw [List.append_assoc] at hmore
      exact hmore

/-- The places have nothing but CPUs of the process, so that all of them stay. -/
theorem finalizeLoop_display {cpus : Finset ℕ} {count : ℕ} {places : List (Finset ℕ)} (hlen : places.length = count)
    (hp : ∀ p ∈ places, p.Nonempty ∧ p ⊆ cpus) (n : ℕ) {i : ℕ} {s : Slots} (hs : Filling count places s)
    (hi : i + n = count) :
    (finalizeLoop cpus n i i s).1 = count ∧ Filling count places (finalizeLoop cpus n i i s).2 := by
  induction n generalizing i s with
  | zero => exact ⟨hi,hs⟩
  | succ n ih =>
    have hlt : i < places.length := by omega
    obtain ⟨hne,hsub⟩ := hp _ (List.getElem_mem hlt)
    have hentry := hs.entry (show i < count by omega)
    have hset : s.sets i = places[i] := hs.sets i hlt
    have hinter : places[i] ∩ cpus = places[i] := Finset.inter_eq_left.mpr hsub
    have hsame : s.setPlace i places[i] = s := by
      rw [← hset, Slots.setPlace, Function.update_eq_self]
    have hlist : s.list.set i i = s.list := by
      rw [hs.list]
      refine List.ext_getElem (List.length_set ..) fun k hk hk' => ?_
      rw [List.getElem_set, List.getElem_range]
      split <;> omega
    rw [finalizeLoop]
    simp only [hentry, hset, hinter, hsame]
    rw [if_pos hne.ne_empty, hlist]
    exact ih hs (by omega)

/-- The places that `parse_places_var` leaves. -/
def Outcome.places (cpus : Finset ℕ) (o : Outcome) : Option (List (Finset ℕ)) :=
  o.filled.bind fun f => (finalizePlaceList cpus f.slots).map fun s => (s.list.take s.len).map s.sets

/-- The displayed value is accepted again, with the same places in the same order. -/
theorem displayed_places_read_back (max : ℕ) (hmax : max < 2 ^ 64) (cpus : Finset ℕ) (places : List (Finset ℕ))
    (hne : places ≠ []) (h : Displayable max places) (hcpus : ∀ p ∈ places, p ⊆ cpus) (hlen : places.length ≤ 65536)
    (alloc : ℕ → Option (ℕ → Finset ℕ)) (sets : ℕ → Finset ℕ) (halloc : alloc places.length = some sets) :
    let o := parsePlacesVar max cpus false alloc (displayPlaces max places)
    o.ret = true ∧ o.len = places.length ∧ o.places cpus = some places := by
  intro o
  have hpos : places.length ≠ 0 := by simpa using hne
  have hopen : skipSpace (displayPlaces max places) = displayPlaces max places ∧ displayPlaces max places ≠ [] := by
    obtain ⟨p,rest,rfl⟩ := List.exists_cons_of_ne_nil hne
    rw [displayPlaces_cons]
    exact ⟨rfl,by simp⟩
  have hcount := countPlaces_display hmax hne h (show 0 + places.length ≤ 65536 by omega)
  rw [Nat.zero_add] at hcount
  have hstart : Filling places.length [] ⟨List.range places.length,sets,0,[]⟩ := ⟨rfl,rfl,fun k hk => by simp at hk⟩
  obtain ⟨hok,hfill⟩ := fillPlaces_display hmax hne h hstart (by simp)
  rw [List.nil_append] at hfill
  obtain ⟨hall,hfinal⟩ := finalizeLoop_display rfl (fun p hp => ⟨(h p hp).1,hcpus p hp⟩) places.length hfill (Nat.zero_add _)
  set f := fillPlaces max ⟨List.range places.length,sets,0,[]⟩ (displayPlaces max places) with hf
  have hlist : finalizePlaceList cpus f.slots =
      some { (finalizeLoop cpus places.length 0 0 f.slots).2 with len := places.length } := by
    unfold finalizePlaceList
    simp only [hfill.len, hall]
    rw [if_neg hpos]
  have ho : o = ⟨true,false,some (finalizeLoop cpus places.length 0 0 f.slots).2.list,places.length,
      countPlaces max false 0 (displayPlaces max places),some f⟩ := by
    change parsePlacesVar max cpus false alloc (displayPlaces max places) = _
    simp only [parsePlacesVar, hopen.1, if_neg hopen.2, hcount, halloc, Bool.false_eq_true, if_false, ← hf, hok, hfill.len]
    rw [if_pos ⟨trivial,hpos⟩, hlist]
  rw [ho]
  refine ⟨rfl,rfl,?_⟩
  simp only [Outcome.places, Option.bind_some, hlist, Option.map_some, hfinal.list]
  rw [Option.some.injEq]
  refine List.ext_getElem (by simp) fun k hk hk' => ?_
  simp only [List.getElem_map, List.getElem_take, List.getElem_range]
  exact hfinal.sets k hk'

/-- Three neighbouring CPUs and one more. -/
def twoPlaces : List (Finset ℕ) := [{0,1,2},{5}]

theorem displayed_places_read_back_twoPlaces :
    displayPlaces 8 twoPlaces = "{0:3},{5}".toList ∧
      let o := parsePlacesVar 8 (Finset.range 8) false (fun _ => some fun _ => ∅) (displayPlaces 8 twoPlaces)
      o.ret = true ∧ o.len = twoPlaces.length ∧ o.places (Finset.range 8) = some twoPlaces :=
  ⟨by decide,displayed_places_read_back 8 (by decide) (Finset.range 8) twoPlaces (by simp [twoPlaces])
    (by simp [Displayable, twoPlaces]) (by decide) (by simp [twoPlaces]) _ _ rfl⟩

/-! ## What is accepted -/

section Accepted
variable {max count : ℕ} {cpus : Finset ℕ}

theorem countPlaces_bound (env : List Char) : ∀ {anyNegate : Bool} {counted : ℕ},
    (countPlaces max anyNegate counted env).count = some count → count ≤ 65536 := by
  induction hn : env.length using Nat.strong_induction_on generalizing env with
  | _ len ih =>
    intro anyNegate counted h
    subst hn
    obtain ⟨item,hitem,hcase⟩ := countPlaces_some h
    rw [countPlaces_eq, hitem] at h
    dsimp only at h
    split at h
    case isTrue => cases h
    case isFalse hle =>
      obtain ⟨-,hcount,-⟩ | ⟨rest,hrest,hnext,-⟩ := hcase
      · omega
      · have hshort := (parseOnePlace_spec hitem).2
        rw [hrest, List.length_cons] at hshort
        exact ih rest.length (by omega) rest rfl hnext

/-- A second pass that ends well has no more places than were counted. -/
theorem fillPlaces_room (env : List Char) : ∀ {anyNegate : Bool} {counted : ℕ} {s : Slots},
    (countPlaces max anyNegate counted env).count = some count → s.Sound count → s.len + anyNegate.toNat ≤ counted →
    (fillPlaces max s env).ok = true → (fillPlaces max s env).slots.len ≤ count := by
  induction hn : env.length using Nat.strong_induction_on generalizing env with
  | _ len ih =>
    intro anyNegate counted s h hs hroom hok
    subst hn
    obtain ⟨item,hitem,hcase⟩ := countPlaces_some h
    obtain ⟨hpos,hshort⟩ := parseOnePlace_spec hitem
    have hcount : countItem anyNegate counted item ≤ count := by
      obtain ⟨-,hlast,-⟩ | ⟨rest,-,hnext,-⟩ := hcase
      · exact hlast.ge
      · exact countPlaces_le rest hnext
    obtain ⟨hneg,hadd⟩ := countItem_room item hroom
    have hlt : s.len < count := by
      cases hnegate : item.negate with
      | false =>
        have := hadd hnegate
        omega
      | true =>
        have := hneg hnegate
        omega
    have hcleared : s.initPlace.Sound count := ⟨hs.list,(hs.use hlt).used⟩
    have hinit : (s.initPlace.use s.initPlace.len).Sound count := hcleared.use hlt
    obtain ⟨⟨t,ht,hsame⟩,hagree⟩ := @parseOnePlace_listed max s.initPlace env
    have htlen : t.len = s.len := hsame.len
    rw [fillPlaces_eq, ht, Option.getD_some] at hok ⊢
    cases hread : (parseOnePlace max (some s.initPlace) env).item with
    | none =>
      rw [hread] at hok
      cases hok
    | some item' =>
      obtain rfl : item' = item := Option.some.inj ((hagree item' hread).symm.trans hitem)
      obtain ⟨hrsound,hr⟩ := @placeItem_sound max count t item' (hinit.same hsame) (htlen ▸ hlt) hpos
        fun hnegate => by have := hadd hnegate; omega
      rw [hread] at hok
      dsimp only at hok ⊢
      split at hok
      case isFalse => cases hok
      case isTrue hplaced =>
        obtain ⟨hrneg,hradd⟩ := hr hplaced
        have hrroom : (placeItem max item' t).2.len + (anyNegate || item'.negate).toNat ≤
            countItem anyNegate counted item' := by
          cases hnegate : item'.negate with
          | false =>
            have := hadd hnegate
            have := hradd hnegate
            rw [Bool.or_false]
            omega
          | true =>
            have := hneg hnegate
            have := hrneg hnegate
            rw [Bool.or_true, Bool.toNat_true]
            omega
        rw [if_pos hplaced]
        obtain ⟨hend,-,-⟩ | ⟨rest,hend,hnext,-⟩ := hcase
        · rw [hend]
          dsimp only
          omega
        · rw [hend] at hok hshort ⊢
          rw [List.length_cons] at hshort
          exact ih rest.length (by omega) rest rfl hnext hrsound hrroom hok

/-- The places with a CPU of the process, in their order. -/
def keptPlaces (cpus : Finset ℕ) (s : Slots) (entries : List ℕ) : List (Finset ℕ) :=
  (entries.map fun p => s.sets p ∩ cpus).filter (· ≠ ∅)

/-- The loop moves the places with a CPU of the process to the front in their order. -/
theorem finalizeLoop_kept (n : ℕ) {i j : ℕ} {s : Slots} (hji : j ≤ i) (hlen : i + n ≤ s.list.length)
    (hdone : ∀ p ∈ s.list.take j, s.sets p ⊆ cpus) :
    (finalizeLoop cpus n i j s).1 ≤ j + n ∧ (finalizeLoop cpus n i j s).2.list.length = s.list.length ∧
      ((finalizeLoop cpus n i j s).2.list.take (finalizeLoop cpus n i j s).1).map (finalizeLoop cpus n i j s).2.sets =
        (s.list.take j).map s.sets ++ keptPlaces cpus s ((s.list.drop i).take n) := by
  induction n generalizing i j s with
  | zero => simp [finalizeLoop, keptPlaces]
  | succ n ih =>
    have hi : i < s.list.length := by omega
    have hentry : s.entry i = s.list[i] := List.getD_eq_getElem _ _ hi
    have hdrop : (s.list.drop i).take (n + 1) = s.list[i] :: (s.list.drop (i + 1)).take n := by
      rw [List.drop_eq_getElem_cons hi, List.take_succ_cons]
    -- the sets that stay are those of the process already, so that taking the others away again does nothing
    have hsame : ∀ p ∈ s.list.take j, Function.update s.sets s.list[i] (s.sets s.list[i] ∩ cpus) p = s.sets p := by
      intro p hp
      by_cases hpi : p = s.list[i]
      · subst hpi
        rw [Function.update_self, Finset.inter_eq_left.mpr (hdone _ hp)]
      · rw [Function.update_of_ne hpi]
    have hinter : ∀ p, Function.update s.sets s.list[i] (s.sets s.list[i] ∩ cpus) p ∩ cpus = s.sets p ∩ cpus := by
      intro p
      by_cases hpi : p = s.list[i]
      · subst hpi
        rw [Function.update_self, Finset.inter_assoc, Finset.inter_self]
      · rw [Function.update_of_ne hpi]
    rw [finalizeLoop]
    simp only [hentry, Slots.setPlace, Function.update_self]
    split
    case isTrue hkeep =>
      have htake : (s.list.set j s.list[i]).take (j + 1) = s.list.take j ++ [s.list[i]] := by
        rw [List.take_succ_eq_append_getElem (by simpa using hji.trans_lt hi), List.take_set_of_le le_rfl,
          List.getElem_set_self]
      obtain ⟨hle,hlength,hmap⟩ := @ih (i + 1) (j + 1) { s with
        list := s.list.set j s.list[i]
        sets := Function.update s.sets s.list[i] (s.sets s.list[i] ∩ cpus) } (by omega)
        (by simp only [List.length_set]; omega) (by
          dsimp only
          rw [htake]
          intro p hp
          obtain hp | hp := List.mem_append.mp hp
          · rw [hsame p hp]
            exact hdone p hp
          · rw [List.mem_singleton.mp hp, Function.update_self]
            exact Finset.inter_subset_right)
      refine ⟨by omega,by rw [hlength]; exact List.length_set,?_⟩
      rw [hmap]
      dsimp only
      rw [htake, List.map_append, List.map_congr_left hsame, List.drop_set_of_lt (by omega), hdrop]
      simp only [keptPlaces, hinter, List.map_cons, List.map_nil, Function.update_self]
      rw [List.filter_cons_of_pos (by simpa using hkeep), List.append_assoc]
      rfl
    case isFalse hdropped =>
      obtain ⟨hle,hlength,hmap⟩ := @ih (i + 1) j { s with
        sets := Function.update s.sets s.list[i] (s.sets s.list[i] ∩ cpus) } (by omega) (by dsimp only; omega)
        (fun p hp => by
          dsimp only at hp ⊢
          rw [hsame p hp]
          exact hdone p hp)
      refine ⟨by omega,hlength,?_⟩
      rw [hmap, hdrop]
      dsimp only
      rw [List.map_congr_left hsame]
      simp only [keptPlaces, hinter, List.map_cons]
      rw [List.filter_cons_of_neg (by simpa using hdropped)]

theorem keptPlaces_mem {s : Slots} {entries : List ℕ} {p : Finset ℕ} (hp : p ∈ keptPlaces cpus s entries) :
    p.Nonempty ∧ p ⊆ cpus := by
  obtain ⟨hmem,hne⟩ := List.mem_filter.mp hp
  obtain ⟨q,-,rfl⟩ := List.mem_map.mp hmem
  exact ⟨Finset.nonempty_iff_ne_empty.mpr (by simpa using hne),Finset.inter_subset_right⟩

theorem keptPlaces_length (cpus : Finset ℕ) (s : Slots) (entries : List ℕ) :
    (keptPlaces cpus s entries).length ≤ entries.length :=
  (List.length_filter_le _ _).trans_eq (List.length_map _)

theorem finalizePlaceList_kept {s : Slots} (hlen : s.len ≤ s.list.length) :
    (keptPlaces cpus s (s.list.take s.len) = [] → finalizePlaceList cpus s = none) ∧
      (keptPlaces cpus s (s.list.take s.len) ≠ [] → ∃ t, finalizePlaceList cpus s = some t ∧
        t.len = (keptPlaces cpus s (s.list.take s.len)).length ∧
        (t.list.take t.len).map t.sets = keptPlaces cpus s (s.list.take s.len)) := by
  obtain ⟨hle,hlength,hmap⟩ := @finalizeLoop_kept cpus s.len 0 0 s le_rfl (by omega) (by simp)
  rw [List.take_zero, List.map_nil, List.nil_append, List.drop_zero] at hmap
  have hcount : (finalizeLoop cpus s.len 0 0 s).1 = (keptPlaces cpus s (s.list.take s.len)).length := by
    rw [← hmap, List.length_map, List.length_take, hlength]
    omega
  unfold finalizePlaceList
  refine ⟨fun hnil => ?_,fun hne => ?_⟩
  · exact if_pos (by rw [hcount, hnil]; rfl)
  · refine ⟨_,if_neg ?_,hcount,hmap⟩
    rw [hcount]
    simpa using hne

/-- The level a value begins with, in either case of its letters, and what is behind its name. -/
def readLevel (env : List Char) : Option (Level × List Char) :=
  let lower := env.map Char.toLower
  if "threads".toList.isPrefixOf lower then some (.threads,env.drop 7)
  else if "cores".toList.isPrefixOf lower then some (.cores,env.drop 5)
  else if "sockets".toList.isPrefixOf lower then some (.sockets,env.drop 7)
  else none

/-- The number of places behind the name of a level, none where it is not well formed. -/
def readCount (env : List Char) : Option ℕ :=
  match skipSpace env with
  | [] => some (2 ^ 64 - 1)
  | c :: cs =>
    if c ≠ '(' then none
    else
      let n := strtoulTen (skipSpace cs)
      if n.erange then none
      else
        match skipSpace n.rest with
        | [] => none
        | c :: cs => if c = ')' ∧ skipSpace cs = [] then some n.value else none

/-- What a value comes to. -/
inductive PlacesVar
  | invalid
  | ignored
  | level (r : TopologyPlaces.Result)
  | list (o : Outcome)

/-- `parse_places_var`; `initLevel` is `gomp_affinity_init_level`. -/
def parsePlaces (max : ℕ) (cpus : Finset ℕ) (ignore : Bool) (initLevel : Level → ℕ → TopologyPlaces.Result)
    (alloc : ℕ → Option (ℕ → Finset ℕ)) (value : List Char) : PlacesVar :=
  match readLevel (skipSpace value) with
  | none => .list (parsePlacesVar max cpus ignore alloc value)
  | some (level,env) =>
    match readCount env with
    | none => .invalid
    | some count => if ignore then .ignored else .level (initLevel level count)

/-- No list is left when a value is refused, in either pass or because there is no room for the list, and a value
that never comes to the second pass is refused. -/
theorem parsePlacesVar_refused {ignore : Bool} {alloc : ℕ → Option (ℕ → Finset ℕ)} {value : List Char} :
    let o := parsePlacesVar max cpus ignore alloc value
    (o.ret = false → o.list = none ∧ o.len = 0) ∧ (o.filled = none → o.ret = false) := by
  simp only [parsePlacesVar]
  split
  case h_1 => exact ⟨fun _ => ⟨rfl,rfl⟩,fun _ => rfl⟩
  case h_2 =>
    split
    case isTrue => exact ⟨fun _ => ⟨rfl,rfl⟩,fun _ => rfl⟩
    case isFalse =>
      split
      case h_1 => exact ⟨fun _ => ⟨rfl,rfl⟩,fun _ => rfl⟩
      case h_2 =>
        split
        case isFalse => exact ⟨fun _ => ⟨rfl,rfl⟩,fun h => by cases h⟩
        case isTrue =>
          split
          case h_1 => exact ⟨fun _ => ⟨rfl,rfl⟩,fun h => by cases h⟩
          case h_2 => exact ⟨fun h => (by cases h),fun h => by cases h⟩

/-- The second pass decides the outcome, and it fills at most the slots that were counted. -/
theorem parsePlacesVar_filled {alloc : ℕ → Option (ℕ → Finset ℕ)} {value : List Char} {f : Filled}
    (hf : (parsePlacesVar max cpus false alloc value).filled = some f) :
    f.slots.list.length ≤ 65536 ∧ (f.ok = true → f.slots.len ≤ f.slots.list.length) ∧
      ∃ counted, parsePlacesVar max cpus false alloc value =
        if f.ok ∧ f.slots.len ≠ 0 then
          match finalizePlaceList cpus f.slots with
          | none => ⟨false,true,none,0,counted,some f⟩
          | some s => ⟨true,false,some s.list,s.len,counted,some f⟩
        else ⟨false,true,none,0,counted,some f⟩ := by
  set env := skipSpace value with henv
  set counted : Counted := if env = [] then ⟨none,[]⟩ else countPlaces max false 0 env with hcounted
  simp only [parsePlacesVar, ← henv, ← hcounted, Bool.false_eq_true, if_false] at hf ⊢
  cases hcount : counted.count with
  | none =>
    rw [hcount] at hf
    cases hf
  | some count =>
    have hne : env ≠ [] := by
      intro hempty
      simp [hcounted, hempty] at hcount
    rw [if_neg hne] at hcounted
    rw [hcount] at hf
    dsimp only at hf ⊢
    cases hsets : alloc count with
    | none =>
      rw [hsets] at hf
      cases hf
    | some sets =>
      rw [hsets] at hf
      dsimp only at hf ⊢
      obtain rfl : fillPlaces max ⟨List.range count,sets,0,[]⟩ env = f := by
        split at hf
        · split at hf <;> exact Option.some.inj hf
        · exact Option.some.inj hf
      rw [hcounted] at hcount
      have hstart : (⟨List.range count,sets,0,[]⟩ : Slots).Sound count :=
        ⟨List.Perm.refl _,fun k hk => absurd hk List.not_mem_nil⟩
      have hlength : (fillPlaces max ⟨List.range count,sets,0,[]⟩ env).slots.list.length = count := by
        rw [(fillPlaces_follows env hcount hstart (Nat.zero_le 0)).slots.list.length_eq, List.length_range]
      have hbound := countPlaces_bound env hcount
      refine ⟨by omega,fun hok => ?_,_,rfl⟩
      rw [hlength]
      exact fillPlaces_room env hcount hstart (Nat.zero_le 0) hok

end Accepted

/-- An explicit list is accepted when it is read to its end and a place of it has a CPU of the process; the places
are then those that have one, without the other CPUs and in their order. -/
theorem accepted_places (max : ℕ) (cpus : Finset ℕ) (initLevel : Level → ℕ → TopologyPlaces.Result)
    (alloc : ℕ → Option (ℕ → Finset ℕ)) (value : List Char) (hlist : readLevel (skipSpace value) = none) :
    let o := parsePlacesVar max cpus false alloc value
    parsePlaces max cpus false initLevel alloc value = .list o ∧ (o.ret = false → o.list = none ∧ o.len = 0) ∧
      (o.filled = none → o.ret = false) ∧
      ∀ f ∈ o.filled, let kept := keptPlaces cpus f.slots (f.slots.list.take f.slots.len)
        (o.ret = true ↔ f.ok = true ∧ kept ≠ []) ∧
          (o.ret = true → o.places cpus = some kept ∧ o.len = kept.length ∧ kept.length ≤ 65536 ∧
            ∀ p ∈ kept, p.Nonempty ∧ p ⊆ cpus) := by
  intro o
  refine ⟨by rw [parsePlaces, hlist],parsePlacesVar_refused.1,parsePlacesVar_refused.2,fun f hf => ?_⟩
  obtain ⟨hbound,hroom,counted,ho⟩ := parsePlacesVar_filled hf
  change o = _ at ho
  by_cases hok : f.ok = true
  · obtain ⟨hnone,hsome⟩ := @finalizePlaceList_kept cpus f.slots (hroom hok)
    by_cases hkept : keptPlaces cpus f.slots (f.slots.list.take f.slots.len) = []
    · have hret : o.ret = false := by
        rw [ho, hnone hkept]
        split <;> rfl
      rw [hret]
      exact ⟨by simp [hkept],fun h => by cases h⟩
    · obtain ⟨t,ht,htlen,hmap⟩ := hsome hkept
      have hpos : f.slots.len ≠ 0 := by
        intro hzero
        rw [hzero] at hkept
        exact hkept rfl
      rw [if_pos ⟨hok,hpos⟩, ht] at ho
      rw [ho]
      refine ⟨by simp [hok, hkept],fun _ => ⟨?_,htlen,?_,fun p hp => keptPlaces_mem hp⟩⟩
      · simp only [Outcome.places, Option.bind_some, ht, Option.map_some, hmap]
      · have hshort := keptPlaces_length cpus f.slots (f.slots.list.take f.slots.len)
        rw [List.length_take] at hshort
        omega
  · rw [if_neg (fun h => hok h.1)] at ho
    rw [ho]
    exact ⟨by simp [hok],fun h => by cases h⟩

/-- The second place has no CPU of the process. -/
theorem accepted_places_twoPlaces :
    let o := parsePlacesVar 8 (Finset.range 4) false (fun _ => some fun _ => ∅) "{0:3},{5}".toList
    parsePlaces 8 (Finset.range 4) false (fun _ _ => ⟨false,none,0,[]⟩) (fun _ => some fun _ => ∅) "{0:3},{5}".toList =
        .list o ∧ (o.ret = false → o.list = none ∧ o.len = 0) ∧ o.ret = true ∧ o.places (Finset.range 4) = some [{0,1,2}] :=
  have h := accepted_places 8 (Finset.range 4) (fun _ _ => ⟨false,none,0,[]⟩) (fun _ => some fun _ => ∅)
    "{0:3},{5}".toList (by decide)
  ⟨h.1,h.2.1,by decide +kernel⟩

end GompUlt.PlaceList
