import Mathlib

/-! # Copies of a box between two arrays

The worker of omp_target_memcpy_rect goes down one dimension at a time and copies the innermost rows.  An
address is a 64-bit word and pointer arithmetic is that of words; the memory that is read is another one than
the memory that is written.
-/
namespace GompUlt.RectCopy

abbrev Addr := BitVec 64

/-- One dimension of both arrays and of the box. -/
structure Dim where
  volume : ℕ
  dstOffset : ℕ
  srcOffset : ℕ
  dstDimension : ℕ
  srcDimension : ℕ

def einval : ℤ := 22

theorem einval_ne_zero : einval ≠ 0 := by decide

/-- `__builtin_mul_overflow` on `size_t`, none when it overflows. -/
def mulOverflow (a b : ℕ) : Option ℕ := if a * b < 2 ^ 64 then some (a * b) else none

variable {β : Type*}

/-- The copy functions of the devices, each with its answer and the memory it leaves. -/
structure Funcs (β : Type*) where
  host2dev : Addr → Addr → ℕ → (Addr → β) → Bool × (Addr → β)
  dev2host : Addr → Addr → ℕ → (Addr → β) → Bool × (Addr → β)
  dev2dev : Addr → Addr → ℕ → (Addr → β) → Bool × (Addr → β)

/-- The memory after `length` bytes have been copied. -/
def memcpy (source : Addr → β) (dst src : Addr) (length : ℕ) (mem : Addr → β) : Addr → β :=
  fun a => if (a - dst).toNat < length then source (src + (a - dst)) else mem a

/-- The device functions copy exactly the bytes they are asked for, when they succeed. -/
structure Funcs.Exact (F : Funcs β) (source : Addr → β) : Prop where
  host2dev : ∀ dst src length mem, (F.host2dev dst src length mem).1 = true →
    (F.host2dev dst src length mem).2 = memcpy source dst src length mem
  dev2host : ∀ dst src length mem, (F.dev2host dst src length mem).1 = true →
    (F.dev2host dst src length mem).2 = memcpy source dst src length mem
  dev2dev : ∀ dst src length mem, (F.dev2dev dst src length mem).1 = true →
    (F.dev2dev dst src length mem).2 = memcpy source dst src length mem

/-- Whose memories the two arrays are in; none is the host. -/
structure Devices where
  dst : Option ℕ
  src : Option ℕ

section Worker
variable (F : Funcs β) (source : Addr → β) (D : Devices) (elementSize : ℕ)

def copyRow (dst src : Addr) (length : ℕ) (mem : Addr → β) : Bool × (Addr → β) :=
  match D.dst,D.src with
  | none,none => (true,memcpy source dst src length mem)
  | some _,none => F.host2dev dst src length mem
  | none,some _ => F.dev2host dst src length mem
  | some d,some s => if s = d then F.dev2dev dst src length mem else (false,mem)

/-- The products of the inner dimensions, for the two arrays in turn. -/
def slices : List Dim → ℕ → ℕ → Option (ℕ × ℕ)
  | [], dstSlice, srcSlice => some (dstSlice,srcSlice)
  | d :: dims, dstSlice, srcSlice =>
    (mulOverflow dstSlice d.dstDimension).bind fun dstSlice =>
      (mulOverflow srcSlice d.srcDimension).bind fun srcSlice => slices dims dstSlice srcSlice

/-- The loop over the outermost dimension: what is left of it, and the running offsets. -/
def rows (body : Addr → Addr → (Addr → β) → ℤ × (Addr → β)) (dst src : Addr) (dstSlice srcSlice : ℕ) :
    ℕ → ℕ → ℕ → (Addr → β) → ℤ × (Addr → β)
  | 0, _, _, mem => (0,mem)
  | n + 1, dstOff, srcOff, mem =>
    let r := body (dst + BitVec.ofNat 64 dstOff) (src + BitVec.ofNat 64 srcOff) mem
    if r.1 ≠ 0 then r
    else rows body dst src dstSlice srcSlice n ((dstOff + dstSlice) % 2 ^ 64) ((srcOff + srcSlice) % 2 ^ 64) r.2

/-- `omp_target_memcpy_rect_worker`: its result and the memory it leaves.  It is called with at least one
dimension. -/
def worker : List Dim → Addr → Addr → (Addr → β) → ℤ × (Addr → β)
  | [], _, _, mem => (0,mem)
  | [d], dst, src, mem =>
    match mulOverflow elementSize d.volume,mulOverflow elementSize d.dstOffset,mulOverflow elementSize d.srcOffset with
    | some length,some dstOff,some srcOff =>
      let r := copyRow F source D (dst + BitVec.ofNat 64 dstOff) (src + BitVec.ofNat 64 srcOff) length mem
      (if r.1 then 0 else einval,r.2)
    | _,_,_ => (einval,mem)
  | d :: d' :: dims, dst, src, mem =>
    match slices (d' :: dims) elementSize elementSize with
    | none => (einval,mem)
    | some (dstSlice,srcSlice) =>
      match mulOverflow dstSlice d.dstOffset,mulOverflow srcSlice d.srcOffset with
      | some dstOff,some srcOff => rows (worker (d' :: dims)) dst src dstSlice srcSlice d.volume dstOff srcOff mem
      | _,_ => (einval,mem)

end Worker

def stride (dimension : Dim → ℕ) (dims : List Dim) : ℕ := (dims.map dimension).prod

/-- The position of the element with the given index in the box, in row-major order. -/
def position (offset dimension : Dim → ℕ) : List Dim → List ℕ → ℕ
  | d :: dims, x :: v => (offset d + x) * stride dimension dims + position offset dimension dims v
  | _, _ => 0

/-- The indices of the box. -/
def InVolume (dims : List Dim) (v : List ℕ) : Prop := List.Forall₂ (fun d x => x < d.volume) dims v

/-- The address of a byte of an element. -/
def byteAt (offset dimension : Dim → ℕ) (elementSize : ℕ) (dims : List Dim) (base : Addr) (v : List ℕ) (k : ℕ) : Addr :=
  base + BitVec.ofNat 64 (elementSize * position offset dimension dims v + k)

abbrev dstByte := byteAt Dim.dstOffset Dim.dstDimension

abbrev srcByte := byteAt Dim.srcOffset Dim.srcDimension

/-- No two elements of the box share a byte of the array that is written. -/
def Apart (elementSize : ℕ) (dims : List Dim) (dst : Addr) : Prop :=
  ∀ v w k l, InVolume dims v → InVolume dims w → k < elementSize → l < elementSize →
    dstByte elementSize dims dst v k = dstByte elementSize dims dst w l → v = w ∧ k = l

/-- The products of the inner dimensions and the offset fit, one factor after the other. -/
def SlicesFit (elementSize : ℕ) (d : Dim) (dims : List Dim) : Prop :=
  (∀ l, l <+: dims → elementSize * stride Dim.dstDimension l < 2 ^ 64 ∧ elementSize * stride Dim.srcDimension l < 2 ^ 64) ∧
    elementSize * stride Dim.dstDimension dims * d.dstOffset < 2 ^ 64 ∧
    elementSize * stride Dim.srcDimension dims * d.srcOffset < 2 ^ 64

/-- The products that the worker computes do not overflow; those of the inner levels only matter when it gets
there. -/
def ProductsFit (elementSize : ℕ) : List Dim → Prop
  | [] => True
  | [d] => elementSize * d.volume < 2 ^ 64 ∧ elementSize * d.dstOffset < 2 ^ 64 ∧ elementSize * d.srcOffset < 2 ^ 64
  | d :: d' :: dims => SlicesFit elementSize d (d' :: dims) ∧ (d.volume ≠ 0 → ProductsFit elementSize (d' :: dims))

/-- What the copy leaves at an address: the byte of an element of the box that has this address, or the old one
where no element has it. -/
def Copied (source : Addr → β) (elementSize : ℕ) (dims : List Dim) (dst src : Addr) (mem mem' : Addr → β) : Prop :=
  ∀ a, (∃ v k, InVolume dims v ∧ k < elementSize ∧ a = dstByte elementSize dims dst v k ∧
      mem' a = source (srcByte elementSize dims src v k)) ∨
    (∀ v k, InVolume dims v → k < elementSize → a ≠ dstByte elementSize dims dst v k) ∧ mem' a = mem a

section Proofs
variable {F : Funcs β} {source : Addr → β} {D : Devices} {elementSize : ℕ} {mem : Addr → β}

theorem mulOverflow_eq_some {a b c : ℕ} : mulOverflow a b = some c ↔ a * b < 2 ^ 64 ∧ c = a * b := by
  unfold mulOverflow
  split <;> simp_all [eq_comm]

/-- A row that is copied at all is copied exactly. -/
theorem copyRow_spec (hF : F.Exact source) {dst src : Addr} {length : ℕ}
    (h : (copyRow F source D dst src length mem).1 = true) :
    (copyRow F source D dst src length mem).2 = memcpy source dst src length mem := by
  unfold copyRow at h ⊢
  split at h
  · rfl
  · exact hF.host2dev _ _ _ _ h
  · exact hF.dev2host _ _ _ _ h
  · split at h
    · rename_i hd
      rw [if_pos hd]
      exact hF.dev2dev _ _ _ _ h
    · cases h

theorem mul_stride_cons {f : Dim → ℕ} {c : ℕ} {d : Dim} {l : List Dim} :
    c * f d * stride f l = c * stride f (d :: l) := by
  simp [stride, mul_assoc]

/-- The slices are the products, and all partial products fit. -/
theorem slices_eq_some {dims : List Dim} {a b : ℕ} {r : ℕ × ℕ} (ha : a < 2 ^ 64) (hb : b < 2 ^ 64) :
    slices dims a b = some r ↔ r = (a * stride Dim.dstDimension dims,b * stride Dim.srcDimension dims) ∧
      ∀ l, l <+: dims → a * stride Dim.dstDimension l < 2 ^ 64 ∧ b * stride Dim.srcDimension l < 2 ^ 64 := by
  induction dims generalizing a b with
  | nil =>
    simp only [slices, stride, Option.some.injEq, List.prefix_nil, List.map_nil, List.prod_nil, mul_one,
      forall_eq, eq_comm]
    exact ⟨fun h => ⟨h,ha,hb⟩,fun h => h.1⟩
  | cons d dims ih =>
    simp only [slices, Option.bind_eq_some_iff, mulOverflow_eq_some, ← mul_stride_cons]
    constructor
    · rintro ⟨_,⟨h1,rfl⟩,_,⟨h2,rfl⟩,h3⟩
      obtain ⟨hr,hl⟩ := (ih h1 h2).mp h3
      refine ⟨hr,fun l hpre => ?_⟩
      cases l with
      | nil => simpa [stride] using And.intro ha hb
      | cons e l =>
        obtain ⟨rfl,hl'⟩ := List.cons_prefix_cons.mp hpre
        rw [← mul_stride_cons, ← mul_stride_cons]
        exact hl l hl'
    · rintro ⟨hr,hl⟩
      have h : a * d.dstDimension < 2 ^ 64 ∧ b * d.srcDimension < 2 ^ 64 := by
        simpa [stride] using hl [d] (by simp)
      refine ⟨_,⟨h.1,rfl⟩,_,⟨h.2,rfl⟩,(ih h.1 h.2).mpr ⟨hr,fun l hpre => ?_⟩⟩
      have hcons := hl (d :: l) (List.cons_prefix_cons.mpr ⟨rfl,hpre⟩)
      rwa [← mul_stride_cons, ← mul_stride_cons] at hcons

/-- An element of the box is an element of one of its slices. -/
theorem byteAt_cons {offset dimension : Dim → ℕ} {d : Dim} {dims : List Dim} {base : Addr} {x : ℕ} {v : List ℕ}
    {k : ℕ} :
    byteAt offset dimension elementSize (d :: dims) base (x :: v) k = byteAt offset dimension elementSize dims
      (base + BitVec.ofNat 64 (elementSize * stride dimension dims * offset d + x * (elementSize * stride dimension dims)))
      v k := by
  have hpos : elementSize * position offset dimension (d :: dims) (x :: v) + k =
      elementSize * stride dimension dims * offset d + x * (elementSize * stride dimension dims) +
        (elementSize * position offset dimension dims v + k) := by
    simp only [position]
    ring
  rw [byteAt, byteAt, hpos, BitVec.ofNat_add, BitVec.add_assoc]

theorem ofNat_mod_word (x : ℕ) : BitVec.ofNat 64 (x % 2 ^ 64) = BitVec.ofNat 64 x := by
  apply BitVec.eq_of_toNat_eq
  simp

/-- What a loop over slices leaves at an address: the byte of an element of one of the slices, or the old one. -/
def CopiedRows (source : Addr → β) (elementSize : ℕ) (dims : List Dim) (dst src : Addr) (dstSlice srcSlice n dstOff
    srcOff : ℕ) (mem mem' : Addr → β) : Prop :=
  ∀ a, (∃ i v k, i < n ∧ InVolume dims v ∧ k < elementSize ∧
      a = dstByte elementSize dims (dst + BitVec.ofNat 64 (dstOff + i * dstSlice)) v k ∧
      mem' a = source (srcByte elementSize dims (src + BitVec.ofNat 64 (srcOff + i * srcSlice)) v k)) ∨
    (∀ i v k, i < n → InVolume dims v → k < elementSize →
      a ≠ dstByte elementSize dims (dst + BitVec.ofNat 64 (dstOff + i * dstSlice)) v k) ∧ mem' a = mem a

/-- The offsets of slice `i + 1` are those of slice `i` from the next slice on. -/
theorem ofNat_next_slice (off slice i : ℕ) :
    BitVec.ofNat 64 ((off + slice) % 2 ^ 64 + i * slice) = BitVec.ofNat 64 (off + (i + 1) * slice) := by
  have h : off + (i + 1) * slice = off + slice + i * slice := by ring
  rw [h, BitVec.ofNat_add, BitVec.ofNat_add, ofNat_mod_word]

/-- The loop over the outermost dimension copies every slice, when the call for one slice does. -/
theorem rows_spec {body : Addr → Addr → (Addr → β) → ℤ × (Addr → β)} {dims : List Dim} {dst src : Addr}
    {dstSlice srcSlice : ℕ}
    (hbody : ∀ dst src mem, (body dst src mem).1 = 0 →
      Copied source elementSize dims dst src mem (body dst src mem).2 ∧ ProductsFit elementSize dims) (n : ℕ) :
    ∀ dstOff srcOff mem, (rows body dst src dstSlice srcSlice n dstOff srcOff mem).1 = 0 →
      CopiedRows source elementSize dims dst src dstSlice srcSlice n dstOff srcOff mem
        (rows body dst src dstSlice srcSlice n dstOff srcOff mem).2 ∧ (n ≠ 0 → ProductsFit elementSize dims) := by
  induction n with
  | zero =>
    intro dstOff srcOff mem _
    refine ⟨fun a => Or.inr ⟨fun i v k hi => absurd hi (Nat.not_lt_zero i),rfl⟩,fun h => absurd rfl h⟩
  | succ n ih =>
    intro dstOff srcOff mem hret
    rw [rows] at hret ⊢
    by_cases hfirst : (body (dst + BitVec.ofNat 64 dstOff) (src + BitVec.ofNat 64 srcOff) mem).1 = 0
    · simp only [hfirst, ne_eq, not_true_eq_false, if_false] at hret ⊢
      obtain ⟨hcopy,hfit⟩ := hbody _ _ _ hfirst
      obtain ⟨hrest,-⟩ := ih _ _ _ hret
      refine ⟨fun a => ?_,fun _ => hfit⟩
      -- the later slices have the last word
      rcases hrest a with ⟨i,v,k,hi,hv,hk,ha,hmem⟩ | ⟨hnone,hmem⟩
      · rw [ofNat_next_slice] at ha hmem
        exact Or.inl ⟨i + 1,v,k,Nat.succ_lt_succ hi,hv,hk,ha,hmem⟩
      · rcases hcopy a with ⟨v,k,hv,hk,ha,hfrom⟩ | ⟨hnot,hold⟩
        · refine Or.inl ⟨0,v,k,Nat.succ_pos n,hv,hk,?_,?_⟩
          · rw [zero_mul, add_zero]
            exact ha
          · rw [zero_mul, add_zero, hmem]
            exact hfrom
        · refine Or.inr ⟨fun i v k hi hv hk => ?_,hmem.trans hold⟩
          cases i with
          | zero =>
            rw [zero_mul, add_zero]
            exact hnot v k hv hk
          | succ i =>
            have hlater := hnone i v k (Nat.lt_of_succ_lt_succ hi) hv hk
            rwa [ofNat_next_slice] at hlater
    · simp only [ne_eq, hfirst, not_false_eq_true, if_true] at hret

/-- One row is the box of a single dimension. -/
theorem copied_row {d : Dim} {dst src : Addr} (hfit : elementSize * d.volume < 2 ^ 64) :
    Copied source elementSize [d] dst src mem
      (memcpy source (dst + BitVec.ofNat 64 (elementSize * d.dstOffset)) (src + BitVec.ofNat 64 (elementSize * d.srcOffset))
        (elementSize * d.volume) mem) := by
  have hbyte : ∀ (offset dimension : Dim → ℕ) (base : Addr) (x k : ℕ),
      byteAt offset dimension elementSize [d] base [x] k =
        base + BitVec.ofNat 64 (elementSize * offset d) + BitVec.ofNat 64 (elementSize * x + k) := by
    intro offset dimension base x k
    have hpos : elementSize * position offset dimension [d] [x] + k =
        elementSize * offset d + (elementSize * x + k) := by
      simp only [position, stride, List.map_nil, List.prod_nil]
      ring
    rw [byteAt, hpos, BitVec.ofNat_add, BitVec.add_assoc]
  intro a
  set start := dst + BitVec.ofNat 64 (elementSize * d.dstOffset) with hstart
  by_cases hin : (a - start).toNat < elementSize * d.volume
  · have hsize : 0 < elementSize := Nat.pos_of_mul_pos_right (by omega : 0 < elementSize * d.volume)
    have hword : BitVec.ofNat 64 (elementSize * ((a - start).toNat / elementSize) + (a - start).toNat % elementSize) =
        a - start := by
      rw [Nat.div_add_mod, BitVec.ofNat_toNat, BitVec.setWidth_eq]
    refine Or.inl ⟨[(a - start).toNat / elementSize],(a - start).toNat % elementSize,?_,Nat.mod_lt _ hsize,?_,?_⟩
    · exact List.Forall₂.cons (Nat.div_lt_of_lt_mul hin) List.Forall₂.nil
    · rw [dstByte, hbyte, hword, ← hstart, BitVec.add_comm, BitVec.sub_add_cancel]
    · rw [srcByte, hbyte, hword, memcpy, if_pos hin]
  · refine Or.inr ⟨fun v k hv hk heq => hin ?_,by rw [memcpy, if_neg hin]⟩
    cases hv with
    | cons hx hnil =>
      rename_i x v
      cases hnil
      have hlt : elementSize * x + k < elementSize * d.volume := by
        have := Nat.mul_le_mul_left elementSize (Nat.succ_le_of_lt hx)
        rw [Nat.mul_succ] at this
        omega
      rw [heq, dstByte, hbyte, ← hstart, BitVec.add_comm, BitVec.add_sub_cancel, BitVec.toNat_ofNat,
        Nat.mod_eq_of_lt (by omega)]
      exact hlt

/-- The loop over the slices of a box copies the box. -/
theorem CopiedRows.copied {d d' : Dim} {dims : List Dim} {dst src : Addr} {mem' : Addr → β}
    (h : CopiedRows source elementSize (d' :: dims) dst src (elementSize * stride Dim.dstDimension (d' :: dims))
      (elementSize * stride Dim.srcDimension (d' :: dims)) d.volume
      (elementSize * stride Dim.dstDimension (d' :: dims) * d.dstOffset)
      (elementSize * stride Dim.srcDimension (d' :: dims) * d.srcOffset) mem mem') :
    Copied source elementSize (d :: d' :: dims) dst src mem mem' := by
  intro a
  rcases h a with ⟨i,v,k,hi,hv,hk,ha,hmem⟩ | ⟨hnone,hold⟩
  · refine Or.inl ⟨i :: v,k,List.Forall₂.cons hi hv,hk,?_,?_⟩
    · rw [dstByte, byteAt_cons]
      exact ha
    · rw [srcByte, byteAt_cons]
      exact hmem
  · refine Or.inr ⟨fun v k hv hk heq => ?_,hold⟩
    cases hv with
    | cons hi hv =>
      rw [dstByte, byteAt_cons] at heq
      exact hnone _ _ _ hi hv hk heq

/-- A copy that returns 0 has copied the box, and no product it computed has overflowed. -/
theorem worker_spec (hF : F.Exact source) (hsize : elementSize < 2 ^ 64) (dims : List Dim) (hdims : dims ≠ []) :
    ∀ dst src mem, (worker F source D elementSize dims dst src mem).1 = 0 →
      Copied source elementSize dims dst src mem (worker F source D elementSize dims dst src mem).2 ∧
        ProductsFit elementSize dims := by
  induction dims with
  | nil => exact absurd rfl hdims
  | cons d dims ih =>
    intro dst src mem hret
    cases dims with
    | nil =>
      rw [worker] at hret ⊢
      split at hret
      next length dstOff srcOff hl hd hs =>
        obtain ⟨hlfit,rfl⟩ := mulOverflow_eq_some.mp hl
        obtain ⟨hdfit,rfl⟩ := mulOverflow_eq_some.mp hd
        obtain ⟨hsfit,rfl⟩ := mulOverflow_eq_some.mp hs
        dsimp only at hret ⊢
        split at hret
        next hrow =>
          refine ⟨?_,hlfit,hdfit,hsfit⟩
          rw [copyRow_spec hF hrow]
          exact copied_row hlfit
        next => exact absurd hret einval_ne_zero
      next => exact absurd hret einval_ne_zero
    | cons d' dims =>
      rw [worker] at hret ⊢
      split at hret
      next => exact absurd hret einval_ne_zero
      next dstSlice srcSlice hslices =>
        obtain ⟨hr,hfits⟩ := (slices_eq_some hsize hsize).mp hslices
        obtain ⟨rfl,rfl⟩ := Prod.mk.inj hr
        split at hret
        next dstOff srcOff hd hs =>
          obtain ⟨hdfit,rfl⟩ := mulOverflow_eq_some.mp hd
          obtain ⟨hsfit,rfl⟩ := mulOverflow_eq_some.mp hs
          obtain ⟨hcopy,hinner⟩ := rows_spec (ih (List.cons_ne_nil d' dims)) d.volume _ _ _ hret
          exact ⟨hcopy.copied,⟨hfits,hdfit,hsfit⟩,hinner⟩
        next => exact absurd hret einval_ne_zero

def OutermostFit (elementSize : ℕ) : List Dim → Prop
  | [] => True
  | [d] => elementSize * d.volume < 2 ^ 64 ∧ elementSize * d.dstOffset < 2 ^ 64 ∧ elementSize * d.srcOffset < 2 ^ 64
  | d :: d' :: dims => SlicesFit elementSize d (d' :: dims)

/-- When a product of the outermost dimension overflows, nothing is copied. -/
theorem worker_of_overflow (hsize : elementSize < 2 ^ 64) {dims : List Dim} (h : ¬ OutermostFit elementSize dims)
    (dst src : Addr) : worker F source D elementSize dims dst src mem = (einval,mem) := by
  cases dims with
  | nil => exact absurd trivial h
  | cons d dims =>
    cases dims with
    | nil =>
      rw [worker]
      split
      next hl hd hs =>
        exact absurd ⟨(mulOverflow_eq_some.mp hl).1,(mulOverflow_eq_some.mp hd).1,(mulOverflow_eq_some.mp hs).1⟩ h
      next => rfl
    | cons d' dims =>
      rw [worker]
      split
      next => rfl
      next dstSlice srcSlice hslices =>
        obtain ⟨hr,hfits⟩ := (slices_eq_some hsize hsize).mp hslices
        obtain ⟨rfl,rfl⟩ := Prod.mk.inj hr
        split
        next hd hs => exact absurd ⟨hfits,(mulOverflow_eq_some.mp hd).1,(mulOverflow_eq_some.mp hs).1⟩ h
        next => rfl

/-- Where no byte belongs to two elements, every element of the box is copied. -/
theorem Copied.element {dims : List Dim} {dst src : Addr} {mem' : Addr → β}
    (h : Copied source elementSize dims dst src mem mem') (hapart : Apart elementSize dims dst) {v : List ℕ} {k : ℕ}
    (hv : InVolume dims v) (hk : k < elementSize) :
    mem' (dstByte elementSize dims dst v k) = source (srcByte elementSize dims src v k) := by
  rcases h (dstByte elementSize dims dst v k) with ⟨w,l,hw,hl,heq,hmem⟩ | ⟨hnone,-⟩
  · obtain ⟨rfl,rfl⟩ := hapart v w k l hv hw hk hl heq
    exact hmem
  · exact absurd rfl (hnone v k hv hk)

/-- A copy that returns 0 leaves every byte outside the box alone and, where the elements of the box do not
overlap, copies all of them; it never returns 0 after an overflow, and one in the outermost dimension makes it
return EINVAL at once. -/
theorem rect_copied (hF : F.Exact source) (hsize : elementSize < 2 ^ 64) {dims : List Dim} (hdims : dims ≠ [])
    (dst src : Addr) (mem : Addr → β) :
    ((worker F source D elementSize dims dst src mem).1 = 0 →
      (Apart elementSize dims dst → ∀ v k, InVolume dims v → k < elementSize →
        (worker F source D elementSize dims dst src mem).2 (dstByte elementSize dims dst v k) =
          source (srcByte elementSize dims src v k)) ∧
      (∀ a, (∀ v k, InVolume dims v → k < elementSize → a ≠ dstByte elementSize dims dst v k) →
        (worker F source D elementSize dims dst src mem).2 a = mem a) ∧
      ProductsFit elementSize dims) ∧
    (¬ OutermostFit elementSize dims → worker F source D elementSize dims dst src mem = (einval,mem)) := by
  refine ⟨fun hret => ?_,fun h => worker_of_overflow hsize h dst src⟩
  obtain ⟨hcopy,hfit⟩ := worker_spec hF hsize dims hdims dst src mem hret
  refine ⟨fun hapart v k hv hk => hcopy.element hapart hv hk,fun a hnone => ?_,hfit⟩
  rcases hcopy a with ⟨v,k,hv,hk,ha,-⟩ | ⟨-,hold⟩
  · exact absurd ha (hnone v k hv hk)
  · exact hold

/-- A quotient and a remainder are determined by the number they make. -/
theorem eq_of_mul_add_eq {s a b p q : ℕ} (hp : p < s) (hq : q < s) (h : a * s + p = b * s + q) : a = b ∧ p = q := by
  have hs : 0 < s := by omega
  have hdiv := congrArg (· / s) h
  have hmod := congrArg (· % s) h
  simp only [Nat.mul_add_mod_self_right, Nat.mod_eq_of_lt hp, Nat.mod_eq_of_lt hq] at hmod
  simp only [mul_comm _ s, Nat.mul_add_div hs, Nat.div_eq_of_lt hp, Nat.div_eq_of_lt hq, add_zero] at hdiv
  exact ⟨hdiv,hmod⟩

/-- The box is inside the array that is written, and the array fits into the address space. -/
structure Inside (elementSize : ℕ) (dims : List Dim) : Prop where
  inside : ∀ d ∈ dims, d.dstOffset + d.volume ≤ d.dstDimension
  fits : elementSize * stride Dim.dstDimension dims ≤ 2 ^ 64

theorem position_lt {dims : List Dim} (h : ∀ d ∈ dims, d.dstOffset + d.volume ≤ d.dstDimension) {v : List ℕ}
    (hv : InVolume dims v) : position Dim.dstOffset Dim.dstDimension dims v < stride Dim.dstDimension dims := by
  induction hv with
  | nil => simp [position, stride]
  | @cons d x dims v hx _ ih =>
    have hinner := ih fun e he => h e (List.mem_cons_of_mem d he)
    have hd := h d List.mem_cons_self
    have hrow : (d.dstOffset + x + 1) * stride Dim.dstDimension dims ≤ d.dstDimension * stride Dim.dstDimension dims :=
      Nat.mul_le_mul_right _ (by omega)
    have hstride : stride Dim.dstDimension (d :: dims) = d.dstDimension * stride Dim.dstDimension dims := by
      simp [stride]
    rw [hstride]
    simp only [position]
    rw [Nat.add_mul, Nat.one_mul] at hrow
    omega

theorem position_injective {dims : List Dim} (h : ∀ d ∈ dims, d.dstOffset + d.volume ≤ d.dstDimension) {v w : List ℕ}
    (hv : InVolume dims v) (hw : InVolume dims w)
    (heq : position Dim.dstOffset Dim.dstDimension dims v = position Dim.dstOffset Dim.dstDimension dims w) : v = w := by
  induction hv generalizing w with
  | nil =>
    cases hw
    rfl
  | @cons d x dims v hx hv ih =>
    cases hw with
    | @cons _ y _ w hy hw =>
      have hinner : ∀ e ∈ dims, e.dstOffset + e.volume ≤ e.dstDimension := fun e he => h e (List.mem_cons_of_mem d he)
      obtain ⟨hrow,hrest⟩ := eq_of_mul_add_eq (position_lt hinner hv) (position_lt hinner hw) heq
      obtain rfl : x = y := by omega
      rw [ih hinner hw hrest]

/-- The elements of a box inside the array do not overlap. -/
theorem Inside.apart {dims : List Dim} (h : Inside elementSize dims) (dst : Addr) : Apart elementSize dims dst := by
  intro v w k l hv hw hk hl heq
  have hbound : ∀ {u : List ℕ} {j : ℕ}, InVolume dims u → j < elementSize →
      elementSize * position Dim.dstOffset Dim.dstDimension dims u + j < 2 ^ 64 := by
    intro u j hu hj
    have hrow := Nat.mul_le_mul_left elementSize (Nat.succ_le_of_lt (position_lt h.inside hu))
    rw [Nat.mul_succ] at hrow
    have := h.fits
    omega
  have hnum := congrArg BitVec.toNat (BitVec.add_right_inj dst |>.mp heq)
  rw [BitVec.toNat_ofNat, BitVec.toNat_ofNat, Nat.mod_eq_of_lt (hbound hv hk), Nat.mod_eq_of_lt (hbound hw hl),
    mul_comm elementSize, mul_comm elementSize] at hnum
  obtain ⟨hpos,rfl⟩ := eq_of_mul_add_eq hk hl hnum
  exact ⟨position_injective h.inside hv hw hpos,rfl⟩

/-- Device functions that copy like memcpy. -/
def memcpyFuncs (source : Addr → β) : Funcs β where
  host2dev dst src length mem := (true,memcpy source dst src length mem)
  dev2host dst src length mem := (true,memcpy source dst src length mem)
  dev2dev dst src length mem := (true,memcpy source dst src length mem)

theorem memcpyFuncs_exact (source : Addr → β) : (memcpyFuncs source).Exact source where
  host2dev _ _ _ _ _ := rfl
  dev2host _ _ _ _ _ := rfl
  dev2dev _ _ _ _ _ := rfl

end Proofs

/-- A 2 × 2 box inside a 3 × 3 array, copied to the host from a 2 × 5 array. -/
def smallBox : List Dim := [⟨2,1,0,3,2⟩,⟨2,1,3,3,5⟩]

theorem rect_copied_small :
    (worker (memcpyFuncs BitVec.toNat) BitVec.toNat ⟨none,some 0⟩ 1 smallBox 100 1000 fun _ => 0).2
        (dstByte 1 smallBox 100 [1,0] 0) = (srcByte 1 smallBox 1000 [1,0] 0).toNat :=
  ((rect_copied (memcpyFuncs_exact BitVec.toNat) (by decide) (by decide) 100 1000 _).1 (by decide +kernel)).1
    (Inside.apart ⟨by decide,by decide⟩ 100) [1,0] 0
    (List.Forall₂.cons (by decide) (List.Forall₂.cons (by decide) List.Forall₂.nil)) (by decide)

/-- A 2 × 2 box in an array whose rows have one element only. -/
def overlappingBox : List Dim := [⟨2,0,0,2,2⟩,⟨2,0,0,1,2⟩]

/-- The second row of the box overwrites an element of the first. -/
theorem rect_copied_overlap :
    (worker (memcpyFuncs BitVec.toNat) BitVec.toNat ⟨none,none⟩ 1 overlappingBox 100 1000 fun _ => 0).1 = 0 ∧
      InVolume overlappingBox [0,1] ∧
      (worker (memcpyFuncs BitVec.toNat) BitVec.toNat ⟨none,none⟩ 1 overlappingBox 100 1000 fun _ => 0).2
        (dstByte 1 overlappingBox 100 [0,1] 0) ≠ (srcByte 1 overlappingBox 1000 [0,1] 0).toNat :=
  ⟨by decide +kernel,List.Forall₂.cons (by decide) (List.Forall₂.cons (by decide) List.Forall₂.nil),
    by decide +kernel⟩

end GompUlt.RectCopy
