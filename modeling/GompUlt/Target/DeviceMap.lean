import GompUlt.Lib.Run
import Mathlib.Algebra.BigOperators.Intervals

/-! # The objects mapped on a device

A device keeps a splay tree of the host objects that have a copy on it.  Each key of the tree counts
its references and belongs to the descriptor that allocated it; a descriptor counts the keys it still
owns and the structured region it was made for.  Device allocation and copies succeed, and a call
that ends in gomp_fatal has no result.
-/
namespace GompUlt.Target

/-- uintptr_t. -/
def wordSize : ℕ := 2 ^ 64

def refcountInfinity : ℕ := wordSize - 1

def refcountLink : ℕ := wordSize - 2

/-- enum gomp_map_kind, as far as the tree functions distinguish them. -/
inductive MapKind
  | alloc | to | fromDevice | tofrom | pointer | toPset | forcePresent | delete | forceDeviceptr
  | firstprivate | firstprivateInt | useDevicePtr | zeroLenArraySection
  | forceAlloc | forceTo | forceFrom | forceTofrom | alwaysTo | alwaysFrom | alwaysTofrom
  | alwaysPointer | deleteZeroLenArraySection | release
deriving DecidableEq, Repr

/-- GOMP_MAP_FLAG_FORCE. -/
def MapKind.isForce : MapKind → Bool
  | forceAlloc | forceTo | forceFrom | forceTofrom => true
  | _ => false

/-- One entry of a map list; a null address is 0. -/
structure Obj where
  kind : MapKind
  hostaddr : ℕ
  size : ℕ
deriving DecidableEq, Repr

def pointerSize : ℕ := 8

/-- The end of the host object; the size of a pointer entry is a bias. -/
def Obj.hostEnd (x : Obj) : ℕ := x.hostaddr + if x.kind = .pointer then pointerSize else x.size

/-- GOMP_MAP_STRUCT stands before the entries of its elements. -/
inductive Item
  | object (x : Obj)
  | struct (hostaddr : ℕ) (fields : List Obj)
deriving DecidableEq, Repr

/-- cur_node.host_end of a GOMP_MAP_STRUCT entry. -/
def structEnd (hostaddr : ℕ) (fields : List Obj) : ℕ :=
  (fields.getLast?.map fun x => x.hostaddr + x.size).getD hostaddr

/-- struct splay_tree_key_s, without the device address. -/
structure Key where
  hostStart : ℕ
  hostEnd : ℕ
  tgt : ℕ
  refcount : ℕ
  linkKey : Option ℕ
deriving DecidableEq, Repr

/-- struct target_mem_desc, with the keys of its list.  Not in the source: whether gomp_unmap_vars is
still to be called for it, and how often it has been freed. -/
structure Desc where
  refcount : ℕ
  list : List (Option ℕ)
  mapped : Bool
  releases : ℕ
deriving DecidableEq, Repr

/-- enum gomp_map_vars_kind. -/
inductive VarsKind
  | target | data | enterData
deriving DecidableEq, Repr

/-- Keys and descriptors are numbered in the order of their allocation. -/
structure State where
  key : ℕ → Key
  numKeys : ℕ
  desc : ℕ → Desc
  numDescs : ℕ
  memMap : List ℕ

def init : State where
  key _ := ⟨0,0,0,0,none⟩
  numKeys := 0
  desc _ := ⟨0,[],false,0⟩
  numDescs := 0
  memMap := []

/-- splay_compare finds no difference. -/
def overlaps (a b c d : ℕ) : Bool := (a = b && c = d) || !(b ≤ c || d ≤ a)

namespace State

section Tree

def meets (s : State) (a b k : ℕ) : Bool := overlaps a b (s.key k).hostStart (s.key k).hostEnd

/-- splay_tree_lookup.  Where several keys meet the object, each answer ends in gomp_fatal for
gomp_map_vars. -/
def lookup (s : State) (a b : ℕ) : Option ℕ := s.memMap.find? (s.meets a b)

/-- splay_tree_lookup where the answer matters: the shape of the tree picks one of the keys. -/
def lookupAt (s : State) (pick a b : ℕ) : Option ℕ :=
  let found := s.memMap.filter (s.meets a b)
  found[pick % found.length]?

def gompMapLookup (s : State) (a : ℕ) : Option ℕ :=
  ((s.lookup a (a + 1)).or (s.lookup (a - 1) a)).or (s.lookup a a)

/-- splay_tree_insert, which stops at a duplicate node. -/
def insert (s : State) (k : ℕ) : Option State :=
  if (s.lookup (s.key k).hostStart (s.key k).hostEnd).isSome then none
  else some { s with memMap := k :: s.memMap }

def remove (s : State) (k : ℕ) : State :=
  { s with memMap := s.memMap.eraseP (s.meets (s.key k).hostStart (s.key k).hostEnd) }

def setRefcount (s : State) (k r : ℕ) : State :=
  { s with key := Function.update s.key k { s.key k with refcount := r } }

def modifyDesc (s : State) (d : ℕ) (f : Desc → Desc) : State :=
  { s with desc := Function.update s.desc d (f (s.desc d)) }

/-- The increment of a key's count, which leaves infinity alone. -/
def addRef (s : State) (k : ℕ) : State :=
  if (s.key k).refcount ≠ refcountInfinity then s.setRefcount k (((s.key k).refcount + 1) % wordSize) else s

/-- The end of a reference to a descriptor, with gomp_unmap_tgt. -/
def dropDesc (s : State) (d : ℕ) : State :=
  if (s.desc d).refcount > 1 then s.modifyDesc d fun x => { x with refcount := x.refcount - 1 }
  else s.modifyDesc d fun x => { x with releases := x.releases + 1 }

/-- A key whose count has dropped to 0 leaves the tree and its descriptor. -/
def unmapKey (s : State) (k : ℕ) : Option State :=
  let s := s.remove k
  let s :=
    match (s.key k).linkKey with
    | none => some s
    | some n => s.insert n
  s.map fun s => s.dropDesc (s.key k).tgt

end Tree

section MapVars

def gompMapVarsExisting (s : State) (oldn hostStart hostEnd : ℕ) (kind : MapKind) : Option State :=
  if kind.isForce || (s.key oldn).hostStart > hostStart || (s.key oldn).hostEnd < hostEnd then none
  else some (s.addRef oldn)

/-- gomp_map_fields_existing, for one element.  The comparison of the device addresses, which can
only stop the run, is left out. -/
def gompMapFieldsExisting (s : State) (x : Obj) : Option (State × ℕ) :=
  match s.lookup x.hostaddr (x.hostaddr + x.size) with
  | none => none
  | some n => (s.gompMapVarsExisting n x.hostaddr (x.hostaddr + x.size) x.kind).map fun s => (s,n)

/-- The loop over the elements of a structure. -/
def fieldsExisting (s : State) : List Obj → Option (State × List (Option ℕ))
  | [] => some (s,[])
  | x :: fields =>
    (s.gompMapFieldsExisting x).bind fun r =>
      (r.1.fieldsExisting fields).map fun rest => (rest.1,some r.2 :: rest.2)

/-- The answer of a pass about one entry: the state, whether the second pass is needed, the pointer
set whose pointers may follow, and the key. -/
structure Answer (α : Type) where
  state : State
  needed : Bool
  pset : Option α
  key : Option ℕ

/-- The body of the first loop of gomp_map_vars for an entry that is not taken by a pointer set. -/
def firstObject (s : State) (x : Obj) : Option (Answer (ℕ × ℕ)) :=
  if x.hostaddr = 0 then some ⟨s,false,none,none⟩
  else match x.kind with
    | .firstprivateInt => some ⟨s,false,none,none⟩
    | .useDevicePtr => if (s.gompMapLookup x.hostaddr).isNone then none else some ⟨s,false,none,none⟩
    | .alwaysPointer | .firstprivate => some ⟨s,true,none,none⟩
    | kind =>
      match s.lookup x.hostaddr x.hostEnd with
      | some n =>
        if (s.key n).refcount ≠ refcountLink then
          (s.gompMapVarsExisting n x.hostaddr x.hostEnd kind).map fun s => ⟨s,false,none,some n⟩
        else some ⟨s,true,if kind = .toPset then some (x.hostaddr,x.hostEnd) else none,none⟩
      | none =>
        if kind = .zeroLenArraySection then some ⟨s,false,none,none⟩
        else some ⟨s,true,if kind = .toPset then some (x.hostaddr,x.hostEnd) else none,none⟩

/-- The pointers after a pointer set that lie in it. -/
def inPset (a b : ℕ) (x : Obj) : Bool := x.kind = .pointer && a ≤ x.hostaddr && x.hostaddr + pointerSize ≤ b

def firstEntry (s : State) (pset : Option (ℕ × ℕ)) (x : Obj) : Option (Answer (ℕ × ℕ)) :=
  match pset with
  | some p => if inPset p.1 p.2 x then some ⟨s,false,pset,none⟩ else s.firstObject x
  | none => s.firstObject x

/-- The first loop of gomp_map_vars: the state, whether the second loop is needed, and the keys of
the entries.  The entry of GOMP_MAP_STRUCT itself has no key. -/
def firstPass (s : State) (pset : Option (ℕ × ℕ)) : List Item → Option (State × Bool × List (Option ℕ))
  | [] => some (s,false,[])
  | .object x :: items =>
    (s.firstEntry pset x).bind fun a =>
      (a.state.firstPass a.pset items).map fun rest => (rest.1,a.needed || rest.2.1,a.key :: rest.2.2)
  | .struct h fields :: items =>
    match s.lookup h (structEnd h fields) with
    | none =>
      (s.firstPass none items).map fun rest => (rest.1,true,List.replicate fields.length none ++ rest.2.2)
    | some _ =>
      (s.fieldsExisting fields).bind fun r =>
        (r.1.firstPass none items).map fun rest => (rest.1,rest.2.1,r.2 ++ rest.2.2)

/-- A new key of the descriptor for the object, with the link object it replaces. -/
def newKey (s : State) (tgt : ℕ) (x : Obj) (linkKey : Option ℕ) : Option State :=
  let s :=
    match linkKey with
    | none => s
    | some n => s.remove n
  let k := s.numKeys
  let s := { s with key := Function.update s.key k ⟨x.hostaddr,x.hostEnd,tgt,1,linkKey⟩, numKeys := k + 1 }
  (s.modifyDesc tgt fun d => { d with refcount := (d.refcount + 1) % wordSize }).insert k

/-- The kinds for which a new key is made; the others are unhandled or must be present. -/
def handlesNew (x : Obj) : Bool :=
  match x.kind with
  | .alloc | .fromDevice | .forceAlloc | .forceFrom | .alwaysFrom | .to | .tofrom | .forceTo | .forceTofrom
  | .alwaysTo | .alwaysTofrom | .pointer | .toPset => true
  | .forceDeviceptr => x.size = pointerSize
  | _ => false

/-- The body of the second loop of gomp_map_vars for an entry that has no key yet. -/
def secondObject (s : State) (tgt : ℕ) (x : Obj) : Option (Answer ℕ) :=
  if x.hostaddr = 0 then some ⟨s,false,none,none⟩
  else match x.kind with
    | .firstprivate | .firstprivateInt | .useDevicePtr | .zeroLenArraySection => some ⟨s,false,none,none⟩
    | .alwaysPointer =>
      match s.lookup x.hostaddr (x.hostaddr + pointerSize) with
      | none => none
      | some n =>
        if (s.key n).hostStart > x.hostaddr || (s.key n).hostEnd < x.hostaddr + pointerSize then none
        else some ⟨s,false,none,none⟩
    | kind =>
      let fresh := fun linkKey =>
        if handlesNew x then
          (s.newKey tgt x linkKey).map fun s' =>
            (⟨s',false,if kind = .toPset then some s.numKeys else none,some s.numKeys⟩ : Answer ℕ)
        else none
      match s.lookup x.hostaddr x.hostEnd with
      | some n =>
        if (s.key n).refcount ≠ refcountLink then
          (s.gompMapVarsExisting n x.hostaddr x.hostEnd kind).map fun s => ⟨s,false,none,some n⟩
        else fresh (some n)
      | none => fresh none

def secondPlain (s : State) (tgt : ℕ) (x : Obj) (o : Option ℕ) : Option (Answer ℕ) :=
  match o with
  | some k => some ⟨s,false,none,some k⟩
  | none => s.secondObject tgt x

/-- One entry of the second loop; the inner loop of a pointer set writes over what the entry has. -/
def secondEntry (s : State) (tgt : ℕ) (pset : Option ℕ) (x : Obj) (o : Option ℕ) : Option (Answer ℕ) :=
  match pset with
  | some k =>
    if inPset (s.key k).hostStart (s.key k).hostEnd x then some ⟨s.addRef k,false,pset,some k⟩
    else s.secondPlain tgt x o
  | none => s.secondPlain tgt x o

/-- The entries of the second loop one after the other. -/
def secondEntries (s : State) (tgt : ℕ) (pset : Option ℕ) : List Obj → List (Option ℕ) →
    Option (State × Option ℕ × List (Option ℕ))
  | x :: objs, o :: os =>
    (s.secondEntry tgt pset x o).bind fun a =>
      (a.state.secondEntries tgt a.pset objs os).map fun rest => (rest.1,rest.2.1,a.key :: rest.2.2)
  | _, _ => some (s,pset,[])

/-- The second loop of gomp_map_vars; `os` has the keys of the first one. -/
def secondPass (s : State) (tgt : ℕ) (pset : Option ℕ) : List Item → List (Option ℕ) →
    Option (State × List (Option ℕ))
  | [], _ => some (s,[])
  | .object x :: items, os =>
    (s.secondEntries tgt pset [x] (os.take 1)).bind fun r =>
      (r.1.secondPass tgt r.2.1 items (os.drop 1)).map fun rest => (rest.1,r.2.2 ++ rest.2)
  | .struct h fields :: items, os =>
    let mine := os.take fields.length
    let others := os.drop fields.length
    if mine.head? ≠ some none then
      (s.secondPass tgt none items others).map fun rest => (rest.1,mine ++ rest.2)
    else match s.lookup h (structEnd h fields) with
      | none =>
        (s.secondEntries tgt none fields mine).bind fun r =>
          (r.1.secondPass tgt r.2.1 items others).map fun rest => (rest.1,r.2.2 ++ rest.2)
      | some _ =>
        (s.fieldsExisting fields).bind fun r =>
          (r.1.secondPass tgt none items others).map fun rest => (rest.1,r.2 ++ rest.2)

/-- Both loops, for the descriptor just allocated: the state and the list. -/
def mapItems (s : State) (tgt : ℕ) (items : List Item) : Option (State × List (Option ℕ)) :=
  (s.firstPass none items).bind fun r =>
    if r.2.1 then r.1.secondPass tgt none items r.2.2 else some (r.1,r.2.2)

def addDesc (s : State) (d : Desc) : State :=
  { s with desc := Function.update s.desc s.numDescs d, numDescs := s.numDescs + 1 }

def gompMapVars (s : State) (kind : VarsKind) (items : List Item) : Option State :=
  let tgt := s.numDescs
  let s := s.addDesc ⟨if kind = .enterData then 0 else 1,[],false,0⟩
  (s.mapItems tgt items).map fun r =>
    if kind = .enterData then
      if (r.1.desc tgt).refcount = 0 then r.1.modifyDesc tgt fun x => { x with releases := x.releases + 1 } else r.1
    else r.1.modifyDesc tgt fun x => { x with list := r.2, mapped := true }

end MapVars

section UnmapVars

/-- The body of the loop of gomp_unmap_vars. -/
def unmapEntry (s : State) : Option ℕ → Option State
  | none => some s
  | some k =>
    let r := (s.key k).refcount
    if r > 1 && r ≠ refcountInfinity then some (s.setRefcount k (r - 1))
    else if r = 1 then (s.setRefcount k 0).unmapKey k
    else some s

def unmapEntries (s : State) : List (Option ℕ) → Option State
  | [] => some s
  | o :: os => (s.unmapEntry o).bind fun s => s.unmapEntries os

def gompUnmapVars (s : State) (d : ℕ) : Option State :=
  ((s.modifyDesc d fun x => { x with mapped := false }).unmapEntries (s.desc d).list).map fun s => s.dropDesc d

end UnmapVars

/-- An entry of the map list of gomp_exit_data, with the key the tree picks. -/
structure ExitObj where
  kind : MapKind
  hostaddr : ℕ
  size : ℕ
  pick : ℕ
deriving DecidableEq, Repr

section ExitData

def isDelete (kind : MapKind) : Bool := kind = .delete || kind = .deleteZeroLenArraySection

/-- The count of a key that gomp_exit_data has found. -/
def exitRefcount (kind : MapKind) (r : ℕ) : ℕ :=
  let r := if r > 0 && r ≠ refcountInfinity then r - 1 else r
  if isDelete kind && r ≠ refcountInfinity then 0 else r

/-- The body of the loop of gomp_exit_data. -/
def exitEntry (s : State) (x : ExitObj) : Option State :=
  if x.kind ∈ [.fromDevice,.alwaysFrom,.delete,.release,.zeroLenArraySection,.deleteZeroLenArraySection] then
    match s.lookupAt x.pick x.hostaddr (x.hostaddr + x.size) with
    | none => some s
    | some k =>
      let r := exitRefcount x.kind (s.key k).refcount
      let s := s.setRefcount k r
      if r = 0 then s.unmapKey k else some s
  else none

def gompExitData (s : State) : List ExitObj → Option State
  | [] => some s
  | x :: xs => (s.exitEntry x).bind fun s => s.gompExitData xs

end ExitData

section LoadImage

/-- A declare target object: its range, and whether it is a link object. -/
structure ImageObj where
  hostStart : ℕ
  hostEnd : ℕ
  isLink : Bool
deriving DecidableEq, Repr

def loadObjects (s : State) (tgt : ℕ) : List ImageObj → Option State
  | [] => some s
  | x :: xs =>
    let k := s.numKeys
    let r := if x.isLink then refcountLink else refcountInfinity
    ({ s with key := Function.update s.key k ⟨x.hostStart,x.hostEnd,tgt,r,none⟩, numKeys := k + 1 }.insert k).bind
      fun s => s.loadObjects tgt xs

/-- gomp_load_image_to_device, for the functions and variables of one table. -/
def gompLoadImageToDevice (s : State) (objs : List ImageObj) : Option State :=
  (s.addDesc ⟨refcountInfinity,[],false,0⟩).loadObjects s.numDescs objs

end LoadImage

/-- The references to a key from the descriptors that gomp_unmap_vars is still to be called for. -/
def refs (s : State) (k : ℕ) : ℕ :=
  ∑ d ∈ Finset.range s.numDescs, if (s.desc d).mapped then (s.desc d).list.count (some k) else 0

/-- The entries of all these descriptors. -/
def entries (s : State) : ℕ :=
  ∑ d ∈ Finset.range s.numDescs, if (s.desc d).mapped then (s.desc d).list.length else 0

/-- The keys of a descriptor that are in the tree. -/
def owned (s : State) (d : ℕ) : ℕ := s.memMap.countP fun k => (s.key k).tgt = d

end State

inductive Event
  | mapVars (kind : VarsKind) (items : List Item)
  | unmapVars (d : ℕ)
  | exitData (objs : List State.ExitObj)
  | loadImage (objs : List State.ImageObj)
deriving DecidableEq, Repr

def itemObjs : Item → List Obj
  | .object x => [x]
  | .struct _ fields => fields

def numEntries (items : List Item) : ℕ := (items.flatMap itemObjs).length

/-- Objects have a size, where the entry has one, and structures have elements. -/
def Item.wellFormed : Item → Bool
  | .object x =>
    x.hostaddr = 0 || x.kind ∈ [.pointer,.firstprivateInt,.useDevicePtr,.alwaysPointer] || 0 < x.size
  | .struct h fields => h ≠ 0 && fields ≠ [] && fields.all fun x => 0 < x.size

/-- The live list entries fit into the address space, at 32 bytes each. -/
def maxEntries : ℕ := wordSize / 32

namespace State

/-- A call that the program can make; the lists of the descriptors have to fit into memory. -/
def enabled (s : State) : Event → Bool
  | .mapVars _ items => items ≠ [] && items.all Item.wellFormed && s.entries + numEntries items ≤ maxEntries
  | .unmapVars d => d < s.numDescs && (s.desc d).mapped
  | .exitData objs => objs.all fun x => 0 < x.size
  | .loadImage objs => objs.all fun x => x.hostStart < x.hostEnd

def step (s : State) (e : Event) : Option State :=
  if s.enabled e then
    match e with
    | .mapVars kind items => s.gompMapVars kind items
    | .unmapVars d => s.gompUnmapVars d
    | .exitData objs => s.gompExitData objs
    | .loadImage objs => s.gompLoadImageToDevice objs
  else none

end State

end GompUlt.Target
