import Mathlib
import GompUlt.Lib.Counting
import GompUlt.Lib.Tally
import GompUlt.Team.TeamState

/-! # The execution times of tasks

Every thread keeps a table of the tasks it has run: for each function a node with the number and the sum of the times,
apart for priorities, kinds and types.  When the team ends, the tables of the other threads are merged into the first.
-/
namespace GompUlt.TaskTimes
open Queue Tally
open Team (TaskType)

/-- struct gomp_task_time, less the floating point average. -/
@[ext]
structure TaskTime where
  num : BitVec 64
  sum : BitVec 64
  deriving DecidableEq, Repr

namespace TaskTime

instance : Zero TaskTime := ⟨⟨0,0⟩⟩
instance : Add TaskTime := ⟨fun a b => ⟨a.num + b.num,a.sum + b.sum⟩⟩

@[simp] theorem zero_num : (0 : TaskTime).num = 0 := rfl
@[simp] theorem zero_sum : (0 : TaskTime).sum = 0 := rfl
@[simp] theorem add_num (a b : TaskTime) : (a + b).num = a.num + b.num := rfl
@[simp] theorem add_sum (a b : TaskTime) : (a + b).sum = a.sum + b.sum := rfl

instance : AddCommMonoid TaskTime where
  add_assoc a b c := by ext1 <;> simp [BitVec.add_assoc]
  zero_add a := by ext1 <;> simp
  add_zero a := by ext1 <;> simp
  add_comm a b := by ext1 <;> simp [BitVec.add_comm]
  nsmul := nsmulRec

end TaskTime

/-- An index of `task_time`; DEFAULT_NUM_PRIORITIES is 16. -/
abbrev Cell := Fin 16 × TaskKind × TaskType

/-- struct gomp_task_time_node; the next pointers are the list that the node is in. -/
structure Node where
  fn : BitVec 64
  taskTime : Cell → TaskTime

/-- `task_time_list[HTABLE_N]`. -/
abbrev Table := Fin 251 → List Node

/-- `((fn << 4) * HTABLE_A + HTABLE_B) % HTABLE_N`. -/
def key (fn : BitVec 64) : Fin 251 := ⟨((fn <<< 4) * 13 + 5).toNat % 251,Nat.mod_lt _ (by norm_num)⟩

def Node.addTime (d : Cell × TaskTime) (node : Node) : Node :=
  { node with taskTime := Function.update node.taskTime d.1 (node.taskTime d.1 + d.2) }

/-- `gomp_alloc_task_time_node`; the memory is cleared. -/
def gompAllocTaskTimeNode (fn : BitVec 64) (d : Cell × TaskTime) : Node := ⟨fn,Function.update 0 d.1 d.2⟩

theorem update_eq_add_single (f : Cell → TaskTime) (d : Cell × TaskTime) :
    Function.update f d.1 (f d.1 + d.2) = f + Pi.single d.1 d.2 := by
  funext c
  rcases eq_or_ne c d.1 with rfl | hc
  · simp
  · simp [hc]

/-- The nodes as items of a tally. -/
def nodeItems : Items Node (BitVec 64) (Cell → TaskTime) (Cell × TaskTime) where
  key := Node.fn
  val := Node.taskTime
  amount d := Pi.single d.1 d.2
  bump := Node.addTime
  fresh := gompAllocTaskTimeNode
  key_bump _ _ := rfl
  val_bump d node := update_eq_add_single node.taskTime d
  key_fresh _ _ := rfl
  val_fresh _ _ := rfl

/-- `if (priority > DEFAULT_NUM_PRIORITIES) priority = DEFAULT_NUM_PRIORITIES;` -/
def clampPriority (priority : ℕ) : ℕ := if 16 < priority then 16 else priority

theorem clampPriority_lt (priority : ℕ) : clampPriority priority < 16 ↔ priority < 16 := by
  rw [clampPriority]
  split <;> omega

/-- None when the priority is no index of `task_time`.  The walk down the chain of the key, with the allocation when
no node has the function, is that of the tally. -/
def gompSaveTaskTime (table : Table) (fn : BitVec 64) (kind : TaskKind) (type : TaskType) (priority : ℕ)
    (time : BitVec 64) : Option Table :=
  if h : clampPriority priority < 16 then
    some (nodeItems.addTo key table fn ((⟨clampPriority priority,h⟩,kind,type),⟨1,time⟩))
  else none

/-- The priority is not clamped here; it comes from a loop over the first index of `task_time`. -/
def gompSaveCumulativeTimes (table : Table) (fn : BitVec 64) (kind : TaskKind) (type : TaskType) (priority : Fin 16)
    (num sum : BitVec 64) : Table :=
  nodeItems.addTo key table fn ((priority,kind,type),⟨num,sum⟩)

variable {n : ℕ}

/-- A call of `gomp_save_task_time` by one of the n + 1 threads. -/
structure Call (n : ℕ) where
  tid : Fin (n + 1)
  fn : BitVec 64
  kind : TaskKind
  type : TaskType
  priority : ℕ
  time : BitVec 64

/-- `gomp_init_task_time` for every thread. -/
def gompInitTaskTime (n : ℕ) : Fin (n + 1) → Table := fun _ _ => []

/-- The calls, in the order in which they are made. -/
def saves (tables : Fin (n + 1) → Table) : List (Call n) → Option (Fin (n + 1) → Table)
  | [] => some tables
  | c :: calls =>
    (gompSaveTaskTime (tables c.tid) c.fn c.kind c.type c.priority c.time).bind fun table =>
      saves (Function.update tables c.tid table) calls

def kinds : List TaskKind := [.implicit, .undeferred, .waiting, .tied, .tiedSuspended, .asyncRunning]

def types : List TaskType := [.tied, .untied]

/-- The three inner loops over `p`, `k` and `t`. -/
def cells : List Cell := List.finRange 16 ×ˢ (kinds ×ˢ types)

def mergeNode (table : Table) (node : Node) : Table :=
  cells.foldl (fun table c => gompSaveCumulativeTimes table node.fn c.2.1 c.2.2 c.1 (node.taskTime c).num
    (node.taskTime c).sum) table

/-- A node of another thread goes to the first table. -/
def mergeFirst (tables : Fin (n + 1) → Table) (node : Node) : Fin (n + 1) → Table :=
  Function.update tables ⟨0,n.succ_pos⟩ (mergeNode (tables ⟨0,n.succ_pos⟩) node)

/-- `table[tid]->task_time_list[key] = chain`. -/
def setChain (tables : Fin (n + 1) → Table) (tid : Fin (n + 1)) (k : Fin 251) (chain : List Node) :
    Fin (n + 1) → Table :=
  Function.update tables tid (Function.update (tables tid) k chain)

/-- Every node is taken out of its chain, and freed, before the next one is read. -/
def mergeChain (tid : Fin (n + 1)) (k : Fin 251) : List Node → (Fin (n + 1) → Table) → Fin (n + 1) → Table
  | [], tables => tables
  | node :: next, tables =>
    mergeChain tid k next (setChain (mergeFirst tables node) tid k next)

def mergeTable (tables : Fin (n + 1) → Table) (tid : Fin (n + 1)) : Fin (n + 1) → Table :=
  (List.finRange 251).foldl (fun tables k => mergeChain tid k (tables tid k) tables) tables

/-- The merge loop of `gomp_print_task_time`, from thread 1 on. -/
def gompPrintTaskTime (tables : Fin (n + 1) → Table) : Fin (n + 1) → Table :=
  (List.finRange n).foldl (fun tables i => mergeTable tables i.succ) tables

/-- The call is counted for the function in this cell. -/
def Call.Counts (c : Call n) (fn : BitVec 64) (cell : Cell) : Prop :=
  c.fn = fn ∧ clampPriority c.priority = cell.1 ∧ c.kind = cell.2.1 ∧ c.type = cell.2.2

instance (c : Call n) (fn : BitVec 64) (cell : Cell) : Decidable (c.Counts fn cell) :=
  inferInstanceAs (Decidable (_ ∧ _ ∧ _ ∧ _))

def samples (calls : List (Call n)) (fn : BitVec 64) (cell : Cell) : List (Call n) :=
  calls.filter fun c => c.Counts fn cell

def Table.nodes (table : Table) : List Node := (List.finRange 251).flatMap table

/-- A table has the samples of all threads: one node for each function, with the number and the sum of its samples. -/
structure HasSamples (calls : List (Call n)) (table : Table) : Prop where
  once : (table.nodes.map Node.fn).Nodup
  saved : ∀ fn, fn ∈ table.nodes.map Node.fn ↔ ∃ c ∈ calls, c.fn = fn
  num : ∀ node ∈ table.nodes, ∀ cell, (node.taskTime cell).num = (samples calls node.fn cell).length
  sum : ∀ node ∈ table.nodes, ∀ cell, (node.taskTime cell).sum = ((samples calls node.fn cell).map Call.time).sum

/-- What the samples of a function come to, cell by cell. -/
def amounts (calls : List (Call n)) (fn : BitVec 64) : Cell → TaskTime :=
  fun cell => ((samples calls fn cell).map fun c => ⟨1,c.time⟩).sum

/-- All tables together have the samples.  The merge keeps this at each of its steps. -/
structure Together (calls : List (Call n)) (tables : Fin (n + 1) → Table) : Prop where
  wf : ∀ i, nodeItems.Wf key (tables i)
  held : ∀ fn, ∑ i, nodeItems.held key (tables i) fn = amounts calls fn
  has : ∀ fn, (∃ i, nodeItems.Has key (tables i) fn) ↔ ∃ c ∈ calls, c.fn = fn

section Saves
variable {calls : List (Call n)} {tables tables' : Fin (n + 1) → Table} {c : Call n} {fn : BitVec 64}

theorem samples_append (cell : Cell) :
    samples (calls ++ [c]) fn cell = samples calls fn cell ++ if c.Counts fn cell then [c] else [] := by
  rw [samples, List.filter_append, List.filter_singleton, samples]
  by_cases h : c.Counts fn cell <;> simp [h]

theorem amounts_num (cell : Cell) : (amounts calls fn cell).num = (samples calls fn cell).length := by
  rw [amounts]
  induction samples calls fn cell with
  | nil => rfl
  | cons c l ih => rw [List.map_cons, List.sum_cons, TaskTime.add_num, ih, List.length_cons, Nat.cast_succ, add_comm]

theorem amounts_sum (cell : Cell) :
    (amounts calls fn cell).sum = ((samples calls fn cell).map Call.time).sum := by
  rw [amounts]
  induction samples calls fn cell with
  | nil => rfl
  | cons c l ih => rw [List.map_cons, List.sum_cons, TaskTime.add_sum, ih, List.map_cons, List.sum_cons]

/-- A call adds its time in one cell of one function. -/
theorem amounts_append (h : clampPriority c.priority < 16) :
    amounts (calls ++ [c]) fn = amounts calls fn +
      if fn = c.fn then Pi.single (⟨clampPriority c.priority,h⟩,c.kind,c.type) ⟨1,c.time⟩ else 0 := by
  funext cell
  have hcounts : c.Counts fn cell ↔ fn = c.fn ∧ cell = (⟨clampPriority c.priority,h⟩,c.kind,c.type) := by
    rw [Call.Counts, Prod.ext_iff, Prod.ext_iff, Fin.ext_iff, eq_comm (a := c.fn), eq_comm (a := c.kind),
      eq_comm (a := c.type), eq_comm (a := clampPriority c.priority)]
  rw [amounts, samples_append, List.map_append, List.sum_append, Pi.add_apply, amounts]
  congr 1
  by_cases hfn : fn = c.fn
  · by_cases hcell : cell = (⟨clampPriority c.priority,h⟩,c.kind,c.type)
    · rw [if_pos (hcounts.mpr ⟨hfn,hcell⟩), if_pos hfn, hcell, Pi.single_eq_same, List.map_singleton, List.sum_singleton]
    · rw [if_neg fun h' => hcell (hcounts.mp h').2, if_pos hfn, Pi.single_eq_of_ne hcell]
      rfl
  · rw [if_neg fun h' => hfn (hcounts.mp h').1, if_neg hfn]
    rfl

theorem Together.init : Together ([] : List (Call n)) (gompInitTaskTime n) where
  wf _ := Items.Wf.empty
  held _ := Finset.sum_eq_zero fun _ _ => rfl
  has _ := by simp [Items.Has, gompInitTaskTime]

theorem Together.save {table : Table} (ht : Together calls tables)
    (hsave : gompSaveTaskTime (tables c.tid) c.fn c.kind c.type c.priority c.time = some table) :
    Together (calls ++ [c]) (Function.update tables c.tid table) := by
  rw [gompSaveTaskTime] at hsave
  split at hsave
  next h =>
    obtain rfl := Option.some.inj hsave
    constructor
    · intro i
      rcases eq_or_ne i c.tid with rfl | hi
      · rw [Function.update_self]
        exact (ht.wf _).addTo
      · rw [Function.update_of_ne hi]
        exact ht.wf i
    · intro fn
      rw [amounts_append h, ← ht.held]
      refine Counting.sum_bump c.tid ?_ fun i hi => by rw [Function.update_of_ne hi]
      rw [Function.update_self, Items.held_addTo]
      rfl
    · intro fn
      have hcalls : (∃ c' ∈ calls ++ [c], c'.fn = fn) ↔ fn = c.fn ∨ ∃ c' ∈ calls, c'.fn = fn := by
        simp [or_and_right, exists_or, or_comm, eq_comm]
      rw [hcalls, ← ht.has]
      constructor
      · rintro ⟨i,hi⟩
        rcases eq_or_ne i c.tid with rfl | hne
        · rw [Function.update_self, Items.has_addTo] at hi
          exact hi.imp id fun hi => ⟨_,hi⟩
        · rw [Function.update_of_ne hne] at hi
          exact .inr ⟨i,hi⟩
      · rintro (rfl | ⟨i,hi⟩)
        · exact ⟨c.tid,by rw [Function.update_self, Items.has_addTo]; exact .inl rfl⟩
        · refine ⟨i,?_⟩
          rcases eq_or_ne i c.tid with rfl | hne
          · rw [Function.update_self, Items.has_addTo]
            exact .inr hi
          · rwa [Function.update_of_ne hne]
  next => cases hsave

/-- The calls that are made, and after which none is out of bounds. -/
theorem Together.saves {past : List (Call n)} (ht : Together past tables) (hsaves : saves tables calls = some tables') :
    Together (past ++ calls) tables' := by
  induction calls generalizing past tables with
  | nil =>
    obtain rfl := Option.some.inj hsaves
    rwa [List.append_nil]
  | cons c calls ih =>
    obtain ⟨table,hsave,hrest⟩ := Option.bind_eq_some_iff.mp hsaves
    rw [List.append_cons]
    exact ih (ht.save hsave) hrest

theorem gompSaveTaskTime_isSome (table : Table) (c : Call n) :
    (gompSaveTaskTime table c.fn c.kind c.type c.priority c.time).isSome ↔ c.priority < 16 := by
  have hclamp := clampPriority_lt c.priority
  rw [gompSaveTaskTime]
  split
  next h => simpa using hclamp.mp h
  next h => simpa using fun h' => h (hclamp.mpr h')

/-- All indices are in bounds as long as no priority reaches the number of priorities. -/
theorem saves_isSome (tables : Fin (n + 1) → Table) (calls : List (Call n)) :
    (saves tables calls).isSome ↔ ∀ c ∈ calls, c.priority < 16 := by
  induction calls generalizing tables with
  | nil => simp [TaskTimes.saves]
  | cons c calls ih =>
    rw [TaskTimes.saves, List.forall_mem_cons, ← gompSaveTaskTime_isSome (tables c.tid) c]
    cases gompSaveTaskTime (tables c.tid) c.fn c.kind c.type c.priority c.time with
    | none => simp
    | some table => simpa using ih _

end Saves

section Merge
variable {calls : List (Call n)} {tables : Fin (n + 1) → Table} {tid : Fin (n + 1)} {k : Fin 251} {node : Node}

theorem mem_cells (c : Cell) : c ∈ cells := by
  obtain ⟨p,kind,type⟩ := c
  refine List.mem_product.mpr ⟨List.mem_finRange p,List.mem_product.mpr ⟨?_,?_⟩⟩
  · cases kind <;> decide
  · cases type <;> decide

theorem nodup_cells : cells.Nodup := (List.nodup_finRange 16).product (List.Nodup.product (by decide) (by decide))

theorem mergeNode_eq (table : Table) : mergeNode table node =
    nodeItems.addAll key table node.fn (cells.map fun c => (c,node.taskTime c)) := by
  rw [Items.addAll, List.foldl_map]
  rfl

/-- The cells of a node, one after the other, are all that the node holds. -/
theorem sum_cells : ((cells.map fun c => (c,node.taskTime c)).map nodeItems.amount).sum = node.taskTime := by
  rw [List.map_map]
  exact Tally.sum_single nodup_cells mem_cells node.taskTime

theorem mergeFirst_zero : mergeFirst tables node 0 = mergeNode (tables 0) node := Function.update_self ..

theorem mergeFirst_other {i : Fin (n + 1)} (hi : i ≠ 0) : mergeFirst tables node i = tables i :=
  Function.update_of_ne hi _ _

theorem setChain_self (chain : List Node) :
    setChain tables tid k chain tid = Function.update (tables tid) k chain := Function.update_self ..

theorem setChain_other {i : Fin (n + 1)} (hi : i ≠ tid) (chain : List Node) :
    setChain tables tid k chain i = tables i := Function.update_of_ne hi _ _

/-- One node is merged: what leaves the table of its thread comes to the first table. -/
theorem Together.mergeNode (ht : Together calls tables) (htid : tid ≠ 0) {next : List Node}
    (hnode : tables tid k = node :: next) :
    Together calls (setChain (mergeFirst tables node) tid k next) := by
  set tables' := setChain (mergeFirst tables node) tid k next with htables'
  have hne : cells.map (fun c => (c,node.taskTime c)) ≠ [] :=
    List.ne_nil_of_mem (List.mem_map_of_mem (mem_cells (0,.implicit,.tied)))
  have hfirst : tables' 0 = nodeItems.addAll key (tables 0) node.fn (cells.map fun c => (c,node.taskTime c)) := by
    rw [htables', setChain_other htid.symm, mergeFirst_zero, mergeNode_eq]
  have hsource : tables' tid = Function.update (tables tid) k next := by
    rw [htables', setChain_self, mergeFirst_other htid]
  have hother : ∀ i, i ≠ 0 → i ≠ tid → tables' i = tables i := by
    intro i hi hi'
    rw [htables', setChain_other hi', mergeFirst_other hi]
  constructor
  · intro i
    rcases eq_or_ne i 0 with rfl | hi
    · rw [hfirst]
      exact (ht.wf 0).addAll
    rcases eq_or_ne i tid with rfl | hi'
    · rw [hsource]
      exact (ht.wf i).pop hnode
    · rw [hother i hi hi']
      exact ht.wf i
  · intro fn
    rw [← ht.held]
    refine Counting.sum_move htid.symm ?_ fun i hi hi' => by rw [hother i hi hi']
    rw [hfirst, hsource, Items.held_addAll, Items.held_pop (ht.wf tid) hnode, sum_cells, add_assoc]
    rfl
  · intro fn
    have hfirst' : nodeItems.Has key (tables' 0) fn ↔ fn = node.fn ∨ nodeItems.Has key (tables 0) fn := by
      rw [hfirst]
      exact Items.has_addAll hne
    have hsource' : nodeItems.Has key (tables tid) fn ↔ fn = node.fn ∨ nodeItems.Has key (tables' tid) fn := by
      rw [hsource]
      exact Items.has_pop (ht.wf tid) hnode
    rw [← ht.has]
    constructor
    · rintro ⟨i,hi⟩
      rcases eq_or_ne i 0 with rfl | h0
      · rcases hfirst'.mp hi with hfn | hi
        · exact ⟨tid,hsource'.mpr (.inl hfn)⟩
        · exact ⟨0,hi⟩
      rcases eq_or_ne i tid with rfl | hi'
      · exact ⟨i,hsource'.mpr (.inr hi)⟩
      · exact ⟨i,hother i h0 hi' ▸ hi⟩
    · rintro ⟨i,hi⟩
      rcases eq_or_ne i 0 with rfl | h0
      · exact ⟨0,hfirst'.mpr (.inr hi)⟩
      rcases eq_or_ne i tid with rfl | hi'
      · rcases hsource'.mp hi with hfn | hi
        · exact ⟨0,hfirst'.mpr (.inl hfn)⟩
        · exact ⟨i,hi⟩
      · exact ⟨i,(hother i h0 hi').symm ▸ hi⟩

/-- What the loops leave: nothing in the chains they have been through, and the other threads' tables as they were. -/
structure Drained (tid : Fin (n + 1)) (ks : List (Fin 251)) (tables tables' : Fin (n + 1) → Table) : Prop where
  empty : ∀ k ∈ ks, tables' tid k = []
  rest : ∀ k ∉ ks, tables' tid k = tables tid k
  other : ∀ i, i ≠ 0 → i ≠ tid → tables' i = tables i

theorem Together.mergeChain (htid : tid ≠ 0) {chain : List Node} (ht : Together calls tables)
    (hchain : tables tid k = chain) :
    Together calls (mergeChain tid k chain tables) ∧ Drained tid [k] tables (mergeChain tid k chain tables) := by
  induction chain generalizing tables with
  | nil =>
    refine ⟨ht,?_,fun _ _ => rfl,fun _ _ _ => rfl⟩
    rintro k' hk'
    rwa [List.mem_singleton.mp hk']
  | cons node next ih =>
    have hstep := ht.mergeNode htid hchain
    rw [TaskTimes.mergeChain]
    set tables' := setChain (mergeFirst tables node) tid k next with htables'
    have hsource : tables' tid = Function.update (tables tid) k next := by
      rw [htables', setChain_self, mergeFirst_other htid]
    obtain ⟨htogether,hempty,hrest,hother⟩ := ih hstep (by rw [hsource, Function.update_self])
    refine ⟨htogether,hempty,fun k' hk' => ?_,fun i hi hi' => ?_⟩
    · rw [hrest k' hk', hsource, Function.update_of_ne fun h => hk' (List.mem_singleton.mpr h)]
    · rw [hother i hi hi', htables', setChain_other hi', mergeFirst_other hi]

/-- All chains of a thread. -/
theorem Together.mergeTable (htid : tid ≠ 0) (ht : Together calls tables) :
    Together calls (mergeTable tables tid) ∧ Drained tid (List.finRange 251) tables (mergeTable tables tid) := by
  have hfold : ∀ (ks : List (Fin 251)) (tables : Fin (n + 1) → Table), Together calls tables →
      Together calls (ks.foldl (fun tables k => TaskTimes.mergeChain tid k (tables tid k) tables) tables) ∧
      Drained tid ks tables (ks.foldl (fun tables k => TaskTimes.mergeChain tid k (tables tid k) tables) tables) := by
    intro ks
    induction ks with
    | nil => exact fun tables ht => ⟨ht,fun _ hk => absurd hk List.not_mem_nil,fun _ _ => rfl,fun _ _ _ => rfl⟩
    | cons k ks ih =>
      intro tables ht
      obtain ⟨hone,hchain⟩ := ht.mergeChain htid (k := k) rfl
      obtain ⟨hall,hdrained⟩ := ih _ hone
      refine ⟨hall,fun k' hk' => ?_,fun k' hk' => ?_,fun i hi hi' => ?_⟩
      · by_cases hlater : k' ∈ ks
        · exact hdrained.empty k' hlater
        · obtain rfl : k' = k := (List.mem_cons.mp hk').resolve_right hlater
          exact (hdrained.rest k' hlater).trans (hchain.empty k' (List.mem_singleton_self k'))
      · rw [List.mem_cons, not_or] at hk'
        exact (hdrained.rest k' hk'.2).trans (hchain.rest k' fun h => hk'.1 (List.mem_singleton.mp h))
      · exact (hdrained.other i hi hi').trans (hchain.other i hi hi')
  exact hfold _ tables ht

/-- The tables of all other threads are empty after the merge. -/
theorem Together.gompPrintTaskTime (ht : Together calls tables) :
    Together calls (gompPrintTaskTime tables) ∧ ∀ i : Fin n, ∀ k, TaskTimes.gompPrintTaskTime tables i.succ k = [] := by
  have hfold : ∀ (is : List (Fin n)) (tables : Fin (n + 1) → Table), Together calls tables →
      Together calls (is.foldl (fun tables i => TaskTimes.mergeTable tables i.succ) tables) ∧
      ∀ i : Fin n, (i ∈ is ∨ ∀ k, tables i.succ k = []) →
        ∀ k, is.foldl (fun tables i => TaskTimes.mergeTable tables i.succ) tables i.succ k = [] := by
    intro is
    induction is with
    | nil => exact fun tables ht => ⟨ht,fun i hi => hi.resolve_left List.not_mem_nil⟩
    | cons j is ih =>
      intro tables ht
      obtain ⟨hone,hdrained⟩ := ht.mergeTable (Fin.succ_ne_zero j)
      obtain ⟨hall,hempty⟩ := ih _ hone
      rw [List.foldl_cons]
      refine ⟨hall,fun i hi => hempty i ?_⟩
      rcases eq_or_ne i j with rfl | hij
      · exact .inr fun k => hdrained.empty k (List.mem_finRange k)
      · rw [hdrained.other i.succ (Fin.succ_ne_zero i) fun h => hij (Fin.succ_inj.mp h)]
        exact hi.imp (fun hmem => (List.mem_cons.mp hmem).resolve_left hij) id
  obtain ⟨htogether,hempty⟩ := hfold (List.finRange n) tables ht
  exact ⟨htogether,fun i => hempty i (.inl (List.mem_finRange i))⟩

/-- When the other tables are empty, the first one has all samples. -/
theorem Together.hasSamples (ht : Together calls tables) (hempty : ∀ i : Fin n, ∀ k, tables i.succ k = []) :
    HasSamples calls (tables 0) := by
  have hheld : ∀ fn, nodeItems.held key (tables 0) fn = amounts calls fn := by
    intro fn
    have hrest : ∑ i : Fin n, nodeItems.held key (tables i.succ) fn = 0 := by
      refine Finset.sum_eq_zero fun i _ => ?_
      rw [Items.held, hempty]
      rfl
    rw [← ht.held, Fin.sum_univ_succ, hrest, add_zero]
  have hhas : ∀ fn, nodeItems.Has key (tables 0) fn ↔ ∃ c ∈ calls, c.fn = fn := by
    intro fn
    rw [← ht.has, Fin.exists_fin_succ, or_iff_left]
    rintro ⟨i,hi⟩
    rw [Items.Has, hempty] at hi
    exact absurd hi List.not_mem_nil
  have hval : ∀ node ∈ Table.nodes (tables 0), node.taskTime = amounts calls node.fn := by
    intro node hnode
    obtain ⟨k,-,hk⟩ := List.mem_flatMap.mp hnode
    rw [← hheld]
    exact (ht.wf 0).val_eq hk
  refine ⟨(ht.wf 0).nodup_all (List.nodup_finRange 251),fun fn => ?_,fun node hnode cell => ?_,fun node hnode cell => ?_⟩
  · rw [← hhas]
    exact (ht.wf 0).mem_all List.mem_finRange
  · rw [hval node hnode, amounts_num]
  · rw [hval node hnode, amounts_sum]

end Merge

/-- Every index is inside its bounds, and the first table has the samples of all threads after the merge, exactly when
no priority reaches the number of priorities. -/
theorem taskTimes_iff (calls : List (Call n)) :
    (∃ tables, saves (gompInitTaskTime n) calls = some tables ∧ HasSamples calls (gompPrintTaskTime tables 0)) ↔
      ∀ c ∈ calls, c.priority < 16 := by
  constructor
  · rintro ⟨tables,hsaves,-⟩
    exact (saves_isSome _ _).mp (Option.isSome_of_eq_some hsaves)
  · intro h
    obtain ⟨tables,hsaves⟩ := Option.isSome_iff_exists.mp ((saves_isSome (gompInitTaskTime n) calls).mpr h)
    obtain ⟨htogether,hempty⟩ := (Together.init.saves hsaves).gompPrintTaskTime
    exact ⟨tables,hsaves,htogether.hasSamples hempty⟩

/-- A task of priority 16, which is clamped to 16. -/
def lastPriority : Call 0 := ⟨0,0,.tied,.tied,16,1⟩

theorem lastPriority_outOfBounds :
    ¬ ∃ tables, saves (gompInitTaskTime 0) [lastPriority] = some tables ∧
      HasSamples [lastPriority] (gompPrintTaskTime tables 0) := by
  rintro ⟨tables,hsaves,-⟩
  have hnone : saves (gompInitTaskTime 0) [lastPriority] = none := rfl
  rw [hnone] at hsaves
  cases hsaves

end GompUlt.TaskTimes
