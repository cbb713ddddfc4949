import RadialCache.LockFreeMap
import RadialCache.LockFreeHeap.Sequential

/-! `RadialCircularList` from `radial_circular_list.cpp` driven by one thread, every call run
to its return: the arena `node_pool`, the counters `total_nodes` and `pool_index`, and the table
of `MidpointNode`s, with `add_node` and `get_highest_priority_node` from `midpoint.hpp`. -/

namespace RadialCache

open LockFreeHeap

/-- A record handed to `insert` or `insert_batch`: value bits, midpoint, priority, expiry in ns. -/
structure Item where
  value : UInt64
  midpoint : Key
  priority : Int
  expiryTimeNs : UInt64
deriving DecidableEq, Repr

/-- The record the four stores of `insert` leave in a slot, the clock read as `nowNs`. -/
def Item.record (item : Item) (nowNs : UInt64) : Node :=
  ⟨item.value, item.priority, nowNs, item.expiryTimeNs⟩

/-- `node->priority` for every arena slot. -/
def priorities (pool : Nat → Node) (slot : Nat) : Int := (pool slot).priority

/-- The cache; `numa` marks slots from `numa_alloc_onnode`, and the ghost fields `claimed` and
`deleted` count the slots `pool_index.fetch_add` handed out and list the slots deleted. -/
structure RadialCircularList where
  midpoints : LockFreeHashTable
  maxNodes : Nat
  totalNodes : Nat
  nodePool : Nat → Node
  poolIndex : Nat
  numa : Bool
  claimed : Nat
  deleted : List Nat
  maxNodes_lt : maxNodes < sizeModulus

namespace RadialCircularList

/-- `RadialCircularList(max)`: `max` records `Node(0.0)`, from `numa_alloc_onnode` when `numa`. -/
def init (max : Nat) (fits : max < sizeModulus) (numa : Bool) (nowNs : Nat → UInt64) :
    RadialCircularList :=
  ⟨LockFreeHashTable.init, max, 0, fun i => Node.blank (nowNs i), 0, numa, 0, [], fits⟩

/-- The four stores through `node_pool[index]`, the clock read as `nowNs`. -/
def write (c : RadialCircularList) (index : Nat) (item : Item) (nowNs : UInt64) :
    RadialCircularList :=
  { c with nodePool := Function.update c.nodePool index (item.record nowNs) }

/-- `midpoints.get_or_create(midpoint, max_nodes / 10)->add_node(node_pool[index])`. -/
def addNode (c : RadialCircularList) (midpoint : Key) (index : Nat) : RadialCircularList × Bool :=
  let created := c.midpoints.getOrCreate midpoint (c.maxNodes / 10)
  let pushed := push (priorities c.nodePool) (created.1.heapOf created.2) index
  ({ c with midpoints := created.1.setHeap created.2 pushed.1 }, pushed.2)

/-- `insert(value, midpoint, priority, expiry_time)`, the clock read as `nowNs`. -/
def insert (c : RadialCircularList) (item : Item) (nowNs : UInt64) : RadialCircularList × Bool :=
  if c.maxNodes ≤ c.totalNodes then (c, false)
  else
    let index := c.poolIndex
    let claimed := { c with poolIndex := (index + 1) % sizeModulus, claimed := c.claimed + 1 }
    if c.maxNodes ≤ index then (claimed, false)
    else
      let added := (claimed.write index item nowNs).addNode item.midpoint index
      if added.2 then ({ added.1 with totalNodes := (added.1.totalNodes + 1) % sizeModulus }, true)
      else (added.1, false)

/-- The loop of `insert_batch` from item `i` on; `none` at an index past `node_pool`'s slots. -/
def placeBatch (start : Nat) (nowNs : Nat → UInt64) :
    RadialCircularList → List Item → Nat → Option RadialCircularList
  | c, [], _ => some c
  | c, item :: rest, i =>
      let index := (start + i) % sizeModulus
      if c.maxNodes ≤ index then none
      else
        placeBatch start nowNs ((c.write index item (nowNs i)).addNode item.midpoint index).1 rest
          (i + 1)

/-- `insert_batch(batch)`, the `i`-th item's clock read as `nowNs i`. -/
def insertBatch (c : RadialCircularList) (batch : List Item) (nowNs : Nat → UInt64) :
    Option (RadialCircularList × Bool) :=
  let batchSize := batch.length
  if c.maxNodes < (c.totalNodes + batchSize) % sizeModulus then some (c, false)
  else
    let start := c.poolIndex
    let claimed :=
      { c with poolIndex := (start + batchSize) % sizeModulus, claimed := c.claimed + batchSize }
    if c.maxNodes < (start + batchSize) % sizeModulus then some (claimed, false)
    else
      (placeBatch start nowNs claimed batch 0).map fun placed =>
        ({ placed with totalNodes := (placed.totalNodes + batchSize) % sizeModulus }, true)

/-- `MidpointNode::get_highest_priority_node` on `h`: the heap left, the slot returned and the slots
deleted; `none` when it faults (a spinning or null `pop`, or a NUMA `delete`). -/
def getHighestPriorityNode (pool : Nat → Node) (numa : Bool) (h : LockFreeHeap)
    (nowNs : Nat → UInt64) : Option (LockFreeHeap × Option Nat × List Nat) :=
  if h.size = 0 then some (h, none, [])
  else
    match popped : pop (priorities pool) h with
    | some (h', some node) =>
        if (pool node).isExpired (nowNs 0) then
          if numa then none
          else
            (getHighestPriorityNode pool numa h' fun k => nowNs (k + 1)).map
              fun drained => (drained.1, drained.2.1, node :: drained.2.2)
        else some (h', some node, [])
    | _ => none
termination_by h.size
decreasing_by have := pop_size ‹_› popped; omega

/-- `get_highest_priority(midpoint)`: the cache left and the slot returned, `none` for `nullptr`. -/
def getHighestPriority (c : RadialCircularList) (midpoint : Key) (nowNs : Nat → UInt64) :
    Option (RadialCircularList × Option Nat) :=
  match c.midpoints.find midpoint with
  | none => some (c, none)
  | some b =>
      (getHighestPriorityNode c.nodePool c.numa (c.midpoints.heapOf b) nowNs).map fun drained =>
        ({ c with midpoints := c.midpoints.setHeap b drained.1,
                  deleted := c.deleted ++ drained.2.2 }, drained.2.1)

/-- `get_highest_priority_batch(midpoints_batch)`, the `i`-th key's clocks read as `nowNs i`. -/
def getHighestPriorityBatch (c : RadialCircularList) :
    List Key → (Nat → Nat → UInt64) → Option (RadialCircularList × List (Option Nat))
  | [], _ => some (c, [])
  | midpoint :: rest, nowNs =>
      (c.getHighestPriority midpoint (nowNs 0)).bind fun first =>
        (first.1.getHighestPriorityBatch rest fun i => nowNs (i + 1)).map fun others =>
          (others.1, first.2 :: others.2)

/-- The calls of a single-threaded run. -/
inductive Op where
  | insert (item : Item) (nowNs : UInt64)
  | insertBatch (batch : List Item) (nowNs : Nat → UInt64)
  | getHighestPriority (midpoint : Key) (nowNs : Nat → UInt64)
  | getHighestPriorityBatch (midpoints : List Key) (nowNs : Nat → Nat → UInt64)

/-- One call run to its return. -/
def perform (c : RadialCircularList) : Op → Option RadialCircularList
  | .insert item nowNs => some (c.insert item nowNs).1
  | .insertBatch batch nowNs => (c.insertBatch batch nowNs).map (·.1)
  | .getHighestPriority midpoint nowNs => (c.getHighestPriority midpoint nowNs).map (·.1)
  | .getHighestPriorityBatch midpoints nowNs =>
      (c.getHighestPriorityBatch midpoints nowNs).map (·.1)

/-- The next call of a single-threaded run; `none` once a call has not returned. -/
def call (s : Option RadialCircularList) (op : Op) : Option RadialCircularList :=
  s.bind (·.perform op)

/-! ### The retrieval loop -/

/-- Each slot of `gone` was judged expired by the check that popped it. -/
def Discarded (pool : Nat → Node) (nowNs : Nat → UInt64) (gone : List Nat) : Prop :=
  ∀ i (lt : i < gone.length), (pool gone[i]).isExpired (nowNs i) = true

/-- How a retrieval that popped `gone` and returned `r` left the heap `h` as `h'`. -/
def Drained (pool : Nat → Node) (nowNs : Nat → UInt64) (h h' : LockFreeHeap) (gone : List Nat) :
    Option Nat → Prop
  | none => h'.size = 0 ∧ (live h).Perm gone
  | some x => (pool x).isExpired (nowNs gone.length) = false ∧
      (live h).Perm (gone ++ x :: live h') ∧
      (∀ g ∈ gone, (pool x).priority ≤ (pool g).priority) ∧
      ∀ y ∈ live h', (pool y).priority ≤ (pool x).priority

theorem live_of_size_zero {h : LockFreeHeap} (empty : h.size = 0) : live h = [] := by
  simp [live, empty]

theorem Drained.subset {pool : Nat → Node} {nowNs : Nat → UInt64} {h h' : LockFreeHeap}
    {gone : List Nat} {r : Option Nat} (drained : Drained pool nowNs h h' gone r) :
    ∀ y ∈ live h', y ∈ live h := by
  cases r with
  | none => simp [live_of_size_zero drained.1]
  | some x => exact fun y mem => drained.2.1.symm.subset (by simp [mem])

theorem Drained.cons {pool : Nat → Node} {nowNs : Nat → UInt64} {h h₁ h' : LockFreeHeap}
    {gone : List Nat} {r : Option Nat} {top : Nat} (popped : (live h).Perm (top :: live h₁))
    (maximal : ∀ x ∈ live h, (pool x).priority ≤ (pool top).priority)
    (rest : Drained pool (fun k => nowNs (k + 1)) h₁ h' gone r) :
    Drained pool nowNs h h' (top :: gone) r := by
  cases r with
  | none => exact ⟨rest.1, popped.trans (rest.2.cons top)⟩
  | some x =>
    obtain ⟨live_x, perm, before, after⟩ := rest
    have mem : x ∈ live h := popped.symm.subset (List.mem_cons_of_mem _ (perm.symm.subset (by simp)))
    refine ⟨live_x, popped.trans (perm.cons top), ?_, after⟩
    exact List.forall_mem_cons.mpr ⟨maximal x mem, before⟩

theorem Discarded.cons {pool : Nat → Node} {nowNs : Nat → UInt64} {gone : List Nat} {top : Nat}
    (expired : (pool top).isExpired (nowNs 0) = true)
    (rest : Discarded pool (fun k => nowNs (k + 1)) gone) : Discarded pool nowNs (top :: gone) := by
  intro i lt
  cases i with
  | zero => exact expired
  | succ i => exact rest i (Nat.lt_of_succ_lt_succ lt)

theorem getHighestPriorityNode_empty (pool : Nat → Node) (numa : Bool) {h : LockFreeHeap}
    (empty : h.size = 0) (nowNs : Nat → UInt64) :
    getHighestPriorityNode pool numa h nowNs = some (h, none, []) := by
  rw [getHighestPriorityNode, if_pos empty]

theorem getHighestPriorityNode_pop {pool : Nat → Node} {numa : Bool} {h h' : LockFreeHeap}
    {node : Nat} (nonempty : h.size ≠ 0) (popped : pop (priorities pool) h = some (h', some node))
    (nowNs : Nat → UInt64) :
    getHighestPriorityNode pool numa h nowNs =
      if (pool node).isExpired (nowNs 0) then
        if numa then none
        else (getHighestPriorityNode pool numa h' fun k => nowNs (k + 1)).map
          fun drained => (drained.1, drained.2.1, node :: drained.2.2)
      else some (h', some node, []) := by
  rw [getHighestPriorityNode, if_neg nonempty]
  split
  · next heq => rw [popped] at heq; cases heq; rfl
  · next other => exact absurd popped (other _ _)

theorem getHighestPriorityNode_null {pool : Nat → Node} {numa : Bool} {h h' : LockFreeHeap}
    (nonempty : h.size ≠ 0) (popped : pop (priorities pool) h = some (h', none))
    (nowNs : Nat → UInt64) : getHighestPriorityNode pool numa h nowNs = none := by
  rw [getHighestPriorityNode, if_neg nonempty]
  split
  · next heq => rw [popped] at heq; cases heq
  · rfl

theorem getHighestPriorityNode_spec (pool : Nat → Node) {h : LockFreeHeap}
    (valid : Valid (priorities pool) h) (nowNs : Nat → UInt64) :
    ∃ h' r gone, getHighestPriorityNode pool false h nowNs = some (h', r, gone) ∧
      Valid (priorities pool) h' ∧ h'.capacity = h.capacity ∧ Discarded pool nowNs gone ∧
      Drained pool nowNs h h' gone r := by
  obtain ⟨n, sized⟩ : ∃ n, h.size = n := ⟨_, rfl⟩
  induction n generalizing h nowNs with
  | zero =>
    refine ⟨h, none, [], getHighestPriorityNode_empty pool false sized nowNs, valid, rfl,
      fun i lt => absurd lt (Nat.not_lt_zero i), sized, ?_⟩
    rw [live_of_size_zero sized]
  | succ n ih =>
    obtain ⟨h₁, top, popped, valid₁, size₁, cap₁, perm, maximal⟩ := pop_spec valid (by omega)
    rw [getHighestPriorityNode_pop (by omega) popped]
    by_cases expired : (pool top).isExpired (nowNs 0) = true
    · obtain ⟨h', r, gone, loop, valid', capacity', discarded, drained⟩ :=
        ih valid₁ (fun k => nowNs (k + 1)) (by omega)
      refine ⟨h', r, top :: gone, ?_, valid', capacity'.trans cap₁, discarded.cons expired,
        drained.cons perm maximal⟩
      rw [if_pos expired, if_neg Bool.false_ne_true, loop]
      rfl
    · refine ⟨h₁, some top, [], by rw [if_neg expired], valid₁, cap₁,
        fun i lt => absurd lt (Nat.not_lt_zero i), by simpa using expired, by simpa using perm,
        by simp, fun y mem => maximal y (perm.symm.subset (List.mem_cons_of_mem _ mem))⟩

theorem getHighestPriorityNode_numa {pool : Nat → Node} {h : LockFreeHeap} {nowNs : Nat → UInt64}
    {x : LockFreeHeap × Option Nat × List Nat} (got : getHighestPriorityNode pool true h nowNs = some x) :
    getHighestPriorityNode pool false h nowNs = some x ∧ x.2.2 = [] := by
  by_cases empty : h.size = 0
  · rw [getHighestPriorityNode_empty pool true empty] at got
    cases got
    exact ⟨getHighestPriorityNode_empty pool false empty nowNs, rfl⟩
  rcases popped : pop (priorities pool) h with _ | ⟨h', _ | node⟩
  · rw [getHighestPriorityNode, if_neg empty] at got
    split at got
    · next heq => rw [popped] at heq; cases heq
    · cases got
  · rw [getHighestPriorityNode_null empty popped] at got; cases got
  rw [getHighestPriorityNode_pop empty popped] at got ⊢
  by_cases expired : (pool node).isExpired (nowNs 0) = true
  · rw [if_pos expired, if_pos rfl] at got; cases got
  · rw [if_neg expired] at got ⊢; cases got; exact ⟨rfl, rfl⟩

theorem getHighestPriorityNode_returns (pool : Nat → Node) (numa : Bool) {h : LockFreeHeap}
    (valid : Valid (priorities pool) h) {nowNs : Nat → UInt64} {h' : LockFreeHeap} {r : Option Nat}
    {gone : List Nat} (got : getHighestPriorityNode pool numa h nowNs = some (h', r, gone)) :
    Valid (priorities pool) h' ∧ h'.capacity = h.capacity ∧ Discarded pool nowNs gone ∧
      Drained pool nowNs h h' gone r := by
  have plain : getHighestPriorityNode pool false h nowNs = some (h', r, gone) := by
    cases numa with
    | false => exact got
    | true => exact (getHighestPriorityNode_numa got).1
  obtain ⟨h'', r', gone', loop, rest⟩ := getHighestPriorityNode_spec pool valid nowNs
  rw [plain] at loop
  cases loop
  exact rest

/-! ### Single-threaded runs -/

/-- A heap as single-threaded runs keep it: valid, and holding only slots below `bound`. -/
structure Held (prio : Nat → Int) (bound : Nat) (h : LockFreeHeap) : Prop where
  valid : Valid prio h
  below : ∀ x ∈ live h, x < bound

theorem Held.init (prio : Nat → Int) (bound capacity : Nat) :
    Held prio bound (LockFreeHeap.init capacity) where
  valid := ⟨Nat.zero_le _, fun i => by simp [LockFreeHeap.init],
    fun i _ => by simp [rank, LockFreeHeap.init]⟩
  below := by simp [live, LockFreeHeap.init]

theorem Held.mono {prio : Nat → Int} {bound bound' : Nat} {h : LockFreeHeap}
    (held : Held prio bound h) (le : bound ≤ bound') : Held prio bound' h :=
  ⟨held.valid, fun x mem => (held.below x mem).trans_le le⟩

theorem Held.update {pool : Nat → Node} {bound index : Nat} {h : LockFreeHeap}
    (held : Held (priorities pool) bound h) (past : bound ≤ index) (node : Node) :
    Held (priorities (Function.update pool index node)) bound h :=
  ⟨held.valid.congr fun x mem => by
    have := held.below x mem
    simp [priorities, Function.update_noteq (show x ≠ index by omega)], held.below⟩

theorem Held.push {prio : Nat → Int} {index : Nat} {h : LockFreeHeap} (held : Held prio index h) :
    Held prio (index + 1) (push prio h index).1 := by
  by_cases room : h.size < h.capacity
  · obtain ⟨h', pushed, valid', -, -, perm⟩ := push_room held.valid room index
    rw [pushed]
    refine ⟨valid', fun x mem => ?_⟩
    rcases List.mem_cons.mp (perm.subset mem) with rfl | old
    · omega
    · have := held.below x old; omega
  · rw [push_full index (not_lt.mp room)]
    exact held.mono (Nat.le_succ _)

theorem held_getOrCreate {prio : Nat → Int} {bound : Nat} {m : LockFreeHashTable}
    (held : ∀ n, Held prio bound (m.heapOf n)) (key : Key) (capacity : Nat) :
    ∀ n, Held prio bound ((m.getOrCreate key capacity).1.heapOf n) := fun n =>
  (m.heapOf_getOrCreate key capacity n).elim (fun same => by rw [same]; exact held n)
    fun new => by rw [new]; exact Held.init prio bound capacity

theorem held_setHeap {prio : Nat → Int} {bound : Nat} {m : LockFreeHashTable}
    (held : ∀ n, Held prio bound (m.heapOf n)) (b : Nat) {h : LockFreeHeap}
    (new : Held prio bound h) : ∀ n, Held prio bound ((m.setHeap b h).heapOf n) := fun n =>
  (m.heapOf_setHeap b h n).elim (fun same => by rw [same]; exact held n)
    fun now => by rw [now]; exact new

@[simp] theorem write_claimed (c : RadialCircularList) (index : Nat) (item : Item) (nowNs : UInt64) :
    (c.write index item nowNs).claimed = c.claimed := rfl

@[simp] theorem addNode_nodePool (c : RadialCircularList) (midpoint : Key) (index : Nat) :
    (c.addNode midpoint index).1.nodePool = c.nodePool := rfl

@[simp] theorem addNode_claimed (c : RadialCircularList) (midpoint : Key) (index : Nat) :
    (c.addNode midpoint index).1.claimed = c.claimed := rfl

theorem held_addNode {c : RadialCircularList} {index : Nat}
    (held : ∀ n, Held (priorities c.nodePool) index (c.midpoints.heapOf n)) (midpoint : Key) :
    ∀ n, Held (priorities c.nodePool) (index + 1)
      ((c.addNode midpoint index).1.midpoints.heapOf n) :=
  have created := held_getOrCreate held midpoint (c.maxNodes / 10)
  held_setHeap (fun n => (created n).mono (Nat.le_succ _)) _ (created _).push

theorem held_place {c : RadialCircularList} {index : Nat}
    (held : ∀ n, Held (priorities c.nodePool) index (c.midpoints.heapOf n)) (item : Item)
    (nowNs : UInt64) :
    ∀ n, Held (priorities ((c.write index item nowNs).addNode item.midpoint index).1.nodePool)
      (index + 1) (((c.write index item nowNs).addNode item.midpoint index).1.midpoints.heapOf n) := by
  rw [addNode_nodePool]
  exact held_addNode (fun n => (held n).update le_rfl _) item.midpoint

theorem placeBatch_counters (start : Nat) (nowNs : Nat → UInt64) :
    ∀ (batch : List Item) (c : RadialCircularList) (i : Nat) {c' : RadialCircularList},
      placeBatch start nowNs c batch i = some c' →
      c'.claimed = c.claimed ∧ c'.poolIndex = c.poolIndex ∧ c'.totalNodes = c.totalNodes ∧
        c'.maxNodes = c.maxNodes ∧ c'.numa = c.numa ∧ c'.deleted = c.deleted
  | [], _, _, _, placed => by cases placed; exact ⟨rfl, rfl, rfl, rfl, rfl, rfl⟩
  | _ :: rest, _, i, _, placed => by
    simp only [placeBatch] at placed
    split_ifs at placed
    have rest := placeBatch_counters start nowNs rest _ (i + 1) placed
    exact rest

theorem placeBatch_isSome (start : Nat) (nowNs : Nat → UInt64) :
    ∀ (batch : List Item) (c : RadialCircularList) (i : Nat),
      (∀ j < batch.length, (start + (i + j)) % sizeModulus < c.maxNodes) →
      (placeBatch start nowNs c batch i).isSome
  | [], _, _, _ => rfl
  | _ :: rest, c, i, inside => by
    have first := inside 0 (Nat.succ_pos _)
    rw [Nat.add_zero] at first
    simp only [placeBatch, if_neg (Nat.not_le.mpr first)]
    exact placeBatch_isSome start nowNs rest _ (i + 1) fun j lt => by
      simpa [Nat.add_assoc, Nat.add_comm 1 j] using inside (j + 1) (by simpa using lt)

theorem held_placeBatch (start : Nat) (nowNs : Nat → UInt64) :
    ∀ (batch : List Item) (c : RadialCircularList) (i : Nat) {c' : RadialCircularList},
      placeBatch start nowNs c batch i = some c' → start + i + batch.length < sizeModulus + 1 →
      (∀ n, Held (priorities c.nodePool) (start + i) (c.midpoints.heapOf n)) →
      ∀ n, Held (priorities c'.nodePool) (start + i + batch.length) (c'.midpoints.heapOf n)
  | [], _, _, _, placed, _, held => by cases placed; exact held
  | item :: rest, c, i, _, placed, fits, held => by
    have unwrapped : (start + i) % sizeModulus = start + i :=
      Nat.mod_eq_of_lt (by simp only [List.length_cons] at fits; omega)
    have shifted : start + i + (item :: rest).length = start + (i + 1) + rest.length := by
      simp only [List.length_cons]; omega
    simp only [placeBatch, unwrapped] at placed
    split_ifs at placed
    rw [shifted]
    exact held_placeBatch start nowNs rest _ (i + 1) placed (by omega) (held_place held item (nowNs i))

/-- The cache once `insert_batch` has claimed its `n` slots. -/
abbrev claimMany (c : RadialCircularList) (n : Nat) : RadialCircularList :=
  { c with poolIndex := (c.poolIndex + n) % sizeModulus, claimed := c.claimed + n }

theorem insertBatch_inv {c c' : RadialCircularList} {batch : List Item} {nowNs : Nat → UInt64}
    {b : Bool} (done : c.insertBatch batch nowNs = some (c', b)) :
    b = false ∧ (c' = c ∨ c' = claimMany c batch.length) ∨
      b = true ∧ ¬ c.maxNodes < (c.totalNodes + batch.length) % sizeModulus ∧
        ¬ c.maxNodes < (c.poolIndex + batch.length) % sizeModulus ∧
        ∃ placed, placeBatch c.poolIndex nowNs (claimMany c batch.length) batch 0 = some placed ∧
          c' = { placed with totalNodes := (placed.totalNodes + batch.length) % sizeModulus } := by
  simp only [insertBatch] at done
  split_ifs at done with full over
  · cases done; exact .inl ⟨rfl, .inl rfl⟩
  · cases done; exact .inl ⟨rfl, .inr rfl⟩
  · obtain ⟨placed, loop, same⟩ := Option.map_eq_some'.mp done
    cases same
    exact .inr ⟨rfl, full, over, placed, loop, rfl⟩

section
variable {c : RadialCircularList} {batch : List Item} {nowNs : Nat → UInt64}

theorem insertBatch_full (full : c.maxNodes < (c.totalNodes + batch.length) % sizeModulus) :
    c.insertBatch batch nowNs = some (c, false) := by
  simp [insertBatch, full]

theorem insertBatch_over (room : ¬ c.maxNodes < (c.totalNodes + batch.length) % sizeModulus)
    (over : c.maxNodes < (c.poolIndex + batch.length) % sizeModulus) :
    c.insertBatch batch nowNs = some (claimMany c batch.length, false) := by
  simp only [insertBatch, if_neg room, if_pos over]

theorem insertBatch_placed (room : ¬ c.maxNodes < (c.totalNodes + batch.length) % sizeModulus)
    (free : ¬ c.maxNodes < (c.poolIndex + batch.length) % sizeModulus) :
    c.insertBatch batch nowNs =
      (placeBatch c.poolIndex nowNs (claimMany c batch.length) batch 0).map fun placed =>
        ({ placed with totalNodes := (placed.totalNodes + batch.length) % sizeModulus }, true) := by
  simp only [insertBatch, if_neg room, if_neg free]

theorem insertBatch_isSome (unwrapped : c.poolIndex + batch.length < sizeModulus) :
    (c.insertBatch batch nowNs).isSome := by
  by_cases full : c.maxNodes < (c.totalNodes + batch.length) % sizeModulus
  · rw [insertBatch_full full]; rfl
  by_cases over : c.maxNodes < (c.poolIndex + batch.length) % sizeModulus
  · rw [insertBatch_over full over]; rfl
  rw [insertBatch_placed full over, Option.isSome_map']
  rw [Nat.mod_eq_of_lt unwrapped] at over
  exact placeBatch_isSome _ _ _ _ _ fun j lt => by
    rw [Nat.zero_add, Nat.mod_eq_of_lt (by omega)]; show _ < c.maxNodes; omega

end

/-- The cache between the calls of a single-threaded run with fewer than `2^64` claims. -/
structure Sound (c : RadialCircularList) : Prop where
  pool : c.poolIndex = c.claimed
  held : ∀ n, Held (priorities c.nodePool) c.claimed (c.midpoints.heapOf n)

theorem sound_init (max : Nat) (fits : max < sizeModulus) (numa : Bool) (nowNs : Nat → UInt64) :
    Sound (init max fits numa nowNs) :=
  ⟨rfl, fun _ => Held.init _ _ 0⟩

theorem Sound.insert {c : RadialCircularList} (sound : Sound c) (item : Item) (nowNs : UInt64)
    (unwrapped : (c.insert item nowNs).1.claimed < sizeModulus) : Sound (c.insert item nowNs).1 := by
  simp only [RadialCircularList.insert] at unwrapped ⊢
  have pool := sound.pool
  split_ifs at unwrapped ⊢
  · exact sound
  all_goals
    simp only [addNode_claimed] at unwrapped
    refine ⟨by simp only [pool]; exact Nat.mod_eq_of_lt unwrapped, ?_⟩
  · exact fun n => (sound.held n).mono (Nat.le_succ _)
  all_goals rw [pool]; exact held_place sound.held item nowNs

theorem Sound.insertBatch {c c' : RadialCircularList} (sound : Sound c) {batch : List Item}
    {nowNs : Nat → UInt64} {b : Bool} (done : c.insertBatch batch nowNs = some (c', b))
    (unwrapped : c'.claimed < sizeModulus) : Sound c' := by
  have pool := sound.pool
  rcases insertBatch_inv done with ⟨-, rfl | rfl⟩ | ⟨-, -, -, placed, loop, rfl⟩
  · exact sound
  · exact ⟨by simp only [pool]; exact Nat.mod_eq_of_lt unwrapped,
      fun n => (sound.held n).mono (Nat.le_add_right _ _)⟩
  · obtain ⟨claimed, index, -⟩ := placeBatch_counters _ _ _ _ _ loop
    simp only [claimed] at unwrapped
    refine ⟨by simp only [index, claimed, pool]; exact Nat.mod_eq_of_lt unwrapped, ?_⟩
    simp only [claimed]
    rw [show c.claimed + batch.length = c.poolIndex + 0 + batch.length by omega]
    exact held_placeBatch c.poolIndex nowNs batch _ 0 loop (by omega)
      (by rw [Nat.add_zero, pool]; exact sound.held)

theorem Sound.getHighestPriority {c c' : RadialCircularList} {r : Option Nat} (sound : Sound c)
    {midpoint : Key} {nowNs : Nat → UInt64} (got : c.getHighestPriority midpoint nowNs = some (c', r)) :
    Sound c' := by
  unfold RadialCircularList.getHighestPriority at got
  split at got
  · cases got; exact sound
  · next b _ =>
    obtain ⟨⟨h', r', gone⟩, loop, same⟩ := Option.map_eq_some'.mp got
    cases same
    obtain ⟨valid', -, -, drained⟩ :=
      getHighestPriorityNode_returns c.nodePool c.numa (sound.held b).valid loop
    exact ⟨sound.pool, held_setHeap sound.held b
      ⟨valid', fun y mem => (sound.held b).below y (drained.subset y mem)⟩⟩

theorem getHighestPriority_frame {c c' : RadialCircularList} {r : Option Nat} {midpoint : Key}
    {nowNs : Nat → UInt64} (got : c.getHighestPriority midpoint nowNs = some (c', r)) :
    c' = { c with midpoints := c'.midpoints, deleted := c'.deleted } := by
  unfold getHighestPriority at got
  split at got
  · cases got; rfl
  · obtain ⟨_, -, same⟩ := Option.map_eq_some'.mp got
    cases same; rfl

theorem getHighestPriority_claimed {c c' : RadialCircularList} {r : Option Nat} {midpoint : Key}
    {nowNs : Nat → UInt64} (got : c.getHighestPriority midpoint nowNs = some (c', r)) :
    c'.claimed = c.claimed := by
  rw [getHighestPriority_frame got]

theorem getHighestPriorityBatch_claimed {c : RadialCircularList} :
    ∀ {midpoints : List Key} {nowNs : Nat → Nat → UInt64} {c' : RadialCircularList}
      {rs : List (Option Nat)}, c.getHighestPriorityBatch midpoints nowNs = some (c', rs) →
      c'.claimed = c.claimed
  | [], _, _, _, got => by cases got; rfl
  | _ :: _, _, _, _, got => by
    obtain ⟨⟨c₁, r⟩, first, others⟩ := Option.bind_eq_some.mp got
    obtain ⟨⟨c₂, rs⟩, rest, same⟩ := Option.map_eq_some'.mp others
    cases same
    exact (getHighestPriorityBatch_claimed rest).trans (getHighestPriority_claimed first)

theorem Sound.getHighestPriorityBatch {c : RadialCircularList} (sound : Sound c) :
    ∀ {midpoints : List Key} {nowNs : Nat → Nat → UInt64} {c' : RadialCircularList}
      {rs : List (Option Nat)}, c.getHighestPriorityBatch midpoints nowNs = some (c', rs) → Sound c'
  | [], _, _, _, got => by cases got; exact sound
  | _ :: _, _, _, _, got => by
    obtain ⟨⟨c₁, r⟩, first, others⟩ := Option.bind_eq_some.mp got
    obtain ⟨⟨c₂, rs⟩, rest, same⟩ := Option.map_eq_some'.mp others
    cases same
    exact (sound.getHighestPriority first).getHighestPriorityBatch rest

theorem insert_claimed (c : RadialCircularList) (item : Item) (nowNs : UInt64) :
    c.claimed ≤ (c.insert item nowNs).1.claimed := by
  simp only [insert]; split_ifs <;> simp

theorem insertBatch_claimed {c c' : RadialCircularList} {batch : List Item} {nowNs : Nat → UInt64}
    {b : Bool} (done : c.insertBatch batch nowNs = some (c', b)) : c.claimed ≤ c'.claimed := by
  rcases insertBatch_inv done with ⟨-, rfl | rfl⟩ | ⟨-, -, -, placed, loop, rfl⟩
  · exact le_rfl
  · exact Nat.le_add_right _ _
  · exact (placeBatch_counters _ _ _ _ _ loop).1.ge.trans' (Nat.le_add_right _ _)

theorem perform_claimed {c c' : RadialCircularList} {op : Op} (done : c.perform op = some c') :
    c.claimed ≤ c'.claimed := by
  cases op with
  | insert item nowNs => cases done; exact insert_claimed c item nowNs
  | insertBatch batch nowNs =>
    obtain ⟨⟨c₁, b⟩, got, same⟩ := Option.map_eq_some'.mp done
    cases same
    exact insertBatch_claimed got
  | getHighestPriority midpoint nowNs =>
    obtain ⟨⟨c₁, r⟩, got, same⟩ := Option.map_eq_some'.mp done
    cases same
    exact (getHighestPriority_claimed got).ge
  | getHighestPriorityBatch midpoints nowNs =>
    obtain ⟨⟨c₁, rs⟩, got, same⟩ := Option.map_eq_some'.mp done
    cases same
    exact (getHighestPriorityBatch_claimed got).ge

theorem Sound.perform {c c' : RadialCircularList} (sound : Sound c) {op : Op}
    (done : c.perform op = some c') (unwrapped : c'.claimed < sizeModulus) : Sound c' := by
  cases op with
  | insert item nowNs => cases done; exact sound.insert item nowNs unwrapped
  | insertBatch batch nowNs =>
    obtain ⟨⟨c₁, b⟩, got, same⟩ := Option.map_eq_some'.mp done
    cases same
    exact sound.insertBatch got unwrapped
  | getHighestPriority midpoint nowNs =>
    obtain ⟨⟨c₁, r⟩, got, same⟩ := Option.map_eq_some'.mp done
    cases same
    exact sound.getHighestPriority got
  | getHighestPriorityBatch midpoints nowNs =>
    obtain ⟨⟨c₁, rs⟩, got, same⟩ := Option.map_eq_some'.mp done
    cases same
    exact sound.getHighestPriorityBatch got

theorem getHighestPriorityBatch_numa {c : RadialCircularList} :
    ∀ {midpoints : List Key} {nowNs : Nat → Nat → UInt64} {c' : RadialCircularList}
      {rs : List (Option Nat)}, c.getHighestPriorityBatch midpoints nowNs = some (c', rs) →
      c'.numa = c.numa
  | [], _, _, _, got => by cases got; rfl
  | _ :: _, _, _, _, got => by
    obtain ⟨⟨c₁, r⟩, first, others⟩ := Option.bind_eq_some.mp got
    obtain ⟨⟨c₂, rs⟩, rest, same⟩ := Option.map_eq_some'.mp others
    cases same
    rw [getHighestPriorityBatch_numa rest, getHighestPriority_frame first]

theorem perform_numa {c c' : RadialCircularList} {op : Op} (done : c.perform op = some c') :
    c'.numa = c.numa := by
  cases op with
  | insert item nowNs => cases done; simp only [insert]; split_ifs <;> rfl
  | insertBatch batch nowNs =>
    obtain ⟨⟨c₁, b⟩, got, same⟩ := Option.map_eq_some'.mp done
    cases same
    rcases insertBatch_inv got with ⟨-, rfl | rfl⟩ | ⟨-, -, -, placed, loop, rfl⟩
    · rfl
    · rfl
    · exact (placeBatch_counters _ _ _ _ _ loop).2.2.2.2.1
  | getHighestPriority midpoint nowNs =>
    obtain ⟨⟨c₁, r⟩, got, same⟩ := Option.map_eq_some'.mp done
    cases same
    rw [getHighestPriority_frame got]
  | getHighestPriorityBatch midpoints nowNs =>
    obtain ⟨⟨c₁, rs⟩, got, same⟩ := Option.map_eq_some'.mp done
    cases same
    exact getHighestPriorityBatch_numa got

theorem numa_of_reachable {max : Nat} {fits : max < sizeModulus} {numa : Bool}
    {nowNs : Nat → UInt64} {s : Option RadialCircularList}
    (run : Interleaving.Reachable call (some (init max fits numa nowNs)) s) :
    ∀ c, s = some c → c.numa = numa := by
  induction run with
  | init => rintro c ⟨⟩; rfl
  | step op _ ih =>
    intro c after
    obtain ⟨c₀, rfl, done⟩ := Option.bind_eq_some.mp after
    exact (perform_numa done).trans (ih c₀ rfl)

theorem sound_of_reachable {max : Nat} {fits : max < sizeModulus} {numa : Bool}
    {nowNs : Nat → UInt64} {s : Option RadialCircularList}
    (run : Interleaving.Reachable call (some (init max fits numa nowNs)) s) :
    ∀ c, s = some c → c.claimed < sizeModulus → Sound c := by
  induction run with
  | init => rintro c ⟨⟩ -; exact sound_init max fits numa nowNs
  | step op _ ih =>
    intro c after unwrapped
    obtain ⟨c₀, rfl, done⟩ := Option.bind_eq_some.mp after
    exact (ih c₀ rfl ((perform_claimed done).trans_lt unwrapped)).perform done unwrapped

/-- A record for the key "A" with the given priority, live for the default 60 s. -/
def sampleItem (priority : Int) : Item := ⟨0, [65], priority, 60000000000⟩

/-- The heap of "A" after its first insert, and after its second. -/
def oneRecordHeap : LockFreeHeap := ({ LockFreeHeap.init 2 with size := 1 } : LockFreeHeap).set 0 (some 0)
def twoRecordHeap : LockFreeHeap := ({ oneRecordHeap with size := 2 } : LockFreeHeap).set 1 (some 1)

def twoRecordTable : LockFreeHashTable :=
  ⟨Function.update (fun _ => none) (LockFreeHashTable.hash [65]) (some 0), [⟨[65], ⟨twoRecordHeap⟩, none⟩]⟩

/-- A cache of 20 slots, so buckets of capacity 2, after inserting "A" with priorities 1 and 0. -/
def twoRecordState (numa : Bool) : RadialCircularList :=
  ⟨twoRecordTable, 20, 2, Function.update (Function.update (fun _ => Node.blank 0) 0
    ⟨0, 1, 0, 60000000000⟩) 1 ⟨0, 0, 0, 60000000000⟩, 2, numa, 2, [], by decide⟩

theorem insert_two_records (numa : Bool) :
    (((init 20 (by decide) numa fun _ => 0).insert (sampleItem 1) 0).1.insert (sampleItem 0) 0).1 =
      twoRecordState numa := by
  have first : ((init 20 (by decide) numa fun _ => 0).insert (sampleItem 1) 0).1 =
      ⟨⟨Function.update (fun _ => none) (LockFreeHashTable.hash [65]) (some 0),
        [⟨[65], ⟨oneRecordHeap⟩, none⟩]⟩, 20, 1,
        Function.update (fun _ => Node.blank 0) 0 ⟨0, 1, 0, 60000000000⟩, 1, numa, 1, [],
        by decide⟩ := by
    simp only [RadialCircularList.insert, init, addNode, write, LockFreeHashTable.getOrCreate, sampleItem]
    simp only [show LockFreeHashTable.init.find [65] = none by decide]
    simp [push_init, LockFreeHashTable.setHeap, LockFreeHashTable.heapOf, LockFreeHashTable.init,
      oneRecordHeap, sizeModulus, Item.record]
  rw [first]
  simp only [RadialCircularList.insert, addNode, write, LockFreeHashTable.getOrCreate, sampleItem]
  rw [show LockFreeHashTable.find ⟨Function.update (fun _ => none) (LockFreeHashTable.hash [65]) (some 0),
    [⟨[65], ⟨oneRecordHeap⟩, none⟩]⟩ [65] = some 0 by decide]
  simp [push, LockFreeHashTable.setHeap, LockFreeHashTable.heapOf, oneRecordHeap, sizeModulus,
    LockFreeHeap.init, siftUp, parent, priorities, twoRecordState, twoRecordTable, twoRecordHeap,
    Item.record]

theorem reachable_twoRecordState (numa : Bool) :
    Interleaving.Reachable call (some (init 20 (by decide) numa fun _ => 0))
      (some (twoRecordState numa)) := by
  have start : Interleaving.Reachable call (some (init 20 (by decide) numa fun _ => 0))
      (some (init 20 (by decide) numa fun _ => 0)) := .init
  have two := (start.step (.insert (sampleItem 1) 0)).step (.insert (sampleItem 0) 0)
  rwa [call, call, Option.some_bind, perform, Option.some_bind, perform, insert_two_records] at two

/-- What `get_highest_priority(k)` does from `c`, its `i`-th expiry check reading `nowNs i`. -/
def Retrieves (c : RadialCircularList) (k : Key) (nowNs : Nat → UInt64) : Prop :=
  ∃ c' r, c.getHighestPriority k nowNs = some (c', r) ∧ c'.nodePool = c.nodePool ∧
    c'.midpoints.buckets = c.midpoints.buckets ∧
    match c.midpoints.find k with
    | none => c' = c ∧ r = none
    | some b => ∃ gone, c'.deleted = c.deleted ++ gone ∧ Discarded c.nodePool nowNs gone ∧
        Drained c.nodePool nowNs (c.midpoints.heapOf b) (c'.midpoints.heapOf b) gone r ∧
        ∀ n, n ≠ b → c'.midpoints.nodes[n]? = c.midpoints.nodes[n]?

theorem Sound.retrieves {c : RadialCircularList} (sound : Sound c) (plain : c.numa = false)
    (k : Key) (nowNs : Nat → UInt64) : Retrieves c k nowNs := by
  unfold Retrieves RadialCircularList.getHighestPriority
  rcases found : c.midpoints.find k with _ | b
  · exact ⟨c, none, rfl, rfl, rfl, rfl, rfl⟩
  · obtain ⟨h', r, gone, loop, -, -, discarded, drained⟩ :=
      getHighestPriorityNode_spec c.nodePool (sound.held b).valid nowNs
    refine ⟨{ c with midpoints := c.midpoints.setHeap b h', deleted := c.deleted ++ gone }, r,
      by dsimp only; rw [plain, loop]; rfl, rfl, rfl, gone, rfl, discarded, ?_,
      fun n ne => c.midpoints.nodes_setHeap_ne h' ne⟩
    rwa [LockFreeHashTable.heapOf_setHeap_self (LockFreeHashTable.find_lt found)]

theorem insert_full_bucket {c : RadialCircularList} {item : Item} {b : Nat}
    (room : c.totalNodes < c.maxNodes) (found : c.midpoints.find item.midpoint = some b)
    (full : (c.midpoints.heapOf b).capacity ≤ (c.midpoints.heapOf b).size) (nowNs : UInt64) :
    (c.insert item nowNs).1 =
      { (if c.poolIndex < c.maxNodes then c.write c.poolIndex item nowNs else c) with
        poolIndex := (c.poolIndex + 1) % sizeModulus, claimed := c.claimed + 1 } := by
  simp only [RadialCircularList.insert, if_neg (not_le.mpr room)]
  by_cases over : c.maxNodes ≤ c.poolIndex
  · rw [if_pos over, if_neg (not_lt.mpr over)]
  · rw [if_neg over, if_pos (not_le.mp over)]
    simp only [addNode, write, LockFreeHashTable.getOrCreate, found, push_full _ full,
      LockFreeHashTable.setHeap_heapOf _ (LockFreeHashTable.find_lt found)]
    rfl

theorem run_full_bucket {c : RadialCircularList} {item : Item} {b : Nat}
    (room : c.totalNodes < c.maxNodes) (found : c.midpoints.find item.midpoint = some b)
    (full : (c.midpoints.heapOf b).capacity ≤ (c.midpoints.heapOf b).size)
    (counted : c.poolIndex < sizeModulus) (nowNs : UInt64) :
    ∀ n, ∃ c', Interleaving.run call (some c) (List.replicate n (.insert item nowNs)) = some c' ∧
      c'.midpoints = c.midpoints ∧ c'.maxNodes = c.maxNodes ∧ c'.totalNodes = c.totalNodes ∧
      c'.poolIndex = (c.poolIndex + n) % sizeModulus ∧
      ∀ s, (∀ j < n, s ≠ (c.poolIndex + j) % sizeModulus) → c'.nodePool s = c.nodePool s
  | 0 => ⟨c, rfl, rfl, rfl, rfl, (Nat.mod_eq_of_lt counted).symm, fun _ _ => rfl⟩
  | n + 1 => by
    obtain ⟨c', run, midpoints, max, total, pool, untouched⟩ :=
      run_full_bucket room found full counted nowNs n
    have earlier : ∀ s, (∀ j < n + 1, s ≠ (c.poolIndex + j) % sizeModulus) →
        ∀ j < n, s ≠ (c.poolIndex + j) % sizeModulus := fun s fresh j lt => fresh j (by omega)
    have advanced : (c'.poolIndex + 1) % sizeModulus = (c.poolIndex + (n + 1)) % sizeModulus := by
      rw [pool, Nat.mod_add_mod, Nat.add_assoc]
    refine ⟨(c'.insert item nowNs).1, by rw [List.replicate_succ', Interleaving.run_append, run]; rfl, ?_⟩
    rw [insert_full_bucket (by rw [max, total]; exact room) (by rw [midpoints]; exact found)
      (by rw [midpoints]; exact full)]
    split_ifs
    · refine ⟨midpoints, max, total, advanced, fun s fresh => ?_⟩
      simp only [write]
      rw [Function.update_noteq (by rw [pool]; exact fresh n (by omega)), untouched s (earlier s fresh)]
    · exact ⟨midpoints, max, total, advanced, fun s fresh => untouched s (earlier s fresh)⟩

end RadialCircularList

end RadialCache
