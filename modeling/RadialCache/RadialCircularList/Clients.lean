import RadialCache.RadialCircularList.Sequential

/-! `RadialCircularList` shared by client threads at the grain of their atomic operations, with the
steps of `LockFreeHashTable` and `LockFreeHeap` inlined. The state keeps every record stored,
every record returned, and the slots of the inserts that returned `true`. -/

namespace RadialCache.RadialCircularList

open LockFreeHeap LockFreeHashTable

/-- Program points of `insert(value, midpoint, priority, expiry_time)`. -/
inductive InsertPc where
  /-- `current_nodes = total_nodes.load()` and the capacity test. -/
  | start
  /-- `index = pool_index.fetch_add(1)` and the bound test. -/
  | claim
  /-- The four stores through `node_pool[index]`, which read the clock once. -/
  | write (index : Nat)
  /-- `midpoints.get_or_create(midpoint, max_nodes / 10)`. -/
  | create (index : Nat) (pc : GetOrCreatePc)
  /-- `->add_node(node)`: `push` on the heap of bucket node `bucket`. -/
  | add (index bucket : Nat) (pc : PushPc)
  /-- `total_nodes.fetch_add(1)`. -/
  | count (index : Nat)
deriving DecidableEq, Repr

/-- One atomic step of `insert`; `nowNs` is the clock, if the step reads it. -/
def insertStep (item : Item) (nowNs : UInt64) (c : RadialCircularList) :
    InsertPc → RadialCircularList × Control InsertPc Bool
  | .start => (c, if c.maxNodes ≤ c.totalNodes then .ret false else .next .claim)
  | .claim =>
      ({ c with poolIndex := (c.poolIndex + 1) % sizeModulus, claimed := c.claimed + 1 },
        if c.maxNodes ≤ c.poolIndex then .ret false else .next (.write c.poolIndex))
  | .write index => (c.write index item nowNs, .next (.create index .start))
  | .create index pc =>
      let created := getOrCreateStep item.midpoint (c.maxNodes / 10) c.midpoints pc
      ({ c with midpoints := created.1 },
        created.2.andThen (.create index) fun bucket => .next (.add index bucket .start))
  | .add index bucket pc =>
      let pushed := pushStep (priorities c.nodePool) index (c.midpoints.heapOf bucket) pc
      ({ c with midpoints := c.midpoints.setHeap bucket pushed.1 },
        pushed.2.andThen (.add index bucket) fun added =>
          if added then .next (.count index) else .ret false)
  | .count _ => ({ c with totalNodes := (c.totalNodes + 1) % sizeModulus }, .ret true)

/-- Program points of `insert_batch(batch)`; `start` is `start_index`, `i` the loop index. -/
inductive BatchPc where
  /-- `current_nodes = total_nodes.load()` and the capacity test. -/
  | start
  /-- `start_index = pool_index.fetch_add(batch_size)` and the bound test. -/
  | claim
  /-- The loop test, then the stores through `node_pool[start_index + i]`. -/
  | write (start i : Nat)
  /-- `midpoints.get_or_create(midpoint, max_nodes / 10)` for item `i`. -/
  | create (start i : Nat) (item : Item) (pc : GetOrCreatePc)
  /-- `->add_node(node)` for item `i`, whose result is ignored. -/
  | add (start i : Nat) (item : Item) (bucket : Nat) (pc : PushPc)
  /-- `total_nodes.fetch_add(batch_size)`. -/
  | count (start : Nat)
deriving DecidableEq, Repr

/-- One atomic step of `insert_batch`. -/
def insertBatchStep (batch : List Item) (nowNs : UInt64) (c : RadialCircularList) :
    BatchPc → RadialCircularList × Control BatchPc Bool
  | .start =>
      (c, if c.maxNodes < (c.totalNodes + batch.length) % sizeModulus then .ret false
        else .next .claim)
  | .claim =>
      ({ c with poolIndex := (c.poolIndex + batch.length) % sizeModulus,
                claimed := c.claimed + batch.length },
        if c.maxNodes < (c.poolIndex + batch.length) % sizeModulus then .ret false
        else .next (.write c.poolIndex 0))
  | .write start i =>
      match batch[i]? with
      | some item =>
          if c.maxNodes ≤ (start + i) % sizeModulus then (c, .fault)
          else (c.write ((start + i) % sizeModulus) item nowNs, .next (.create start i item .start))
      | none => (c, .next (.count start))
  | .create start i item pc =>
      let created := getOrCreateStep item.midpoint (c.maxNodes / 10) c.midpoints pc
      ({ c with midpoints := created.1 },
        created.2.andThen (.create start i item) fun bucket =>
          .next (.add start i item bucket .start))
  | .add start i item bucket pc =>
      let pushed := pushStep (priorities c.nodePool) ((start + i) % sizeModulus)
        (c.midpoints.heapOf bucket) pc
      ({ c with midpoints := c.midpoints.setHeap bucket pushed.1 },
        pushed.2.andThen (.add start i item bucket) fun _ => .next (.write start (i + 1)))
  | .count _ =>
      ({ c with totalNodes := (c.totalNodes + batch.length) % sizeModulus }, .ret true)

/-- Program points of `get_highest_priority(midpoint)`, with the loop of its bucket's node. -/
inductive RetrievePc where
  /-- `midpoints.get(midpoint)`. -/
  | find (pc : GetPc)
  /-- The loop test `!nodes.empty()`: `size_.load() == 0`. -/
  | empty (bucket : Nat)
  /-- `nodes.pop()`. -/
  | pop (bucket : Nat) (pc : PopPc)
  /-- `node->is_expired()`, which reads the clock, then `delete node` or the return. -/
  | check (bucket slot : Nat)
deriving DecidableEq, Repr

/-- One atomic step of `get_highest_priority`; undefined behaviour is `.fault`. -/
def getHighestPriorityStep (midpoint : Key) (nowNs : UInt64) (c : RadialCircularList) :
    RetrievePc → RadialCircularList × Control RetrievePc (Option Nat)
  | .find pc =>
      (c, (getStep midpoint c.midpoints pc).andThen .find fun found =>
        match found with
        | none => .ret none
        | some bucket => .next (.empty bucket))
  | .empty bucket =>
      (c, if (c.midpoints.heapOf bucket).size = 0 then .ret none else .next (.pop bucket .start))
  | .pop bucket pc =>
      let popped := popStep (priorities c.nodePool) (c.midpoints.heapOf bucket) pc
      ({ c with midpoints := c.midpoints.setHeap bucket popped.1 },
        popped.2.andThen (.pop bucket) fun top =>
          match top with
          | none => .fault
          | some slot => .next (.check bucket slot))
  | .check bucket slot =>
      if slot ∈ c.deleted then (c, .fault)
      else if (c.nodePool slot).isExpired nowNs then
        if c.numa then (c, .fault)
        else ({ c with deleted := c.deleted ++ [slot] }, .next (.empty bucket))
      else (c, .ret (some slot))

/-- A client thread: idle, inside a call, or faulted; a batch retrieval runs its keys in turn. -/
inductive Call where
  | idle
  | insert (item : Item) (pc : InsertPc)
  | insertBatch (batch : List Item) (pc : BatchPc)
  | getHighestPriority (midpoint : Key) (pc : RetrievePc)
  | getHighestPriorityBatch (midpoint : Key) (pending : List Key) (pc : RetrievePc)
  | fault
deriving DecidableEq, Repr

/-- A record stored into arena slot `slot` by an `insert` or a batch item for `midpoint`. -/
structure Write where
  slot : Nat
  midpoint : Key
  record : Node
deriving DecidableEq, Repr

/-- A non-null `Node*` returned for `midpoint`, with the record its check read and that clock. -/
structure Retrieval where
  midpoint : Key
  slot : Nat
  record : Node
  nowNs : UInt64
deriving DecidableEq, Repr

/-- The cache, the client threads, and the history of stores, returned records and settled slots. -/
structure Clients where
  cache : RadialCircularList
  threads : List Call
  writes : List Write
  returned : List Retrieval
  settled : List Nat

/-- Start a call on an idle thread, or run one step of a thread with the clock reading `nowNs`. -/
inductive Act where
  | insert (thread : Nat) (item : Item)
  | insertBatch (thread : Nat) (batch : List Item)
  | getHighestPriority (thread : Nat) (midpoint : Key)
  | getHighestPriorityBatch (thread : Nat) (midpoints : List Key)
  | tick (thread : Nat) (nowNs : UInt64)

/-- The arena store of one `insert` step. -/
def insertWrites (item : Item) (nowNs : UInt64) : InsertPc → List Write
  | .write index => [⟨index, item.midpoint, item.record nowNs⟩]
  | _ => []

/-- The slot an `insert` settles: its `count` step returns `true`. -/
def insertSettles : InsertPc → List Nat
  | .count index => [index]
  | _ => []

/-- The arena store of one `insert_batch` step, none past `node_pool`'s `max` pointers. -/
def batchWrites (batch : List Item) (max : Nat) (nowNs : UInt64) : BatchPc → List Write
  | .write start i =>
      if max ≤ (start + i) % sizeModulus then []
      else (batch[i]?).toList.map fun item => ⟨(start + i) % sizeModulus, item.midpoint, item.record nowNs⟩
  | _ => []

/-- The slots an `insert_batch` settles: its `count` step returns `true`. -/
def batchSettles (batch : List Item) : BatchPc → List Nat
  | .count start => (List.range batch.length).map fun i => (start + i) % sizeModulus
  | _ => []

/-- The record a retrieval step returns, as its check read it in `c`. -/
def retrieved (midpoint : Key) (nowNs : UInt64) (c : RadialCircularList) :
    Control RetrievePc (Option Nat) → List Retrieval
  | .ret (some slot) => [⟨midpoint, slot, c.nodePool slot, nowNs⟩]
  | _ => []

/-- Where a thread goes after a step of its call. -/
def resume {π ρ : Type} (k : Control π ρ) (call : π → Call) : Call :=
  match k with
  | .next pc => call pc
  | .ret _ => .idle
  | .fault => .fault

/-- Where a batch retrieval goes after a step of its current `get_highest_priority`. -/
def resumeBatch (midpoint : Key) (pending : List Key) : Control RetrievePc (Option Nat) → Call
  | .next pc => .getHighestPriorityBatch midpoint pending pc
  | .ret _ =>
      match pending with
      | [] => .idle
      | next :: rest => .getHighestPriorityBatch next rest (.find .start)
  | .fault => .fault

namespace Clients

/-- `threads` idle clients over `RadialCircularList(max)`. -/
def init (max : Nat) (fits : max < sizeModulus) (numa : Bool) (nowNs : Nat → UInt64)
    (threads : Nat) : Clients :=
  ⟨RadialCircularList.init max fits numa nowNs, List.replicate threads .idle, [], [], []⟩

/-- Start `call` on thread `t` if it is idle. -/
def invoke (s : Clients) (t : Nat) (call : Call) : Clients :=
  if s.threads[t]? = some .idle then { s with threads := s.threads.set t call } else s

/-- One step of thread `t` inside `call`, with the clock reading `nowNs`. -/
def advance (s : Clients) (t : Nat) (nowNs : UInt64) : Call → Clients
  | .insert item pc =>
      let stepped := insertStep item nowNs s.cache pc
      { s with
        cache := stepped.1
        threads := s.threads.set t (resume stepped.2 (.insert item))
        writes := s.writes ++ insertWrites item nowNs pc
        settled := s.settled ++ insertSettles pc }
  | .insertBatch batch pc =>
      let stepped := insertBatchStep batch nowNs s.cache pc
      { s with
        cache := stepped.1
        threads := s.threads.set t (resume stepped.2 (.insertBatch batch))
        writes := s.writes ++ batchWrites batch s.cache.maxNodes nowNs pc
        settled := s.settled ++ batchSettles batch pc }
  | .getHighestPriority midpoint pc =>
      let stepped := getHighestPriorityStep midpoint nowNs s.cache pc
      { s with
        cache := stepped.1
        threads := s.threads.set t (resume stepped.2 (.getHighestPriority midpoint))
        returned := s.returned ++ retrieved midpoint nowNs s.cache stepped.2 }
  | .getHighestPriorityBatch midpoint pending pc =>
      let stepped := getHighestPriorityStep midpoint nowNs s.cache pc
      { s with
        cache := stepped.1
        threads := s.threads.set t (resumeBatch midpoint pending stepped.2)
        returned := s.returned ++ retrieved midpoint nowNs s.cache stepped.2 }
  | _ => s

/-- One scheduler choice; a busy start or an idle step changes nothing, an empty batch returns. -/
def step (s : Clients) : Act → Clients
  | .insert t item => s.invoke t (.insert item .start)
  | .insertBatch t batch => s.invoke t (.insertBatch batch .start)
  | .getHighestPriority t midpoint => s.invoke t (.getHighestPriority midpoint (.find .start))
  | .getHighestPriorityBatch _ [] => s
  | .getHighestPriorityBatch t (midpoint :: pending) =>
      s.invoke t (.getHighestPriorityBatch midpoint pending (.find .start))
  | .tick t nowNs =>
      match s.threads[t]? with
      | some call => s.advance t nowNs call
      | none => s

/-- The state after a schedule. -/
def run (s : Clients) (schedule : List Act) : Clients := Interleaving.run step s schedule

end Clients

/-! ### Two retrievers on one bucket -/

/-- No retrieval is at a `pop` that will return a `nullptr` for its loop to dereference. -/
def PopsNonNull (s : Clients) : Prop :=
  ∀ (t : Nat) (midpoint : Key) (bucket : Nat) (pc : PopPc),
    s.threads[t]? = some (.getHighestPriority midpoint (.pop bucket pc)) →
    (popStep (priorities s.cache.nodePool) (s.cache.midpoints.heapOf bucket) pc).2 ≠ .ret none

/-- Threads 1 and 2 both retrieve the only record of "A", thread 1 having passed `empty()` first. -/
def twoRetrievers : List Act :=
  [.insert 0 ⟨7, [65], 1, 60000000000⟩] ++ List.replicate 13 (.tick 0 5) ++
    [.getHighestPriority 1 [65]] ++ List.replicate 3 (.tick 1 9) ++
    [.getHighestPriority 2 [65]] ++ List.replicate 8 (.tick 2 9)

set_option maxRecDepth 20000 in
/-- Thread 1's `pop` then finds `size_` at 0 and returns `nullptr`, which its loop dereferences. -/
theorem retrieval_pops_null : ¬ ∀ max fits nowNs threads s,
    Interleaving.Reachable Clients.step (Clients.init max fits false nowNs threads) s →
      PopsNonNull s := by
  intro law
  have safe := law 20 (by decide) (fun _ => 0) 3 _ (Interleaving.reachable_run .init twoRetrievers)
  exact safe 1 [65] 0 .start (by decide) (by decide)

end RadialCache.RadialCircularList
