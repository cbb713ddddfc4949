import RadialCache.Basic

/-! `LockFreeQueue<T>` from `lockfree_queue.hpp`: a Michael–Scott queue whose dequeued dummies are
recycled through an unversioned Treiber-stack free list. Nodes are addressed by allocation order,
and a deleted node is marked dead, so that any later access to it is a fault. -/

namespace RadialCache

/-- `LockFreeQueue::Node`: `data`, the atomic `next`, and whether it is still allocated. -/
structure QueueNode where
  data : Nat
  next : Option Nat
  live : Bool
deriving DecidableEq, Repr

/-- The shared part of a queue: its nodes, `head_`, `tail_`, `free_list_` and `free_count_`. -/
structure LockFreeQueue where
  nodes : List QueueNode
  head : Nat
  tail : Nat
  freeList : Option Nat
  freeCount : Nat

namespace LockFreeQueue

def MAX_FREE_NODES : Nat := 1000

/-- The constructor: one dummy node, empty free list. -/
def init : LockFreeQueue := ⟨[⟨0, none, true⟩], 0, 0, none, 0⟩

/-- The node at an address, if it has not been deleted. -/
def node? (q : LockFreeQueue) (n : Nat) : Option QueueNode :=
  (q.nodes[n]?).filter (·.live)

/-- Rewrite one node. -/
def update (q : LockFreeQueue) (n : Nat) (f : QueueNode → QueueNode) : LockFreeQueue :=
  { q with nodes := q.nodes.modify f n }

/-- `new Node(value)`: a fresh node at the end of the address space. -/
def alloc (q : LockFreeQueue) (value : Nat) : LockFreeQueue × Nat :=
  ({ q with nodes := q.nodes ++ [⟨value, none, true⟩] }, q.nodes.length)

/-- Program points of `enqueue(value)`, including the inlined `allocate_node(value)`. -/
inductive EnqueuePc where
  /-- `free_node = free_list_.load()`; on `nullptr`, `new Node(value)`. -/
  | loadFree
  /-- `next = free_node->next.load()`. -/
  | loadFreeNext (freeNode : Nat)
  /-- `free_list_.compare_exchange_weak(free_node, next)`. -/
  | popFree (freeNode : Nat) (next : Option Nat)
  /-- `free_count_.fetch_sub(1)`. -/
  | uncount (node : Nat)
  /-- `free_node->data = value`. -/
  | fill (node : Nat)
  /-- `free_node->next.store(nullptr)`. -/
  | clear (node : Nat)
  /-- `tail = tail_.load()`. -/
  | loadTail (node : Nat)
  /-- `next = tail->next.load()`. -/
  | loadNext (node tail : Nat)
  /-- `tail == tail_.load()`, then the null test on `next`. -/
  | recheck (node tail : Nat) (next : Option Nat)
  /-- `tail->next.compare_exchange_weak(next, new_node)`. -/
  | link (node tail : Nat)
  /-- `tail_.compare_exchange_strong(tail, new_node)`, then return. -/
  | swing (node tail : Nat)
  /-- `tail_.compare_exchange_strong(tail, next)` to help a lagging tail. -/
  | help (node tail next : Nat)
deriving DecidableEq, Repr

/-- One atomic step of `enqueue(value)`. -/
def enqueueStep (value : Nat) (q : LockFreeQueue) : EnqueuePc → LockFreeQueue × Control EnqueuePc Unit
  | .loadFree =>
      match q.freeList with
      | none => let (q, n) := q.alloc value; (q, .next (.loadTail n))
      | some f => (q, .next (.loadFreeNext f))
  | .loadFreeNext f =>
      match q.node? f with
      | some b => (q, .next (.popFree f b.next))
      | none => (q, .fault)
  | .popFree f next =>
      if q.freeList = some f then ({ q with freeList := next }, .next (.uncount f))
      else match q.freeList with
        | none => let (q, n) := q.alloc value; (q, .next (.loadTail n))
        | some f' => (q, .next (.loadFreeNext f'))
  | .uncount n =>
      ({ q with freeCount := (q.freeCount + (sizeModulus - 1)) % sizeModulus }, .next (.fill n))
  | .fill n =>
      match q.node? n with
      | some _ => (q.update n ({ · with data := value }), .next (.clear n))
      | none => (q, .fault)
  | .clear n =>
      match q.node? n with
      | some _ => (q.update n ({ · with next := none }), .next (.loadTail n))
      | none => (q, .fault)
  | .loadTail n => (q, .next (.loadNext n q.tail))
  | .loadNext n tail =>
      match q.node? tail with
      | some b => (q, .next (.recheck n tail b.next))
      | none => (q, .fault)
  | .recheck n tail next =>
      (q, if tail = q.tail then
            match next with
            | none => .next (.link n tail)
            | some next => .next (.help n tail next)
          else .next (.loadTail n))
  | .link n tail =>
      match q.node? tail with
      | some { next := none, .. } => (q.update tail ({ · with next := some n }), .next (.swing n tail))
      | some _ => (q, .next (.loadTail n))
      | none => (q, .fault)
  | .swing n tail => (if q.tail = tail then { q with tail := n } else q, .ret ())
  | .help n tail next => (if q.tail = tail then { q with tail := next } else q, .next (.loadTail n))

/-- Program points of `dequeue(value)`, including the inlined `deallocate_node(head)`. -/
inductive DequeuePc where
  /-- `head = head_.load()`. -/
  | loadHead
  /-- `tail = tail_.load()`. -/
  | loadTail (head : Nat)
  /-- `next = head->next.load()`. -/
  | loadNext (head tail : Nat)
  /-- `head == head_.load()`, then the emptiness and lag tests. -/
  | recheck (head tail : Nat) (next : Option Nat)
  /-- `tail_.compare_exchange_strong(tail, next)`. -/
  | help (tail next : Nat)
  /-- `value = next->data`. -/
  | read (head next : Nat)
  /-- `head_.compare_exchange_weak(head, next)`. -/
  | advance (head next value : Nat)
  /-- `deallocate_node`: `free_count_.load()` against `MAX_FREE_NODES`. -/
  | checkFree (node value : Nat)
  /-- `old_head = free_list_.load()`. -/
  | loadFree (node value : Nat)
  /-- `node->next.store(old_head)`. -/
  | linkFree (node value : Nat) (oldHead : Option Nat)
  /-- `free_list_.compare_exchange_weak(old_head, node)`; on failure `delete node`. -/
  | pushFree (node value : Nat) (oldHead : Option Nat)
  /-- `free_count_.fetch_add(1)`, then `return true`. -/
  | count (value : Nat)
deriving DecidableEq, Repr

/-- `delete node`. -/
def delete (q : LockFreeQueue) (n : Nat) : LockFreeQueue := q.update n ({ · with live := false })

/-- One atomic step of `dequeue(value)`; the result is the value dequeued, or `none` for `false`. -/
def dequeueStep (q : LockFreeQueue) : DequeuePc → LockFreeQueue × Control DequeuePc (Option Nat)
  | .loadHead => (q, .next (.loadTail q.head))
  | .loadTail head => (q, .next (.loadNext head q.tail))
  | .loadNext head tail =>
      match q.node? head with
      | some b => (q, .next (.recheck head tail b.next))
      | none => (q, .fault)
  | .recheck head tail next =>
      (q, if head = q.head then
            match next with
            | none => if head = tail then .ret none else .next .loadHead
            | some next => if head = tail then .next (.help tail next) else .next (.read head next)
          else .next .loadHead)
  | .help tail next => (if q.tail = tail then { q with tail := next } else q, .next .loadHead)
  | .read head next =>
      match q.node? next with
      | some b => (q, .next (.advance head next b.data))
      | none => (q, .fault)
  | .advance head next value =>
      if q.head = head then ({ q with head := next }, .next (.checkFree head value))
      else (q, .next .loadHead)
  | .checkFree n value =>
      if q.freeCount < MAX_FREE_NODES then (q, .next (.loadFree n value))
      else (q.delete n, .ret (some value))
  | .loadFree n value => (q, .next (.linkFree n value q.freeList))
  | .linkFree n value oldHead =>
      match q.node? n with
      | some _ => (q.update n ({ · with next := oldHead }), .next (.pushFree n value oldHead))
      | none => (q, .fault)
  | .pushFree n value oldHead =>
      if q.freeList = oldHead then ({ q with freeList := some n }, .next (.count value))
      else (q.delete n, .ret (some value))
  | .count value => ({ q with freeCount := (q.freeCount + 1) % sizeModulus }, .ret (some value))

/-- A client thread of the queue. -/
inductive Call where
  | idle
  | enqueue (value : Nat) (pc : EnqueuePc)
  | dequeue (pc : DequeuePc)
  | fault
deriving DecidableEq, Repr

/-- The queue, its clients, the values enqueued, and the values successful `dequeue`s returned. -/
structure Clients where
  queue : LockFreeQueue
  threads : List Call
  enqueued : List Nat
  dequeued : List Nat

inductive Act where
  | enqueue (thread value : Nat)
  | dequeue (thread : Nat)
  | tick (thread : Nat)
deriving DecidableEq, Repr

namespace Clients

def init (threads : Nat) : Clients := ⟨LockFreeQueue.init, List.replicate threads .idle, [], []⟩

def step (s : Clients) : Act → Clients
  | .enqueue t value =>
      if s.threads[t]? = some .idle then
        { s with threads := s.threads.set t (.enqueue value .loadFree), enqueued := s.enqueued ++ [value] }
      else s
  | .dequeue t =>
      if s.threads[t]? = some .idle then { s with threads := s.threads.set t (.dequeue .loadHead) } else s
  | .tick t =>
      match s.threads[t]? with
      | some (.enqueue value pc) =>
          match enqueueStep value s.queue pc with
          | (q, .next pc) => { s with queue := q, threads := s.threads.set t (.enqueue value pc) }
          | (q, .ret ()) => { s with queue := q, threads := s.threads.set t .idle }
          | (q, .fault) => { s with queue := q, threads := s.threads.set t .fault }
      | some (.dequeue pc) =>
          match dequeueStep s.queue pc with
          | (q, .next pc) => { s with queue := q, threads := s.threads.set t (.dequeue pc) }
          | (q, .ret value) =>
              { s with queue := q, threads := s.threads.set t .idle, dequeued := s.dequeued ++ value.toList }
          | (q, .fault) => { s with queue := q, threads := s.threads.set t .fault }
      | _ => s

end Clients

/-- `k` steps of thread `t`. -/
def ticks (t k : Nat) : List Act := List.replicate k (.tick t)

open Interleaving

/-- No value is dequeued more often than it was enqueued, as linearizability to a FIFO implies. -/
def NoExtraDequeue (s : Clients) : Prop := ∀ v, s.dequeued.count v ≤ s.enqueued.count v

/-- Thread 1's stale `head_` CAS succeeds on a recycled dummy (ABA): 10 is dequeued twice. -/
def headAba : List Act :=
  [.enqueue 0 10] ++ ticks 0 6 ++ [.dequeue 1] ++ ticks 1 5 ++ [.dequeue 2] ++ ticks 2 11 ++
    [.enqueue 0 30] ++ ticks 0 11 ++ [.dequeue 2] ++ ticks 2 11 ++ ticks 1 6

set_option maxRecDepth 20000 in
theorem no_extra_dequeue_fails :
    ¬ ∀ (threads : Nat) (s : Clients), Reachable Clients.step (Clients.init threads) s →
      NoExtraDequeue s := by
  intro law
  exact absurd (law 3 _ (reachable_run .init headAba) 10) (by decide)

end LockFreeQueue

end RadialCache
