import RadialCache.Basic
import Mathlib.Data.List.Nodup

/-! `MemoryManager` from `memory_manager.cpp`. The state records every block `allocate_on_numa`
returned and every block `deallocate_from_numa` freed, so the bookkeeping of the pool, the expiry
queue and the destructor can be checked against them. -/

namespace RadialCache

/-- The fields of `CacheConfig` that the manager and `validate_config` read, with their defaults. -/
structure CacheConfig where
  maxNodes : Nat := 10000
  cleanupIntervalMs : Nat := 1000
  maxMemoryMb : Nat := 1024
  enableMemoryPool : Bool := true
  numWorkerThreads : Nat := 4
  batchSize : Nat := 100
  hashTableBuckets : Nat := 256
  maxExpiredNodesPerCleanup : Nat := 1000
deriving DecidableEq, Repr

/-- `CacheConfig::validate_config`. -/
def CacheConfig.validateConfig (c : CacheConfig) : Bool :=
  0 < c.maxNodes && 0 < c.cleanupIntervalMs && 0 < c.maxMemoryMb && 0 < c.numWorkerThreads &&
    0 < c.batchSize && 0 < c.hashTableBuckets

theorem CacheConfig.default_valid : ({} : CacheConfig).validateConfig = true := rfl

/-- `sizeof(Node)` on x86-64: a `double`, an `int` padded to 8 bytes and two `uint64_t`. -/
def nodeSize : Nat := 32

/-- The manager's counters and containers, with the blocks obtained and the blocks freed. -/
structure MemoryManager where
  config : CacheConfig
  nodePool : List Nat
  poolIndex : Nat
  allocatedNodes : Nat
  expiredNodes : List Nat
  totalMemoryUsage : Nat
  memoryBlocks : List (Nat × Nat)
  allocations : Nat
  deallocations : Nat
  cleanupCycles : Nat
  nextBlock : Nat
  obtained : List Nat
  released : List Nat

namespace MemoryManager

/-- `fetch_add` on a `size_t`. -/
def wrapAdd (a b : Nat) : Nat := (a + b) % sizeModulus

/-- `fetch_sub` on a `size_t`. -/
def wrapSub (a b : Nat) : Nat := (a + (sizeModulus - b % sizeModulus)) % sizeModulus

/-- `allocate_on_numa(size, numa_node)`: a fresh block, with `size` added to the usage. -/
def allocateOnNuma (m : MemoryManager) (size : Nat) : MemoryManager × Nat :=
  ({ m with totalMemoryUsage := wrapAdd m.totalMemoryUsage size, nextBlock := m.nextBlock + 1,
            obtained := m.obtained ++ [m.nextBlock] }, m.nextBlock)

/-- `deallocate_from_numa(ptr, size, numa_node)`: frees the block and subtracts `size`. -/
def deallocateFromNuma (m : MemoryManager) (ptr size : Nat) : MemoryManager :=
  { m with totalMemoryUsage := wrapSub m.totalMemoryUsage size, released := m.released ++ [ptr] }

/-- `total_memory_usage_.fetch_sub(sizeof(Node))` as written after each cleanup release. -/
def subUsage (m : MemoryManager) : MemoryManager :=
  { m with totalMemoryUsage := wrapSub m.totalMemoryUsage nodeSize }

/-- The constructor's pre-allocation loop, which counts each node into the usage a second time. -/
def preallocate (m : MemoryManager) : Nat → MemoryManager
  | 0 => m
  | k + 1 =>
      let (m', node) := m.allocateOnNuma nodeSize
      preallocate { m' with nodePool := m'.nodePool ++ [node],
                            totalMemoryUsage := wrapAdd m'.totalMemoryUsage nodeSize } k

/-- `MemoryManager(config)`: an invalid configuration throws; otherwise the pool is filled. -/
def create (config : CacheConfig) : Except String MemoryManager :=
  if config.validateConfig then
    let empty : MemoryManager := ⟨config, [], 0, 0, [], 0, [], 0, 0, 0, 0, [], []⟩
    .ok (if config.enableMemoryPool then preallocate empty config.maxNodes else empty)
  else .error "Invalid cache configuration"

/-- The release loop of both cleanups: `deallocate_from_numa` and a second `fetch_sub` per node. -/
def releaseAll (m : MemoryManager) (nodes : List Nat) : MemoryManager :=
  nodes.foldl (fun m node => (m.deallocateFromNuma node nodeSize).subUsage) m

/-- `cleanup_expired_nodes`: releases at most `max_expired_nodes_per_cleanup` queued nodes. -/
def cleanupExpiredNodes (m : MemoryManager) : MemoryManager :=
  let count := min m.expiredNodes.length m.config.maxExpiredNodesPerCleanup
  let m' := { m with expiredNodes := m.expiredNodes.drop count }
  { releaseAll m' (m.expiredNodes.take count) with cleanupCycles := m.cleanupCycles + 1 }

/-- `emergency_cleanup`: swaps the whole queue out and releases it. -/
def emergencyCleanup (m : MemoryManager) : MemoryManager :=
  releaseAll { m with expiredNodes := [] } m.expiredNodes

/-- `~MemoryManager`: the emergency cleanup, every pooled node, then every fallback block. -/
def destroy (m : MemoryManager) : MemoryManager :=
  let m := m.emergencyCleanup
  let m := m.nodePool.foldl (fun m node => m.deallocateFromNuma node nodeSize) m
  m.memoryBlocks.foldl (fun m block => m.deallocateFromNuma block.1 block.2) m

/-- `is_memory_available`. -/
def isMemoryAvailable (m : MemoryManager) : Bool :=
  m.allocatedNodes < m.config.maxNodes &&
    m.totalMemoryUsage < m.config.maxMemoryMb * 1024 * 1024 % sizeModulus

/-- `validate_memory_integrity`. -/
def validateMemoryIntegrity (m : MemoryManager) : Bool :=
  !(m.config.maxNodes < m.allocatedNodes) &&
    !(m.config.maxMemoryMb * 1024 * 1024 % sizeModulus < m.totalMemoryUsage) &&
    !(m.nodePool.length < m.poolIndex)

/-- The fallback path of `allocate_node`: `numa_allocate`, both counters, and the block record. -/
def allocateFallback (m : MemoryManager) : MemoryManager × Option Nat :=
  let (m, node) := m.allocateOnNuma nodeSize
  ({ m with allocatedNodes := wrapAdd m.allocatedNodes 1, allocations := wrapAdd m.allocations 1,
            memoryBlocks := m.memoryBlocks ++ [(node, nodeSize)] }, some node)

/-- `allocate_node`, run by a single thread. -/
def allocateNode (m : MemoryManager) : MemoryManager × Option Nat :=
  if !m.isMemoryAvailable then (m, none)
  else if m.config.enableMemoryPool && m.poolIndex < m.nodePool.length then
    let index := m.poolIndex
    let m := { m with poolIndex := wrapAdd m.poolIndex 1 }
    if index < m.nodePool.length then
      ({ m with allocatedNodes := wrapAdd m.allocatedNodes 1,
                allocations := wrapAdd m.allocations 1 }, m.nodePool[index]?)
    else allocateFallback m
  else allocateFallback m

/-- `deallocate_node` with `mark_for_cleanup`: the node is queued, not freed. -/
def deallocateNode (m : MemoryManager) : Option Nat → MemoryManager
  | none => m
  | some node =>
      { m with deallocations := wrapAdd m.deallocations 1,
               allocatedNodes := wrapSub m.allocatedNodes 1, expiredNodes := m.expiredNodes ++ [node] }

/-- A call made on the manager by its single user thread or by the cleanup worker. -/
inductive Op where
  | allocateNode
  | deallocateNode (node : Option Nat)
  | cleanupExpiredNodes
  | emergencyCleanup
deriving DecidableEq, Repr

/-- Perform one call to completion. -/
def perform (m : MemoryManager) : Op → MemoryManager
  | .allocateNode => m.allocateNode.1
  | .deallocateNode node => m.deallocateNode node
  | .cleanupExpiredNodes => m.cleanupExpiredNodes
  | .emergencyCleanup => m.emergencyCleanup

/-- Every obtained block is released exactly once. -/
def ReleasedOnce (m : MemoryManager) : Prop := ∀ b ∈ m.obtained, m.released.count b = 1

/-- With a one-node pool, the pooled node is allocated and handed back: the destructor's
emergency cleanup frees it, and its pool loop frees it again. -/
theorem released_once_fails :
    ¬ ∀ (config : CacheConfig) (m : MemoryManager) (ops : List Op),
      create config = .ok m → ReleasedOnce (ops.foldl perform m).destroy := by
  intro law
  have once := law { maxNodes := 1 } _ [.allocateNode, .deallocateNode (some 0)] rfl
  exact absurd (once 0 (by decide)) (by decide)

/-- `total_memory_usage_` is `sizeof(Node)` per block obtained and not yet released. -/
def UsageExact (m : MemoryManager) : Prop :=
  m.totalMemoryUsage = nodeSize * (m.obtained.filter (· ∉ m.released)).length

instance : DecidablePred UsageExact := fun _ => inferInstanceAs (Decidable (_ = _))

theorem usage_exact_fails :
    ¬ ∀ (config : CacheConfig) (m : MemoryManager) (ops : List Op),
      create config = .ok m → UsageExact (ops.foldl perform m) := by
  intro law
  exact absurd (law { maxNodes := 1 } _ [] rfl) (by decide)

/-- Program points of `allocate_node`, each one atomic access or one locked update. -/
inductive AllocatePc where
  /-- `allocated_nodes_.load() < config_.max_nodes`. -/
  | checkNodes
  /-- `total_memory_usage_.load() < max_memory_mb * 1024 * 1024`. -/
  | checkMemory
  /-- `pool_index_.load() < node_pool_.size()`. -/
  | checkPool
  /-- `index = pool_index_.fetch_add(1)`. -/
  | claim
  /-- `allocated_nodes_.fetch_add(1)` for pool slot `index`. -/
  | countPool (index : Nat)
  /-- `allocations_.fetch_add(1)`, then `return node_pool_[index]`. -/
  | tallyPool (index : Nat)
  /-- `numa_allocate(sizeof(Node))` on the fallback path. -/
  | allocate
  /-- `allocated_nodes_.fetch_add(1)` for a fallback block. -/
  | countNew (node : Nat)
  /-- `allocations_.fetch_add(1)` for a fallback block. -/
  | tallyNew (node : Nat)
  /-- `memory_blocks_.emplace_back(...)` under `memory_mutex_`, then `return node`. -/
  | record (node : Nat)
deriving DecidableEq, Repr

/-- One atomic step of `allocate_node`. -/
def allocateStep (m : MemoryManager) : AllocatePc → MemoryManager × Control AllocatePc (Option Nat)
  | .checkNodes => (m, if m.allocatedNodes < m.config.maxNodes then .next .checkMemory else .ret none)
  | .checkMemory =>
      (m, if m.totalMemoryUsage < m.config.maxMemoryMb * 1024 * 1024 % sizeModulus then
            .next (if m.config.enableMemoryPool then .checkPool else .allocate)
          else .ret none)
  | .checkPool => (m, .next (if m.poolIndex < m.nodePool.length then .claim else .allocate))
  | .claim =>
      ({ m with poolIndex := wrapAdd m.poolIndex 1 },
        .next (if m.poolIndex < m.nodePool.length then .countPool m.poolIndex else .allocate))
  | .countPool index => ({ m with allocatedNodes := wrapAdd m.allocatedNodes 1 }, .next (.tallyPool index))
  | .tallyPool index => ({ m with allocations := wrapAdd m.allocations 1 }, .ret m.nodePool[index]?)
  | .allocate => let (m, node) := m.allocateOnNuma nodeSize; (m, .next (.countNew node))
  | .countNew node => ({ m with allocatedNodes := wrapAdd m.allocatedNodes 1 }, .next (.tallyNew node))
  | .tallyNew node => ({ m with allocations := wrapAdd m.allocations 1 }, .next (.record node))
  | .record node => ({ m with memoryBlocks := m.memoryBlocks ++ [(node, nodeSize)] }, .ret (some node))

/-- Program points of `deallocate_node(node)` for a non-null `node`. -/
inductive DeallocatePc where
  /-- `deallocations_.fetch_add(1)`. -/
  | tally
  /-- `allocated_nodes_.fetch_sub(1)`. -/
  | count
  /-- `mark_for_cleanup`: the locked `expired_nodes_.push(node)`. -/
  | mark
deriving DecidableEq, Repr

/-- One atomic step of `deallocate_node(node)`. -/
def deallocateStep (m : MemoryManager) (node : Nat) :
    DeallocatePc → MemoryManager × Control DeallocatePc Unit
  | .tally => ({ m with deallocations := wrapAdd m.deallocations 1 }, .next .count)
  | .count => ({ m with allocatedNodes := wrapSub m.allocatedNodes 1 }, .next .mark)
  | .mark => ({ m with expiredNodes := m.expiredNodes ++ [node] }, .ret ())

/-- A thread of the manager's users. -/
inductive Call where
  | idle
  | allocateNode (pc : AllocatePc)
  | deallocateNode (node : Nat) (pc : DeallocatePc)
deriving DecidableEq, Repr

/-- The manager, its user threads, and the nodes allocations returned and not yet given back. -/
structure Clients where
  manager : MemoryManager
  threads : List Call
  held : List Nat

/-- Start a call on an idle thread, or step a thread; only a held node is deallocated. -/
inductive Act where
  | allocateNode (thread : Nat)
  | deallocateNode (thread node : Nat)
  | tick (thread : Nat)
deriving DecidableEq, Repr

namespace Clients

def init (m : MemoryManager) (threads : Nat) : Clients := ⟨m, List.replicate threads .idle, []⟩

def step (s : Clients) : Act → Clients
  | .allocateNode t =>
      if s.threads[t]? = some .idle then { s with threads := s.threads.set t (.allocateNode .checkNodes) }
      else s
  | .deallocateNode t node =>
      if s.threads[t]? = some .idle ∧ node ∈ s.held then
        { s with threads := s.threads.set t (.deallocateNode node .tally), held := s.held.erase node }
      else s
  | .tick t =>
      match s.threads[t]? with
      | some (.allocateNode pc) =>
          match allocateStep s.manager pc with
          | (m, .next pc) => { s with manager := m, threads := s.threads.set t (.allocateNode pc) }
          | (m, .ret node) => { s with manager := m, threads := s.threads.set t .idle,
                                       held := s.held ++ node.toList }
          | (m, .fault) => { s with manager := m }
      | some (.deallocateNode node pc) =>
          match deallocateStep s.manager node pc with
          | (m, .next pc) => { s with manager := m, threads := s.threads.set t (.deallocateNode node pc) }
          | (m, _) => { s with manager := m, threads := s.threads.set t .idle }
      | _ => s

end Clients

open Interleaving

/-- The counter clauses of `validate_memory_integrity`. -/
def CountersBounded (m : MemoryManager) : Prop :=
  m.allocatedNodes ≤ m.config.maxNodes ∧ m.poolIndex ≤ m.nodePool.length

/-- With a one-node pool, both threads pass the `pool_index_` test before either claims the slot. -/
def claimRace : List Act :=
  [.allocateNode 0, .tick 0, .tick 0, .tick 0, .allocateNode 1, .tick 1, .tick 1, .tick 1,
    .tick 0, .tick 1]

theorem counters_bounded_fails :
    ¬ ∀ (config : CacheConfig) (m : MemoryManager) (threads : Nat) (s : Clients),
      create config = .ok m → Reachable Clients.step (Clients.init m threads) s →
        CountersBounded s.manager := by
  intro law
  have bounded := law { maxNodes := 1 } _ 2 _ rfl (reachable_run .init claimRace)
  exact absurd bounded.2 (by decide)

/-! ### No node is handed to two callers -/

theorem preallocate_spec (m : MemoryManager) (k : Nat) :
    (preallocate m k).nodePool = m.nodePool ++ List.range' m.nextBlock k ∧
      (preallocate m k).nextBlock = m.nextBlock + k ∧ (preallocate m k).poolIndex = m.poolIndex ∧
      (preallocate m k).expiredNodes = m.expiredNodes := by
  induction k generalizing m with
  | zero => simp [preallocate]
  | succ k ih =>
    simp only [preallocate, allocateOnNuma, ih, List.range'_succ, List.append_assoc,
      List.singleton_append, true_and, and_true]
    omega

theorem create_spec {config : CacheConfig} {m : MemoryManager} (created : create config = .ok m) :
    m.nodePool = List.range m.nodePool.length ∧ m.nextBlock = m.nodePool.length ∧
      m.poolIndex = 0 ∧ m.expiredNodes = [] ∧ m.nodePool.length ≤ config.maxNodes := by
  unfold create at created
  split_ifs at created <;> cases created
  · obtain ⟨pool, next, index, expired⟩ := preallocate_spec ⟨config, [], 0, 0, [], 0, [], 0, 0, 0, 0, [], []⟩
      config.maxNodes
    simp only at pool next index expired
    simp [pool, next, index, expired, List.range_eq_range']
  · simp

/-- The nodes a thread holds in its locals; pool slot `index` holds block `index`. -/
def Call.owns : Call → List Nat
  | .allocateNode (.countPool index) => [index]
  | .allocateNode (.tallyPool index) => [index]
  | .allocateNode (.countNew node) => [node]
  | .allocateNode (.tallyNew node) => [node]
  | .allocateNode (.record node) => [node]
  | .deallocateNode node _ => [node]
  | _ => []

/-- A claimed pool slot lies within the pool. -/
def Call.Claimed (poolSize : Nat) : Call → Prop
  | .allocateNode (.countPool index) => index < poolSize
  | .allocateNode (.tallyPool index) => index < poolSize
  | _ => True

/-- The nodes in use: held by callers, queued for cleanup, or in a thread's locals. -/
def Clients.owned (s : Clients) : List Nat :=
  s.held ++ s.manager.expiredNodes ++ s.threads.flatMap Call.owns

/-- The invariant of `threads` clients over a pool of `poolSize` blocks. -/
structure Exclusive (poolSize threads : Nat) (s : Clients) : Prop where
  pool : s.manager.nodePool = List.range poolSize
  fresh : poolSize ≤ s.manager.nextBlock
  threadCount : s.threads.length = threads
  claims : s.manager.poolIndex + s.threads.count (.allocateNode .claim) ≤ poolSize + threads - 1
  nodup : s.owned.Nodup
  below : ∀ x ∈ s.owned, x < s.manager.nextBlock ∧ (x < poolSize → x < s.manager.poolIndex)
  claimed : ∀ c ∈ s.threads, c.Claimed poolSize

theorem exclusive_init {config : CacheConfig} {m : MemoryManager} (created : create config = .ok m)
    (threads : Nat) : Exclusive m.nodePool.length threads (Clients.init m threads) := by
  obtain ⟨pool, next, index, expired, -⟩ := create_spec created
  have noLocals : (List.replicate threads Call.idle).flatMap Call.owns = [] := by
    induction threads with
    | zero => rfl
    | succ n ih => simp [List.replicate_succ, Call.owns, ih]
  refine ⟨pool, next.ge, List.length_replicate _ _, ?_, ?_, ?_, fun c mem => by
    rw [List.eq_of_mem_replicate mem]; trivial⟩
  · simp [Clients.init, index, List.count_replicate]
  all_goals simp [Clients.owned, Clients.init, expired, noLocals]

theorem count_set_add {l : List Call} {t : Nat} {c : Call} (at_t : l[t]? = some c) (c' a : Call) :
    (l.set t c').count a + (if c = a then 1 else 0) = l.count a + (if c' = a then 1 else 0) := by
  obtain ⟨lt, rfl⟩ := List.getElem?_eq_some_iff.mp at_t
  have present : (if l[t] = a then 1 else 0) ≤ l.count a := by
    split_ifs with same
    · exact List.count_pos_iff.mpr (same ▸ List.getElem_mem lt)
    · exact Nat.zero_le _
  rw [List.count_set _ _ _ _ lt]
  simp only [beq_iff_eq]
  omega

section
variable {poolSize threads : Nat} {s : Clients}

theorem Exclusive.thread (ex : Exclusive poolSize threads s) {s' : Clients} {t : Nat} {c c' : Call}
    (at_t : s.threads[t]? = some c) (moves : s'.threads = s.threads.set t c')
    (pool : s'.manager.nodePool = s.manager.nodePool)
    (grows : s.manager.nextBlock ≤ s'.manager.nextBlock)
    (claims : s.manager.poolIndex ≤ s'.manager.poolIndex)
    (counter : s'.manager.poolIndex + s'.threads.count (.allocateNode .claim) ≤ poolSize + threads - 1)
    (fresh : List Nat) (freshNodup : fresh.Nodup)
    (freshNew : ∀ x ∈ fresh,
      x ∉ s.owned ∧ x < s'.manager.nextBlock ∧ (x < poolSize → x < s'.manager.poolIndex))
    (moved : ∀ x, s'.held.count x + s'.manager.expiredNodes.count x + c'.owns.count x =
      s.held.count x + s.manager.expiredNodes.count x + c.owns.count x + fresh.count x)
    (claimed : c'.Claimed poolSize) : Exclusive poolSize threads s' := by
  obtain ⟨A, B, before, after⟩ := flatMap_set s.threads Call.owns at_t c'
  have counts : ∀ x, s'.owned.count x = s.owned.count x + fresh.count x := fun x => by
    have := moved x
    simp only [Clients.owned, moves, before, after, List.count_append] at this ⊢
    omega
  refine ⟨pool.trans ex.pool, ex.fresh.trans grows, by rw [moves, List.length_set, ex.threadCount],
    counter, ?_, fun x mem => ?_, fun d mem => ?_⟩
  · refine List.nodup_iff_count_le_one.mpr fun x => ?_
    have old := List.nodup_iff_count_le_one.mp ex.nodup x
    have new := List.nodup_iff_count_le_one.mp freshNodup x
    rw [counts]
    by_cases mem : x ∈ fresh
    · have := List.count_eq_zero.mpr (freshNew x mem).1; omega
    · have := List.count_eq_zero.mpr mem; omega
  · by_cases old : x ∈ s.owned
    · obtain ⟨obtained, claimedBefore⟩ := ex.below x old
      exact ⟨Nat.lt_of_lt_of_le obtained grows, fun lt => Nat.lt_of_lt_of_le (claimedBefore lt) claims⟩
    · have now := List.count_pos_iff.mpr mem
      rw [counts, List.count_eq_zero.mpr old] at now
      exact (freshNew x (List.count_pos_iff.mp (by omega))).2
  · rw [moves] at mem
    rcases List.mem_or_eq_of_mem_set mem with old | rfl
    · exact ex.claimed d old
    · exact claimed

theorem Exclusive.pass (ex : Exclusive poolSize threads s) {s' : Clients} {t : Nat} {c c' : Call}
    (at_t : s.threads[t]? = some c) (moves : s'.threads = s.threads.set t c')
    (pool : s'.manager.nodePool = s.manager.nodePool)
    (next : s'.manager.nextBlock = s.manager.nextBlock)
    (index : s'.manager.poolIndex = s.manager.poolIndex)
    (moved : ∀ x, s'.held.count x + s'.manager.expiredNodes.count x + c'.owns.count x =
      s.held.count x + s.manager.expiredNodes.count x + c.owns.count x)
    (neither : c ≠ .allocateNode .claim ∧ c' ≠ .allocateNode .claim)
    (claimed : c'.Claimed poolSize) : Exclusive poolSize threads s' := by
  have counted := count_set_add at_t c' (.allocateNode .claim)
  rw [if_neg neither.1, if_neg neither.2] at counted
  refine ex.thread at_t moves pool next.ge index.ge ?_ [] List.nodup_nil (fun _ absent => nomatch absent)
    (fun x => (moved x).trans (Nat.add_zero _).symm) claimed
  rw [index, moves]
  have := ex.claims
  omega

theorem Exclusive.quiet (ex : Exclusive poolSize threads s) {s' : Clients} {t : Nat} {c c' : Call}
    (at_t : s.threads[t]? = some c) (moves : s'.threads = s.threads.set t c')
    (pool : s'.manager.nodePool = s.manager.nodePool)
    (next : s'.manager.nextBlock = s.manager.nextBlock)
    (index : s'.manager.poolIndex = s.manager.poolIndex)
    (held : s'.held = s.held) (expired : s'.manager.expiredNodes = s.manager.expiredNodes)
    (owns : c'.owns = c.owns) (neither : c ≠ .allocateNode .claim ∧ c' ≠ .allocateNode .claim)
    (claimed : c'.Claimed poolSize) : Exclusive poolSize threads s' :=
  ex.pass at_t moves pool next index (fun x => by rw [held, expired, owns]) neither claimed

theorem Exclusive.tick_allocate (fits : poolSize + threads ≤ sizeModulus)
    (ex : Exclusive poolSize threads s) {t : Nat} {pc : AllocatePc}
    (current : s.threads[t]? = some (.allocateNode pc)) : Exclusive poolSize threads (s.step (.tick t)) := by
  have quiet := fun {s' : Clients} {c' : Call} => @Exclusive.quiet poolSize threads s ex s' t _ c' current
  have length : s.manager.nodePool.length = poolSize := by rw [ex.pool, List.length_range]
  have counted := count_set_add current
  have before := ex.claims
  have holds := ex.claimed _ (List.getElem?_mem current)
  rw [Clients.step, current]
  dsimp only
  cases pc with
  | checkNodes =>
    simp only [allocateStep]
    split_ifs
    · exact quiet rfl rfl rfl rfl rfl rfl rfl (by simp) trivial
    · exact quiet rfl rfl rfl rfl (List.append_nil _) rfl rfl (by simp) trivial
  | checkMemory =>
    simp only [allocateStep]
    split_ifs
    · exact quiet rfl rfl rfl rfl rfl rfl rfl (by simp) trivial
    · exact quiet rfl rfl rfl rfl rfl rfl rfl (by simp) trivial
    · exact quiet rfl rfl rfl rfl (List.append_nil _) rfl rfl (by simp) trivial
  | checkPool =>
    simp only [allocateStep]
    split_ifs with room
    · have claiming := counted (.allocateNode .claim) (.allocateNode .claim)
      have most := List.count_le_length (Call.allocateNode .claim) (s.threads.set t (.allocateNode .claim))
      rw [List.length_set, ex.threadCount] at most
      simp only [Call.allocateNode.injEq, reduceCtorEq, ite_true, ite_false] at claiming
      refine ex.thread current rfl rfl (le_refl _) (le_refl _) ?_ [] List.nodup_nil
        (fun _ absent => nomatch absent) (fun x => rfl) trivial
      dsimp only
      omega
    · exact quiet rfl rfl rfl rfl rfl rfl rfl (by simp) trivial
  | claim =>
    have claiming := counted .idle (.allocateNode .claim)
    simp only [Call.allocateNode.injEq, reduceCtorEq, ite_true, ite_false] at claiming
    have unwrapped : wrapAdd s.manager.poolIndex 1 = s.manager.poolIndex + 1 :=
      Nat.mod_eq_of_lt (by omega)
    simp only [allocateStep, unwrapped]
    split_ifs with room
    · have moved := counted (.allocateNode (.countPool s.manager.poolIndex)) (.allocateNode .claim)
      simp only [Call.allocateNode.injEq, reduceCtorEq, ite_true, ite_false] at moved
      refine ex.thread current rfl rfl (le_refl _) (Nat.le_succ _) (by (try dsimp only); omega)
        [s.manager.poolIndex] (List.nodup_singleton _) (fun x mem => ?_)
        (fun x => by simp [Call.owns]) (by rw [length] at room; exact room)
      rw [List.mem_singleton.mp mem]
      refine ⟨fun used => ?_, Nat.lt_of_lt_of_le (length ▸ room) ex.fresh, fun _ => Nat.lt_succ_self _⟩
      exact absurd ((ex.below _ used).2 (length ▸ room)) (Nat.lt_irrefl _)
    · have moved := counted (.allocateNode .allocate) (.allocateNode .claim)
      simp only [Call.allocateNode.injEq, reduceCtorEq, ite_true, ite_false] at moved
      exact ex.thread current rfl rfl (le_refl _) (Nat.le_succ _) (by (try dsimp only); omega) []
        List.nodup_nil (fun _ absent => nomatch absent) (fun x => rfl) trivial
  | countPool index => exact quiet rfl rfl rfl rfl rfl rfl rfl (by simp) holds
  | tallyPool index =>
    have node : s.manager.nodePool[index]? = some index := by
      rw [ex.pool, List.getElem?_range holds]
    simp only [allocateStep, node]
    exact ex.pass current rfl rfl rfl rfl (fun x => by simp [Call.owns]; omega) ⟨by simp, by simp⟩ trivial
  | allocate =>
    have moved := counted (.allocateNode (.countNew s.manager.nextBlock)) (.allocateNode .claim)
    simp only [Call.allocateNode.injEq, reduceCtorEq, ite_false] at moved
    simp only [allocateStep, allocateOnNuma]
    refine ex.thread current rfl rfl (Nat.le_succ _) (le_refl _) (by (try dsimp only); omega)
      [s.manager.nextBlock] (List.nodup_singleton _) (fun x mem => ?_) (fun x => by simp [Call.owns]) trivial
    rw [List.mem_singleton.mp mem]
    refine ⟨fun used => absurd (ex.below _ used).1 (Nat.lt_irrefl _), Nat.lt_succ_self _,
      fun inPool => absurd ex.fresh (Nat.not_le_of_lt inPool)⟩
  | countNew node => exact quiet rfl rfl rfl rfl rfl rfl rfl (by simp) trivial
  | tallyNew node => exact quiet rfl rfl rfl rfl rfl rfl rfl (by simp) trivial
  | record node =>
    simp only [allocateStep]
    exact ex.pass current rfl rfl rfl rfl (fun x => by simp [Call.owns]; omega) ⟨by simp, by simp⟩ trivial

theorem Exclusive.tick_deallocate (ex : Exclusive poolSize threads s) {t node : Nat}
    {pc : DeallocatePc} (current : s.threads[t]? = some (.deallocateNode node pc)) :
    Exclusive poolSize threads (s.step (.tick t)) := by
  have quiet := fun {s' : Clients} {c' : Call} => @Exclusive.quiet poolSize threads s ex s' t _ c' current
  rw [Clients.step, current]
  dsimp only
  cases pc with
  | tally => exact quiet rfl rfl rfl rfl rfl rfl rfl ⟨by simp, by simp⟩ trivial
  | count =>
    simp only [deallocateStep]
    -- stated for every new `allocated_nodes_`, so that no check unfolds the wrapped decrement
    have anyCount : ∀ allocated, Exclusive poolSize threads { s with
        manager := { s.manager with allocatedNodes := allocated },
        threads := s.threads.set t (.deallocateNode node .mark) } :=
      fun _ => quiet rfl rfl rfl rfl rfl rfl rfl ⟨by simp, by simp⟩ trivial
    exact anyCount _
  | mark =>
    simp only [deallocateStep]
    exact ex.pass current rfl rfl rfl rfl (fun x => by simp [Call.owns]; omega) ⟨by simp, by simp⟩ trivial

theorem Exclusive.step (fits : poolSize + threads ≤ sizeModulus) (ex : Exclusive poolSize threads s)
    (a : Act) : Exclusive poolSize threads (s.step a) := by
  cases a with
  | allocateNode t =>
    rw [Clients.step]
    split
    · next idle => exact ex.quiet idle rfl rfl rfl rfl rfl rfl rfl ⟨by simp, by simp⟩ trivial
    · exact ex
  | deallocateNode t node =>
    rw [Clients.step]
    split
    · next free =>
      refine ex.pass free.1 rfl rfl rfl rfl (fun x => ?_) ⟨by simp, by simp⟩ trivial
      have := (List.perm_cons_erase free.2).count_eq x
      simp only [List.count_cons, Call.owns] at this ⊢
      simp only [List.count_nil]
      omega
    · exact ex
  | tick t =>
    cases current : s.threads[t]? with
    | some call =>
      cases call with
      | allocateNode pc => exact ex.tick_allocate fits current
      | deallocateNode node pc => exact ex.tick_deallocate current
      | idle => simpa [Clients.step, current] using ex
    | none => simpa [Clients.step, current] using ex

end

/-- In every interleaving of `allocate_node` and `deallocate_node` on a manager built from `config`,
while `max_nodes` plus the thread count stays below `2^64`, the nodes callers hold are pairwise
distinct and none is queued for cleanup: no node is handed to two callers. -/
theorem allocations_distinct (config : CacheConfig) (m : MemoryManager) (threads : Nat) (s : Clients)
    (created : create config = .ok m) (fits : config.maxNodes + threads ≤ sizeModulus)
    (reach : Reachable Clients.step (Clients.init m threads) s) :
    (s.held ++ s.manager.expiredNodes).Nodup := by
  have within : m.nodePool.length + threads ≤ sizeModulus :=
    Nat.le_trans (Nat.add_le_add_right (create_spec created).2.2.2.2 _) fits
  have ex : Exclusive m.nodePool.length threads s :=
    reach.invariant (exclusive_init created threads) fun _ a ex => ex.step within a
  exact ex.nodup.sublist (List.sublist_append_left _ _)

/-- `claimRace` run on until both allocations return. -/
def claimRaceReturned : List Act := claimRace ++ [.tick 0, .tick 0, .tick 1, .tick 1, .tick 1, .tick 1]

/-- Both threads of `claimRace` allocate from a one-node pool: the first returns the pool's node,
the second falls back to a new block. -/
theorem allocations_distinct_in_claim_race : ∃ m, create { maxNodes := 1 } = .ok m ∧
    (Interleaving.run Clients.step (Clients.init m 2) claimRaceReturned).held = [0, 1] ∧
    ((Interleaving.run Clients.step (Clients.init m 2) claimRaceReturned).held ++
      (Interleaving.run Clients.step (Clients.init m 2) claimRaceReturned).manager.expiredNodes).Nodup :=
  ⟨_, rfl, by decide,
    allocations_distinct { maxNodes := 1 } _ 2 _ rfl (by decide) (reachable_run .init claimRaceReturned)⟩

end MemoryManager

end RadialCache
