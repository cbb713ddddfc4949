import RadialCache.LockFreeHeap.Step

/-! `LockFreeHashTable` from `lockfree_map.hpp`: 64 atomic shard heads over append-only
lists of `BucketNode`s, each owning the `MidpointNode` of one key. Keys are the bytes of the
`std::string`; `char` is signed, as on x86-64. -/

namespace RadialCache

/-- `MidpointNode` from `midpoint.hpp`: the heap of one key. -/
structure MidpointNode where
  nodes : LockFreeHeap

/-- A key: the bytes of its `std::string`. -/
abbrev Key := List UInt8

/-- A list cell of a shard: the key, its `MidpointNode`, and the atomic `next` pointer. -/
structure BucketNode where
  key : Key
  value : MidpointNode
  next : Option Nat

/-- The shard heads `buckets[i]` and every `BucketNode` ever allocated, addressed by position. -/
structure LockFreeHashTable where
  buckets : Nat → Option Nat
  nodes : List BucketNode

namespace LockFreeHashTable

def BUCKETS : Nat := 64
def FNV_PRIME : UInt64 := 0x100000001b3
def FNV_OFFSET : UInt64 := 0xcbf29ce484222325

/-- `static_cast<uint64_t>(c)` for a signed `char` holding byte `c`. -/
def widen (c : UInt8) : UInt64 := if c < 128 then c.toUInt64 else c.toUInt64 + 0xFFFFFFFFFFFFFF00

/-- `LockFreeHashTable::hash`: the FNV-1a loop over the widened bytes, modulo `BUCKETS`. -/
def hash (key : Key) : Nat :=
  (key.foldl (fun h c => (h ^^^ widen c) * FNV_PRIME) FNV_OFFSET).toNat % BUCKETS

/-- The 64-bit FNV-1a hash as the spec states it: every byte enters unsigned. -/
def fnv1a (key : Key) : UInt64 :=
  key.foldl (fun h c => (h ^^^ c.toUInt64) * FNV_PRIME) FNV_OFFSET

theorem testBit_mod_256 (x i : Nat) : (x % 256).testBit i = (decide (i < 8) && x.testBit i) :=
  Nat.testBit_mod_two_pow x 8 i

theorem xor_mod_256 (x y : Nat) : (x ^^^ y) % 256 = (x % 256) ^^^ (y % 256) := by
  apply Nat.eq_of_testBit_eq
  intro i
  simp only [testBit_mod_256, Nat.testBit_xor]
  cases decide (i < 8) <;> rfl

theorem toNat_xor (a b : UInt64) : (a ^^^ b).toNat = a.toNat ^^^ b.toNat := BitVec.toNat_xor _ _

theorem toNat_mul_mod_256 (a b : UInt64) :
    (a * b).toNat % 256 = a.toNat % 256 * (b.toNat % 256) % 256 := by
  have wrap : (a * b).toNat = a.toNat * b.toNat % sizeModulus := BitVec.toNat_mul _ _
  rw [wrap, Nat.mod_mod_of_dvd _ (show 256 ∣ sizeModulus from ⟨72057594037927936, rfl⟩),
    Nat.mul_mod]

theorem widen_mod_256 (c : UInt8) : (widen c).toNat % 256 = c.toUInt64.toNat % 256 := by
  have byte : c.toNat < 256 := c.toBitVec.isLt
  have low : c.toUInt64.toNat = c.toNat := rfl
  unfold widen
  split
  · rfl
  · have wrap : (c.toUInt64 + 0xFFFFFFFFFFFFFF00).toNat =
        (c.toUInt64.toNat + 0xFFFFFFFFFFFFFF00) % sizeModulus := BitVec.toNat_add _ _
    rw [wrap, low]
    unfold sizeModulus
    omega

theorem round_mod_256 {a b u v : UInt64} (states : a.toNat % 256 = b.toNat % 256)
    (bytes : u.toNat % 256 = v.toNat % 256) :
    ((a ^^^ u) * FNV_PRIME).toNat % 256 = ((b ^^^ v) * FNV_PRIME).toNat % 256 := by
  rw [toNat_mul_mod_256, toNat_mul_mod_256, toNat_xor, toNat_xor, xor_mod_256, xor_mod_256,
    states, bytes]

theorem foldl_mod_256 (key : Key) {a b : UInt64} (states : a.toNat % 256 = b.toNat % 256) :
    (key.foldl (fun h c => (h ^^^ widen c) * FNV_PRIME) a).toNat % 256 =
      (key.foldl (fun h c => (h ^^^ c.toUInt64) * FNV_PRIME) b).toNat % 256 := by
  induction key generalizing a b with
  | nil => exact states
  | cons c rest ih => exact ih (round_mod_256 states (widen_mod_256 c))

/-- The shard of a key is its FNV-1a hash modulo `BUCKETS`, also for bytes at or above `0x80`,
whose sign extension changes the intermediate states but never their low byte. -/
theorem hash_eq_fnv1a (key : Key) : hash key = (fnv1a key).toNat % BUCKETS := by
  have low : BUCKETS ∣ 256 := ⟨4, rfl⟩
  unfold hash fnv1a
  rw [← Nat.mod_mod_of_dvd _ low, foldl_mod_256 key rfl, Nat.mod_mod_of_dvd _ low]

/-- The empty table of the constructor. -/
def init : LockFreeHashTable := ⟨fun _ => none, []⟩

/-- `head->next` at node `n`. -/
def nextOf (m : LockFreeHashTable) (n : Nat) : Option Nat := (m.nodes[n]?).bind (·.next)

/-- The nodes along `next` from a head, for at most the given number of hops. -/
def chain (m : LockFreeHashTable) : Nat → Option Nat → List Nat
  | 0, _ => []
  | _ + 1, none => []
  | fuel + 1, some n => n :: chain m fuel (m.nextOf n)

/-- The keys along shard `i`. -/
def shardKeys (m : LockFreeHashTable) (i : Nat) : List Key :=
  (chain m m.nodes.length (m.buckets i)).filterMap fun n => (m.nodes[n]?).map (·.key)

/-- Program points of `get_or_create(key, capacity)`. -/
inductive GetOrCreatePc where
  /-- `head = buckets[index].load()`. -/
  | start
  /-- The key test at `head` and the load of `head->next`; at the end, `new BucketNode`. -/
  | traverse (head : Option Nat)
  /-- `head = buckets[index].load()` in the publishing loop. -/
  | loadHead (newNode : Nat)
  /-- `new_node->next.store(head)`. -/
  | link (newNode : Nat) (head : Option Nat)
  /-- `buckets[index].compare_exchange_weak(head, new_node)`. -/
  | publish (newNode : Nat) (head : Option Nat)
deriving DecidableEq, Repr

/-- Program points of `get(key)`. -/
inductive GetPc where
  | start
  | traverse (head : Option Nat)
deriving DecidableEq, Repr

/-- One step of the read-only traversal both calls begin with. -/
def probe (m : LockFreeHashTable) (key : Key) (n : Nat) : Control (Option Nat) Nat :=
  match m.nodes[n]? with
  | some b => if b.key = key then .ret n else .next b.next
  | none => .fault

/-- One atomic step of `get_or_create(key, capacity)`, returning the `MidpointNode*`. -/
def getOrCreateStep (key : Key) (capacity : Nat) (m : LockFreeHashTable) :
    GetOrCreatePc → LockFreeHashTable × Control GetOrCreatePc Nat
  | .start => (m, .next (.traverse (m.buckets (hash key))))
  | .traverse none =>
      ({ m with nodes := m.nodes ++ [⟨key, ⟨LockFreeHeap.init capacity⟩, none⟩] },
        .next (.loadHead m.nodes.length))
  | .traverse (some n) =>
      (m, match probe m key n with
        | .next head => .next (.traverse head)
        | .ret found => .ret found
        | .fault => .fault)
  | .loadHead n => (m, .next (.link n (m.buckets (hash key))))
  | .link n head =>
      ({ m with nodes := m.nodes.modify (fun b => { b with next := head }) n }, .next (.publish n head))
  | .publish n head =>
      if m.buckets (hash key) = head then
        ({ m with buckets := Function.update m.buckets (hash key) (some n) }, .ret n)
      else (m, .next (.loadHead n))

/-- One atomic step of `get(key)`. -/
def getStep (key : Key) (m : LockFreeHashTable) : GetPc → Control GetPc (Option Nat)
  | .start => .next (.traverse (m.buckets (hash key)))
  | .traverse none => .ret none
  | .traverse (some n) =>
      match probe m key n with
      | .next head => .next (.traverse head)
      | .ret found => .ret (some found)
      | .fault => .fault

/-! ### The table used by one thread -/

/-- `get(key)` alone: the first node along the key's shard that holds `key`. -/
def find (m : LockFreeHashTable) (key : Key) : Option Nat :=
  (chain m m.nodes.length (m.buckets (hash key))).find? fun n => (m.nodes[n]?).map (·.key) = some key

/-- `get_or_create(key, capacity)` alone: the node `get` finds, or a new head node. -/
def getOrCreate (m : LockFreeHashTable) (key : Key) (capacity : Nat) : LockFreeHashTable × Nat :=
  match m.find key with
  | some n => (m, n)
  | none =>
      ({ buckets := Function.update m.buckets (hash key) (some m.nodes.length),
         nodes := m.nodes ++ [⟨key, ⟨LockFreeHeap.init capacity⟩, m.buckets (hash key)⟩] },
        m.nodes.length)

/-- The heap of the `MidpointNode` that node `n` owns. -/
def heapOf (m : LockFreeHashTable) (n : Nat) : LockFreeHeap :=
  match m.nodes[n]? with
  | some b => b.value.nodes
  | none => LockFreeHeap.init 0

/-- Node `n`'s heap after a call through its `MidpointNode*`. -/
def setHeap (m : LockFreeHashTable) (n : Nat) (h : LockFreeHeap) : LockFreeHashTable :=
  { m with nodes := m.nodes.modify (fun b => { b with value := ⟨h⟩ }) n }

theorem find_lt {m : LockFreeHashTable} {key : Key} {n : Nat} (found : m.find key = some n) :
    n < m.nodes.length := by
  have holds := List.find?_some found
  simp only [decide_eq_true_eq, Option.map_eq_some'] at holds
  obtain ⟨b, hb, -⟩ := holds
  exact (List.getElem?_eq_some_iff.mp hb).1

theorem getOrCreate_lt (m : LockFreeHashTable) (key : Key) (capacity : Nat) :
    (m.getOrCreate key capacity).2 < (m.getOrCreate key capacity).1.nodes.length := by
  unfold getOrCreate
  split
  · next found => exact find_lt found
  · simp

theorem heapOf_getOrCreate (m : LockFreeHashTable) (key : Key) (capacity n : Nat) :
    (m.getOrCreate key capacity).1.heapOf n = m.heapOf n ∨
      (m.getOrCreate key capacity).1.heapOf n = LockFreeHeap.init capacity := by
  unfold getOrCreate
  split
  · exact .inl rfl
  · unfold heapOf
    rcases Nat.lt_trichotomy n m.nodes.length with lt | rfl | gt
    · simp [List.getElem?_append_left lt]
    · simp
    · simp [List.getElem?_eq_none (show m.nodes.length ≤ n by omega),
        List.getElem?_eq_none (show (m.nodes ++ [_]).length ≤ n by simp; omega)]

theorem heapOf_setHeap_self {m : LockFreeHashTable} {n : Nat} (lt : n < m.nodes.length)
    (h : LockFreeHeap) : (m.setHeap n h).heapOf n = h := by
  simp [heapOf, setHeap, List.getElem?_modify, List.getElem?_eq_getElem lt]

theorem nodes_setHeap_ne (m : LockFreeHashTable) {n k : Nat} (h : LockFreeHeap) (ne : k ≠ n) :
    (m.setHeap n h).nodes[k]? = m.nodes[k]? := by
  simp only [setHeap, List.getElem?_modify, if_neg (Ne.symm ne)]
  cases m.nodes[k]? <;> rfl

theorem heapOf_setHeap_ne (m : LockFreeHashTable) {n k : Nat} (h : LockFreeHeap) (ne : k ≠ n) :
    (m.setHeap n h).heapOf k = m.heapOf k := by
  simp only [heapOf, nodes_setHeap_ne m h ne]

theorem heapOf_setHeap (m : LockFreeHashTable) (n : Nat) (h : LockFreeHeap) (k : Nat) :
    (m.setHeap n h).heapOf k = m.heapOf k ∨ (m.setHeap n h).heapOf k = h := by
  by_cases same : k = n
  · subst same
    by_cases lt : k < m.nodes.length
    · exact .inr (heapOf_setHeap_self lt h)
    · left
      simp [heapOf, setHeap, List.getElem?_modify, List.getElem?_eq_none (not_lt.mp lt)]
  · exact .inl (heapOf_setHeap_ne m h same)

theorem setHeap_heapOf (m : LockFreeHashTable) {n : Nat} (lt : n < m.nodes.length) :
    m.setHeap n (m.heapOf n) = m := by
  cases m with
  | mk buckets nodes =>
    simp only [setHeap, heapOf, List.getElem?_eq_getElem lt, mk.injEq, true_and]
    apply List.ext_getElem?
    intro k
    rw [List.getElem?_modify]
    by_cases same : n = k
    · subst same; simp [List.getElem?_eq_getElem lt]
    · simp [same]

/-! ### Shards as lists -/

/-- Heads name allocated nodes and every `next` an older node, so each shard is a finite list. -/
structure Linked (m : LockFreeHashTable) : Prop where
  heads : ∀ i n, m.buckets i = some n → n < m.nodes.length
  older : ∀ n n', m.nextOf n = some n' → n' < n

theorem linked_init : Linked init := ⟨(fun _ _ head => nomatch head), fun _ _ next => nomatch next⟩

theorem Linked.chain_succ {m : LockFreeHashTable} (linked : m.Linked) :
    ∀ (fuel : Nat) (o : Option Nat), (∀ n, o = some n → n < fuel) →
      m.chain (fuel + 1) o = m.chain fuel o
  | 0, none, _ => rfl
  | 0, some n, below => absurd (below n rfl) (Nat.not_lt_zero n)
  | _ + 1, none, _ => rfl
  | fuel + 1, some n, below => by
    have shorter : ∀ n', m.nextOf n = some n' → n' < fuel := fun n' next => by
      have := linked.older n n' next; have := below n rfl; omega
    simp only [chain, linked.chain_succ fuel _ shorter]

theorem Linked.chain_congr {m m' : LockFreeHashTable} (linked : m.Linked) {bound : Nat}
    (same : ∀ n < bound, m'.nextOf n = m.nextOf n) :
    ∀ (fuel : Nat) (o : Option Nat), (∀ n, o = some n → n < bound) → m'.chain fuel o = m.chain fuel o
  | 0, _, _ => rfl
  | _ + 1, none, _ => rfl
  | fuel + 1, some n, below => by
    have lt := below n rfl
    simp only [chain, same n lt,
      linked.chain_congr same fuel _ fun n' next => (linked.older n n' (next ▸ rfl)).trans lt]

theorem find_getOrCreate_self (m : LockFreeHashTable) (key : Key) (capacity : Nat) :
    (m.getOrCreate key capacity).1.find key = some (m.getOrCreate key capacity).2 := by
  unfold getOrCreate
  split
  · next n found => exact found
  · simp [find, chain]


theorem nextOf_append (m : LockFreeHashTable) (buckets : Nat → Option Nat) (extra : List BucketNode)
    {n : Nat} (lt : n < m.nodes.length) :
    ({ buckets := buckets, nodes := m.nodes ++ extra } : LockFreeHashTable).nextOf n = m.nextOf n := by
  simp only [nextOf, List.getElem?_append_left lt]

theorem Linked.find_getOrCreate_ne {m : LockFreeHashTable} (linked : m.Linked) {key other : Key}
    (ne : other ≠ key) (capacity : Nat) : (m.getOrCreate key capacity).1.find other = m.find other := by
  unfold getOrCreate
  split
  · rfl
  · set m' : LockFreeHashTable := ⟨Function.update m.buckets (hash key) (some m.nodes.length),
      m.nodes ++ [⟨key, ⟨LockFreeHeap.init capacity⟩, m.buckets (hash key)⟩]⟩ with hm'
    have keys : ∀ n : Nat, (m'.nodes[n]?).map BucketNode.key = some other ↔
        (m.nodes[n]?).map BucketNode.key = some other := by
      intro n
      rcases Nat.lt_trichotomy n m.nodes.length with lt | rfl | gt
      · simp only [hm', List.getElem?_append_left lt]
      · simp [hm', Ne.symm ne]
      · simp [hm', List.getElem?_eq_none (show m.nodes.length ≤ n by omega),
          List.getElem?_eq_none (show (m.nodes ++ [_]).length ≤ n by simp; omega)]
    have heads : ∀ n, m.buckets (hash other) = some n → n < m.nodes.length := linked.heads _
    have shard : m'.chain (m.nodes.length + 1) (m'.buckets (hash other)) =
        (if hash other = hash key then [m.nodes.length] else []) ++
          m.chain m.nodes.length (m.buckets (hash other)) := by
      have congr : ∀ fuel o, (∀ n, o = some n → n < m.nodes.length) →
          m'.chain fuel o = m.chain fuel o := linked.chain_congr fun n lt => nextOf_append m _ _ lt
      by_cases same : hash other = hash key
      · have head : m'.buckets (hash other) = some m.nodes.length := by
          rw [hm', same]; exact Function.update_same _ _ _
        have next : m'.nextOf m.nodes.length = m.buckets (hash other) := by simp [hm', nextOf, same]
        rw [head, if_pos same]
        simp only [chain, List.singleton_append]
        rw [next, congr _ _ heads]
      · have head : m'.buckets (hash other) = m.buckets (hash other) := by
          rw [hm']; exact Function.update_noteq same _ _
        rw [head, if_neg same, List.nil_append, congr _ _ heads, linked.chain_succ _ _ heads]
    have length : m'.nodes.length = m.nodes.length + 1 := by simp [hm']
    unfold find
    rw [length, shard, List.find?_append]
    simp only [keys]
    split <;> simp


theorem Linked.getOrCreate {m : LockFreeHashTable} (linked : m.Linked) (key : Key) (capacity : Nat) :
    (m.getOrCreate key capacity).1.Linked := by
  unfold LockFreeHashTable.getOrCreate
  split
  · exact linked
  · constructor
    · intro i n head
      simp only [List.length_append, List.length_singleton]
      by_cases same : i = hash key
      · subst same; simp at head; omega
      · simp only [Function.update_noteq same] at head; have := linked.heads i n head; omega
    · intro n n' next
      rcases Nat.lt_trichotomy n m.nodes.length with lt | rfl | gt
      · simp only [nextOf, List.getElem?_append_left lt] at next
        exact linked.older n n' next
      · simp only [nextOf, List.getElem?_concat_length, Option.some_bind] at next
        exact linked.heads _ _ next
      · simp [nextOf, List.getElem?_eq_none (show (m.nodes ++ [_]).length ≤ n by simp; omega)] at next

@[simp] theorem nextOf_setHeap (m : LockFreeHashTable) (n : Nat) (h : LockFreeHeap) (k : Nat) :
    (m.setHeap n h).nextOf k = m.nextOf k := by
  simp only [nextOf, setHeap, List.getElem?_modify]
  split_ifs <;> cases m.nodes[k]? <;> rfl

theorem keys_setHeap (m : LockFreeHashTable) (n : Nat) (h : LockFreeHeap) (k : Nat) :
    ((m.setHeap n h).nodes[k]?).map BucketNode.key = (m.nodes[k]?).map BucketNode.key := by
  simp only [setHeap, List.getElem?_modify]
  split_ifs <;> cases m.nodes[k]? <;> rfl

theorem Linked.setHeap {m : LockFreeHashTable} (linked : m.Linked) (n : Nat) (h : LockFreeHeap) :
    (m.setHeap n h).Linked :=
  ⟨fun i k head => by simpa [LockFreeHashTable.setHeap] using linked.heads i k head,
    fun k k' next => linked.older k k' (by simpa using next)⟩

theorem chain_setHeap (m : LockFreeHashTable) (n : Nat) (h : LockFreeHeap) :
    ∀ (fuel : Nat) (o : Option Nat), (m.setHeap n h).chain fuel o = m.chain fuel o
  | 0, _ => rfl
  | _ + 1, none => rfl
  | fuel + 1, some k => by simp only [chain, nextOf_setHeap, chain_setHeap m n h fuel]

@[simp] theorem find_setHeap (m : LockFreeHashTable) (n : Nat) (h : LockFreeHeap) (key : Key) :
    (m.setHeap n h).find key = m.find key := by
  simp only [find, chain_setHeap, keys_setHeap]
  simp [LockFreeHashTable.setHeap]

theorem find_key {m : LockFreeHashTable} {key : Key} {n : Nat} (found : m.find key = some n) :
    (m.nodes[n]?).map BucketNode.key = some key := by
  simpa using List.find?_some found

theorem heapOf_getOrCreate_lt (m : LockFreeHashTable) (key : Key) (capacity : Nat) {n : Nat}
    (lt : n < m.nodes.length) : (m.getOrCreate key capacity).1.heapOf n = m.heapOf n := by
  unfold getOrCreate
  split
  · rfl
  · simp [heapOf, List.getElem?_append_left lt]

theorem getOrCreate_found {m : LockFreeHashTable} {key : Key} {n : Nat} (found : m.find key = some n)
    (capacity : Nat) : m.getOrCreate key capacity = (m, n) := by
  simp [getOrCreate, found]

theorem getOrCreate_fresh {m : LockFreeHashTable} {key : Key} (fresh : m.find key = none)
    (capacity : Nat) : (m.getOrCreate key capacity).2 = m.nodes.length ∧
      (m.getOrCreate key capacity).1.heapOf m.nodes.length = LockFreeHeap.init capacity := by
  simp [getOrCreate, fresh, heapOf]

/-- Every allocated node's heap has capacity `capacity`. -/
def Capacities (m : LockFreeHashTable) (capacity : Nat) : Prop :=
  ∀ n < m.nodes.length, (m.heapOf n).capacity = capacity

theorem capacities_init (capacity : Nat) : init.Capacities capacity :=
  fun _ lt => absurd lt (Nat.not_lt_zero _)

theorem Capacities.getOrCreate {m : LockFreeHashTable} {capacity : Nat} (caps : m.Capacities capacity)
    (key : Key) : (m.getOrCreate key capacity).1.Capacities capacity := by
  unfold LockFreeHashTable.getOrCreate
  split
  · exact caps
  · intro n lt
    simp only [List.length_append, List.length_singleton] at lt
    rcases Nat.lt_or_ge n m.nodes.length with old | new
    · have := caps n old
      simpa [heapOf, List.getElem?_append_left old] using this
    · obtain rfl : n = m.nodes.length := by omega
      simp [heapOf, LockFreeHeap.init]

@[simp] theorem length_setHeap (m : LockFreeHashTable) (n : Nat) (h : LockFreeHeap) :
    (m.setHeap n h).nodes.length = m.nodes.length := List.length_modify _ _ _

theorem Capacities.setHeap {m : LockFreeHashTable} {capacity : Nat} (caps : m.Capacities capacity)
    (n : Nat) {h : LockFreeHeap} (cap : h.capacity = capacity) : (m.setHeap n h).Capacities capacity :=
  fun k lt => (heapOf_setHeap m n h k).elim (fun same => by rw [same]; exact caps k (by simpa using lt))
    fun now => by rw [now]; exact cap

/-! ### Keys and heaps along the steps -/

/-- The key of node `n` and the heap of its `MidpointNode`, once the node is allocated. -/
def entry (m : LockFreeHashTable) (n : Nat) : Option (Key × LockFreeHeap) :=
  (m.nodes[n]?).map fun b => (b.key, b.value.nodes)

/-- The key of node `n`, once it is allocated. -/
def keyOf (m : LockFreeHashTable) (n : Nat) : Option Key := (m.entry n).map Prod.fst

theorem heapOf_of_entry {m : LockFreeHashTable} {n : Nat} {k : Key} {h : LockFreeHeap}
    (at_n : m.entry n = some (k, h)) : m.heapOf n = h := by
  unfold entry at at_n
  unfold heapOf
  cases b : m.nodes[n]? <;> simp_all

theorem entry_of_keyOf {m : LockFreeHashTable} {n : Nat} {k : Key} (key : m.keyOf n = some k) :
    m.entry n = some (k, m.heapOf n) := by
  unfold keyOf at key
  obtain ⟨⟨k', h⟩, at_n, rfl⟩ := Option.map_eq_some'.mp key
  rw [at_n, heapOf_of_entry at_n]

theorem entry_getOrCreateStep (key : Key) (capacity : Nat) (m : LockFreeHashTable)
    (pc : GetOrCreatePc) (n : Nat) :
    (getOrCreateStep key capacity m pc).1.entry n = m.entry n ∨
      m.entry n = none ∧
        (getOrCreateStep key capacity m pc).1.entry n = some (key, LockFreeHeap.init capacity) := by
  cases pc with
  | traverse head =>
    cases head with
    | none =>
      simp only [getOrCreateStep, entry]
      rcases Nat.lt_trichotomy n m.nodes.length with lt | rfl | gt
      · simp [List.getElem?_append_left lt]
      · simp
      · left
        simp [List.getElem?_eq_none (show m.nodes.length ≤ n by omega),
          List.getElem?_eq_none (show (m.nodes ++ [_]).length ≤ n by simp; omega)]
    | some _ => exact .inl rfl
  | link newNode head =>
    left
    simp only [getOrCreateStep, entry, List.getElem?_modify]
    split_ifs <;> cases m.nodes[n]? <;> rfl
  | publish newNode head => simp only [getOrCreateStep]; split_ifs <;> exact .inl rfl
  | _ => exact .inl rfl

theorem keyOf_getOrCreateStep (key : Key) (capacity : Nat) {m : LockFreeHashTable}
    (pc : GetOrCreatePc) {n : Nat} {k : Key} (allocated : m.keyOf n = some k) :
    (getOrCreateStep key capacity m pc).1.keyOf n = some k := by
  unfold keyOf at *
  rcases entry_getOrCreateStep key capacity m pc n with same | ⟨none, -⟩
  · rw [same, allocated]
  · simp [none] at allocated

theorem entry_setHeap (m : LockFreeHashTable) (n : Nat) (h : LockFreeHeap) (k : Nat) :
    (m.setHeap n h).entry k = if k = n then (m.entry k).map fun e => (e.1, h) else m.entry k := by
  simp only [entry, setHeap, List.getElem?_modify]
  split_ifs with same same' same'
  · cases m.nodes[k]? <;> rfl
  · exact absurd same.symm same'
  · exact absurd same'.symm same
  · cases m.nodes[k]? <;> rfl

@[simp] theorem keyOf_setHeap (m : LockFreeHashTable) (n : Nat) (h : LockFreeHeap) (k : Nat) :
    (m.setHeap n h).keyOf k = m.keyOf k := by
  simp only [keyOf, entry_setHeap]
  split_ifs <;> cases m.entry k <;> rfl

/-- Every allocated node's heap holds only slots of `P` for that node's key. -/
def Buckets (P : Key → Nat → Prop) (m : LockFreeHashTable) : Prop :=
  ∀ n k h, m.entry n = some (k, h) → LockFreeHeap.Holds (P k) h

section
variable {P : Key → Nat → Prop} {m : LockFreeHashTable}

theorem buckets_init (P : Key → Nat → Prop) : Buckets P init := fun _ _ _ at_n => nomatch at_n

theorem Buckets.mono {Q : Key → Nat → Prop} (buckets : Buckets P m) (imp : ∀ k x, P k x → Q k x) :
    Buckets Q m := fun n k h at_n => (buckets n k h at_n).mono (imp k)

theorem Buckets.heapOf (buckets : Buckets P m) {n : Nat} {k : Key} (key : m.keyOf n = some k) :
    LockFreeHeap.Holds (P k) (m.heapOf n) := buckets n k _ (entry_of_keyOf key)

theorem Buckets.getOrCreateStep (buckets : Buckets P m) (key : Key) (capacity : Nat)
    (pc : GetOrCreatePc) : Buckets P (getOrCreateStep key capacity m pc).1 := fun n k h at_n => by
  rcases entry_getOrCreateStep key capacity m pc n with same | ⟨-, created⟩
  · exact buckets n k h (same ▸ at_n)
  · rw [created, Option.some.injEq, Prod.mk.injEq] at at_n
    rw [← at_n.2]
    exact LockFreeHeap.holds_init _ _

theorem Buckets.setHeap (buckets : Buckets P m) {n : Nat} {k : Key} (key : m.keyOf n = some k)
    {h : LockFreeHeap} (holds : LockFreeHeap.Holds (P k) h) : Buckets P (m.setHeap n h) :=
  fun j kj hj at_j => by
    rw [entry_setHeap] at at_j
    split_ifs at at_j with same
    · subst same
      rw [entry_of_keyOf key] at at_j
      cases at_j
      exact holds
    · exact buckets j kj hj at_j

end

/-- What a point of `get_or_create(key)` knows: a node it has allocated holds `key`. -/
def GetOrCreatePc.Owns (m : LockFreeHashTable) (key : Key) : GetOrCreatePc → Prop
  | .loadHead n => m.keyOf n = some key
  | .link n _ => m.keyOf n = some key
  | .publish n _ => m.keyOf n = some key
  | _ => True

/-- A step of `get_or_create(key)` goes on knowing what it owns, and returns a node of `key`. -/
def GetOrCreatePc.Within (m : LockFreeHashTable) (key : Key) : Control GetOrCreatePc Nat → Prop
  | .next pc => pc.Owns m key
  | .ret n => m.keyOf n = some key
  | .fault => True

theorem GetOrCreatePc.Owns.keep {m m' : LockFreeHashTable} {key : Key} {pc : GetOrCreatePc}
    (owns : pc.Owns m key) (keys : ∀ n k, m.keyOf n = some k → m'.keyOf n = some k) :
    pc.Owns m' key := by
  cases pc <;> first | trivial | exact keys _ _ owns

theorem probe_found {m : LockFreeHashTable} {key : Key} {n found : Nat}
    (ret : probe m key n = .ret found) : m.keyOf found = some key := by
  unfold probe at ret
  split at ret
  · next b at_n =>
    split_ifs at ret with same
    cases ret
    simp [keyOf, entry, at_n, same]
  · cases ret

theorem getOrCreateStep_within (key : Key) (capacity : Nat) {m : LockFreeHashTable}
    {pc : GetOrCreatePc} (owns : pc.Owns m key) :
    GetOrCreatePc.Within (getOrCreateStep key capacity m pc).1 key
      (getOrCreateStep key capacity m pc).2 := by
  have keep := fun n k => keyOf_getOrCreateStep key capacity (m := m) pc (n := n) (k := k)
  cases pc with
  | start => trivial
  | traverse head =>
    cases head with
    | none => simp [getOrCreateStep, GetOrCreatePc.Within, GetOrCreatePc.Owns, keyOf, entry]
    | some n =>
      simp only [getOrCreateStep]
      split
      · trivial
      · next ret => exact probe_found ret
      · trivial
  | loadHead n => exact keep _ _ owns
  | link n head => exact keep _ _ owns
  | publish n head =>
    simp only [getOrCreateStep]
    split_ifs
    · exact owns
    · exact owns

theorem getStep_found {key : Key} {m : LockFreeHashTable} {pc : GetPc} {n : Nat}
    (ret : getStep key m pc = .ret (some n)) : m.keyOf n = some key := by
  cases pc with
  | start => cases ret
  | traverse head =>
    cases head with
    | none => cases ret
    | some j =>
      simp only [getStep] at ret
      split at ret
      · cases ret
      · next found => cases ret; exact probe_found found
      · cases ret

/-- A client thread of the table. -/
inductive Call where
  | idle
  | getOrCreate (key : Key) (pc : GetOrCreatePc)
  | get (key : Key) (pc : GetPc)
  | fault
deriving DecidableEq, Repr

/-- The shared table, its clients, and what each completed call returned. -/
structure Clients where
  table : LockFreeHashTable
  threads : List Call
  created : List (Key × Nat)
  found : List (Key × Option Nat)

/-- Start `get_or_create` or `get` on an idle thread, or step a thread. -/
inductive Act where
  | getOrCreate (thread : Nat) (key : Key)
  | get (thread : Nat) (key : Key)
  | tick (thread : Nat)
deriving DecidableEq, Repr

namespace Clients

def init (threads : Nat) : Clients := ⟨LockFreeHashTable.init, List.replicate threads .idle, [], []⟩

/-- One scheduler choice; every `get_or_create` passes the same bucket capacity. -/
def step (capacity : Nat) (s : Clients) : Act → Clients
  | .getOrCreate t key =>
      if s.threads[t]? = some .idle then { s with threads := s.threads.set t (.getOrCreate key .start) }
      else s
  | .get t key =>
      if s.threads[t]? = some .idle then { s with threads := s.threads.set t (.get key .start) }
      else s
  | .tick t =>
      match s.threads[t]? with
      | some (.getOrCreate key pc) =>
          match getOrCreateStep key capacity s.table pc with
          | (m, .next pc) => { s with table := m, threads := s.threads.set t (.getOrCreate key pc) }
          | (m, .ret n) =>
              { s with table := m, threads := s.threads.set t .idle, created := s.created ++ [(key, n)] }
          | (m, .fault) => { s with table := m, threads := s.threads.set t .fault }
      | some (.get key pc) =>
          match getStep key s.table pc with
          | .next pc => { s with threads := s.threads.set t (.get key pc) }
          | .ret n => { s with threads := s.threads.set t .idle, found := s.found ++ [(key, n)] }
          | .fault => { s with threads := s.threads.set t .fault }
      | _ => s

end Clients

/-- `k` steps of thread `t`. -/
def ticks (t k : Nat) : List Act := List.replicate k (.tick t)

open Interleaving Clients

/-- One bucket per key in every shard, and one `MidpointNode*` for all `get_or_create`s of a key. -/
def SingleBucket (s : Clients) : Prop :=
  (∀ i, (s.table.shardKeys i).Nodup) ∧ ∀ k p q, (k, p) ∈ s.created → (k, q) ∈ s.created → p = q

/-- Two threads create the key "A"; thread 1's retried CAS links in front of thread 0's node. -/
def publishRace : List Act :=
  [.getOrCreate 0 [65]] ++ ticks 0 2 ++ [.getOrCreate 1 [65]] ++ ticks 1 4 ++ ticks 0 3 ++ ticks 1 4

set_option maxRecDepth 20000 in
theorem single_bucket_fails :
    ¬ ∀ (capacity threads : Nat) (s : Clients),
      Reachable (step capacity) (Clients.init threads) s → SingleBucket s := by
  intro law
  have single := law 100 2 _ (reachable_run .init publishRace)
  exact absurd (single.2 [65] 0 1 (by decide) (by decide)) (by decide)

end LockFreeHashTable

end RadialCache
