import RadialCache.LockFreeMap

/-! What holds of a `LockFreeHashTable` in every interleaving of `get_or_create` and `get`: nodes
are only appended and keys never rewritten, so no traversal reads past the allocated nodes, and every
`MidpointNode*` handed out belongs to a node of its key. -/

namespace RadialCache.LockFreeHashTable

/-- A pointer that is null or names an allocated node. -/
def Allocated (m : LockFreeHashTable) (o : Option Nat) : Prop := ∀ n, o = some n → n < m.nodes.length

/-- Every shard head and every `next` field is null or names an allocated node. -/
structure Closed (m : LockFreeHashTable) : Prop where
  heads : ∀ i, m.Allocated (m.buckets i)
  nexts : ∀ n, m.Allocated (m.nextOf n)

/-- `m'` keeps every node of `m`, with its key. -/
structure Extends (m m' : LockFreeHashTable) : Prop where
  length : m.nodes.length ≤ m'.nodes.length
  keys : ∀ n k, m.keyOf n = some k → m'.keyOf n = some k

section
variable {m m' : LockFreeHashTable}

theorem Allocated.mono {o : Option Nat} (allocated : m.Allocated o) (grows : Extends m m') :
    m'.Allocated o := fun n same => Nat.lt_of_lt_of_le (allocated n same) grows.length

theorem keyOf_lt {n : Nat} {k : Key} (key : m.keyOf n = some k) : n < m.nodes.length := by
  by_contra beyond
  simp [keyOf, entry, List.getElem?_eq_none (Nat.le_of_not_lt beyond)] at key

theorem closed_init : init.Closed := ⟨fun _ _ absent => (nomatch absent), fun _ _ absent => (nomatch absent)⟩

theorem probe_safe (closed : m.Closed) (key : Key) {n : Nat} (lt : n < m.nodes.length) :
    (∃ head, probe m key n = .next head ∧ m.Allocated head) ∨
      (probe m key n = .ret n ∧ m.keyOf n = some key) := by
  have at_n : m.nodes[n]? = some m.nodes[n] := List.getElem?_eq_getElem lt
  have next : m.nextOf n = m.nodes[n].next := by simp [nextOf, at_n]
  unfold probe
  rw [at_n]
  dsimp only
  split_ifs with same
  · exact .inr ⟨rfl, by simp [keyOf, entry, at_n, same]⟩
  · exact .inl ⟨_, rfl, next ▸ closed.nexts n⟩

end

/-! ### The calls' program points -/

/-- What a point of `get_or_create(key)` relies on: it reads allocated nodes, owns nodes of `key`. -/
def GetOrCreatePc.Safe (m : LockFreeHashTable) (key : Key) : GetOrCreatePc → Prop
  | .start => True
  | .traverse head => m.Allocated head
  | .loadHead n => m.keyOf n = some key
  | .link n head => m.keyOf n = some key ∧ m.Allocated head
  | .publish n head => m.keyOf n = some key ∧ m.Allocated head

/-- A safe outcome of a step of `get_or_create(key)`: a safe point, or a node of `key`. -/
def GetOrCreatePc.Next (m : LockFreeHashTable) (key : Key) : Control GetOrCreatePc Nat → Prop
  | .next pc => pc.Safe m key
  | .ret n => m.keyOf n = some key
  | .fault => False

/-- What a point of `get(key)` relies on: the node it reads next is allocated. -/
def GetPc.Safe (m : LockFreeHashTable) : GetPc → Prop
  | .start => True
  | .traverse head => m.Allocated head

/-- A safe outcome of a step of `get(key)`: a safe point, or null, or a node of `key`. -/
def GetPc.Next (m : LockFreeHashTable) (key : Key) : Control GetPc (Option Nat) → Prop
  | .next pc => pc.Safe m
  | .ret found => ∀ n, found = some n → m.keyOf n = some key
  | .fault => False

section
variable {m m' : LockFreeHashTable} {key : Key}

theorem GetOrCreatePc.Safe.mono {pc : GetOrCreatePc} (safe : pc.Safe m key) (grows : Extends m m') :
    pc.Safe m' key := by
  cases pc with
  | start => trivial
  | traverse head => exact Allocated.mono safe grows
  | loadHead n => exact grows.keys _ _ safe
  | link n head | publish n head => exact ⟨grows.keys _ _ safe.1, safe.2.mono grows⟩

theorem GetPc.Safe.mono {pc : GetPc} (safe : pc.Safe m) (grows : Extends m m') : pc.Safe m' := by
  cases pc with
  | start => trivial
  | traverse head => exact Allocated.mono safe grows

theorem nextOf_link (m : LockFreeHashTable) (n : Nat) (head : Option Nat) (k : Nat) :
    ({ m with nodes := m.nodes.modify (fun b => { b with next := head }) n } : LockFreeHashTable).nextOf k =
      head ∨
    ({ m with nodes := m.nodes.modify (fun b => { b with next := head }) n } : LockFreeHashTable).nextOf k =
      m.nextOf k := by
  simp only [nextOf, List.getElem?_modify]
  split_ifs <;> cases m.nodes[k]? <;> simp

theorem extends_getOrCreateStep (m : LockFreeHashTable) (key : Key) (capacity : Nat) (pc : GetOrCreatePc) :
    Extends m (getOrCreateStep key capacity m pc).1 := by
  refine ⟨?_, fun n k => keyOf_getOrCreateStep key capacity pc⟩
  cases pc with
  | traverse head => cases head <;> simp [getOrCreateStep]
  | link n head => simp [getOrCreateStep]
  | publish n head => simp only [getOrCreateStep]; split_ifs <;> exact le_refl _
  | _ => exact le_refl _

theorem Closed.getOrCreateStep (closed : m.Closed) (capacity : Nat) {pc : GetOrCreatePc}
    (safe : pc.Safe m key) : (getOrCreateStep key capacity m pc).1.Closed := by
  cases pc with
  | traverse head =>
    cases head with
    | none =>
      have grows := extends_getOrCreateStep m key capacity (.traverse none)
      refine ⟨fun i => (closed.heads i).mono grows, fun k => ?_⟩
      rcases Nat.lt_or_ge k m.nodes.length with old | new
      · simpa only [LockFreeHashTable.getOrCreateStep, nextOf_append m _ _ old] using
          (closed.nexts k).mono grows
      · intro n next
        simp only [LockFreeHashTable.getOrCreateStep, nextOf] at next
        rcases Nat.lt_or_ge k (m.nodes.length + 1) with last | beyond
        · obtain rfl : k = m.nodes.length := by omega
          simp at next
        · simp [List.getElem?_eq_none (show (m.nodes ++ [_]).length ≤ k by simpa using beyond)] at next
    | some n => exact closed
  | link n head =>
    have grows := extends_getOrCreateStep m key capacity (.link n head)
    simp only [LockFreeHashTable.getOrCreateStep] at grows ⊢
    refine ⟨fun i => (closed.heads i).mono grows, fun k j next => ?_⟩
    rcases nextOf_link m n head k with linked | same
    · exact Nat.lt_of_lt_of_le (safe.2 j (linked ▸ next)) grows.length
    · exact Nat.lt_of_lt_of_le (closed.nexts k j (same ▸ next)) grows.length
  | publish n head =>
    simp only [LockFreeHashTable.getOrCreateStep]
    split_ifs
    · refine ⟨fun i => ?_, closed.nexts⟩
      by_cases same : i = hash key
      · subst same
        simpa [Allocated] using keyOf_lt safe.1
      · simpa [Function.update_noteq same] using closed.heads i
    · exact closed
  | start | loadHead n => exact closed

theorem getOrCreateStep_next (closed : m.Closed) (capacity : Nat) {pc : GetOrCreatePc}
    (safe : pc.Safe m key) :
    GetOrCreatePc.Next (getOrCreateStep key capacity m pc).1 key (getOrCreateStep key capacity m pc).2 := by
  cases pc with
  | start => exact closed.heads _
  | traverse head =>
    cases head with
    | none => simp [getOrCreateStep, GetOrCreatePc.Next, GetOrCreatePc.Safe, keyOf, entry]
    | some n =>
      rcases probe_safe closed key (safe n rfl) with ⟨head, stepped, allocated⟩ | ⟨stepped, found⟩
      · simpa only [getOrCreateStep, stepped] using allocated
      · simpa only [getOrCreateStep, stepped] using found
  | loadHead n => exact ⟨safe, closed.heads _⟩
  | link n head =>
    exact ⟨keyOf_getOrCreateStep key capacity (.link n head) safe.1,
      safe.2.mono (extends_getOrCreateStep m key capacity (.link n head))⟩
  | publish n head =>
    simp only [getOrCreateStep]
    split_ifs
    · simpa [GetOrCreatePc.Next, keyOf, entry] using safe.1
    · exact safe.1

theorem getStep_next (closed : m.Closed) (key : Key) {pc : GetPc} (safe : pc.Safe m) :
    GetPc.Next m key (getStep key m pc) := by
  cases pc with
  | start => exact closed.heads _
  | traverse head =>
    cases head with
    | none => exact fun _ absent => nomatch absent
    | some n =>
      rcases probe_safe closed key (safe n rfl) with ⟨head, stepped, allocated⟩ | ⟨stepped, found⟩
      · simpa only [getStep, stepped] using allocated
      · simp only [getStep, stepped, GetPc.Next, Option.some.injEq]
        rintro _ rfl
        exact found

end

/-! ### Every interleaving -/

/-- A thread in a safe state: idle, or inside a call at a safe point. -/
def Call.Safe (m : LockFreeHashTable) : Call → Prop
  | .idle => True
  | .getOrCreate key pc => pc.Safe m key
  | .get _ pc => pc.Safe m
  | .fault => False

theorem Call.Safe.mono {m m' : LockFreeHashTable} {call : Call} (safe : call.Safe m)
    (grows : Extends m m') : call.Safe m' := by
  cases call with
  | idle => trivial
  | getOrCreate key pc => exact GetOrCreatePc.Safe.mono safe grows
  | get key pc => exact GetPc.Safe.mono safe grows
  | fault => exact safe

/-- The invariant of the table's clients: allocated pointers, safe points, results of their key. -/
structure Safe (s : Clients) : Prop where
  closed : s.table.Closed
  threads : ∀ call ∈ s.threads, call.Safe s.table
  created : ∀ k n, (k, n) ∈ s.created → s.table.keyOf n = some k
  found : ∀ k n, (k, some n) ∈ s.found → s.table.keyOf n = some k

theorem safe_init (threads : Nat) : Safe (Clients.init threads) where
  closed := closed_init
  threads call mem := by rw [List.eq_of_mem_replicate mem]; trivial
  created _ _ absent := nomatch absent
  found _ _ absent := nomatch absent

section
variable {s : Clients}

theorem Safe.set (safe : Safe s) (t : Nat) (call : Call) {m : LockFreeHashTable}
    (created : List (Key × Nat)) (found : List (Key × Option Nat)) (closed : m.Closed)
    (grows : Extends s.table m) (ok : call.Safe m)
    (createdOk : ∀ k n, (k, n) ∈ created → m.keyOf n = some k)
    (foundOk : ∀ k n, (k, some n) ∈ found → m.keyOf n = some k) :
    Safe ⟨m, s.threads.set t call, s.created ++ created, s.found ++ found⟩ where
  closed := closed
  threads other mem := by
    rcases List.mem_or_eq_of_mem_set mem with old | rfl
    · exact (safe.threads other old).mono grows
    · exact ok
  created k n mem := by
    rcases List.mem_append.mp mem with old | new
    · exact grows.keys _ _ (safe.created k n old)
    · exact createdOk k n new
  found k n mem := by
    rcases List.mem_append.mp mem with old | new
    · exact grows.keys _ _ (safe.found k n old)
    · exact foundOk k n new

theorem Safe.move (safe : Safe s) (t : Nat) {call : Call} (ok : call.Safe s.table) :
    Safe { s with threads := s.threads.set t call } := by
  simpa using safe.set t call [] [] safe.closed ⟨le_refl _, fun _ _ key => key⟩ ok
    (fun _ _ absent => nomatch absent) (fun _ _ absent => nomatch absent)

theorem Safe.tick_getOrCreate (safe : Safe s) (capacity : Nat) {t : Nat} {key : Key}
    {pc : GetOrCreatePc} (current : s.threads[t]? = some (.getOrCreate key pc)) :
    Safe (s.step capacity (.tick t)) := by
  have ok : pc.Safe s.table key := safe.threads _ (List.getElem?_mem current)
  have closed := safe.closed.getOrCreateStep capacity ok
  have grows := extends_getOrCreateStep s.table key capacity pc
  have next := getOrCreateStep_next safe.closed capacity ok
  rw [Clients.step, current]
  dsimp only
  split
  · next m pc' stepped =>
    rw [stepped] at closed grows next
    simpa using safe.set t (.getOrCreate key pc') [] [] closed grows next
      (fun _ _ absent => nomatch absent) (fun _ _ absent => nomatch absent)
  · next m n stepped =>
    rw [stepped] at closed grows next
    simpa using safe.set t .idle [(key, n)] [] closed grows trivial
      (fun k n' mem => by cases List.mem_singleton.mp mem; exact next)
      (fun _ _ absent => nomatch absent)
  · next m stepped =>
    rw [stepped] at next
    exact next.elim

theorem Safe.tick_get (safe : Safe s) (capacity : Nat) {t : Nat} {key : Key} {pc : GetPc}
    (current : s.threads[t]? = some (.get key pc)) : Safe (s.step capacity (.tick t)) := by
  have ok : pc.Safe s.table := safe.threads _ (List.getElem?_mem current)
  have next := getStep_next safe.closed key ok
  rw [Clients.step, current]
  dsimp only
  split
  · next pc' stepped =>
    rw [stepped] at next
    exact safe.move t next
  · next found stepped =>
    rw [stepped] at next
    simpa using safe.set t .idle [] [(key, found)] safe.closed ⟨le_refl _, fun _ _ key => key⟩ trivial
      (fun _ _ absent => nomatch absent)
      (fun k n mem => by cases List.mem_singleton.mp mem; exact next n rfl)
  · next stepped =>
    rw [stepped] at next
    exact next.elim

theorem Safe.step (safe : Safe s) (capacity : Nat) (a : Act) : Safe (s.step capacity a) := by
  cases a with
  | getOrCreate t key =>
    rw [Clients.step]
    split
    · exact safe.move t trivial
    · exact safe
  | get t key =>
    rw [Clients.step]
    split
    · exact safe.move t trivial
    · exact safe
  | tick t =>
    cases current : s.threads[t]? with
    | some call =>
      cases call with
      | getOrCreate key pc => exact safe.tick_getOrCreate capacity current
      | get key pc => exact safe.tick_get capacity current
      | idle | fault => simpa [Clients.step, current] using safe
    | none => simpa [Clients.step, current] using safe

end

open Interleaving

/-- In every interleaving of `get_or_create` and `get` calls, no step reads a node that was
never allocated, and every `MidpointNode*` that `get_or_create(k)` or `get(k)` returns is the
value of a bucket node whose key is `k`. -/
theorem lookups_return_own_key (capacity threads : Nat) (s : Clients)
    (reach : Reachable (Clients.step capacity) (Clients.init threads) s) :
    Call.fault ∉ s.threads ∧
      (∀ k n, (k, n) ∈ s.created → s.table.keyOf n = some k) ∧
      (∀ k n, (k, some n) ∈ s.found → s.table.keyOf n = some k) := by
  have safe : Safe s := reach.invariant (safe_init threads) fun _ a safe => safe.step capacity a
  exact ⟨fun faulted => safe.threads _ faulted, safe.created, safe.found⟩

/-- Both buckets that `publishRace` creates for key `[65]` carry that key. -/
theorem lookups_return_own_key_in_publish_race :
    Call.fault ∉ (run (Clients.step 100) (Clients.init 2) publishRace).threads ∧
      (∀ k n, (k, n) ∈ (run (Clients.step 100) (Clients.init 2) publishRace).created →
        (run (Clients.step 100) (Clients.init 2) publishRace).table.keyOf n = some k) ∧
      (∀ k n, (k, some n) ∈ (run (Clients.step 100) (Clients.init 2) publishRace).found →
        (run (Clients.step 100) (Clients.init 2) publishRace).table.keyOf n = some k) :=
  lookups_return_own_key 100 2 _ (reachable_run .init publishRace)

end RadialCache.LockFreeHashTable
