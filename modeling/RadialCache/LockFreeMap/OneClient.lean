import RadialCache.LockFreeMap

/-! `LockFreeHashTable` with a single client thread. A call that no other thread interrupts wins its
CAS and computes the sequential `getOrCreate` and `find`, so a lone client sees a map from keys
to `MidpointNode`s, with one bucket per key. -/

namespace RadialCache.LockFreeHashTable

theorem find?_congr {α : Type} {p q : α → Bool} : ∀ {l : List α}, (∀ x ∈ l, p x = q x) → l.find? p = l.find? q
  | [], _ => rfl
  | x :: rest, agree => by
    rw [List.find?_cons, List.find?_cons, agree x (List.mem_cons_self _ _),
      find?_congr fun y mem => agree y (List.mem_cons_of_mem _ mem)]

theorem Linked.chain_lt {m : LockFreeHashTable} (linked : m.Linked) :
    ∀ {bound fuel : Nat} {o : Option Nat}, (∀ n, o = some n → n < bound) → ∀ x ∈ m.chain fuel o, x < bound
  | _, 0, _, _, _, mem => nomatch mem
  | _, _ + 1, none, _, _, mem => nomatch mem
  | bound, fuel + 1, some n, below, x, mem => by
    rcases List.mem_cons.mp mem with rfl | mem
    · exact below x rfl
    · exact linked.chain_lt (fun n' next => (linked.older n n' next).trans (below n rfl)) x mem

theorem Linked.chain_add {m : LockFreeHashTable} (linked : m.Linked) {bound : Nat} {o : Option Nat}
    (below : ∀ n, o = some n → n < bound) : ∀ k, m.chain (bound + k) o = m.chain bound o
  | 0 => rfl
  | k + 1 => (linked.chain_succ (bound + k) o fun n at_n => by have := below n at_n; omega).trans
      (linked.chain_add below k)

/-! ### The table during a call -/

/-- The table during a lone client's call begun on `start`: its heads, and `start`'s nodes first. -/
structure Frame (start m : LockFreeHashTable) : Prop where
  buckets : m.buckets = start.buckets
  nodes : start.nodes <+: m.nodes

/-- A point of `get_or_create` that holds a node it allocated holds one beyond `start`'s. -/
def GetOrCreatePc.Fresh (start : LockFreeHashTable) : GetOrCreatePc → Prop
  | .loadHead n => start.nodes.length ≤ n
  | .link n _ => start.nodes.length ≤ n
  | .publish n _ => start.nodes.length ≤ n
  | _ => True

theorem Frame.refl (m : LockFreeHashTable) : Frame m m := ⟨rfl, List.prefix_refl _⟩

theorem prefix_modify {α : Type} {l l' : List α} (pre : l <+: l') (f : α → α) {n : Nat}
    (beyond : l.length ≤ n) : l <+: l'.modify f n := by
  rw [List.prefix_iff_eq_take] at pre ⊢
  rw [List.take_modify, ← pre, List.modify_eq_self beyond]

theorem Frame.getOrCreateStep {start m : LockFreeHashTable} (frame : Frame start m) (key : Key)
    (capacity : Nat) {pc pc' : GetOrCreatePc} (fresh : pc.Fresh start) {m' : LockFreeHashTable}
    (stepped : getOrCreateStep key capacity m pc = (m', .next pc')) : Frame start m' ∧ pc'.Fresh start := by
  cases pc with
  | start => cases stepped; exact ⟨frame, trivial⟩
  | traverse o =>
    cases o with
    | none =>
      cases stepped
      exact ⟨⟨frame.buckets, frame.nodes.trans (List.prefix_append _ _)⟩, frame.nodes.length_le⟩
    | some n =>
      simp only [LockFreeHashTable.getOrCreateStep] at stepped
      split at stepped <;> simp only [Prod.mk.injEq, Control.next.injEq, reduceCtorEq, and_false] at stepped
      obtain ⟨rfl, rfl⟩ := stepped
      exact ⟨frame, trivial⟩
  | loadHead n => cases stepped; exact ⟨frame, fresh⟩
  | link n head => cases stepped; exact ⟨⟨frame.buckets, prefix_modify frame.nodes _ fresh⟩, fresh⟩
  | publish n head =>
    simp only [LockFreeHashTable.getOrCreateStep] at stepped
    split_ifs at stepped <;> simp only [Prod.mk.injEq, Control.next.injEq, reduceCtorEq, and_false] at stepped
    obtain ⟨rfl, rfl⟩ := stepped
    exact ⟨frame, fresh⟩

theorem getElem?_of_grown {start m : LockFreeHashTable} (pre : start.nodes <+: m.nodes) {n : Nat}
    (lt : n < start.nodes.length) : m.nodes[n]? = start.nodes[n]? := by
  rw [List.prefix_iff_eq_take.mp pre, List.getElem?_take_of_lt lt]

section Prefix
variable {start m : LockFreeHashTable} (linked : start.Linked) (pre : start.nodes <+: m.nodes)
include linked pre

theorem chain_of_grown (fuel : Nat) {o : Option Nat} (below : ∀ n, o = some n → n < start.nodes.length) :
    m.chain fuel o = start.chain fuel o :=
  linked.chain_congr (fun n lt => by simp only [nextOf, getElem?_of_grown pre lt]) _ _ below

theorem shard_of_grown {o : Option Nat} (below : ∀ n, o = some n → n < start.nodes.length) :
    m.chain m.nodes.length o = start.chain start.nodes.length o := by
  obtain ⟨k, longer⟩ : ∃ k, m.nodes.length = start.nodes.length + k :=
    ⟨_, (Nat.add_sub_of_le pre.length_le).symm⟩
  rw [chain_of_grown linked pre _ below, longer, linked.chain_add below]

theorem find_of_grown {key : Key} (head : m.buckets (hash key) = start.buckets (hash key)) :
    m.find key = start.find key := by
  unfold LockFreeHashTable.find
  rw [head, shard_of_grown linked pre (linked.heads _)]
  exact find?_congr fun n mem => by rw [getElem?_of_grown pre (linked.chain_lt (linked.heads _) n mem)]

theorem shardKeys_of_grown {i : Nat} (head : m.buckets i = start.buckets i) :
    m.shardKeys i = start.shardKeys i := by
  unfold LockFreeHashTable.shardKeys
  rw [head, shard_of_grown linked pre (linked.heads _)]
  exact List.filterMap_congr fun n mem => by
    rw [getElem?_of_grown pre (linked.chain_lt (linked.heads _) n mem)]

end Prefix

theorem Linked.shardKeys_getOrCreate {m : LockFreeHashTable} (linked : m.Linked) {key : Key}
    (absent : m.find key = none) (capacity i : Nat) :
    (m.getOrCreate key capacity).1.shardKeys i =
      if i = hash key then key :: m.shardKeys i else m.shardKeys i := by
  have pre : m.nodes <+: (m.getOrCreate key capacity).1.nodes := by
    simp [LockFreeHashTable.getOrCreate, absent, List.prefix_append]
  split_ifs with same
  · subst same
    have head : (m.getOrCreate key capacity).1.buckets (hash key) = some m.nodes.length := by
      simp [LockFreeHashTable.getOrCreate, absent]
    have next : (m.getOrCreate key capacity).1.nextOf m.nodes.length = m.buckets (hash key) := by
      simp [LockFreeHashTable.getOrCreate, absent, nextOf]
    have length : (m.getOrCreate key capacity).1.nodes.length = m.nodes.length + 1 := by
      simp [LockFreeHashTable.getOrCreate, absent]
    unfold LockFreeHashTable.shardKeys
    rw [head, length, chain, next, chain_of_grown linked pre _ (linked.heads _), List.filterMap_cons]
    simp only [LockFreeHashTable.getOrCreate, absent, List.getElem?_concat_length, Option.map_some']
    congr 1
    exact List.filterMap_congr fun n mem => by
      rw [List.getElem?_append_left (linked.chain_lt (linked.heads _) n mem)]
  · exact shardKeys_of_grown linked pre (by simp [LockFreeHashTable.getOrCreate, absent, Function.update_noteq same])

/-- The table between a lone client's calls: no shard repeats a key; a key's bucket is its node. -/
structure Tabled (m : LockFreeHashTable) (created : List (Key × Nat)) : Prop where
  linked : m.Linked
  distinct : ∀ i, (m.shardKeys i).Nodup
  buckets : ∀ k n, m.find k = some n ↔ (k, n) ∈ created

theorem tabled_init : Tabled init [] where
  linked := linked_init
  distinct i := by simp [shardKeys, init, chain]
  buckets k n := by simp [find, init, chain]

theorem not_mem_shardKeys {m : LockFreeHashTable} {key : Key} (absent : m.find key = none) :
    key ∉ m.shardKeys (hash key) := by
  intro mem
  obtain ⟨n, mem, holds⟩ := List.mem_filterMap.mp mem
  exact (List.find?_eq_none.mp absent) n mem (by simpa using holds)

theorem Tabled.getOrCreate {m : LockFreeHashTable} {created : List (Key × Nat)} (tabled : Tabled m created)
    (key : Key) (capacity : Nat) :
    Tabled (m.getOrCreate key capacity).1 (created ++ [(key, (m.getOrCreate key capacity).2)]) where
  linked := tabled.linked.getOrCreate key capacity
  distinct i := by
    cases found : m.find key with
    | some n => rw [getOrCreate_found found]; exact tabled.distinct i
    | none =>
      rw [tabled.linked.shardKeys_getOrCreate found]
      split_ifs with same
      · subst same; exact List.nodup_cons.mpr ⟨not_mem_shardKeys found, tabled.distinct _⟩
      · exact tabled.distinct i
  buckets k n := by
    rw [List.mem_append, List.mem_singleton, Prod.mk.injEq]
    by_cases same : k = key
    · subst same
      rw [find_getOrCreate_self, Option.some.injEq, ← tabled.buckets]
      cases found : m.find k with
      | some p => simp [getOrCreate_found found, eq_comm]
      | none => simp [(getOrCreate_fresh found capacity).1, eq_comm]
    · rw [tabled.linked.find_getOrCreate_ne same, tabled.buckets]
      simp [same]

/-! ### Calls run alone -/

section Solo
variable (key : Key) (capacity : Nat) {m : LockFreeHashTable}

theorem modify_concat_length {α : Type} (l : List α) (a : α) (f : α → α) :
    (l ++ [a]).modify f l.length = l ++ [f a] := by
  rw [List.modify_eq_take_cons_drop (by simp)]
  simp

theorem solo_allocate (absent : m.find key = none) (fuel : Nat) :
    solo (getOrCreateStep key capacity) (fuel + 4) m (.traverse none) =
      some (m.getOrCreate key capacity) := by
  simp [solo, getOrCreateStep, getOrCreate, absent, modify_concat_length]

theorem solo_traverse (linked : m.Linked) :
    ∀ (bound : Nat) (o : Option Nat), bound ≤ m.nodes.length → (∀ n, o = some n → n < bound) →
      (m.chain bound o).find? (fun n => (m.nodes[n]?).map BucketNode.key = some key) = m.find key →
      ∀ {fuel : Nat}, bound + 4 ≤ fuel →
        solo (getOrCreateStep key capacity) fuel m (.traverse o) = some (m.getOrCreate key capacity)
  | bound, none, _, _, agree, fuel, enough => by
    obtain ⟨fuel, rfl⟩ : ∃ rest, fuel = rest + 4 := ⟨fuel - 4, by omega⟩
    cases bound <;> exact solo_allocate key capacity (by rw [← agree]; rfl) fuel
  | 0, some n, _, below, _, _, _ => absurd (below n rfl) (Nat.not_lt_zero n)
  | bound + 1, some n, within, below, agree, fuel, enough => by
    obtain ⟨fuel, rfl⟩ : ∃ rest, fuel = rest + 1 := ⟨fuel - 1, by omega⟩
    obtain ⟨b, at_n⟩ : ∃ b, m.nodes[n]? = some b :=
      ⟨_, List.getElem?_eq_getElem (by have := below n rfl; omega)⟩
    simp only [chain, List.find?_cons, at_n, Option.map_some', Option.some.injEq] at agree
    by_cases same : b.key = key
    · simp only [same, decide_True] at agree
      simp [solo, getOrCreateStep, probe, at_n, same, getOrCreate, ← agree]
    · simp only [same, decide_False] at agree
      have next : m.nextOf n = b.next := by simp [nextOf, at_n]
      simp only [solo, getOrCreateStep, probe, at_n, same, if_false]
      refine solo_traverse linked bound _ (by omega) (fun n' hn => ?_) (next ▸ agree) (by omega)
      have := linked.older n n' (next ▸ hn)
      have := below n rfl
      omega

theorem solo_getOrCreate (linked : m.Linked) {fuel : Nat} (enough : m.nodes.length + 5 ≤ fuel) :
    solo (getOrCreateStep key capacity) fuel m .start = some (m.getOrCreate key capacity) := by
  obtain ⟨fuel, rfl⟩ : ∃ rest, fuel = rest + 1 := ⟨fuel - 1, by omega⟩
  simp only [solo, getOrCreateStep]
  exact solo_traverse key capacity linked _ _ le_rfl (linked.heads _) rfl (by omega)

end Solo

/-- `get(key)` as a step of a call on the table, which it reads and leaves as it is. -/
def getOn (key : Key) (m : LockFreeHashTable) (pc : GetPc) : LockFreeHashTable × Control GetPc (Option Nat) :=
  (m, getStep key m pc)

theorem solo_get_traverse (key : Key) {m : LockFreeHashTable} (linked : m.Linked) :
    ∀ (bound : Nat) (o : Option Nat), bound ≤ m.nodes.length → (∀ n, o = some n → n < bound) →
      (m.chain bound o).find? (fun n => (m.nodes[n]?).map BucketNode.key = some key) = m.find key →
      ∀ {fuel : Nat}, bound + 1 ≤ fuel → solo (getOn key) fuel m (.traverse o) = some (m, m.find key)
  | bound, none, _, _, agree, fuel, enough => by
    obtain ⟨fuel, rfl⟩ : ∃ rest, fuel = rest + 1 := ⟨fuel - 1, by omega⟩
    cases bound <;> simp [solo, getOn, getStep, ← agree, chain]
  | 0, some n, _, below, _, _, _ => absurd (below n rfl) (Nat.not_lt_zero n)
  | bound + 1, some n, within, below, agree, fuel, enough => by
    obtain ⟨fuel, rfl⟩ : ∃ rest, fuel = rest + 1 := ⟨fuel - 1, by omega⟩
    obtain ⟨b, at_n⟩ : ∃ b, m.nodes[n]? = some b :=
      ⟨_, List.getElem?_eq_getElem (by have := below n rfl; omega)⟩
    simp only [chain, List.find?_cons, at_n, Option.map_some', Option.some.injEq] at agree
    by_cases same : b.key = key
    · simp only [same, decide_True] at agree
      simp [solo, getOn, getStep, probe, at_n, same, ← agree]
    · simp only [same, decide_False] at agree
      have next : m.nextOf n = b.next := by simp [nextOf, at_n]
      simp only [solo, getOn, getStep, probe, at_n, same, if_false]
      refine solo_get_traverse key linked bound _ (by omega) (fun n' hn => ?_) (next ▸ agree) (by omega)
      have := linked.older n n' (next ▸ hn)
      have := below n rfl
      omega

theorem solo_get (key : Key) {m : LockFreeHashTable} (linked : m.Linked) {fuel : Nat}
    (enough : m.nodes.length + 2 ≤ fuel) : solo (getOn key) fuel m .start = some (m, m.find key) := by
  obtain ⟨fuel, rfl⟩ : ∃ rest, fuel = rest + 1 := ⟨fuel - 1, by omega⟩
  simp only [solo, getOn, getStep]
  exact solo_get_traverse key linked _ _ le_rfl (linked.heads _) rfl (by omega)

/-! ### A lone client -/

open Interleaving Clients

/-- A call of the table's client. -/
inductive Op where
  | getOrCreate (key : Key)
  | get (key : Key)
deriving DecidableEq, Repr

/-- The calls `ops` made one after another on `m`, with what each call returned. -/
def calls (capacity : Nat) :
    List Op → LockFreeHashTable → List (Key × Nat) → List (Key × Option Nat) →
      LockFreeHashTable × List (Key × Nat) × List (Key × Option Nat)
  | [], m, created, found => (m, created, found)
  | .getOrCreate key :: rest, m, created, found =>
      calls capacity rest (m.getOrCreate key capacity).1
        (created ++ [(key, (m.getOrCreate key capacity).2)]) found
  | .get key :: rest, m, created, found => calls capacity rest m created (found ++ [(key, m.find key)])

theorem calls_append (capacity : Nat) (more : List Op) :
    ∀ (done : List Op) (m : LockFreeHashTable) (created : List (Key × Nat))
      (found : List (Key × Option Nat)),
      calls capacity (done ++ more) m created found =
        calls capacity more (calls capacity done m created found).1
          (calls capacity done m created found).2.1 (calls capacity done m created found).2.2
  | [], _, _, _ => rfl
  | .getOrCreate _ :: rest, _, _, _ => calls_append capacity more rest _ _ _
  | .get _ :: rest, _, _, _ => calls_append capacity more rest _ _ _

/-- The call a scheduler choice begins on an idle thread. -/
def started (s : Clients) : Act → List Op
  | .getOrCreate t key => if s.threads[t]? = some .idle then [.getOrCreate key] else []
  | .get t key => if s.threads[t]? = some .idle then [.get key] else []
  | .tick _ => []

/-- The calls a schedule begins on idle threads, in order. -/
def begun (capacity : Nat) (s : Clients) : List Act → List Op
  | [] => []
  | a :: rest => started s a ++ begun capacity (s.step capacity a) rest

/-- The call in flight on a thread in `call`. -/
def inFlight : Call → List Op
  | .idle => []
  | .getOrCreate key _ => [.getOrCreate key]
  | .get key _ => [.get key]
  | .fault => []

/-- The client's call on `m` ends as the sequential call on `start` within `fuel` steps. -/
def Resumes (capacity : Nat) (start m : LockFreeHashTable) (fuel : Nat) : Call → Prop
  | .idle => m = start
  | .getOrCreate key pc =>
      pc.Fresh start ∧ solo (getOrCreateStep key capacity) fuel m pc = some (start.getOrCreate key capacity)
  | .get key pc => m = start ∧ solo (getOn key) fuel m pc = some (start, start.find key)
  | .fault => False

/-- The state of a table whose only client is in `call`, begun on the table `start`. -/
structure Alone (capacity : Nat) (s : Clients) (asked : List Op) (start : LockFreeHashTable)
    (call : Call) (fuel : Nat) : Prop where
  threads : s.threads = [call]
  tabled : Tabled start s.created
  found : ∀ k n, (k, some n) ∈ s.found → (k, n) ∈ s.created
  history : ∃ done, done ++ inFlight call = asked ∧
    calls capacity done init [] [] = (start, s.created, s.found)
  frame : Frame start s.table
  bounded : fuel ≤ start.nodes.length + 5
  resumes : Resumes capacity start s.table fuel call

section
variable {capacity : Nat} {s : Clients} {asked : List Op} {start : LockFreeHashTable} {call : Call}
  {fuel : Nat}

theorem alone_init (capacity : Nat) : Alone capacity (Clients.init 1) [] init .idle 0 where
  threads := rfl
  tabled := tabled_init
  found _ _ mem := nomatch mem
  history := ⟨[], rfl, rfl⟩
  frame := Frame.refl _
  bounded := Nat.zero_le _
  resumes := rfl

theorem Alone.idle (alone : Alone capacity s asked start call 0) : call = .idle := by
  have resumes := alone.resumes
  cases call with
  | idle => rfl
  | getOrCreate key pc => cases resumes.2
  | get key pc => cases resumes.2
  | fault => exact resumes.elim

theorem step_tick_idle (threads : s.threads = [.idle]) (t : Nat) : s.step capacity (.tick t) = s := by
  rcases t with _ | t <;> simp only [Clients.step, threads] <;> rfl

theorem history_ret {done : List Op} {op : Op} (asked' : done ++ [op] = asked)
    (ran : calls capacity done init [] [] = (start, s.created, s.found)) :
    ∃ done', done' ++ inFlight .idle = asked ∧
      calls capacity done' init [] [] = calls capacity [op] start s.created s.found :=
  ⟨done ++ [op], by rw [inFlight, List.append_nil, asked'], by rw [calls_append, ran]⟩

theorem Alone.tick (alone : Alone capacity s asked start call (fuel + 1)) :
    ∃ start' call' fuel', fuel' ≤ fuel ∧
      Alone capacity (s.step capacity (.tick 0)) asked start' call' fuel' := by
  have resumes := alone.resumes
  have bounded : fuel ≤ start.nodes.length + 5 := Nat.le_of_succ_le alone.bounded
  obtain ⟨done, asked', ran⟩ := alone.history
  cases call with
  | idle =>
    rw [step_tick_idle alone.threads]
    exact ⟨start, .idle, fuel, le_rfl, { alone with bounded, resumes }⟩
  | getOrCreate key pc =>
    rcases solo_first resumes.2 with ⟨m', pc', stepped, rest⟩ | stepped
    · obtain ⟨frame, fresh⟩ := alone.frame.getOrCreateStep key capacity resumes.1 stepped
      refine ⟨start, .getOrCreate key pc', fuel, le_rfl, ?_⟩
      simp only [Clients.step, alone.threads, List.getElem?_cons_zero, stepped]
      exact { alone with
        threads := rfl, history := ⟨done, asked', ran⟩, frame, bounded, resumes := ⟨fresh, rest⟩ }
    · refine ⟨(start.getOrCreate key capacity).1, .idle, 0, Nat.zero_le _, ?_⟩
      simp only [Clients.step, alone.threads, List.getElem?_cons_zero, stepped]
      exact ⟨rfl, alone.tabled.getOrCreate key capacity,
        fun k n mem => List.mem_append_left _ (alone.found k n mem), history_ret asked' ran,
        Frame.refl _, Nat.zero_le _, rfl⟩
  | get key pc =>
    obtain ⟨same, run⟩ := resumes
    rcases solo_first run with ⟨m', pc', stepped, rest⟩ | stepped
    · obtain ⟨rfl, next⟩ := Prod.mk.inj stepped
      refine ⟨start, .get key pc', fuel, le_rfl, ?_⟩
      simp only [Clients.step, alone.threads, List.getElem?_cons_zero, next]
      exact { alone with
        threads := rfl, history := ⟨done, asked', ran⟩, bounded, resumes := ⟨same, rest⟩ }
    · obtain ⟨-, ret⟩ := Prod.mk.inj stepped
      refine ⟨start, .idle, 0, Nat.zero_le _, ?_⟩
      simp only [Clients.step, alone.threads, List.getElem?_cons_zero, ret]
      refine { alone with
        threads := rfl
        found := fun k n mem => ?_
        history := (history_ret asked' ran).imp fun _ => And.imp_right fun r => r.trans rfl
        bounded := Nat.zero_le _
        resumes := same }
      rcases List.mem_append.mp mem with old | new
      · exact alone.found k n old
      · obtain ⟨rfl, found⟩ := Prod.mk.inj (List.mem_singleton.mp new)
        exact (alone.tabled.buckets k n).mp found.symm
  | fault => exact resumes.elim

theorem Alone.step (alone : Alone capacity s asked start call fuel) (a : Act) :
    ∃ start' call' fuel', Alone capacity (s.step capacity a) (asked ++ started s a) start' call' fuel' := by
  have began : ∀ {t : Nat}, s.threads[t]? = some .idle → t = 0 ∧ s.table = start ∧
      calls capacity asked init [] [] = (start, s.created, s.found) := fun {t} idle => by
    rw [alone.threads] at idle
    rcases t with _ | t
    · obtain rfl : call = .idle := by simpa using idle
      obtain ⟨done, asked', ran⟩ := alone.history
      rw [inFlight, List.append_nil] at asked'
      exact ⟨rfl, alone.resumes, asked' ▸ ran⟩
    · cases idle
  cases a with
  | getOrCreate t key =>
    by_cases idle : s.threads[t]? = some .idle
    · obtain ⟨rfl, same, ran⟩ := began idle
      refine ⟨start, .getOrCreate key .start, start.nodes.length + 5, ?_⟩
      simp only [Clients.step, started, idle, if_true]
      exact { alone with
        threads := by simp [alone.threads]
        history := ⟨asked, rfl, ran⟩
        bounded := le_rfl
        resumes := ⟨trivial, same ▸ solo_getOrCreate key capacity alone.tabled.linked le_rfl⟩ }
    · simp only [Clients.step, started, idle, if_false, List.append_nil]
      exact ⟨_, _, _, alone⟩
  | get t key =>
    by_cases idle : s.threads[t]? = some .idle
    · obtain ⟨rfl, same, ran⟩ := began idle
      refine ⟨start, .get key .start, start.nodes.length + 2, ?_⟩
      simp only [Clients.step, started, idle, if_true]
      exact { alone with
        threads := by simp [alone.threads]
        history := ⟨asked, rfl, ran⟩
        bounded := by omega
        resumes := ⟨same, same ▸ solo_get key alone.tabled.linked le_rfl⟩ }
    · simp only [Clients.step, started, idle, if_false, List.append_nil]
      exact ⟨_, _, _, alone⟩
  | tick t =>
    rw [started, List.append_nil]
    rcases t with _ | t
    · rcases fuel with _ | fuel
      · obtain rfl := alone.idle
        rw [step_tick_idle alone.threads]
        exact ⟨_, _, _, alone⟩
      · obtain ⟨start', call', fuel', -, next⟩ := alone.tick
        exact ⟨_, _, _, next⟩
    · have still : s.step capacity (.tick (t + 1)) = s := by simp only [Clients.step, alone.threads]; rfl
      rw [still]
      exact ⟨_, _, _, alone⟩

theorem Alone.run (alone : Alone capacity s asked start call fuel) (acts : List Act) :
    ∃ start' call' fuel', Alone capacity (run (Clients.step capacity) s acts)
      (asked ++ begun capacity s acts) start' call' fuel' := by
  induction acts generalizing s asked start call fuel with
  | nil => exact ⟨start, call, fuel, by simpa [begun] using alone⟩
  | cons a rest ih =>
    obtain ⟨start', call', fuel', alone'⟩ := alone.step a
    rw [begun, ← List.append_assoc]
    exact ih alone'

theorem Alone.returns (alone : Alone capacity s asked start call fuel) {n : Nat} (enough : fuel ≤ n) :
    ∀ c ∈ (Interleaving.run (Clients.step capacity) s (ticks 0 n)).threads, c = .idle := by
  induction n generalizing s start call fuel with
  | zero =>
    obtain rfl : fuel = 0 := by omega
    obtain rfl := alone.idle
    simp [ticks, alone.threads]
  | succ n ih =>
    show ∀ c ∈ (Interleaving.run (Clients.step capacity) (s.step capacity (.tick 0)) (ticks 0 n)).threads,
      c = .idle
    rcases fuel with _ | fuel
    · obtain rfl := alone.idle
      rw [step_tick_idle alone.threads]
      exact ih alone (Nat.zero_le n)
    · obtain ⟨start', call', fuel', le, next⟩ := alone.tick
      exact ih next (by omega)

end

/-- With a single client, whatever the schedule, the table is a map: no fault, one bucket per key
that `get` finds, the sequential results between calls, every call returning within the node count plus
five steps, and `get_or_create` and `get` computing the sequential `getOrCreate` and `find`. -/
theorem one_client_table_is_a_map (capacity : Nat) (acts : List Act) (s : Clients)
    (ran : run (Clients.step capacity) (Clients.init 1) acts = s) :
    (∀ c ∈ s.threads, c ≠ .fault) ∧ SingleBucket s ∧
      (∀ k n, s.table.find k = some n ↔ (k, n) ∈ s.created) ∧
      (∀ k n, (k, some n) ∈ s.found → (k, n) ∈ s.created) ∧
      (s.threads = [.idle] →
        calls capacity (begun capacity (Clients.init 1) acts) init [] [] = (s.table, s.created, s.found)) ∧
      (∀ c ∈ (run (Clients.step capacity) s (ticks 0 (s.table.nodes.length + 5))).threads, c = .idle) ∧
      (∀ (m : LockFreeHashTable) (key : Key) (fuel : Nat), m.Linked → m.nodes.length + 5 ≤ fuel →
        solo (getOrCreateStep key capacity) fuel m .start = some (m.getOrCreate key capacity)) ∧
      ∀ (m : LockFreeHashTable) (key : Key) (fuel : Nat), m.Linked → m.nodes.length + 2 ≤ fuel →
        solo (getOn key) fuel m .start = some (m, m.find key) := by
  subst ran
  obtain ⟨start, call, fuel, alone⟩ := (alone_init capacity).run acts
  rw [List.nil_append] at alone
  have linked := alone.tabled.linked
  have heads : ∀ i, (run (Clients.step capacity) (Clients.init 1) acts).table.buckets i = start.buckets i :=
    fun i => by rw [alone.frame.buckets]
  have buckets : ∀ k n, (run (Clients.step capacity) (Clients.init 1) acts).table.find k = some n ↔
      (k, n) ∈ (run (Clients.step capacity) (Clients.init 1) acts).created := fun k n => by
    rw [find_of_grown linked alone.frame.nodes (heads _), alone.tabled.buckets]
  refine ⟨?_, ⟨fun i => ?_, fun k p q hp hq => ?_⟩, buckets, alone.found, fun idle => ?_,
    alone.returns (alone.bounded.trans (by have := alone.frame.nodes.length_le; omega)),
    fun m key _ linked enough => solo_getOrCreate key capacity linked enough,
    fun m key _ linked enough => solo_get key linked enough⟩
  · intro c mem faulted
    rw [alone.threads, List.mem_singleton] at mem
    subst mem faulted
    exact alone.resumes
  · rw [shardKeys_of_grown linked alone.frame.nodes (heads i)]
    exact alone.tabled.distinct i
  · exact Option.some.inj (((buckets k p).mpr hp).symm.trans ((buckets k q).mpr hq))
  · obtain rfl : call = .idle := List.singleton_inj.mp (alone.threads.symm.trans idle)
    obtain ⟨done, asked, ran⟩ := alone.history
    rw [show _ = start from alone.resumes, ← ran, ← asked, inFlight, List.append_nil]

/-- A lone client creates the buckets of "A" and "B", creates "A" again, then gets "A" and "C". -/
def createTwiceThenGet : List Act :=
  [.getOrCreate 0 [65]] ++ ticks 0 5 ++ [.getOrCreate 0 [66]] ++ ticks 0 6 ++
    [.getOrCreate 0 [65]] ++ ticks 0 7 ++ [.get 0 [65]] ++ ticks 0 4 ++ [.get 0 [67]] ++ ticks 0 4

theorem one_client_table_is_a_map_create_twice_then_get :
    (∀ c ∈ (run (Clients.step 100) (Clients.init 1) createTwiceThenGet).threads, c ≠ .fault) ∧
      SingleBucket (run (Clients.step 100) (Clients.init 1) createTwiceThenGet) ∧
      (∀ k n, (run (Clients.step 100) (Clients.init 1) createTwiceThenGet).table.find k = some n ↔
        (k, n) ∈ (run (Clients.step 100) (Clients.init 1) createTwiceThenGet).created) ∧
      (∀ k n, (k, some n) ∈ (run (Clients.step 100) (Clients.init 1) createTwiceThenGet).found →
        (k, n) ∈ (run (Clients.step 100) (Clients.init 1) createTwiceThenGet).created) ∧
      ((run (Clients.step 100) (Clients.init 1) createTwiceThenGet).threads = [.idle] →
        calls 100 (begun 100 (Clients.init 1) createTwiceThenGet) init [] [] =
          ((run (Clients.step 100) (Clients.init 1) createTwiceThenGet).table,
            (run (Clients.step 100) (Clients.init 1) createTwiceThenGet).created,
            (run (Clients.step 100) (Clients.init 1) createTwiceThenGet).found)) ∧
      (∀ c ∈ (run (Clients.step 100) (run (Clients.step 100) (Clients.init 1) createTwiceThenGet)
        (ticks 0 ((run (Clients.step 100) (Clients.init 1) createTwiceThenGet).table.nodes.length + 5))).threads,
        c = .idle) ∧
      (∀ (m : LockFreeHashTable) (key : Key) (fuel : Nat), m.Linked → m.nodes.length + 5 ≤ fuel →
        solo (getOrCreateStep key 100) fuel m .start = some (m.getOrCreate key 100)) ∧
      ∀ (m : LockFreeHashTable) (key : Key) (fuel : Nat), m.Linked → m.nodes.length + 2 ≤ fuel →
        solo (getOn key) fuel m .start = some (m, m.find key) :=
  one_client_table_is_a_map 100 createTwiceThenGet _ rfl

end RadialCache.LockFreeHashTable
