import RadialCache.LockFreeMap.Safety
import Mathlib.Data.List.Nodup

/-! No `get_or_create` is lost: a node is reachable only after the CAS that publishes it, and its
`next` is never written again, so a `get(k)` begun after a `get_or_create(k)` returned never
reaches the end of `k`'s shard. -/

namespace RadialCache.LockFreeHashTable

/-! ### Paths along `next` -/

/-- Following `next` from `start` passes the allocated nodes `l` and then reaches `nullptr`. -/
def Path (m : LockFreeHashTable) (start : Option Nat) : List Nat → Prop
  | [] => start = none
  | n :: rest => start = some n ∧ n < m.nodes.length ∧ Path m (m.nextOf n) rest

section
variable {m m' : LockFreeHashTable} {start : Option Nat} {l : List Nat}

theorem Path.lt (path : Path m start l) : ∀ n ∈ l, n < m.nodes.length := by
  induction l generalizing start with
  | nil => exact fun _ absent => nomatch absent
  | cons n rest ih =>
    obtain ⟨-, lt, tail⟩ := path
    intro x mem
    rcases List.mem_cons.mp mem with rfl | later
    · exact lt
    · exact ih tail x later

theorem Path.congr (path : Path m start l) (grows : m.nodes.length ≤ m'.nodes.length)
    (same : ∀ n ∈ l, m'.nextOf n = m.nextOf n) : Path m' start l := by
  induction l generalizing start with
  | nil => exact path
  | cons n rest ih =>
    obtain ⟨first, lt, tail⟩ := path
    refine ⟨first, Nat.lt_of_lt_of_le lt grows, ?_⟩
    rw [same n (List.mem_cons_self _ _)]
    exact ih tail fun x mem => same x (List.mem_cons_of_mem _ mem)

theorem Path.head_mem {p : Nat} (path : Path m (some p) l) : p ∈ l := by
  cases l with
  | nil => exact nomatch path
  | cons n rest =>
    obtain ⟨same, -⟩ := path
    exact Option.some.inj same ▸ List.mem_cons_self _ _

theorem Path.next_mem (path : Path m start l) {p q : Nat} (mem : p ∈ l) (next : m.nextOf p = some q) :
    q ∈ l := by
  induction l generalizing start with
  | nil => exact absurd mem (List.not_mem_nil _)
  | cons n rest ih =>
    obtain ⟨-, -, tail⟩ := path
    rcases List.mem_cons.mp mem with rfl | later
    · exact List.mem_cons_of_mem _ (next ▸ tail).head_mem
    · exact List.mem_cons_of_mem _ (ih tail later)

theorem Path.chain (path : Path m start l) {fuel : Nat} (enough : l.length ≤ fuel) :
    m.chain fuel start = l := by
  induction l generalizing start fuel with
  | nil => rw [path]; cases fuel <;> rfl
  | cons n rest ih =>
    obtain ⟨rfl, -, tail⟩ := path
    obtain ⟨fuel, rfl⟩ : ∃ k, fuel = k + 1 := ⟨fuel - 1, by simp only [List.length_cons] at enough; omega⟩
    rw [LockFreeHashTable.chain, ih tail (Nat.le_of_succ_le_succ enough)]

theorem Path.length_le (path : Path m start l) (nodup : l.Nodup) : l.length ≤ m.nodes.length := by
  simpa using (List.subperm_of_subset nodup fun n mem => List.mem_range.mpr (path.lt n mem)).length_le

end

/-- What a traversal of `get(key)` from `o` has ahead: a path along `shard` past a node of `key`. -/
def Ahead (m : LockFreeHashTable) (shard : List Nat) (key : Key) (o : Option Nat) : Prop :=
  ∃ l, Path m o l ∧ (∀ x ∈ l, x ∈ shard) ∧ ∃ x ∈ l, m.keyOf x = some key

theorem ahead_none {m : LockFreeHashTable} {shard : List Nat} {key : Key} : ¬ Ahead m shard key none := by
  rintro ⟨l, path, -, x, mem, -⟩
  cases l with
  | nil => exact absurd mem (List.not_mem_nil _)
  | cons n rest => exact nomatch path.1

/-- The table keeps its nodes and keys, shards only grow, and nodes on them keep their `next`. -/
structure Grows (m : LockFreeHashTable) (shards : Nat → List Nat) (m' : LockFreeHashTable)
    (shards' : Nat → List Nat) : Prop where
  table : Extends m m'
  sub : ∀ i, ∀ x ∈ shards i, x ∈ shards' i
  nexts : ∀ i, ∀ x ∈ shards i, m'.nextOf x = m.nextOf x

theorem Grows.refl (m : LockFreeHashTable) (shards : Nat → List Nat) : Grows m shards m shards :=
  ⟨⟨le_refl _, fun _ _ key => key⟩, fun _ _ mem => mem, fun _ _ _ => rfl⟩

theorem Ahead.mono {m m' : LockFreeHashTable} {shards shards' : Nat → List Nat} {key : Key} {o : Option Nat}
    (ahead : Ahead m (shards (hash key)) key o) (grows : Grows m shards m' shards') :
    Ahead m' (shards' (hash key)) key o := by
  obtain ⟨l, path, onShard, x, mem, keyed⟩ := ahead
  exact ⟨l, path.congr grows.table.length fun n mem => grows.nexts _ n (onShard n mem),
    fun n mem => grows.sub _ n (onShard n mem), x, mem, grows.table.keys _ _ keyed⟩

theorem probe_next {m : LockFreeHashTable} {key : Key} {n : Nat} {o : Option Nat}
    (stepped : probe m key n = .next o) : m.nextOf n = o ∧ m.keyOf n ≠ some key := by
  unfold probe at stepped
  split at stepped
  · next b at_n =>
    split_ifs at stepped with same
    cases stepped
    simp [nextOf, keyOf, entry, at_n, same]
  · cases stepped

theorem probe_ret {m : LockFreeHashTable} {key : Key} {n r : Nat} (stepped : probe m key n = .ret r) :
    r = n := by
  unfold probe at stepped
  split at stepped
  · split_ifs at stepped
    exact (Control.ret.inj stepped).symm
  · cases stepped

theorem nextOf_link_self {m : LockFreeHashTable} {n : Nat} (lt : n < m.nodes.length) (head : Option Nat) :
    ({ m with nodes := m.nodes.modify (fun b => { b with next := head }) n } : LockFreeHashTable).nextOf n =
      head := by
  simp [nextOf, List.getElem?_eq_getElem lt]

theorem nextOf_link_ne (m : LockFreeHashTable) {n k : Nat} (ne : k ≠ n) (head : Option Nat) :
    ({ m with nodes := m.nodes.modify (fun b => { b with next := head }) n } : LockFreeHashTable).nextOf k =
      m.nextOf k := by
  simp only [nextOf, List.getElem?_modify_ne _ _ (Ne.symm ne)]

theorem getElem?_set_cases {α : Type} {l : List α} {t u : Nat} {a b : α} (at_u : (l.set t a)[u]? = some b) :
    (u = t ∧ b = a) ∨ (u ≠ t ∧ l[u]? = some b) := by
  by_cases same : u = t
  · subst same
    rw [List.getElem?_set_self'] at at_u
    obtain ⟨_, -, rfl⟩ := Option.map_eq_some'.mp at_u
    exact .inl ⟨rfl, rfl⟩
  · exact .inr ⟨same, by rwa [List.getElem?_set_ne (Ne.symm same)] at at_u⟩

/-! ### The publishing protocol -/

/-- The node a `get_or_create` has allocated and not yet published. -/
def Call.pending : Call → Option Nat
  | .getOrCreate _ (.loadHead n) => some n
  | .getOrCreate _ (.link n _) => some n
  | .getOrCreate _ (.publish n _) => some n
  | _ => none

/-- Node `n` is allocated and on no shard. -/
def Detached (m : LockFreeHashTable) (shards : Nat → List Nat) (n : Nat) : Prop :=
  n < m.nodes.length ∧ ∀ i, n ∉ shards i

/-- What a thread's next step relies on: it walks its key's shard, and its new node is detached. -/
def Call.Ready (m : LockFreeHashTable) (shards : Nat → List Nat) : Call → Prop
  | .getOrCreate key (.traverse (some p)) => p ∈ shards (hash key)
  | .getOrCreate _ (.loadHead n) => Detached m shards n
  | .getOrCreate _ (.link n _) => Detached m shards n
  | .getOrCreate _ (.publish n head) => Detached m shards n ∧ m.nextOf n = head
  | _ => True

theorem Call.Ready.detached {m : LockFreeHashTable} {shards : Nat → List Nat} {call : Call}
    (ready : call.Ready m shards) {n : Nat} (pending : call.pending = some n) : Detached m shards n := by
  cases call with
  | getOrCreate key pc =>
    cases pc with
    | loadHead n' | link n' _ => cases pending; exact ready
    | publish n' _ => cases pending; exact ready.1
    | start | traverse _ => cases pending
  | idle | get _ _ | fault => cases pending

theorem Call.Ready.grow {m m' : LockFreeHashTable} {shards shards' : Nat → List Nat} {call : Call}
    (ready : call.Ready m shards) (grows : Grows m shards m' shards')
    (kept : ∀ n, call.pending = some n → (∀ i, n ∉ shards' i) ∧ m'.nextOf n = m.nextOf n) :
    call.Ready m' shards' := by
  cases call with
  | getOrCreate key pc =>
    cases pc with
    | start => trivial
    | traverse head =>
      cases head with
      | none => trivial
      | some p => exact grows.sub _ _ ready
    | loadHead n | link n _ => exact ⟨Nat.lt_of_lt_of_le ready.1 grows.table.length, (kept n rfl).1⟩
    | publish n head =>
      exact ⟨⟨Nat.lt_of_lt_of_le ready.1.1 grows.table.length, (kept n rfl).1⟩, (kept n rfl).2.trans ready.2⟩
  | idle | get _ _ | fault => trivial

/-- The invariant of the publishing protocol; `shards i` lists shard `i`'s nodes, newest first. -/
structure Published (s : Clients) (shards : Nat → List Nat) : Prop where
  paths : ∀ i, Path s.table (s.table.buckets i) (shards i)
  nodup : ∀ i, (shards i).Nodup
  threads : ∀ (u : Nat) (call : Call), s.threads[u]? = some call → call.Ready s.table shards
  owner : ∀ (u v : Nat) (cu cv : Call) (n : Nat), s.threads[u]? = some cu → s.threads[v]? = some cv → cu.pending = some n →
    cv.pending = some n → u = v
  created : ∀ k n, (k, n) ∈ s.created → n ∈ shards (hash k)

theorem published_init (threads : Nat) : Published (Clients.init threads) fun _ => [] where
  paths _ := rfl
  nodup _ := List.nodup_nil
  threads u call at_u := by rw [List.eq_of_mem_replicate (List.getElem?_mem at_u)]; trivial
  owner u v cu cv n at_u _ pending _ := by
    rw [List.eq_of_mem_replicate (List.getElem?_mem at_u)] at pending
    cases pending
  created _ _ absent := nomatch absent

section
variable {s : Clients} {shards : Nat → List Nat}

theorem Published.thread (pub : Published s shards) {s' : Clients} {shards' : Nat → List Nat}
    {t : Nat} {c c' : Call} (at_t : s.threads[t]? = some c) (moves : s'.threads = s.threads.set t c')
    (paths : ∀ i, Path s'.table (s'.table.buckets i) (shards' i)) (nodup : ∀ i, (shards' i).Nodup)
    (grows : Grows s.table shards s'.table shards')
    (others : ∀ (u : Nat) (cu : Call), u ≠ t → s.threads[u]? = some cu → cu.Ready s'.table shards')
    (ready : c'.Ready s'.table shards')
    (claims : ∀ n, c'.pending = some n →
      c.pending = some n ∨ ∀ (u : Nat) (cu : Call), s.threads[u]? = some cu → cu.pending ≠ some n)
    (created : ∀ k n, (k, n) ∈ s'.created → (k, n) ∈ s.created ∨ n ∈ shards' (hash k)) :
    Published s' shards' where
  paths := paths
  nodup := nodup
  threads u cu at_u := by
    rw [moves] at at_u
    rcases getElem?_set_cases at_u with ⟨rfl, rfl⟩ | ⟨ne, old⟩
    · exact ready
    · exact others u cu ne old
  owner u v cu cv n at_u at_v pu pv := by
    rw [moves] at at_u at_v
    have alone : ∀ (w : Nat) (cw : Call), w ≠ t → s.threads[w]? = some cw → cw.pending = some n → c'.pending ≠ some n :=
      fun w cw ne old pw pt => (claims n pt).elim (fun pc => ne (pub.owner w t cw c n old at_t pw pc))
        fun fresh => fresh w cw old pw
    rcases getElem?_set_cases at_u with ⟨rfl, rfl⟩ | ⟨neu, oldu⟩ <;>
      rcases getElem?_set_cases at_v with ⟨rfl, rfl⟩ | ⟨nev, oldv⟩
    · rfl
    · exact absurd pu (alone v cv nev oldv pv)
    · exact absurd pv (alone u cu neu oldu pu)
    · exact pub.owner u v cu cv n oldu oldv pu pv
  created k n mem := (created k n mem).elim (fun old => grows.sub _ _ (pub.created k n old)) id

theorem Published.quiet (pub : Published s shards) {s' : Clients} {t : Nat} {c c' : Call}
    (at_t : s.threads[t]? = some c) (moves : s'.threads = s.threads.set t c') (table : s'.table = s.table)
    (ready : c'.Ready s.table shards) (pending : c'.pending = c.pending)
    (created : ∀ k n, (k, n) ∈ s'.created → (k, n) ∈ s.created ∨ n ∈ shards (hash k)) :
    Published s' shards ∧ Grows s.table shards s'.table shards := by
  rw [← table] at ready
  have grows : Grows s.table shards s'.table shards := table ▸ Grows.refl _ _
  exact ⟨pub.thread at_t moves (fun i => table ▸ pub.paths i) pub.nodup grows
    (fun u cu _ old => table ▸ pub.threads u cu old) ready
    (fun n p => .inl (pending ▸ p)) created, grows⟩

theorem Published.alloc (pub : Published s shards) (capacity : Nat) {t : Nat} {key : Key}
    (current : s.threads[t]? = some (.getOrCreate key (.traverse none))) :
    Published { s with
        table := (getOrCreateStep key capacity s.table (.traverse none)).1
        threads := s.threads.set t (.getOrCreate key (.loadHead s.table.nodes.length)) } shards ∧
      Grows s.table shards (getOrCreateStep key capacity s.table (.traverse none)).1 shards := by
  have old : ∀ n, n < s.table.nodes.length →
      (getOrCreateStep key capacity s.table (.traverse none)).1.nextOf n = s.table.nextOf n :=
    fun n lt => nextOf_append s.table _ _ lt
  have grows : Grows s.table shards (getOrCreateStep key capacity s.table (.traverse none)).1 shards :=
    ⟨extends_getOrCreateStep s.table key capacity _, fun _ _ mem => mem,
      fun i n mem => old n ((pub.paths i).lt n mem)⟩
  refine ⟨pub.thread current rfl
    (fun i => (pub.paths i).congr grows.table.length fun n mem => old n ((pub.paths i).lt n mem))
    pub.nodup grows (fun u cu _ at_u => (pub.threads u cu at_u).grow grows fun n pending =>
      ⟨((pub.threads u cu at_u).detached pending).2, old n ((pub.threads u cu at_u).detached pending).1⟩)
    ⟨by simp [getOrCreateStep], fun i mem => Nat.lt_irrefl _ ((pub.paths i).lt _ mem)⟩
    (fun n pending => .inr fun u cu at_u pu => ?_) (fun _ _ => .inl), grows⟩
  cases pending
  exact Nat.lt_irrefl _ ((pub.threads u cu at_u).detached pu).1

theorem Published.link (pub : Published s shards) (capacity : Nat) {t : Nat} {key : Key} {n : Nat}
    {head : Option Nat} (current : s.threads[t]? = some (.getOrCreate key (.link n head))) :
    Published { s with
        table := (getOrCreateStep key capacity s.table (.link n head)).1
        threads := s.threads.set t (.getOrCreate key (.publish n head)) } shards ∧
      Grows s.table shards (getOrCreateStep key capacity s.table (.link n head)).1 shards := by
  have detached : Detached s.table shards n := pub.threads t _ current
  have other : ∀ k, k ≠ n → (getOrCreateStep key capacity s.table (.link n head)).1.nextOf k = s.table.nextOf k :=
    fun k ne => nextOf_link_ne s.table ne head
  have offShard : ∀ i, ∀ x ∈ shards i, x ≠ n := fun i x mem same => detached.2 i (same ▸ mem)
  have grows : Grows s.table shards (getOrCreateStep key capacity s.table (.link n head)).1 shards :=
    ⟨extends_getOrCreateStep s.table key capacity _, fun _ _ mem => mem,
      fun i x mem => other x (offShard i x mem)⟩
  refine ⟨pub.thread current rfl
    (fun i => (pub.paths i).congr grows.table.length fun x mem => other x (offShard i x mem)) pub.nodup grows
    (fun u cu ne at_u => (pub.threads u cu at_u).grow grows fun n' pending =>
      ⟨((pub.threads u cu at_u).detached pending).2,
        other n' fun same => ne (pub.owner u t cu _ n' at_u current pending (by rw [same]; rfl))⟩)
    ⟨⟨by simpa [getOrCreateStep] using detached.1, detached.2⟩, nextOf_link_self detached.1 head⟩
    (fun _ pending => .inl pending) (fun _ _ => .inl), grows⟩

theorem Published.publish (pub : Published s shards) {t : Nat} {key : Key} {n : Nat} {head : Option Nat}
    (current : s.threads[t]? = some (.getOrCreate key (.publish n head)))
    (expected : s.table.buckets (hash key) = head) :
    Published { s with
        table := { s.table with buckets := Function.update s.table.buckets (hash key) (some n) }
        threads := s.threads.set t .idle, created := s.created ++ [(key, n)] }
        (Function.update shards (hash key) (n :: shards (hash key))) ∧
      Grows s.table shards { s.table with buckets := Function.update s.table.buckets (hash key) (some n) }
        (Function.update shards (hash key) (n :: shards (hash key))) := by
  have ready : Detached s.table shards n ∧ s.table.nextOf n = head := pub.threads t _ current
  have sub : ∀ i, ∀ x ∈ shards i, x ∈ Function.update shards (hash key) (n :: shards (hash key)) i := by
    intro i x mem
    by_cases same : i = hash key
    · subst same; simpa using Or.inr mem
    · simpa [Function.update_noteq same] using mem
  have grows : Grows s.table shards { s.table with buckets := Function.update s.table.buckets (hash key) (some n) }
      (Function.update shards (hash key) (n :: shards (hash key))) :=
    ⟨⟨le_refl _, fun _ _ key => key⟩, sub, fun _ _ _ => rfl⟩
  refine ⟨pub.thread current rfl (fun i => ?_) (fun i => ?_) grows
    (fun u cu ne at_u => (pub.threads u cu at_u).grow grows fun n' pending => ⟨fun i mem => ?_, rfl⟩)
    trivial (fun _ pending => nomatch pending) (fun k x mem => ?_), grows⟩
  · by_cases same : i = hash key
    · subst same
      simp only [Function.update_same]
      exact ⟨rfl, ready.1.1, (ready.2.trans expected.symm ▸ pub.paths (hash key)).congr (le_refl _) fun _ _ => rfl⟩
    · simp only [Function.update_noteq same]
      exact (pub.paths i).congr (le_refl _) fun _ _ => rfl
  · by_cases same : i = hash key
    · subst same
      simpa only [Function.update_same] using List.nodup_cons.mpr ⟨ready.1.2 _, pub.nodup _⟩
    · simpa only [Function.update_noteq same] using pub.nodup i
  · have ne : n' ≠ n := fun same => ne (pub.owner u t cu _ n' at_u current pending (by rw [same]; rfl))
    have off := ((pub.threads u cu at_u).detached pending).2
    by_cases same : i = hash key
    · subst same
      simp only [Function.update_same, List.mem_cons] at mem
      exact mem.elim ne (off _)
    · simp only [Function.update_noteq same] at mem
      exact off i mem
  · rcases List.mem_append.mp mem with old | new
    · exact .inl old
    · obtain ⟨rfl, rfl⟩ := Prod.mk.inj (List.mem_singleton.mp new)
      exact .inr (by simp)

theorem Published.tick_getOrCreate (pub : Published s shards) (capacity : Nat) {t : Nat} {key : Key}
    {pc : GetOrCreatePc} (current : s.threads[t]? = some (.getOrCreate key pc)) :
    ∃ shards', Published (s.step capacity (.tick t)) shards' ∧
      Grows s.table shards (s.step capacity (.tick t)).table shards' := by
  have ready := pub.threads t _ current
  rw [Clients.step, current]
  dsimp only
  cases pc with
  | start =>
    refine ⟨shards, pub.quiet current rfl rfl ?_ rfl fun _ _ => .inl⟩
    cases head : s.table.buckets (hash key) with
    | none => trivial
    | some p => exact (head ▸ pub.paths (hash key)).head_mem
  | traverse head =>
    cases head with
    | none => exact ⟨shards, pub.alloc capacity current⟩
    | some p =>
      have onShard : p ∈ shards (hash key) := ready
      simp only [getOrCreateStep]
      cases stepped : probe s.table key p with
      | next o =>
        refine ⟨shards, pub.quiet current rfl rfl ?_ rfl fun _ _ => .inl⟩
        cases o with
        | none => trivial
        | some q => exact (pub.paths _).next_mem onShard (probe_next stepped).1
      | ret r =>
        obtain rfl := probe_ret stepped
        exact ⟨shards, pub.quiet current rfl rfl trivial rfl fun k n mem =>
          (List.mem_append.mp mem).imp id fun new => by cases List.mem_singleton.mp new; exact onShard⟩
      | fault => exact ⟨shards, pub.quiet current rfl rfl trivial rfl fun _ _ => .inl⟩
  | loadHead n => exact ⟨shards, pub.quiet current rfl rfl ready rfl fun _ _ => .inl⟩
  | link n head => exact ⟨shards, pub.link capacity current⟩
  | publish n head =>
    simp only [getOrCreateStep]
    split_ifs with expected
    · exact ⟨_, pub.publish current expected⟩
    · exact ⟨shards, pub.quiet current rfl rfl ready.1 rfl fun _ _ => .inl⟩

theorem Published.tick_get (pub : Published s shards) (capacity : Nat) {t : Nat} {key : Key} {pc : GetPc}
    (current : s.threads[t]? = some (.get key pc)) :
    Published (s.step capacity (.tick t)) shards ∧ Grows s.table shards (s.step capacity (.tick t)).table shards := by
  rw [Clients.step, current]
  dsimp only
  split <;> exact pub.quiet current rfl rfl trivial rfl fun _ _ => .inl

theorem Published.step (pub : Published s shards) (capacity : Nat) (a : Act) :
    ∃ shards', Published (s.step capacity a) shards' ∧ Grows s.table shards (s.step capacity a).table shards' := by
  cases a with
  | getOrCreate t key | get t key =>
    rw [Clients.step]
    split
    · next idle => exact ⟨shards, pub.quiet idle rfl rfl trivial rfl fun _ _ => .inl⟩
    · exact ⟨shards, pub, Grows.refl _ _⟩
  | tick t =>
    cases current : s.threads[t]? with
    | some call =>
      cases call with
      | getOrCreate key pc => exact pub.tick_getOrCreate capacity current
      | get key pc => exact ⟨shards, pub.tick_get capacity current⟩
      | idle | fault => simp only [Clients.step, current]; exact ⟨shards, pub, Grows.refl _ _⟩
    | none => simp only [Clients.step, current]; exact ⟨shards, pub, Grows.refl _ _⟩

/-! ### A `get` that starts after a `get_or_create` has returned -/

theorem step_at_traverse {capacity : Nat} {s : Clients} {a : Act} {t : Nat} {key : Key} {o : Option Nat}
    (at_t : (s.step capacity a).threads[t]? = some (.get key (.traverse o))) :
    s.threads[t]? = some (.get key (.traverse o)) ∨
      (s.threads[t]? = some (.get key .start) ∧ o = s.table.buckets (hash key)) ∨
      ∃ p, s.threads[t]? = some (.get key (.traverse (some p))) ∧ probe s.table key p = .next o := by
  cases a with
  | getOrCreate u k | get u k =>
    simp only [Clients.step] at at_t
    split_ifs at at_t
    · rcases getElem?_set_cases at_t with ⟨-, same⟩ | ⟨-, old⟩
      · cases same
      · exact .inl old
    · exact .inl at_t
  | tick u =>
    cases current : s.threads[u]? with
    | none => simp only [Clients.step, current] at at_t; exact .inl at_t
    | some call =>
      cases call with
      | idle | fault => simp only [Clients.step, current] at at_t; exact .inl at_t
      | getOrCreate k pc =>
        simp only [Clients.step, current] at at_t
        split at at_t <;> rcases getElem?_set_cases at_t with ⟨-, same⟩ | ⟨-, old⟩
        all_goals first | cases same | exact .inl old
      | get k pc =>
        simp only [Clients.step, current] at at_t
        split at at_t
        · next pc' stepped =>
          rcases getElem?_set_cases at_t with ⟨rfl, same⟩ | ⟨-, old⟩
          · obtain ⟨rfl, rfl⟩ := Call.get.inj same
            cases pc with
            | start => exact .inr (.inl ⟨current, (GetPc.traverse.inj (Control.next.inj stepped)).symm⟩)
            | traverse head =>
              cases head with
              | none => cases stepped
              | some p =>
                simp only [getStep] at stepped
                split at stepped
                · next o' probed =>
                  obtain rfl := GetPc.traverse.inj (Control.next.inj stepped)
                  exact .inr (.inr ⟨p, current, probed⟩)
                all_goals cases stepped
          · exact .inl old
        all_goals rcases getElem?_set_cases at_t with ⟨-, same⟩ | ⟨-, old⟩
        all_goals first | cases same | exact .inl old

theorem Ahead.next {m : LockFreeHashTable} {shard : List Nat} {key : Key} {p : Nat} {o : Option Nat}
    (ahead : Ahead m shard key (some p)) (stepped : probe m key p = .next o) : Ahead m shard key o := by
  obtain ⟨next, other⟩ := probe_next stepped
  obtain ⟨l, path, onShard, x, mem, keyed⟩ := ahead
  cases l with
  | nil => exact nomatch path
  | cons p' rest =>
    obtain ⟨same, -, tail⟩ := path
    obtain rfl := Option.some.inj same
    refine ⟨rest, next ▸ tail, fun y mem => onShard y (List.mem_cons_of_mem _ mem), x, ?_, keyed⟩
    rcases List.mem_cons.mp mem with rfl | later
    · exact absurd keyed other
    · exact later

/-- Thread `t`, if it is traversing for `get(key)`, still has a node of `key` ahead. -/
def Watch (t : Nat) (key : Key) (s : Clients) (shards : Nat → List Nat) : Prop :=
  ∀ o, s.threads[t]? = some (.get key (.traverse o)) → Ahead s.table (shards (hash key)) key o

theorem Watch.step {t : Nat} {key : Key} {s : Clients} {shards shards' : Nat → List Nat}
    (watch : Watch t key s shards) (pub : Published s shards)
    (present : ∃ x ∈ shards (hash key), s.table.keyOf x = some key) {capacity : Nat} {a : Act}
    (grows : Grows s.table shards (s.step capacity a).table shards') : Watch t key (s.step capacity a) shards' := by
  intro o at_t
  rcases step_at_traverse at_t with same | ⟨-, rfl⟩ | ⟨p, walking, stepped⟩
  · exact (watch o same).mono grows
  · exact (show Ahead s.table (shards (hash key)) key (s.table.buckets (hash key)) from
      ⟨_, pub.paths _, fun _ mem => mem, present⟩).mono grows
  · exact ((watch _ walking).next stepped).mono grows

theorem created_step (capacity : Nat) (s : Clients) (a : Act) {k : Key} {n : Nat} (mem : (k, n) ∈ s.created) :
    (k, n) ∈ (s.step capacity a).created := by
  cases a with
  | getOrCreate t key | get t key => simp only [Clients.step]; split_ifs <;> exact mem
  | tick t =>
    simp only [Clients.step]
    repeat' split
    all_goals first | exact mem | exact List.mem_append_left _ mem

open Interleaving

theorem published_of_reachable {capacity threads : Nat} {s : Clients}
    (reach : Reachable (Clients.step capacity) (Clients.init threads) s) : ∃ shards, Published s shards := by
  induction reach with
  | init => exact ⟨_, published_init threads⟩
  | step a _ ih =>
    obtain ⟨_, pub⟩ := ih
    exact (pub.step capacity a).imp fun _ => And.left

/-- What holds from a point where `get_or_create(k)` has returned `n`, for thread `t`. -/
structure Watched (t : Nat) (k : Key) (n : Nat) (s : Clients) : Prop where
  created : (k, n) ∈ s.created
  safe : Safe s
  published : ∃ shards, Published s shards ∧ Watch t k s shards

theorem Watched.step {t : Nat} {k : Key} {n : Nat} {s : Clients} (watched : Watched t k n s)
    (capacity : Nat) (a : Act) : Watched t k n (s.step capacity a) := by
  obtain ⟨mem, safe, shards, pub, watch⟩ := watched
  obtain ⟨shards', pub', grows⟩ := pub.step capacity a
  exact ⟨created_step capacity s a mem, safe.step capacity a, shards', pub',
    watch.step pub ⟨n, pub.created k n mem, safe.created k n mem⟩ grows⟩

theorem getStep_ret_none {key : Key} {m : LockFreeHashTable} {pc : GetPc}
    (ret : getStep key m pc = .ret none) : pc = .traverse none := by
  rcases pc with _ | _ | n
  · cases ret
  · rfl
  · simp only [getStep] at ret
    split at ret <;> cases ret

theorem found_tick_get {capacity : Nat} {s : Clients} {t : Nat} {key : Key} {pc : GetPc}
    (at_t : s.threads[t]? = some (.get key pc)) (short : pc ≠ .traverse none) :
    (s.step capacity (.tick t)).found = s.found ∨
      ∃ n, (s.step capacity (.tick t)).found = s.found ++ [(key, some n)] := by
  simp only [Clients.step, at_t]
  split
  · exact .inl rfl
  · next r ret =>
    rcases r with _ | n
    · exact absurd (getStep_ret_none ret) short
    · exact .inr ⟨n, rfl⟩
  · exact .inl rfl

/-- In every interleaving of `get_or_create` and `get` calls, once `get_or_create(k)` has returned,
a `get(k)` that an idle thread `t` starts afterwards never reaches the end of `k`'s shard list:
when it returns, it returns a node of key `k`, never `nullptr`. -/
theorem get_after_create_never_misses (capacity threads : Nat) (pre post : List Act) (t : Nat) (k : Key)
    (n : Nat) (created : (k, n) ∈ (run (Clients.step capacity) (Clients.init threads) pre).created)
    (idle : (run (Clients.step capacity) (Clients.init threads) pre).threads[t]? = some .idle) :
    (run (Clients.step capacity) (Clients.init threads) (pre ++ post)).threads[t]? ≠
        some (.get k (.traverse none)) ∧
      ∀ pc, (run (Clients.step capacity) (Clients.init threads) (pre ++ post)).threads[t]? =
          some (.get k pc) →
        ((run (Clients.step capacity) (Clients.init threads) (pre ++ post)).step capacity (.tick t)).found =
            (run (Clients.step capacity) (Clients.init threads) (pre ++ post)).found ∨
          ∃ n', ((run (Clients.step capacity) (Clients.init threads) (pre ++ post)).step capacity
              (.tick t)).found = (run (Clients.step capacity) (Clients.init threads) (pre ++ post)).found ++
                [(k, some n')] ∧
            ((run (Clients.step capacity) (Clients.init threads) (pre ++ post)).step capacity
              (.tick t)).table.keyOf n' = some k := by
  have reach := reachable_run (.init : Reachable (Clients.step capacity) (Clients.init threads) _) pre
  obtain ⟨shards, pub⟩ := published_of_reachable reach
  have start : Watched t k n (run (Clients.step capacity) (Clients.init threads) pre) :=
    ⟨created, reach.invariant (safe_init threads) fun _ a safe => safe.step capacity a, shards, pub,
      fun o at_t => by rw [idle] at at_t; cases at_t⟩
  have watched := (reachable_run .init post).invariant start fun _ a watched => watched.step capacity a
  obtain ⟨-, safe, final, -, watch⟩ := watched
  rw [run_append]
  have short : ∀ pc, (run (Clients.step capacity) (run (Clients.step capacity) (Clients.init threads) pre)
      post).threads[t]? = some (.get k pc) → pc ≠ .traverse none :=
    fun pc at_t ended => ahead_none (watch none (ended ▸ at_t))
  refine ⟨fun at_t => short _ at_t rfl, fun pc at_t => ?_⟩
  rcases found_tick_get at_t (short pc at_t) with same | ⟨n', logged⟩
  · exact .inl same
  · exact .inr ⟨n', logged, (safe.step capacity (.tick t)).found k n' (by simp [logged])⟩

set_option maxRecDepth 20000 in
/-- After `publishRace` has created two buckets of `[65]`, thread 0 starts `get([65])`. -/
theorem get_after_create_never_misses_after_publish_race :
    ([65], 0) ∈ (run (Clients.step 100) (Clients.init 2) publishRace).created ∧
      (run (Clients.step 100) (Clients.init 2) publishRace).threads[0]? = some .idle ∧
      (run (Clients.step 100) (Clients.init 2) (publishRace ++ [.get 0 [65], .tick 0])).threads[0]? ≠
        some (.get [65] (.traverse none)) ∧
      ∀ pc, (run (Clients.step 100) (Clients.init 2) (publishRace ++ [.get 0 [65], .tick 0])).threads[0]? =
          some (.get [65] pc) →
        ((run (Clients.step 100) (Clients.init 2) (publishRace ++ [.get 0 [65], .tick 0])).step 100
          (.tick 0)).found = (run (Clients.step 100) (Clients.init 2) (publishRace ++ [.get 0 [65], .tick 0])).found ∨
          ∃ n', ((run (Clients.step 100) (Clients.init 2) (publishRace ++ [.get 0 [65], .tick 0])).step 100
              (.tick 0)).found =
              (run (Clients.step 100) (Clients.init 2) (publishRace ++ [.get 0 [65], .tick 0])).found ++
                [([65], some n')] ∧
            ((run (Clients.step 100) (Clients.init 2) (publishRace ++ [.get 0 [65], .tick 0])).step 100
              (.tick 0)).table.keyOf n' = some [65] :=
  ⟨by decide, by decide, get_after_create_never_misses 100 2 publishRace [.get 0 [65], .tick 0] 0 [65] 0
    (by decide) (by decide)⟩

end

end RadialCache.LockFreeHashTable
