import RadialCache.LockFreeQueue
import Mathlib.Data.List.Nodup

/-! `LockFreeQueue` used by one client: every CAS succeeds and no loop retries, so each call ends
within eleven steps, and `enqueue` and `dequeue` act on the values exactly as a FIFO list does,
whichever way `allocate_node` finds its node and `deallocate_node` disposes of the old dummy. -/

namespace RadialCache.LockFreeQueue

/-- The `data` of an allocated node. -/
def dataOf (q : LockFreeQueue) (n : Nat) : Option Nat := (q.node? n).map (·.data)

@[simp] theorem update_head (q : LockFreeQueue) (n : Nat) (f : QueueNode → QueueNode) :
    (q.update n f).head = q.head := rfl

@[simp] theorem update_tail (q : LockFreeQueue) (n : Nat) (f : QueueNode → QueueNode) :
    (q.update n f).tail = q.tail := rfl

@[simp] theorem update_freeList (q : LockFreeQueue) (n : Nat) (f : QueueNode → QueueNode) :
    (q.update n f).freeList = q.freeList := rfl

@[simp] theorem update_freeCount (q : LockFreeQueue) (n : Nat) (f : QueueNode → QueueNode) :
    (q.update n f).freeCount = q.freeCount := rfl

theorem node?_eq_some {q : LockFreeQueue} {n : Nat} {b : QueueNode} :
    q.node? n = some b ↔ q.nodes[n]? = some b ∧ b.live := by
  simp [node?, Option.filter_eq_some]

theorem node?_lt {q : LockFreeQueue} {n : Nat} {b : QueueNode} (found : q.node? n = some b) :
    n < q.nodes.length :=
  (List.getElem?_eq_some_iff.mp (node?_eq_some.mp found).1).1

theorem node?_update_ne (q : LockFreeQueue) {n m : Nat} (f : QueueNode → QueueNode) (ne : m ≠ n) :
    (q.update n f).node? m = q.node? m := by
  simp only [node?, update, List.getElem?_modify_ne _ _ (Ne.symm ne)]

theorem node?_update_self {q : LockFreeQueue} {n : Nat} {b : QueueNode} (found : q.node? n = some b)
    (f : QueueNode → QueueNode) (live : (f b).live = b.live) : (q.update n f).node? n = some (f b) := by
  obtain ⟨at_n, alive⟩ := node?_eq_some.mp found
  simp [node?, update, at_n, live, alive]

theorem dataOf_update (q : LockFreeQueue) (n : Nat) {f : QueueNode → QueueNode}
    (keeps : ∀ b, (f b).data = b.data ∧ (f b).live = b.live) (a : Nat) :
    (q.update n f).dataOf a = q.dataOf a := by
  by_cases same : a = n
  · subst same
    simp only [dataOf, node?, update, List.getElem?_modify_eq]
    cases q.nodes[a]? with
    | none => rfl
    | some b => simp [Option.filter_some, keeps b]
  · simp only [dataOf, node?_update_ne q f same]

theorem node?_alloc {q : LockFreeQueue} {m : Nat} (lt : m < q.nodes.length) (value : Nat) :
    (q.alloc value).1.node? m = q.node? m := by
  simp only [node?, alloc, List.getElem?_append_left lt]

theorem node?_alloc_self (q : LockFreeQueue) (value : Nat) :
    (q.alloc value).1.node? q.nodes.length = some ⟨value, none, true⟩ := by
  simp [node?, alloc]

/-- Following `next` from `start` passes the allocated nodes `addrs`, then reaches `nullptr`. -/
def Links (q : LockFreeQueue) (start : Option Nat) : List Nat → Prop
  | [] => start = none
  | a :: rest => start = some a ∧ ∃ b, q.node? a = some b ∧ Links q b.next rest

theorem Links.lt {q : LockFreeQueue} {start : Option Nat} {l : List Nat} (links : Links q start l) :
    ∀ a ∈ l, a < q.nodes.length := by
  induction l generalizing start with
  | nil => exact fun _ absent => nomatch absent
  | cons a rest ih =>
    obtain ⟨-, b, found, tail⟩ := links
    intro x mem
    rcases List.mem_cons.mp mem with rfl | later
    · exact node?_lt found
    · exact ih tail x later

theorem Links.congr {q q' : LockFreeQueue} {start : Option Nat} {l : List Nat} (links : Links q start l)
    (same : ∀ a ∈ l, q'.node? a = q.node? a) : Links q' start l := by
  induction l generalizing start with
  | nil => exact links
  | cons a rest ih =>
    obtain ⟨first, b, found, tail⟩ := links
    exact ⟨first, b, (same a (List.mem_cons_self _ _)).trans found,
      ih tail fun x mem => same x (List.mem_cons_of_mem _ mem)⟩

theorem Links.link {q : LockFreeQueue} {start : Option Nat} {l : List Nat} {t n : Nat} {b : QueueNode}
    (links : Links q start (l ++ [t])) (nodup : (l ++ [t]).Nodup) (fresh : n ∉ l ++ [t])
    (detached : q.node? n = some b) (last : b.next = none) :
    Links (q.update t ({ · with next := some n })) start (l ++ [t, n]) := by
  induction l generalizing start with
  | nil =>
    obtain ⟨first, bt, found, -⟩ := links
    have ne : n ≠ t := fun same => fresh (same ▸ List.mem_singleton_self _)
    exact ⟨first, _, node?_update_self found _ rfl, rfl, b,
      (node?_update_ne q _ ne).trans detached, last⟩
  | cons a rest ih =>
    obtain ⟨first, ba, found, tail⟩ := links
    have ne : a ≠ t := fun same => (List.nodup_cons.mp nodup).1 (same ▸ List.mem_append_right _ (List.mem_singleton_self _))
    exact ⟨first, ba, (node?_update_ne q _ ne).trans found,
      ih tail (List.nodup_cons.mp nodup).2 fun mem => fresh (List.mem_cons_of_mem _ mem)⟩

theorem Links.last {q : LockFreeQueue} {start : Option Nat} {l : List Nat} {t : Nat}
    (links : Links q start l) (last : l.getLast? = some t) : ∃ b, q.node? t = some b ∧ b.next = none := by
  induction l generalizing start with
  | nil => exact nomatch last
  | cons a rest ih =>
    obtain ⟨-, b, found, tail⟩ := links
    cases rest with
    | nil =>
      obtain rfl : a = t := Option.some.inj last
      exact ⟨b, found, tail⟩
    | cons a' rest => exact ih tail (by rwa [List.getLast?_cons_cons] at last)

/-! ### The queue between calls -/

/-- A queue between calls: `rest` follow the dummy up to `tail_`; `free` is the free list. -/
structure Shape (q : LockFreeQueue) (rest free : List Nat) : Prop where
  queue : Links q (some q.head) (q.head :: rest)
  last : (q.head :: rest).getLast? = some q.tail
  freeChain : Links q q.freeList free
  counted : q.freeCount = free.length
  bounded : free.length ≤ MAX_FREE_NODES
  nodup : (q.head :: rest ++ free).Nodup

/-- The queue holds `vals`, oldest first. -/
def Represents (q : LockFreeQueue) (vals : List Nat) : Prop :=
  ∃ rest free, Shape q rest free ∧ rest.map q.dataOf = vals.map some

theorem represents_init : Represents init [] :=
  ⟨[], [], ⟨⟨rfl, _, rfl, rfl⟩, rfl, rfl, rfl, by decide, by decide⟩, rfl⟩

theorem Shape.frame {q q' : LockFreeQueue} {rest free : List Nat} (shape : Shape q rest free)
    (nodes : ∀ a ∈ q.head :: rest ++ free, q'.node? a = q.node? a) (head : q'.head = q.head)
    (tail : q'.tail = q.tail) (freeList : q'.freeList = q.freeList)
    (freeCount : q'.freeCount = q.freeCount) : Shape q' rest free := by
  refine ⟨?_, by rw [head, tail]; exact shape.last, ?_, freeCount.trans shape.counted, shape.bounded,
    head ▸ shape.nodup⟩
  · rw [head]
    exact shape.queue.congr fun a mem => nodes a (List.mem_append_left _ mem)
  · rw [freeList]
    exact shape.freeChain.congr fun a mem => nodes a (List.mem_append_right _ mem)

theorem Shape.popFree {q : LockFreeQueue} {rest fs : List Nat} {f : Nat} (shape : Shape q rest (f :: fs))
    {b : QueueNode} (found : q.node? f = some b) :
    Shape { q with freeList := b.next, freeCount := q.freeCount - 1 } rest fs := by
  obtain ⟨-, b', found', chain⟩ := shape.freeChain
  obtain rfl : b' = b := Option.some.inj (found'.symm.trans found)
  have counted := shape.counted
  simp only [List.length_cons] at counted
  refine ⟨shape.queue.congr fun _ _ => rfl, shape.last, chain.congr fun _ _ => rfl, by
    dsimp only; omega, Nat.le_trans (Nat.le_succ _) shape.bounded, ?_⟩
  exact shape.nodup.sublist (List.Sublist.append_left (List.sublist_cons_self f fs) _)

theorem Shape.link {q : LockFreeQueue} {rest free : List Nat} (shape : Shape q rest free) {n : Nat}
    {b : QueueNode} (detached : q.node? n = some b) (last : b.next = none)
    (fresh : n ∉ q.head :: rest ++ free) :
    Shape { q.update q.tail ({ · with next := some n }) with tail := n } (rest ++ [n]) free := by
  obtain ⟨front, split⟩ := List.getLast?_eq_some_iff.mp shape.last
  have chain : (front ++ [q.tail]).Nodup := split ▸ shape.nodup.sublist (List.sublist_append_left _ _)
  have outside : ∀ a ∈ free, a ≠ q.tail := fun a mem same =>
    List.disjoint_of_nodup_append shape.nodup (List.mem_of_getLast?_eq_some shape.last) (same ▸ mem)
  refine ⟨?_, List.getLast?_concat (q.head :: rest),
    shape.freeChain.congr fun a mem => node?_update_ne q _ (outside a mem), shape.counted,
    shape.bounded, ?_⟩
  · have linked := (split ▸ shape.queue).link chain
      (fun mem => fresh (List.mem_append_left _ (split ▸ mem))) detached last
    have extended : q.head :: (rest ++ [n]) = front ++ [q.tail, n] := by
      rw [← List.cons_append, split, List.append_assoc]; rfl
    show Links _ (some q.head) (q.head :: (rest ++ [n]))
    rw [extended]
    exact linked.congr fun _ _ => rfl
  · show (q.head :: (rest ++ [n]) ++ free).Nodup
    rw [← List.cons_append, List.append_assoc, List.singleton_append, List.nodup_middle]
    exact List.nodup_cons.mpr ⟨fresh, shape.nodup⟩

theorem Shape.advance {q : LockFreeQueue} {r : Nat} {rs free : List Nat} (shape : Shape q (r :: rs) free) :
    Shape { q with head := r } rs free ∧ q.head ∉ r :: rs ++ free := by
  obtain ⟨-, b, -, chain⟩ := shape.queue
  have moved : Links q (some r) (r :: rs) := ⟨rfl, chain.2⟩
  refine ⟨⟨moved.congr fun _ _ => rfl, ?_, shape.freeChain.congr fun _ _ => rfl, shape.counted,
    shape.bounded, (List.nodup_cons.mp shape.nodup).2⟩, (List.nodup_cons.mp shape.nodup).1⟩
  simpa only [List.getLast?_cons_cons] using shape.last

theorem Shape.pushFree {q : LockFreeQueue} {rest free : List Nat} (shape : Shape q rest free) {h : Nat}
    {b : QueueNode} (detached : q.node? h = some b) (linked : b.next = q.freeList)
    (fresh : h ∉ q.head :: rest ++ free) (room : q.freeCount < MAX_FREE_NODES) :
    Shape { q with freeList := some h, freeCount := q.freeCount + 1 } rest (h :: free) := by
  have counted := shape.counted
  refine ⟨shape.queue.congr fun _ _ => rfl, shape.last, ⟨rfl, b, detached, ?_⟩, by
    simp only [List.length_cons, counted], by simp only [List.length_cons]; omega, ?_⟩
  · rw [linked]
    exact shape.freeChain.congr fun _ _ => rfl
  · rw [List.nodup_middle]
    exact List.nodup_cons.mpr ⟨fresh, shape.nodup⟩

theorem solo_loadTail (value : Nat) {q : LockFreeQueue} {n : Nat} {b : QueueNode}
    (found : q.node? q.tail = some b) (last : b.next = none) (fuel : Nat) :
    solo (enqueueStep value) (fuel + 5) q (.loadTail n) =
      some ({ q.update q.tail ({ · with next := some n }) with tail := n }, ()) := by
  obtain ⟨data, next, live⟩ := b
  obtain rfl : next = none := last
  simp [solo, enqueueStep, found]

theorem solo_alloc (value : Nat) {q : LockFreeQueue} (empty : q.freeList = none) (fuel : Nat) :
    solo (enqueueStep value) (fuel + 1) q .loadFree =
      solo (enqueueStep value) fuel (q.alloc value).1 (.loadTail q.nodes.length) := by
  simp [solo, enqueueStep, empty, alloc]

theorem solo_popFree (value : Nat) {q : LockFreeQueue} {f : Nat} {b : QueueNode}
    (first : q.freeList = some f) (found : q.node? f = some b) (pos : 0 < q.freeCount)
    (fits : q.freeCount < sizeModulus) (fuel : Nat) :
    solo (enqueueStep value) (fuel + 6) q .loadFree =
      solo (enqueueStep value) fuel
        (({ q with freeList := b.next, freeCount := q.freeCount - 1 }.update f
          ({ · with data := value })).update f ({ · with next := none })) (.loadTail f) := by
  have dec : (q.freeCount + (sizeModulus - 1)) % sizeModulus = q.freeCount - 1 := by
    unfold sizeModulus at *; omega
  have popped : ({ q with freeList := b.next, freeCount := q.freeCount - 1 } : LockFreeQueue).node? f =
      some b := found
  have filled := node?_update_self popped ({ · with data := value }) rfl
  simp [solo, enqueueStep, first, found, dec, popped, filled]

theorem solo_dequeue_empty {q : LockFreeQueue} {b : QueueNode} (found : q.node? q.head = some b)
    (last : b.next = none) (same : q.head = q.tail) (fuel : Nat) :
    solo dequeueStep (fuel + 4) q .loadHead = some (q, none) := by
  simp [solo, dequeueStep, found, last, ← same]

theorem solo_advance {q : LockFreeQueue} {r : Nat} {bh br : QueueNode}
    (found : q.node? q.head = some bh) (next : bh.next = some r) (ne : q.head ≠ q.tail)
    (first : q.node? r = some br) (fuel : Nat) :
    solo dequeueStep (fuel + 6) q .loadHead =
      solo dequeueStep fuel { q with head := r } (.checkFree q.head br.data) := by
  simp [solo, dequeueStep, found, next, ne, first]

theorem solo_checkFree_full {q : LockFreeQueue} {h d : Nat} (full : ¬ q.freeCount < MAX_FREE_NODES)
    (fuel : Nat) : solo dequeueStep (fuel + 1) q (.checkFree h d) = some (q.delete h, some d) := by
  simp [solo, dequeueStep, full]

theorem solo_checkFree_room {q : LockFreeQueue} {h d : Nat} {b : QueueNode} (found : q.node? h = some b)
    (room : q.freeCount < MAX_FREE_NODES) (fuel : Nat) :
    solo dequeueStep (fuel + 5) q (.checkFree h d) =
      some ({ q.update h ({ · with next := q.freeList }) with
        freeList := some h, freeCount := q.freeCount + 1 }, some d) := by
  have inc : (q.freeCount + 1) % sizeModulus = q.freeCount + 1 :=
    Nat.mod_eq_of_lt (by unfold MAX_FREE_NODES sizeModulus at *; omega)
  simp [solo, dequeueStep, room, inc, found]

/-! ### Each call refines the FIFO list -/

theorem dataOf_link (q : LockFreeQueue) (n : Nat) :
    ({ q.update q.tail ({ · with next := some n }) with tail := n } : LockFreeQueue).dataOf = q.dataOf :=
  funext (dataOf_update q q.tail fun _ => ⟨rfl, rfl⟩)

theorem Shape.allocate {q : LockFreeQueue} {rest free : List Nat} (shape : Shape q rest free)
    (value fuel : Nat) :
    ∃ qA n free' fuel', solo (enqueueStep value) (fuel + 11) q .loadFree =
        solo (enqueueStep value) (fuel' + 5) qA (.loadTail n) ∧
      Shape qA rest free' ∧ qA.node? n = some ⟨value, none, true⟩ ∧ n ∉ qA.head :: rest ++ free' ∧
      rest.map qA.dataOf = rest.map q.dataOf := by
  cases free with
  | nil =>
    have within : ∀ a ∈ q.head :: rest ++ [], a < q.nodes.length := by
      rw [List.append_nil]; exact shape.queue.lt
    refine ⟨(q.alloc value).1, q.nodes.length, [], fuel + 5, solo_alloc value shape.freeChain _,
      shape.frame (fun a mem => node?_alloc (within a mem) value) rfl rfl rfl rfl,
      node?_alloc_self q value, fun mem => Nat.lt_irrefl _ (within _ mem), ?_⟩
    exact List.map_congr_left fun a mem =>
      congrArg (Option.map _) (node?_alloc (within a (List.mem_cons_of_mem _ (List.mem_append_left _ mem))) value)
  | cons f fs =>
    obtain ⟨first, b, found, -⟩ := shape.freeChain
    obtain ⟨data, next, live⟩ := b
    obtain rfl : live = true := by simpa using (node?_eq_some.mp found).2
    have counted := shape.counted
    have bounded := shape.bounded
    simp only [List.length_cons] at counted bounded
    have fresh : f ∉ q.head :: rest ++ fs :=
      (List.nodup_cons.mp (List.nodup_middle.mp shape.nodup)).1
    have ne : ∀ a ∈ q.head :: rest ++ fs, a ≠ f := fun a mem same => fresh (same ▸ mem)
    refine ⟨_, f, fs, fuel,
      solo_popFree value first found (by omega) (by unfold MAX_FREE_NODES sizeModulus at *; omega) (fuel + 5),
      (shape.popFree found).frame (fun a mem => (node?_update_ne _ _ (ne a mem)).trans
        (node?_update_ne _ _ (ne a mem))) rfl rfl rfl rfl,
      node?_update_self (node?_update_self found _ rfl) _ rfl, fresh, ?_⟩
    exact List.map_congr_left fun a mem => congrArg (Option.map _)
      ((node?_update_ne _ _ (ne a (List.mem_cons_of_mem _ (List.mem_append_left _ mem)))).trans
        (node?_update_ne _ _ (ne a (List.mem_cons_of_mem _ (List.mem_append_left _ mem)))))

theorem Represents.enqueue {q : LockFreeQueue} {vals : List Nat} (holds : Represents q vals)
    (value fuel : Nat) :
    ∃ q', solo (enqueueStep value) (fuel + 11) q .loadFree = some (q', ()) ∧
      Represents q' (vals ++ [value]) := by
  obtain ⟨rest, free, shape, values⟩ := holds
  obtain ⟨qA, n, free', fuel', run, shapeA, detached, fresh, kept⟩ := shape.allocate value fuel
  obtain ⟨b, found, last⟩ := shapeA.queue.last shapeA.last
  refine ⟨_, run.trans (solo_loadTail value found last fuel'), rest ++ [n], free',
    shapeA.link detached rfl fresh, ?_⟩
  have top : qA.dataOf n = some value := by simp only [dataOf, detached, Option.map_some']
  rw [dataOf_link, List.map_append, kept, values, List.map_append]
  simp only [List.map_cons, List.map_nil, top]

theorem Represents.dequeue {q : LockFreeQueue} {vals : List Nat} (holds : Represents q vals)
    (fuel : Nat) :
    ∃ q', solo dequeueStep (fuel + 11) q .loadHead = some (q', vals.head?) ∧ Represents q' vals.tail := by
  obtain ⟨rest, free, shape, values⟩ := holds
  obtain ⟨-, bh, found, chain⟩ := shape.queue
  cases rest with
  | nil =>
    obtain rfl : vals = [] := List.map_eq_nil_iff.mp values.symm
    exact ⟨q, solo_dequeue_empty found chain (Option.some.inj shape.last) (fuel + 7), [], free, shape, rfl⟩
  | cons r rs =>
    cases vals with
    | nil => exact nomatch values
    | cons v vs =>
      obtain ⟨value, kept⟩ := List.cons.inj values
      obtain ⟨next, br, first, -⟩ := chain
      obtain ⟨advanced, detachedOut⟩ := shape.advance
      have ne : q.head ≠ q.tail := fun same => detachedOut
        (List.mem_append_left _ (same ▸ List.mem_of_getLast?_eq_some (by simpa using shape.last)))
      have data : br.data = v := by simpa [dataOf, first] using value
      have others : ∀ a ∈ rs, a ≠ q.head := fun a mem same =>
        detachedOut (same ▸ List.mem_append_left _ (List.mem_cons_of_mem _ mem))
      have run := solo_advance found next ne first
      rw [data] at run
      by_cases room : q.freeCount < MAX_FREE_NODES
      · refine ⟨_, (run (fuel + 5)).trans (solo_checkFree_room (q := { q with head := r }) found room fuel), rs, q.head :: free, ?_,
          (List.map_congr_left fun a mem =>
            congrArg (Option.map _) (node?_update_ne _ _ (others a mem))).trans kept⟩
        have linked : Shape ({ q with head := r }.update q.head ({ · with next := q.freeList })) rs free :=
          advanced.frame (fun a mem => node?_update_ne _ _ fun (same : a = q.head) => detachedOut (same ▸ mem)) rfl rfl rfl rfl
        exact linked.pushFree (node?_update_self found _ rfl) rfl detachedOut room
      · refine ⟨_, (run (fuel + 5)).trans (solo_checkFree_full (q := { q with head := r }) room (fuel + 4)), rs, free, ?_,
          (List.map_congr_left fun a mem =>
            congrArg (Option.map _) (node?_update_ne _ _ (others a mem))).trans kept⟩
        exact advanced.frame (fun a mem => node?_update_ne _ _ fun (same : a = q.head) => detachedOut (same ▸ mem))
          rfl rfl rfl rfl

/-! ### `size()` and `empty()` -/

/-- The loop of `size()` for at most `fuel` nodes; `none` on a deleted node or out of fuel. -/
def countFrom (q : LockFreeQueue) : Nat → Option Nat → Option Nat
  | _, none => some 0
  | 0, some _ => none
  | fuel + 1, some n => (q.node? n).bind fun b => (countFrom q fuel b.next).map fun c => (c + 1) % sizeModulus

/-- `size()`, its loop bounded by the number of nodes ever allocated. -/
def size (q : LockFreeQueue) : Option Nat :=
  (q.node? q.head).bind fun b => countFrom q q.nodes.length b.next

/-- `empty()`: `head == tail && head->next == nullptr`, loading `head->next` only when needed. -/
def empty (q : LockFreeQueue) : Option Bool :=
  if q.head = q.tail then (q.node? q.head).map (·.next.isNone) else some false

theorem Links.countFrom {q : LockFreeQueue} {start : Option Nat} {l : List Nat} (links : Links q start l)
    {fuel : Nat} (enough : l.length ≤ fuel) : countFrom q fuel start = some (l.length % sizeModulus) := by
  induction l generalizing start fuel with
  | nil => rw [links]; cases fuel <;> rfl
  | cons a rest ih =>
    obtain ⟨rfl, b, found, tail⟩ := links
    obtain ⟨fuel, rfl⟩ : ∃ k, fuel = k + 1 := ⟨fuel - 1, by simp only [List.length_cons] at enough; omega⟩
    simp only [LockFreeQueue.countFrom, found, Option.some_bind,
      ih tail (Nat.le_of_succ_le_succ enough), Option.map_some', Nat.mod_add_mod, List.length_cons]

theorem Represents.size {q : LockFreeQueue} {vals : List Nat} (holds : Represents q vals) :
    q.size = some (vals.length % sizeModulus) := by
  obtain ⟨rest, free, shape, values⟩ := holds
  obtain ⟨-, b, found, chain⟩ := shape.queue
  have nodup : rest.Nodup := ((List.nodup_cons.mp shape.nodup).2).sublist (List.sublist_append_left _ _)
  have within : rest.length ≤ q.nodes.length := by
    simpa using (List.subperm_of_subset nodup fun a mem => List.mem_range.mpr (chain.lt a mem)).length_le
  have sameLength : rest.length = vals.length := by simpa using congrArg List.length values
  rw [LockFreeQueue.size, found, Option.some_bind, chain.countFrom within, sameLength]

theorem Represents.empty {q : LockFreeQueue} {vals : List Nat} (holds : Represents q vals) :
    q.empty = some vals.isEmpty := by
  obtain ⟨rest, free, shape, values⟩ := holds
  obtain ⟨-, b, found, chain⟩ := shape.queue
  cases rest with
  | nil =>
    obtain rfl : vals = [] := List.map_eq_nil_iff.mp values.symm
    have same : q.head = q.tail := Option.some.inj shape.last
    have last : b.next = none := chain
    simp [LockFreeQueue.empty, ← same, found, last]
  | cons r rs =>
    cases vals with
    | nil => exact nomatch values
    | cons v vs =>
      have ne : q.head ≠ q.tail := fun same => (List.nodup_cons.mp shape.nodup).1
        (List.mem_append_left _ (same ▸ List.mem_of_getLast?_eq_some (by simpa using shape.last)))
      simp [LockFreeQueue.empty, ne]

/-! ### A client's calls against the FIFO list -/

/-- A call on the queue. -/
inductive Op where
  | enqueue (value : Nat)
  | dequeue
deriving DecidableEq, Repr

/-- Calls made one after another, each run alone for `fuel` steps; `none` on a fault. -/
def runOps (fuel : Nat) (q : LockFreeQueue) : List Op → Option (LockFreeQueue × List (Option Nat))
  | [] => some (q, [])
  | .enqueue value :: ops =>
    (solo (enqueueStep value) fuel q .loadFree).bind fun (q, ()) => runOps fuel q ops
  | .dequeue :: ops =>
    (solo dequeueStep fuel q .loadHead).bind fun (q, result) =>
      (runOps fuel q ops).map fun (q, results) => (q, result :: results)

/-- The same calls on a FIFO list of values: the list left and what each `dequeue` returned. -/
def fifo (vals : List Nat) : List Op → List Nat × List (Option Nat)
  | [] => (vals, [])
  | .enqueue value :: ops => fifo (vals ++ [value]) ops
  | .dequeue :: ops => ((fifo vals.tail ops).1, vals.head? :: (fifo vals.tail ops).2)

theorem Represents.run_fifo {q : LockFreeQueue} {vals : List Nat} (holds : Represents q vals)
    (fuel : Nat) (ops : List Op) :
    ∃ q', runOps (fuel + 11) q ops = some (q', (fifo vals ops).2) ∧ Represents q' (fifo vals ops).1 := by
  induction ops generalizing q vals with
  | nil => exact ⟨q, rfl, holds⟩
  | cons op ops ih =>
    cases op with
    | enqueue value =>
      obtain ⟨q', call, holds'⟩ := holds.enqueue value fuel
      obtain ⟨q'', rest, final⟩ := ih holds'
      exact ⟨q'', by simp only [runOps, call, Option.some_bind, rest, fifo], final⟩
    | dequeue =>
      obtain ⟨q', call, holds'⟩ := holds.dequeue fuel
      obtain ⟨q'', rest, final⟩ := ih holds'
      exact ⟨q'', by simp only [runOps, call, Option.some_bind, rest, Option.map_some', fifo], final⟩

/-- Used by one client, with eleven steps for each call, every call returns without a fault and the
`dequeue`s return what the same calls on a FIFO list return, whether nodes are recycled or not. -/
theorem solo_calls_behave_as_fifo (fuel : Nat) (ops : List Op) :
    (runOps (fuel + 11) init ops).map Prod.snd = some (fifo [] ops).2 := by
  obtain ⟨q, run, -⟩ := represents_init.run_fifo fuel ops
  rw [run]
  rfl

/-- After any sequence of calls by one client, each run alone, `size()` returns the number of
values the same calls leave in a FIFO list, as a `size_t`, and `empty()` returns whether that
list is empty. -/
theorem solo_size_and_empty (fuel : Nat) (ops : List Op) :
    ∃ q, runOps (fuel + 11) init ops = some (q, (fifo [] ops).2) ∧
      q.size = some ((fifo [] ops).1.length % sizeModulus) ∧ q.empty = some (fifo [] ops).1.isEmpty := by
  obtain ⟨q, run, holds⟩ := represents_init.run_fifo fuel ops
  exact ⟨q, run, holds.size, holds.empty⟩

example : (runOps 11 init [.enqueue 1, .enqueue 2, .dequeue, .enqueue 3, .dequeue, .dequeue, .dequeue]).map
    Prod.snd = some [some 1, some 2, some 3, none] := by rfl

end RadialCache.LockFreeQueue
