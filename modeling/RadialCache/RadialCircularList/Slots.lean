import RadialCache.RadialCircularList.Inserts

/-! The arena slots the buckets hold, seen by one thread. While fewer than `2^64` slots are claimed,
no slot is in two heaps, twice in one, or in a heap after its `delete`, which the retrieval loop
needs, since `is_expired` on a deleted slot is undefined behaviour. -/

namespace RadialCache

open LockFreeHeap

theorem flatMap_range_update (f f' : Nat → List Nat) {b : Nat} (same : ∀ n, n ≠ b → f' n = f n) :
    ∀ {N : Nat}, b < N →
      List.Perm ((List.range N).flatMap f' ++ f b) ((List.range N).flatMap f ++ f' b)
  | 0, lt => absurd lt (Nat.not_lt_zero b)
  | N + 1, lt => by
    simp only [List.range_succ, List.flatMap_append, List.flatMap_singleton, List.append_assoc]
    rcases Nat.lt_succ_iff_lt_or_eq.mp lt with lt | rfl
    · rw [same N (Nat.ne_of_gt lt)]
      calc List.Perm ((List.range N).flatMap f' ++ (f N ++ f b))
            ((List.range N).flatMap f' ++ f b ++ f N) := by
            rw [List.append_assoc]; exact List.perm_append_comm.append_left _
        List.Perm _ ((List.range N).flatMap f ++ f' b ++ f N) :=
            (flatMap_range_update f f' same lt).append_right _
        List.Perm _ ((List.range N).flatMap f ++ (f N ++ f' b)) := by
            rw [List.append_assoc]; exact List.perm_append_comm.append_left _
    · rw [List.flatMap_congr fun n mem => same n (Nat.ne_of_lt (List.mem_range.mp mem))]
      exact List.perm_append_comm.append_left _

namespace LockFreeHashTable

/-- The slots the heaps of the allocated nodes hold, node by node. -/
def heldSlots (m : LockFreeHashTable) : List Nat :=
  (List.range m.nodes.length).flatMap fun n => live (m.heapOf n)

theorem heldSlots_setHeap (m : LockFreeHashTable) {b : Nat} (lt : b < m.nodes.length)
    (h : LockFreeHeap) :
    List.Perm ((m.setHeap b h).heldSlots ++ live (m.heapOf b)) (m.heldSlots ++ live h) := by
  have swapped := flatMap_range_update (fun n => live (m.heapOf n))
    (fun n => live ((m.setHeap b h).heapOf n)) (fun n ne => by simp only [heapOf_setHeap_ne m h ne]) lt
  simpa only [heldSlots, length_setHeap, heapOf_setHeap_self lt] using swapped

theorem heldSlots_getOrCreate (m : LockFreeHashTable) (key : Key) (capacity : Nat) :
    (m.getOrCreate key capacity).1.heldSlots = m.heldSlots := by
  rcases found : m.find key with _ | n
  · obtain ⟨-, heap⟩ := getOrCreate_fresh found capacity
    have grown : (m.getOrCreate key capacity).1.nodes.length = m.nodes.length + 1 := by
      simp [getOrCreate, found]
    rw [heldSlots, grown, List.range_succ, List.flatMap_append, List.flatMap_singleton, heap,
      RadialCircularList.live_of_size_zero rfl, List.append_nil, heldSlots]
    exact List.flatMap_congr fun n mem =>
      by rw [heapOf_getOrCreate_lt m key capacity (List.mem_range.mp mem)]
  · rw [getOrCreate_found found]

theorem live_sublist_heldSlots (m : LockFreeHashTable) {b : Nat} (lt : b < m.nodes.length) :
    (live (m.heapOf b)).Sublist m.heldSlots :=
  List.sublist_flatten_of_mem (List.mem_map_of_mem _ (List.mem_range.mpr lt))

end LockFreeHashTable

namespace RadialCircularList

open LockFreeHashTable

/-- The slots the buckets' heaps hold, then the slots passed to `delete`. -/
def slots (c : RadialCircularList) : List Nat := c.midpoints.heldSlots ++ c.deleted

/-- No slot is twice among the heaps' and the deleted ones, and each of them is claimed. -/
structure Distinct (c : RadialCircularList) : Prop where
  nodup : c.slots.Nodup
  below : ∀ x ∈ c.slots, x < c.claimed

theorem distinct_init (max : Nat) (fits : max < sizeModulus) (numa : Bool) (nowNs : Nat → UInt64) :
    Distinct (init max fits numa nowNs) :=
  ⟨by simp [slots, heldSlots, init, LockFreeHashTable.init], by
    simp [slots, heldSlots, init, LockFreeHashTable.init]⟩

theorem Distinct.bucket {c : RadialCircularList} (distinct : Distinct c) {b : Nat}
    (lt : b < c.midpoints.nodes.length) :
    (live (c.midpoints.heapOf b)).Nodup ∧ ∀ x ∈ live (c.midpoints.heapOf b), x ∉ c.deleted := by
  obtain ⟨held, -, apart⟩ := List.nodup_append.mp distinct.nodup
  have sub := c.midpoints.live_sublist_heldSlots lt
  exact ⟨held.sublist sub, fun x mem => apart (sub.subset mem)⟩

theorem slots_addNode {c : RadialCircularList} {bound : Nat}
    (held : ∀ n, Held (priorities c.nodePool) bound (c.midpoints.heapOf n)) (midpoint : Key)
    (index : Nat) :
    List.Perm (c.addNode midpoint index).1.slots
      (if (c.addNode midpoint index).2 then index :: c.slots else c.slots) := by
  have lt := c.midpoints.getOrCreate_lt midpoint (c.maxNodes / 10)
  have target : Valid (priorities c.nodePool) ((c.midpoints.getOrCreate midpoint
      (c.maxNodes / 10)).1.heapOf (c.midpoints.getOrCreate midpoint (c.maxNodes / 10)).2) :=
    (held_getOrCreate held midpoint _ _).valid
  by_cases room : ((c.midpoints.getOrCreate midpoint (c.maxNodes / 10)).1.heapOf
      (c.midpoints.getOrCreate midpoint (c.maxNodes / 10)).2).size <
      ((c.midpoints.getOrCreate midpoint (c.maxNodes / 10)).1.heapOf
      (c.midpoints.getOrCreate midpoint (c.maxNodes / 10)).2).capacity
  · obtain ⟨h', pushed, -, -, -, perm⟩ := push_room target room index
    simp only [addNode, pushed, if_true]
    have swapped := heldSlots_setHeap _ lt h'
    rw [heldSlots_getOrCreate] at swapped
    have traded : List.Perm ((c.midpoints.getOrCreate midpoint (c.maxNodes / 10)).1.setHeap
        (c.midpoints.getOrCreate midpoint (c.maxNodes / 10)).2 h').heldSlots
        (index :: c.midpoints.heldSlots) :=
      (List.perm_append_right_iff _).mp (swapped.trans ((perm.append_left _).trans
        (List.perm_middle.trans (List.Perm.refl _))))
    exact traded.append_right c.deleted
  · simp only [addNode, push_full index (not_lt.mp room), Bool.false_eq_true, if_false, slots,
      setHeap_heapOf _ lt, heldSlots_getOrCreate]
    rfl

theorem distinct_place {c : RadialCircularList} {index : Nat}
    (held : ∀ n, Held (priorities c.nodePool) index (c.midpoints.heapOf n))
    (nodup : c.slots.Nodup) (below : ∀ x ∈ c.slots, x < index) (item : Item) (nowNs : UInt64) :
    ((c.write index item nowNs).addNode item.midpoint index).1.slots.Nodup ∧
      ∀ x ∈ ((c.write index item nowNs).addNode item.midpoint index).1.slots, x < index + 1 := by
  have perm := slots_addNode (c := c.write index item nowNs)
    (fun n => (held n).update le_rfl (item.record nowNs)) item.midpoint index
  have fresh : index ∉ c.slots := fun mem => Nat.lt_irrefl _ (below index mem)
  split_ifs at perm
  · refine ⟨perm.nodup_iff.mpr (List.nodup_cons.mpr ⟨fresh, nodup⟩), fun x mem => ?_⟩
    rcases List.mem_cons.mp (perm.subset mem) with rfl | old
    · exact Nat.lt_succ_self x
    · exact Nat.lt_succ_of_lt (below x old)
  · exact ⟨perm.nodup_iff.mpr nodup, fun x mem => Nat.lt_succ_of_lt (below x (perm.subset mem))⟩

theorem Distinct.insert {c : RadialCircularList} (sound : Sound c) (distinct : Distinct c)
    (item : Item) (nowNs : UInt64) : Distinct (c.insert item nowNs).1 := by
  simp only [RadialCircularList.insert]
  split_ifs
  · exact distinct
  · exact ⟨distinct.nodup, fun x mem => Nat.lt_succ_of_lt (distinct.below x mem)⟩
  all_goals
    have held : ∀ n, Held (priorities c.nodePool) c.poolIndex (c.midpoints.heapOf n) := by
      rw [sound.pool]; exact sound.held
    have below : ∀ x ∈ c.slots, x < c.poolIndex := by rw [sound.pool]; exact distinct.below
    obtain ⟨nodup', below'⟩ := distinct_place (c := { c with poolIndex := (c.poolIndex + 1) % sizeModulus, claimed := c.claimed + 1 }) held distinct.nodup below item nowNs
    refine ⟨nodup', fun x mem => ?_⟩
    have := below' x mem
    have pool := sound.pool
    show x < c.claimed + 1
    omega

theorem distinct_placeBatch (start : Nat) (nowNs : Nat → UInt64) :
    ∀ (batch : List Item) (c : RadialCircularList) (i : Nat) {c' : RadialCircularList},
      placeBatch start nowNs c batch i = some c' → start + i + batch.length < sizeModulus + 1 →
      (∀ n, Held (priorities c.nodePool) (start + i) (c.midpoints.heapOf n)) →
      c.slots.Nodup → (∀ x ∈ c.slots, x < start + i) →
      c'.slots.Nodup ∧ ∀ x ∈ c'.slots, x < start + i + batch.length
  | [], _, _, _, placed, _, _, nodup, below => by cases placed; exact ⟨nodup, below⟩
  | item :: rest, c, i, _, placed, fits, held, nodup, below => by
    have unwrapped : (start + i) % sizeModulus = start + i :=
      Nat.mod_eq_of_lt (by simp only [List.length_cons] at fits; omega)
    have shifted : start + i + (item :: rest).length = start + (i + 1) + rest.length := by
      simp only [List.length_cons]; omega
    obtain ⟨nodup', below'⟩ := distinct_place held nodup below item (nowNs i)
    simp only [placeBatch, unwrapped] at placed
    split_ifs at placed
    rw [shifted]
    exact distinct_placeBatch start nowNs rest _ (i + 1) placed (by omega)
      (held_place held item (nowNs i)) nodup' below'

theorem Distinct.insertBatch {c c' : RadialCircularList} (sound : Sound c) (distinct : Distinct c)
    {batch : List Item} {nowNs : Nat → UInt64} {b : Bool}
    (done : c.insertBatch batch nowNs = some (c', b)) (unwrapped : c'.claimed < sizeModulus) :
    Distinct c' := by
  rcases insertBatch_inv done with ⟨-, rfl | rfl⟩ | ⟨-, -, -, placed, loop, rfl⟩
  · exact distinct
  · exact ⟨distinct.nodup, fun x mem => (distinct.below x mem).trans_le (Nat.le_add_right _ _)⟩
  · obtain ⟨claimed, -⟩ := placeBatch_counters _ _ _ _ _ loop
    simp only [claimed] at unwrapped
    obtain ⟨nodup, below⟩ := distinct_placeBatch c.poolIndex nowNs batch _ 0 loop
      (by rw [sound.pool]; omega) (by rw [Nat.add_zero, sound.pool]; exact sound.held)
      distinct.nodup (by rw [Nat.add_zero, sound.pool]; exact distinct.below)
    refine ⟨nodup, fun x mem => ?_⟩
    have := below x mem
    simp only [claimed, sound.pool] at this ⊢
    omega

theorem slots_getHighestPriority {c c' : RadialCircularList} {r : Option Nat} (sound : Sound c)
    {midpoint : Key} {nowNs : Nat → UInt64} (got : c.getHighestPriority midpoint nowNs = some (c', r)) :
    List.Perm (c'.slots ++ r.toList) c.slots := by
  unfold RadialCircularList.getHighestPriority at got
  split at got
  · cases got; simp
  · next b found =>
    obtain ⟨⟨h', r', gone⟩, loop, same⟩ := Option.map_eq_some'.mp got
    cases same
    obtain ⟨-, -, -, drained⟩ := getHighestPriorityNode_returns c.nodePool c.numa (sound.held b).valid loop
    have emptied : List.Perm (live (c.midpoints.heapOf b)) (gone ++ r'.toList ++ live h') := by
      cases r' with
      | none => simpa [live_of_size_zero drained.1] using drained.2
      | some x => simpa using drained.2.1
    have swapped := heldSlots_setHeap c.midpoints (find_lt found) h'
    rw [List.perm_iff_count] at emptied swapped ⊢
    intro a
    have one := emptied a
    have two := swapped a
    simp only [slots, List.count_append] at one two ⊢
    omega

theorem Distinct.getHighestPriority {c c' : RadialCircularList} {r : Option Nat} (sound : Sound c)
    (distinct : Distinct c) {midpoint : Key} {nowNs : Nat → UInt64}
    (got : c.getHighestPriority midpoint nowNs = some (c', r)) : Distinct c' := by
  have perm := slots_getHighestPriority sound got
  refine ⟨(perm.nodup_iff.mpr distinct.nodup).sublist (List.sublist_append_left _ _),
    fun x mem => ?_⟩
  rw [getHighestPriority_claimed got]
  exact distinct.below x (perm.subset (List.mem_append_left _ mem))

theorem Distinct.getHighestPriorityBatch {c : RadialCircularList} (sound : Sound c)
    (distinct : Distinct c) :
    ∀ {midpoints : List Key} {nowNs : Nat → Nat → UInt64} {c' : RadialCircularList}
      {rs : List (Option Nat)}, c.getHighestPriorityBatch midpoints nowNs = some (c', rs) →
      Distinct c'
  | [], _, _, _, got => by cases got; exact distinct
  | _ :: _, _, _, _, got => by
    obtain ⟨⟨c₁, r⟩, first, others⟩ := Option.bind_eq_some.mp got
    obtain ⟨⟨c₂, rs⟩, rest, same⟩ := Option.map_eq_some'.mp others
    cases same
    exact (distinct.getHighestPriority sound first).getHighestPriorityBatch
      (sound.getHighestPriority first) rest

theorem Distinct.perform {c c' : RadialCircularList} (sound : Sound c) (distinct : Distinct c)
    {op : Op} (done : c.perform op = some c') (unwrapped : c'.claimed < sizeModulus) :
    Distinct c' := by
  cases op with
  | insert item nowNs => cases done; exact distinct.insert sound item nowNs
  | insertBatch batch nowNs =>
    obtain ⟨⟨c₁, b⟩, got, same⟩ := Option.map_eq_some'.mp done
    cases same
    exact distinct.insertBatch sound got unwrapped
  | getHighestPriority midpoint nowNs =>
    obtain ⟨⟨c₁, r⟩, got, same⟩ := Option.map_eq_some'.mp done
    cases same
    exact distinct.getHighestPriority sound got
  | getHighestPriorityBatch midpoints nowNs =>
    obtain ⟨⟨c₁, rs⟩, got, same⟩ := Option.map_eq_some'.mp done
    cases same
    exact distinct.getHighestPriorityBatch sound got

theorem distinct_of_reachable {max : Nat} {fits : max < sizeModulus} {numa : Bool} {nowNs : Nat → UInt64}
    {s : Option RadialCircularList} (run : Interleaving.Reachable call (some (init max fits numa nowNs)) s) :
    ∀ c, s = some c → c.claimed < sizeModulus → Distinct c := by
  induction run with
  | init => rintro c ⟨⟩ -; exact distinct_init max fits numa nowNs
  | @step s op before ih =>
    intro c after unwrapped
    obtain ⟨c₀, rfl, done⟩ := Option.bind_eq_some.mp after
    have earlier := (perform_claimed done).trans_lt unwrapped
    exact (ih c₀ rfl earlier).perform (sound_of_reachable before c₀ rfl earlier) done unwrapped

end RadialCircularList

end RadialCache
