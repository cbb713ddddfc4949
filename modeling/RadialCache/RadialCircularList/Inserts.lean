import RadialCache.RadialCircularList.Sequential

/-! What `insert` and `insert_batch` do to the buckets, seen by one thread: the records each
bucket holds, the law of `insert`, and `insert_batch` against `insert` called on its items one
by one. -/

namespace RadialCache

/-- A record without its creation timestamp. -/
def Node.unstamped (node : Node) : Node := { node with timestampNs := 0 }

namespace RadialCircularList

open LockFreeHeap LockFreeHashTable

/-- The records of `k`'s bucket: what the slots its heap holds point to. -/
def records (c : RadialCircularList) (k : Key) : List Node :=
  match c.midpoints.find k with
  | none => []
  | some b => (live (c.midpoints.heapOf b)).map c.nodePool

theorem map_update_past {pool : Nat → Node} {index : Nat} {slots : List Nat}
    (below : ∀ x ∈ slots, x < index) (node : Node) :
    slots.map (Function.update pool index node) = slots.map pool :=
  List.map_congr_left fun x mem => Function.update_noteq (Nat.ne_of_lt (below x mem)) _ _

section
variable {c : RadialCircularList} {index : Nat}

theorem records_eq_target (k : Key) :
    c.records k = (live ((c.midpoints.getOrCreate k (c.maxNodes / 10)).1.heapOf
      (c.midpoints.getOrCreate k (c.maxNodes / 10)).2)).map c.nodePool := by
  unfold records
  rcases found : c.midpoints.find k with _ | b
  · obtain ⟨node, heap⟩ := getOrCreate_fresh found (c.maxNodes / 10)
    rw [node, heap]
    rfl
  · rw [getOrCreate_found found]

theorem place_eq (item : Item) (nowNs : UInt64) :
    (c.write index item nowNs).addNode item.midpoint index =
      let created := c.midpoints.getOrCreate item.midpoint (c.maxNodes / 10)
      let pushed := push (priorities (Function.update c.nodePool index (item.record nowNs)))
        (created.1.heapOf created.2) index
      ({ c with nodePool := Function.update c.nodePool index (item.record nowNs),
                midpoints := created.1.setHeap created.2 pushed.1 }, pushed.2) := rfl

variable (linked : c.midpoints.Linked) (caps : c.midpoints.Capacities (c.maxNodes / 10))
  (held : ∀ n, Held (priorities c.nodePool) index (c.midpoints.heapOf n))
include held

theorem held_target (item : Item) (nowNs : UInt64) :
    Held (priorities (Function.update c.nodePool index (item.record nowNs))) index
      ((c.midpoints.getOrCreate item.midpoint (c.maxNodes / 10)).1.heapOf
        (c.midpoints.getOrCreate item.midpoint (c.maxNodes / 10)).2) :=
  (held_getOrCreate held _ _ _).update le_rfl _

theorem place_records (item : Item) (nowNs : UInt64) :
    (((c.write index item nowNs).addNode item.midpoint index).2 = true →
      (((c.write index item nowNs).addNode item.midpoint index).1.records item.midpoint).Perm
        (item.record nowNs :: c.records item.midpoint)) ∧
    (((c.write index item nowNs).addNode item.midpoint index).2 = false →
      ((c.write index item nowNs).addNode item.midpoint index).1.records item.midpoint =
        c.records item.midpoint) := by
  have target := held_target held item nowNs
  have lt := getOrCreate_lt c.midpoints item.midpoint (c.maxNodes / 10)
  have after : ((c.write index item nowNs).addNode item.midpoint index).1.records item.midpoint =
      (live (push (priorities (Function.update c.nodePool index (item.record nowNs)))
        ((c.midpoints.getOrCreate item.midpoint (c.maxNodes / 10)).1.heapOf
          (c.midpoints.getOrCreate item.midpoint (c.maxNodes / 10)).2) index).1).map
        (Function.update c.nodePool index (item.record nowNs)) := by
    rw [place_eq]
    simp only [records, find_setHeap, find_getOrCreate_self, heapOf_setHeap_self lt]
  have result : ((c.write index item nowNs).addNode item.midpoint index).2 =
      (push (priorities (Function.update c.nodePool index (item.record nowNs)))
        ((c.midpoints.getOrCreate item.midpoint (c.maxNodes / 10)).1.heapOf
          (c.midpoints.getOrCreate item.midpoint (c.maxNodes / 10)).2) index).2 := rfl
  rw [after, result, records_eq_target, ← map_update_past target.below (item.record nowNs)]
  constructor
  · intro pushed
    have room := Nat.lt_of_not_le fun full => by
      rw [push_full index full] at pushed; cases pushed
    obtain ⟨h', done, -, -, -, perm⟩ := push_room target.valid room index
    rw [done]
    exact (perm.map _).trans (.of_eq (by simp))
  · intro failed
    rw [push_full index ((push_result target.valid _).mp failed)]

include linked in
theorem place_records_ne (item : Item) (nowNs : UInt64) {k : Key} (ne : k ≠ item.midpoint) :
    ((c.write index item nowNs).addNode item.midpoint index).1.records k = c.records k := by
  rw [place_eq]
  simp only [records, find_setHeap, linked.find_getOrCreate_ne ne]
  rcases found : c.midpoints.find k with _ | b
  · rfl
  · have other : b ≠ (c.midpoints.getOrCreate item.midpoint (c.maxNodes / 10)).2 := by
      rintro rfl
      have mine := find_key (find_getOrCreate_self c.midpoints item.midpoint (c.maxNodes / 10))
      have theirs := find_key ((linked.find_getOrCreate_ne ne (c.maxNodes / 10)).trans found)
      rw [mine] at theirs
      exact ne (Option.some.inj theirs).symm
    simp only [heapOf_setHeap_ne _ _ other, heapOf_getOrCreate_lt _ _ _ (find_lt found)]
    exact map_update_past (held b).below _

include caps

theorem place_result (item : Item) (nowNs : UInt64) :
    ((c.write index item nowNs).addNode item.midpoint index).2 = true ↔
      (c.records item.midpoint).length < c.maxNodes / 10 := by
  have target := held_target held item nowNs
  have cap := caps.getOrCreate item.midpoint _ (getOrCreate_lt _ _ _)
  rw [place_eq, records_eq_target, List.length_map, target.valid.occupied.length_live]
  show (push _ _ index).2 = true ↔ _
  rw [← Bool.not_eq_false, push_result target.valid, cap, not_le]

end

theorem linked_place {c : RadialCircularList} (linked : c.midpoints.Linked) (index : Nat)
    (item : Item) (nowNs : UInt64) :
    ((c.write index item nowNs).addNode item.midpoint index).1.midpoints.Linked :=
  (linked.getOrCreate _ _).setHeap _ _

theorem capacities_place {c : RadialCircularList} (caps : c.midpoints.Capacities (c.maxNodes / 10))
    (index : Nat) (item : Item) (nowNs : UInt64) :
    ((c.write index item nowNs).addNode item.midpoint index).1.midpoints.Capacities
      (c.maxNodes / 10) :=
  (caps.getOrCreate _).setHeap _ ((push_capacity _ _).trans (caps.getOrCreate _ _ (getOrCreate_lt _ _ _)))

/-- What single-threaded runs keep besides `Sound`: shards are lists, buckets keep capacity. -/
structure Tidy (c : RadialCircularList) : Prop where
  linked : c.midpoints.Linked
  capacities : c.midpoints.Capacities (c.maxNodes / 10)
  total : c.totalNodes ≤ c.claimed

theorem tidy_init (max : Nat) (fits : max < sizeModulus) (numa : Bool) (nowNs : Nat → UInt64) :
    Tidy (init max fits numa nowNs) :=
  ⟨linked_init, capacities_init _, Nat.le_refl 0⟩

theorem placeBatch_tables (start : Nat) (nowNs : Nat → UInt64) :
    ∀ (batch : List Item) (c : RadialCircularList) (i : Nat) {c' : RadialCircularList},
      placeBatch start nowNs c batch i = some c' → c.midpoints.Linked →
      c.midpoints.Capacities (c.maxNodes / 10) →
      c'.midpoints.Linked ∧ c'.midpoints.Capacities (c'.maxNodes / 10)
  | [], _, _, _, placed, linked, caps => by cases placed; exact ⟨linked, caps⟩
  | item :: rest, _, i, _, placed, linked, caps => by
    simp only [placeBatch] at placed
    split_ifs at placed
    exact placeBatch_tables start nowNs rest _ (i + 1) placed (linked_place linked _ item _)
      (capacities_place caps _ item _)

theorem Tidy.insert {c : RadialCircularList} (tidy : Tidy c) (item : Item) (nowNs : UInt64) :
    Tidy (c.insert item nowNs).1 := by
  simp only [RadialCircularList.insert]
  split_ifs with full over added
  · exact tidy
  · exact ⟨tidy.linked, tidy.capacities, Nat.le_succ_of_le tidy.total⟩
  · exact ⟨linked_place tidy.linked _ item _, capacities_place tidy.capacities _ item _,
      (Nat.mod_le _ _).trans (Nat.succ_le_succ tidy.total)⟩
  · exact ⟨linked_place tidy.linked _ item _, capacities_place tidy.capacities _ item _,
      Nat.le_succ_of_le tidy.total⟩

theorem Tidy.insertBatch {c c' : RadialCircularList} (tidy : Tidy c) {batch : List Item}
    {nowNs : Nat → UInt64} {b : Bool} (done : c.insertBatch batch nowNs = some (c', b)) : Tidy c' := by
  rcases insertBatch_inv done with ⟨-, rfl | rfl⟩ | ⟨-, -, -, placed, loop, rfl⟩
  · exact tidy
  · exact ⟨tidy.linked, tidy.capacities, tidy.total.trans (Nat.le_add_right _ _)⟩
  · obtain ⟨linked, caps⟩ := placeBatch_tables c.poolIndex nowNs batch _ 0 loop tidy.linked tidy.capacities
    obtain ⟨claimed, -, total, -⟩ := placeBatch_counters _ _ _ _ _ loop
    refine ⟨linked, caps, ?_⟩
    show (_ + batch.length) % sizeModulus ≤ _
    rw [total, claimed]
    exact (Nat.mod_le _ _).trans (Nat.add_le_add_right tidy.total _)

theorem Tidy.getHighestPriority {c c' : RadialCircularList} {r : Option Nat} (sound : Sound c)
    (tidy : Tidy c) {midpoint : Key} {nowNs : Nat → UInt64}
    (got : c.getHighestPriority midpoint nowNs = some (c', r)) : Tidy c' := by
  unfold RadialCircularList.getHighestPriority at got
  split at got
  · cases got; exact tidy
  · next b found =>
    obtain ⟨⟨h', r', gone⟩, loop, same⟩ := Option.map_eq_some'.mp got
    cases same
    obtain ⟨-, capacity, -⟩ := getHighestPriorityNode_returns c.nodePool c.numa (sound.held b).valid loop
    exact ⟨tidy.linked.setHeap _ _,
      tidy.capacities.setHeap _ (capacity.trans (tidy.capacities b (find_lt found))), tidy.total⟩

theorem Tidy.getHighestPriorityBatch {c : RadialCircularList} (sound : Sound c) (tidy : Tidy c) :
    ∀ {midpoints : List Key} {nowNs : Nat → Nat → UInt64} {c' : RadialCircularList}
      {rs : List (Option Nat)}, c.getHighestPriorityBatch midpoints nowNs = some (c', rs) → Tidy c'
  | [], _, _, _, got => by cases got; exact tidy
  | _ :: _, _, _, _, got => by
    obtain ⟨⟨c₁, r⟩, first, others⟩ := Option.bind_eq_some.mp got
    obtain ⟨⟨c₂, rs⟩, rest, same⟩ := Option.map_eq_some'.mp others
    cases same
    exact (tidy.getHighestPriority sound first).getHighestPriorityBatch
      (sound.getHighestPriority first) rest

theorem Tidy.perform {c c' : RadialCircularList} (sound : Sound c) (tidy : Tidy c) {op : Op}
    (done : c.perform op = some c') : Tidy c' := by
  cases op with
  | insert item nowNs => cases done; exact tidy.insert item nowNs
  | insertBatch batch nowNs =>
    obtain ⟨⟨c₁, b⟩, got, same⟩ := Option.map_eq_some'.mp done
    cases same
    exact tidy.insertBatch got
  | getHighestPriority midpoint nowNs =>
    obtain ⟨⟨c₁, r⟩, got, same⟩ := Option.map_eq_some'.mp done
    cases same
    exact tidy.getHighestPriority sound got
  | getHighestPriorityBatch midpoints nowNs =>
    obtain ⟨⟨c₁, rs⟩, got, same⟩ := Option.map_eq_some'.mp done
    cases same
    exact tidy.getHighestPriorityBatch sound got

theorem tidy_of_reachable {max : Nat} {fits : max < sizeModulus} {numa : Bool}
    {nowNs : Nat → UInt64} {s : Option RadialCircularList}
    (run : Interleaving.Reachable call (some (init max fits numa nowNs)) s) :
    ∀ c, s = some c → c.claimed < sizeModulus → Tidy c := by
  induction run with
  | init => rintro c ⟨⟩ -; exact tidy_init max fits numa nowNs
  | @step s op before ih =>
    intro c after unwrapped
    obtain ⟨c₀, rfl, done⟩ := Option.bind_eq_some.mp after
    have earlier := (perform_claimed done).trans_lt unwrapped
    exact (ih c₀ rfl earlier).perform (sound_of_reachable before c₀ rfl earlier) done

/-! ### The law of `insert` -/

/-- What `insert(v, k, p, t)` does, as one thread sees it. -/
structure InsertLaw (c : RadialCircularList) (item : Item) (nowNs : UInt64) : Prop where
  succeeds : (c.insert item nowNs).2 = true ↔
    c.poolIndex < c.maxNodes ∧ (c.records item.midpoint).length < c.maxNodes / 10
  adds : (c.insert item nowNs).2 = true →
    ((c.insert item nowNs).1.records item.midpoint).Perm (item.record nowNs :: c.records item.midpoint)
  others : (c.insert item nowNs).2 = true →
    ∀ k, k ≠ item.midpoint → (c.insert item nowNs).1.records k = c.records k
  counts : (c.insert item nowNs).2 = true →
    (c.insert item nowNs).1.poolIndex = c.poolIndex + 1 ∧
      (c.insert item nowNs).1.totalNodes = c.totalNodes + 1
  keeps : (c.insert item nowNs).2 = false →
    (∀ k, (c.insert item nowNs).1.records k = c.records k) ∧
      (c.insert item nowNs).1.totalNodes = c.totalNodes ∧
      ((c.insert item nowNs).1.poolIndex = c.poolIndex ∨
        (c.insert item nowNs).1.poolIndex = c.poolIndex + 1)

section
variable {c : RadialCircularList} {item : Item} {nowNs : UInt64}

/-- The cache once `insert` has claimed slot `pool_index`. -/
abbrev claimOne (c : RadialCircularList) : RadialCircularList :=
  { c with poolIndex := (c.poolIndex + 1) % sizeModulus, claimed := c.claimed + 1 }

theorem insert_full (full : c.maxNodes ≤ c.totalNodes) : c.insert item nowNs = (c, false) := by
  simp [RadialCircularList.insert, full]

theorem insert_over (room : c.totalNodes < c.maxNodes) (over : c.maxNodes ≤ c.poolIndex) :
    c.insert item nowNs = (claimOne c, false) := by
  simp [RadialCircularList.insert, Nat.not_le_of_lt room, over]

theorem insert_added (room : c.totalNodes < c.maxNodes) (free : c.poolIndex < c.maxNodes)
    (added : (((claimOne c).write c.poolIndex item nowNs).addNode item.midpoint c.poolIndex).2 = true) :
    c.insert item nowNs =
      ({ (((claimOne c).write c.poolIndex item nowNs).addNode item.midpoint c.poolIndex).1 with
          totalNodes := (c.totalNodes + 1) % sizeModulus }, true) := by
  simp only [RadialCircularList.insert, if_neg (Nat.not_le_of_lt room),
    if_neg (Nat.not_le_of_lt free), added, if_true]
  rfl

theorem insert_refused (room : c.totalNodes < c.maxNodes) (free : c.poolIndex < c.maxNodes)
    (refused : (((claimOne c).write c.poolIndex item nowNs).addNode item.midpoint c.poolIndex).2 = false) :
    c.insert item nowNs =
      ((((claimOne c).write c.poolIndex item nowNs).addNode item.midpoint c.poolIndex).1, false) := by
  simp only [RadialCircularList.insert, if_neg (Nat.not_le_of_lt room),
    if_neg (Nat.not_le_of_lt free), refused]
  rfl

end

theorem insert_claimed_of_room {c : RadialCircularList} {item : Item} {nowNs : UInt64}
    (room : c.totalNodes < c.maxNodes) : (c.insert item nowNs).1.claimed = c.claimed + 1 := by
  simp only [RadialCircularList.insert, if_neg (Nat.not_le_of_lt room)]
  split_ifs <;> rfl

theorem insertLaw_of {c c' : RadialCircularList} {r : Bool} {item : Item} {nowNs : UInt64}
    (call : c.insert item nowNs = (c', r))
    (succeeds : r = true ↔
      c.poolIndex < c.maxNodes ∧ (c.records item.midpoint).length < c.maxNodes / 10)
    (adds : r = true → (c'.records item.midpoint).Perm (item.record nowNs :: c.records item.midpoint))
    (others : r = true → ∀ k, k ≠ item.midpoint → c'.records k = c.records k)
    (counts : r = true → c'.poolIndex = c.poolIndex + 1 ∧ c'.totalNodes = c.totalNodes + 1)
    (keeps : r = false → (∀ k, c'.records k = c.records k) ∧ c'.totalNodes = c.totalNodes ∧
      (c'.poolIndex = c.poolIndex ∨ c'.poolIndex = c.poolIndex + 1)) :
    InsertLaw c item nowNs := by
  constructor <;> rw [call] <;> assumption

theorem Sound.insertLaw {c : RadialCircularList} (sound : Sound c) (tidy : Tidy c) (item : Item)
    (nowNs : UInt64) (unwrapped : (c.insert item nowNs).1.claimed < sizeModulus) :
    InsertLaw c item nowNs := by
  have pool := sound.pool
  have counted := tidy.total
  by_cases full : c.maxNodes ≤ c.totalNodes
  · refine insertLaw_of (insert_full full) ?_ nofun nofun nofun
      fun _ => ⟨fun _ => rfl, rfl, .inl rfl⟩
    simp only [Bool.false_eq_true, false_iff, not_and, Nat.not_lt]
    omega
  have room := Nat.lt_of_not_le full
  rw [insert_claimed_of_room room] at unwrapped
  have next : (c.poolIndex + 1) % sizeModulus = c.poolIndex + 1 := Nat.mod_eq_of_lt (by omega)
  by_cases over : c.maxNodes ≤ c.poolIndex
  · refine insertLaw_of (insert_over room over) ?_ nofun nofun nofun
      fun _ => ⟨fun _ => rfl, rfl, .inr next⟩
    simp only [Bool.false_eq_true, false_iff, not_and]
    omega
  have free := Nat.lt_of_not_le over
  have held : ∀ n, Held (priorities (claimOne c).nodePool) c.poolIndex
      ((claimOne c).midpoints.heapOf n) := by rw [pool]; exact sound.held
  have result : (((claimOne c).write c.poolIndex item nowNs).addNode item.midpoint c.poolIndex).2 =
      true ↔ (c.records item.midpoint).length < c.maxNodes / 10 :=
    place_result tidy.capacities held item nowNs
  have placed := place_records held item nowNs
  have others : ∀ k, k ≠ item.midpoint →
      (((claimOne c).write c.poolIndex item nowNs).addNode item.midpoint c.poolIndex).1.records k =
        c.records k := fun _ ne => place_records_ne tidy.linked held item nowNs ne
  cases added : (((claimOne c).write c.poolIndex item nowNs).addNode item.midpoint c.poolIndex).2
  · refine insertLaw_of (insert_refused room free added) ?_ nofun nofun nofun
      fun _ => ⟨fun k => ?_, rfl, .inr next⟩
    · simp only [Bool.false_eq_true, false_iff, not_and]
      exact fun _ => by rw [← result, added]; exact Bool.false_ne_true
    · by_cases same : k = item.midpoint
      · rw [same]; exact placed.2 added
      · exact others k same
  · refine insertLaw_of (insert_added room free added) ?_ (fun _ => placed.1 added)
      (fun _ k ne => others k ne) (fun _ => ⟨next, Nat.mod_eq_of_lt (by omega)⟩) nofun
    simp only [true_iff]
    exact ⟨free, result.mp added⟩

/-- In a single-threaded run that has claimed fewer than `2^64` arena slots, counting the next
insert's claim, `insert` obeys its law. -/
theorem insert_obeys_law {max : Nat} {fits : max < sizeModulus} {numa : Bool}
    {nowNs₀ : Nat → UInt64} {c : RadialCircularList}
    (run : Interleaving.Reachable call (some (init max fits numa nowNs₀)) (some c))
    (item : Item) (nowNs : UInt64) (unwrapped : (c.insert item nowNs).1.claimed < sizeModulus) :
    InsertLaw c item nowNs :=
  have earlier := (insert_claimed c item nowNs).trans_lt unwrapped
  (sound_of_reachable run c rfl earlier).insertLaw (tidy_of_reachable run c rfl earlier) item nowNs
    unwrapped

/-- The law at the cache holding two records of "A", whose bucket is full: a third insert of "A"
fails. -/
theorem insert_obeys_law_on_full_bucket : InsertLaw (twoRecordState false) (sampleItem 5) 0 :=
  insert_obeys_law (reachable_twoRecordState false) (sampleItem 5) 0
    (by rw [insert_claimed_of_room (by decide)]; decide)

/-! ### `insert_batch` against single inserts -/

/-- Two caches with the same table and records, up to creation timestamps; counters may differ. -/
structure Alike (c d : RadialCircularList) : Prop where
  midpoints : c.midpoints = d.midpoints
  maxNodes : c.maxNodes = d.maxNodes
  deleted : c.deleted = d.deleted
  stamps : ∀ slot, (c.nodePool slot).unstamped = (d.nodePool slot).unstamped

theorem priorities_eq_of_stamps {pool pool' : Nat → Node}
    (stamps : ∀ slot, (pool slot).unstamped = (pool' slot).unstamped) :
    priorities pool = priorities pool' :=
  funext fun slot => show (pool slot).unstamped.priority = (pool' slot).unstamped.priority
    from congrArg Node.priority (stamps slot)

theorem Alike.place {c d : RadialCircularList} (alike : Alike c d) (index : Nat) (item : Item)
    (nowNs nowNs' : UInt64) :
    Alike ((c.write index item nowNs).addNode item.midpoint index).1
        ((d.write index item nowNs').addNode item.midpoint index).1 ∧
      ((c.write index item nowNs).addNode item.midpoint index).2 =
        ((d.write index item nowNs').addNode item.midpoint index).2 := by
  have stamps : ∀ slot, (Function.update c.nodePool index (item.record nowNs) slot).unstamped =
      (Function.update d.nodePool index (item.record nowNs') slot).unstamped := fun slot => by
    by_cases same : slot = index
    · subst same; simp only [Function.update_same]; rfl
    · simp only [Function.update_noteq same]; exact alike.stamps slot
  simp only [place_eq, alike.midpoints, alike.maxNodes, priorities_eq_of_stamps stamps]
  exact ⟨⟨rfl, rfl, alike.deleted, stamps⟩, trivial⟩

theorem Alike.insert {b s : RadialCircularList} (alike : Alike b s) (item : Item)
    (nowNs nowNs' : UInt64) (room : s.totalNodes < s.maxNodes) (slot : s.poolIndex < s.maxNodes) :
    Alike ((b.write s.poolIndex item nowNs).addNode item.midpoint s.poolIndex).1
        (s.insert item nowNs').1 ∧
      (s.insert item nowNs').1.poolIndex = s.poolIndex + 1 ∧
      (s.insert item nowNs').1.maxNodes = s.maxNodes ∧
      ((s.insert item nowNs').2 = true ∧ (s.insert item nowNs').1.totalNodes = s.totalNodes + 1 ∨
        (s.insert item nowNs').2 = false ∧ (s.insert item nowNs').1.totalNodes = s.totalNodes) := by
  have bounded := s.maxNodes_lt
  have next : (s.poolIndex + 1) % sizeModulus = s.poolIndex + 1 := Nat.mod_eq_of_lt (by omega)
  have claimed : Alike b (claimOne s) := ⟨alike.midpoints, alike.maxNodes, alike.deleted, alike.stamps⟩
  obtain ⟨alike', -⟩ := claimed.place s.poolIndex item nowNs nowNs'
  cases added : (((claimOne s).write s.poolIndex item nowNs').addNode item.midpoint s.poolIndex).2
  · rw [insert_refused room slot added]
    exact ⟨alike', next, rfl, .inr ⟨rfl, rfl⟩⟩
  · rw [insert_added room slot added]
    exact ⟨⟨alike'.midpoints, alike'.maxNodes, alike'.deleted, alike'.stamps⟩, next, rfl,
      .inl ⟨rfl, Nat.mod_eq_of_lt (by omega)⟩⟩

/-- A record for "B", which has no bucket yet. -/
def freshItem : Item := ⟨0, [66], 0, 60000000000⟩

theorem addNode_full_bucket {c : RadialCircularList} {k : Key} {b : Nat}
    (found : c.midpoints.find k = some b)
    (full : (c.midpoints.heapOf b).capacity ≤ (c.midpoints.heapOf b).size) (index : Nat) :
    c.addNode k index = (c, false) := by
  simp only [addNode, getOrCreate_found found, push_full _ full, setHeap_heapOf _ (find_lt found)]

theorem placeBatch_full_bucket {k : Key} {b : Nat} (start : Nat) (nowNs : Nat → UInt64) :
    ∀ (batch : List Item) (c : RadialCircularList) (i : Nat) {c' : RadialCircularList},
      placeBatch start nowNs c batch i = some c' → (∀ item ∈ batch, item.midpoint = k) →
      c.midpoints.find k = some b →
      (c.midpoints.heapOf b).capacity ≤ (c.midpoints.heapOf b).size → c'.midpoints = c.midpoints
  | [], _, _, _, placed, _, _, _ => by cases placed; rfl
  | item :: rest, c, i, _, placed, keys, found, full => by
    have mine := keys item (List.mem_cons_self _ _)
    have added : (c.write ((start + i) % sizeModulus) item (nowNs i)).addNode k
        ((start + i) % sizeModulus) = (c.write ((start + i) % sizeModulus) item (nowNs i), false) :=
      addNode_full_bucket (show (c.write _ _ _).midpoints.find k = some b from found) full _
    simp only [placeBatch, mine, added] at placed
    split_ifs at placed
    exact placeBatch_full_bucket start nowNs rest (c.write ((start + i) % sizeModulus) item (nowNs i))
      (i + 1) placed (fun other mem => keys other (List.mem_cons_of_mem _ mem)) found full

theorem reachable_counted_out : ∃ c,
    Interleaving.Reachable call (some (init 20 (by decide) false fun _ => 0)) (some c) ∧
    c.midpoints = twoRecordTable ∧ c.maxNodes = 20 ∧ c.totalNodes = 20 ∧ c.poolIndex = 18 := by
  obtain ⟨c, run, table, max, total, pool, -⟩ :=
    run_full_bucket (show (twoRecordState false).totalNodes < (twoRecordState false).maxNodes by decide)
      (show (twoRecordState false).midpoints.find (sampleItem (-1)).midpoint = some 0 by decide)
      (by decide) (by decide) 0 (sizeModulus - 2)
  have flooded := Interleaving.reachable_run (reachable_twoRecordState false)
    (List.replicate (sizeModulus - 2) (.insert (sampleItem (-1)) 0))
  rw [run] at flooded
  have wrapped : c.poolIndex = 0 := by rw [pool]; simp [twoRecordState, sizeModulus]
  obtain ⟨placed, loop⟩ := Option.isSome_iff_exists.mp (placeBatch_isSome 0 (fun _ => 0)
    (List.replicate 18 (sampleItem (-1))) (claimMany c (List.replicate 18 (sampleItem (-1))).length) 0
    fun j lt => by
      simp only [List.length_replicate] at lt
      show (0 + (0 + j)) % sizeModulus < c.maxNodes
      rw [max, Nat.mod_eq_of_lt (by simp only [sizeModulus]; omega)]; show _ < 20; omega)
  have counted := flooded.step (.insertBatch (List.replicate 18 (sampleItem (-1))) fun _ => 0)
  rw [call, Option.some_bind, perform,
    insertBatch_placed (by rw [max, total]; decide) (by rw [max, wrapped]; decide), wrapped, loop]
    at counted
  obtain ⟨-, index, counts, maxes, -⟩ := placeBatch_counters _ _ _ _ _ loop
  refine ⟨_, counted, ?_, ?_, ?_, ?_⟩
  · show placed.midpoints = _
    rw [placeBatch_full_bucket 0 _ (List.replicate 18 (sampleItem (-1))) _ 0 loop
      (fun item mem => by rw [List.eq_of_mem_replicate mem]; rfl)
      (show c.midpoints.find [65] = some 0 by rw [table]; decide) (by rw [table]; decide)]
    exact table
  · show placed.maxNodes = 20
    rw [maxes]; exact max
  · show (placed.totalNodes + 18) % sizeModulus = 20
    rw [counts]; show (c.totalNodes + 18) % sizeModulus = 20
    rw [total]; decide
  · show placed.poolIndex = 18
    rw [index]; show (c.poolIndex + 18) % sizeModulus = 18
    rw [wrapped]; decide

/-- Without the bound on claims the law fails: once `pool_index` has wrapped, `total_nodes` can
reach `max_nodes` while `pool_index` is below it, and an insert of "B" then fails although "B"
has no records. -/
theorem insert_law_fails_after_wrap : ¬ ∀ (max : Nat) (fits : max < sizeModulus)
    (nowNs₀ : Nat → UInt64) (c : RadialCircularList),
    Interleaving.Reachable call (some (init max fits false nowNs₀)) (some c) →
      ∀ item nowNs, InsertLaw c item nowNs := by
  intro law
  obtain ⟨c, reach, table, max, total, pool⟩ := reachable_counted_out
  have succeeds := (law 20 (by decide) _ c reach freshItem 0).succeeds
  rw [insert_full (by omega)] at succeeds
  have empty : c.records freshItem.midpoint = [] := by
    unfold records
    rw [table, show twoRecordTable.find freshItem.midpoint = none by decide]
  simp [empty, pool, max] at succeeds

end RadialCircularList

end RadialCache
