import RadialCache.RadialCircularList.Clients
import RadialCache.RadialCircularList.Slots
import RadialCache.LockFreeHeap.OneClient
import RadialCache.LockFreeMap.OneClient

/-! The calls of `RadialCircularList` run alone at the grain of their atomic steps, under a stream
of clock readings. From a cache a single-threaded run reaches, each call returns within a number of
steps no clock reading changes, leaving the cache and result of the sequential call. -/

namespace RadialCache

section Clocked
variable {σ π ρ : Type} (step : UInt64 → σ → π → σ × Control π ρ) (reads : π → Bool)

/-- A call run alone, a step at a point `reads` marks taking the next clock; `none` on a fault. -/
def soloBy : (Nat → UInt64) → Nat → σ → π → Option (σ × ρ)
  | _, 0, _, _ => none
  | clocks, fuel + 1, s, pc =>
    match step (clocks 0) s pc with
    | (s', .next pc') => soloBy (if reads pc then fun k => clocks (k + 1) else clocks) fuel s' pc'
    | (s', .ret r) => some (s', r)
    | (_, .fault) => none

/-- How a run alone goes on from the state `s` once a step has left the control `k`. -/
def soloAfter (clocks : Nat → UInt64) (fuel : Nat) (s : σ) : Control π ρ → Option (σ × ρ)
  | .next pc => soloBy step reads clocks fuel s pc
  | .ret r => some (s, r)
  | .fault => none

variable {step reads}

theorem soloBy_succ (clocks : Nat → UInt64) (fuel : Nat) (s : σ) (pc : π) :
    soloBy step reads clocks (fuel + 1) s pc =
      soloAfter step reads (if reads pc then fun k => clocks (k + 1) else clocks) fuel
        (step (clocks 0) s pc).1 (step (clocks 0) s pc).2 := by
  rw [soloBy]
  rcases step (clocks 0) s pc with ⟨s', pc' | r | _⟩ <;> rfl

theorem soloBy_le {r : σ × ρ} : ∀ {fuel fuel' : Nat} {clocks : Nat → UInt64} {s : σ} {pc : π},
    soloBy step reads clocks fuel s pc = some r → fuel ≤ fuel' →
      soloBy step reads clocks fuel' s pc = some r
  | 0, _, _, _, _, done, _ => nomatch done
  | fuel + 1, fuel' + 1, clocks, s, pc, done, le => by
    rw [soloBy_succ] at done ⊢
    revert done
    rcases step (clocks 0) s pc with ⟨s', pc' | r' | _⟩
    · exact fun done => soloBy_le done (by omega)
    · exact id
    · exact id

theorem soloAfter_le {r : σ × ρ} {fuel fuel' : Nat} {clocks : Nat → UInt64} {s : σ}
    {k : Control π ρ} (done : soloAfter step reads clocks fuel s k = some r) (le : fuel ≤ fuel') :
    soloAfter step reads clocks fuel' s k = some r := by
  cases k with
  | next pc => exact soloBy_le done le
  | _ => exact done

theorem soloBy_nest {τ π' ρ' : Type} (inner : τ → π' → τ × Control π' ρ') (get : σ → τ)
    (put : σ → τ → σ) {wrap : π' → π} {k : ρ' → Control π ρ} (P : σ → Prop)
    (lift : ∀ t s pc, P s →
      step t s (wrap pc) = (put s (inner (get s) pc).1, (inner (get s) pc).2.andThen wrap k))
    (quiet : ∀ pc, reads (wrap pc) = false) (get_put : ∀ s x, P s → get (put s x) = x)
    (put_put : ∀ s x y, put (put s x) y = put s y) (keeps : ∀ s x, P s → P (put s x))
    (clocks : Nat → UInt64) :
    ∀ {f : Nat} {s : σ} {pc : π'} {x : τ} {r : ρ'}, P s → solo inner f (get s) pc = some (x, r) →
      ∀ {g : Nat} {z : σ × ρ}, soloAfter step reads clocks g (put s x) (k r) = some z →
        soloBy step reads clocks (f + g) s (wrap pc) = some z
  | 0, _, _, _, _, _, done, _, _, _ => nomatch done
  | f + 1, s, pc, x, r, p, done, g, z, after => by
    rw [show f + 1 + g = f + g + 1 by omega, soloBy_succ, quiet, lift _ _ _ p]
    rcases solo_first done with ⟨y, pc', stepped, rest⟩ | stepped
    · rw [stepped]
      exact soloBy_nest inner get put P lift quiet get_put put_put keeps clocks (keeps s y p)
        (by rwa [get_put s y p]) (by rwa [put_put])
    · rw [stepped]
      exact soloAfter_le after (by omega)

end Clocked

@[simp] theorem Control.andThen_ret {π ρ : Type} (x : Control π ρ) : x.andThen id .ret = x := by
  cases x <;> rfl

theorem Control.andThen_andThen {π ρ π' ρ' π'' ρ'' : Type} (x : Control π ρ) (f : π → π')
    (k : ρ → Control π' ρ') (g : π' → π'') (k' : ρ' → Control π'' ρ'') :
    (x.andThen f k).andThen g k' = x.andThen (g ∘ f) fun r => (k r).andThen g k' := by
  cases x <;> rfl

namespace LockFreeHashTable

theorem setHeap_setHeap (m : LockFreeHashTable) (n : Nat) (h h' : LockFreeHeap) :
    (m.setHeap n h).setHeap n h' = m.setHeap n h' := by
  simp only [setHeap, List.modify_modify_eq]
  rfl

theorem length_getOrCreate_le (m : LockFreeHashTable) (key : Key) (capacity : Nat) :
    (m.getOrCreate key capacity).1.nodes.length ≤ m.nodes.length + 1 := by
  unfold getOrCreate
  split <;> simp

/-- No node's heap holds more than its capacity. -/
def Fits (m : LockFreeHashTable) : Prop := ∀ n, (m.heapOf n).size ≤ (m.heapOf n).capacity

theorem Fits.getOrCreate {m : LockFreeHashTable} (fits : m.Fits) (key : Key) (capacity : Nat) :
    (m.getOrCreate key capacity).1.Fits := fun n =>
  (m.heapOf_getOrCreate key capacity n).elim (fun same => same ▸ fits n)
    fun new => by rw [new]; exact Nat.zero_le _

theorem Fits.setHeap {m : LockFreeHashTable} (fits : m.Fits) (n : Nat) {h : LockFreeHeap}
    (fit : h.size ≤ h.capacity) : (m.setHeap n h).Fits := fun k =>
  (m.heapOf_setHeap n h k).elim (fun same => same ▸ fits k) fun now => by rw [now]; exact fit

end LockFreeHashTable

namespace RadialCircularList

open LockFreeHeap LockFreeHashTable

/-- The points of `insert` that read the clock: the stores into `node_pool[index]`. -/
def insertReads : InsertPc → Bool
  | .write _ => true
  | _ => false

/-- The points of `insert_batch` that read the clock: the loop test and the stores of item `i`. -/
def batchReads : BatchPc → Bool
  | .write _ _ => true
  | _ => false

/-- The points of a retrieval that read the clock: `is_expired`. -/
def retrieveReads : RetrievePc → Bool
  | .check _ _ => true
  | _ => false

theorem insertStep_ignores (item : Item) {pc : InsertPc} (quiet : insertReads pc = false)
    (t t' : UInt64) (c : RadialCircularList) : insertStep item t c pc = insertStep item t' c pc := by
  cases pc <;> first | rfl | cases quiet

theorem insertBatchStep_ignores (batch : List Item) {pc : BatchPc} (quiet : batchReads pc = false)
    (t t' : UInt64) (c : RadialCircularList) :
    insertBatchStep batch t c pc = insertBatchStep batch t' c pc := by
  cases pc <;> first | rfl | cases quiet

theorem getHighestPriorityStep_ignores (midpoint : Key) {pc : RetrievePc}
    (quiet : retrieveReads pc = false) (t t' : UInt64) (c : RadialCircularList) :
    getHighestPriorityStep midpoint t c pc = getHighestPriorityStep midpoint t' c pc := by
  cases pc <;> first | rfl | cases quiet

/-! ### `add_node` inside a call -/

/-- What the stores and `add_node` of an insert rely on: shards are lists, heaps within capacity. -/
structure Ready (c : RadialCircularList) : Prop where
  linked : c.midpoints.Linked
  capacities : c.midpoints.Capacities (c.maxNodes / 10)
  fits : c.midpoints.Fits

theorem Sound.ready {c : RadialCircularList} (sound : Sound c) (tidy : Tidy c) : Ready c :=
  ⟨tidy.linked, tidy.capacities, fun n => (sound.held n).valid.bounded⟩

theorem Ready.size_le {c : RadialCircularList} (ready : Ready c) (key : Key) :
    ((c.midpoints.getOrCreate key (c.maxNodes / 10)).1.heapOf
      (c.midpoints.getOrCreate key (c.maxNodes / 10)).2).size ≤ c.maxNodes / 10 := by
  exact (ready.fits.getOrCreate key _ _).trans_eq
    (ready.capacities.getOrCreate key _ (c.midpoints.getOrCreate_lt key _))

theorem Ready.place {c : RadialCircularList} (ready : Ready c) (index : Nat) (item : Item)
    (nowNs : UInt64) :
    Ready ((c.write index item nowNs).addNode item.midpoint index).1 ∧
      ((c.write index item nowNs).addNode item.midpoint index).1.midpoints.nodes.length ≤
        c.midpoints.nodes.length + 1 := by
  have fits := ready.fits.getOrCreate item.midpoint (c.maxNodes / 10)
  exact ⟨⟨linked_place ready.linked index item nowNs,
    capacities_place ready.capacities index item nowNs,
    fits.setHeap _ (push_fits (fits _) index)⟩,
    by simpa [addNode] using length_getOrCreate_le c.midpoints item.midpoint (c.maxNodes / 10)⟩

theorem soloBy_place {π ρ : Type}
    (step : UInt64 → RadialCircularList → π → RadialCircularList × Control π ρ)
    (reads : π → Bool) (createAt : GetOrCreatePc → π) (addAt : Nat → PushPc → π)
    {k : Bool → Control π ρ} {key : Key} {node : Nat}
    (created : ∀ t (c : RadialCircularList) pc, step t c (createAt pc) =
      ({ c with midpoints := (getOrCreateStep key (c.maxNodes / 10) c.midpoints pc).1 },
        (getOrCreateStep key (c.maxNodes / 10) c.midpoints pc).2.andThen createAt
          fun b => .next (addAt b .start)))
    (added : ∀ t (c : RadialCircularList) b pc, step t c (addAt b pc) =
      ({ c with midpoints :=
          c.midpoints.setHeap b (pushStep (priorities c.nodePool) node (c.midpoints.heapOf b) pc).1 },
        (pushStep (priorities c.nodePool) node (c.midpoints.heapOf b) pc).2.andThen (addAt b) k))
    (quietCreate : ∀ pc, reads (createAt pc) = false) (quietAdd : ∀ b pc, reads (addAt b pc) = false)
    {clocks : Nat → UInt64} {c : RadialCircularList} (ready : Ready c) {g : Nat}
    {z : RadialCircularList × ρ}
    (after : soloAfter step reads clocks g (c.addNode key node).1 (k (c.addNode key node).2) = some z) :
    soloBy step reads clocks (c.midpoints.nodes.length + 4 * (c.maxNodes / 10) + 10 + g) c
      (createAt .start) = some z := by
  have lt := c.midpoints.getOrCreate_lt key (c.maxNodes / 10)
  have size := ready.size_le key
  have pushed : soloBy step reads clocks (4 * (c.maxNodes / 10) + 5 + g)
      { c with midpoints := (c.midpoints.getOrCreate key (c.maxNodes / 10)).1 }
      (addAt (c.midpoints.getOrCreate key (c.maxNodes / 10)).2 .start) = some z :=
    soloBy_le (soloBy_nest (k := k)
      (s := { c with midpoints := (c.midpoints.getOrCreate key (c.maxNodes / 10)).1 })
      (pushStep (priorities c.nodePool) node)
      (fun c' : RadialCircularList => c'.midpoints.heapOf (c.midpoints.getOrCreate key
        (c.maxNodes / 10)).2)
      (fun (c' : RadialCircularList) h => { c' with
        midpoints := c'.midpoints.setHeap (c.midpoints.getOrCreate key (c.maxNodes / 10)).2 h })
      (fun c' : RadialCircularList => c'.nodePool = c.nodePool ∧
        (c.midpoints.getOrCreate key (c.maxNodes / 10)).2 < c'.midpoints.nodes.length)
      (fun t c' pc p => by rw [← p.1]; exact added t c' _ pc) (quietAdd _)
      (fun c' h p => heapOf_setHeap_self p.2 h) (fun _ _ _ => by simp only [setHeap_setHeap])
      (fun c' h p => ⟨p.1, by simpa using p.2⟩) clocks ⟨rfl, lt⟩
      (solo_push _ node _ le_rfl) after) (by simp only at size ⊢; omega)
  exact soloBy_le (soloBy_nest (k := fun b => Control.next (addAt b .start))
    (getOrCreateStep key (c.maxNodes / 10)) (fun c' : RadialCircularList => c'.midpoints)
    (fun (c' : RadialCircularList) m => { c' with midpoints := m })
    (fun c' : RadialCircularList => c'.maxNodes = c.maxNodes)
    (fun t c' pc same => by rw [← same]; exact created t c' pc) quietCreate (fun _ _ _ => rfl) (fun _ _ _ => rfl)
    (fun _ _ same => same) clocks rfl (solo_getOrCreate key _ ready.linked le_rfl) pushed) (by omega)

/-! ### `insert` and `insert_batch` -/

/-- The steps `insert` takes at most from the cache `c`. -/
def insertFuel (c : RadialCircularList) : Nat := c.midpoints.nodes.length + 4 * (c.maxNodes / 10) + 14

theorem soloBy_insert {c : RadialCircularList} (ready : Ready c) (item : Item)
    (clocks : Nat → UInt64) :
    soloBy (insertStep item) insertReads clocks (insertFuel c) c .start =
      some (c.insert item (clocks 0)) := by
  obtain ⟨fuel, fueled⟩ : ∃ fuel, insertFuel c = fuel + 3 := ⟨_, rfl⟩
  by_cases full : c.maxNodes ≤ c.totalNodes
  · rw [insert_full full, fueled, soloBy_succ]
    simp [insertStep, full, soloAfter]
  by_cases over : c.maxNodes ≤ c.poolIndex
  · rw [insert_over (Nat.lt_of_not_le full) over, fueled, soloBy_succ]
    simp [insertStep, full, over, soloAfter, soloBy_succ]
  have room := Nat.lt_of_not_le full
  have free := Nat.lt_of_not_le over
  have stored : soloBy (insertStep item) insertReads clocks (insertFuel c) c .start =
      soloBy (insertStep item) insertReads (fun k => clocks (k + 1)) fuel
        ((claimOne c).write c.poolIndex item (clocks 0)) (.create c.poolIndex .start) := by
    rw [fueled]
    simp [soloBy_succ, insertStep, full, over, soloAfter, insertReads]
  have placed : soloBy (insertStep item) insertReads (fun k => clocks (k + 1))
      (c.midpoints.nodes.length + 4 * (c.maxNodes / 10) + 10 + 1)
      ((claimOne c).write c.poolIndex item (clocks 0)) (.create c.poolIndex .start) =
      some (c.insert item (clocks 0)) := by
    refine soloBy_place (insertStep item) insertReads (.create c.poolIndex) (.add c.poolIndex)
      (c := (claimOne c).write c.poolIndex item (clocks 0)) (k := fun added =>
      if added then Control.next (InsertPc.count c.poolIndex) else Control.ret false)
      (fun _ _ _ => rfl) (fun _ _ _ _ => rfl) (fun _ => rfl) (fun _ _ => rfl)
      ⟨ready.1, ready.2, ready.3⟩ ?_
    cases added : (((claimOne c).write c.poolIndex item (clocks 0)).addNode item.midpoint
      c.poolIndex).2
    · rw [insert_refused room free added]; rfl
    · rw [insert_added room free added]; rfl
  rw [stored]
  exact soloBy_le placed (by rw [insertFuel] at fueled; omega)

theorem soloBy_placeBatch (batch : List Item) (start : Nat) (nowNs : Nat → UInt64) (B : Nat) :
    ∀ (rest : List Item) (i : Nat) (c : RadialCircularList) {placed : RadialCircularList},
      batch.drop i = rest → placeBatch start nowNs c rest i = some placed → Ready c →
      c.midpoints.nodes.length + rest.length + 4 * (c.maxNodes / 10) + 11 ≤ B →
      soloBy (insertBatchStep batch) batchReads (fun k => nowNs (i + k)) (rest.length * B + 2) c
        (.write start i) =
        some ({ placed with totalNodes := (c.totalNodes + batch.length) % sizeModulus }, true)
  | [], i, c, _, dropped, placed, _, _ => by
    cases placed
    have none : batch[i]? = none := by
      rw [List.getElem?_eq_none_iff, ← List.drop_eq_nil_iff]; exact dropped
    simp [soloBy_succ, insertBatchStep, none, soloAfter]
  | item :: rest, i, c, last, dropped, placed, ready, bound => by
    have found : batch[i]? = some item := by
      rw [← List.head?_drop, dropped]; rfl
    have following : batch.drop (i + 1) = rest := by
      rw [← List.drop_drop, dropped]; rfl
    simp only [placeBatch] at placed
    split_ifs at placed with over
    obtain ⟨ready', grown⟩ := ready.place ((start + i) % sizeModulus) item (nowNs i)
    have max : ((c.write ((start + i) % sizeModulus) item (nowNs i)).addNode item.midpoint
      ((start + i) % sizeModulus)).1.maxNodes = c.maxNodes := rfl
    have shifted : (fun k => nowNs (i + (k + 1))) = fun k => nowNs (i + 1 + k) :=
      funext fun k => congrArg nowNs (by omega)
    have onward := soloBy_placeBatch batch start nowNs B rest (i + 1) _ following placed ready'
      (by simp only [List.length_cons] at bound; omega)
    have placed : soloBy (insertBatchStep batch) batchReads (fun k => nowNs (i + (k + 1)))
        (c.midpoints.nodes.length + 4 * (c.maxNodes / 10) + 10 + (rest.length * B + 2))
        (c.write ((start + i) % sizeModulus) item (nowNs i)) (.create start i item .start) =
        some ({ last with totalNodes := (c.totalNodes + batch.length) % sizeModulus }, true) := by
      refine soloBy_place (insertBatchStep batch) batchReads (.create start i item)
        (.add start i item)
        (c := c.write ((start + i) % sizeModulus) item (nowNs i))
        (k := fun _ => Control.next (BatchPc.write start (i + 1)))
        (fun _ _ _ => rfl) (fun _ _ _ _ => rfl) (fun _ => rfl) (fun _ _ => rfl)
        ⟨ready.1, ready.2, ready.3⟩ ?_
      rw [shifted]
      exact onward
    rw [show (item :: rest).length * B + 2 =
      c.midpoints.nodes.length + 4 * (c.maxNodes / 10) + 10 + (rest.length * B + 2) + 1 +
        (B - (c.midpoints.nodes.length + 4 * (c.maxNodes / 10) + 11)) by
      simp only [List.length_cons] at bound ⊢; rw [Nat.succ_mul]; omega]
    refine soloBy_le ?_ (Nat.le_add_right _ _)
    rw [soloBy_succ]
    simpa [insertBatchStep, found, over, batchReads, soloAfter] using placed

/-- The steps `insert_batch` takes at most from the cache `c`. -/
def batchFuel (c : RadialCircularList) (batch : List Item) : Nat :=
  batch.length * (c.midpoints.nodes.length + batch.length + 4 * (c.maxNodes / 10) + 11) + 4

theorem soloBy_insertBatch {c : RadialCircularList} (ready : Ready c) {batch : List Item}
    {clocks : Nat → UInt64} {r : RadialCircularList × Bool} (done : c.insertBatch batch clocks = some r) :
    soloBy (insertBatchStep batch) batchReads clocks (batchFuel c batch) c .start = some r := by
  obtain ⟨fuel, fueled⟩ : ∃ fuel, batchFuel c batch = fuel + 2 := ⟨_, rfl⟩
  by_cases full : c.maxNodes < (c.totalNodes + batch.length) % sizeModulus
  · rw [insertBatch_full full] at done
    cases done
    rw [fueled, soloBy_succ]
    simp [insertBatchStep, full, soloAfter]
  by_cases over : c.maxNodes < (c.poolIndex + batch.length) % sizeModulus
  · rw [insertBatch_over full over] at done
    cases done
    rw [fueled, soloBy_succ]
    simp [insertBatchStep, full, over, soloAfter, soloBy_succ]
  rw [insertBatch_placed full over] at done
  obtain ⟨placed, loop, rfl⟩ := Option.map_eq_some'.mp done
  have run := soloBy_placeBatch batch c.poolIndex clocks
    (c.midpoints.nodes.length + batch.length + 4 * (c.maxNodes / 10) + 11) batch 0
    (claimMany c batch.length) rfl loop ⟨ready.1, ready.2, ready.3⟩ le_rfl
  have spent : fuel = batch.length * (c.midpoints.nodes.length + batch.length +
      4 * (c.maxNodes / 10) + 11) + 2 := by
    unfold batchFuel at fueled; omega
  rw [fueled]
  simp only [soloBy_succ, insertBatchStep, full, over, soloAfter, batchReads, if_false,
    Bool.false_eq_true]
  simp only [Nat.zero_add] at run
  rw [spent, run, (placeBatch_counters _ _ _ _ _ loop).2.2.1]

/-! ### Retrievals -/

theorem soloBy_find {π ρ : Type}
    (step : UInt64 → RadialCircularList → π → RadialCircularList × Control π ρ)
    (reads : π → Bool) (findAt : GetPc → π) {k : Option Nat → Control π ρ} {key : Key}
    (found : ∀ t (c : RadialCircularList) pc,
      step t c (findAt pc) = (c, (getStep key c.midpoints pc).andThen findAt k))
    (quiet : ∀ pc, reads (findAt pc) = false) {clocks : Nat → UInt64} {c : RadialCircularList}
    (linked : c.midpoints.Linked) {g : Nat} {z : RadialCircularList × ρ}
    (after : soloAfter step reads clocks g c (k (c.midpoints.find key)) = some z) :
    soloBy step reads clocks (c.midpoints.nodes.length + 2 + g) c (findAt .start) = some z :=
  soloBy_nest (getOn key) (fun c' : RadialCircularList => c'.midpoints)
    (fun (c' : RadialCircularList) m => { c' with midpoints := m })
    (fun _ => True) (fun t c' pc _ => found t c' pc) quiet (fun _ _ _ => rfl) (fun _ _ _ => rfl)
    (fun _ _ _ => trivial) clocks trivial (solo_get key linked le_rfl) after

theorem soloBy_pop {π ρ : Type}
    (step : UInt64 → RadialCircularList → π → RadialCircularList × Control π ρ)
    (reads : π → Bool) (popAt : PopPc → π) {k : Option Nat → Control π ρ} {b : Nat}
    (popped : ∀ t (c : RadialCircularList) pc, step t c (popAt pc) =
      ({ c with midpoints :=
          c.midpoints.setHeap b (popStep (priorities c.nodePool) (c.midpoints.heapOf b) pc).1 },
        (popStep (priorities c.nodePool) (c.midpoints.heapOf b) pc).2.andThen popAt k))
    (quiet : ∀ pc, reads (popAt pc) = false) {clocks : Nat → UInt64} {c : RadialCircularList}
    (lt : b < c.midpoints.nodes.length) {x : LockFreeHeap × Option Nat}
    (popOnce : pop (priorities c.nodePool) (c.midpoints.heapOf b) = some x) {g : Nat}
    {z : RadialCircularList × ρ}
    (after : soloAfter step reads clocks g { c with midpoints := c.midpoints.setHeap b x.1 } (k x.2) =
      some z) :
    soloBy step reads clocks (7 * (c.midpoints.heapOf b).size + 5 + g) c (popAt .start) = some z :=
  soloBy_nest (popStep (priorities c.nodePool)) (·.midpoints.heapOf b)
    (fun (c' : RadialCircularList) h => { c' with midpoints := c'.midpoints.setHeap b h })
    (fun c' : RadialCircularList => c'.nodePool = c.nodePool ∧ b < c'.midpoints.nodes.length)
    (fun t c' pc p => by rw [← p.1]; exact popped t c' pc) quiet
    (fun c' h p => heapOf_setHeap_self p.2 h) (fun _ _ _ => by simp only [setHeap_setHeap])
    (fun c' h p => ⟨p.1, by simpa using p.2⟩) clocks ⟨rfl, lt⟩
    ((solo_pop (c.midpoints.heapOf b) le_rfl).trans popOnce) after

/-- The steps the loop of `get_highest_priority_node` takes at most on a heap of `n` slots. -/
def drainFuel : Nat → Nat
  | 0 => 1
  | n + 1 => drainFuel n + 7 * n + 14

theorem drainFuel_mono : ∀ {n m : Nat}, n ≤ m → drainFuel n ≤ drainFuel m
  | _, 0, le => by rw [Nat.le_zero.mp le]
  | n, m + 1, le => by
    rcases Nat.lt_or_ge n (m + 1) with lt | ge
    · have := drainFuel_mono (Nat.le_of_lt_succ lt)
      simp only [drainFuel]; omega
    · rw [Nat.le_antisymm le ge]

section Drain
variable {π ρ : Type} {step : UInt64 → RadialCircularList → π → RadialCircularList × Control π ρ}
  {reads : π → Bool} {wrap : RetrievePc → π} {k : Option Nat → Control π ρ} {midpoint : Key}
  (embeds : ∀ t c pc, step t c (wrap pc) =
    ((getHighestPriorityStep midpoint t c pc).1,
      (getHighestPriorityStep midpoint t c pc).2.andThen wrap k))
  (reading : ∀ pc, reads (wrap pc) = retrieveReads pc)
include embeds reading

theorem soloBy_drain (n : Nat) : ∀ (c : RadialCircularList) (b : Nat) (clocks : Nat → UInt64),
    (c.midpoints.heapOf b).size = n → b < c.midpoints.nodes.length →
    Valid (priorities c.nodePool) (c.midpoints.heapOf b) → (live (c.midpoints.heapOf b)).Nodup →
    (∀ x ∈ live (c.midpoints.heapOf b), x ∉ c.deleted) →
    ∀ {h' : LockFreeHeap} {r : Option Nat} {gone : List Nat},
      getHighestPriorityNode c.nodePool c.numa (c.midpoints.heapOf b) clocks = some (h', r, gone) →
      ∀ {g : Nat} {z : RadialCircularList × ρ},
        soloAfter step reads (fun j => clocks (j + (gone.length + r.toList.length))) g
          { c with midpoints := c.midpoints.setHeap b h', deleted := c.deleted ++ gone } (k r) =
          some z →
        soloBy step reads clocks (drainFuel n + g) c (wrap (.empty b)) = some z := by
  induction n with
  | zero =>
    intro c b clocks sized lt _ _ _ h' r gone loop g z after
    rw [getHighestPriorityNode_empty _ _ sized] at loop
    cases loop
    rw [drainFuel, Nat.add_comm, soloBy_succ, embeds, reading]
    simpa [getHighestPriorityStep, sized, retrieveReads, setHeap_heapOf _ lt] using after
  | succ n ih =>
    intro c b clocks sized lt valid nodup fresh h' r gone loop g z after
    obtain ⟨h₁, top, popOnce, valid₁, size₁, -, perm, -⟩ := pop_spec valid (by omega)
    have kept : (top :: live h₁).Nodup := perm.nodup_iff.mp nodup
    have unseen : top ∉ c.deleted := fresh top (perm.symm.subset (List.mem_cons_self _ _))
    have heap₁ : (c.midpoints.setHeap b h₁).heapOf b = h₁ := heapOf_setHeap_self lt h₁
    -- `empty()` finds slots and `pop()` returns `top`: the loop is at the `is_expired` of `top`
    have reach : soloBy step reads clocks (drainFuel n + g + 1)
        { c with midpoints := c.midpoints.setHeap b h₁ } (wrap (.check b top)) = some z →
        soloBy step reads clocks (drainFuel (n + 1) + g) c (wrap (.empty b)) = some z := by
      intro checked
      rw [show drainFuel (n + 1) + g = 7 * (c.midpoints.heapOf b).size + 5 + (drainFuel n + g + 1) + 1
        by simp only [drainFuel, sized]; omega, soloBy_succ, embeds, reading]
      have nonempty : (c.midpoints.heapOf b).size ≠ 0 := by omega
      simp only [getHighestPriorityStep, nonempty, if_false, retrieveReads,
        Control.next_andThen, soloAfter, Bool.false_eq_true]
      refine soloBy_pop step reads (fun pc => wrap (.pop b pc))
        (k := fun top => (match top with
          | none => Control.fault
          | some slot => Control.next (RetrievePc.check b slot)).andThen wrap k)
        (fun t c' pc => by rw [embeds]; simp only [getHighestPriorityStep, Control.andThen_andThen]; rfl)
        (fun pc => by rw [reading]; rfl) lt popOnce ?_
      exact checked
    rw [getHighestPriorityNode_pop (by omega) popOnce] at loop
    apply reach
    rw [soloBy_succ, embeds, reading]
    split_ifs at loop with expired numa
    · obtain ⟨⟨h'', r'', gone''⟩, rest, same⟩ := Option.map_eq_some'.mp loop
      cases same
      rw [Bool.not_eq_true] at numa
      rw [numa] at rest
      simp only [getHighestPriorityStep, unseen, expired, numa, Bool.false_eq_true, if_false,
        if_true, retrieveReads, Control.next_andThen, soloAfter]
      refine ih _ b _ (by rw [heap₁]; omega) (by simpa using lt) (by rw [heap₁]; exact valid₁)
        (by rw [heap₁]; exact kept.of_cons) (fun x mem => ?_) (by rw [heap₁]; exact rest) ?_
      · rw [heap₁] at mem
        simp only [List.mem_append, List.mem_singleton, not_or]
        exact ⟨fresh x (perm.symm.subset (List.mem_cons_of_mem _ mem)),
          fun same => (List.nodup_cons.mp kept).1 (same ▸ mem)⟩
      · have shifted : (fun j => clocks (j + ((top :: gone'').length + r''.toList.length))) =
            fun j => clocks (j + (gone''.length + r''.toList.length) + 1) :=
          funext fun j => congrArg clocks (by simp only [List.length_cons]; omega)
        simpa only [setHeap_setHeap, List.append_assoc, List.singleton_append, shifted, numa]
          using after
    · cases loop
      simp only [getHighestPriorityStep, unseen, expired, if_false, retrieveReads,
        Control.ret_andThen, Bool.false_eq_true]
      simp only [List.append_nil, List.length_nil, Option.toList_some, List.length_singleton]
        at after
      exact soloAfter_le after (Nat.le_add_left _ _)

/-- The steps a retrieval of one key takes at most from the cache `c`. -/
def retrieveFuel (c : RadialCircularList) : Nat :=
  c.midpoints.nodes.length + 2 + drainFuel (c.maxNodes / 10)

theorem soloBy_retrieve {c : RadialCircularList} (sound : Sound c) (tidy : Tidy c)
    (distinct : Distinct c) (clocks : Nat → UInt64) {c' : RadialCircularList} {r : Option Nat}
    (got : c.getHighestPriority midpoint clocks = some (c', r)) :
    ∃ m, ∀ {g : Nat} {z : RadialCircularList × ρ},
      soloAfter step reads (fun j => clocks (j + m)) g c' (k r) = some z →
      soloBy step reads clocks (retrieveFuel c + g) c (wrap (.find .start)) = some z := by
  have find := @soloBy_find π ρ step reads (fun pc => wrap (.find pc))
    (fun found => (match found with
      | none => Control.ret none
      | some bucket => Control.next (RetrievePc.empty bucket)).andThen wrap k) midpoint
    (fun t c' pc => by rw [embeds]; simp only [getHighestPriorityStep, Control.andThen_andThen]; rfl)
    (fun pc => by rw [reading]; rfl) clocks c tidy.linked
  unfold getHighestPriority at got
  split at got
  · next absent =>
    cases got
    refine ⟨0, fun {g _} after => soloBy_le (find (g := g) ?_) (by unfold retrieveFuel; omega)⟩
    rw [absent]
    exact after
  · next b present =>
    obtain ⟨⟨h', r', gone⟩, loop, same⟩ := Option.map_eq_some'.mp got
    cases same
    have lt := find_lt present
    obtain ⟨nodup, fresh⟩ := distinct.bucket lt
    have size : (c.midpoints.heapOf b).size ≤ c.maxNodes / 10 :=
      (sound.held b).valid.bounded.trans_eq (tidy.capacities b lt)
    refine ⟨gone.length + r'.toList.length, fun {g _} after =>
      soloBy_le (find (g := drainFuel (c.midpoints.heapOf b).size + g) ?_)
      (by unfold retrieveFuel; have := drainFuel_mono size; omega)⟩
    rw [present]
    exact soloBy_drain embeds reading _ c b clocks rfl lt (sound.held b).valid nodup fresh loop after

end Drain

theorem getHighestPriority_retrieveFuel {c c' : RadialCircularList} {midpoint : Key}
    {nowNs : Nat → UInt64} {r : Option Nat} (got : c.getHighestPriority midpoint nowNs = some (c', r)) :
    retrieveFuel c' = retrieveFuel c := by
  unfold getHighestPriority at got
  split at got
  · cases got; rfl
  · obtain ⟨_, -, same⟩ := Option.map_eq_some'.mp got
    cases same
    simp [retrieveFuel]

theorem soloBy_getHighestPriority {c : RadialCircularList} (sound : Sound c) (tidy : Tidy c)
    (distinct : Distinct c) (plain : c.numa = false) (midpoint : Key) (clocks : Nat → UInt64) :
    soloBy (getHighestPriorityStep midpoint) retrieveReads clocks (retrieveFuel c) c (.find .start) =
      c.getHighestPriority midpoint clocks := by
  obtain ⟨c', r, got, -⟩ := sound.retrieves plain midpoint clocks
  have embeds : ∀ t c pc, getHighestPriorityStep midpoint t c (id pc) =
      ((getHighestPriorityStep midpoint t c pc).1,
        (getHighestPriorityStep midpoint t c pc).2.andThen id Control.ret) := fun _ _ _ => by simp
  have reading : ∀ pc, retrieveReads (id pc) = retrieveReads pc := fun _ => rfl
  obtain ⟨m, run⟩ := soloBy_retrieve embeds reading sound tidy distinct clocks got
  rw [got]
  exact run (g := 0) rfl

/-- One atomic step of `get_highest_priority_batch` at the point `pc` of its current key's call. -/
def getHighestPriorityBatchStep (nowNs : UInt64) (c : RadialCircularList)
    (pc : Key × List Key × RetrievePc) :
    RadialCircularList × Control (Key × List Key × RetrievePc) Unit :=
  ((getHighestPriorityStep pc.1 nowNs c pc.2.2).1,
    (getHighestPriorityStep pc.1 nowNs c pc.2.2).2.andThen (fun pc' => (pc.1, pc.2.1, pc'))
      fun _ =>
        match pc.2.1 with
        | [] => .ret ()
        | next :: rest => .next (next, rest, .find .start))

/-- The points of a batch retrieval that read the clock: `is_expired`. -/
def batchRetrieveReads (pc : Key × List Key × RetrievePc) : Bool := retrieveReads pc.2.2

theorem resume_getHighestPriorityBatchStep (nowNs : UInt64) (c : RadialCircularList) (midpoint : Key)
    (pending : List Key) (pc : RetrievePc) :
    resume (getHighestPriorityBatchStep nowNs c (midpoint, pending, pc)).2
        (fun pc => .getHighestPriorityBatch pc.1 pc.2.1 pc.2.2) =
      resumeBatch midpoint pending (getHighestPriorityStep midpoint nowNs c pc).2 := by
  simp only [getHighestPriorityBatchStep]
  rcases (getHighestPriorityStep midpoint nowNs c pc).2 with _ | _ | _ <;>
    cases pending <;> rfl

theorem soloBy_getHighestPriorityBatch : ∀ (pending : List Key) (midpoint : Key)
    {c : RadialCircularList} (clocks : Nat → UInt64), Sound c → Tidy c → Distinct c →
    c.numa = false → ∃ nowNs r, c.getHighestPriorityBatch (midpoint :: pending) nowNs = some r ∧
      soloBy getHighestPriorityBatchStep batchRetrieveReads clocks
        ((pending.length + 1) * retrieveFuel c) c (midpoint, pending, .find .start) = some (r.1, ())
  | pending, midpoint, c, clocks, sound, tidy, distinct, plain => by
    obtain ⟨c₁, r₁, got, -⟩ := sound.retrieves plain midpoint clocks
    have embeds : ∀ t c pc, getHighestPriorityBatchStep t c (midpoint, pending, pc) =
        ((getHighestPriorityStep midpoint t c pc).1,
          (getHighestPriorityStep midpoint t c pc).2.andThen (fun pc => (midpoint, pending, pc))
            fun _ => match pending with
              | [] => .ret ()
              | next :: rest => .next (next, rest, .find .start)) := fun _ _ _ => rfl
    have reading : ∀ pc, batchRetrieveReads (midpoint, pending, pc) = retrieveReads pc :=
      fun _ => rfl
    obtain ⟨m, run⟩ := soloBy_retrieve embeds reading sound tidy distinct clocks got
    cases pending with
    | nil =>
      refine ⟨fun _ => clocks, (c₁, [r₁]), by simp [getHighestPriorityBatch, got], ?_⟩
      simpa using run (g := 0) rfl
    | cons next rest =>
      obtain ⟨nowNs, r, batch, solo⟩ := soloBy_getHighestPriorityBatch rest next
        (fun j => clocks (j + m)) (sound.getHighestPriority got) (tidy.getHighestPriority sound got)
        (distinct.getHighestPriority sound got)
        ((congrArg RadialCircularList.numa (getHighestPriority_frame got)).trans plain)
      refine ⟨fun i => match i with
        | 0 => clocks
        | i + 1 => nowNs i, (r.1, r₁ :: r.2), ?_, ?_⟩
      · rw [getHighestPriorityBatch, got, Option.some_bind, batch]
        rfl
      · rw [getHighestPriority_retrieveFuel got] at solo
        rw [List.length_cons, show (rest.length + 1 + 1) * retrieveFuel c =
          retrieveFuel c + (rest.length + 1) * retrieveFuel c by rw [Nat.succ_mul]; omega]
        exact run solo

end RadialCircularList

end RadialCache
