import RadialCache.RadialCircularList.Claims

/-! Where a returned record comes from. While fewer than `2^64` slots are claimed no slot is stored
into twice, so a record `get_highest_priority(k)` returns is the one record ever stored into its
slot, stored under `k`, and judged live by that call's check. -/

namespace RadialCache.RadialCircularList

open LockFreeHeap LockFreeHashTable

/-- Slot `x` was stored into by an `insert` or a batch item for `midpoint`. -/
def Stored (writes : List Write) (midpoint : Key) (x : Nat) : Prop :=
  ∃ w ∈ writes, w.slot = x ∧ w.midpoint = midpoint

theorem Stored.mono {writes writes' : List Write} {midpoint : Key} {x : Nat}
    (stored : Stored writes midpoint x) (grow : writes ⊆ writes') : Stored writes' midpoint x :=
  let ⟨w, mem, slot, key⟩ := stored
  ⟨w, grow mem, slot, key⟩

/-- What a retrieval point of `midpoint` holds: a bucket node and slots stored under `midpoint`. -/
def RetrievePc.Traced (m : LockFreeHashTable) (writes : List Write) (midpoint : Key) :
    RetrievePc → Prop
  | .find _ => True
  | .empty bucket => m.keyOf bucket = some midpoint
  | .pop bucket pc => m.keyOf bucket = some midpoint ∧ ∀ x ∈ pc.slots, Stored writes midpoint x
  | .check bucket slot => m.keyOf bucket = some midpoint ∧ Stored writes midpoint slot

/-- The next point of a retrieval step holds what `RetrievePc.Traced` says. -/
def RetrievePc.Within (m : LockFreeHashTable) (writes : List Write) (midpoint : Key) :
    Control RetrievePc (Option Nat) → Prop
  | .next pc => pc.Traced m writes midpoint
  | _ => True

/-- What a thread holds: its stored slot, node, bucket and loaded slots, all of its key. -/
def Call.Traced (m : LockFreeHashTable) (writes : List Write) : Call → Prop
  | .insert item (.create index pc) => Stored writes item.midpoint index ∧ pc.Owns m item.midpoint
  | .insert item (.add index bucket pc) =>
      m.keyOf bucket = some item.midpoint ∧ ∀ x ∈ index :: pc.slots, Stored writes item.midpoint x
  | .insertBatch _ (.create start i item pc) =>
      Stored writes item.midpoint ((start + i) % sizeModulus) ∧ pc.Owns m item.midpoint
  | .insertBatch _ (.add start i item bucket pc) =>
      m.keyOf bucket = some item.midpoint ∧
        ∀ x ∈ (start + i) % sizeModulus :: pc.slots, Stored writes item.midpoint x
  | .getHighestPriority midpoint pc => pc.Traced m writes midpoint
  | .getHighestPriorityBatch midpoint _ pc => pc.Traced m writes midpoint
  | _ => True

section
variable {m m' : LockFreeHashTable} {writes writes' : List Write}

theorem RetrievePc.Traced.keep {midpoint : Key} {pc : RetrievePc}
    (traced : pc.Traced m writes midpoint)
    (keys : ∀ n k, m.keyOf n = some k → m'.keyOf n = some k) (grow : writes ⊆ writes') :
    pc.Traced m' writes' midpoint := by
  cases pc with
  | find => trivial
  | empty bucket => exact keys _ _ traced
  | pop bucket pc => exact ⟨keys _ _ traced.1, fun x mem => (traced.2 x mem).mono grow⟩
  | check bucket slot => exact ⟨keys _ _ traced.1, traced.2.mono grow⟩

theorem Call.Traced.keep {c : Call} (traced : c.Traced m writes)
    (keys : ∀ n k, m.keyOf n = some k → m'.keyOf n = some k) (grow : writes ⊆ writes') :
    c.Traced m' writes' := by
  cases c with
  | insert item pc =>
    cases pc with
    | create index pc => exact ⟨traced.1.mono grow, traced.2.keep keys⟩
    | add index bucket pc => exact ⟨keys _ _ traced.1, fun x mem => (traced.2 x mem).mono grow⟩
    | _ => trivial
  | insertBatch batch pc =>
    cases pc with
    | create start i item pc => exact ⟨traced.1.mono grow, traced.2.keep keys⟩
    | add start i item bucket pc =>
      exact ⟨keys _ _ traced.1, fun x mem => (traced.2 x mem).mono grow⟩
    | _ => trivial
  | getHighestPriority midpoint pc => exact RetrievePc.Traced.keep traced keys grow
  | getHighestPriorityBatch midpoint pending pc => exact RetrievePc.Traced.keep traced keys grow
  | _ => trivial

end

namespace Clients

/-- Where every slot in the cache and in the threads' hands comes from. -/
structure Provenance (s : Clients) : Prop where
  kept : ∀ w ∈ s.writes, s.cache.nodePool w.slot = w.record
  buckets : Buckets (Stored s.writes) s.cache.midpoints
  traced : ∀ c ∈ s.threads, c.Traced s.cache.midpoints s.writes
  returned : ∀ e ∈ s.returned,
    (⟨e.slot, e.midpoint, e.record⟩ : Write) ∈ s.writes ∧ e.record.isExpired e.nowNs = false

section
variable {s s' : Clients} {t : Nat} {c' : Call}

theorem Provenance.thread (prov : Provenance s) (W : List Write) (R : List Retrieval)
    (threads : s'.threads = s.threads.set t c') (writes : s'.writes = s.writes ++ W)
    (returned : s'.returned = s.returned ++ R)
    (keys : ∀ n k, s.cache.midpoints.keyOf n = some k → s'.cache.midpoints.keyOf n = some k)
    (untouched : ∀ w ∈ s.writes, s'.cache.nodePool w.slot = s.cache.nodePool w.slot)
    (stored : ∀ w ∈ W, s'.cache.nodePool w.slot = w.record)
    (buckets : Buckets (Stored s.writes) s'.cache.midpoints)
    (traced : c'.Traced s'.cache.midpoints s'.writes)
    (fresh : ∀ e ∈ R, (⟨e.slot, e.midpoint, e.record⟩ : Write) ∈ s.writes ∧
      e.record.isExpired e.nowNs = false) :
    Provenance s' := by
  have grow : s.writes ⊆ s'.writes := writes ▸ List.subset_append_left _ _
  refine ⟨fun w mem => ?_, buckets.mono fun _ _ stored => stored.mono grow, fun c mem => ?_,
    fun e mem => ?_⟩
  · rw [writes, List.mem_append] at mem
    rcases mem with old | new
    · rw [untouched w old, prov.kept w old]
    · exact stored w new
  · rw [threads] at mem
    rcases List.mem_or_eq_of_mem_set mem with old | rfl
    · exact (prov.traced c old).keep keys grow
    · exact traced
  · rw [returned, List.mem_append] at mem
    rcases mem with old | new
    · exact (prov.returned e old).imp_left (grow ·)
    · exact (fresh e new).imp_left (grow ·)

theorem Ledger.unwritten (ledger : Ledger s) {c : Call} (at_t : s.threads[t]? = some c) {x : Nat}
    (owed : x ∈ c.pending) : ∀ w ∈ s.writes, w.slot ≠ x := by
  intro w mem same
  have written : x ∈ s.writes.map (·.slot) := same ▸ List.mem_map_of_mem _ mem
  have owing : x ∈ s.threads.flatMap Call.pending :=
    List.mem_flatMap.mpr ⟨c, List.getElem?_mem at_t, owed⟩
  exact List.disjoint_of_nodup_append ledger.claims_nodup written owing

theorem Provenance.table (prov : Provenance s) (threads : s'.threads = s.threads.set t c')
    (writes : s'.writes = s.writes) (returned : s'.returned = s.returned)
    (pool : s'.cache.nodePool = s.cache.nodePool)
    (keys : ∀ n k, s.cache.midpoints.keyOf n = some k → s'.cache.midpoints.keyOf n = some k)
    (buckets : Buckets (Stored s.writes) s'.cache.midpoints)
    (traced : c'.Traced s'.cache.midpoints s.writes) : Provenance s' :=
  prov.thread [] [] threads (by rw [writes, List.append_nil]) (by rw [returned, List.append_nil])
    keys (fun _ _ => by rw [pool]) (fun _ mem => nomatch mem) buckets (by rw [writes]; exact traced)
    (fun _ mem => nomatch mem)

theorem Provenance.quiet (prov : Provenance s) (threads : s'.threads = s.threads.set t c')
    (writes : s'.writes = s.writes) (returned : s'.returned = s.returned)
    (midpoints : s'.cache.midpoints = s.cache.midpoints)
    (pool : s'.cache.nodePool = s.cache.nodePool) (traced : c'.Traced s.cache.midpoints s.writes) :
    Provenance s' :=
  prov.table threads writes returned pool (fun _ _ old => by rwa [midpoints])
    (by rw [midpoints]; exact prov.buckets) (by rw [midpoints]; exact traced)

theorem Provenance.store (prov : Provenance s) (w : Write)
    (unwritten : ∀ v ∈ s.writes, v.slot ≠ w.slot)
    (threads : s'.threads = s.threads.set t c') (writes : s'.writes = s.writes ++ [w])
    (returned : s'.returned = s.returned) (midpoints : s'.cache.midpoints = s.cache.midpoints)
    (pool : s'.cache.nodePool = Function.update s.cache.nodePool w.slot w.record)
    (traced : c'.Traced s.cache.midpoints s'.writes) : Provenance s' :=
  prov.thread [w] [] threads writes (by rw [returned, List.append_nil])
    (fun _ _ old => by rwa [midpoints])
    (fun v mem => by rw [pool, Function.update_noteq (unwritten v mem)])
    (fun v mem => by rw [List.mem_singleton.mp mem, pool, Function.update_same])
    (by rw [midpoints]; exact prov.buckets) (by rw [midpoints]; exact traced)
    (fun _ mem => nomatch mem)

theorem Provenance.invoke (prov : Provenance s) (t : Nat) {call : Call}
    (traced : call.Traced s.cache.midpoints s.writes) : Provenance (s.invoke t call) := by
  unfold Clients.invoke
  split_ifs
  · exact prov.quiet rfl rfl rfl rfl rfl traced
  · exact prov

theorem Provenance.insert (prov : Provenance s) (ledger : Ledger s) {item : Item} {pc : InsertPc}
    (at_t : s.threads[t]? = some (.insert item pc)) (nowNs : UInt64) :
    Provenance (s.advance t nowNs (.insert item pc)) := by
  have traced : Call.Traced s.cache.midpoints s.writes (.insert item pc) :=
    prov.traced _ (List.getElem?_mem at_t)
  cases pc with
  | start =>
    refine prov.quiet rfl (List.append_nil _) rfl rfl rfl ?_
    simp only [insertStep]
    split_ifs <;> trivial
  | claim =>
    refine prov.quiet rfl (List.append_nil _) rfl rfl rfl ?_
    simp only [insertStep]
    split_ifs <;> trivial
  | write index =>
    exact prov.store ⟨index, item.midpoint, item.record nowNs⟩
      (ledger.unwritten at_t (List.mem_singleton_self index)) rfl rfl rfl rfl rfl
      ⟨⟨_, List.mem_append_right _ (List.mem_singleton_self _), rfl, rfl⟩, trivial⟩
  | create index pc =>
    obtain ⟨stored, owns⟩ := traced
    have within := getOrCreateStep_within item.midpoint (s.cache.maxNodes / 10) owns
    refine prov.table rfl (List.append_nil _) rfl rfl (fun _ _ => keyOf_getOrCreateStep _ _ pc)
      (prov.buckets.getOrCreateStep _ _ pc) ?_
    simp only [insertStep]
    generalize (getOrCreateStep item.midpoint (s.cache.maxNodes / 10) s.cache.midpoints pc).2 = k
      at within ⊢
    cases k with
    | next pc' => exact ⟨stored, within⟩
    | ret bucket => exact ⟨within, by simpa [PushPc.slots] using stored⟩
    | fault => trivial
  | add index bucket pc =>
    obtain ⟨key, locals⟩ := traced
    obtain ⟨holds, within⟩ := pushStep_holds (priorities s.cache.nodePool)
      (locals index (List.mem_cons_self _ _)) (prov.buckets.heapOf key)
      fun x mem => locals x (List.mem_cons_of_mem _ mem)
    refine prov.table rfl (List.append_nil _) rfl rfl
      (fun _ _ old => (keyOf_setHeap _ _ _ _).trans old) (prov.buckets.setHeap key holds) ?_
    simp only [insertStep]
    generalize (pushStep (priorities s.cache.nodePool) index (s.cache.midpoints.heapOf bucket)
      pc).2 = k at within ⊢
    cases k with
    | next pc' =>
      refine ⟨(keyOf_setHeap _ _ _ _).trans key, fun x mem => ?_⟩
      rcases List.mem_cons.mp mem with rfl | mem
      · exact locals x (List.mem_cons_self _ _)
      · exact within x mem
    | ret added => cases added <;> trivial
    | fault => trivial
  | count index => exact prov.quiet rfl (List.append_nil _) rfl rfl rfl trivial

theorem Provenance.insertBatch (prov : Provenance s) (ledger : Ledger s) {batch : List Item}
    {pc : BatchPc} (at_t : s.threads[t]? = some (.insertBatch batch pc)) (nowNs : UInt64) :
    Provenance (s.advance t nowNs (.insertBatch batch pc)) := by
  have traced : Call.Traced s.cache.midpoints s.writes (.insertBatch batch pc) :=
    prov.traced _ (List.getElem?_mem at_t)
  cases pc with
  | start =>
    refine prov.quiet rfl (List.append_nil _) rfl rfl rfl ?_
    simp only [insertBatchStep]
    split_ifs <;> trivial
  | claim =>
    refine prov.quiet rfl (List.append_nil _) rfl rfl rfl ?_
    simp only [insertBatchStep]
    split_ifs <;> trivial
  | write start i =>
    cases item? : batch[i]? with
    | none =>
      simp only [advance, insertBatchStep, batchWrites, item?, Option.toList, List.map_nil,
        ite_self]
      exact prov.quiet rfl (List.append_nil _) rfl rfl rfl trivial
    | some item =>
      have lt : i < batch.length := (List.getElem?_eq_some_iff.mp item?).1
      obtain ⟨-, -, maxRange⟩ := ledger.bounded _ (List.getElem?_mem at_t)
      have slot : (start + i) % sizeModulus = start + i :=
        Nat.mod_eq_of_lt (by have := s.cache.maxNodes_lt; omega)
      have owed :
          (start + i) % sizeModulus ∈ Call.pending (.insertBatch batch (.write start i)) := by
        rw [slot]
        simp only [Call.pending, List.mem_range'_1]
        omega
      have inside : ¬ s.cache.maxNodes ≤ (start + i) % sizeModulus := by rw [slot]; omega
      simp only [advance, insertBatchStep, batchWrites, item?, inside, if_false, Option.toList,
        List.map_cons, List.map_nil]
      exact prov.store ⟨(start + i) % sizeModulus, item.midpoint, item.record nowNs⟩
        (ledger.unwritten at_t owed) rfl rfl rfl rfl rfl
        ⟨⟨_, List.mem_append_right _ (List.mem_singleton_self _), rfl, rfl⟩, trivial⟩
  | create start i item pc =>
    obtain ⟨stored, owns⟩ := traced
    have within := getOrCreateStep_within item.midpoint (s.cache.maxNodes / 10) owns
    refine prov.table rfl (List.append_nil _) rfl rfl (fun _ _ => keyOf_getOrCreateStep _ _ pc)
      (prov.buckets.getOrCreateStep _ _ pc) ?_
    simp only [insertBatchStep]
    generalize (getOrCreateStep item.midpoint (s.cache.maxNodes / 10) s.cache.midpoints pc).2 = k
      at within ⊢
    cases k with
    | next pc' => exact ⟨stored, within⟩
    | ret bucket => exact ⟨within, by simpa [PushPc.slots] using stored⟩
    | fault => trivial
  | add start i item bucket pc =>
    obtain ⟨key, locals⟩ := traced
    obtain ⟨holds, within⟩ := pushStep_holds (priorities s.cache.nodePool)
      (locals _ (List.mem_cons_self _ _)) (prov.buckets.heapOf key)
      fun x mem => locals x (List.mem_cons_of_mem _ mem)
    refine prov.table rfl (List.append_nil _) rfl rfl
      (fun _ _ old => (keyOf_setHeap _ _ _ _).trans old) (prov.buckets.setHeap key holds) ?_
    simp only [insertBatchStep]
    generalize (pushStep (priorities s.cache.nodePool) ((start + i) % sizeModulus)
      (s.cache.midpoints.heapOf bucket) pc).2 = k at within ⊢
    cases k with
    | next pc' =>
      refine ⟨(keyOf_setHeap _ _ _ _).trans key, fun x mem => ?_⟩
      rcases List.mem_cons.mp mem with rfl | mem
      · exact locals _ (List.mem_cons_self _ _)
      · exact within x mem
    | _ => trivial
  | count start => exact prov.quiet rfl (List.append_nil _) rfl rfl rfl trivial

theorem Provenance.retrieve (prov : Provenance s) {midpoint : Key} {pc : RetrievePc}
    (traced : pc.Traced s.cache.midpoints s.writes midpoint) (nowNs : UInt64)
    (next : Control RetrievePc (Option Nat) → Call)
    (resumes : ∀ m W k, RetrievePc.Within m W midpoint k → (next k).Traced m W) :
    Provenance { s with
      cache := (getHighestPriorityStep midpoint nowNs s.cache pc).1
      threads := s.threads.set t (next (getHighestPriorityStep midpoint nowNs s.cache pc).2)
      returned := s.returned ++
        retrieved midpoint nowNs s.cache (getHighestPriorityStep midpoint nowNs s.cache pc).2 } := by
  cases pc with
  | find gpc =>
    simp only [getHighestPriorityStep]
    cases found : getStep midpoint s.cache.midpoints gpc with
    | ret r =>
      cases r with
      | none => exact prov.quiet rfl rfl (List.append_nil _) rfl rfl (resumes _ _ _ trivial)
      | some n =>
        exact prov.quiet rfl rfl (List.append_nil _) rfl rfl (resumes _ _ _ (getStep_found found))
    | _ => exact prov.quiet rfl rfl (List.append_nil _) rfl rfl (resumes _ _ _ trivial)
  | empty bucket =>
    simp only [getHighestPriorityStep]
    split_ifs
    · exact prov.quiet rfl rfl (List.append_nil _) rfl rfl (resumes _ _ _ trivial)
    · exact prov.quiet rfl rfl (List.append_nil _) rfl rfl
        (resumes _ _ _ ⟨traced, fun _ mem => nomatch mem⟩)
  | pop bucket pc =>
    obtain ⟨key, locals⟩ := traced
    obtain ⟨holds, within⟩ :=
      popStep_holds (priorities s.cache.nodePool) (prov.buckets.heapOf key) locals
    simp only [getHighestPriorityStep]
    generalize popStep (priorities s.cache.nodePool) (s.cache.midpoints.heapOf bucket) pc = popped
      at holds within ⊢
    obtain ⟨heap, k⟩ := popped
    have keys : ∀ n k, s.cache.midpoints.keyOf n = some k →
        (s.cache.midpoints.setHeap bucket heap).keyOf n = some k :=
      fun _ _ old => (keyOf_setHeap _ _ _ _).trans old
    have buckets := prov.buckets.setHeap key holds
    cases k with
    | next pc' =>
      exact prov.table rfl rfl (List.append_nil _) rfl keys buckets
        (resumes _ _ _ ⟨keys _ _ key, within⟩)
    | ret top =>
      cases top with
      | none =>
        exact prov.table rfl rfl (List.append_nil _) rfl keys buckets (resumes _ _ _ trivial)
      | some slot =>
        exact prov.table rfl rfl (List.append_nil _) rfl keys buckets
          (resumes _ _ _ ⟨keys _ _ key, within slot (List.mem_singleton_self _)⟩)
    | fault => exact prov.table rfl rfl (List.append_nil _) rfl keys buckets (resumes _ _ _ trivial)
  | check bucket slot =>
    obtain ⟨key, w, written, at_slot, under⟩ := traced
    simp only [getHighestPriorityStep]
    split_ifs with deleted expired
    · exact prov.quiet rfl rfl (List.append_nil _) rfl rfl (resumes _ _ _ trivial)
    · exact prov.quiet rfl rfl (List.append_nil _) rfl rfl (resumes _ _ _ trivial)
    · exact prov.quiet rfl rfl (List.append_nil _) rfl rfl (resumes _ _ _ key)
    · refine prov.thread [] _ rfl (List.append_nil _).symm rfl (fun _ _ => id) (fun _ _ => rfl)
        (fun _ mem => nomatch mem) prov.buckets (resumes _ _ _ trivial) fun e mem => ?_
      rw [retrieved, List.mem_singleton] at mem
      subst mem at_slot under
      rw [prov.kept w written]
      exact ⟨written, Bool.not_eq_true _ ▸ prov.kept w written ▸ expired⟩

theorem Provenance.getHighestPriority (prov : Provenance s) {midpoint : Key} {pc : RetrievePc}
    (at_t : s.threads[t]? = some (.getHighestPriority midpoint pc)) (nowNs : UInt64) :
    Provenance (s.advance t nowNs (.getHighestPriority midpoint pc)) :=
  prov.retrieve (prov.traced _ (List.getElem?_mem at_t)) nowNs
    (fun k => resume k (.getHighestPriority midpoint)) fun _ _ k within => by
      cases k with
      | next pc => exact within
      | _ => trivial

theorem Provenance.getHighestPriorityBatch (prov : Provenance s) {midpoint : Key}
    {pending : List Key} {pc : RetrievePc}
    (at_t : s.threads[t]? = some (.getHighestPriorityBatch midpoint pending pc)) (nowNs : UInt64) :
    Provenance (s.advance t nowNs (.getHighestPriorityBatch midpoint pending pc)) :=
  prov.retrieve (prov.traced _ (List.getElem?_mem at_t)) nowNs (resumeBatch midpoint pending)
    fun _ _ k within => by
      cases k with
      | next pc => exact within
      | ret r => cases pending <;> trivial
      | fault => trivial

theorem Provenance.step (prov : Provenance s) (ledger : Ledger s) (a : Act) :
    Provenance (step s a) := by
  cases a with
  | insert t item => exact prov.invoke t trivial
  | insertBatch t batch => exact prov.invoke t trivial
  | getHighestPriority t midpoint => exact prov.invoke t trivial
  | getHighestPriorityBatch t midpoints =>
    cases midpoints with
    | nil => exact prov
    | cons midpoint pending => exact prov.invoke t trivial
  | tick t nowNs =>
    simp only [Clients.step]
    cases at_t : s.threads[t]? with
    | none => exact prov
    | some call =>
      cases call with
      | insert item pc => exact prov.insert ledger at_t nowNs
      | insertBatch batch pc => exact prov.insertBatch ledger at_t nowNs
      | getHighestPriority midpoint pc => exact prov.getHighestPriority at_t nowNs
      | getHighestPriorityBatch midpoint pending pc => exact prov.getHighestPriorityBatch at_t nowNs
      | _ => exact prov

end

theorem provenance_init (max : Nat) (fits : max < sizeModulus) (numa : Bool) (nowNs : Nat → UInt64)
    (threads : Nat) : Provenance (init max fits numa nowNs threads) :=
  ⟨(fun _ mem => nomatch mem), buckets_init _,
    fun c mem => (by rw [List.eq_of_mem_replicate mem]; trivial), fun _ mem => nomatch mem⟩

theorem provenance_of_reachable {max : Nat} {fits : max < sizeModulus} {numa : Bool} {nowNs : Nat → UInt64}
    {threads : Nat} {s : Clients}
    (reach : Interleaving.Reachable step (init max fits numa nowNs threads) s) :
    s.cache.claimed < sizeModulus → Provenance s := by
  induction reach with
  | init => exact fun _ => provenance_init max fits numa nowNs threads
  | step a before ih =>
    intro unwrapped
    have earlier := (step_counters _ a).1.trans_lt unwrapped
    exact (ih earlier).step (ledger_of_reachable before earlier) a

end Clients

theorem filter_slot_eq_singleton {writes : List Write} (distinct : (writes.map (·.slot)).Nodup)
    {w : Write} (mem : w ∈ writes) : writes.filter (fun v => v.slot = w.slot) = [w] := by
  induction writes with
  | nil => nomatch mem
  | cons v rest ih =>
    rw [List.map_cons, List.nodup_cons] at distinct
    rcases List.mem_cons.mp mem with rfl | later
    · have apart : ∀ u ∈ rest, u.slot ≠ w.slot := fun u mem same =>
        distinct.1 (same ▸ List.mem_map_of_mem (·.slot) mem)
      simpa [List.filter_cons] using apart
    · have apart : v.slot ≠ w.slot := fun same =>
        distinct.1 (same ▸ List.mem_map_of_mem (·.slot) later)
      simpa [List.filter_cons, apart] using ih distinct.2 later

/-- In every interleaving of client calls that has claimed fewer than `2^64` arena slots, a record
returned for a key is the one record ever stored into its slot, stored under that key, and the
check of the retrieval that returned it judged it live. -/
theorem returned_records_written {max : Nat} {fits : max < sizeModulus} {numa : Bool} {nowNs : Nat → UInt64}
    {threads : Nat} {s : Clients}
    (reach : Interleaving.Reachable Clients.step (Clients.init max fits numa nowNs threads) s)
    (unwrapped : s.cache.claimed < sizeModulus) :
    ∀ e ∈ s.returned, s.writes.filter (fun w => w.slot = e.slot) = [⟨e.slot, e.midpoint, e.record⟩] ∧
      e.record.isExpired e.nowNs = false := by
  have prov := Clients.provenance_of_reachable reach unwrapped
  have distinct : (s.writes.map (·.slot)).Nodup :=
    (Clients.ledger_of_reachable reach unwrapped).claims_nodup.sublist
      (List.sublist_append_left _ _)
  intro e mem
  obtain ⟨written, live⟩ := prov.returned e mem
  exact ⟨filter_slot_eq_singleton distinct written, live⟩

/-- Thread 1 retrieves "A" once thread 0 has pushed it, before thread 0 ends its sift and count. -/
def insertThenRetrieve : List Act :=
  [.insert 0 ⟨7, [65], 1, 60000000000⟩] ++ List.replicate 11 (.tick 0 5) ++
    [.getHighestPriority 1 [65]] ++ List.replicate 8 (.tick 1 9) ++ List.replicate 2 (.tick 0 5)

set_option maxRecDepth 20000 in
theorem returned_records_written_in_race :
    Interleaving.Reachable Clients.step (Clients.init 20 (by decide) false (fun _ => 0) 2)
        ((Clients.init 20 (by decide) false (fun _ => 0) 2).run insertThenRetrieve) ∧
      ((Clients.init 20 (by decide) false (fun _ => 0) 2).run insertThenRetrieve).cache.claimed <
        sizeModulus ∧
      ((Clients.init 20 (by decide) false (fun _ => 0) 2).run insertThenRetrieve).returned.length = 1 ∧
      ∀ e ∈ ((Clients.init 20 (by decide) false (fun _ => 0) 2).run insertThenRetrieve).returned,
        ((Clients.init 20 (by decide) false (fun _ => 0) 2).run insertThenRetrieve).writes.filter
            (fun w => w.slot = e.slot) = [⟨e.slot, e.midpoint, e.record⟩] ∧
          e.record.isExpired e.nowNs = false :=
  ⟨Interleaving.reachable_run .init insertThenRetrieve, by decide, by decide,
    returned_records_written (Interleaving.reachable_run .init insertThenRetrieve) (by decide)⟩

/-! ### After `pool_index` wraps -/

theorem Clients.run_append (s : Clients) (first second : List Act) :
    s.run (first ++ second) = (s.run first).run second := Interleaving.run_append _ _ _ _

/-- An `insert` on thread 0 that finds `pool_index` past `max_nodes` and returns `false`. -/
def failedInsert (item : Item) : List Act := [.insert 0 item, .tick 0 0, .tick 0 0]

theorem run_failedInsert {s : Clients} (idle : s.threads = [.idle])
    (room : s.cache.totalNodes < s.cache.maxNodes) (over : s.cache.maxNodes ≤ s.cache.poolIndex)
    (item : Item) :
    s.run (failedInsert item) = { s with cache := { s.cache with
      poolIndex := (s.cache.poolIndex + 1) % sizeModulus, claimed := s.cache.claimed + 1 } } := by
  obtain ⟨cache, threads, writes, returned, settled⟩ := s
  subst idle
  simp [Clients.run, failedInsert, Clients.step, Clients.invoke, Clients.advance, insertStep,
    not_le.mpr room, over, resume, insertWrites, insertSettles]

theorem run_failedInserts {s : Clients} (idle : s.threads = [.idle])
    (room : s.cache.totalNodes < s.cache.maxNodes) (over : s.cache.maxNodes ≤ s.cache.poolIndex)
    (counted : s.cache.poolIndex < sizeModulus) (item : Item) :
    ∀ n, s.cache.poolIndex + n ≤ sizeModulus →
      s.run (List.replicate n (failedInsert item)).flatten = { s with cache := { s.cache with
        poolIndex := (s.cache.poolIndex + n) % sizeModulus, claimed := s.cache.claimed + n } }
  | 0, _ => by simp [Clients.run, Nat.mod_eq_of_lt counted]
  | n + 1, fits => by
    have below : s.cache.poolIndex + n < sizeModulus := by omega
    rw [List.replicate_succ', List.flatten_append, Clients.run_append,
      run_failedInserts idle room over counted item n below.le, List.flatten_singleton,
      run_failedInsert]
    · simp only [Nat.mod_add_mod, Nat.add_assoc]
    · exact idle
    · exact room
    · show s.cache.maxNodes ≤ (s.cache.poolIndex + n) % sizeModulus
      rw [Nat.mod_eq_of_lt below]
      omega

/-- A record for the key "B". -/
def otherItem : Item := ⟨0, [66], 5, 60000000000⟩

/-- In a 10-slot cache "A" fills its bucket; a refused batch of nine leaves `pool_index` at 11. -/
def wrapPrefix : List Act :=
  [.insert 0 (sampleItem 1)] ++ List.replicate 13 (.tick 0 0) ++
    [.insert 0 (sampleItem 2)] ++ List.replicate 6 (.tick 0 0) ++
    [.insertBatch 0 (List.replicate 9 (sampleItem 3))] ++ List.replicate 2 (.tick 0 0)

/-- Once `pool_index` wraps, "B" is stored into slot 0, the root of "A"'s heap; "A" is retrieved. -/
def wrapSuffix : List Act :=
  [.insert 0 otherItem] ++ List.replicate 20 (.tick 0 0) ++ [.getHighestPriority 0 [65]] ++
    List.replicate 8 (.tick 0 0)

/-- The state after the prefix and `2^64 - 11` failed inserts. -/
def wrappedState : Clients :=
  let prefixed := (Clients.init 10 (by decide) false (fun _ => 0) 1).run wrapPrefix
  { prefixed with cache := { prefixed.cache with poolIndex := 0, claimed := sizeModulus } }

set_option maxRecDepth 20000 in
theorem reachable_wrappedState :
    Interleaving.Reachable Clients.step (Clients.init 10 (by decide) false (fun _ => 0) 1) wrappedState := by
  have start : Interleaving.Reachable Clients.step (Clients.init 10 (by decide) false (fun _ => 0) 1)
      (Clients.init 10 (by decide) false (fun _ => 0) 1) := .init
  have reach := Interleaving.reachable_run (Interleaving.reachable_run start wrapPrefix)
    (List.replicate (sizeModulus - 11) (failedInsert otherItem)).flatten
  rw [← Clients.run, ← Clients.run, run_failedInserts (by decide) (by decide) (by decide)
    (by decide) _ _ (by decide)] at reach
  exact reach

set_option maxRecDepth 20000 in
/-- Without the bound on claims the law fails: once `pool_index` wraps, "B" is stored into slot
0 while "A"'s heap still holds it, and retrieving "A" returns B's record from a slot stored into
twice. -/
theorem returned_records_fail_after_wrap :
    ¬ ∀ (max : Nat) (fits : max < sizeModulus) (nowNs : Nat → UInt64) (threads : Nat) (s : Clients),
      Interleaving.Reachable Clients.step (Clients.init max fits false nowNs threads) s →
      ∀ e ∈ s.returned, s.writes.filter (fun w => w.slot = e.slot) = [⟨e.slot, e.midpoint, e.record⟩] ∧
        e.record.isExpired e.nowNs = false := by
  intro law
  exact absurd (law 10 _ _ 1 _ (Interleaving.reachable_run reachable_wrappedState wrapSuffix))
    (by decide)

end RadialCache.RadialCircularList
