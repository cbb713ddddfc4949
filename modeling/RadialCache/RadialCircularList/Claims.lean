import RadialCache.RadialCircularList.Clients
import Mathlib.Data.List.Perm.Subperm

/-! Slot claims under concurrent inserts. `pool_index.fetch_add` hands each call a range of its own,
so while fewer than `2^64` slots are claimed the stores land in distinct slots below `max_nodes`,
and the calls that return `true` account for at most `max_nodes` slots. -/

namespace RadialCache.RadialCircularList

open LockFreeHeap LockFreeHashTable

/-- The slots a call has claimed and has still to store into. -/
def Call.pending : Call → List Nat
  | .insert _ (.write index) => [index]
  | .insertBatch batch (.write start i) => List.range' (start + i) (batch.length - i)
  | .insertBatch batch (.create start i _ _) =>
      List.range' (start + (i + 1)) (batch.length - (i + 1))
  | .insertBatch batch (.add start i _ _ _) => List.range' (start + (i + 1)) (batch.length - (i + 1))
  | _ => []

/-- The slots a call has stored into and not yet settled. -/
def Call.held : Call → List Nat
  | .insert _ (.create index _) => [index]
  | .insert _ (.add index _ _) => [index]
  | .insert _ (.count index) => [index]
  | .insertBatch _ (.write start i) => List.range' start i
  | .insertBatch _ (.create start i _ _) => List.range' start (i + 1)
  | .insertBatch _ (.add start i _ _ _) => List.range' start (i + 1)
  | .insertBatch batch (.count start) => List.range' start batch.length
  | _ => []

/-- What a batch knows past its bound test: its range lies below `claimed` and `max`. -/
def Call.Bounded (claimed max : Nat) : Call → Prop
  | .insertBatch batch (.write start i) =>
      i ≤ batch.length ∧ start + batch.length ≤ claimed ∧ start + batch.length ≤ max
  | .insertBatch batch (.create start i _ _) =>
      i < batch.length ∧ start + batch.length ≤ claimed ∧ start + batch.length ≤ max
  | .insertBatch batch (.add start i _ _ _) =>
      i < batch.length ∧ start + batch.length ≤ claimed ∧ start + batch.length ≤ max
  | .insertBatch batch (.count start) => start + batch.length ≤ claimed ∧ start + batch.length ≤ max
  | _ => True

theorem Call.Bounded.mono {claimed claimed' max : Nat} {c : Call} (bounded : c.Bounded claimed max)
    (grow : claimed ≤ claimed') : c.Bounded claimed' max := by
  unfold Call.Bounded at *
  split <;> simp_all only [true_and, and_true] <;> omega

namespace Clients

/-- The slots stored into, followed by the slots every thread still owes. -/
def claims (s : Clients) : List Nat := s.writes.map (·.slot) ++ s.threads.flatMap Call.pending

/-- The slots settled, followed by the slots every thread has stored and not settled. -/
def credit (s : Clients) : List Nat := s.settled ++ s.threads.flatMap Call.held

/-- The claims ledger of a run with fewer than `2^64` claims: no slot claimed or credited twice. -/
structure Ledger (s : Clients) : Prop where
  pool : s.cache.poolIndex = s.cache.claimed
  total : s.cache.totalNodes = s.settled.length % sizeModulus
  claims_nodup : s.claims.Nodup
  claims_below : ∀ x ∈ s.claims, x < s.cache.claimed ∧ x < s.cache.maxNodes
  credit_nodup : s.credit.Nodup
  credit_written : ∀ x ∈ s.credit, x ∈ s.writes.map (·.slot)
  bounded : ∀ c ∈ s.threads, c.Bounded s.cache.claimed s.cache.maxNodes

section
variable {s s' : Clients} {t : Nat} {c c' : Call}

theorem Ledger.thread (ledger : Ledger s) (W : List Write) (S fresh : List Nat)
    (at_t : s.threads[t]? = some c)
    (threads : s'.threads = s.threads.set t c') (writes : s'.writes = s.writes ++ W)
    (settled : s'.settled = s.settled ++ S) (max : s'.cache.maxNodes = s.cache.maxNodes)
    (grow : s.cache.claimed ≤ s'.cache.claimed) (pool : s'.cache.poolIndex = s'.cache.claimed)
    (total : s'.cache.totalNodes = (s.settled ++ S).length % sizeModulus)
    (owed : List.Subperm (W.map (·.slot) ++ c'.pending) (c.pending ++ fresh)) (fresh_nodup : fresh.Nodup)
    (fresh_range : ∀ x ∈ fresh, s.cache.claimed ≤ x ∧ x < s'.cache.claimed ∧ x < s.cache.maxNodes)
    (credited : List.Subperm (S ++ c'.held) (c.held ++ W.map (·.slot)))
    (bounded : c'.Bounded s'.cache.claimed s.cache.maxNodes) : Ledger s' := by
  obtain ⟨A, B, claimsOld, claimsNew⟩ := flatMap_set s.threads Call.pending at_t c'
  obtain ⟨A', B', creditOld, creditNew⟩ := flatMap_set s.threads Call.held at_t c'
  have claimsCount : ∀ x, s'.claims.count x + (W.map (·.slot)).count x ≤
      s.claims.count x + fresh.count x + (W.map (·.slot)).count x ∧
      (s.writes.map (·.slot)).count x + (W.map (·.slot)).count x ≤ s'.claims.count x := fun x => by
    have := owed.count_le x
    simp only [claims, writes, threads, claimsNew, claimsOld, List.map_append, List.count_append]
      at this ⊢
    omega
  have creditCount : ∀ x, s'.credit.count x ≤ s.credit.count x + (W.map (·.slot)).count x :=
    fun x => by
      have := credited.count_le x
      simp only [credit, settled, threads, creditNew, creditOld, List.count_append] at this ⊢
      omega
  have apart : ∀ x ∈ fresh, s.claims.count x = 0 := fun x mem => List.count_eq_zero.mpr
    fun old => by have := (ledger.claims_below x old).1; have := (fresh_range x mem).1; omega
  have claimsNodup : s'.claims.Nodup := List.nodup_iff_count_le_one.mpr fun x => by
    have old := List.nodup_iff_count_le_one.mp ledger.claims_nodup x
    have new := List.nodup_iff_count_le_one.mp fresh_nodup x
    have := (claimsCount x).1
    by_cases mem : x ∈ fresh
    · have := apart x mem; omega
    · have := List.count_eq_zero.mpr mem; omega
  have once : ∀ x, (s.writes.map (·.slot)).count x + (W.map (·.slot)).count x ≤ 1 := fun x =>
    (claimsCount x).2.trans (List.nodup_iff_count_le_one.mp claimsNodup x)
  have written : ∀ x ∈ s.credit, 0 < (s.writes.map (·.slot)).count x := fun x mem =>
    List.count_pos_iff.mpr (ledger.credit_written x mem)
  refine ⟨by rw [pool], by rw [total, settled], claimsNodup, fun x mem => ?_, ?_, fun x mem => ?_,
    fun d mem => ?_⟩
  · have := (claimsCount x).1
    have := List.count_pos_iff.mpr mem
    rw [max]
    by_cases old : x ∈ s.claims
    · have := ledger.claims_below x old; omega
    · rw [List.count_eq_zero.mpr old] at *
      have := fresh_range x (List.count_pos_iff.mp (by omega)); omega
  · refine List.nodup_iff_count_le_one.mpr fun x => ?_
    have := List.nodup_iff_count_le_one.mp ledger.credit_nodup x
    have := creditCount x
    have := once x
    by_cases old : x ∈ s.credit
    · have := written x old; omega
    · have := List.count_eq_zero.mpr old; omega
  · have bound := creditCount x
    have := List.count_pos_iff.mpr mem
    rw [writes, List.map_append, List.mem_append]
    by_cases old : x ∈ s.credit
    · exact .inl (ledger.credit_written x old)
    · rw [List.count_eq_zero.mpr old] at bound
      exact .inr (List.count_pos_iff.mp (by omega))
  · rw [threads] at mem
    rw [max]
    rcases List.mem_or_eq_of_mem_set mem with old | rfl
    · exact (ledger.bounded d old).mono grow
    · exact bounded

theorem Ledger.quiet (ledger : Ledger s) (at_t : s.threads[t]? = some c)
    (threads : s'.threads = s.threads.set t c') (writes : s'.writes = s.writes)
    (settled : s'.settled = s.settled) (max : s'.cache.maxNodes = s.cache.maxNodes)
    (claimed : s'.cache.claimed = s.cache.claimed) (pool : s'.cache.poolIndex = s.cache.poolIndex)
    (total : s'.cache.totalNodes = s.cache.totalNodes) (owed : List.Subperm c'.pending c.pending)
    (credited : List.Subperm c'.held c.held)
    (bounded : c'.Bounded s.cache.claimed s.cache.maxNodes) : Ledger s' :=
  ledger.thread [] [] [] at_t threads (by rw [writes, List.append_nil])
    (by rw [settled, List.append_nil]) max claimed.ge (by rw [pool, claimed, ledger.pool])
    (by rw [total, List.append_nil, ledger.total]) (by simpa using owed) List.nodup_nil
    (fun _ mem => nomatch mem) (by simpa using credited) (by rwa [claimed])

theorem Ledger.insert (ledger : Ledger s) {item : Item} {pc : InsertPc}
    (at_t : s.threads[t]? = some (.insert item pc)) (nowNs : UInt64)
    (unwrapped : (s.advance t nowNs (.insert item pc)).cache.claimed < sizeModulus) :
    Ledger (s.advance t nowNs (.insert item pc)) := by
  cases pc with
  | start =>
    refine ledger.quiet at_t rfl (List.append_nil _) (List.append_nil _) rfl rfl rfl rfl ?_ ?_ ?_ <;>
      simp only [advance, insertStep] <;> split_ifs <;>
      simp [resume, Call.pending, Call.held, Call.Bounded]
  | claim =>
    have pool := ledger.pool
    simp only [advance, insertStep, insertWrites, insertSettles, List.append_nil] at unwrapped ⊢
    have counted : (s.cache.poolIndex + 1) % sizeModulus = s.cache.claimed + 1 := by
      rw [pool]; exact Nat.mod_eq_of_lt unwrapped
    split_ifs with full
    · exact ledger.thread [] [] [] at_t rfl (List.append_nil _).symm (List.append_nil _).symm rfl
        (Nat.le_succ _) counted (by rw [List.append_nil, ledger.total]) List.nil_subperm
        List.nodup_nil (fun _ mem => nomatch mem) List.nil_subperm trivial
    · refine ledger.thread [] [] [s.cache.claimed] at_t rfl (List.append_nil _).symm
        (List.append_nil _).symm rfl (Nat.le_succ _) counted (by rw [List.append_nil, ledger.total])
        (by simp [resume, Call.pending, pool]) (List.nodup_singleton _) ?_ (by simp [resume, Call.held])
        trivial
      · intro x mem
        rw [List.mem_singleton.mp mem]
        simp only [pool] at full
        exact ⟨le_rfl, Nat.lt_succ_self _, by omega⟩
  | write index =>
    exact ledger.thread [⟨index, item.midpoint, item.record nowNs⟩] [] [] at_t rfl rfl rfl rfl
      le_rfl ledger.pool (by rw [List.append_nil]; exact ledger.total) (List.Subperm.refl _)
      List.nodup_nil (fun _ mem => nomatch mem) (List.Subperm.refl _) trivial
  | create index pc =>
    simp only [advance, insertStep, insertWrites, insertSettles, List.append_nil]
    cases (getOrCreateStep item.midpoint (s.cache.maxNodes / 10) s.cache.midpoints pc).2 <;>
      exact ledger.quiet at_t rfl rfl rfl rfl rfl rfl rfl List.nil_subperm
        (by first | exact List.Subperm.refl _ | exact List.nil_subperm) trivial
  | add index bucket pc =>
    simp only [advance, insertStep, insertWrites, insertSettles, List.append_nil]
    cases (pushStep (priorities s.cache.nodePool) index (s.cache.midpoints.heapOf bucket) pc).2 with
    | ret added =>
      cases added <;>
        exact ledger.quiet at_t rfl rfl rfl rfl rfl rfl rfl List.nil_subperm
          (by first | exact List.Subperm.refl _ | exact List.nil_subperm) trivial
    | _ =>
      exact ledger.quiet at_t rfl rfl rfl rfl rfl rfl rfl List.nil_subperm
        (by first | exact List.Subperm.refl _ | exact List.nil_subperm) trivial
  | count index =>
    refine ledger.thread [] [index] [] at_t rfl rfl rfl rfl le_rfl ledger.pool
      ?_ List.nil_subperm List.nodup_nil (fun _ mem => nomatch mem)
      (List.Subperm.refl _) trivial
    show (s.cache.totalNodes + 1) % sizeModulus = _
    rw [ledger.total, List.length_append, List.length_singleton, Nat.mod_add_mod]

theorem Ledger.insertBatch (ledger : Ledger s) {batch : List Item} {pc : BatchPc}
    (at_t : s.threads[t]? = some (.insertBatch batch pc)) (nowNs : UInt64)
    (unwrapped : (s.advance t nowNs (.insertBatch batch pc)).cache.claimed < sizeModulus) :
    Ledger (s.advance t nowNs (.insertBatch batch pc)) := by
  have bounded := ledger.bounded _ (List.getElem?_mem at_t)
  cases pc with
  | start =>
    refine ledger.quiet at_t rfl (List.append_nil _) (List.append_nil _) rfl rfl rfl rfl ?_ ?_ ?_ <;>
      simp only [advance, insertBatchStep] <;> split_ifs <;>
      simp [resume, Call.pending, Call.held, Call.Bounded]
  | claim =>
    have pool := ledger.pool
    simp only [advance, insertBatchStep] at unwrapped ⊢
    have counted : (s.cache.poolIndex + batch.length) % sizeModulus = s.cache.claimed + batch.length := by
      rw [pool]; exact Nat.mod_eq_of_lt unwrapped
    rw [counted]
    split_ifs with over
    · exact ledger.thread [] [] [] at_t rfl rfl rfl rfl (Nat.le_add_right _ _) rfl
        (by rw [List.append_nil, ledger.total]) List.nil_subperm List.nodup_nil
        (fun _ mem => nomatch mem) List.nil_subperm trivial
    · refine ledger.thread [] [] (List.range' s.cache.claimed batch.length) at_t rfl rfl rfl rfl
        (Nat.le_add_right _ _) rfl
        (by rw [List.append_nil, ledger.total])
        (by simp only [resume, Call.pending, pool]; simpa using List.Subperm.refl _)
        (List.nodup_range' _ _) ?_ (by simp [resume, Call.held]) ?_
      · intro x mem
        rw [List.mem_range'_1] at mem
        exact ⟨mem.1, mem.2, by omega⟩
      · exact ⟨Nat.zero_le _, by rw [pool], by rw [pool]; omega⟩
  | write start i =>
    obtain ⟨within, claimedRange, maxRange⟩ := bounded
    cases item? : batch[i]? with
    | none =>
      obtain rfl : i = batch.length := by have := List.getElem?_eq_none_iff.mp item?; omega
      simp only [advance, insertBatchStep, batchWrites, batchSettles, item?, Option.toList,
        List.map_nil, ite_self, List.append_nil]
      exact ledger.quiet at_t rfl rfl rfl rfl rfl rfl rfl (by simp [resume, Call.pending])
        (List.Subperm.refl _) ⟨claimedRange, maxRange⟩
    | some item =>
      have lt : i < batch.length := (List.getElem?_eq_some_iff.mp item?).1
      have slot : (start + i) % sizeModulus = start + i :=
        Nat.mod_eq_of_lt (by have := s.cache.maxNodes_lt; omega)
      have inside : ¬ s.cache.maxNodes ≤ (start + i) % sizeModulus := by rw [slot]; omega
      have owes : List.range' (start + i) (batch.length - i) =
          (start + i) :: List.range' (start + (i + 1)) (batch.length - (i + 1)) := by
        rw [show batch.length - i = batch.length - (i + 1) + 1 by omega, List.range'_succ,
          Nat.add_assoc]
      simp only [advance, insertBatchStep, batchWrites, batchSettles, item?, inside, if_false,
        Option.toList, List.map_cons, List.map_nil, List.append_nil]
      refine ledger.thread [⟨(start + i) % sizeModulus, item.midpoint, item.record nowNs⟩] [] [] at_t
        rfl rfl (List.append_nil _).symm rfl le_rfl ledger.pool
        (by rw [List.append_nil]; exact ledger.total) ?_ List.nodup_nil
        (fun _ mem => nomatch mem) ?_ ⟨lt, claimedRange, maxRange⟩
      · simp only [resume, Call.pending, slot, owes, List.map_cons, List.map_nil, List.singleton_append,
          List.append_nil]
        exact List.Subperm.refl _
      · simp only [resume, Call.held, slot, List.map_cons, List.map_nil, List.nil_append,
          List.range'_concat, Nat.one_mul]
        exact List.Subperm.refl _
  | create start i item pc =>
    simp only [advance, insertBatchStep, batchWrites, batchSettles, List.append_nil]
    cases (getOrCreateStep item.midpoint (s.cache.maxNodes / 10) s.cache.midpoints pc).2 <;>
      exact ledger.quiet at_t rfl rfl rfl rfl rfl rfl rfl
        (by first | exact List.Subperm.refl _ | exact List.nil_subperm)
        (by first | exact List.Subperm.refl _ | exact List.nil_subperm)
        (by first | exact trivial | exact bounded)
  | add start i item bucket pc =>
    simp only [advance, insertBatchStep, batchWrites, batchSettles, List.append_nil]
    cases (pushStep (priorities s.cache.nodePool) ((start + i) % sizeModulus)
      (s.cache.midpoints.heapOf bucket) pc).2 <;>
      exact ledger.quiet at_t rfl rfl rfl rfl rfl rfl rfl
        (by first | exact List.Subperm.refl _ | exact List.nil_subperm)
        (by first | exact List.Subperm.refl _ | exact List.nil_subperm)
        (by first | exact trivial | exact bounded)
  | count start =>
    obtain ⟨claimedRange, maxRange⟩ := bounded
    change s.cache.claimed < sizeModulus at unwrapped
    have settles : batchSettles batch (.count start) = List.range' start batch.length := by
      rw [batchSettles, List.range'_eq_map_range]
      exact List.map_congr_left fun i mem =>
        Nat.mod_eq_of_lt (by have := List.mem_range.mp mem; omega)
    refine ledger.thread [] (List.range' start batch.length) [] at_t rfl rfl
      (by show s.settled ++ _ = _; rw [settles]) rfl le_rfl ledger.pool ?_ List.nil_subperm
      List.nodup_nil (fun _ mem => nomatch mem)
      (by simpa [resume, Call.held, insertBatchStep] using List.Subperm.refl (List.range' start batch.length))
      trivial
    show (s.cache.totalNodes + batch.length) % sizeModulus = _
    rw [ledger.total, List.length_append, List.length_range', Nat.mod_add_mod]

theorem getHighestPriorityStep_counters (midpoint : Key) (nowNs : UInt64) (c : RadialCircularList)
    (pc : RetrievePc) :
    (getHighestPriorityStep midpoint nowNs c pc).1.maxNodes = c.maxNodes ∧
      (getHighestPriorityStep midpoint nowNs c pc).1.claimed = c.claimed ∧
      (getHighestPriorityStep midpoint nowNs c pc).1.poolIndex = c.poolIndex ∧
      (getHighestPriorityStep midpoint nowNs c pc).1.totalNodes = c.totalNodes := by
  cases pc with
  | check bucket slot =>
    simp only [getHighestPriorityStep]
    split_ifs <;> exact ⟨rfl, rfl, rfl, rfl⟩
  | _ => exact ⟨rfl, rfl, rfl, rfl⟩

theorem resume_retrieval (k : Control RetrievePc (Option Nat)) (midpoint : Key) :
    (resume k (.getHighestPriority midpoint)).pending = [] ∧
      (resume k (.getHighestPriority midpoint)).held = [] ∧
      ∀ claimed max, (resume k (.getHighestPriority midpoint)).Bounded claimed max := by
  cases k <;> exact ⟨rfl, rfl, fun _ _ => trivial⟩

theorem resumeBatch_retrieval (k : Control RetrievePc (Option Nat)) (midpoint : Key)
    (pending : List Key) :
    (resumeBatch midpoint pending k).pending = [] ∧ (resumeBatch midpoint pending k).held = [] ∧
      ∀ claimed max, (resumeBatch midpoint pending k).Bounded claimed max := by
  cases k <;> cases pending <;> exact ⟨rfl, rfl, fun _ _ => trivial⟩

theorem Ledger.getHighestPriority (ledger : Ledger s) {midpoint : Key} {pc : RetrievePc}
    (at_t : s.threads[t]? = some (.getHighestPriority midpoint pc)) (nowNs : UInt64) :
    Ledger (s.advance t nowNs (.getHighestPriority midpoint pc)) := by
  obtain ⟨max, claimed, pool, total⟩ := getHighestPriorityStep_counters midpoint nowNs s.cache pc
  obtain ⟨owes, holds, bounded⟩ :=
    resume_retrieval (getHighestPriorityStep midpoint nowNs s.cache pc).2 midpoint
  exact ledger.quiet at_t rfl rfl rfl max claimed pool total (by rw [owes]; exact List.nil_subperm)
    (by rw [holds]; exact List.nil_subperm) (bounded _ _)

theorem Ledger.getHighestPriorityBatch (ledger : Ledger s) {midpoint : Key} {pending : List Key}
    {pc : RetrievePc} (at_t : s.threads[t]? = some (.getHighestPriorityBatch midpoint pending pc))
    (nowNs : UInt64) : Ledger (s.advance t nowNs (.getHighestPriorityBatch midpoint pending pc)) := by
  obtain ⟨max, claimed, pool, total⟩ := getHighestPriorityStep_counters midpoint nowNs s.cache pc
  obtain ⟨owes, holds, bounded⟩ :=
    resumeBatch_retrieval (getHighestPriorityStep midpoint nowNs s.cache pc).2 midpoint pending
  exact ledger.quiet at_t rfl rfl rfl max claimed pool total (by rw [owes]; exact List.nil_subperm)
    (by rw [holds]; exact List.nil_subperm) (bounded _ _)

theorem Ledger.invoke (ledger : Ledger s) (t : Nat) {call : Call} (owes : call.pending = [])
    (holds : call.held = []) (bounded : call.Bounded s.cache.claimed s.cache.maxNodes) :
    Ledger (s.invoke t call) := by
  unfold Clients.invoke
  split_ifs with idle
  · exact ledger.quiet idle rfl rfl rfl rfl rfl rfl rfl (by rw [owes]; exact List.nil_subperm)
      (by rw [holds]; exact List.nil_subperm) bounded
  · exact ledger

theorem Ledger.step (ledger : Ledger s) (a : Act)
    (unwrapped : (step s a).cache.claimed < sizeModulus) : Ledger (step s a) := by
  cases a with
  | insert t item => exact ledger.invoke t rfl rfl trivial
  | insertBatch t batch => exact ledger.invoke t rfl rfl trivial
  | getHighestPriority t midpoint => exact ledger.invoke t rfl rfl trivial
  | getHighestPriorityBatch t midpoints =>
    cases midpoints with
    | nil => exact ledger
    | cons midpoint pending => exact ledger.invoke t rfl rfl trivial
  | tick t nowNs =>
    simp only [Clients.step] at unwrapped ⊢
    cases at_t : s.threads[t]? with
    | none => exact ledger
    | some call =>
      rw [at_t] at unwrapped
      cases call with
      | insert item pc => exact ledger.insert at_t nowNs unwrapped
      | insertBatch batch pc => exact ledger.insertBatch at_t nowNs unwrapped
      | getHighestPriority midpoint pc => exact ledger.getHighestPriority at_t nowNs
      | getHighestPriorityBatch midpoint pending pc => exact ledger.getHighestPriorityBatch at_t nowNs
      | _ => exact ledger

end

end Clients

theorem insertStep_counters (item : Item) (nowNs : UInt64) (c : RadialCircularList) (pc : InsertPc) :
    c.claimed ≤ (insertStep item nowNs c pc).1.claimed ∧
      (insertStep item nowNs c pc).1.maxNodes = c.maxNodes := by
  cases pc <;> simp [insertStep, write]

theorem insertBatchStep_counters (batch : List Item) (nowNs : UInt64) (c : RadialCircularList)
    (pc : BatchPc) :
    c.claimed ≤ (insertBatchStep batch nowNs c pc).1.claimed ∧
      (insertBatchStep batch nowNs c pc).1.maxNodes = c.maxNodes := by
  cases pc with
  | write start i => simp only [insertBatchStep]; split <;> (try split_ifs) <;> simp [write]
  | _ => simp [insertBatchStep]

namespace Clients

theorem step_counters (s : Clients) (a : Act) :
    s.cache.claimed ≤ (step s a).cache.claimed ∧ (step s a).cache.maxNodes = s.cache.maxNodes := by
  have invoked : ∀ t call, (s.invoke t call).cache = s.cache := fun t call => by
    unfold invoke; split_ifs <;> rfl
  cases a with
  | tick t nowNs =>
    simp only [step]
    cases s.threads[t]? with
    | none => exact ⟨le_rfl, rfl⟩
    | some call =>
      cases call with
      | insert item pc => exact insertStep_counters item nowNs s.cache pc
      | insertBatch batch pc => exact insertBatchStep_counters batch nowNs s.cache pc
      | getHighestPriority midpoint pc =>
        obtain ⟨max, claimed, -, -⟩ := getHighestPriorityStep_counters midpoint nowNs s.cache pc
        exact ⟨claimed.ge, max⟩
      | getHighestPriorityBatch midpoint pending pc =>
        obtain ⟨max, claimed, -, -⟩ := getHighestPriorityStep_counters midpoint nowNs s.cache pc
        exact ⟨claimed.ge, max⟩
      | _ => exact ⟨le_rfl, rfl⟩
  | getHighestPriorityBatch t midpoints =>
    cases midpoints <;> simp [step, invoked]
  | _ => simp [step, invoked]

theorem ledger_init (max : Nat) (fits : max < sizeModulus) (numa : Bool) (nowNs : Nat → UInt64)
    (threads : Nat) :
    Ledger (init max fits numa nowNs threads) := by
  have idle : ∀ c ∈ List.replicate threads Call.idle, c = .idle := fun c => List.eq_of_mem_replicate
  refine ⟨rfl, rfl, ?_, ?_, ?_, ?_, fun c mem => by rw [idle c mem]; trivial⟩ <;>
    simp [init, claims, credit, List.flatMap_replicate, Call.pending, Call.held]

theorem ledger_of_reachable {max : Nat} {fits : max < sizeModulus} {numa : Bool}
    {nowNs : Nat → UInt64} {threads : Nat} {s : Clients} (reach : Interleaving.Reachable step (init max fits numa nowNs threads) s) :
    s.cache.claimed < sizeModulus → Ledger s := by
  induction reach with
  | init => exact fun _ => ledger_init max fits numa nowNs threads
  | step a _ ih =>
    exact fun unwrapped => (ih ((step_counters _ a).1.trans_lt unwrapped)).step a unwrapped

theorem maxNodes_of_reachable {max : Nat} {fits : max < sizeModulus} {numa : Bool}
    {nowNs : Nat → UInt64} {threads : Nat} {s : Clients} (reach : Interleaving.Reachable step (init max fits numa nowNs threads) s) :
    s.cache.maxNodes = max := by
  induction reach with
  | init => rfl
  | step a _ ih => rw [(step_counters _ a).2, ih]

end Clients

/-- In every interleaving of client calls that has claimed fewer than `2^64` arena slots, the
stores land in pairwise distinct slots below `max_nodes`, the calls that returned `true` account
for at most `max_nodes` slots, and `total_nodes` is at most `max_nodes`. -/
theorem inserts_claim_distinct_slots {max : Nat} {fits : max < sizeModulus} {numa : Bool} {nowNs : Nat → UInt64}
    {threads : Nat} {s : Clients}
    (reach : Interleaving.Reachable Clients.step (Clients.init max fits numa nowNs threads) s)
    (unwrapped : s.cache.claimed < sizeModulus) :
    (s.writes.map (·.slot)).Nodup ∧ (∀ w ∈ s.writes, w.slot < max) ∧ s.settled.length ≤ max ∧
      s.cache.totalNodes ≤ max := by
  have ledger := Clients.ledger_of_reachable reach unwrapped
  have same := Clients.maxNodes_of_reachable reach
  have distinct : (s.writes.map (·.slot)).Nodup :=
    ledger.claims_nodup.sublist (List.sublist_append_left _ _)
  have below : ∀ x ∈ s.writes.map (·.slot), x < max := fun x mem =>
    same ▸ (ledger.claims_below x (List.mem_append_left _ mem)).2
  have stored : (s.writes.map (·.slot)).length ≤ max := by
    simpa using (distinct.subperm fun x mem => List.mem_range.mpr (below x mem)).length_le
  have settled : s.settled.length ≤ (s.writes.map (·.slot)).length :=
    ((ledger.credit_nodup.sublist (List.sublist_append_left _ _)).subperm fun x mem =>
      ledger.credit_written x (List.mem_append_left _ mem)).length_le
  refine ⟨distinct, fun w mem => below w.slot (List.mem_map_of_mem _ mem), settled.trans stored, ?_⟩
  rw [ledger.total, Nat.mod_eq_of_lt (by omega)]
  omega

/-- An `insert` of "A" claims slot 0 between a batch's capacity test and its claim of slots 1, 2. -/
def insertRace : List Act :=
  [.insert 0 ⟨0, [65], 1, 60000000000⟩,
   .insertBatch 1 [⟨0, [66], 2, 60000000000⟩, ⟨0, [65], 3, 60000000000⟩],
   .tick 0 0, .tick 1 0, .tick 0 0, .tick 1 0] ++
  List.replicate 22 (.tick 1 0) ++ List.replicate 20 (.tick 0 0)

set_option maxRecDepth 20000 in
theorem inserts_claim_distinct_slots_in_race :
    Interleaving.Reachable Clients.step (Clients.init 20 (by decide) false (fun _ => 0) 2)
        ((Clients.init 20 (by decide) false (fun _ => 0) 2).run insertRace) ∧
      ((Clients.init 20 (by decide) false (fun _ => 0) 2).run insertRace).cache.claimed < sizeModulus ∧
      ((((Clients.init 20 (by decide) false (fun _ => 0) 2).run insertRace).writes.map (·.slot)).Nodup ∧
        (∀ w ∈ ((Clients.init 20 (by decide) false (fun _ => 0) 2).run insertRace).writes, w.slot < 20) ∧
        ((Clients.init 20 (by decide) false (fun _ => 0) 2).run insertRace).settled.length ≤ 20 ∧
        ((Clients.init 20 (by decide) false (fun _ => 0) 2).run insertRace).cache.totalNodes ≤ 20) :=
  ⟨Interleaving.reachable_run .init insertRace, by decide,
    inserts_claim_distinct_slots (Interleaving.reachable_run .init insertRace) (by decide)⟩

end RadialCache.RadialCircularList
