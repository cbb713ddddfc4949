import RadialCache.RadialCircularList.Claims
import RadialCache.RadialCircularList.Solo

/-! `RadialCircularList` over `new`ed slots with a single client thread. Between calls the cache is
the one the client's calls leave, run one after another, and a call returns within a number of
steps fixed when it begins, unless a batch claim takes the claimed slots to `2^64`. -/

namespace RadialCache.RadialCircularList

open Interleaving

/-- The call a thread begins for `op`; a batch retrieval of no keys begins none. -/
def Op.begins : Op → Option Call
  | .insert item _ => some (.insert item .start)
  | .insertBatch batch _ => some (.insertBatch batch .start)
  | .getHighestPriority midpoint _ => some (.getHighestPriority midpoint (.find .start))
  | .getHighestPriorityBatch [] _ => none
  | .getHighestPriorityBatch (midpoint :: pending) _ =>
      some (.getHighestPriorityBatch midpoint pending (.find .start))

/-- `[call]` when thread `t` is idle to begin it. -/
def Clients.begins (s : Clients) (t : Nat) (call : Call) : List Call :=
  if s.threads[t]? = some .idle then [call] else []

/-- The call a scheduler choice begins on an idle thread. -/
def started (s : Clients) : Act → List Call
  | .insert t item => s.begins t (.insert item .start)
  | .insertBatch t batch => s.begins t (.insertBatch batch .start)
  | .getHighestPriority t midpoint => s.begins t (.getHighestPriority midpoint (.find .start))
  | .getHighestPriorityBatch _ [] => []
  | .getHighestPriorityBatch t (midpoint :: pending) =>
      s.begins t (.getHighestPriorityBatch midpoint pending (.find .start))
  | .tick .. => []

/-- The calls a schedule begins on idle threads, in order. -/
def begun (s : Clients) : List Act → List Call
  | [] => []
  | a :: rest => started s a ++ begun (s.step a) rest

theorem Clients.claimed_le_run (s : Clients) :
    ∀ acts : List Act, s.cache.claimed ≤ (s.run acts).cache.claimed
  | [] => le_rfl
  | a :: rest => (Clients.step_counters s a).1.trans (Clients.claimed_le_run _ rest)

section Finishes
variable {π ρ : Type} (step : UInt64 → RadialCircularList → π → RadialCircularList × Control π ρ)
  (reads : π → Bool)

/-- The call `called`, begun on `start`, at `pc` on `c`, returns within `fuel` steps as alone. -/
def Finishes (start c : RadialCircularList) (called : Call) (pc : π) (fuel : Nat) : Prop :=
  ∀ clocks : Nat → UInt64, ∃ r, soloBy step reads clocks fuel c pc = some r ∧
    ∃ op : Op, op.begins = some called ∧ start.perform op = some r.1

variable {step reads} {start c c' : RadialCircularList} {called : Call} {pc : π} {fuel : Nat}

theorem not_finishes_zero : ¬ Finishes step reads start c called pc 0 := fun fin =>
  let ⟨_, run, _⟩ := fin fun _ => 0
  nomatch run

theorem Finishes.no_fault (fin : Finishes step reads start c called pc fuel) (t : UInt64) :
    (step t c pc).2 ≠ .fault := fun fault => by
  obtain ⟨r, run, -⟩ := fin fun _ => t
  cases fuel with
  | zero => exact nomatch run
  | succ fuel => rw [soloBy_succ, fault] at run; exact nomatch run

theorem Finishes.ret (fin : Finishes step reads start c called pc fuel) {t : UInt64} {r : ρ}
    (stepped : step t c pc = (c', .ret r)) :
    ∃ op : Op, op.begins = some called ∧ start.perform op = some c' := by
  obtain ⟨r', run, done⟩ := fin fun _ => t
  cases fuel with
  | zero => exact nomatch run
  | succ fuel =>
    rw [soloBy_succ, stepped] at run
    cases run
    exact done

theorem Finishes.next (ignores : ∀ pc, reads pc = false → ∀ t t' c, step t c pc = step t' c pc)
    (fin : Finishes step reads start c called pc (fuel + 1)) {t : UInt64} {pc' : π}
    (stepped : step t c pc = (c', .next pc')) : Finishes step reads start c' called pc' fuel := by
  intro clocks
  cases reading : reads pc
  · obtain ⟨r, run, done⟩ := fin clocks
    rw [soloBy_succ, reading, ignores pc reading _ t, stepped] at run
    exact ⟨r, run, done⟩
  · obtain ⟨r, run, done⟩ := fin fun j => match j with
      | 0 => t
      | j + 1 => clocks j
    rw [soloBy_succ, reading, if_pos rfl, stepped] at run
    exact ⟨r, run, done⟩

end Finishes

/-- An `insert_batch` begun on `start`, not past a claim that takes the claims to `2^64`. -/
def Overclaims (start c : RadialCircularList) (batch : List Item) (called : Call) (pc : BatchPc)
    (fuel : Nat) : Prop :=
  called = .insertBatch batch .start ∧ c = start ∧ sizeModulus ≤ c.claimed + batch.length ∧
    (pc = .start ∧ 2 ≤ fuel ∨ pc = .claim ∧ 1 ≤ fuel)

/-- What is left of the call `called` a lone thread is in, begun on `start`, the cache now `c`. -/
def Resumes (start c : RadialCircularList) (fuel : Nat) (called : Call) : Call → Prop
  | .idle => c = start
  | .insert item pc => Finishes (insertStep item) insertReads start c called pc fuel
  | .insertBatch batch pc =>
      Finishes (insertBatchStep batch) batchReads start c called pc fuel ∨
        Overclaims start c batch called pc fuel
  | .getHighestPriority midpoint pc =>
      Finishes (getHighestPriorityStep midpoint) retrieveReads start c called pc fuel
  | .getHighestPriorityBatch midpoint pending pc =>
      Finishes getHighestPriorityBatchStep batchRetrieveReads start c called (midpoint, pending, pc)
        fuel
  | .fault => False

theorem resumes_zero {start c : RadialCircularList} {called : Call} : ∀ {current : Call},
    Resumes start c 0 called current → current = .idle
  | .idle, _ => rfl
  | .insert .., fin => (not_finishes_zero fin).elim
  | .insertBatch .., fin => by
    rcases fin with fin | ⟨-, -, -, ⟨-, over⟩ | ⟨-, over⟩⟩
    · exact (not_finishes_zero fin).elim
    all_goals omega
  | .getHighestPriority .., fin => (not_finishes_zero fin).elim
  | .getHighestPriorityBatch .., fin => (not_finishes_zero fin).elim
  | .fault, no => no.elim

/-- The call in flight on a thread in `current`: `called`, unless the thread is idle. -/
def inFlight (called : Call) : Call → List Call
  | .idle => []
  | _ => [called]

/-- A lone client in `current`, inside `called` begun on `start`, `fuel` steps from its end. -/
structure Alone (max : Nat) (fits : max < sizeModulus) (nowNs : Nat → UInt64) (s : Clients)
    (asked : List Call) (start : RadialCircularList) (called current : Call) (fuel : Nat) :
    Prop where
  threads : s.threads = [current]
  history : ∃ ops : List Op, ops.filterMap Op.begins ++ inFlight called current = asked ∧
    run call (some (init max fits false nowNs)) ops = some start
  resumes : Resumes start s.cache fuel called current

section Alone
variable {max : Nat} {fits : max < sizeModulus} {nowNs : Nat → UInt64} {s : Clients}
  {asked : List Call} {start : RadialCircularList} {called current : Call} {fuel : Nat}

theorem alone_init :
    Alone max fits nowNs (Clients.init max fits false nowNs 1) [] (init max fits false nowNs) .idle
      .idle 0 :=
  ⟨rfl, ⟨[], rfl, rfl⟩, rfl⟩

theorem history_ret {ops : List Op} (asked' : ops.filterMap Op.begins ++ [called] = asked)
    (ran : run call (some (init max fits false nowNs)) ops = some start) {op : Op}
    (begins : op.begins = some called) {c' : RadialCircularList} (done : start.perform op = some c') :
    ∃ ops' : List Op, ops'.filterMap Op.begins ++ inFlight called .idle = asked ∧
      run call (some (init max fits false nowNs)) ops' = some c' :=
  ⟨ops ++ [op], by simpa [List.filterMap_append, begins, inFlight] using asked',
    by rw [run_append, ran]; exact done⟩

theorem alone_stepped {π ρ : Type}
    {step : UInt64 → RadialCircularList → π → RadialCircularList × Control π ρ} {reads : π → Bool}
    (ignores : ∀ pc, reads pc = false → ∀ t t' c, step t c pc = step t' c pc) (wrap : π → Call)
    (busy : ∀ pc, inFlight called (wrap pc) = [called])
    (resumes : ∀ c pc fuel, Finishes step reads start c called pc fuel →
      Resumes start c fuel called (wrap pc))
    (history : ∃ ops : List Op, ops.filterMap Op.begins ++ [called] = asked ∧
      run call (some (init max fits false nowNs)) ops = some start)
    {c : RadialCircularList} {pc : π} (fin : Finishes step reads start c called pc (fuel + 1))
    {t : UInt64} {s' : Clients} (threads : s'.threads = [resume (step t c pc).2 wrap])
    (cache : s'.cache = (step t c pc).1) :
    ∃ start' called' current', Alone max fits nowNs s' asked start' called' current' fuel := by
  obtain ⟨ops, asked', ran⟩ := history
  rcases stepped : step t c pc with ⟨c', pc' | r | _⟩ <;> rw [stepped] at threads cache
  · exact ⟨start, called, wrap pc', threads, ⟨ops, by rw [busy]; exact asked', ran⟩,
      cache ▸ resumes _ _ _ (fin.next ignores stepped)⟩
  · obtain ⟨op, begins, done⟩ := fin.ret stepped
    exact ⟨c', called, .idle, threads, history_ret asked' ran begins done, cache⟩
  · exact absurd (congrArg Prod.snd stepped) (fin.no_fault t)

theorem alone_overclaims {batch : List Item}
    (history : ∃ ops : List Op, ops.filterMap Op.begins ++ [called] = asked ∧
      run call (some (init max fits false nowNs)) ops = some start)
    {c : RadialCircularList} {pc : BatchPc} (over : Overclaims start c batch called pc (fuel + 1))
    {t : UInt64} {s' : Clients}
    (threads : s'.threads = [resume (insertBatchStep batch t c pc).2 (.insertBatch batch)])
    (cache : s'.cache = (insertBatchStep batch t c pc).1) :
    (∃ start' called' current', Alone max fits nowNs s' asked start' called' current' fuel) ∨
      sizeModulus ≤ s'.cache.claimed := by
  obtain ⟨ops, asked', ran⟩ := history
  obtain ⟨rfl, rfl, wraps, ⟨rfl, two⟩ | ⟨rfl, -⟩⟩ := over
  · simp only [insertBatchStep] at threads cache
    split_ifs at threads with full
    · refine .inl ⟨c, _, .idle, threads,
        history_ret asked' ran
          (show Op.begins (.insertBatch batch fun _ => 0) = some (.insertBatch batch .start) from rfl) ?_,
        cache⟩
      simp [perform, insertBatch_full full]
    · exact .inl ⟨c, _, .insertBatch batch .claim, threads, ⟨ops, asked', ran⟩,
        .inr ⟨rfl, cache, cache ▸ wraps, .inr ⟨rfl, by omega⟩⟩⟩
  · exact .inr (by rw [cache]; exact wraps)

theorem Alone.tick (alone : Alone max fits nowNs s asked start called current fuel) (t : UInt64) :
    (∃ start' called' current',
      Alone max fits nowNs (s.step (.tick 0 t)) asked start' called' current' (fuel - 1)) ∨
      sizeModulus ≤ (s.step (.tick 0 t)).cache.claimed := by
  obtain ⟨threads, history, resumes⟩ := alone
  have set : ∀ x, s.threads.set 0 x = [x] := fun x => by rw [threads]; rfl
  have at_zero : s.threads[0]? = some current := by rw [threads]; rfl
  simp only [Clients.step, at_zero]
  cases fuel with
  | zero =>
    obtain rfl := resumes_zero resumes
    exact .inl ⟨start, called, .idle, threads, history, resumes⟩
  | succ fuel =>
    cases current with
    | idle => exact .inl ⟨start, called, .idle, threads, history, resumes⟩
    | insert item pc =>
      exact .inl (alone_stepped (fun _ => insertStep_ignores item) (.insert item) (fun _ => rfl)
        (fun _ _ _ => id) history resumes (set _) rfl)
    | insertBatch batch pc =>
      rcases resumes with fin | over
      · exact .inl (alone_stepped (fun _ => insertBatchStep_ignores batch) (.insertBatch batch)
          (fun _ => rfl) (fun _ _ _ => .inl) history fin (set _) rfl)
      · exact alone_overclaims history over (set _) rfl
    | getHighestPriority midpoint pc =>
      exact .inl (alone_stepped (fun _ => getHighestPriorityStep_ignores midpoint)
        (.getHighestPriority midpoint) (fun _ => rfl) (fun _ _ _ => id) history resumes (set _) rfl)
    | getHighestPriorityBatch midpoint pending pc =>
      exact .inl (alone_stepped (fun pc quiet t t' c => by
          rw [getHighestPriorityBatchStep, getHighestPriorityBatchStep,
            getHighestPriorityStep_ignores pc.1 quiet t t' c])
        (fun pc => .getHighestPriorityBatch pc.1 pc.2.1 pc.2.2) (fun _ => rfl) (fun _ _ _ => id)
        history resumes ((set _).trans (by rw [resume_getHighestPriorityBatchStep])) rfl)
    | fault => exact resumes.elim

theorem Alone.invoke (alone : Alone max fits nowNs s asked start called current fuel) (t : Nat)
    (begun : Call) (busy : inFlight begun begun = [begun])
    (fresh : Reachable call (some (init max fits false nowNs)) (some s.cache) →
      ∃ fuel', Resumes s.cache s.cache fuel' begun begun) :
    ∃ start' called' current' fuel',
      Alone max fits nowNs (s.invoke t begun) (asked ++ s.begins t begun) start' called' current'
        fuel' := by
  obtain ⟨threads, ⟨ops, asked', ran⟩, resumes⟩ := alone
  unfold Clients.invoke Clients.begins
  split_ifs with idle
  · obtain ⟨rfl, rfl⟩ : t = 0 ∧ current = .idle := by
      rw [threads] at idle
      cases t <;> simp_all
    have same : s.cache = start := resumes
    obtain ⟨fuel', begins⟩ := fresh (same ▸ ran ▸ reachable_run .init ops)
    refine ⟨s.cache, begun, begun, fuel', by rw [threads]; rfl, ⟨ops, ?_, same ▸ ran⟩, begins⟩
    rw [busy, ← asked', inFlight, List.append_nil]
  · exact ⟨start, called, current, fuel, threads, ⟨ops, by rw [List.append_nil]; exact asked', ran⟩,
      resumes⟩

theorem Alone.step (alone : Alone max fits nowNs s asked start called current fuel) (a : Act)
    (unwrapped : (s.step a).cache.claimed < sizeModulus) :
    ∃ start' called' current' fuel',
      Alone max fits nowNs (s.step a) (asked ++ started s a) start' called' current' fuel' := by
  have before := (Clients.step_counters s a).1.trans_lt unwrapped
  have sound := fun reach : Reachable call (some (init max fits false nowNs)) (some s.cache) =>
    sound_of_reachable reach _ rfl before
  have tidy := fun reach : Reachable call (some (init max fits false nowNs)) (some s.cache) =>
    tidy_of_reachable reach _ rfl before
  have distinct := fun reach : Reachable call (some (init max fits false nowNs)) (some s.cache) =>
    distinct_of_reachable reach _ rfl before
  have plain := fun reach : Reachable call (some (init max fits false nowNs)) (some s.cache) =>
    numa_of_reachable reach _ rfl
  cases a with
  | insert t item =>
    exact alone.invoke t _ rfl fun reach => ⟨_, fun clocks =>
      ⟨_, soloBy_insert ((sound reach).ready (tidy reach)) item clocks,
        .insert item (clocks 0), rfl, rfl⟩⟩
  | insertBatch t batch =>
    refine alone.invoke t _ rfl fun reach => ?_
    by_cases fits' : s.cache.claimed + batch.length < sizeModulus
    · refine ⟨batchFuel s.cache batch, .inl fun clocks => ?_⟩
      obtain ⟨r, done⟩ := Option.isSome_iff_exists.mp
        (show (s.cache.insertBatch batch clocks).isSome from
          insertBatch_isSome (by rw [(sound reach).pool]; exact fits'))
      exact ⟨r, soloBy_insertBatch ((sound reach).ready (tidy reach)) done,
        .insertBatch batch clocks, rfl, by simp [perform, done]⟩
    · exact ⟨2, .inr ⟨rfl, rfl, by omega, .inl ⟨rfl, le_rfl⟩⟩⟩
  | getHighestPriority t midpoint =>
    refine alone.invoke t _ rfl fun reach => ⟨retrieveFuel s.cache, fun clocks => ?_⟩
    obtain ⟨c', r, got, -⟩ := (sound reach).retrieves (plain reach) midpoint clocks
    refine ⟨(c', r), ?_, .getHighestPriority midpoint clocks, rfl, by simp [perform, got]⟩
    exact (soloBy_getHighestPriority (sound reach) (tidy reach) (distinct reach) (plain reach)
      midpoint clocks).trans got
  | getHighestPriorityBatch t midpoints =>
    cases midpoints with
    | nil => exact ⟨start, called, current, fuel, by simpa [started] using alone⟩
    | cons midpoint pending =>
      refine alone.invoke t _ rfl fun reach =>
        ⟨(pending.length + 1) * retrieveFuel s.cache, fun clocks => ?_⟩
      obtain ⟨split, r, batch, run⟩ := soloBy_getHighestPriorityBatch pending midpoint clocks
        (sound reach) (tidy reach) (distinct reach) (plain reach)
      exact ⟨(r.1, ()), run, .getHighestPriorityBatch (midpoint :: pending) split, rfl,
        by simp [perform, batch]⟩
  | tick t now =>
    cases t with
    | zero =>
      rcases alone.tick now with ⟨start', called', current', alone'⟩ | past
      · exact ⟨start', called', current', _, by simpa [started] using alone'⟩
      · exact absurd unwrapped (Nat.not_lt_of_le past)
    | succ t =>
      have absent : s.threads[t + 1]? = none := by rw [alone.threads]; rfl
      exact ⟨start, called, current, fuel, by simpa only [Clients.step, absent, started,
        List.append_nil] using alone⟩

theorem Alone.run (alone : Alone max fits nowNs s asked start called current fuel)
    (acts : List Act) (unwrapped : (s.run acts).cache.claimed < sizeModulus) :
    ∃ start' called' current' fuel',
      Alone max fits nowNs (s.run acts) (asked ++ begun s acts) start' called' current' fuel' := by
  induction acts generalizing s asked start called current fuel with
  | nil => exact ⟨start, called, current, fuel, by simpa [begun] using alone⟩
  | cons a rest ih =>
    obtain ⟨start', called', current', fuel', alone'⟩ :=
      alone.step a ((Clients.claimed_le_run _ rest).trans_lt unwrapped)
    rw [begun, ← List.append_assoc]
    exact ih alone' unwrapped

theorem Alone.returns (alone : Alone max fits nowNs s asked start called current fuel) :
    ∀ clocks : List UInt64, fuel ≤ clocks.length →
      (s.run (clocks.map (.tick 0))).threads = [.idle] ∨
        sizeModulus ≤ (s.run (clocks.map (.tick 0))).cache.claimed := by
  intro clocks
  induction clocks generalizing s asked start called current fuel with
  | nil =>
    intro empty
    obtain rfl : fuel = 0 := Nat.le_zero.mp empty
    rw [← resumes_zero alone.resumes]
    exact .inl alone.threads
  | cons t rest ih =>
    intro long
    rcases alone.tick t with ⟨start', called', current', alone'⟩ | past
    · exact ih alone' (by simp only [List.length_cons] at long; omega)
    · exact .inr (past.trans (Clients.claimed_le_run _ _))

end Alone

/-- With a single client over `new`ed slots, whatever the schedule and clocks, while fewer than
`2^64` slots are claimed: no call faults, an idle client's cache is the one its calls leave run in order,
and the call in progress returns within a bounded number of steps or the claims reach `2^64`. -/
theorem one_client_cache_is_sequential (max : Nat) (fits : max < sizeModulus)
    (nowNs : Nat → UInt64) (acts : List Act) (s : Clients)
    (ran : (Clients.init max fits false nowNs 1).run acts = s)
    (unwrapped : s.cache.claimed < sizeModulus) :
    (∀ c ∈ s.threads, c ≠ .fault) ∧
      (s.threads = [.idle] → ∃ ops : List Op,
        ops.filterMap Op.begins = begun (Clients.init max fits false nowNs 1) acts ∧
          run call (some (init max fits false nowNs)) ops = some s.cache) ∧
      ∃ n, ∀ clocks : List UInt64, n ≤ clocks.length →
        (s.run (clocks.map (.tick 0))).threads = [.idle] ∨
          sizeModulus ≤ (s.run (clocks.map (.tick 0))).cache.claimed := by
  subst ran
  obtain ⟨start, called, current, fuel, alone⟩ := alone_init.run acts unwrapped
  refine ⟨?_, fun idle => ?_, fuel, alone.returns⟩
  · intro c mem faulted
    rw [alone.threads, List.mem_singleton] at mem
    subst mem faulted
    exact alone.resumes
  · obtain rfl : current = .idle := List.singleton_inj.mp (alone.threads.symm.trans idle)
    obtain ⟨ops, asked, ran⟩ := alone.history
    refine ⟨ops, by simpa [inFlight] using asked, ?_⟩
    rw [ran, show _ = start from alone.resumes]

/-- A lone client inserts a batch of "A" and "B", then takes two steps of a retrieval of "A". -/
def loneRun : List Act :=
  [.insertBatch 0 [⟨1, [65], 2, 60000000000⟩, ⟨2, [66], 3, 60000000000⟩]] ++
  List.replicate 20 (.tick 0 0) ++ [.getHighestPriority 0 [65], .tick 0 0, .tick 0 0]

/-- The lone client after `loneRun`, over `RadialCircularList(20)`. -/
def loneClients : Clients := (Clients.init 20 (by decide) false (fun _ => 0) 1).run loneRun

set_option maxRecDepth 20000 in
theorem one_client_cache_is_sequential_mid_retrieval :
    (Clients.init 20 (by decide) false (fun _ => 0) 1).run loneRun = loneClients ∧
      loneClients.cache.claimed < sizeModulus ∧
      (∀ c ∈ loneClients.threads, c ≠ .fault) ∧
      (loneClients.threads = [.idle] → ∃ ops : List Op,
        ops.filterMap Op.begins = begun (Clients.init 20 (by decide) false (fun _ => 0) 1) loneRun ∧
          run call (some (init 20 (by decide) false fun _ => 0)) ops = some loneClients.cache) ∧
      ∃ n, ∀ clocks : List UInt64, n ≤ clocks.length →
        (loneClients.run (clocks.map (.tick 0))).threads = [.idle] ∨
          sizeModulus ≤ (loneClients.run (clocks.map (.tick 0))).cache.claimed :=
  ⟨rfl, by decide,
    one_client_cache_is_sequential 20 _ (fun _ => 0) loneRun loneClients rfl (by decide)⟩

end RadialCache.RadialCircularList
