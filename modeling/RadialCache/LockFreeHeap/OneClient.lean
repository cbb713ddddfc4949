import RadialCache.LockFreeHeap.Sequential
import RadialCache.LockFreeHeap.Clients

/-! `LockFreeHeap` with a single client thread. A call that no other thread interrupts computes the
sequential `push` and `pop`, so a lone client never reads a null cell, loses or duplicates no
node, sees the heap laws between its calls, and has each call return. -/

namespace RadialCache.LockFreeHeap

/-! ### Calls run alone -/

section Solo
variable (prio : Nat → Int) (node : Nat)

theorem solo_siftUp (h : LockFreeHeap) {index fuel : Nat} (enough : 4 * index + 2 ≤ fuel) :
    solo (pushStep prio node) fuel h (.siftChild index) = some (siftUp prio h index, true) := by
  induction index using Nat.strong_induction_on generalizing h fuel with
  | _ index ih =>
    obtain ⟨fuel, rfl⟩ : ∃ rest, fuel = rest + 2 := ⟨fuel - 2, by omega⟩
    unfold siftUp
    split
    · next zero => simp [solo, pushStep, zero]
    · next zero =>
      have below := parent_lt zero
      split
      · next c p hc hp =>
        split
        · next le => simp [solo, pushStep, zero, hc, hp, le]
        · next gt =>
          obtain ⟨fuel, rfl⟩ : ∃ rest, fuel = rest + 2 := ⟨fuel - 2, by omega⟩
          simp only [solo, pushStep, zero, hc, hp, gt, if_false, if_true, set_heap_self,
            set_heap_ne _ _ below.ne']
          apply ih _ below
          omega
      · simp only [solo, pushStep, zero, if_false]

theorem solo_push (h : LockFreeHeap) {fuel : Nat} (enough : 4 * h.size + 5 ≤ fuel) :
    solo (pushStep prio node) fuel h .start = some (push prio h node) := by
  obtain ⟨fuel, rfl⟩ : ∃ rest, fuel = rest + 3 := ⟨fuel - 3, by omega⟩
  unfold push
  split
  · next full => simp [solo, pushStep, full]
  · next room =>
    simp only [solo, pushStep, room, if_false, if_true]
    exact solo_siftUp prio node _ (by omega)

variable {prio}

theorem solo_siftBreak {h : LockFreeHeap} {pc : PopPc} {top currentSize index m : Nat}
    (stepped : popStep prio h pc = (h, siftBreak top currentSize index m (h.heap index))) (fuel : Nat) :
    solo (popStep prio) (fuel + 1) h pc =
      if m = index then some (h, some top)
      else solo (popStep prio) fuel h (.siftMax top currentSize index m (h.heap index)) := by
  rw [solo, stepped, siftBreak]
  split_ifs <;> rfl

section Pass
variable {h : LockFreeHeap} {top currentSize index more : Nat} {k : Nat → Option (LockFreeHeap × Option Nat)}
  (onward : ∀ m fuel, more ≤ fuel → index < m → m < currentSize →
    solo (popStep prio) fuel h (.siftMax top currentSize index m (h.heap index)) = k m)
include onward

theorem solo_siftAfterLeft {pc : PopPc} {a : Nat} (left : a = index ∨ (a = 2 * index + 1 ∧ a < currentSize))
    (stepped : popStep prio h pc = (h, siftAfterLeft top currentSize index a (h.heap index)))
    {fuel : Nat} (enough : more + 3 ≤ fuel) :
    solo (popStep prio) fuel h pc =
      (pickRight prio h currentSize index a).bind fun m => if m = index then some (h, some top) else k m := by
  obtain ⟨fuel, rfl⟩ : ∃ rest, fuel = rest + 3 := ⟨fuel - 3, by omega⟩
  unfold siftAfterLeft at stepped
  unfold pickRight
  split at stepped
  · next right =>
    rw [if_pos right, solo_next stepped]
    rcases hr : h.heap (2 * index + 2) with _ | r
    · have stop : popStep prio h (.siftRight top currentSize index a (h.heap index)) =
          (h, siftBreak top currentSize index a (h.heap index)) := by simp only [popStep, hr]
      rw [solo_siftBreak stop, Option.some_bind]
      split_ifs
      · rfl
      · apply onward <;> omega
    · have load : popStep prio h (.siftRight top currentSize index a (h.heap index)) =
          (h, .next (.siftRightMax top currentSize index a (h.heap index) r)) := by
          simp only [popStep, hr]
      rw [solo_next load]
      rcases hm : h.heap a with _ | m
      · simp [solo, popStep, hm]
      · have stop : popStep prio h (.siftRightMax top currentSize index a (h.heap index) r) =
            (h, siftBreak top currentSize index (if prio m < prio r then 2 * index + 2 else a)
              (h.heap index)) := by simp only [popStep, hm]
        rw [solo_siftBreak stop, Option.some_bind]
        split_ifs <;> first | rfl | (apply onward <;> omega)
  · next right =>
    rw [if_neg right, solo_siftBreak stepped, Option.some_bind]
    split
    · rfl
    · apply onward <;> omega

theorem solo_siftPass {fuel : Nat} (enough : more + 4 ≤ fuel) :
    solo (popStep prio) fuel h (.siftCurrent top currentSize index) =
      (maxIndexOf prio h currentSize index).bind fun m =>
        if m = index then some (h, some top) else k m := by
  obtain ⟨fuel, rfl⟩ : ∃ rest, fuel = rest + 1 := ⟨fuel - 1, by omega⟩
  unfold maxIndexOf pickLeft
  by_cases left : 2 * index + 1 < currentSize
  · have load : popStep prio h (.siftCurrent top currentSize index) =
        (h, .next (.siftLeft top currentSize index (h.heap index))) := by
        simp only [popStep, left, if_true]
    rw [solo_next load, if_pos left]
    rcases hl : h.heap (2 * index + 1) with _ | l
    · refine solo_siftAfterLeft onward (.inl rfl) ?_ (by omega)
      simp only [popStep, hl]
    · rcases hi : h.heap index with _ | c
      · obtain ⟨fuel, rfl⟩ : ∃ rest, fuel = rest + 1 := ⟨fuel - 1, by omega⟩
        simp [solo, popStep, hl, hi]
      · refine solo_siftAfterLeft onward ?_ ?_ (by omega)
        · split_ifs <;> omega
        · simp only [popStep, hl, hi]
  · have stop : popStep prio h (.siftCurrent top currentSize index) = (h, .ret (some top)) := by
      simp only [popStep, left, if_false]
    have right : ¬ 2 * index + 2 < currentSize := by omega
    simp [solo_ret stop, left, pickRight, right]

end Pass

theorem solo_siftDown (top currentSize : Nat) (h : LockFreeHeap) (index : Nat) {fuel : Nat}
    (enough : 7 * (currentSize - index) + 5 ≤ fuel) :
    solo (popStep prio) fuel h (.siftCurrent top currentSize index) =
      (siftDown prio h currentSize index).map (·, some top) := by
  rw [solo_siftPass
    (k := fun m => (siftDown prio ((h.set index (h.heap m)).set m (h.heap index)) currentSize m).map
      (·, some top)) ?onward (show 7 * (currentSize - index) + 1 + 4 ≤ fuel by omega), siftDown_eq]
  · split
    · next found => rw [found]; rfl
    · next m found =>
      rw [found, Option.some_bind]
      split_ifs <;> rfl
  · intro m fuel more below inRange
    obtain ⟨fuel, rfl⟩ : ∃ rest, fuel = rest + 3 := ⟨fuel - 3, by omega⟩
    have ne : m ≠ index := by omega
    simp only [solo, popStep, if_true, set_heap_self, set_heap_ne _ _ ne]
    exact solo_siftDown top currentSize _ m (by omega)
termination_by currentSize - index


theorem solo_spin {h : LockFreeHeap} (nonempty : h.size ≠ 0) (null : h.heap 0 = none) :
    ∀ fuel, solo (popStep prio) fuel h .start = none
  | 0 => rfl
  | 1 => by simp [solo, popStep, nonempty]
  | fuel + 2 => by
    simp only [solo, popStep, nonempty, null, if_false]
    exact solo_spin nonempty null fuel

theorem solo_pop (h : LockFreeHeap) {fuel : Nat} (enough : 7 * h.size + 5 ≤ fuel) :
    solo (popStep prio) fuel h .start = pop prio h := by
  unfold pop
  split
  · next empty =>
    obtain ⟨fuel, rfl⟩ : ∃ rest, fuel = rest + 1 := ⟨fuel - 1, by omega⟩
    simp [solo, popStep, empty]
  · next nonempty =>
    split
    · next null => exact solo_spin nonempty null fuel
    · next top found =>
      obtain ⟨fuel, rfl⟩ : ∃ rest, fuel = rest + 6 := ⟨fuel - 6, by omega⟩
      split
      · next many =>
        simp only [solo, popStep, nonempty, found, many, if_true, if_false]
        exact solo_siftDown top _ _ 0 (by simp; omega)
      · next single => simp [solo, popStep, nonempty, found, single]

end Solo

/-! ### A lone client -/

open Interleaving Clients

/-- The calls `ops` made one after another from `h`, with the push and pop logs of `Clients`. -/
def calls (prio : Nat → Int) :
    List Op → LockFreeHeap → List Nat → List Nat → Option (LockFreeHeap × List Nat × List Nat)
  | [], h, pushed, popped => some (h, pushed, popped)
  | .push node :: rest, h, pushed, popped =>
      calls prio rest (push prio h node).1
        (if (push prio h node).2 then pushed ++ [node] else pushed) popped
  | .pop :: rest, h, pushed, popped =>
      (pop prio h).bind fun r => calls prio rest r.1 pushed (popped ++ r.2.toList)

theorem calls_append (prio : Nat → Int) (more : List Op) :
    ∀ (done : List Op) (h : LockFreeHeap) (pushed popped : List Nat),
      calls prio (done ++ more) h pushed popped =
        (calls prio done h pushed popped).bind fun r => calls prio more r.1 r.2.1 r.2.2
  | [], _, _, _ => rfl
  | .push node :: rest, h, pushed, popped => calls_append prio more rest _ _ _
  | .pop :: rest, h, pushed, popped => by
    show (pop prio h).bind _ = ((pop prio h).bind _).bind _
    rw [Option.bind_assoc]
    exact congrArg _ (funext fun r => calls_append prio more rest _ _ _)

/-- The call a scheduler choice begins on an idle thread. -/
def started (s : Clients) : Act → List Op
  | .push t node => if s.threads[t]? = some .idle then [.push node] else []
  | .pop t => if s.threads[t]? = some .idle then [.pop] else []
  | .tick _ => []

/-- The calls a schedule begins on idle threads, in order. -/
def begun (prio : Nat → Int) (s : Clients) : List Act → List Op
  | [] => []
  | a :: rest => started s a ++ begun prio (s.step prio a) rest

/-- The call in flight on a thread in `call`. -/
def inFlight : Call → List Op
  | .idle => []
  | .push node _ => [.push node]
  | .pop _ => [.pop]
  | .fault => []

section
variable (prio : Nat → Int)

theorem push_kept {start : LockFreeHeap} (valid : Valid prio start) (node : Nat) {popped pushed : List Nat}
    (kept : (popped ++ live start).Perm pushed) :
    Valid prio (push prio start node).1 ∧ (push prio start node).1.capacity = start.capacity ∧
      (popped ++ live (push prio start node).1).Perm
        (if (push prio start node).2 then pushed ++ [node] else pushed) := by
  by_cases full : start.capacity ≤ start.size
  · simpa [push_full node full] using ⟨valid, kept⟩
  · obtain ⟨h', pushed', valid', -, cap, perm⟩ := push_room valid (Nat.lt_of_not_le full) node
    rw [pushed']
    refine ⟨valid', cap, ?_⟩
    calc List.Perm (popped ++ live h') (popped ++ node :: live start) := perm.append_left popped
      List.Perm _ (node :: (popped ++ live start)) := List.perm_middle
      List.Perm _ (node :: pushed) := kept.cons node
      List.Perm _ (pushed ++ [node]) := (List.perm_append_singleton node pushed).symm

theorem pop_kept {start : LockFreeHeap} (valid : Valid prio start) {popped pushed : List Nat}
    (kept : (popped ++ live start).Perm pushed) :
    ∃ r, pop prio start = some r ∧ Valid prio r.1 ∧ r.1.capacity = start.capacity ∧
      (popped ++ r.2.toList ++ live r.1).Perm pushed := by
  by_cases empty : start.size = 0
  · exact ⟨_, pop_empty empty, by simpa using ⟨valid, kept⟩⟩
  · obtain ⟨h', top, popped', valid', -, cap, perm, -⟩ := pop_spec valid empty
    refine ⟨_, popped', valid', cap, ?_⟩
    calc popped ++ [top] ++ live h' = popped ++ top :: live h' := by simp
      List.Perm _ (popped ++ live start) := perm.symm.append_left popped
      List.Perm _ pushed := kept

/-- The client's call on `h` ends as the sequential call from `start` within `fuel` steps. -/
def Resumes (start h : LockFreeHeap) (fuel : Nat) : Call → Prop
  | .idle => h = start
  | .push node pc => solo (pushStep prio node) fuel h pc = some (push prio start node)
  | .pop pc => solo (popStep prio) fuel h pc = pop prio start
  | .fault => False

/-- The state of a heap whose only client is in `call`, begun on the heap `start`. -/
structure Alone (capacity : Nat) (s : Clients) (asked : List Op) (start : LockFreeHeap)
    (call : Call) (fuel : Nat) : Prop where
  threads : s.threads = [call]
  valid : Valid prio start
  cap : start.capacity = capacity
  kept : (s.popped ++ live start).Perm s.pushed
  history : ∃ done, done ++ inFlight call = asked ∧
    calls prio done (init capacity) [] [] = some (start, s.pushed, s.popped)
  bounded : fuel ≤ 7 * capacity + 5
  resumes : Resumes prio start s.heap fuel call

variable {prio} {capacity : Nat} {s : Clients} {asked : List Op} {start : LockFreeHeap}
  {call : Call} {fuel : Nat}

theorem alone_init (capacity : Nat) :
    Alone prio capacity (Clients.init capacity 1) [] (init capacity) .idle 0 where
  threads := rfl
  valid := valid_init capacity
  cap := rfl
  kept := List.Perm.refl []
  history := ⟨[], rfl, rfl⟩
  bounded := Nat.zero_le _
  resumes := rfl

theorem Alone.idle (alone : Alone prio capacity s asked start call 0) : call = .idle := by
  have resumes := alone.resumes
  cases call with
  | idle => rfl
  | push node pc => cases resumes
  | pop pc =>
    obtain ⟨r, popped, -⟩ := pop_kept prio alone.valid alone.kept
    simp [Resumes, popped, solo] at resumes
  | fault => exact resumes.elim

theorem step_tick_idle (threads : s.threads = [.idle]) (t : Nat) : s.step prio (.tick t) = s := by
  rcases t with _ | t <;> simp only [Clients.step, threads] <;> rfl

theorem history_ret {done : List Op} {op : Op} (asked' : done ++ [op] = asked)
    (ran : calls prio done (init capacity) [] [] = some (start, s.pushed, s.popped))
    {r : LockFreeHeap × List Nat × List Nat} (last : calls prio [op] start s.pushed s.popped = some r) :
    ∃ done', done' ++ inFlight .idle = asked ∧ calls prio done' (init capacity) [] [] = some r :=
  ⟨done ++ [op], by rw [inFlight, List.append_nil, asked'], by rw [calls_append, ran]; exact last⟩

theorem Alone.tick (alone : Alone prio capacity s asked start call (fuel + 1)) :
    ∃ start' call', Alone prio capacity (s.step prio (.tick 0)) asked start' call' fuel := by
  have resumes := alone.resumes
  have bounded : fuel ≤ 7 * capacity + 5 := Nat.le_of_succ_le alone.bounded
  obtain ⟨done, asked', ran⟩ := alone.history
  cases call with
  | idle =>
    rw [step_tick_idle alone.threads]
    exact ⟨start, .idle, { alone with bounded, resumes }⟩
  | push node pc =>
    rcases solo_first resumes with ⟨h', pc', stepped, rest⟩ | stepped
    · exact ⟨start, .push node pc', by
        simpa [Clients.step, alone.threads, stepped, Clients.afterPush] using
          ({ alone with threads := rfl, history := ⟨done, asked', ran⟩, bounded, resumes := rest } :
            Alone prio capacity { s with heap := h', threads := [.push node pc'] } asked start _ fuel)⟩
    · obtain ⟨valid, cap, kept⟩ := push_kept prio alone.valid node alone.kept
      refine ⟨(push prio start node).1, .idle, ?_⟩
      simp only [Clients.step, alone.threads, List.getElem?_cons_zero, stepped, Clients.afterPush]
      exact ⟨rfl, valid, cap.trans alone.cap, kept, history_ret asked' ran rfl, bounded, rfl⟩
  | pop pc =>
    obtain ⟨r, popped, valid, cap, kept⟩ := pop_kept prio alone.valid alone.kept
    have run : solo (popStep prio) (fuel + 1) s.heap pc = some r :=
      (show solo _ _ _ _ = pop prio start from resumes).trans popped
    rcases solo_first run with ⟨h', pc', stepped, rest⟩ | stepped
    · exact ⟨start, .pop pc', by
        simpa [Clients.step, alone.threads, stepped, Clients.afterPop] using
          ({ alone with
              threads := rfl, history := ⟨done, asked', ran⟩, bounded,
              resumes := rest.trans popped.symm } :
            Alone prio capacity { s with heap := h', threads := [.pop pc'] } asked start _ fuel)⟩
    · refine ⟨r.1, .idle, ?_⟩
      simp only [Clients.step, alone.threads, List.getElem?_cons_zero, stepped, Clients.afterPop]
      exact ⟨rfl, valid, cap.trans alone.cap, kept,
        history_ret asked' ran (by simp [calls, popped]), bounded, rfl⟩
  | fault => exact resumes.elim

theorem Alone.step (alone : Alone prio capacity s asked start call fuel) (a : Act) :
    ∃ start' call' fuel',
      Alone prio capacity (s.step prio a) (asked ++ started s a) start' call' fuel' := by
  have room : start.size ≤ capacity := alone.cap ▸ alone.valid.bounded
  have began : ∀ {t : Nat}, s.threads[t]? = some .idle → t = 0 ∧ s.heap = start ∧
      ∃ done, done = asked ∧ calls prio done (init capacity) [] [] = some (start, s.pushed, s.popped) :=
    fun {t} idle => by
      rw [alone.threads] at idle
      rcases t with _ | t
      · obtain rfl : call = .idle := by simpa using idle
        obtain ⟨done, asked', ran⟩ := alone.history
        exact ⟨rfl, alone.resumes, done, by simpa [inFlight] using asked', ran⟩
      · cases idle
  cases a with
  | push t node =>
    by_cases idle : s.threads[t]? = some .idle
    · obtain ⟨rfl, same, done, rfl, ran⟩ := began idle
      refine ⟨start, .push node .start, 4 * start.size + 5, ?_⟩
      simp only [Clients.step, started, idle, if_true]
      exact { alone with
        threads := by simp [alone.threads]
        history := ⟨done, rfl, ran⟩
        bounded := by omega
        resumes := same ▸ solo_push prio node start le_rfl }
    · simp only [Clients.step, started, idle, if_false, List.append_nil]
      exact ⟨_, _, _, alone⟩
  | pop t =>
    by_cases idle : s.threads[t]? = some .idle
    · obtain ⟨rfl, same, done, rfl, ran⟩ := began idle
      refine ⟨start, .pop .start, 7 * start.size + 5, ?_⟩
      simp only [Clients.step, started, idle, if_true]
      exact { alone with
        threads := by simp [alone.threads]
        history := ⟨done, rfl, ran⟩
        bounded := by omega
        resumes := same ▸ solo_pop start le_rfl }
    · simp only [Clients.step, started, idle, if_false, List.append_nil]
      exact ⟨_, _, _, alone⟩
  | tick t =>
    rw [started, List.append_nil]
    rcases t with _ | t
    · rcases fuel with _ | fuel
      · obtain rfl := alone.idle
        rw [step_tick_idle alone.threads]
        exact ⟨_, _, _, alone⟩
      · obtain ⟨start', call', next⟩ := alone.tick
        exact ⟨_, _, _, next⟩
    · have still : s.step prio (.tick (t + 1)) = s := by simp only [Clients.step, alone.threads]; rfl
      rw [still]
      exact ⟨_, _, _, alone⟩

theorem Alone.run (alone : Alone prio capacity s asked start call fuel) (acts : List Act) :
    ∃ start' call' fuel',
      Alone prio capacity (Clients.run prio s acts) (asked ++ begun prio s acts) start' call' fuel' := by
  induction acts generalizing s asked start call fuel with
  | nil => exact ⟨start, call, fuel, by simpa [begun] using alone⟩
  | cons a rest ih =>
    obtain ⟨start', call', fuel', alone'⟩ := alone.step a
    rw [begun, ← List.append_assoc]
    exact ih alone'

theorem Alone.returns (alone : Alone prio capacity s asked start call fuel) {n : Nat}
    (enough : fuel ≤ n) : Quiescent (Clients.run prio s (ticks 0 n)) := by
  induction n generalizing s start call fuel with
  | zero =>
    obtain rfl : fuel = 0 := by omega
    obtain rfl := alone.idle
    simp [Quiescent, Clients.run, ticks, alone.threads]
  | succ n ih =>
    show Quiescent (Clients.run prio (s.step prio (.tick 0)) (ticks 0 n))
    rcases fuel with _ | fuel
    · obtain rfl := alone.idle
      rw [step_tick_idle alone.threads]
      exact ih alone (Nat.zero_le n)
    · obtain ⟨start', call', next⟩ := alone.tick
      exact ih next (by omega)

end

/-- With a single client, whatever the schedule, the heap behaves as the sequential one: no null
read, no node lost or duplicated, the laws and the sequential logs between calls, every call
returning within `7 * capacity + 5` steps, and `push` and `pop` computing the sequential calls. -/
theorem one_client_heap_behaves_sequentially (prio : Nat → Int) (capacity : Nat) (acts : List Act)
    (s : Clients) (ran : Clients.run prio (Clients.init capacity 1) acts = s) :
    NullSafe s ∧ Conserving s ∧ (Quiescent s → Laws prio capacity s.heap) ∧
      (Quiescent s → calls prio (begun prio (Clients.init capacity 1) acts) (init capacity) [] [] =
        some (s.heap, s.pushed, s.popped)) ∧
      Quiescent (Clients.run prio s (ticks 0 (7 * capacity + 5))) ∧
      (∀ (h : LockFreeHeap) (node fuel : Nat), 4 * h.size + 5 ≤ fuel →
        solo (pushStep prio node) fuel h .start = some (push prio h node)) ∧
      ∀ (h : LockFreeHeap) (fuel : Nat), 7 * h.size + 5 ≤ fuel →
        solo (popStep prio) fuel h .start = pop prio h := by
  subst ran
  obtain ⟨start, call, fuel, alone⟩ := (@alone_init prio capacity).run acts
  rw [List.nil_append] at alone
  have idle : Quiescent (Clients.run prio (Clients.init capacity 1) acts) → call = .idle :=
    fun quiet => quiet call (by simp [alone.threads])
  refine ⟨?_, ⟨fun n => ?_, fun quiet => ?_⟩, fun quiet => ?_, fun quiet => ?_,
    alone.returns alone.bounded, fun h node _ enough => solo_push prio node h enough,
    fun h _ enough => solo_pop h enough⟩
  · intro c mem faulted
    rw [alone.threads, List.mem_singleton] at mem
    subst mem faulted
    exact alone.resumes
  · rw [← alone.kept.count_eq, List.count_append]
    omega
  · obtain rfl := idle quiet
    exact (show _ = start from alone.resumes) ▸ alone.kept
  · obtain rfl := idle quiet
    exact (show _ = start from alone.resumes) ▸ alone.valid.laws alone.cap
  · obtain rfl := idle quiet
    obtain ⟨done, asked, ran⟩ := alone.history
    rw [show _ = start from alone.resumes, ← ran, ← asked, inFlight, List.append_nil]

/-- A lone client pushes 5 and 7, then pops. -/
def pushPushPop : List Act :=
  [.push 0 5] ++ ticks 0 7 ++ [.push 0 7] ++ ticks 0 10 ++ [.pop 0] ++ ticks 0 12

theorem one_client_heap_behaves_sequentially_push_push_pop :
    NullSafe (Clients.run (fun n => n) (Clients.init 2 1) pushPushPop) ∧
      Conserving (Clients.run (fun n => n) (Clients.init 2 1) pushPushPop) ∧
      (Quiescent (Clients.run (fun n => n) (Clients.init 2 1) pushPushPop) →
        Laws (fun n => n) 2 (Clients.run (fun n => n) (Clients.init 2 1) pushPushPop).heap) ∧
      (Quiescent (Clients.run (fun n => n) (Clients.init 2 1) pushPushPop) →
        calls (fun n => n) (begun (fun n => n) (Clients.init 2 1) pushPushPop) (init 2) [] [] =
          some ((Clients.run (fun n => n) (Clients.init 2 1) pushPushPop).heap,
            (Clients.run (fun n => n) (Clients.init 2 1) pushPushPop).pushed,
            (Clients.run (fun n => n) (Clients.init 2 1) pushPushPop).popped)) ∧
      Quiescent (Clients.run (fun n => n) (Clients.run (fun n => n) (Clients.init 2 1) pushPushPop)
        (ticks 0 (7 * 2 + 5))) ∧
      (∀ (h : LockFreeHeap) (node fuel : Nat), 4 * h.size + 5 ≤ fuel →
        solo (pushStep (fun n => n) node) fuel h .start = some (push (fun n => n) h node)) ∧
      ∀ (h : LockFreeHeap) (fuel : Nat), 7 * h.size + 5 ≤ fuel →
        solo (popStep fun n => n) fuel h .start = pop (fun n => n) h :=
  one_client_heap_behaves_sequentially (fun n => n) 2 pushPushPop _ rfl

end RadialCache.LockFreeHeap
