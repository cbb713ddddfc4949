import RadialCache.LockFreeHeap.Clients

/-! What holds of a `LockFreeHeap` in every interleaving of `push` and `pop`, although nodes can be
lost and duplicated and `sift_down` can read a null cell: every access lies below `capacity`,
and every node comes from a `push`. -/

namespace RadialCache.LockFreeHeap

open Interleaving Clients

/-! ### Every access lies within `capacity` -/

/-- The cells the next step of a `push` point touches. -/
def PushPc.cells : PushPc → List Nat
  | .start => []
  | .reserve _ => []
  | .store currentSize => [currentSize]
  | .siftChild index => if index = 0 then [] else [index]
  | .siftParent index _ => [parent index]
  | .swapParent index _ _ => [parent index]
  | .swapChild index _ _ => [index]

/-- The cells the next step of a `pop` point touches. -/
def PopPc.cells : PopPc → List Nat
  | .start => []
  | .loadTop _ => [0]
  | .reserve _ _ => []
  | .takeLast currentSize _ => [currentSize - 1]
  | .storeLast _ _ => [0]
  | .siftSize _ => []
  | .siftCurrent _ _ index => [index]
  | .siftLeft _ _ index _ => [2 * index + 1]
  | .siftRight _ _ index _ _ => [2 * index + 2]
  | .siftRightMax _ _ _ maxIndex _ _ => [maxIndex]
  | .siftMax _ _ _ maxIndex _ => [maxIndex]
  | .swapIndex _ _ index _ _ _ => [index]
  | .swapMax _ _ _ maxIndex _ _ => [maxIndex]

/-- The cells the next step of a thread touches. -/
def Call.cells : Call → List Nat
  | .push _ pc => pc.cells
  | .pop pc => pc.cells
  | _ => []

/-- A `push` point's reserved cell and `sift_up` index lie below `capacity`. -/
def PushPc.Bounded (capacity : Nat) : PushPc → Prop
  | .start => True
  | .reserve currentSize => currentSize < capacity
  | .store currentSize => currentSize < capacity
  | .siftChild index => index < capacity
  | .siftParent index _ => index < capacity
  | .swapParent index _ _ => index < capacity
  | .swapChild index _ _ => index < capacity

/-- A `pop` point's indices lie within `capacity`, and its children below the size it tested. -/
def PopPc.Bounded (capacity : Nat) : PopPc → Prop
  | .start => True
  | .loadTop currentSize => 0 < currentSize ∧ currentSize ≤ capacity
  | .reserve currentSize _ => 0 < currentSize ∧ currentSize ≤ capacity
  | .takeLast currentSize _ => 0 < currentSize ∧ currentSize ≤ capacity
  | .storeLast _ _ => 0 < capacity
  | .siftSize _ => 0 < capacity
  | .siftCurrent _ currentSize index => currentSize ≤ capacity ∧ index < capacity
  | .siftLeft _ currentSize index _ => currentSize ≤ capacity ∧ 2 * index + 1 < currentSize
  | .siftRight _ currentSize index maxIndex _ =>
      currentSize ≤ capacity ∧ 2 * index + 2 < currentSize ∧ maxIndex < capacity
  | .siftRightMax _ currentSize index maxIndex _ _ =>
      currentSize ≤ capacity ∧ 2 * index + 2 < currentSize ∧ maxIndex < capacity
  | .siftMax _ currentSize index maxIndex _ =>
      currentSize ≤ capacity ∧ index < capacity ∧ maxIndex < capacity
  | .swapIndex _ currentSize index maxIndex _ _ =>
      currentSize ≤ capacity ∧ index < capacity ∧ maxIndex < capacity
  | .swapMax _ currentSize index maxIndex _ _ =>
      currentSize ≤ capacity ∧ index < capacity ∧ maxIndex < capacity

def Call.Bounded (capacity : Nat) : Call → Prop
  | .push _ pc => pc.Bounded capacity
  | .pop pc => pc.Bounded capacity
  | _ => True

theorem PushPc.Bounded.cells {capacity : Nat} {pc : PushPc} (bounded : pc.Bounded capacity) :
    ∀ i ∈ pc.cells, i < capacity := by
  have below : ∀ index, parent index ≤ index := fun index => by unfold parent; omega
  intro i mem
  cases pc <;> simp only [PushPc.cells, PushPc.Bounded, List.mem_singleton, List.not_mem_nil] at bounded mem
  case siftChild index => split_ifs at mem <;> simp_all
  all_goals subst mem; first | exact bounded | exact Nat.lt_of_le_of_lt (below _) bounded

theorem PopPc.Bounded.cells {capacity : Nat} {pc : PopPc} (bounded : pc.Bounded capacity) :
    ∀ i ∈ pc.cells, i < capacity := by
  intro i mem
  cases pc <;> simp only [PopPc.cells, PopPc.Bounded, List.mem_singleton, List.not_mem_nil] at bounded mem <;>
    omega

theorem siftBreak_bounded {capacity top currentSize index maxIndex : Nat} {current : Option Nat}
    (sized : currentSize ≤ capacity) (indexed : index < capacity) (maxed : maxIndex < capacity) :
    ∀ pc, siftBreak top currentSize index maxIndex current = .next pc → pc.Bounded capacity := by
  intro pc next
  unfold siftBreak at next
  split_ifs at next
  cases next
  exact ⟨sized, indexed, maxed⟩

@[simp] theorem pushStep_capacity (prio : Nat → Int) (node : Nat) (h : LockFreeHeap) (pc : PushPc) :
    (pushStep prio node h pc).1.capacity = h.capacity := by
  cases pc <;> simp only [pushStep] <;> (repeat' split) <;> rfl

@[simp] theorem popStep_capacity (prio : Nat → Int) (h : LockFreeHeap) (pc : PopPc) :
    (popStep prio h pc).1.capacity = h.capacity := by
  cases pc <;> simp only [popStep] <;> (repeat' split) <;> rfl

theorem pushStep_bounded (prio : Nat → Int) (node : Nat) {h : LockFreeHeap} {pc : PushPc}
    (sized : h.size ≤ h.capacity) (bounded : pc.Bounded h.capacity) :
    (pushStep prio node h pc).1.size ≤ h.capacity ∧
      ∀ pc', (pushStep prio node h pc).2 = .next pc' → pc'.Bounded h.capacity := by
  have below : ∀ index, parent index ≤ index := fun index => by unfold parent; omega
  cases pc with
  | start =>
    simp only [pushStep]
    split_ifs with full
    · exact ⟨sized, fun _ next => nomatch next⟩
    · exact ⟨sized, fun pc' next => by cases next; exact Nat.lt_of_not_le full⟩
  | reserve currentSize =>
    simp only [pushStep]
    split_ifs
    · exact ⟨bounded, fun pc' next => by cases next; exact bounded⟩
    · exact ⟨sized, fun pc' next => by cases next; trivial⟩
  | store currentSize => exact ⟨sized, fun pc' next => by cases next; exact bounded⟩
  | siftChild index =>
    simp only [pushStep]
    split_ifs
    · exact ⟨sized, fun _ next => nomatch next⟩
    · exact ⟨sized, fun pc' next => by cases next; exact bounded⟩
  | siftParent index child =>
    simp only [pushStep]
    split
    · split_ifs
      · exact ⟨sized, fun _ next => nomatch next⟩
      · exact ⟨sized, fun pc' next => by cases next; exact bounded⟩
    · exact ⟨sized, fun _ next => nomatch next⟩
  | swapParent index c p =>
    simp only [pushStep]
    split_ifs
    · exact ⟨sized, fun pc' next => by cases next; exact bounded⟩
    · exact ⟨sized, fun _ next => nomatch next⟩
  | swapChild index c p =>
    simp only [pushStep]
    split_ifs
    · exact ⟨sized, fun pc' next => by cases next; exact Nat.lt_of_le_of_lt (below _) bounded⟩
    · exact ⟨sized, fun _ next => nomatch next⟩

theorem popStep_bounded (prio : Nat → Int) {h : LockFreeHeap} {pc : PopPc}
    (sized : h.size ≤ h.capacity) (bounded : pc.Bounded h.capacity) :
    (popStep prio h pc).1.size ≤ h.capacity ∧
      ∀ pc', (popStep prio h pc).2 = .next pc' → pc'.Bounded h.capacity := by
  cases pc with
  | start =>
    simp only [popStep]
    split_ifs with empty
    · exact ⟨sized, fun _ next => nomatch next⟩
    · exact ⟨sized, fun pc' next => by cases next; exact ⟨Nat.pos_of_ne_zero empty, sized⟩⟩
  | loadTop currentSize =>
    simp only [popStep]
    split
    · exact ⟨sized, fun pc' next => by cases next; trivial⟩
    · exact ⟨sized, fun pc' next => by cases next; exact bounded⟩
  | reserve currentSize top =>
    have within := bounded.2
    simp only [popStep]
    split_ifs
    · exact ⟨show currentSize - 1 ≤ h.capacity by omega, fun pc' next => by cases next; exact bounded⟩
    · exact ⟨sized, fun pc' next => by cases next; trivial⟩
  | takeLast currentSize top =>
    have within := bounded.2
    simp only [popStep]
    split_ifs
    · exact ⟨sized, fun pc' next => by cases next; show 0 < h.capacity; omega⟩
    · exact ⟨sized, fun _ next => nomatch next⟩
  | storeLast top last => exact ⟨sized, fun pc' next => by cases next; exact bounded⟩
  | siftSize top => exact ⟨sized, fun pc' next => by cases next; exact ⟨sized, bounded⟩⟩
  | siftCurrent top currentSize index =>
    simp only [popStep]
    split_ifs with inside
    · exact ⟨sized, fun pc' next => by cases next; exact ⟨bounded.1, inside⟩⟩
    · exact ⟨sized, fun _ next => nomatch next⟩
  | siftLeft top currentSize index current =>
    obtain ⟨sizedHere, left⟩ := bounded
    have after : ∀ maxIndex, maxIndex < h.capacity → ∀ pc',
        siftAfterLeft top currentSize index maxIndex current = .next pc' → pc'.Bounded h.capacity := by
      intro maxIndex maxed pc' next
      unfold siftAfterLeft at next
      split_ifs at next with right
      · cases next; exact ⟨sizedHere, right, maxed⟩
      · exact siftBreak_bounded sizedHere (by omega) maxed pc' next
    simp only [popStep]
    split
    · exact ⟨sized, after index (by omega)⟩
    · exact ⟨sized, fun _ next => nomatch next⟩
    · exact ⟨sized, after _ (by split_ifs <;> omega)⟩
  | siftRight top currentSize index maxIndex current =>
    obtain ⟨sizedHere, right, maxed⟩ := bounded
    simp only [popStep]
    split
    · exact ⟨sized, siftBreak_bounded sizedHere (by omega) maxed⟩
    · exact ⟨sized, fun pc' next => by cases next; exact ⟨sizedHere, right, maxed⟩⟩
  | siftRightMax top currentSize index maxIndex current r =>
    obtain ⟨sizedHere, right, maxed⟩ := bounded
    simp only [popStep]
    split
    · exact ⟨sized, fun _ next => nomatch next⟩
    · exact ⟨sized, siftBreak_bounded sizedHere (by omega) (by split_ifs <;> omega)⟩
  | siftMax top currentSize index maxIndex current =>
    exact ⟨sized, fun pc' next => by cases next; exact bounded⟩
  | swapIndex top currentSize index maxIndex current maxNode =>
    simp only [popStep]
    split_ifs
    · exact ⟨sized, fun pc' next => by cases next; exact bounded⟩
    · exact ⟨sized, fun _ next => nomatch next⟩
  | swapMax top currentSize index maxIndex current maxNode =>
    simp only [popStep]
    split_ifs
    · exact ⟨sized, fun pc' next => by cases next; exact ⟨bounded.1, bounded.2.2⟩⟩
    · exact ⟨sized, fun _ next => nomatch next⟩

/-- The invariant of a heap of `capacity` cells: `size_` within it, threads at bounded points. -/
structure InBounds (capacity : Nat) (s : Clients) : Prop where
  cellCount : s.heap.capacity = capacity
  size : s.heap.size ≤ capacity
  threads : ∀ call ∈ s.threads, call.Bounded capacity

theorem inBounds_init (capacity threads : Nat) : InBounds capacity (Clients.init capacity threads) where
  cellCount := rfl
  size := Nat.zero_le _
  threads call mem := by rw [List.eq_of_mem_replicate mem]; trivial

section
variable {capacity : Nat} {s : Clients}

theorem InBounds.set (bounds : InBounds capacity s) (t : Nat) (call : Call) (h : LockFreeHeap)
    (pushed popped : List Nat) (cells : h.capacity = capacity) (size : h.size ≤ capacity)
    (ok : call.Bounded capacity) :
    InBounds capacity ⟨h, s.threads.set t call, s.pushed ++ pushed, s.popped ++ popped⟩ where
  cellCount := cells
  size := size
  threads other mem := by
    rcases List.mem_or_eq_of_mem_set mem with old | rfl
    · exact bounds.threads other old
    · exact ok

theorem InBounds.move (bounds : InBounds capacity s) (t : Nat) {call : Call}
    (ok : call.Bounded capacity) : InBounds capacity { s with threads := s.threads.set t call } := by
  simpa using bounds.set t call s.heap [] [] bounds.cellCount bounds.size ok

theorem InBounds.tick_push (prio : Nat → Int) (bounds : InBounds capacity s) {t node : Nat}
    {pc : PushPc} (current : s.threads[t]? = some (.push node pc)) :
    InBounds capacity (s.step prio (.tick t)) := by
  have ok : pc.Bounded capacity := bounds.threads _ (List.getElem?_mem current)
  have cells := pushStep_capacity prio node s.heap pc
  obtain ⟨size, next⟩ := pushStep_bounded prio node (bounds.cellCount ▸ bounds.size)
    (bounds.cellCount ▸ ok)
  rw [bounds.cellCount] at cells size next
  rw [Clients.step, current]
  dsimp only
  rcases stepped : pushStep prio node s.heap pc with ⟨h', ctrl⟩
  rw [stepped] at cells size next
  cases ctrl with
  | next pc' => simpa using bounds.set t (.push node pc') h' [] [] cells size (next pc' rfl)
  | ret ok' =>
    cases ok'
    · simpa using bounds.set t .idle h' [] [] cells size trivial
    · simpa using bounds.set t .idle h' [node] [] cells size trivial
  | fault => simpa using bounds.set t .fault h' [] [] cells size trivial

theorem InBounds.tick_pop (prio : Nat → Int) (bounds : InBounds capacity s) {t : Nat} {pc : PopPc}
    (current : s.threads[t]? = some (.pop pc)) : InBounds capacity (s.step prio (.tick t)) := by
  have ok : pc.Bounded capacity := bounds.threads _ (List.getElem?_mem current)
  have cells := popStep_capacity prio s.heap pc
  obtain ⟨size, next⟩ := popStep_bounded prio (bounds.cellCount ▸ bounds.size) (bounds.cellCount ▸ ok)
  rw [bounds.cellCount] at cells size next
  rw [Clients.step, current]
  dsimp only
  rcases stepped : popStep prio s.heap pc with ⟨h', ctrl⟩
  rw [stepped] at cells size next
  cases ctrl with
  | next pc' => simpa using bounds.set t (.pop pc') h' [] [] cells size (next pc' rfl)
  | ret top => simpa using bounds.set t .idle h' [] top.toList cells size trivial
  | fault => simpa using bounds.set t .fault h' [] [] cells size trivial

theorem InBounds.step (prio : Nat → Int) (bounds : InBounds capacity s) (a : Act) :
    InBounds capacity (s.step prio a) := by
  cases a with
  | push t node =>
    rw [Clients.step]
    split
    · exact bounds.move t trivial
    · exact bounds
  | pop t =>
    rw [Clients.step]
    split
    · exact bounds.move t trivial
    · exact bounds
  | tick t =>
    cases current : s.threads[t]? with
    | some call =>
      cases call with
      | push node pc => exact bounds.tick_push prio current
      | pop pc => exact bounds.tick_pop prio current
      | idle | fault => simpa [Clients.step, current] using bounds
    | none => simpa [Clients.step, current] using bounds

end

/-- In every interleaving of `push` and `pop` calls on a heap of `capacity` cells, `size_` never
exceeds `capacity`, and the cells that the next step of any thread loads, stores, CASes or
exchanges all lie below `capacity`: the vector `heap` is never indexed out of range. -/
theorem cells_within_capacity (prio : Nat → Int) (capacity threads : Nat) (s : Clients)
    (reach : Reachable (step prio) (Clients.init capacity threads) s) :
    s.heap.size ≤ capacity ∧ ∀ call ∈ s.threads, ∀ i ∈ call.cells, i < capacity := by
  have bounds : InBounds capacity s :=
    reach.invariant (inBounds_init capacity threads) fun _ a bounds => bounds.step prio a
  refine ⟨bounds.size, fun call mem => ?_⟩
  have ok := bounds.threads call mem
  cases call with
  | push node pc => exact PushPc.Bounded.cells ok
  | pop pc => exact PopPc.Bounded.cells ok
  | idle | fault => exact fun _ absent => nomatch absent

/-- `siftUpRace` ends with three threads of a capacity-8 heap within bounds. -/
theorem cells_within_capacity_in_sift_up_race :
    (run (step fun n => n) (Clients.init 8 3) siftUpRace).heap.size ≤ 8 ∧
      ∀ call ∈ (run (step fun n => n) (Clients.init 8 3) siftUpRace).threads, ∀ i ∈ call.cells, i < 8 :=
  cells_within_capacity (fun n => n) 8 3 _ (reachable_run .init siftUpRace)

/-! ### Every node comes from a `push` -/

/-- The points of `push` after its `size_` CAS has reserved a cell for the node. -/
def PushPc.Reserved : PushPc → Prop
  | .start => False
  | .reserve _ => False
  | _ => True

theorem pushStep_reserved (prio : Nat → Int) (node : Nat) (h : LockFreeHeap) {pc : PushPc}
    (reserved : pc.Reserved) :
    (∃ pc', (pushStep prio node h pc).2 = .next pc' ∧ pc'.Reserved) ∨
      (pushStep prio node h pc).2 = .ret true := by
  cases pc <;> simp only [PushPc.Reserved] at reserved <;> simp only [pushStep] <;> (repeat' split) <;>
    simp [PushPc.Reserved]

theorem pushStep_unreserved (prio : Nat → Int) (node : Nat) (h : LockFreeHeap) {pc : PushPc}
    (unreserved : ¬ pc.Reserved) :
    (pushStep prio node h pc).1.heap = h.heap ∧ PushPc.Within (fun _ => False) (pushStep prio node h pc).2 := by
  cases pc <;> simp only [PushPc.Reserved, not_true_eq_false] at unreserved <;> simp only [pushStep] <;>
    split_ifs <;> simp [PushPc.Within, PushPc.slots]

theorem PushPc.Within.mono {P Q : Nat → Prop} {c : Control PushPc Bool} (within : PushPc.Within P c)
    (imp : ∀ x, P x → Q x) : PushPc.Within Q c := by
  cases c with
  | next pc => exact fun x mem => imp x (within x mem)
  | ret _ | fault => trivial

/-- The slots a thread holds in its locals. -/
def Call.slots : Call → List Nat
  | .push _ pc => pc.slots
  | .pop pc => pc.slots
  | _ => []

/-- Node `n` went to a `push` that reserved a cell: it returned `true` or is still running. -/
def Clients.Carried (s : Clients) (n : Nat) : Prop :=
  n ∈ s.pushed ∨ ∃ (t : Nat) (pc : PushPc), s.threads[t]? = some (.push n pc) ∧ pc.Reserved

/-- Every cell, every local and every `pop` result is a node some `push` carried. -/
structure Sourced (s : Clients) : Prop where
  cells : Holds s.Carried s.heap
  threads : ∀ call ∈ s.threads, ∀ x ∈ call.slots, s.Carried x
  popped : ∀ x ∈ s.popped, s.Carried x

theorem sourced_init (capacity threads : Nat) : Sourced (Clients.init capacity threads) where
  cells := holds_init _ capacity
  threads call mem := by rw [List.eq_of_mem_replicate mem]; exact fun _ absent => nomatch absent
  popped _ absent := nomatch absent

section
variable {s : Clients} {t : Nat} {call : Call}

theorem Carried.set (current : s.threads[t]? = some call) (call' : Call) (h : LockFreeHeap)
    (pushed popped : List Nat)
    (keeps : ∀ n pc, call = .push n pc → pc.Reserved →
      n ∈ pushed ∨ ∃ pc' : PushPc, call' = .push n pc' ∧ pc'.Reserved)
    {x : Nat} (carried : s.Carried x) :
    Clients.Carried ⟨h, s.threads.set t call', s.pushed ++ pushed, s.popped ++ popped⟩ x := by
  rcases carried with old | ⟨u, pc, at_u, reserved⟩
  · exact .inl (List.mem_append_left _ old)
  · by_cases same : u = t
    · subst same
      rcases keeps x pc (Option.some.inj (current.symm.trans at_u)) reserved with new | ⟨pc', rfl, still⟩
      · exact .inl (List.mem_append_right _ new)
      · exact .inr ⟨u, pc', by rw [List.getElem?_set_self', current]; rfl, still⟩
    · exact .inr ⟨u, pc, by rw [List.getElem?_set_ne (Ne.symm same)]; exact at_u, reserved⟩

theorem Sourced.set (sourced : Sourced s) (current : s.threads[t]? = some call) (call' : Call)
    (h : LockFreeHeap) (pushed popped : List Nat)
    (keeps : ∀ n pc, call = .push n pc → pc.Reserved →
      n ∈ pushed ∨ ∃ pc' : PushPc, call' = .push n pc' ∧ pc'.Reserved)
    (cells : Holds s.Carried h) (ok : ∀ x ∈ call'.slots, s.Carried x)
    (poppedOk : ∀ x ∈ popped, s.Carried x) :
    Sourced ⟨h, s.threads.set t call', s.pushed ++ pushed, s.popped ++ popped⟩ := by
  have mono := fun x => @Carried.set s t call current call' h pushed popped keeps x
  refine ⟨cells.mono mono, fun other mem x slot => ?_, fun x mem => ?_⟩
  · rcases List.mem_or_eq_of_mem_set mem with old | rfl
    · exact mono x (sourced.threads other old x slot)
    · exact mono x (ok x slot)
  · rcases List.mem_append.mp mem with old | new
    · exact mono x (sourced.popped x old)
    · exact mono x (poppedOk x new)

theorem Sourced.afterPush (sourced : Sourced s) {node : Nat} {pc : PushPc}
    (current : s.threads[t]? = some (.push node pc)) (h : LockFreeHeap) (ctrl : Control PushPc Bool)
    (keeps : pc.Reserved → (∃ pc', ctrl = .next pc' ∧ pc'.Reserved) ∨ ctrl = .ret true)
    (cells : Holds s.Carried h) (within : PushPc.Within s.Carried ctrl) :
    Sourced (s.afterPush t node (h, ctrl)) := by
  have none : ∀ x ∈ ([] : List Nat), s.Carried x := fun _ absent => nomatch absent
  cases ctrl with
  | next pc' =>
    simpa using sourced.set current (.push node pc') h [] [] (fun n pc₀ same reserved => by
      cases same
      obtain ⟨pc'', same, still⟩ | absurd := keeps reserved
      · cases same; exact .inr ⟨_, rfl, still⟩
      · cases absurd) cells within none
  | ret ok =>
    cases ok
    · simpa using sourced.set current .idle h [] [] (fun n pc₀ same reserved => by
        cases same
        rcases keeps reserved with ⟨_, absurd, -⟩ | absurd <;> cases absurd) cells (fun _ absent => nomatch absent) none
    · simpa using sourced.set current .idle h [node] [] (fun n pc₀ same _ => by
        cases same; exact .inl (List.mem_singleton_self _)) cells (fun _ absent => nomatch absent) none
  | fault =>
    simpa using sourced.set current .fault h [] [] (fun n pc₀ same reserved => by
      cases same
      rcases keeps reserved with ⟨_, absurd, -⟩ | absurd <;> cases absurd) cells
      (fun _ absent => nomatch absent) none

theorem Sourced.afterPop (sourced : Sourced s) {pc : PopPc} (current : s.threads[t]? = some (.pop pc))
    (h : LockFreeHeap) (ctrl : Control PopPc (Option Nat)) (cells : Holds s.Carried h)
    (within : PopPc.Within s.Carried ctrl) : Sourced (s.afterPop t (h, ctrl)) := by
  have keeps : ∀ (call' : Call) (n : Nat) (pc₀ : PushPc), Call.pop pc = .push n pc₀ → pc₀.Reserved →
      n ∈ ([] : List Nat) ∨ ∃ pc' : PushPc, call' = .push n pc' ∧ pc'.Reserved :=
    fun _ _ _ absurd => nomatch absurd
  have none : ∀ x ∈ ([] : List Nat), s.Carried x := fun _ absent => nomatch absent
  have idle : ∀ x ∈ Call.idle.slots, s.Carried x := fun _ absent => nomatch absent
  have faulted : ∀ x ∈ Call.fault.slots, s.Carried x := fun _ absent => nomatch absent
  cases ctrl with
  | next pc' => simpa using sourced.set current (.pop pc') h [] [] (keeps _) cells within none
  | ret top => simpa using sourced.set current .idle h [] top.toList (keeps _) cells idle within
  | fault => simpa using sourced.set current .fault h [] [] (keeps _) cells faulted none

theorem Sourced.step (prio : Nat → Int) (sourced : Sourced s) (a : Act) : Sourced (s.step prio a) := by
  have start := fun (u : Nat) (call' : Call) (current : s.threads[u]? = some .idle)
      (free : call'.slots = []) =>
    sourced.set current call' s.heap [] [] (fun _ _ absurd => nomatch absurd) sourced.cells
      (fun x slot => by rw [free] at slot; cases slot) (fun _ absent => nomatch absent)
  cases a with
  | push t node =>
    rw [Clients.step]
    split
    · next idle => simpa using start t (.push node .start) idle rfl
    · exact sourced
  | pop t =>
    rw [Clients.step]
    split
    · next idle => simpa using start t (.pop .start) idle rfl
    · exact sourced
  | tick t =>
    cases current : s.threads[t]? with
    | some call =>
      have locals := sourced.threads call (List.getElem?_mem current)
      cases call with
      | push node pc =>
        rw [Clients.step, current]
        dsimp only
        by_cases reserved : pc.Reserved
        · have carried : s.Carried node := Or.inr ⟨t, pc, current, reserved⟩
          obtain ⟨cells, within⟩ := pushStep_holds prio carried sourced.cells locals
          exact sourced.afterPush current _ _ (fun _ => pushStep_reserved prio node s.heap reserved)
            cells within
        · obtain ⟨same, within⟩ := pushStep_unreserved prio node s.heap reserved
          exact sourced.afterPush current _ _ (fun yes => absurd yes reserved)
            (fun i x cell => sourced.cells i x (same ▸ cell)) (within.mono fun _ no => no.elim)
      | pop pc =>
        rw [Clients.step, current]
        dsimp only
        obtain ⟨cells, within⟩ := popStep_holds prio sourced.cells locals
        exact sourced.afterPop current _ _ cells within
      | idle | fault => simpa [Clients.step, current] using sourced
    | none => simpa [Clients.step, current] using sourced

end

/-- In every interleaving of `push` and `pop` calls, every node a `pop` has returned and every
node any cell holds was passed to a `push`: one that has returned `true`, or one still running. -/
theorem popped_were_pushed (prio : Nat → Int) (capacity threads : Nat) (s : Clients)
    (reach : Reachable (step prio) (Clients.init capacity threads) s) :
    (∀ n ∈ s.popped, n ∈ s.pushed ∨ ∃ pc, Call.push n pc ∈ s.threads) ∧
      ∀ i n, s.heap.heap i = some n → n ∈ s.pushed ∨ ∃ pc, Call.push n pc ∈ s.threads := by
  have sourced : Sourced s :=
    reach.invariant (sourced_init capacity threads) fun _ a sourced => sourced.step prio a
  have carried : ∀ n, s.Carried n → n ∈ s.pushed ∨ ∃ pc, Call.push n pc ∈ s.threads :=
    fun n carried => carried.imp_right fun ⟨_, pc, at_t, _⟩ => ⟨pc, List.getElem?_mem at_t⟩
  exact ⟨fun n mem => carried n (sourced.popped n mem), fun i n cell => carried n (sourced.cells i n cell)⟩

set_option maxRecDepth 20000 in
/-- After `siftUpRace` the pops have returned node 2 twice, and cell 0 holds node 0. -/
theorem popped_were_pushed_in_sift_up_race :
    (run (step fun n => n) (Clients.init 8 3) siftUpRace).popped = [3, 2, 2] ∧
      (run (step fun n => n) (Clients.init 8 3) siftUpRace).heap.heap 0 = some 0 ∧
      (∀ n ∈ (run (step fun n => n) (Clients.init 8 3) siftUpRace).popped,
        n ∈ (run (step fun n => n) (Clients.init 8 3) siftUpRace).pushed ∨
          ∃ pc, Call.push n pc ∈ (run (step fun n => n) (Clients.init 8 3) siftUpRace).threads) ∧
      ∀ i n, (run (step fun n => n) (Clients.init 8 3) siftUpRace).heap.heap i = some n →
        n ∈ (run (step fun n => n) (Clients.init 8 3) siftUpRace).pushed ∨
          ∃ pc, Call.push n pc ∈ (run (step fun n => n) (Clients.init 8 3) siftUpRace).threads :=
  ⟨by decide, by decide, popped_were_pushed (fun n => n) 8 3 _ (reachable_run .init siftUpRace)⟩

end RadialCache.LockFreeHeap
