import RadialCache.Basic

/-! `LockFreeHeap` from `lockfree_heap.hpp` at the grain of its atomic operations.
Each call is a program point carrying its locals; one step performs exactly one load, store,
CAS or exchange on `size_` or on a cell, together with the local work that follows it. -/

namespace RadialCache

/-- The shared part of a `LockFreeHeap`: cells `heap[i].node` (`none` for `nullptr`) and `size_`. -/
structure LockFreeHeap where
  heap : Nat → Option Nat
  size : Nat
  capacity : Nat

namespace LockFreeHeap

/-- `LockFreeHeap(initial_capacity)`: every cell null and `size_ = 0`. -/
def init (initialCapacity : Nat) : LockFreeHeap := ⟨fun _ => none, 0, initialCapacity⟩

/-- A store, or the write half of a successful CAS or exchange, on cell `i`. -/
def set (h : LockFreeHeap) (i : Nat) (v : Option Nat) : LockFreeHeap :=
  { h with heap := Function.update h.heap i v }

@[simp] theorem set_heap_self (h : LockFreeHeap) (i : Nat) (v : Option Nat) :
    (h.set i v).heap i = v := Function.update_same _ _ _

@[simp] theorem set_heap_ne (h : LockFreeHeap) {i j : Nat} (v : Option Nat) (ne : j ≠ i) :
    (h.set i v).heap j = h.heap j := Function.update_noteq ne _ _

@[simp] theorem set_size (h : LockFreeHeap) (i : Nat) (v : Option Nat) :
    (h.set i v).size = h.size := rfl

@[simp] theorem set_capacity (h : LockFreeHeap) (i : Nat) (v : Option Nat) :
    (h.set i v).capacity = h.capacity := rfl

/-- The non-null cells among `heap[0, size_)`. -/
def live (h : LockFreeHeap) : List Nat := (List.range h.size).filterMap h.heap

/-- `(index - 1) / 2`. -/
def parent (index : Nat) : Nat := (index - 1) / 2

/-- Program points of `push(node)`, including the inlined `sift_up(index)`. -/
inductive PushPc where
  /-- `current_size = size_.load()`, then the capacity test. -/
  | start
  /-- `size_.compare_exchange_weak(current_size, current_size + 1)`. -/
  | reserve (currentSize : Nat)
  /-- `heap[current_size].node.store(node)`. -/
  | store (currentSize : Nat)
  /-- `sift_up`: the loop test and `child = heap[index].node.load()`. -/
  | siftChild (index : Nat)
  /-- `parent_node = heap[parent].node.load()` and the break test. -/
  | siftParent (index : Nat) (child : Option Nat)
  /-- `heap[parent].node.compare_exchange_strong(parent_node, child)`. -/
  | swapParent (index child parentNode : Nat)
  /-- `heap[index].node.compare_exchange_strong(child, parent_node)`. -/
  | swapChild (index child parentNode : Nat)
deriving DecidableEq, Repr

/-- One atomic step of `push(node)`; a weak CAS acts as a strong one: a spurious failure retries. -/
def pushStep (prio : Nat → Int) (node : Nat) (h : LockFreeHeap) :
    PushPc → LockFreeHeap × Control PushPc Bool
  | .start => if h.capacity ≤ h.size then (h, .ret false) else (h, .next (.reserve h.size))
  | .reserve currentSize =>
      if h.size = currentSize then ({ h with size := currentSize + 1 }, .next (.store currentSize))
      else (h, .next .start)
  | .store currentSize => (h.set currentSize (some node), .next (.siftChild currentSize))
  | .siftChild index =>
      if index = 0 then (h, .ret true) else (h, .next (.siftParent index (h.heap index)))
  | .siftParent index child =>
      match child, h.heap (parent index) with
      | some c, some p =>
          if prio c ≤ prio p then (h, .ret true) else (h, .next (.swapParent index c p))
      | _, _ => (h, .ret true)
  | .swapParent index c p =>
      if h.heap (parent index) = some p then
        (h.set (parent index) (some c), .next (.swapChild index c p))
      else (h, .ret true)
  | .swapChild index c p =>
      if h.heap index = some c then (h.set index (some p), .next (.siftChild (parent index)))
      else (h, .ret true)

/-- Program points of `pop()` with the inlined `sift_down(0)`, whose points carry `top`. -/
inductive PopPc where
  /-- `current_size = size_.load()`, then the empty test. -/
  | start
  /-- `top = heap[0].node.load()`, then the null test. -/
  | loadTop (currentSize : Nat)
  /-- `size_.compare_exchange_weak(current_size, current_size - 1)`. -/
  | reserve (currentSize top : Nat)
  /-- `last = heap[current_size - 1].node.exchange(nullptr)`. -/
  | takeLast (currentSize top : Nat)
  /-- `heap[0].node.store(last)`. -/
  | storeLast (top : Nat) (last : Option Nat)
  /-- `sift_down`: `current_size = size_.load()`. -/
  | siftSize (top : Nat)
  /-- `current = heap[index].node.load()`. -/
  | siftCurrent (top currentSize index : Nat)
  /-- `left_node = heap[left].node.load()` and its comparison with `current`. -/
  | siftLeft (top currentSize index : Nat) (current : Option Nat)
  /-- `right_node = heap[right].node.load()`. -/
  | siftRight (top currentSize index maxIndex : Nat) (current : Option Nat)
  /-- The second load `heap[max_index].node.load()` and its comparison with `right_node`. -/
  | siftRightMax (top currentSize index maxIndex : Nat) (current : Option Nat) (rightNode : Nat)
  /-- `max_node = heap[max_index].node.load()`. -/
  | siftMax (top currentSize index maxIndex : Nat) (current : Option Nat)
  /-- `heap[index].node.compare_exchange_strong(current, max_node)`. -/
  | swapIndex (top currentSize index maxIndex : Nat) (current maxNode : Option Nat)
  /-- `heap[max_index].node.compare_exchange_strong(max_node, current)`. -/
  | swapMax (top currentSize index maxIndex : Nat) (current maxNode : Option Nat)
deriving DecidableEq, Repr

/-- The `max_index == index` test that ends one pass of the `sift_down` loop. -/
def siftBreak (top currentSize index maxIndex : Nat) (current : Option Nat) :
    Control PopPc (Option Nat) :=
  if maxIndex = index then .ret (some top) else .next (.siftMax top currentSize index maxIndex current)

/-- After the left child: load the right child if it is in range, else decide. -/
def siftAfterLeft (top currentSize index maxIndex : Nat) (current : Option Nat) :
    Control PopPc (Option Nat) :=
  if 2 * index + 2 < currentSize then .next (.siftRight top currentSize index maxIndex current)
  else siftBreak top currentSize index maxIndex current

/-- One atomic step of `pop()`. A priority read through a null cell is `.fault`. -/
def popStep (prio : Nat → Int) (h : LockFreeHeap) : PopPc → LockFreeHeap × Control PopPc (Option Nat)
  | .start => if h.size = 0 then (h, .ret none) else (h, .next (.loadTop h.size))
  | .loadTop currentSize =>
      match h.heap 0 with
      | none => (h, .next .start)
      | some top => (h, .next (.reserve currentSize top))
  | .reserve currentSize top =>
      if h.size = currentSize then
        ({ h with size := currentSize - 1 }, .next (.takeLast currentSize top))
      else (h, .next .start)
  | .takeLast currentSize top =>
      (h.set (currentSize - 1) none,
        if 1 < currentSize then .next (.storeLast top (h.heap (currentSize - 1))) else .ret (some top))
  | .storeLast top last => (h.set 0 last, .next (.siftSize top))
  | .siftSize top => (h, .next (.siftCurrent top h.size 0))
  | .siftCurrent top currentSize index =>
      (h, if 2 * index + 1 < currentSize then .next (.siftLeft top currentSize index (h.heap index))
        else .ret (some top))
  | .siftLeft top currentSize index current =>
      match h.heap (2 * index + 1), current with
      | none, _ => (h, siftAfterLeft top currentSize index index current)
      | some _, none => (h, .fault)
      | some l, some c =>
          (h, siftAfterLeft top currentSize index (if prio c < prio l then 2 * index + 1 else index)
            current)
  | .siftRight top currentSize index maxIndex current =>
      match h.heap (2 * index + 2) with
      | none => (h, siftBreak top currentSize index maxIndex current)
      | some r => (h, .next (.siftRightMax top currentSize index maxIndex current r))
  | .siftRightMax top currentSize index maxIndex current r =>
      match h.heap maxIndex with
      | none => (h, .fault)
      | some m =>
          (h, siftBreak top currentSize index (if prio m < prio r then 2 * index + 2 else maxIndex)
            current)
  | .siftMax top currentSize index maxIndex current =>
      (h, .next (.swapIndex top currentSize index maxIndex current (h.heap maxIndex)))
  | .swapIndex top currentSize index maxIndex current maxNode =>
      if h.heap index = current then
        (h.set index maxNode, .next (.swapMax top currentSize index maxIndex current maxNode))
      else (h, .ret (some top))
  | .swapMax top currentSize _ maxIndex current maxNode =>
      if h.heap maxIndex = maxNode then
        (h.set maxIndex current, .next (.siftCurrent top currentSize maxIndex))
      else (h, .ret (some top))

/-! ### What the cells and the locals hold -/

/-- The slots a `push` program point holds in its locals, besides the node it pushes. -/
def PushPc.slots : PushPc → List Nat
  | .siftParent _ child => child.toList
  | .swapParent _ c p => [c, p]
  | .swapChild _ c p => [c, p]
  | _ => []

/-- The slots a `pop` program point holds in its locals. -/
def PopPc.slots : PopPc → List Nat
  | .start => []
  | .loadTop _ => []
  | .reserve _ top => [top]
  | .takeLast _ top => [top]
  | .storeLast top last => top :: last.toList
  | .siftSize top => [top]
  | .siftCurrent top _ _ => [top]
  | .siftLeft top _ _ current => top :: current.toList
  | .siftRight top _ _ _ current => top :: current.toList
  | .siftRightMax top _ _ _ current r => top :: r :: current.toList
  | .siftMax top _ _ _ current => top :: current.toList
  | .swapIndex top _ _ _ current maxNode => top :: current.toList ++ maxNode.toList
  | .swapMax top _ _ _ current maxNode => top :: current.toList ++ maxNode.toList

/-- Every cell holds a slot of `P`. -/
def Holds (P : Nat → Prop) (h : LockFreeHeap) : Prop := ∀ i x, h.heap i = some x → P x

theorem Holds.set {P : Nat → Prop} {h : LockFreeHeap} (holds : Holds P h) (i : Nat)
    {v : Option Nat} (new : ∀ x ∈ v.toList, P x) : Holds P (h.set i v) := fun j x cell => by
  by_cases same : j = i
  · subst same; rw [set_heap_self] at cell; exact new x (by simp [cell])
  · rw [set_heap_ne _ _ same] at cell; exact holds j x cell

theorem Holds.cell {P : Nat → Prop} {h : LockFreeHeap} (holds : Holds P h) (i : Nat) :
    ∀ x ∈ (h.heap i).toList, P x := fun x mem => holds i x (by simpa using mem)

theorem holds_init (P : Nat → Prop) (capacity : Nat) : Holds P (init capacity) := fun _ _ cell =>
  nomatch cell

theorem Holds.mono {P Q : Nat → Prop} {h : LockFreeHeap} (holds : Holds P h)
    (imp : ∀ x, P x → Q x) : Holds Q h := fun i x cell => imp x (holds i x cell)

/-- The locals of a `push` step's next point lie in `P`. -/
def PushPc.Within (P : Nat → Prop) : Control PushPc Bool → Prop
  | .next pc => ∀ x ∈ pc.slots, P x
  | _ => True

/-- The locals of a `pop` step's next point, or the slot it returns, lie in `P`. -/
def PopPc.Within (P : Nat → Prop) : Control PopPc (Option Nat) → Prop
  | .next pc => ∀ x ∈ pc.slots, P x
  | .ret top => ∀ x ∈ top.toList, P x
  | .fault => True

theorem pushStep_holds (prio : Nat → Int) {P : Nat → Prop} {node : Nat} (pushed : P node)
    {h : LockFreeHeap} (holds : Holds P h) {pc : PushPc} (locals : ∀ x ∈ pc.slots, P x) :
    Holds P (pushStep prio node h pc).1 ∧ PushPc.Within P (pushStep prio node h pc).2 := by
  cases pc with
  | start => simp only [pushStep]; split_ifs <;> exact ⟨holds, by simp [PushPc.Within, PushPc.slots]⟩
  | reserve =>
    simp only [pushStep]; split_ifs <;> exact ⟨holds, by simp [PushPc.Within, PushPc.slots]⟩
  | store => exact ⟨holds.set _ (by simpa using pushed), by simp [pushStep, PushPc.Within, PushPc.slots]⟩
  | siftChild index =>
    simp only [pushStep]
    split_ifs
    · exact ⟨holds, trivial⟩
    · exact ⟨holds, holds.cell index⟩
  | siftParent index child =>
    simp only [pushStep]
    split
    · split_ifs
      · exact ⟨holds, trivial⟩
      · refine ⟨holds, fun x mem => ?_⟩
        simp only [PushPc.slots, List.mem_cons, List.mem_singleton, List.not_mem_nil, or_false] at mem
        rcases mem with rfl | rfl
        · exact locals x (by simp [PushPc.slots])
        · exact holds _ x ‹_›
    · exact ⟨holds, trivial⟩
  | swapParent index c p =>
    simp only [pushStep]
    split_ifs
    · exact ⟨holds.set _ (by simpa using locals c (by simp [PushPc.slots])), locals⟩
    · exact ⟨holds, trivial⟩
  | swapChild index c p =>
    simp only [pushStep]
    split_ifs
    · exact ⟨holds.set _ (by simpa using locals p (by simp [PushPc.slots])),
        by simp [PushPc.Within, PushPc.slots]⟩
    · exact ⟨holds, trivial⟩

theorem siftBreak_within {P : Nat → Prop} {top currentSize index maxIndex : Nat}
    {current : Option Nat} (held : ∀ x ∈ top :: current.toList, P x) :
    PopPc.Within P (siftBreak top currentSize index maxIndex current) := by
  unfold siftBreak; split_ifs <;> simp_all [PopPc.Within, PopPc.slots]

theorem siftAfterLeft_within {P : Nat → Prop} {top currentSize index maxIndex : Nat}
    {current : Option Nat} (held : ∀ x ∈ top :: current.toList, P x) :
    PopPc.Within P (siftAfterLeft top currentSize index maxIndex current) := by
  unfold siftAfterLeft; split_ifs
  · exact held
  · exact siftBreak_within held

theorem popStep_holds (prio : Nat → Int) {P : Nat → Prop} {h : LockFreeHeap} (holds : Holds P h)
    {pc : PopPc} (locals : ∀ x ∈ pc.slots, P x) :
    Holds P (popStep prio h pc).1 ∧ PopPc.Within P (popStep prio h pc).2 := by
  cases pc with
  | start => simp only [popStep]; split_ifs <;> simp [holds, PopPc.Within, PopPc.slots]
  | loadTop currentSize =>
    simp only [popStep]
    split
    · simp [holds, PopPc.Within, PopPc.slots]
    · exact ⟨holds, by simpa [PopPc.Within, PopPc.slots] using holds 0 _ ‹_›⟩
  | reserve currentSize top =>
    simp only [popStep]
    split_ifs <;> exact ⟨holds, fun x mem => locals x (by simp_all [PopPc.slots])⟩
  | takeLast currentSize top =>
    simp only [popStep]
    refine ⟨holds.set _ (by simp), ?_⟩
    split_ifs
    · intro x mem
      simp only [PopPc.slots, List.mem_cons] at mem
      rcases mem with rfl | mem
      · exact locals x (by simp [PopPc.slots])
      · exact holds.cell _ x mem
    · simpa [PopPc.Within, PopPc.slots] using locals
  | storeLast top last =>
    refine ⟨holds.set _ fun x mem => locals x (List.mem_cons_of_mem _ mem), ?_⟩
    simpa [popStep, PopPc.Within, PopPc.slots] using locals top (by simp [PopPc.slots])
  | siftSize top => exact ⟨holds, locals⟩
  | siftCurrent top currentSize index =>
    simp only [popStep]
    refine ⟨holds, ?_⟩
    split_ifs
    · intro x mem
      simp only [PopPc.slots, List.mem_cons] at mem
      rcases mem with rfl | mem
      · exact locals x (by simp [PopPc.slots])
      · exact holds.cell _ x mem
    · simpa [PopPc.Within, PopPc.slots] using locals
  | siftLeft top currentSize index current =>
    simp only [popStep]
    split <;> first | exact ⟨holds, siftAfterLeft_within locals⟩ | exact ⟨holds, trivial⟩
  | siftRight top currentSize index maxIndex current =>
    simp only [popStep]
    split
    · exact ⟨holds, siftBreak_within locals⟩
    · refine ⟨holds, fun x mem => ?_⟩
      simp only [PopPc.slots, List.mem_cons] at mem
      rcases mem with rfl | rfl | mem
      · exact locals x (by simp [PopPc.slots])
      · exact holds _ x ‹_›
      · exact locals x (by simp [PopPc.slots, mem])
  | siftRightMax top currentSize index maxIndex current r =>
    simp only [popStep]
    split
    · exact ⟨holds, trivial⟩
    · exact ⟨holds, siftBreak_within fun x mem => locals x (by
        simp only [PopPc.slots, List.mem_cons] at mem ⊢; tauto)⟩
  | siftMax top currentSize index maxIndex current =>
    refine ⟨holds, fun x mem => ?_⟩
    simp only [popStep, PopPc.slots, ← List.cons_append, List.mem_append] at mem
    rcases mem with mem | mem
    · exact locals x mem
    · exact holds.cell _ x mem
  | swapIndex top currentSize index maxIndex current maxNode =>
    simp only [popStep]
    split_ifs
    · exact ⟨holds.set _ fun x mem => locals x (by simp [PopPc.slots, mem]), locals⟩
    · exact ⟨holds, by simpa [PopPc.Within] using locals top (by simp [PopPc.slots])⟩
  | swapMax top currentSize index maxIndex current maxNode =>
    simp only [popStep]
    split_ifs
    · exact ⟨holds.set _ fun x mem => locals x (by simp [PopPc.slots, mem]),
        by simpa [PopPc.Within, PopPc.slots] using locals top (by simp [PopPc.slots])⟩
    · exact ⟨holds, by simpa [PopPc.Within] using locals top (by simp [PopPc.slots])⟩

end LockFreeHeap

end RadialCache
