import RadialCache.LockFreeHeap.Step
import Mathlib.Order.WithBot
import Mathlib.Logic.Equiv.Basic
import Mathlib.Data.List.Perm.Basic
import Mathlib.Data.List.Nodup
import Mathlib.Algebra.Order.Ring.Int

/-! `LockFreeHeap` run by one thread: every CAS succeeds and every load sees the thread's own
stores, so `push` and `pop` are functions. Between calls such a heap is `Valid`: its first
`size_` cells are set, the rest are null, and each cell's priority is at most its parent's. -/

namespace RadialCache.LockFreeHeap

theorem parent_lt {i : Nat} (pos : i ≠ 0) : parent i < i := by unfold parent; omega

/-- Swap cells `a` and `b`, as the two CASes of a sift do when both succeed. -/
def swap (h : LockFreeHeap) (a b : Nat) : LockFreeHeap := (h.set a (h.heap b)).set b (h.heap a)

theorem swap_heap (h : LockFreeHeap) (a b : Nat) : (h.swap a b).heap = h.heap ∘ Equiv.swap a b := by
  funext i
  by_cases ib : i = b
  · subst ib; simp [swap]
  · by_cases ia : i = a
    · subst ia; simp [swap, ib]
    · simp [swap, ia, ib, Equiv.swap_apply_of_ne_of_ne]

@[simp] theorem swap_size (h : LockFreeHeap) (a b : Nat) : (h.swap a b).size = h.size := rfl

@[simp] theorem swap_capacity (h : LockFreeHeap) (a b : Nat) :
    (h.swap a b).capacity = h.capacity := rfl

section
variable (prio : Nat → Int)

/-- `sift_up(index)` alone. -/
def siftUp (h : LockFreeHeap) (index : Nat) : LockFreeHeap :=
  if index = 0 then h
  else
    match h.heap index, h.heap (parent index) with
    | some c, some p =>
        if prio c ≤ prio p then h
        else siftUp ((h.set (parent index) (some c)).set index (some p)) (parent index)
    | _, _ => h
termination_by index
decreasing_by exact parent_lt ‹_›

/-- The left-child test of a `sift_down` pass; `none` on reading `current` through a null cell. -/
def pickLeft (h : LockFreeHeap) (currentSize index : Nat) : Option Nat :=
  if 2 * index + 1 < currentSize then
    match h.heap (2 * index + 1), h.heap index with
    | none, _ => some index
    | some _, none => none
    | some l, some c => some (if prio c < prio l then 2 * index + 1 else index)
  else some index

/-- The right-child test, which reloads `heap[max_index]` for its comparison. -/
def pickRight (h : LockFreeHeap) (currentSize index maxIndex : Nat) : Option Nat :=
  if 2 * index + 2 < currentSize then
    match h.heap (2 * index + 2), h.heap maxIndex with
    | none, _ => some maxIndex
    | some _, none => none
    | some r, some m => some (if prio m < prio r then 2 * index + 2 else maxIndex)
  else some maxIndex

/-- The `max_index` one pass of `sift_down` picks. -/
def maxIndexOf (h : LockFreeHeap) (currentSize index : Nat) : Option Nat :=
  (pickLeft prio h currentSize index).bind (pickRight prio h currentSize index)

theorem pickLeft_range {h : LockFreeHeap} {n index a : Nat}
    (found : pickLeft prio h n index = some a) : a = index ∨ (a = 2 * index + 1 ∧ a < n) := by
  unfold pickLeft at found
  split at found
  · split at found <;> simp only [Option.some.injEq, reduceCtorEq] at found <;> (try split at found) <;>
      omega
  · simp_all

theorem pickRight_range {h : LockFreeHeap} {n index a m : Nat}
    (found : pickRight prio h n index a = some m) : m = a ∨ (m = 2 * index + 2 ∧ m < n) := by
  unfold pickRight at found
  split at found
  · split at found <;> simp only [Option.some.injEq, reduceCtorEq] at found <;> (try split at found) <;>
      omega
  · simp_all

theorem maxIndexOf_range {h : LockFreeHeap} {n index m : Nat}
    (found : maxIndexOf prio h n index = some m) : m = index ∨ (index < m ∧ m < n) := by
  obtain ⟨a, left, right⟩ := Option.bind_eq_some.mp found
  have := pickLeft_range prio left
  have := pickRight_range prio right
  omega

/-- `sift_down(index)` alone over `current_size` cells; `none` on a read through a null cell. -/
def siftDown (h : LockFreeHeap) (currentSize index : Nat) : Option LockFreeHeap :=
  match (maxIndexOf prio h currentSize index).attach with
  | none => none
  | some ⟨m, _⟩ =>
      if m = index then some h
      else siftDown ((h.set index (h.heap m)).set m (h.heap index)) currentSize m
termination_by currentSize - index
decreasing_by have := maxIndexOf_range prio ‹_›; omega

theorem siftDown_eq (h : LockFreeHeap) (currentSize index : Nat) :
    siftDown prio h currentSize index =
      match maxIndexOf prio h currentSize index with
      | none => none
      | some m =>
          if m = index then some h
          else siftDown prio ((h.set index (h.heap m)).set m (h.heap index)) currentSize m := by
  rw [siftDown]
  split
  · next missing => rw [(Option.attach_eq_none_iff _).mp missing]
  · next m found _ => rw [Option.mem_def.mp found]

/-- `push(node)` alone. -/
def push (h : LockFreeHeap) (node : Nat) : LockFreeHeap × Bool :=
  if h.capacity ≤ h.size then (h, false)
  else (siftUp prio ({ h with size := h.size + 1 }.set h.size (some node)) h.size, true)

/-- `pop()` alone; `none` when it never returns (a null root, or a null read in `sift_down`). -/
def pop (h : LockFreeHeap) : Option (LockFreeHeap × Option Nat) :=
  if h.size = 0 then some (h, none)
  else
    match h.heap 0 with
    | none => none
    | some top =>
        let rest := { h with size := h.size - 1 }.set (h.size - 1) none
        if 1 < h.size then
          (siftDown prio (rest.set 0 (h.heap (h.size - 1))) (h.size - 1) 0).map (·, some top)
        else some (rest, some top)

/-! ### The heap between calls -/

/-- The priority behind cell `i`, below every priority when the cell is null. -/
def rank (h : LockFreeHeap) (i : Nat) : WithBot Int := (h.heap i).map prio

/-- Cells below `size_` are set and all others are null. -/
def Occupied (h : LockFreeHeap) : Prop := ∀ i, (h.heap i).isSome ↔ i < h.size

/-- Each cell is at most its parent. -/
def Ordered (h : LockFreeHeap) : Prop := ∀ i, i ≠ 0 → rank prio h i ≤ rank prio h (parent i)

/-- A heap between the calls of a single-threaded run. -/
structure Valid (h : LockFreeHeap) : Prop where
  bounded : h.size ≤ h.capacity
  occupied : Occupied h
  ordered : Ordered prio h

/-- `h'` holds the cells of `h` in another order, with the same `size_` and `capacity`. -/
structure Rearranged (h h' : LockFreeHeap) : Prop where
  size : h'.size = h.size
  capacity : h'.capacity = h.capacity
  occupied : Occupied h'
  perm : (live h').Perm (live h)

end

theorem rank_some {prio : Nat → Int} {h : LockFreeHeap} {i c : Nat} (hc : h.heap i = some c) :
    rank prio h i = (prio c : WithBot Int) := by simp [rank, hc]; rfl

theorem rank_none {prio : Nat → Int} {h : LockFreeHeap} {i : Nat} (hc : h.heap i = none) :
    rank prio h i = ⊥ := by simp [rank, hc]; rfl

theorem rank_swap (prio : Nat → Int) (h : LockFreeHeap) (a b i : Nat) :
    rank prio (h.swap a b) i = rank prio h (Equiv.swap a b i) := by
  simp only [rank, swap_heap, Function.comp]

theorem Occupied.some {h : LockFreeHeap} (occ : Occupied h) {i : Nat} (lt : i < h.size) :
    ∃ c, h.heap i = some c := Option.isSome_iff_exists.mp ((occ i).mpr lt)

theorem Occupied.none {h : LockFreeHeap} (occ : Occupied h) {i : Nat} (ge : h.size ≤ i) :
    h.heap i = none := by
  rcases e : h.heap i with _ | c
  · rfl
  · have := (occ i).mp (by simp [e])
    omega

theorem Occupied.lt_of_bot_lt {prio : Nat → Int} {h : LockFreeHeap} (occ : Occupied h) {i : Nat}
    (above : ⊥ < rank prio h i) : i < h.size := by
  by_contra ge
  rw [rank_none (occ.none (by omega))] at above
  exact lt_irrefl _ above

theorem Occupied.swap {h : LockFreeHeap} (occ : Occupied h) {a b : Nat} (ha : a < h.size)
    (hb : b < h.size) : Occupied (h.swap a b) := by
  intro i
  rw [swap_heap, Function.comp, occ, swap_size]
  by_cases ia : i = a
  · subst ia; simp [ha, hb]
  · by_cases ib : i = b
    · subst ib; simp [ha, hb]
    · rw [Equiv.swap_apply_of_ne_of_ne ia ib]

theorem live_eq (h : LockFreeHeap) : live h = (List.range h.size).filterMap h.heap := rfl

theorem filterMap_range_swap (f : Nat → Option Nat) {n a b : Nat} (ha : a < n) (hb : b < n) :
    ((List.range n).filterMap (f ∘ Equiv.swap a b)).Perm ((List.range n).filterMap f) := by
  rw [← List.filterMap_map]
  apply List.Perm.filterMap
  apply (List.perm_ext_iff_of_nodup (List.Nodup.map (Equiv.injective _) (List.nodup_range n))
    (List.nodup_range n)).mpr
  intro i
  simp only [List.mem_map, List.mem_range]
  constructor
  · rintro ⟨j, lt, rfl⟩
    by_cases ja : j = a
    · subst ja; simpa using hb
    · by_cases jb : j = b
      · subst jb; simpa using ha
      · rwa [Equiv.swap_apply_of_ne_of_ne ja jb]
  · intro lt
    refine ⟨Equiv.swap a b i, ?_, Equiv.swap_apply_self _ _ _⟩
    by_cases ia : i = a
    · subst ia; simpa using hb
    · by_cases ib : i = b
      · subst ib; simpa using ha
      · rwa [Equiv.swap_apply_of_ne_of_ne ia ib]

theorem Rearranged.refl {h : LockFreeHeap} (occ : Occupied h) : Rearranged h h :=
  ⟨rfl, rfl, occ, List.Perm.refl _⟩

theorem Rearranged.trans {h h' h'' : LockFreeHeap} (first : Rearranged h h')
    (second : Rearranged h' h'') : Rearranged h h'' :=
  ⟨second.size.trans first.size, second.capacity.trans first.capacity, second.occupied,
    second.perm.trans first.perm⟩

theorem Rearranged.swap {h : LockFreeHeap} (occ : Occupied h) {a b : Nat} (ha : a < h.size)
    (hb : b < h.size) : Rearranged h (h.swap a b) := by
  refine ⟨rfl, rfl, occ.swap ha hb, ?_⟩
  simp only [live_eq, swap_size, swap_heap]
  exact filterMap_range_swap _ ha hb

section
variable (prio : Nat → Int)

/-- The parent of `hole` is at least every child of `hole`. -/
def Grand (h : LockFreeHeap) (hole : Nat) : Prop :=
  hole ≠ 0 → ∀ i, i ≠ 0 → parent i = hole → rank prio h i ≤ rank prio h (parent hole)

/-- The order while `sift_up` carries a node at `hole`: all pairs but the one above `hole`. -/
structure UpOrder (h : LockFreeHeap) (hole : Nat) : Prop where
  except : ∀ i, i ≠ 0 → i ≠ hole → rank prio h i ≤ rank prio h (parent i)
  grand : Grand prio h hole

/-- The order while `sift_down` carries a node at `hole`: all pairs but those below `hole`. -/
structure DownOrder (h : LockFreeHeap) (hole : Nat) : Prop where
  except : ∀ i, i ≠ 0 → parent i ≠ hole → rank prio h i ≤ rank prio h (parent i)
  grand : Grand prio h hole

end

variable {prio : Nat → Int}

theorem UpOrder.move {h : LockFreeHeap} {hole : Nat} (up : UpOrder prio h hole) (pos : hole ≠ 0)
    (below : rank prio h (parent hole) < rank prio h hole) :
    UpOrder prio (h.swap (parent hole) hole) (parent hole) := by
  have lt := parent_lt pos
  constructor
  · intro i zero ne
    simp only [rank_swap]
    by_cases ih : i = hole
    · subst ih
      rw [Equiv.swap_apply_right, Equiv.swap_apply_left]
      exact below.le
    rw [Equiv.swap_apply_of_ne_of_ne ne ih]
    by_cases sibling : parent i = parent hole
    · rw [sibling, Equiv.swap_apply_left]
      exact (up.except i zero ih).trans (sibling ▸ below.le)
    by_cases child : parent i = hole
    · rw [child, Equiv.swap_apply_right]
      exact up.grand pos i zero child
    rw [Equiv.swap_apply_of_ne_of_ne sibling child]
    exact up.except i zero ih
  · intro qpos i zero pi
    have upper := up.except _ qpos lt.ne
    have qlt := parent_lt qpos
    simp only [rank_swap]
    rw [Equiv.swap_apply_of_ne_of_ne qlt.ne (by omega)]
    by_cases ih : i = hole
    · subst ih
      rw [Equiv.swap_apply_right]
      exact upper
    have iq : i ≠ parent hole := fun e => (parent_lt qpos).ne (e ▸ pi)
    rw [Equiv.swap_apply_of_ne_of_ne iq ih]
    exact (up.except i zero ih).trans (pi ▸ upper)

theorem UpOrder.finish {h : LockFreeHeap} {hole : Nat} (up : UpOrder prio h hole)
    (stop : hole ≠ 0 → rank prio h hole ≤ rank prio h (parent hole)) : Ordered prio h := by
  intro i zero
  by_cases ih : i = hole
  · subst ih; exact stop zero
  · exact up.except i zero ih

theorem siftUp_spec {h : LockFreeHeap} {index : Nat} (occ : Occupied h) (inRange : index < h.size)
    (up : UpOrder prio h index) :
    Rearranged h (siftUp prio h index) ∧ Ordered prio (siftUp prio h index) := by
  induction h, index using siftUp.induct prio with
  | case1 h =>
    rw [siftUp]
    exact ⟨.refl occ, up.finish (absurd rfl)⟩
  | case2 h index zero c p hp hc stop =>
    rw [siftUp, if_neg zero, hc, hp]
    simp only [if_pos stop]
    refine ⟨.refl occ, up.finish fun _ => ?_⟩
    rw [rank_some hc, rank_some hp]
    exact WithBot.coe_le_coe.mpr stop
  | case3 h index zero c p hp hc climb ih =>
    have lt := parent_lt zero
    have swapped : (h.set (parent index) (some c)).set index (some p) = h.swap (parent index) index := by
      rw [swap, hc, hp]
    rw [siftUp, if_neg zero, hc, hp]
    simp only [if_neg climb]
    rw [swapped] at ih ⊢
    have below : rank prio h (parent index) < rank prio h index := by
      rw [rank_some hc, rank_some hp]
      exact WithBot.coe_lt_coe.mpr (by omega)
    have step : Rearranged h (h.swap (parent index) index) := .swap occ (by omega) inRange
    obtain ⟨rest, ordered⟩ := ih (occ.swap (by omega) inRange) (by simp; omega) (up.move zero below)
    exact ⟨step.trans rest, ordered⟩
  | case4 h index zero null =>
    obtain ⟨c, hc⟩ := occ.some inRange
    obtain ⟨p, hp⟩ := occ.some (show parent index < h.size by have := parent_lt zero; omega)
    exact absurd (null c p hc hp) id

theorem children_iff {i index : Nat} :
    (i ≠ 0 ∧ parent i = index) ↔ (i = 2 * index + 1 ∨ i = 2 * index + 2) := by
  unfold parent; omega

theorem pickLeft_eq {h : LockFreeHeap} {index : Nat} (occ : Occupied h) (inRange : index < h.size) :
    pickLeft prio h h.size index =
      some (if rank prio h index < rank prio h (2 * index + 1) then 2 * index + 1 else index) := by
  obtain ⟨c, hc⟩ := occ.some inRange
  unfold pickLeft
  split
  · next left =>
    obtain ⟨l, hl⟩ := occ.some left
    simp [hl, hc, rank_some hl, rank_some hc, WithBot.coe_lt_coe]
  · next left => simp [rank_none (occ.none (not_lt.mp left))]

theorem pickRight_eq {h : LockFreeHeap} {index a : Nat} (occ : Occupied h) (ha : a < h.size) :
    pickRight prio h h.size index a =
      some (if rank prio h a < rank prio h (2 * index + 2) then 2 * index + 2 else a) := by
  obtain ⟨c, hc⟩ := occ.some ha
  unfold pickRight
  split
  · next right =>
    obtain ⟨r, hr⟩ := occ.some right
    simp [hr, hc, rank_some hr, rank_some hc, WithBot.coe_lt_coe]
  · next right => simp [rank_none (occ.none (not_lt.mp right))]

theorem maxIndexOf_spec {h : LockFreeHeap} {index : Nat} (occ : Occupied h) (inRange : index < h.size) :
    ∃ m, maxIndexOf prio h h.size index = some m ∧
      (∀ i, i ≠ 0 → parent i = index → rank prio h i ≤ rank prio h m) ∧
      (m ≠ index → m ≠ 0 ∧ parent m = index ∧ m < h.size ∧ rank prio h index < rank prio h m) := by
  obtain ⟨c, hc⟩ := occ.some inRange
  have floor : ⊥ < rank prio h index := by rw [rank_some hc]; exact WithBot.bot_lt_coe _
  set a := if rank prio h index < rank prio h (2 * index + 1) then 2 * index + 1 else index with ha
  have aLeft : rank prio h (2 * index + 1) ≤ rank prio h a ∧ rank prio h index ≤ rank prio h a ∧
      (a ≠ index → a = 2 * index + 1 ∧ rank prio h index < rank prio h a) := by
    by_cases up : rank prio h index < rank prio h (2 * index + 1)
    · rw [ha, if_pos up]; exact ⟨le_rfl, up.le, fun _ => ⟨rfl, up⟩⟩
    · rw [ha, if_neg up]; exact ⟨not_lt.mp up, le_rfl, fun ne => absurd rfl ne⟩
  have aRange : a < h.size := by
    by_cases same : a = index
    · rw [same]; exact inRange
    · exact occ.lt_of_bot_lt (floor.trans (aLeft.2.2 same).2)
  refine ⟨if rank prio h a < rank prio h (2 * index + 2) then 2 * index + 2 else a, ?_, ?_, ?_⟩
  · rw [maxIndexOf, pickLeft_eq occ inRange, Option.some_bind, ← ha, pickRight_eq occ aRange]
  · intro i zero pi
    rcases children_iff.mp ⟨zero, pi⟩ with rfl | rfl
    · split
      · exact aLeft.1.trans (by assumption : rank prio h a < _).le
      · exact aLeft.1
    · split
      · exact le_rfl
      · exact not_lt.mp (by assumption)
  · split
    · next up =>
      intro _
      have above : rank prio h index < rank prio h (2 * index + 2) := lt_of_le_of_lt aLeft.2.1 up
      exact ⟨by omega, by unfold parent; omega, occ.lt_of_bot_lt (floor.trans above), above⟩
    · intro ne
      obtain ⟨left, up⟩ := aLeft.2.2 ne
      exact ⟨by omega, by rw [left]; unfold parent; omega, aRange, up⟩

theorem DownOrder.move {h : LockFreeHeap} {hole m : Nat} (down : DownOrder prio h hole)
    (zero : m ≠ 0) (child : parent m = hole) (below : rank prio h hole < rank prio h m)
    (largest : ∀ i, i ≠ 0 → parent i = hole → rank prio h i ≤ rank prio h m) :
    DownOrder prio (h.swap hole m) m := by
  have lt : hole < m := child ▸ parent_lt zero
  constructor
  · intro i izero pi
    simp only [rank_swap]
    by_cases im : i = m
    · subst im
      rw [Equiv.swap_apply_right, child, Equiv.swap_apply_left]
      exact below.le
    by_cases ih : i = hole
    · subst ih
      have qlt := parent_lt izero
      rw [Equiv.swap_apply_left, Equiv.swap_apply_of_ne_of_ne qlt.ne (by omega)]
      exact down.grand izero m zero child
    rw [Equiv.swap_apply_of_ne_of_ne ih im]
    by_cases sibling : parent i = hole
    · rw [sibling, Equiv.swap_apply_left]
      exact largest i izero sibling
    rw [Equiv.swap_apply_of_ne_of_ne sibling pi]
    exact down.except i izero sibling
  · intro _ i izero pi
    have gt : m < i := pi ▸ parent_lt izero
    simp only [rank_swap]
    rw [Equiv.swap_apply_of_ne_of_ne (by omega) (by omega), child, Equiv.swap_apply_left]
    have ordered := down.except i izero (by omega)
    rwa [pi] at ordered

theorem DownOrder.finish {h : LockFreeHeap} {hole : Nat} (down : DownOrder prio h hole)
    (stop : ∀ i, i ≠ 0 → parent i = hole → rank prio h i ≤ rank prio h hole) : Ordered prio h := by
  intro i zero
  by_cases pi : parent i = hole
  · rw [pi]; exact stop i zero pi
  · exact down.except i zero pi

theorem siftDown_spec {h : LockFreeHeap} {n index : Nat} (sized : n = h.size) (occ : Occupied h)
    (inRange : index < n) (down : DownOrder prio h index) :
    ∃ h', siftDown prio h n index = some h' ∧ Rearranged h h' ∧ Ordered prio h' := by
  induction h, n, index using siftDown.induct prio with
  | case1 h n index missing =>
    subst sized
    obtain ⟨m, found, -⟩ := maxIndexOf_spec occ inRange
    rw [Option.attach_eq_none_iff, found] at missing
    cases missing
  | case2 h n m found _ =>
    subst sized
    obtain ⟨m', found', largest, -⟩ := maxIndexOf_spec occ inRange
    obtain rfl : m = m' := Option.some.inj (found.symm.trans found')
    rw [siftDown_eq, found]
    exact ⟨h, by simp, .refl occ, down.finish largest⟩
  | case3 h n index m found _ ne ih =>
    subst sized
    obtain ⟨m', found', largest, bigger⟩ := maxIndexOf_spec occ inRange
    obtain rfl : m = m' := Option.some.inj (found.symm.trans found')
    obtain ⟨zero, child, mRange, below⟩ := bigger ne
    have step : Rearranged h (h.swap index m) := .swap occ inRange mRange
    obtain ⟨h', result, rest, ordered⟩ :=
      ih rfl (occ.swap inRange mRange) mRange (down.move zero child below largest)
    refine ⟨h', ?_, step.trans rest, ordered⟩
    rw [siftDown_eq, found]
    simpa [ne, swap] using result

/-! ### `push` and `pop` -/

theorem rank_set_ne {h : LockFreeHeap} {i j : Nat} (v : Option Nat) (ne : i ≠ j) :
    rank prio (h.set j v) i = rank prio h i := by simp [rank, ne]

theorem live_cons (h : LockFreeHeap) (k : Nat) (sized : h.size = k + 1) :
    live h = (h.heap 0).toList ++ (List.range k).filterMap (h.heap ∘ Nat.succ) := by
  rw [live_eq, sized, List.range_succ_eq_map, List.filterMap_cons, ← List.filterMap_map]
  cases h.heap 0 <;> rfl

theorem live_snoc (f : Nat → Option Nat) (k : Nat) :
    (List.range (k + 1)).filterMap f = (List.range k).filterMap f ++ (f k).toList := by
  rw [List.range_succ, List.filterMap_append, List.filterMap_cons, List.filterMap_nil]
  cases f k <;> rfl

theorem filterMap_range_congr {f g : Nat → Option Nat} {k : Nat} (same : ∀ i < k, f i = g i) :
    (List.range k).filterMap f = (List.range k).filterMap g :=
  List.filterMap_congr fun i mem => same i (List.mem_range.mp mem)

theorem Ordered.root_max {h : LockFreeHeap} (ordered : Ordered prio h) (i : Nat) :
    rank prio h i ≤ rank prio h 0 := by
  induction i using Nat.strong_induction_on with
  | _ i ih =>
    by_cases zero : i = 0
    · rw [zero]
    · exact (ordered i zero).trans (ih _ (parent_lt zero))

theorem push_full {h : LockFreeHeap} (node : Nat) (full : h.capacity ≤ h.size) :
    push prio h node = (h, false) := by simp [push, full]

theorem push_room {h : LockFreeHeap} (valid : Valid prio h) (room : h.size < h.capacity) (node : Nat) :
    ∃ h', push prio h node = (h', true) ∧ Valid prio h' ∧ h'.size = h.size + 1 ∧
      h'.capacity = h.capacity ∧ (live h').Perm (node :: live h) := by
  set grown := ({ h with size := h.size + 1 } : LockFreeHeap).set h.size (some node) with hgrown
  have outside : ∀ i, h.size < i → rank prio grown i = ⊥ := fun i gt => by
    rw [hgrown, rank_set_ne _ (by omega)]
    exact rank_none (valid.occupied.none gt.le)
  have occ : Occupied grown := by
    intro i
    by_cases tail : i = h.size
    · subst tail
      simp only [hgrown, set_heap_self, Option.isSome_some, true_iff]
      exact Nat.lt_succ_self _
    · simp only [hgrown, set_heap_ne _ _ tail, valid.occupied i]
      show i < h.size ↔ i < h.size + 1
      omega
  have up : UpOrder prio grown h.size := by
    constructor
    · intro i zero ne
      by_cases above : parent i = h.size
      · rw [outside i (above ▸ parent_lt zero)]; exact bot_le
      · rw [hgrown, rank_set_ne _ ne, rank_set_ne _ above]
        exact valid.ordered i zero
    · intro _ i zero pi
      rw [outside i (pi ▸ parent_lt zero)]; exact bot_le
  obtain ⟨arranged, ordered⟩ := siftUp_spec occ (show h.size < h.size + 1 from Nat.lt_succ_self _) up
  refine ⟨_, by simp [push, not_le.mpr room, hgrown], ⟨?_, arranged.occupied, ordered⟩, ?_, ?_, ?_⟩
  · rw [arranged.size, arranged.capacity]; simp [hgrown]; omega
  · rw [arranged.size]; simp [hgrown]
  · rw [arranged.capacity]; simp [hgrown]
  · refine arranged.perm.trans ?_
    have cells : live grown = live h ++ [node] := by
      rw [live_eq, show grown.size = h.size + 1 by simp [hgrown], live_snoc, live_eq]
      simp only [hgrown, set_heap_self, Option.toList_some]
      congr 1
      exact filterMap_range_congr fun i lt => set_heap_ne _ _ (by omega)
    rw [cells]
    exact List.perm_append_singleton _ _

theorem siftDown_size {h h' : LockFreeHeap} {n index : Nat}
    (sifted : siftDown prio h n index = some h') : h'.size = h.size ∧ h'.capacity = h.capacity := by
  induction h, n, index using siftDown.induct prio with
  | case1 h n index missing =>
    rw [siftDown_eq, (Option.attach_eq_none_iff _).mp missing] at sifted; cases sifted
  | case2 h n m found _ => rw [siftDown_eq, found] at sifted; simp at sifted; simp [sifted]
  | case3 h n index m found _ ne ih =>
    rw [siftDown_eq, found] at sifted
    simp only [ne, dite_false, if_false] at sifted
    simpa using ih sifted

theorem pop_size {h h' : LockFreeHeap} {r : Option Nat} (nonempty : h.size ≠ 0)
    (popped : pop prio h = some (h', r)) : h'.size = h.size - 1 := by
  unfold pop at popped
  simp only [nonempty, if_false] at popped
  split at popped
  · cases popped
  · split at popped
    · obtain ⟨h'', sifted, same⟩ := Option.map_eq_some'.mp popped
      cases same
      simpa using (siftDown_size sifted).1
    · cases popped; rfl

theorem pop_empty {h : LockFreeHeap} (empty : h.size = 0) : pop prio h = some (h, none) := by
  simp [pop, empty]

theorem Valid.root_max {h : LockFreeHeap} (valid : Valid prio h) {top : Nat} (htop : h.heap 0 = some top) :
    ∀ x ∈ live h, prio x ≤ prio top := by
  intro x mem
  obtain ⟨i, -, hx⟩ := List.mem_filterMap.mp mem
  have := valid.ordered.root_max i
  rwa [rank_some hx, rank_some htop, WithBot.coe_le_coe] at this

theorem moved_spec {h : LockFreeHeap} (valid : Valid prio h) {top k : Nat} (htop : h.heap 0 = some top)
    (sized : h.size = k + 2) :
    Occupied ((({ h with size := h.size - 1 } : LockFreeHeap).set (h.size - 1) none).set 0
        (h.heap (h.size - 1))) ∧
      DownOrder prio ((({ h with size := h.size - 1 } : LockFreeHeap).set (h.size - 1) none).set 0
        (h.heap (h.size - 1))) 0 ∧
      (live h).Perm (top :: live ((({ h with size := h.size - 1 } : LockFreeHeap).set (h.size - 1)
        none).set 0 (h.heap (h.size - 1)))) := by
  set rest := ({ h with size := h.size - 1 } : LockFreeHeap).set (h.size - 1) none with hrest
  set moved := rest.set 0 (h.heap (h.size - 1)) with hmoved
  have movedRank : ∀ i, i ≠ 0 → i ≠ h.size - 1 → rank prio moved i = rank prio h i :=
    fun i zero ne => by rw [hmoved, rank_set_ne _ zero, hrest, rank_set_ne _ ne]; rfl
  have gone : ∀ i, h.size - 1 ≤ i → rank prio moved i = ⊥ := fun i ge => by
    by_cases tail : i = h.size - 1
    · subst tail; simp [hmoved, hrest, rank, show h.size - 1 ≠ 0 by omega]; rfl
    · rw [movedRank i (by omega) tail, rank_none (valid.occupied.none (by omega))]
  refine ⟨fun i => ?_, ⟨fun i zero pi => ?_, fun ne => absurd rfl ne⟩, ?_⟩
  · by_cases zero : i = 0
    · subst zero
      rw [hmoved, set_heap_self, valid.occupied]
      simp [hrest]
      omega
    by_cases tail : i = h.size - 1
    · subst tail; simp [hmoved, hrest, zero]
    · simp only [hmoved, set_heap_ne _ _ zero, hrest, set_heap_ne _ _ tail, valid.occupied i]
      show i < h.size ↔ i < h.size - 1
      omega
  · by_cases ge : h.size - 1 ≤ i
    · rw [gone i ge]; exact bot_le
    · have lt := parent_lt zero
      rw [movedRank i zero (by omega), movedRank _ pi (by omega)]
      exact valid.ordered i zero
  · have movedCells : live moved = (h.heap (h.size - 1)).toList ++
        (List.range k).filterMap (h.heap ∘ Nat.succ) := by
      rw [live_cons moved k (by simp [hmoved, hrest, sized])]
      simp only [hmoved, set_heap_self]
      congr 1
      exact filterMap_range_congr fun i lt => by
        simp only [Function.comp, hmoved, hrest, set_heap_ne _ _ (Nat.succ_ne_zero i),
          set_heap_ne _ _ (show i + 1 ≠ h.size - 1 by omega)]
    have last : (h.heap ∘ Nat.succ) k = h.heap (h.size - 1) := by
      simp only [Function.comp]; congr 1; omega
    rw [live_cons h (k + 1) sized, htop, live_snoc, movedCells, last]
    simp only [Option.toList_some, List.singleton_append]
    exact (List.perm_append_comm).cons top

theorem pop_spec {h : LockFreeHeap} (valid : Valid prio h) (nonempty : h.size ≠ 0) :
    ∃ h' top, pop prio h = some (h', some top) ∧ Valid prio h' ∧ h'.size = h.size - 1 ∧
      h'.capacity = h.capacity ∧ (live h).Perm (top :: live h') ∧
      ∀ x ∈ live h, prio x ≤ prio top := by
  obtain ⟨top, htop⟩ := valid.occupied.some (Nat.pos_of_ne_zero nonempty)
  set rest := ({ h with size := h.size - 1 } : LockFreeHeap).set (h.size - 1) none with hrest
  obtain ⟨k, sized⟩ : ∃ k, h.size = k + 1 := ⟨h.size - 1, by omega⟩
  rcases k with _ | k
  · have empty : ∀ i, rank prio rest i = ⊥ := fun i => by
      apply rank_none
      by_cases zero : i = 0
      · subst zero; rw [hrest, show h.size - 1 = 0 by omega]; exact set_heap_self _ _ _
      · rw [hrest, set_heap_ne _ _ (by omega)]; exact valid.occupied.none (by omega)
    refine ⟨rest, top, by simp [pop, nonempty, htop, hrest, sized],
      ⟨by simp [hrest]; omega, fun i => ?_, fun i _ => by rw [empty]; exact bot_le⟩,
      by simp [hrest], by simp [hrest], ?_, valid.root_max htop⟩
    · by_cases zero : i = 0
      · subst zero; simp [hrest, sized]
      · simp only [hrest, set_heap_ne _ _ (show i ≠ h.size - 1 by omega), valid.occupied i]
        simp [hrest]; omega
    · rw [live_cons h 0 sized, htop]
      simp [live_eq, hrest, sized]
  · set moved := rest.set 0 (h.heap (h.size - 1)) with hmoved
    obtain ⟨occ, down, cells⟩ := moved_spec valid htop sized
    obtain ⟨h', sifted, arranged, ordered⟩ :=
      siftDown_spec (show h.size - 1 = moved.size by simp [hmoved, hrest]) occ (by omega) down
    refine ⟨h', top, ?_, ⟨?_, arranged.occupied, ordered⟩, ?_, ?_,
      cells.trans (arranged.perm.symm.cons top), valid.root_max htop⟩
    · simp only [pop, nonempty, htop, if_false, show 1 < h.size by omega, if_true]
      rw [← hrest, ← hmoved, sifted]
      rfl
    · rw [arranged.size, arranged.capacity]; simp [hmoved, hrest]; have := valid.bounded; omega
    · rw [arranged.size]; simp [hmoved, hrest]
    · rw [arranged.capacity]; simp [hmoved, hrest]

theorem Occupied.mem_live {h : LockFreeHeap} (occ : Occupied h) {i x : Nat} (hx : h.heap i = Option.some x) :
    x ∈ live h :=
  List.mem_filterMap.mpr ⟨i, List.mem_range.mpr ((occ i).mp (by rw [hx]; rfl)), hx⟩

theorem Valid.congr {prio' : Nat → Int} {h : LockFreeHeap} (valid : Valid prio h)
    (agree : ∀ x ∈ live h, prio' x = prio x) : Valid prio' h := by
  have same : ∀ i, rank prio' h i = rank prio h i := fun i => by
    cases hi : h.heap i with
    | none => rw [rank_none hi, rank_none hi]
    | some x => rw [rank_some hi, rank_some hi, agree x (valid.occupied.mem_live hi)]
  exact ⟨valid.bounded, valid.occupied, fun i ne => by rw [same, same]; exact valid.ordered i ne⟩

theorem push_init {capacity : Nat} (pos : 0 < capacity) (node : Nat) :
    push prio (init capacity) node = (({ init capacity with size := 1 } : LockFreeHeap).set 0 (some node), true) := by
  rw [push, if_neg (by simp [init]; omega), siftUp]
  simp [init]

theorem siftUp_capacity (h : LockFreeHeap) (index : Nat) :
    (siftUp prio h index).capacity = h.capacity := by
  induction index using Nat.strong_induction_on generalizing h with
  | _ index ih =>
    rw [siftUp]
    by_cases zero : index = 0
    · rw [if_pos zero]
    · rw [if_neg zero]
      split
      · split
        · rfl
        · rw [ih _ (parent_lt zero)]; rfl
      · rfl

theorem push_capacity (h : LockFreeHeap) (node : Nat) : (push prio h node).1.capacity = h.capacity := by
  unfold push
  split
  · rfl
  · rw [siftUp_capacity]; rfl

theorem siftUp_size (h : LockFreeHeap) (index : Nat) : (siftUp prio h index).size = h.size := by
  induction index using Nat.strong_induction_on generalizing h with
  | _ index ih =>
    rw [siftUp]
    by_cases zero : index = 0
    · rw [if_pos zero]
    · rw [if_neg zero]
      split
      · split
        · rfl
        · rw [ih _ (parent_lt zero)]; rfl
      · rfl

theorem push_fits {h : LockFreeHeap} (fits : h.size ≤ h.capacity) (node : Nat) :
    (push prio h node).1.size ≤ (push prio h node).1.capacity := by
  unfold push
  split
  · exact fits
  · rw [siftUp_size, siftUp_capacity]
    show h.size + 1 ≤ h.capacity
    omega

theorem Occupied.length_live {h : LockFreeHeap} (occ : Occupied h) : (live h).length = h.size := by
  suffices all : ∀ k ≤ h.size, ((List.range k).filterMap h.heap).length = k from all _ le_rfl
  intro k
  induction k with
  | zero => intro; rfl
  | succ k ih =>
    intro le
    obtain ⟨x, hx⟩ := occ.some (show k < h.size by omega)
    rw [live_snoc, List.length_append, ih (by omega), hx]
    rfl

/-! ### Single-threaded runs -/

/-- A call of a single-threaded client. -/
inductive Op where
  | push (node : Nat)
  | pop

section
variable (prio)

/-- One call run to its return; `none` when it never returns. -/
def perform (h : LockFreeHeap) : Op → Option LockFreeHeap
  | .push node => some (push prio h node).1
  | .pop => (pop prio h).map (·.1)

/-- The next call of a single-threaded run; `none` once a call has not returned. -/
def call (s : Option LockFreeHeap) (op : Op) : Option LockFreeHeap := s.bind (perform prio · op)

/-- What a single-threaded client sees of a heap of capacity `c` between two calls. -/
structure Laws (c : Nat) (h : LockFreeHeap) : Prop where
  bounded : h.size ≤ c
  occupied : ∀ i, (h.heap i).isSome ↔ i < h.size
  ordered : ∀ i, 0 < i → i < h.size →
    ∃ x y, h.heap (parent i) = some x ∧ h.heap i = some y ∧ prio y ≤ prio x
  push_fails : ∀ node, (push prio h node).2 = false ↔ h.size = c
  push_unchanged : ∀ node, (push prio h node).2 = false → (push prio h node).1 = h
  push_adds : ∀ node, (push prio h node).2 = true → (live (push prio h node).1).Perm (node :: live h)
  pop_null : (∃ h', pop prio h = some (h', none)) ↔ h.size = 0
  pop_max : h.size ≠ 0 → ∃ h' top, pop prio h = some (h', some top) ∧
    (∀ x ∈ live h, prio x ≤ prio top) ∧ (live h).Perm (top :: live h')

end

theorem push_result {h : LockFreeHeap} (valid : Valid prio h) (node : Nat) :
    (push prio h node).2 = false ↔ h.capacity ≤ h.size := by
  by_cases full : h.capacity ≤ h.size
  · simp [push_full node full, full]
  · obtain ⟨h', pushed, -⟩ := push_room valid (Nat.lt_of_not_le full) node
    simp [pushed, full]

theorem Valid.laws {c : Nat} {h : LockFreeHeap} (valid : Valid prio h) (cap : h.capacity = c) :
    Laws prio c h where
  bounded := cap ▸ valid.bounded
  occupied := valid.occupied
  ordered i pos lt := by
    obtain ⟨y, hy⟩ := valid.occupied.some lt
    obtain ⟨x, hx⟩ := valid.occupied.some ((parent_lt (Nat.pos_iff_ne_zero.mp pos)).trans lt)
    have le := valid.ordered i (Nat.pos_iff_ne_zero.mp pos)
    rw [rank_some hy, rank_some hx, WithBot.coe_le_coe] at le
    exact ⟨x, y, hx, hy, le⟩
  push_fails node := by
    rw [push_result valid, ← cap]
    exact ⟨fun full => Nat.le_antisymm valid.bounded full, fun full => Nat.le_of_eq full.symm⟩
  push_unchanged node failed := by
    rw [push_full node ((push_result valid node).mp failed)]
  push_adds node pushed := by
    have room : h.size < h.capacity :=
      Nat.lt_of_not_le fun full => by rw [push_full node full] at pushed; cases pushed
    obtain ⟨h', done, -, -, -, perm⟩ := push_room valid room node
    rw [done]
    exact perm
  pop_null := by
    constructor
    · rintro ⟨h', popped⟩
      by_contra nonempty
      obtain ⟨h'', top, popped', -⟩ := pop_spec valid nonempty
      rw [popped] at popped'
      cases popped'
    · intro empty
      exact ⟨h, pop_empty empty⟩
  pop_max nonempty := by
    obtain ⟨h', top, popped, -, -, -, perm, maximal⟩ := pop_spec valid nonempty
    exact ⟨h', top, popped, maximal, perm⟩

theorem perform_valid {h : LockFreeHeap} (valid : Valid prio h) (op : Op) :
    ∃ h', perform prio h op = some h' ∧ Valid prio h' ∧ h'.capacity = h.capacity := by
  cases op with
  | push node =>
    by_cases full : h.capacity ≤ h.size
    · exact ⟨h, by simp [perform, push_full node full], valid, rfl⟩
    · obtain ⟨h', pushed, valid', -, cap, -⟩ := push_room valid (Nat.lt_of_not_le full) node
      exact ⟨h', by simp [perform, pushed], valid', cap⟩
  | pop =>
    by_cases empty : h.size = 0
    · exact ⟨h, by simp [perform, pop_empty empty], valid, rfl⟩
    · obtain ⟨h', top, popped, valid', -, cap, -⟩ := pop_spec valid empty
      exact ⟨h', by simp [perform, popped], valid', cap⟩

theorem valid_init (c : Nat) : Valid prio (init c) where
  bounded := Nat.zero_le _
  occupied i := by simp [init]
  ordered i _ := by simp [rank, init]

/-- Along every single-threaded run of `push` and `pop` calls on a heap of capacity `c`, every
call returns, and between calls the heap obeys the laws. -/
theorem sequential_laws {c : Nat} {s : Option LockFreeHeap}
    (reach : Interleaving.Reachable (call prio) (some (init c)) s) :
    ∃ h, s = some h ∧ Laws prio c h := by
  have inv : ∃ h, s = some h ∧ Valid prio h ∧ h.capacity = c := by
    induction reach with
    | init => exact ⟨init c, rfl, valid_init c, rfl⟩
    | step op _ ih =>
      obtain ⟨h, rfl, valid, cap⟩ := ih
      obtain ⟨h', done, valid', cap'⟩ := perform_valid valid op
      exact ⟨h', done, valid', cap'.trans cap⟩
  obtain ⟨h, rfl, valid, cap⟩ := inv
  exact ⟨h, rfl, valid.laws cap⟩

theorem sequential_laws_after_pushes_and_pop :
    ∃ h, Interleaving.run (call Int.ofNat) (some (init 2)) [.push 5, .push 7, .pop, .push 1] = some h ∧
      Laws Int.ofNat 2 h :=
  sequential_laws (Interleaving.reachable_run .init _)

end RadialCache.LockFreeHeap
