import RadialCache.BloomFilter
import Mathlib.Data.List.Nodup
import Mathlib.Tactic.Linarith
import Mathlib.Tactic.Ring

/-! `CountingBloomFilter` from `bloom_filter.cpp`, its calls run by one thread: 8-bit counters
that `add` raises up to 255 and `remove` lowers down to the first zero, and the runs of a client
that counts each key's adds against its successful removes. -/

namespace RadialCache

/-- `counter_array_`, the two sizes, and `added_elements_`; the calls divide by the array size. -/
structure CountingBloomFilter where
  counterArray : Nat → UInt8
  hashFunctionCount : Nat
  counterArraySize : Nat
  addedElements : Nat

namespace CountingBloomFilter

/-- The filter the constructor leaves: every counter 0. -/
def init (counterArraySize hashFunctionCount : Nat) : CountingBloomFilter :=
  ⟨fun _ => 0, hashFunctionCount, counterArraySize, 0⟩

/-- The counters a key's calls visit. -/
def cells (f : CountingBloomFilter) (key : Key) : List Nat :=
  probes f.hashFunctionCount f.counterArraySize key

theorem cells_lt (f : CountingBloomFilter) (sized : 0 < f.counterArraySize) (key : Key) :
    ∀ p ∈ f.cells key, p < f.counterArraySize := fun p mem => by
  obtain ⟨i, -, rfl⟩ := List.mem_map.mp mem
  exact Nat.mod_lt _ sized

/-- `new_value = (old_value < 255) ? old_value + 1 : 255`. -/
def bump (old : UInt8) : UInt8 := if old < 255 then old + 1 else 255

/-- `increment_counter(index)`, its CAS loop run by one thread. -/
def incrementCounter (f : CountingBloomFilter) (index : Nat) : CountingBloomFilter :=
  { f with counterArray := Function.update f.counterArray index (bump (f.counterArray index)) }

/-- `decrement_counter(index)`; `none` for its `false` at a zero counter. -/
def decrementCounter (f : CountingBloomFilter) (index : Nat) : Option CountingBloomFilter :=
  if f.counterArray index = 0 then none
  else some { f with counterArray := Function.update f.counterArray index (f.counterArray index - 1) }

/-- `add(key)`. -/
def add (f : CountingBloomFilter) (key : Key) : CountingBloomFilter :=
  let bumped := (f.cells key).foldl incrementCounter f
  { bumped with addedElements := (bumped.addedElements + 1) % sizeModulus }

/-- `might_contain(key)`: no counter of the key is 0. -/
def mightContain (f : CountingBloomFilter) (key : Key) : Bool :=
  (f.cells key).all fun index => f.counterArray index != 0

/-- The loop of `remove`: `false` at the first zero counter, keeping earlier decrements. -/
def removeAt (f : CountingBloomFilter) : List Nat → CountingBloomFilter × Bool
  | [] => ({ f with addedElements :=
      if f.addedElements = 0 then sizeModulus - 1 else f.addedElements - 1 }, true)
  | index :: rest =>
      match f.decrementCounter index with
      | none => (f, false)
      | some f' => f'.removeAt rest

/-- `remove(key)`. -/
def remove (f : CountingBloomFilter) (key : Key) : CountingBloomFilter × Bool :=
  f.removeAt (f.cells key)

@[simp] theorem hashFunctionCount_foldl (f : CountingBloomFilter) (cells : List Nat) :
    (cells.foldl incrementCounter f).hashFunctionCount = f.hashFunctionCount := by
  induction cells generalizing f with
  | nil => rfl
  | cons index rest ih => exact ih _

@[simp] theorem counterArraySize_foldl (f : CountingBloomFilter) (cells : List Nat) :
    (cells.foldl incrementCounter f).counterArraySize = f.counterArraySize := by
  induction cells generalizing f with
  | nil => rfl
  | cons index rest ih => exact ih _

@[simp] theorem cells_add (f : CountingBloomFilter) (key other : Key) :
    (f.add key).cells other = f.cells other := by
  simp [add, cells]

theorem counterArray_foldl (f : CountingBloomFilter) {cells : List Nat} (distinct : cells.Nodup)
    (p : Nat) : (cells.foldl incrementCounter f).counterArray p =
      if p ∈ cells then bump (f.counterArray p) else f.counterArray p := by
  induction cells generalizing f with
  | nil => rfl
  | cons index rest ih =>
    obtain ⟨fresh, distinct⟩ := List.nodup_cons.mp distinct
    rw [List.foldl_cons, ih _ distinct]
    by_cases here : p = index
    · subst here; simp [incrementCounter, fresh]
    · simp [incrementCounter, here, Function.update_noteq here]

theorem toNat_bump (v : UInt8) : (bump v).toNat = min (v.toNat + 1) 255 := by
  have bounded : v.toNat < 256 := v.toNat_lt_size
  unfold bump
  split
  · next below =>
    have : v.toNat < 255 := below
    have sum : (v + 1).toNat = (v.toNat + 1) % 256 := BitVec.toNat_add _ _
    omega
  · next above =>
    have : ¬ v.toNat < 255 := above
    show 255 = _
    omega

theorem counterArray_foldl_room (f : CountingBloomFilter) {cells : List Nat}
    (room : ∀ p ∈ cells, (f.counterArray p).toNat + cells.count p ≤ 255) (p : Nat) :
    ((cells.foldl incrementCounter f).counterArray p).toNat = (f.counterArray p).toNat + cells.count p := by
  induction cells generalizing f with
  | nil => rfl
  | cons index rest ih =>
    have raised : ∀ q, ((f.incrementCounter index).counterArray q).toNat =
        (f.counterArray q).toNat + if index = q then 1 else 0 := fun q => by
      by_cases same : index = q
      · subst same
        have := room index (List.mem_cons_self _ _)
        rw [List.count_cons_self] at this
        simp only [incrementCounter, Function.update_same, toNat_bump, if_true]
        omega
      · simp [incrementCounter, Function.update_noteq (Ne.symm same), same]
    rw [List.foldl_cons, ih _ fun q mem => ?_, raised, List.count_cons]
    · by_cases same : index = p
      · simp only [same, beq_self_eq_true, if_true]; omega
      · simp [same]
    · have := room q (List.mem_cons_of_mem _ mem)
      rw [raised, List.count_cons] at *
      by_cases same : index = q <;> simp [same] at this ⊢ <;> omega

theorem removeAt_sizes (f : CountingBloomFilter) (cells : List Nat) :
    (f.removeAt cells).1.hashFunctionCount = f.hashFunctionCount ∧
      (f.removeAt cells).1.counterArraySize = f.counterArraySize := by
  induction cells generalizing f with
  | nil => exact ⟨rfl, rfl⟩
  | cons index rest ih =>
    by_cases zero : f.counterArray index = 0
    · simp [removeAt, decrementCounter, zero]
    · simp only [removeAt, decrementCounter, zero, if_false]; exact ih _

@[simp] theorem cells_remove (f : CountingBloomFilter) (key other : Key) :
    (f.remove key).1.cells other = f.cells other := by
  obtain ⟨count, size⟩ := removeAt_sizes f (f.cells key)
  show probes (f.remove key).1.hashFunctionCount (f.remove key).1.counterArraySize other = _
  rw [remove, count, size]; rfl

theorem removeAt_enough (f : CountingBloomFilter) {cells : List Nat}
    (enough : ∀ p ∈ cells, cells.count p ≤ (f.counterArray p).toNat) :
    (f.removeAt cells).2 = true ∧
      ∀ p, ((f.removeAt cells).1.counterArray p).toNat = (f.counterArray p).toNat - cells.count p := by
  induction cells generalizing f with
  | nil => exact ⟨rfl, fun _ => rfl⟩
  | cons index rest ih =>
    have positive : 1 ≤ f.counterArray index := by
      have := enough index (List.mem_cons_self _ _)
      rw [List.count_cons_self] at this
      show 1 ≤ (f.counterArray index).toNat
      omega
    let f' : CountingBloomFilter :=
      { f with counterArray := Function.update f.counterArray index (f.counterArray index - 1) }
    have decremented : f.decrementCounter index = some f' :=
      if_neg fun zero => by rw [zero] at positive; cases positive
    have lowered : ∀ q, (f'.counterArray q).toNat = (f.counterArray q).toNat - if index = q then 1 else 0 :=
      fun q => by
        by_cases same : index = q
        · subst same
          simp only [f', Function.update_same, if_true, UInt8.toNat_sub_of_le _ _ positive]
          rfl
        · simp [f', Function.update_noteq (Ne.symm same), same]
    obtain ⟨succeeds, counters⟩ := ih f' fun q mem => by
      have := enough q (List.mem_cons_of_mem _ mem)
      rw [lowered]
      rw [List.count_cons] at this
      by_cases same : index = q <;> simp [same] at this ⊢ <;> omega
    simp only [removeAt, decremented]
    refine ⟨succeeds, fun q => ?_⟩
    rw [counters, lowered, List.count_cons]
    by_cases same : index = q
    · simp only [same, beq_self_eq_true, if_true]; omega
    · simp [same]


theorem removeAt_refused (f : CountingBloomFilter) (cells : List Nat)
    (refused : (f.removeAt cells).2 = false) :
    (f.removeAt cells).1.addedElements = f.addedElements ∧
      ∀ p ∉ cells, (f.removeAt cells).1.counterArray p = f.counterArray p := by
  induction cells generalizing f with
  | nil => cases refused
  | cons index rest ih =>
    by_cases zero : f.counterArray index = 0
    · simp [removeAt, decrementCounter, zero]
    · simp only [removeAt, decrementCounter, zero, if_false] at refused ⊢
      obtain ⟨count, counters⟩ := ih _ refused
      refine ⟨count, fun p outside => ?_⟩
      rw [counters p fun mem => outside (List.mem_cons_of_mem _ mem)]
      exact Function.update_noteq (fun same => outside (List.mem_cons.mpr (.inl same))) _ _

/-- A `remove(k)` that returns `false` may still have decremented counters of `k` that it shares
with a key present in the filter. -/
theorem refused_remove_decrements : ¬ ∀ (f : CountingBloomFilter) (key : Key),
    (f.remove key).2 = false →
      (f.remove key).1.counterArray = f.counterArray ∧
        (f.remove key).1.addedElements = f.addedElements := by
  intro law
  have kept := congrFun (law ((init 9 6).add [66]) [65] (by decide)).1 6
  revert kept
  decide

/-- The refused `remove("A")` has erased "B", with which it shares counter 6. -/
example : (((init 9 6).add [66]).remove [65]).1.mightContain [66] = false := by decide

/-! ### Runs of `add` and `remove` -/

/-- Every counter of `key` holds `level`. -/
def Level (f : CountingBloomFilter) (key : Key) (level : Nat) : Prop :=
  ∀ p ∈ f.cells key, (f.counterArray p).toNat = level

theorem Level.add {f : CountingBloomFilter} {key : Key} {level : Nat}
    (distinct : (f.cells key).Nodup) (uniform : f.Level key level) :
    (f.add key).Level key (min (level + 1) 255) := by
  intro p mem
  rw [cells_add] at mem
  show (((f.cells key).foldl incrementCounter f).counterArray p).toNat = _
  rw [counterArray_foldl f distinct, if_pos mem, toNat_bump, uniform p mem]

theorem Level.remove {f : CountingBloomFilter} {key : Key} {level : Nat}
    (distinct : (f.cells key).Nodup) (uniform : f.Level key (level + 1)) :
    (f.remove key).2 = true ∧ (f.remove key).1.Level key level := by
  have once : ∀ p ∈ f.cells key, (f.cells key).count p = 1 := fun p mem =>
    List.count_eq_one_of_mem distinct mem
  obtain ⟨succeeds, counters⟩ :=
    removeAt_enough f fun p mem => by rw [once p mem, uniform p mem]; omega
  refine ⟨succeeds, fun p mem => ?_⟩
  rw [cells_remove] at mem
  show ((f.removeAt (f.cells key)).1.counterArray p).toNat = level
  rw [counters, once p mem, uniform p mem, Nat.add_sub_cancel]

theorem mightContain_of_level_zero {f : CountingBloomFilter} {key : Key}
    (probed : f.cells key ≠ []) (zero : f.Level key 0) : f.mightContain key = false := by
  obtain ⟨p, rest, cells⟩ := List.exists_cons_of_ne_nil probed
  have : f.counterArray p = 0 := UInt8.toNat.inj (zero p (cells ▸ List.mem_cons_self _ _))
  simp [mightContain, cells, this]

/-- No counter of `key` would pass 255 under an `add` of it. -/
def Room (f : CountingBloomFilter) (key : Key) : Prop :=
  ∀ p ∈ f.cells key, (f.counterArray p).toNat + (f.cells key).count p ≤ 255

instance (f : CountingBloomFilter) (key : Key) : Decidable (f.Room key) :=
  inferInstanceAs (Decidable (∀ p ∈ f.cells key, (f.counterArray p).toNat + (f.cells key).count p ≤ 255))

/-! ### `remove` undoes `add` -/

theorem ext_fields {g h : CountingBloomFilter} (counters : g.counterArray = h.counterArray)
    (count : g.hashFunctionCount = h.hashFunctionCount) (size : g.counterArraySize = h.counterArraySize)
    (added : g.addedElements = h.addedElements) : g = h := by
  cases g; cases h; simp_all

@[simp] theorem addedElements_foldl (f : CountingBloomFilter) (cells : List Nat) :
    (cells.foldl incrementCounter f).addedElements = f.addedElements := by
  induction cells generalizing f with
  | nil => rfl
  | cons index rest ih => exact ih _

theorem removeAt_added (f : CountingBloomFilter) (cells : List Nat) (succeeds : (f.removeAt cells).2 = true) :
    (f.removeAt cells).1.addedElements =
      if f.addedElements = 0 then sizeModulus - 1 else f.addedElements - 1 := by
  induction cells generalizing f with
  | nil => rfl
  | cons index rest ih =>
    by_cases zero : f.counterArray index = 0
    · simp [removeAt, decrementCounter, zero] at succeeds
    · simp only [removeAt, decrementCounter, zero, if_false] at succeeds ⊢
      exact ih _ succeeds

/-- On a filter of positive size, `remove(key)` right after `add(key)` returns `true` and restores
the filter exactly, counters and `added_elements_` alike, whenever no counter of the key
saturates; every counter the two calls visit is inside `counter_array_`. -/
theorem remove_add (f : CountingBloomFilter) (key : Key) (sized : 0 < f.counterArraySize)
    (room : f.Room key) (inRange : f.addedElements < sizeModulus) :
    (f.add key).remove key = (f, true) ∧ ∀ p ∈ f.cells key, p < f.counterArraySize := by
  refine ⟨?_, cells_lt f sized key⟩
  have raised : ∀ p, ((f.add key).counterArray p).toNat = (f.counterArray p).toNat + (f.cells key).count p :=
    counterArray_foldl_room f room
  have enough : ∀ p ∈ f.cells key, (f.cells key).count p ≤ ((f.add key).counterArray p).toNat :=
    fun p _ => by rw [raised]; omega
  obtain ⟨succeeds, lowered⟩ := removeAt_enough (f.add key) enough
  obtain ⟨count, size⟩ := removeAt_sizes (f.add key) (f.cells key)
  have added : (f.add key).addedElements = (f.addedElements + 1) % sizeModulus := by simp [add]
  rw [remove, cells_add]
  refine Prod.ext (ext_fields (funext fun p => UInt8.toNat.inj ?_) (count.trans (by simp [add]))
    (size.trans (by simp [add])) ?_) succeeds
  · rw [lowered, raised, Nat.add_sub_cancel]
  · show _ = f.addedElements
    rw [removeAt_added _ _ succeeds, added]
    unfold sizeModulus at *
    split <;> omega

/-- After `add("A")` on the filter `CountingBloomFilter(1)` builds, `add("F")` then `remove("F")`:
the probes of "F" visit counters 0 and 4 twice each, and share 2, 4 and 6 with those of "A". -/
theorem remove_add_with_colliding_probes :
    ((init 9 6).add [65]).cells [70] = [0, 0, 2, 4, 4, 6] ∧
      0 < ((init 9 6).add [65]).counterArraySize ∧ ((init 9 6).add [65]).Room [70] ∧
      ((init 9 6).add [65]).addedElements < sizeModulus ∧
      (((init 9 6).add [65]).add [70]).remove [70] = ((init 9 6).add [65], true) ∧
      ∀ p ∈ ((init 9 6).add [65]).cells [70], p < ((init 9 6).add [65]).counterArraySize :=
  ⟨by decide, by decide, by decide, by decide,
    remove_add ((init 9 6).add [65]) [70] (by decide) (by decide) (by decide)⟩

/-- A call of a single-threaded client of the counting filter. -/
inductive Call where
  | add (key : Key)
  | remove (key : Key)

/-- The filter with, for each key, its `add`s less its successful `remove`s. -/
structure Tally where
  filter : CountingBloomFilter
  net : Key → Int

namespace Tally

/-- A fresh count over the filter `f`. -/
def start (f : CountingBloomFilter) : Tally := ⟨f, fun _ => 0⟩

def call (t : Tally) : Call → Tally
  | .add key => ⟨t.filter.add key, Function.update t.net key (t.net key + 1)⟩
  | .remove key =>
      let removed := t.filter.remove key
      ⟨removed.1, if removed.2 then Function.update t.net key (t.net key - 1) else t.net⟩

/-- Each `remove(k)` of the calls is made while `k`'s adds outnumber its successful removes. -/
def Legal (t : Tally) : List Call → Prop
  | [] => True
  | .add key :: rest => Legal (t.call (.add key)) rest
  | .remove key :: rest => 0 < t.net key ∧ Legal (t.call (.remove key)) rest

instance decidableLegal : (t : Tally) → (calls : List Call) → Decidable (t.Legal calls)
  | _, [] => isTrue trivial
  | t, .add key :: rest => decidableLegal (t.call (.add key)) rest
  | t, .remove key :: rest =>
      @instDecidableAnd _ _ (Int.decLt 0 (t.net key)) (decidableLegal (t.call (.remove key)) rest)

@[simp] theorem cells_call (t : Tally) (c : Call) (key : Key) :
    (t.call c).filter.cells key = t.filter.cells key := by
  cases c <;> simp [call]

@[simp] theorem cells_run (t : Tally) (calls : List Call) (key : Key) :
    (Interleaving.run call t calls).filter.cells key = t.filter.cells key := by
  induction calls generalizing t with
  | nil => rfl
  | cons c rest ih => rw [Interleaving.run_cons, ih, cells_call]

theorem legal_append (t : Tally) (first second : List Call) :
    t.Legal (first ++ second) ↔ t.Legal first ∧ (Interleaving.run call t first).Legal second := by
  induction first generalizing t with
  | nil => simp [Legal]
  | cons c rest ih => cases c <;> simp [Legal, ih, and_assoc]

variable {key : Key}

theorem run_adds (n : Nat) {t : Tally} {level : Nat} (distinct : (t.filter.cells key).Nodup)
    (uniform : t.filter.Level key level) :
    t.Legal (List.replicate n (.add key)) ∧
      (Interleaving.run call t (List.replicate n (.add key))).filter.Level key
        (min (level + n) 255) ∧
      (Interleaving.run call t (List.replicate n (.add key))).net key = t.net key + n := by
  induction n generalizing t level with
  | zero =>
    refine ⟨trivial, fun p mem => ?_, by simp⟩
    have bounded : (t.filter.counterArray p).toNat < 256 := UInt8.toNat_lt_size _
    have := uniform p mem
    simp only [List.replicate_zero, Interleaving.run_nil, Nat.add_zero] at this ⊢
    omega
  | succ n ih =>
    obtain ⟨legal, raised, counted⟩ :=
      ih (t := t.call (.add key)) (by rwa [cells_call]) (Level.add distinct uniform)
    have capped : min (min (level + 1) 255 + n) 255 = min (level + (n + 1)) 255 := by omega
    refine ⟨legal, capped ▸ raised, counted.trans ?_⟩
    simp only [call, Function.update_same]
    omega

theorem run_removes (m : Nat) {t : Tally} {level : Nat} (distinct : (t.filter.cells key).Nodup)
    (uniform : t.filter.Level key (level + m)) (enough : (m : Int) ≤ t.net key) :
    t.Legal (List.replicate m (.remove key)) ∧
      (Interleaving.run call t (List.replicate m (.remove key))).filter.Level key level ∧
      (Interleaving.run call t (List.replicate m (.remove key))).net key = t.net key - m := by
  induction m generalizing t with
  | zero => exact ⟨trivial, uniform, by simp⟩
  | succ m ih =>
    obtain ⟨succeeds, lowered⟩ := Level.remove distinct (show t.filter.Level key (level + m + 1) from uniform)
    have netStep : (t.call (.remove key)).net key = t.net key - 1 := by simp [call, succeeds]
    obtain ⟨legal, low, counted⟩ :=
      ih (t := t.call (.remove key)) (by rwa [cells_call]) lowered (by rw [netStep]; omega)
    refine ⟨⟨by omega, legal⟩, low, counted.trans ?_⟩
    rw [netStep]
    omega

/-- 256 `add`s of a key saturate its counters at 255, and 255 `remove`s then bring them to zero:
the key is reported absent while one of its adds is still outstanding. -/
theorem saturated_key_reported_absent : ¬ ∀ (counterArraySize hashFunctionCount : Nat)
    (calls : List Call), (start (init counterArraySize hashFunctionCount)).Legal calls →
      ∀ key, 0 < (Interleaving.run call (start (init counterArraySize hashFunctionCount)) calls).net key →
        (Interleaving.run call (start (init counterArraySize hashFunctionCount)) calls).filter.mightContain
          key = true := by
  intro law
  have cells : (start (init 9 6)).filter.cells [65] = [6, 7, 8, 2, 3, 4] := by decide
  have distinct : ((start (init 9 6)).filter.cells [65]).Nodup := by rw [cells]; decide
  obtain ⟨addsLegal, raised, added⟩ :=
    run_adds 256 distinct (show (start (init 9 6)).filter.Level [65] 0 from fun _ _ => rfl)
  have saturated : (Interleaving.run call (start (init 9 6))
      (List.replicate 256 (.add [65]))).filter.Level [65] (0 + 255) := raised
  obtain ⟨removesLegal, lowered, removed⟩ :=
    run_removes 255 (by rwa [cells_run]) saturated (by rw [added]; decide)
  have outstanding : 0 < (Interleaving.run call (start (init 9 6))
      (List.replicate 256 (.add [65]) ++ List.replicate 255 (.remove [65]))).net [65] := by
    rw [Interleaving.run_append, removed, added]
    decide
  have reported := law 9 6 _ ((legal_append _ _ _).mpr ⟨addsLegal, removesLegal⟩) [65] outstanding
  have probed : (Interleaving.run call (Interleaving.run call (start (init 9 6))
      (List.replicate 256 (.add [65]))) (List.replicate 255 (.remove [65]))).filter.cells [65] ≠ [] := by
    rw [cells_run, cells_run, cells]
    exact List.cons_ne_nil _ _
  rw [Interleaving.run_append, mightContain_of_level_zero probed lowered] at reported
  cases reported

/-! ### Runs that never saturate -/

/-- Each `add` of the calls is made while its counters have room. -/
def Unsaturated (t : Tally) : List Call → Prop
  | [] => True
  | .add key :: rest => t.filter.Room key ∧ Unsaturated (t.call (.add key)) rest
  | .remove key :: rest => Unsaturated (t.call (.remove key)) rest

instance decidableUnsaturated : (t : Tally) → (calls : List Call) → Decidable (t.Unsaturated calls)
  | _, [] => isTrue trivial
  | t, .add key :: rest => @instDecidableAnd _ _ _ (decidableUnsaturated (t.call (.add key)) rest)
  | t, .remove key :: rest => decidableUnsaturated (t.call (.remove key)) rest

/-- Every counter holds at least what the outstanding adds of any distinct keys put there. -/
def Covers (t : Tally) : Prop :=
  ∀ keys : List Key, keys.Nodup → ∀ p,
    (keys.map fun k => ((t.filter.cells k).count p : Int) * t.net k).sum ≤ (t.filter.counterArray p).toNat

section
variable {c : Key → Int} {net : Key → Int} {key : Key} {v : Int}

theorem sum_update_of_not_mem {keys : List Key} (absent : key ∉ keys) :
    (keys.map fun k => c k * Function.update net key v k).sum = (keys.map fun k => c k * net k).sum :=
  congrArg List.sum (List.map_congr_left fun k mem => by
    rw [Function.update_noteq fun same : k = key => absent (same ▸ mem)])

theorem sum_update_of_mem {keys : List Key} (distinct : keys.Nodup) (present : key ∈ keys) :
    (keys.map fun k => c k * Function.update net key v k).sum =
      (keys.map fun k => c k * net k).sum + c key * (v - net key) := by
  induction keys with
  | nil => cases present
  | cons k rest ih =>
    obtain ⟨fresh, distinct⟩ := List.nodup_cons.mp distinct
    simp only [List.map_cons, List.sum_cons]
    by_cases same : k = key
    · subst same
      rw [Function.update_same, sum_update_of_not_mem fresh]
      ring
    · rw [Function.update_noteq same, ih distinct ((List.mem_cons.mp present).resolve_left (Ne.symm same))]
      ring

end

theorem covers_init (counterArraySize hashFunctionCount : Nat) :
    (start (init counterArraySize hashFunctionCount)).Covers := fun keys _ p => by
  clear ‹keys.Nodup›
  induction keys with
  | nil => simp
  | cons k rest ih => simpa only [List.map_cons, List.sum_cons, start, mul_zero, zero_add] using ih

theorem Covers.add {t : Tally} (covers : t.Covers) {key : Key} (room : t.filter.Room key) :
    (t.call (.add key)).Covers := fun keys distinct p => by
  have raised : ((t.call (.add key)).filter.counterArray p).toNat =
      (t.filter.counterArray p).toNat + (t.filter.cells key).count p :=
    counterArray_foldl_room t.filter room p
  have old := covers keys distinct p
  simp only [cells_call]
  rw [raised, show (t.call (.add key)).net = Function.update t.net key (t.net key + 1) from rfl]
  by_cases present : key ∈ keys
  · rw [sum_update_of_mem distinct present]; push_cast; linarith
  · rw [sum_update_of_not_mem present]; push_cast; linarith [Int.natCast_nonneg ((t.filter.cells key).count p)]

theorem Covers.remove {t : Tally} (covers : t.Covers) {key : Key} (outstanding : 0 < t.net key) :
    (t.filter.remove key).2 = true ∧ (t.call (.remove key)).Covers := by
  have once : ∀ p, ((t.filter.cells key).count p : Int) ≤ (t.filter.cells key).count p * t.net key :=
    fun p => le_mul_of_one_le_right (Int.natCast_nonneg _) outstanding
  have enough : ∀ p, (t.filter.cells key).count p ≤ (t.filter.counterArray p).toNat := fun p => by
    have := covers [key] (List.pairwise_singleton _ _) p
    simp only [List.map_cons, List.map_nil, List.sum_cons, List.sum_nil, add_zero] at this
    have := once p
    omega
  obtain ⟨succeeds, lowered⟩ : (t.filter.remove key).2 = true ∧ _ :=
    removeAt_enough t.filter fun p _ => enough p
  have step : t.call (.remove key) =
      ⟨(t.filter.remove key).1, Function.update t.net key (t.net key - 1)⟩ := by
    simp [call, succeeds]
  refine ⟨succeeds, fun keys distinct p => ?_⟩
  rw [step]
  simp only [cells_remove]
  rw [show ((t.filter.remove key).1.counterArray p).toNat = _ from lowered p]
  have le := enough p
  by_cases present : key ∈ keys
  · rw [sum_update_of_mem distinct present]
    have := covers keys distinct p
    push_cast [le]
    linarith
  · rw [sum_update_of_not_mem present]
    have := covers (key :: keys) (List.nodup_cons.mpr ⟨present, distinct⟩) p
    simp only [List.map_cons, List.sum_cons] at this
    have := once p
    push_cast [le]
    linarith

theorem Covers.run {t : Tally} (covers : t.Covers) {calls : List Call} (legal : t.Legal calls)
    (unsaturated : t.Unsaturated calls) : (Interleaving.run call t calls).Covers := by
  induction calls generalizing t with
  | nil => exact covers
  | cons c rest ih =>
    cases c with
    | add key => exact ih (covers.add unsaturated.1) legal unsaturated.2
    | remove key => exact ih (covers.remove legal.1).2 legal.2 unsaturated

theorem Covers.mightContain {t : Tally} (covers : t.Covers) {key : Key} (outstanding : 0 < t.net key) :
    t.filter.mightContain key = true := by
  simp only [CountingBloomFilter.mightContain, List.all_eq_true, bne_iff_ne, ne_eq]
  intro p mem zero
  have := covers [key] (List.pairwise_singleton _ _) p
  simp only [List.map_cons, List.map_nil, List.sum_cons, List.sum_nil, add_zero, zero,
    show (0 : UInt8).toNat = 0 from rfl, Nat.cast_zero] at this
  have counted : 0 < (t.filter.cells key).count p := List.count_pos_iff.mpr mem
  have : (0 : Int) < (t.filter.cells key).count p * t.net key :=
    mul_pos (by exact_mod_cast counted) outstanding
  omega

/-- While every `add` finds room in its counters, the counting filter of positive size has no
false negative: `might_contain(x)` is `true` for every key whose adds outnumber its successful
removes, and it reads only counters inside `counter_array_`. -/
theorem mightContain_of_unsaturated (counterArraySize hashFunctionCount : Nat)
    (sized : 0 < counterArraySize) (calls : List Call)
    (legal : (start (init counterArraySize hashFunctionCount)).Legal calls)
    (unsaturated : (start (init counterArraySize hashFunctionCount)).Unsaturated calls) (key : Key)
    (outstanding : 0 < (Interleaving.run call (start (init counterArraySize hashFunctionCount)) calls).net key) :
    (Interleaving.run call (start (init counterArraySize hashFunctionCount)) calls).filter.mightContain key = true ∧
      ∀ p ∈ (Interleaving.run call (start (init counterArraySize hashFunctionCount)) calls).filter.cells key,
        p < counterArraySize := by
  refine ⟨((covers_init counterArraySize hashFunctionCount).run legal unsaturated).mightContain outstanding,
    fun p mem => ?_⟩
  rw [cells_run] at mem
  exact cells_lt (init counterArraySize hashFunctionCount) sized key p mem

theorem mightContain_of_unsaturated_two_keys :
    0 < 9 ∧ (start (init 9 6)).Legal [.add [65], .add [66], .remove [66]] ∧
      (start (init 9 6)).Unsaturated [.add [65], .add [66], .remove [66]] ∧
      0 < (Interleaving.run call (start (init 9 6)) [.add [65], .add [66], .remove [66]]).net [65] ∧
      (Interleaving.run call (start (init 9 6)) [.add [65], .add [66], .remove [66]]).filter.mightContain
        [65] = true ∧
      ∀ p ∈ (Interleaving.run call (start (init 9 6)) [.add [65], .add [66], .remove [66]]).filter.cells [65],
        p < 9 :=
  have legal : (start (init 9 6)).Legal [.add [65], .add [66], .remove [66]] := by decide
  have unsaturated : (start (init 9 6)).Unsaturated [.add [65], .add [66], .remove [66]] := by decide
  have outstanding : 0 < (Interleaving.run call (start (init 9 6))
      [.add [65], .add [66], .remove [66]]).net [65] := by decide
  ⟨by decide, legal, unsaturated, outstanding,
    mightContain_of_unsaturated 9 6 (by decide) _ legal unsaturated [65] outstanding⟩

end Tally

end CountingBloomFilter

end RadialCache
