import RadialCache.LockFreeMap

/-! `BloomFilter` from `bloom_filter.cpp`: MurmurHash3 over the bytes of the key, the probe
indices `(h1 + i * h2) % size` shared with `CountingBloomFilter`, and the bit array shared by
threads running `add` and `might_contain`. -/

namespace RadialCache

/-! ### `murmur_hash3_64` -/

namespace Murmur

def C1 : UInt64 := 0x87c37b91114253d5
def C2 : UInt64 := 0x4cf5ad432745937f

/-- `(x << r) | (x >> (64 - r))`. -/
def rotl (x r : UInt64) : UInt64 := (x <<< r) ||| (x >>> (64 - r))

/-- `data[i]` of the `uint64_t*` view of the key: the little-endian word from `offset` on. -/
def word (key : Key) (offset : Nat) : UInt64 :=
  (List.range 8).foldl (fun w j => w ||| ((key.getD (offset + j) 0).toUInt64 <<< (8 * j).toUInt64)) 0

/-- The `k1` or `k2` of the tail switch: `tail[j] << 8 * (j - lo)` for `lo ≤ j < hi`, XORed. -/
def tailWord (key : Key) (lo hi : Nat) : UInt64 :=
  (List.range (hi - lo)).foldl (fun w j => w ^^^ ((key.getD (lo + j) 0).toUInt64 <<< (8 * j).toUInt64)) 0

def mixK1 (k : UInt64) : UInt64 := rotl (k * C1) 31 * C2
def mixK2 (k : UInt64) : UInt64 := rotl (k * C2) 33 * C1

def fmix64 (k : UInt64) : UInt64 :=
  let k := (k ^^^ (k >>> 33)) * 0xff51afd7ed558ccd
  let k := (k ^^^ (k >>> 33)) * 0xc4ceb9fe1a85ec53
  k ^^^ (k >>> 33)

/-- One 16-byte block of the body loop. -/
def block (h : UInt64 × UInt64) (k1 k2 : UInt64) : UInt64 × UInt64 :=
  let h1 := (rotl (h.1 ^^^ mixK1 k1) 27 + h.2) * 5 + 0x52dce729
  let h2 := (rotl (h.2 ^^^ mixK2 k2) 31 + h1) * 5 + 0x38495ab5
  (h1, h2)

end Murmur

open Murmur in
/-- `murmur_hash3_64(key, seed)`, shared word for word by both filters. -/
def murmurHash3_64 (key : Key) (seed : UInt64) : UInt64 :=
  let nblocks := key.length / 16
  let body := (List.range nblocks).foldl
    (fun h i => block h (word key (16 * i)) (word key (16 * i + 8))) (seed, seed)
  let rest := key.length % 16
  let h2 := if 8 < rest then body.2 ^^^ mixK2 (tailWord key (16 * nblocks + 8) (16 * nblocks + rest))
    else body.2
  let h1 := if 0 < rest then body.1 ^^^ mixK1 (tailWord key (16 * nblocks) (16 * nblocks + min rest 8))
    else body.1
  let h1 := h1 ^^^ key.length.toUInt64
  let h2 := h2 ^^^ key.length.toUInt64
  let h1 := h1 + h2
  let h2 := h2 + h1
  fmix64 h1 + fmix64 h2

/-- `hash1` of both filters. -/
def hash1 (key : Key) : UInt64 := murmurHash3_64 key 0x1234567890ABCDEF

/-- `hash2` of both filters. -/
def hash2 (key : Key) : UInt64 := murmurHash3_64 key 0xFEDCBA0987654321

/-- The index of the `i`-th probe, `(h1 + i * h2) % size`. -/
def probeAt (size : Nat) (key : Key) (i : Nat) : Nat :=
  (hash1 key + i.toUInt64 * hash2 key).toNat % size

/-- The indices `add`, `might_contain` and `remove` visit, in order, for `i < count`. -/
def probes (count size : Nat) (key : Key) : List Nat :=
  (List.range count).map (probeAt size key)

example : probes 6 9 [65] = [6, 7, 8, 2, 3, 4] := by decide

theorem and_ne_zero_iff (a b : UInt64) :
    a &&& b ≠ 0 ↔ ∃ i, a.toNat.testBit i = true ∧ b.toNat.testBit i = true := by
  have bits : (a &&& b).toNat = a.toNat &&& b.toNat := BitVec.toNat_and _ _
  constructor
  · intro nonzero
    obtain ⟨i, bit⟩ := Nat.ne_zero_implies_bit_true fun zero =>
      nonzero (UInt64.toNat.inj (bits.trans zero))
    exact ⟨i, by simpa using bit⟩
  · rintro ⟨i, left, right⟩ zero
    have shared := Nat.testBit_and a.toNat b.toNat i
    rw [← bits, zero, show (0 : UInt64).toNat = 0 from rfl, Nat.zero_testBit, left, right] at shared
    cases shared

theorem toNat_or (a b : UInt64) : (a ||| b).toNat = a.toNat ||| b.toNat := BitVec.toNat_or _ _

/-! ### `BloomFilter`, shared by threads -/

/-- `bit_array_`, the two sizes the constructor computed, and `added_elements_`. -/
structure BloomFilter where
  bitArray : List UInt64
  hashFunctionCount : Nat
  bitArraySize : Nat
  addedElements : Nat

namespace BloomFilter

/-- The filter the constructor leaves: `(bit_array_size_ + 63) / 64` zero words. -/
def init (bitArraySize hashFunctionCount : Nat) : BloomFilter :=
  ⟨List.replicate ((bitArraySize + 63) / 64) 0, hashFunctionCount, bitArraySize, 0⟩

/-- `1ULL << (index % 64)`. -/
def mask (index : Nat) : UInt64 := 1 <<< (index % 64).toUInt64

/-- `(word & mask) != 0`. -/
def hasBit (word : UInt64) (index : Nat) : Bool := (word &&& mask index) != 0

/-- `get_bit(index)`; `none` where `bit_array_[index / 64]` is out of bounds. -/
def getBit (f : BloomFilter) (index : Nat) : Option Bool :=
  f.bitArray[index / 64]?.map (hasBit · index)

/-- Where `add(key)` stands: at the load of probe `i`'s word, or at its CAS expecting `old`. -/
inductive AddPc where
  | probe (i : Nat)
  | cas (i : Nat) (old : UInt64)
deriving DecidableEq, Repr

/-- The probes an `add` has already set. -/
def AddPc.done : AddPc → Nat
  | .probe i => i
  | .cas i _ => i

/-- One atomic step of `add(key)`; at size 0 the undefined `hash % 0` reads out of bounds. -/
def addStep (key : Key) (f : BloomFilter) : AddPc → BloomFilter × Control AddPc Unit
  | .probe i =>
      if i < f.hashFunctionCount then
        match f.bitArray[probeAt f.bitArraySize key i / 64]? with
        | some word => (f, .next (.cas i word))
        | none => (f, .fault)
      else ({ f with addedElements := (f.addedElements + 1) % sizeModulus }, .ret ())
  | .cas i old =>
      let index := probeAt f.bitArraySize key i
      match f.bitArray[index / 64]? with
      | some word =>
          if word = old then
            ({ f with bitArray := f.bitArray.set (index / 64) (old ||| mask index) }, .next (.probe (i + 1)))
          else (f, .next (.cas i word))
      | none => (f, .fault)

/-- One step of `might_contain(key)` at probe `i`: the load of `get_bit`. -/
def mightContainStep (key : Key) (f : BloomFilter) (i : Nat) : Control Nat Bool :=
  if i < f.hashFunctionCount then
    match f.getBit (probeAt f.bitArraySize key i) with
    | some true => .next (i + 1)
    | some false => .ret false
    | none => .fault
  else .ret true

/-- Bit `index` is set in `f`. -/
def IsSet (f : BloomFilter) (index : Nat) : Prop := f.getBit index = some true

theorem hasBit_or {word : UInt64} {index : Nat} (other : UInt64) (set : hasBit word index = true) :
    hasBit (word ||| other) index = true := by
  simp only [hasBit, bne_iff_ne, ne_eq] at set ⊢
  obtain ⟨i, bit, masked⟩ := (and_ne_zero_iff _ _).mp set
  exact (and_ne_zero_iff _ _).mpr ⟨i, by rw [toNat_or, Nat.testBit_or, bit, Bool.true_or], masked⟩

theorem hasBit_or_mask (word : UInt64) (index : Nat) : hasBit (word ||| mask index) index = true := by
  have nonzero : ∀ k < 64, ((1 : UInt64) <<< k.toUInt64).toNat ≠ 0 := by decide
  obtain ⟨i, bit⟩ := Nat.ne_zero_implies_bit_true (nonzero (index % 64) (Nat.mod_lt _ (by decide)))
  simp only [hasBit, bne_iff_ne, ne_eq]
  exact (and_ne_zero_iff _ _).mpr ⟨i, by rw [toNat_or, Nat.testBit_or, mask, bit, Bool.or_true], bit⟩

theorem IsSet.or {f : BloomFilter} {w : Nat} {old : UInt64} (other : UInt64)
    (current : f.bitArray[w]? = some old) {index : Nat} (set : f.IsSet index) :
    IsSet { f with bitArray := f.bitArray.set w (old ||| other) } index := by
  unfold IsSet getBit at set ⊢
  by_cases same : w = index / 64
  · subst same
    rw [current] at set
    rw [List.getElem?_set_self', current]
    simpa using hasBit_or other (by simpa using set)
  · rwa [List.getElem?_set_ne same]

theorem isSet_or_mask {f : BloomFilter} {index : Nat} {old : UInt64}
    (current : f.bitArray[index / 64]? = some old) :
    IsSet { f with bitArray := f.bitArray.set (index / 64) (old ||| mask index) } index := by
  unfold IsSet getBit
  rw [List.getElem?_set_self', current]
  simpa using hasBit_or_mask old index

theorem probe_in_bounds {f : BloomFilter} (words : f.bitArray.length = (f.bitArraySize + 63) / 64)
    (nonempty : 1 ≤ f.bitArraySize) (key : Key) (i : Nat) :
    f.bitArray[probeAt f.bitArraySize key i / 64]? ≠ none := by
  have below : probeAt f.bitArraySize key i < f.bitArraySize := Nat.mod_lt _ nonempty
  rw [Ne, List.getElem?_eq_none_iff, words]
  omega

theorem addStep_frame (key : Key) (f : BloomFilter) (pc : AddPc) :
    (addStep key f pc).1.bitArraySize = f.bitArraySize ∧
      (addStep key f pc).1.hashFunctionCount = f.hashFunctionCount ∧
      (addStep key f pc).1.bitArray.length = f.bitArray.length ∧
      ∀ index, f.IsSet index → (addStep key f pc).1.IsSet index := by
  cases pc with
  | probe i =>
    rw [addStep]
    split
    · split <;> exact ⟨rfl, rfl, rfl, fun _ set => set⟩
    · exact ⟨rfl, rfl, rfl, fun _ set => set⟩
  | cas i old =>
    rw [addStep]
    split
    · next word current =>
      split
      · next same =>
        subst same
        exact ⟨rfl, rfl, List.length_set .., fun _ set => IsSet.or _ current set⟩
      · exact ⟨rfl, rfl, rfl, fun _ set => set⟩
    · exact ⟨rfl, rfl, rfl, fun _ set => set⟩

theorem addStep_next {key : Key} {f : BloomFilter} {pc pc' : AddPc}
    (advanced : (addStep key f pc).2 = .next pc') :
    pc'.done = pc.done ∨
      pc'.done = pc.done + 1 ∧ (addStep key f pc).1.IsSet (probeAt f.bitArraySize key pc.done) := by
  cases pc with
  | probe i =>
    rw [addStep] at advanced
    split at advanced
    · split at advanced
      · cases advanced; exact .inl rfl
      · cases advanced
    · cases advanced
  | cas i old =>
    rw [addStep] at advanced ⊢
    split at advanced
    · next word current =>
      split at advanced
      · next same =>
        cases advanced
        subst same
        simp only [current, if_true]
        exact .inr ⟨rfl, isSet_or_mask current⟩
      · cases advanced; exact .inl rfl
    · cases advanced

theorem addStep_ret {key : Key} {f : BloomFilter} {pc : AddPc} (returned : (addStep key f pc).2 = .ret ()) :
    f.hashFunctionCount ≤ pc.done := by
  cases pc with
  | probe i =>
    rw [addStep] at returned
    split at returned
    · split at returned <;> cases returned
    · next past => exact Nat.not_lt.mp past
  | cas i old =>
    rw [addStep] at returned
    split at returned
    · split at returned <;> cases returned
    · cases returned

theorem addStep_fault {key : Key} {f : BloomFilter} {pc : AddPc} (faulted : (addStep key f pc).2 = .fault) :
    f.bitArray[probeAt f.bitArraySize key pc.done / 64]? = none := by
  cases pc with
  | probe i =>
    rw [addStep] at faulted
    split at faulted
    · split at faulted
      · cases faulted
      · assumption
    · cases faulted
  | cas i old =>
    rw [addStep] at faulted
    split at faulted
    · split at faulted <;> cases faulted
    · assumption

theorem mightContainStep_false {key : Key} {f : BloomFilter} {i : Nat}
    (answered : mightContainStep key f i = .ret false) :
    i < f.hashFunctionCount ∧ f.getBit (probeAt f.bitArraySize key i) = some false := by
  unfold mightContainStep at answered
  split at answered
  · next probing =>
    split at answered
    · cases answered
    · next read => exact ⟨probing, read⟩
    · cases answered
  · cases answered

theorem mightContainStep_next {key : Key} {f : BloomFilter} {i j : Nat}
    (stepped : mightContainStep key f i = .next j) : j = i + 1 ∧ i < f.hashFunctionCount := by
  unfold mightContainStep at stepped
  split at stepped
  · next probing =>
    split at stepped
    · exact ⟨(Control.next.inj stepped).symm, probing⟩
    all_goals cases stepped
  · cases stepped

theorem mightContainStep_fault {key : Key} {f : BloomFilter} {i : Nat}
    (faulted : mightContainStep key f i = .fault) :
    f.bitArray[probeAt f.bitArraySize key i / 64]? = none := by
  unfold mightContainStep at faulted
  split at faulted
  · split at faulted
    · cases faulted
    · cases faulted
    · next read => simpa [getBit] using read
  · cases faulted

/-! ### Threads running `add` and `might_contain` -/

/-- A client thread; `afterAdd` says whether an `add` of its key had returned when it began. -/
inductive Call where
  | idle
  | add (key : Key) (pc : AddPc)
  | mightContain (key : Key) (afterAdd : Bool) (i : Nat)
  | fault
deriving DecidableEq, Repr

/-- A returned `might_contain`. -/
structure Answer where
  key : Key
  afterAdd : Bool
  result : Bool
deriving DecidableEq, Repr

/-- The filter, its threads, the keys of returned `add`s, and the returned answers. -/
structure Clients where
  filter : BloomFilter
  threads : List Call
  added : List Key
  answers : List Answer

inductive Act where
  | add (thread : Nat) (key : Key)
  | mightContain (thread : Nat) (key : Key)
  | tick (thread : Nat)
deriving DecidableEq, Repr

namespace Clients

def init (bitArraySize hashFunctionCount threads : Nat) : Clients :=
  ⟨BloomFilter.init bitArraySize hashFunctionCount, List.replicate threads .idle, [], []⟩

def step (s : Clients) : Act → Clients
  | .add t key =>
      if s.threads[t]? = some .idle then { s with threads := s.threads.set t (.add key (.probe 0)) }
      else s
  | .mightContain t key =>
      if s.threads[t]? = some .idle then
        { s with threads := s.threads.set t (.mightContain key (decide (key ∈ s.added)) 0) }
      else s
  | .tick t =>
      match s.threads[t]? with
      | some (.add key pc) =>
          match addStep key s.filter pc with
          | (f, .next pc) => { s with filter := f, threads := s.threads.set t (.add key pc) }
          | (f, .ret ()) =>
              { s with filter := f, threads := s.threads.set t .idle, added := s.added ++ [key] }
          | (f, .fault) => { s with filter := f, threads := s.threads.set t .fault }
      | some (.mightContain key afterAdd i) =>
          match mightContainStep key s.filter i with
          | .next i => { s with threads := s.threads.set t (.mightContain key afterAdd i) }
          | .ret result =>
              { s with threads := s.threads.set t .idle, answers := s.answers ++ [⟨key, afterAdd, result⟩] }
          | .fault => { s with threads := s.threads.set t .fault }
      | _ => s

end Clients

/-- The invariant asked of one thread over the filter `f` and the returned adds `added`. -/
def CallOk (size : Nat) (f : BloomFilter) (added : List Key) : Call → Prop
  | .idle => True
  | .add key pc => ∀ i < pc.done, f.IsSet (probeAt size key i)
  | .mightContain key afterAdd _ => afterAdd = true → key ∈ added
  | .fault => False

theorem CallOk.mono {size : Nat} {f f' : BloomFilter} {added added' : List Key} {call : Call}
    (grows : ∀ index, f.IsSet index → f'.IsSet index) (more : ∀ key ∈ added, key ∈ added')
    (ok : CallOk size f added call) : CallOk size f' added' call := by
  cases call with
  | idle => trivial
  | add key pc => exact fun i below => grows _ (ok i below)
  | mightContain key afterAdd i => exact fun after => more _ (ok after)
  | fault => exact ok

/-- The invariant of the clients of a filter of `size` bits and `count` probes. -/
structure Sound (size count : Nat) (s : Clients) : Prop where
  bitCount : s.filter.bitArraySize = size
  probeCount : s.filter.hashFunctionCount = count
  words : s.filter.bitArray.length = (size + 63) / 64
  added : ∀ key ∈ s.added, ∀ i < count, s.filter.IsSet (probeAt size key i)
  threads : ∀ call ∈ s.threads, CallOk size s.filter s.added call
  answered : ∀ answer ∈ s.answers, answer.afterAdd = true → answer.result = true

theorem sound_init (size count threads : Nat) : Sound size count (Clients.init size count threads) where
  bitCount := rfl
  probeCount := rfl
  words := List.length_replicate _ _
  added _ absent := nomatch absent
  threads call mem := by rw [List.eq_of_mem_replicate mem]; trivial
  answered _ absent := nomatch absent

section
variable {size count : Nat} {s : Clients}

theorem Sound.set (sound : Sound size count s) (t : Nat) (call : Call) (f : BloomFilter)
    (keys : List Key) (answers : List Answer)
    (sizes : f.bitArraySize = size ∧ f.hashFunctionCount = count ∧
      f.bitArray.length = (size + 63) / 64)
    (grows : ∀ index, s.filter.IsSet index → f.IsSet index)
    (keysSet : ∀ key ∈ keys, ∀ i < count, f.IsSet (probeAt size key i))
    (answersTrue : ∀ answer ∈ answers, answer.afterAdd = true → answer.result = true)
    (ok : CallOk size f (s.added ++ keys) call) :
    Sound size count ⟨f, s.threads.set t call, s.added ++ keys, s.answers ++ answers⟩ where
  bitCount := sizes.1
  probeCount := sizes.2.1
  words := sizes.2.2
  added key mem i below := by
    rcases List.mem_append.mp mem with old | new
    · exact grows _ (sound.added key old i below)
    · exact keysSet key new i below
  threads other mem := by
    rcases List.mem_or_eq_of_mem_set mem with old | rfl
    · exact (sound.threads other old).mono grows fun _ => List.mem_append_left _
    · exact ok
  answered answer mem := by
    rcases List.mem_append.mp mem with old | new
    · exact sound.answered answer old
    · exact answersTrue answer new

theorem Sound.move (sound : Sound size count s) (t : Nat) {call : Call}
    (ok : CallOk size s.filter s.added call) :
    Sound size count { s with threads := s.threads.set t call } := by
  simpa using sound.set t call s.filter [] [] ⟨sound.bitCount, sound.probeCount, sound.words⟩
    (fun _ set => set) (fun _ absent => nomatch absent) (fun _ absent => nomatch absent)
    (by simpa using ok)

theorem Sound.inBounds (sound : Sound size count s) (nonempty : 1 ≤ size) (key : Key) (i : Nat) :
    s.filter.bitArray[probeAt s.filter.bitArraySize key i / 64]? ≠ none :=
  probe_in_bounds (sound.bitCount ▸ sound.words) (sound.bitCount ▸ nonempty) key i

theorem Sound.tick_add (nonempty : 1 ≤ size) (sound : Sound size count s) {t : Nat} {key : Key}
    {pc : AddPc} (current : s.threads[t]? = some (.add key pc)) :
    Sound size count (s.step (.tick t)) := by
  have ok : CallOk size s.filter s.added (.add key pc) := sound.threads _ (List.getElem?_mem current)
  obtain ⟨bits, probes, length, grows⟩ := addStep_frame key s.filter pc
  have sizes := And.intro (bits.trans sound.bitCount)
    (And.intro (probes.trans sound.probeCount) (length.trans sound.words))
  have progress := @addStep_next key s.filter pc
  have past := @addStep_ret key s.filter pc
  have faulted := @addStep_fault key s.filter pc
  rw [Clients.step, current]
  dsimp only
  split
  · next f pc' stepped =>
    rw [stepped] at sizes grows progress
    have moved : CallOk size f s.added (.add key pc') := fun i below => by
      rcases progress rfl with same | ⟨advanced, set⟩
      · exact grows _ (ok i (same ▸ below))
      · rcases Nat.lt_succ_iff_lt_or_eq.mp (advanced ▸ below) with earlier | rfl
        · exact grows _ (ok i earlier)
        · exact sound.bitCount ▸ set
    simpa using sound.set t (.add key pc') f [] [] sizes grows (fun _ absent => nomatch absent)
      (fun _ absent => nomatch absent) (by simpa using moved)
  · next f stepped =>
    rw [stepped] at sizes grows past
    have counted := sound.probeCount
    simpa using sound.set t .idle f [key] [] sizes grows (fun k mem i below => by
      rw [List.mem_singleton.mp mem]
      exact grows _ (ok i (by have := past rfl; omega))) (fun _ absent => nomatch absent) trivial
  · next f stepped =>
    rw [stepped] at faulted
    exact absurd (faulted rfl) (sound.inBounds nonempty key pc.done)

theorem Sound.tick_mightContain (nonempty : 1 ≤ size) (sound : Sound size count s) {t : Nat}
    {key : Key} {afterAdd : Bool} {i : Nat} (current : s.threads[t]? = some (.mightContain key afterAdd i)) :
    Sound size count (s.step (.tick t)) := by
  have ok : CallOk size s.filter s.added (.mightContain key afterAdd i) :=
    sound.threads _ (List.getElem?_mem current)
  rw [Clients.step, current]
  dsimp only
  split
  · exact sound.move t ok
  · next result stepped =>
    have right : afterAdd = true → result = true := fun after => by
      cases result with
      | true => rfl
      | false =>
        obtain ⟨probing, read⟩ := mightContainStep_false stepped
        have set := sound.added key (ok after) i (sound.probeCount ▸ probing)
        rw [IsSet, ← sound.bitCount, read] at set
        cases set
    simpa using sound.set t .idle s.filter [] [⟨key, afterAdd, result⟩]
      ⟨sound.bitCount, sound.probeCount, sound.words⟩ (fun _ set => set)
      (fun _ absent => nomatch absent) (fun answer mem => List.mem_singleton.mp mem ▸ right) trivial
  · next stepped => exact absurd (mightContainStep_fault stepped) (sound.inBounds nonempty key i)

theorem Sound.step (nonempty : 1 ≤ size) (sound : Sound size count s) (a : Act) :
    Sound size count (s.step a) := by
  cases a with
  | add t key =>
    rw [Clients.step]
    split
    · exact sound.move t fun _ below => absurd below (Nat.not_lt_zero _)
    · exact sound
  | mightContain t key =>
    rw [Clients.step]
    split
    · exact sound.move t (of_decide_eq_true : decide (key ∈ s.added) = true → key ∈ s.added)
    · exact sound
  | tick t =>
    cases current : s.threads[t]? with
    | some call =>
      cases call with
      | add key pc => exact sound.tick_add nonempty current
      | mightContain key afterAdd i => exact sound.tick_mightContain nonempty current
      | idle | fault => simpa [Clients.step, current] using sound
    | none => simpa [Clients.step, current] using sound

end

theorem run_ticks_idle {s : Clients} {t : Nat} (idle : s.threads[t]? = some .idle) :
    ∀ n, Interleaving.run Clients.step s (List.replicate n (.tick t)) = s
  | 0 => rfl
  | n + 1 => by
    rw [List.replicate_succ, Interleaving.run_cons,
      show s.step (.tick t) = s by simp only [Clients.step, idle]]
    exact run_ticks_idle idle n

theorem Sound.answers {size count : Nat} (nonempty : 1 ≤ size) {t : Nat} {key : Key}
    {afterAdd : Bool} : ∀ (n : Nat) {s : Clients} {i : Nat}, Sound size count s →
      s.threads[t]? = some (.mightContain key afterAdd i) → count - i < n →
      ∃ result, (Interleaving.run Clients.step s (List.replicate n (.tick t))).threads[t]? = some .idle ∧
        (Interleaving.run Clients.step s (List.replicate n (.tick t))).answers =
          s.answers ++ [⟨key, afterAdd, result⟩]
  | 0, _, _, _, _, lt => absurd lt (Nat.not_lt_zero _)
  | n + 1, s, i, sound, current, lt => by
    have sound' := sound.tick_mightContain nonempty current
    have inside : t < s.threads.length := (List.getElem?_eq_some_iff.mp current).1
    rw [List.replicate_succ, Interleaving.run_cons]
    cases stepped : mightContainStep key s.filter i with
    | next j =>
      obtain ⟨rfl, probing⟩ := mightContainStep_next stepped
      have after : (s.step (.tick t)).threads[t]? = some (.mightContain key afterAdd (i + 1)) := by
        simp [Clients.step, current, stepped, inside]
      have same : (s.step (.tick t)).answers = s.answers := by simp [Clients.step, current, stepped]
      obtain ⟨result, idle, logged⟩ := Sound.answers nonempty n sound' after
        (by rw [sound.probeCount] at probing; omega)
      exact ⟨result, idle, logged.trans (by rw [same])⟩
    | ret result =>
      have after : (s.step (.tick t)).threads[t]? = some .idle := by
        simp [Clients.step, current, stepped, inside]
      rw [run_ticks_idle after]
      exact ⟨result, after, by simp [Clients.step, current, stepped]⟩
    | fault => exact absurd (mightContainStep_fault stepped) (sound.inBounds nonempty key i)

/-- Once an `add(k)` has returned, every `might_contain(k)` started afterwards returns `true`,
over every interleaving of `add` and `might_contain` steps; on a filter of at least one bit no
thread faults; and a thread inside `might_contain` returns within `hash_function_count_ + 1` of
its own steps, with `true` if it began after `add` of its key returned. -/
theorem mightContain_after_add (bitArraySize hashFunctionCount threads : Nat)
    (nonempty : 1 ≤ bitArraySize) (s : Clients)
    (reach : Interleaving.Reachable Clients.step (Clients.init bitArraySize hashFunctionCount threads) s) :
    (∀ answer ∈ s.answers, answer.afterAdd = true → answer.result = true) ∧ Call.fault ∉ s.threads ∧
      ∀ t key afterAdd i, s.threads[t]? = some (.mightContain key afterAdd i) → ∃ result,
        (Interleaving.run Clients.step s (List.replicate (hashFunctionCount + 1) (.tick t))).threads[t]? =
          some .idle ∧
        (Interleaving.run Clients.step s (List.replicate (hashFunctionCount + 1) (.tick t))).answers =
          s.answers ++ [⟨key, afterAdd, result⟩] ∧ (afterAdd = true → result = true) := by
  have sound : Sound bitArraySize hashFunctionCount s :=
    reach.invariant (sound_init _ _ _) fun _ a sound => sound.step nonempty a
  refine ⟨sound.answered, sound.threads _, fun t key afterAdd i current => ?_⟩
  obtain ⟨result, idle, logged⟩ := Sound.answers nonempty (hashFunctionCount + 1) sound current (by omega)
  have later : Sound bitArraySize hashFunctionCount
      (Interleaving.run Clients.step s (List.replicate (hashFunctionCount + 1) (.tick t))) :=
    (Interleaving.reachable_run reach _).invariant (sound_init _ _ _) fun _ a sound => sound.step nonempty a
  exact ⟨result, idle, logged, later.answered _ (by rw [logged]; exact List.mem_append_right _ (List.mem_singleton_self _))⟩

/-- Threads 0 and 1 add `A` and `B` over one word, so CASes retry; thread 2 then asks for `A`. -/
def addsThenAsk : List Act :=
  [.add 0 [65], .add 1 [66]] ++ (List.replicate 8 [.tick 0, .tick 1]).flatten ++
    List.replicate 6 (.tick 0) ++ List.replicate 6 (.tick 1) ++ [.mightContain 2 [65], .tick 2]

set_option maxRecDepth 20000 in
theorem mightContain_after_add_two_adders :
    (Interleaving.run Clients.step (Clients.init 64 3 3) addsThenAsk).threads[2]? =
        some (.mightContain [65] true 1) ∧
      (∀ answer ∈ (Interleaving.run Clients.step (Clients.init 64 3 3) addsThenAsk).answers,
        answer.afterAdd = true → answer.result = true) ∧
      Call.fault ∉ (Interleaving.run Clients.step (Clients.init 64 3 3) addsThenAsk).threads ∧
      ∀ t key afterAdd i, (Interleaving.run Clients.step (Clients.init 64 3 3) addsThenAsk).threads[t]? =
          some (.mightContain key afterAdd i) → ∃ result,
        (Interleaving.run Clients.step (Interleaving.run Clients.step (Clients.init 64 3 3) addsThenAsk)
          (List.replicate (3 + 1) (.tick t))).threads[t]? = some .idle ∧
        (Interleaving.run Clients.step (Interleaving.run Clients.step (Clients.init 64 3 3) addsThenAsk)
          (List.replicate (3 + 1) (.tick t))).answers =
          (Interleaving.run Clients.step (Clients.init 64 3 3) addsThenAsk).answers ++
            [⟨key, afterAdd, result⟩] ∧ (afterAdd = true → result = true) :=
  ⟨by decide, mightContain_after_add 64 3 3 (by decide) _ (Interleaving.reachable_run .init addsThenAsk)⟩

set_option maxRecDepth 20000 in
example : (Interleaving.run Clients.step (Clients.init 64 3 3)
    (addsThenAsk ++ List.replicate 3 (.tick 2))).answers = [⟨[65], true, true⟩] := by decide

end BloomFilter

end RadialCache
