import RadialCache.LockFreeHeap.Step

/-! A `LockFreeHeap` shared by a pool of client threads, each idle or inside one `push` or
`pop`. The state keeps the history the contracts talk about: the nodes of the pushes that
returned `true` and the nodes the pops returned. -/

namespace RadialCache.LockFreeHeap

/-- A client thread: idle, inside a call at a program point, or stopped by a null read. -/
inductive Call where
  | idle
  | push (node : Nat) (pc : PushPc)
  | pop (pc : PopPc)
  | fault
deriving DecidableEq, Repr

/-- The shared heap, the client threads, and the history of completed calls. -/
structure Clients where
  heap : LockFreeHeap
  threads : List Call
  pushed : List Nat
  popped : List Nat

/-- A scheduler choice: start a call on an idle thread, or run one atomic step of a thread. -/
inductive Act where
  | push (thread node : Nat)
  | pop (thread : Nat)
  | tick (thread : Nat)
deriving DecidableEq, Repr

namespace Clients

/-- `threads` idle clients over a fresh heap of the given capacity. -/
def init (capacity threads : Nat) : Clients :=
  ⟨LockFreeHeap.init capacity, List.replicate threads .idle, [], []⟩

/-- The outcome of one step of a `push`, written back into thread `t`. -/
def afterPush (s : Clients) (t node : Nat) : LockFreeHeap × Control PushPc Bool → Clients
  | (h, .next pc) => { s with heap := h, threads := s.threads.set t (.push node pc) }
  | (h, .ret ok) =>
      { s with
        heap := h
        threads := s.threads.set t .idle
        pushed := if ok then s.pushed ++ [node] else s.pushed }
  | (h, .fault) => { s with heap := h, threads := s.threads.set t .fault }

/-- The outcome of one step of a `pop`, written back into thread `t`. -/
def afterPop (s : Clients) (t : Nat) : LockFreeHeap × Control PopPc (Option Nat) → Clients
  | (h, .next pc) => { s with heap := h, threads := s.threads.set t (.pop pc) }
  | (h, .ret top) =>
      { s with heap := h, threads := s.threads.set t .idle, popped := s.popped ++ top.toList }
  | (h, .fault) => { s with heap := h, threads := s.threads.set t .fault }

/-- One scheduler choice; starting a busy thread or stepping an idle one changes nothing. -/
def step (prio : Nat → Int) (s : Clients) : Act → Clients
  | .push t node =>
      if s.threads[t]? = some .idle then { s with threads := s.threads.set t (.push node .start) }
      else s
  | .pop t =>
      if s.threads[t]? = some .idle then { s with threads := s.threads.set t (.pop .start) } else s
  | .tick t =>
      match s.threads[t]? with
      | some (.push node pc) => s.afterPush t node (pushStep prio node s.heap pc)
      | some (.pop pc) => s.afterPop t (popStep prio s.heap pc)
      | _ => s

/-- The state after a schedule. -/
def run (prio : Nat → Int) (s : Clients) (schedule : List Act) : Clients :=
  Interleaving.run (step prio) s schedule

/-- Every client has returned. -/
def Quiescent (s : Clients) : Prop := ∀ c ∈ s.threads, c = .idle

instance : DecidablePred Quiescent := fun s =>
  inferInstanceAs (Decidable (∀ c ∈ s.threads, c = .idle))

end Clients

/-- `k` steps of thread `t`. -/
def ticks (t k : Nat) : List Act := List.replicate k (.tick t)

open Interleaving Clients

/-- No pop outruns the pushes of a node, and at rest the pops and live cells are the pushes. -/
def Conserving (s : Clients) : Prop :=
  (∀ n, s.popped.count n ≤ s.pushed.count n) ∧
    (Quiescent s → (s.popped ++ live s.heap).Perm s.pushed)

/-- Three pushers race through `sift_up` swaps so that node 1 is lost and node 2 fills two cells. -/
def siftUpRace : List Act :=
  [.push 0 1] ++ ticks 0 4 ++ [.push 0 2] ++ ticks 0 6 ++ [.push 1 0] ++ ticks 1 5 ++
    [.push 2 3] ++ ticks 2 7 ++ ticks 0 1 ++ ticks 2 5 ++
    [.pop 0] ++ ticks 0 10 ++ [.pop 0] ++ ticks 0 12 ++ [.pop 0] ++ ticks 0 7

set_option maxRecDepth 20000 in
theorem heap_conservation_fails :
    ¬ ∀ (prio : Nat → Int) (capacity threads : Nat) (s : Clients),
      Reachable (step prio) (Clients.init capacity threads) s → Conserving s := by
  intro law
  have conserving := law (fun n => n) 8 3 _ (reachable_run .init siftUpRace)
  exact absurd (conserving.1 2) (by decide)

/-- No thread has read a priority through a null cell. -/
def NullSafe (s : Clients) : Prop := ∀ c ∈ s.threads, c ≠ .fault

/-- Cells below `size_` hold nodes, and cells from `size_` up to `capacity` are null. -/
def Canonical (h : LockFreeHeap) : Prop := ∀ i < h.capacity, (h.heap i).isSome ↔ i < h.size

/-- Thread 1 pops while thread 0 has reserved cell 2 but not yet stored its node there. -/
def reserveRace : List Act :=
  [.push 0 1] ++ ticks 0 4 ++ [.push 0 0] ++ ticks 0 5 ++ [.push 0 2] ++ ticks 0 2 ++
    [.pop 1] ++ ticks 1 8

set_option maxRecDepth 20000 in
theorem heap_null_safety_fails :
    ¬ ∀ (prio : Nat → Int) (capacity threads : Nat) (s : Clients),
      Reachable (step prio) (Clients.init capacity threads) s →
        NullSafe s ∧ (Quiescent s → Canonical s.heap) := by
  intro law
  have safe := law (fun n => n) 8 2 _ (reachable_run .init reserveRace)
  exact safe.1 .fault (by decide) rfl

end RadialCache.LockFreeHeap
