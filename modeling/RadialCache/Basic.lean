import Mathlib.Data.List.Basic

/-! Shared vocabulary of the model: `size_t` arithmetic, the arena record `Node`, and
schedules of atomic steps. Every concurrent component below is a deterministic step
function over a state with one program point per thread, run along a schedule. -/

namespace RadialCache

/-- `size_t` values wrap modulo `2^64`, written out so that no `Pow` instance is involved. -/
def sizeModulus : Nat := 18446744073709551616

/-- `Node` from `node.hpp`; the `double` payload is kept as its IEEE-754 bit pattern. -/
structure Node where
  value : UInt64
  priority : Int
  timestampNs : UInt64
  expiryTimeNs : UInt64
deriving DecidableEq, Repr

/-- `Node::is_expired`: `(now_ns - timestamp_ns) > expiry_time_ns` in wrapping 64-bit arithmetic. -/
def Node.isExpired (node : Node) (nowNs : UInt64) : Bool :=
  node.expiryTimeNs < nowNs - node.timestampNs

/-- The record `Node(0.0)` that fills a fresh arena slot. -/
def Node.blank (nowNs : UInt64) : Node := ⟨0, 0, nowNs, 60000000000⟩

/-- What a call does after one atomic step: go on at a program point, return, or fault. -/
inductive Control (π ρ : Type) where
  | next (pc : π)
  | ret (result : ρ)
  | fault
deriving DecidableEq, Repr

/-- A step of an inner call seen from the call around it. -/
def Control.andThen {π ρ π' ρ' : Type} (k : Control π ρ) (inner : π → π')
    (done : ρ → Control π' ρ') : Control π' ρ' :=
  match k with
  | .next pc => .next (inner pc)
  | .ret r => done r
  | .fault => .fault

@[simp] theorem Control.next_andThen {π ρ π' ρ' : Type} (pc : π) (inner : π → π')
    (done : ρ → Control π' ρ') : (Control.next pc).andThen inner done = .next (inner pc) := rfl

@[simp] theorem Control.ret_andThen {π ρ π' ρ' : Type} (r : ρ) (inner : π → π')
    (done : ρ → Control π' ρ') : (Control.ret r).andThen inner done = done r := rfl

@[simp] theorem Control.fault_andThen {π ρ π' ρ' : Type} (inner : π → π')
    (done : ρ → Control π' ρ') : (Control.fault : Control π ρ).andThen inner done = .fault := rfl

/-- A call run alone from `pc` for at most `fuel` steps; `none` on a fault or out of fuel. -/
def solo {σ π ρ : Type} (step : σ → π → σ × Control π ρ) : Nat → σ → π → Option (σ × ρ)
  | 0, _, _ => none
  | fuel + 1, s, pc =>
    match step s pc with
    | (s, .next pc) => solo step fuel s pc
    | (s, .ret r) => some (s, r)
    | (_, .fault) => none

section Solo
variable {σ π ρ : Type} {step : σ → π → σ × Control π ρ} {s s' : σ} {pc pc' : π}

theorem solo_next (stepped : step s pc = (s', .next pc')) (fuel : Nat) :
    solo step (fuel + 1) s pc = solo step fuel s' pc' := by
  simp [solo, stepped]

theorem solo_ret {r : ρ} (stepped : step s pc = (s', .ret r)) (fuel : Nat) :
    solo step (fuel + 1) s pc = some (s', r) := by
  simp [solo, stepped]

theorem solo_le {r : σ × ρ} : ∀ {fuel fuel' : Nat} {s : σ} {pc : π},
    solo step fuel s pc = some r → fuel ≤ fuel' → solo step fuel' s pc = some r
  | 0, _, _, _, done, _ => nomatch done
  | fuel + 1, fuel' + 1, s, pc, done, le => by
    unfold solo at done ⊢
    split at done
    · exact solo_le done (by omega)
    · exact done
    · nomatch done

theorem solo_first {r : σ × ρ} {fuel : Nat} (done : solo step (fuel + 1) s pc = some r) :
    (∃ s' pc', step s pc = (s', .next pc') ∧ solo step fuel s' pc' = some r) ∨
      step s pc = (r.1, .ret r.2) := by
  unfold solo at done
  split at done
  · next stepped => exact .inl ⟨_, _, stepped, done⟩
  · next stepped => cases done; exact .inr stepped
  · nomatch done

end Solo

theorem flatMap_set {α β : Type} (l : List α) (f : α → List β) {t : Nat} {c : α}
    (at_t : l[t]? = some c) (c' : α) :
    ∃ before after, l.flatMap f = before ++ (f c ++ after) ∧
      (l.set t c').flatMap f = before ++ (f c' ++ after) := by
  obtain ⟨lt, rfl⟩ := List.getElem?_eq_some_iff.mp at_t
  refine ⟨(l.take t).flatMap f, (l.drop (t + 1)).flatMap f, ?_, ?_⟩
  · have split : l = l.take t ++ l[t] :: l.drop (t + 1) := by
      rw [← List.drop_eq_getElem_cons lt, List.take_append_drop]
    calc l.flatMap f = (l.take t ++ l[t] :: l.drop (t + 1)).flatMap f := by rw [← split]
      _ = _ := by simp only [List.flatMap_append, List.flatMap_cons]
  · rw [List.set_eq_take_append_cons_drop, if_pos lt]
    simp

namespace Interleaving

variable {σ α : Type} (step : σ → α → σ)

/-- The state after performing a schedule of steps in order. -/
def run (s : σ) : List α → σ
  | [] => s
  | a :: rest => run (step s a) rest

@[simp] theorem run_nil (s : σ) : run step s [] = s := rfl

@[simp] theorem run_cons (s : σ) (a : α) (rest : List α) :
    run step s (a :: rest) = run step (step s a) rest := rfl

theorem run_append (s : σ) (first second : List α) :
    run step s (first ++ second) = run step (run step s first) second := by
  induction first generalizing s with
  | nil => rfl
  | cons a rest ih => exact ih (step s a)

/-- States reachable from `init` by any interleaving of steps. -/
inductive Reachable (init : σ) : σ → Prop where
  | init : Reachable init init
  | step {s : σ} (a : α) (reachable : Reachable init s) : Reachable init (step s a)

variable {step}

theorem reachable_run {init s : σ} (reachable : Reachable step init s) (schedule : List α) :
    Reachable step init (run step s schedule) := by
  induction schedule generalizing s with
  | nil => exact reachable
  | cons a rest ih => exact ih (.step a reachable)

theorem Reachable.invariant {init s : σ} {Inv : σ → Prop} (reachable : Reachable step init s)
    (initial : Inv init) (preserved : ∀ s a, Inv s → Inv (step s a)) : Inv s := by
  induction reachable with
  | init => exact initial
  | step a _ ih => exact preserved _ a ih

end Interleaving

end RadialCache
