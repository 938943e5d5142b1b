import Mathlib.Data.Nat.Notation

/-! # The state machines of `tinyfsm.hpp`

A machine is static: its current state is a part of the memory of the program. A
transition leaves the current state, does its action and enters the next state.
A reaction, an action or an entry may send events to all machines of a list, and
such calls nest; a step that the language leaves undefined has no result.
-/
namespace FDemo.TinyFsm
variable {σ S ε : Type*}

/-- `Fsm<F>` over the memory `σ`, with the states `S`. -/
structure Machine (σ S : Type*) where
  currentState : σ → S
  setCurrentState : S → σ → σ
  initialState : S
  entry : S → σ → Option σ
  exit : S → σ → Option σ

namespace Machine
variable (m : Machine σ S)

def setInitialState (s : σ) : σ := m.setCurrentState m.initialState s

def enter (s : σ) : Option σ := m.entry (m.currentState s) s

def transit (target : S) (action : σ → Option σ) (s : σ) : Option σ := do
  let s ← m.exit (m.currentState s) s
  let s ← action s
  m.enter (m.setCurrentState target s)

end Machine

/-- What an `FsmList` uses of a machine. -/
structure Member (σ ε : Type*) where
  setInitialState : σ → σ
  enter : σ → Option σ
  dispatch : ε → σ → Option σ

namespace FsmList

def setInitialState (ms : List (Member σ ε)) (s : σ) : σ := ms.foldl (fun s m => m.setInitialState s) s

def enter (ms : List (Member σ ε)) (s : σ) : Option σ := ms.foldlM (fun s m => m.enter s) s

def start (ms : List (Member σ ε)) (s : σ) : Option σ := enter ms (setInitialState ms s)

def dispatch (ms : List (Member σ ε)) (e : ε) (s : σ) : Option σ := ms.foldlM (fun s m => m.dispatch e s) s

end FsmList

/-- Dispatches an event to a list of machines that send events themselves. The calls nest at most so deep. -/
def sendEvent (ms : (ε → σ → Option σ) → List (Member σ ε)) : ℕ → ε → σ → Option σ
  | 0 => fun _ _ => none
  | depth + 1 => FsmList.dispatch (ms (sendEvent ms depth))

/-- When every event makes the machines send only events of a lower rank, the depth does not matter. -/
theorem sendEvent_eq_of_rank {ms : (ε → σ → Option σ) → List (Member σ ε)} (rank : ε → ℕ)
    (h : ∀ send send' e, (∀ e', rank e' < rank e → send e' = send' e') →
      FsmList.dispatch (ms send) e = FsmList.dispatch (ms send') e) {depth depth' : ℕ} {e : ε}
    (hdepth : rank e < depth) (hdepth' : rank e < depth') : sendEvent ms depth e = sendEvent ms depth' e := by
  induction depth generalizing depth' e with
  | zero => exact absurd hdepth (Nat.not_lt_zero _)
  | succ depth ih =>
    cases depth' with
    | zero => exact absurd hdepth' (Nat.not_lt_zero _)
    | succ depth' =>
      refine h _ _ e fun e' he' => ?_
      exact ih (Nat.lt_of_lt_of_le he' (Nat.le_of_lt_succ hdepth)) (Nat.lt_of_lt_of_le he' (Nat.le_of_lt_succ hdepth'))

end FDemo.TinyFsm
