/-!
The builds of a watched file. A change asks for a build. If one is running, it is
only noted that there has to be another one, and the builder looks for such a note
when it has finished. The two sides share two flags and nothing else; every step
below is atomic, and the steps of a caller and of the builders may come in any
order.
-/

namespace Ifj24.Watch

inductive Caller where
  | idle
  | asking
  | noting
  deriving DecidableEq, Repr

inductive Builder where
  | clearing
  | building
  | releasing
  | checking
  | claiming
  deriving DecidableEq, Repr

structure State where
  busy : Bool
  pending : Bool
  caller : Caller
  builders : List Builder
  deriving DecidableEq, Repr

namespace State

def initial : State := ⟨false, false, .idle, []⟩

/-- A step of the caller. An idle one asks for a build. -/
def callerStep (s : State) : State :=
  match s.caller with
  | .idle => { s with caller := .asking }
  | .asking =>
    if s.busy then { s with caller := .noting }
    else { s with busy := true, caller := .idle, builders := s.builders ++ [.clearing] }
  | .noting => { s with pending := true, caller := .idle }

def builderStep (s : State) (i : Nat) : State :=
  match s.builders[i]? with
  | none => s
  | some .clearing => { s with pending := false, builders := s.builders.set i .building }
  | some .building => { s with builders := s.builders.set i .releasing }
  | some .releasing => { s with busy := false, builders := s.builders.set i .checking }
  | some .checking =>
    if s.pending then { s with builders := s.builders.set i .claiming }
    else { s with builders := s.builders.eraseIdx i }
  | some .claiming =>
    if s.busy then { s with builders := s.builders.eraseIdx i }
    else { s with busy := true, builders := s.builders.set i .clearing }

end State

inductive Step : State → State → Prop where
  | caller (s : State) : Step s s.callerStep
  | builder (s : State) (i : Nat) : i < s.builders.length → Step s (s.builderStep i)

inductive Reachable : State → Prop where
  | initial : Reachable .initial
  | step {s t : State} : Reachable s → Step s t → Reachable t

end Ifj24.Watch
