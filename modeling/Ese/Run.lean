import Ese.Trace.Event
/-!
Runs over a file. A run may fail, keeps a log, and lets callbacks keep a state of their own; both
outlive a failure.
-/

namespace Ese

/-- What a run leaves behind besides its answer. -/
structure Journal (σ : Type) where
  log : Array Trace.Event
  state : σ

/-- A computation that logs and keeps a state `σ`. -/
abbrev Run (σ : Type) := EStateM Error (Journal σ)

/-- A computation that only logs. -/
abbrev Logged := EStateM Error (Array Trace.Event)

/-- A computation that only keeps a state. -/
abbrev Callback (σ : Type) := EStateM Error σ

instance {σ : Type} : MonadLift (Except DecodeError) (EStateM Error σ) where
  monadLift
    | .ok a => pure a
    | .error e => throw (.decode e)

namespace Run

variable {σ α : Type}

def log (e : Trace.Event) : Run σ Unit := fun j => .ok () { j with log := j.log.push e }

def logIf (wanted : Bool) (e : Trace.Event) : Run σ Unit := if wanted then log e else pure ()

def ofCallback (c : Callback σ α) : Run σ α := fun j =>
  match c j.state with
  | .ok a s => .ok a { j with state := s }
  | .error e s => .error e { j with state := s }

def ofLogged (c : Logged α) : Run σ α := fun j =>
  match c j.log with
  | .ok a log => .ok a { j with log }
  | .error e log => .error e { j with log }

end Run

end Ese
