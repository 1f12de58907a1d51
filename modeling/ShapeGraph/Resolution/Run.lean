import ShapeGraph.Graph.Payload
import ShapeGraph.Log

/-!
# Runs

A run ends in a result or a fault, and in either case there is a record of what
was seen on the way: messages for the log, and calls of host computations.

* `outcome_bind`, `events_bind` — the outcome of a sequence is that of its
  parts in sequence, whatever was seen.
-/

namespace ShapeGraph

/-- Something that can be seen during a run. -/
inductive RunEvent where
  | logged (level : LogLevel) (message : String)
  | invoked (node : Nat) (inputs : List FunctionInput)

/-- A run: what was seen, oldest first, and how it ended. -/
structure Run (α : Type) where
  events : List RunEvent
  outcome : Except Fault α

namespace Run

variable {α β : Type}

/-- Nothing is seen. -/
def lift (outcome : Except Fault α) : Run α := ⟨[], outcome⟩

/-- Something is seen. -/
def emit (event : RunEvent) : Run Unit := ⟨[event], .ok ()⟩

/-- A message is logged. -/
def log (level : LogLevel) (message : String) : Run Unit :=
  emit (.logged level message)

/-- A run followed by another one, unless it fails. -/
def andThen (run : Run α) (next : α → Run β) : Run β :=
  match run.outcome with
  | .ok a => ⟨run.events ++ (next a).events, (next a).outcome⟩
  | .error fault => ⟨run.events, .error fault⟩

instance : Monad Run where
  pure a := lift (.ok a)
  bind := andThen

instance : MonadLift (Except Fault) Run where
  monadLift := lift

theorem outcome_bind (run : Run α) (next : α → Run β) :
    (run >>= next).outcome = run.outcome >>= fun a => (next a).outcome := by
  show (andThen run next).outcome = _
  unfold andThen
  cases run.outcome <;> rfl

theorem events_bind (run : Run α) (next : α → Run β) :
    (run >>= next).events =
      run.events ++ (run.outcome.toOption.elim [] fun a => (next a).events) := by
  show (andThen run next).events = _
  unfold andThen
  cases run.outcome <;> simp [Except.toOption]

@[simp] theorem outcome_lift (outcome : Except Fault α) : (lift outcome).outcome = outcome := rfl

@[simp] theorem outcome_log (level : LogLevel) (message : String) :
    (log level message).outcome = .ok () := rfl

end Run

end ShapeGraph
