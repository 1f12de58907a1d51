import ShapeGraph.Entries
import ShapeGraph.Value

/-!
# Logging

Messages have a level, and a logger lets through those that are at most as
verbose as its own level.  One shared logger has a level and a handler; a child
puts its label before every message and may filter by a level of its own, but
writes through the shared handler.

Environment variables set the initial level: silence first, then debugging,
then a level by name.
-/

namespace ShapeGraph

/-- How verbose a message is. -/
inductive LogLevel where
  | silent
  | error
  | warn
  | info
  | debug
deriving DecidableEq, Repr

namespace LogLevel

/-- The name of a level. -/
def name : LogLevel → String
  | silent => "silent"
  | error => "error"
  | warn => "warn"
  | info => "info"
  | debug => "debug"

/-- The level of a name. -/
def ofName? : String → Option LogLevel
  | "silent" => some silent
  | "error" => some error
  | "warn" => some warn
  | "info" => some info
  | "debug" => some debug
  | _ => none

/-- Levels from the least to the most verbose. -/
def verbosity : LogLevel → Nat
  | silent => 0
  | error => 1
  | warn => 2
  | info => 3
  | debug => 4

/-- A message of the first level passes a filter at the second.  Nothing is
ever said at the silent level. -/
def passes (message filter : LogLevel) : Bool :=
  message ≠ silent && message.verbosity ≤ filter.verbosity

/-- The level of a host value that names one. -/
def ofValue? : Value → Option LogLevel
  | .text name => ofName? name
  | _ => none

theorem ofName?_name (level : LogLevel) : ofName? level.name = some level := by
  cases level <;> rfl

end LogLevel

/-- The variables of the process environment. -/
abbrev Variables := Entries String

/-- Where messages go: to the console, or to a handler installed by a host. -/
inductive LogHandler where
  | console
  | custom (tag : String)
deriving DecidableEq

/-- The shared logger. -/
structure Logger where
  level : LogLevel
  handler : LogHandler
deriving DecidableEq

/-- A logger that labels its messages and may have a level of its own. -/
structure ChildLogger where
  label : String
  level : Option LogLevel
deriving DecidableEq

/-- One message that was let through: written to the console by one of its
methods, or given to the handler of a host. -/
inductive LogLine where
  | console (method text : String) (arguments : List Value)
  | handled (tag : String) (level : LogLevel) (message : String) (arguments : List Value)

namespace Logger

/-- The level that the environment asks for. -/
def initialLevel (vars : Variables) : LogLevel :=
  if vars.get? "SYMGRAPH_QUIET" = some "1" then .silent
  else if vars.get? "SYMGRAPH_DEBUG" = some "1" then .debug
  else ((vars.get? "SYMGRAPH_LOG_LEVEL").bind LogLevel.ofName?).getD .warn

/-- The logger as the environment sets it up. -/
def initial (vars : Variables) : Logger :=
  ⟨initialLevel vars, .console⟩

/-- Changes the level, the handler or both. -/
def configure (logger : Logger) (level : Option LogLevel) (handler : Option LogHandler) :
    Logger :=
  ⟨level.getD logger.level, handler.getD logger.handler⟩

/-- Messages of a level are let through. -/
def isEnabled (logger : Logger) (level : LogLevel) : Bool :=
  level.passes logger.level

/-- What the handler of a logger makes of a message. -/
def handle (logger : Logger) (level : LogLevel) (message : String) (arguments : List Value) :
    List LogLine :=
  match logger.handler with
  | .custom tag => [.handled tag level message arguments]
  | .console =>
    let text := "[symgraph] " ++ message
    match level with
    | .error => [.console "error" text arguments]
    | .warn => [.console "warn" text arguments]
    | .info | .debug => [.console "log" text arguments]
    | .silent => []

/-- Logs a message. -/
def log (logger : Logger) (level : LogLevel) (message : String) (arguments : List Value) :
    List LogLine :=
  if logger.isEnabled level then logger.handle level message arguments else []

end Logger

namespace ChildLogger

/-- Messages of a level are let through: by the child's own level if it has
one, by the shared one if not. -/
def isEnabled (child : ChildLogger) (shared : Logger) (level : LogLevel) : Bool :=
  level.passes (child.level.getD shared.level)

/-- The message with the child's label. -/
def labelled (child : ChildLogger) (message : String) : String :=
  child.label ++ " " ++ message

/-- Logs a message through the shared handler. -/
def log (child : ChildLogger) (shared : Logger) (level : LogLevel) (message : String)
    (arguments : List Value) : List LogLine :=
  if child.isEnabled shared level then shared.handle level (child.labelled message) arguments
  else []

end ChildLogger

end ShapeGraph
