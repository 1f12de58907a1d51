import ShapeGraph.Log

/-!
# Options of a graph

What callers ask for explicitly wins over environment variables, and these win
over the defaults.
-/

namespace ShapeGraph

/-- What callers may ask for. -/
structure GraphOptions where
  name : Option String
  checkObligations : Option Bool
  logLevel : Option LogLevel

/-- Nothing in particular is asked for. -/
def GraphOptions.default : GraphOptions := ⟨none, none, none⟩

/-- The options in force. -/
structure GraphSettings where
  /-- Name in log output. -/
  name : String
  /-- Recorded equalities are checked when the graph is resolved. -/
  checkObligations : Bool
  /-- A log level of the graph's own. -/
  logLevel : Option LogLevel
deriving DecidableEq

/-- The options in force under the given environment variables. -/
def GraphOptions.resolve (options : GraphOptions) (vars : Variables) : GraphSettings where
  name := options.name.getD "graph"
  checkObligations :=
    options.checkObligations.getD (vars.get? "SYMGRAPH_SKIP_OBLIGATIONS" ≠ some "1")
  logLevel :=
    options.logLevel <|> (vars.get? "SYMGRAPH_LOG_LEVEL").bind LogLevel.ofName?

/-- The logger of a graph. -/
def GraphSettings.logger (settings : GraphSettings) : ChildLogger :=
  ⟨"[" ++ settings.name ++ "]", settings.logLevel⟩

end ShapeGraph
