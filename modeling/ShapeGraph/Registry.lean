import ShapeGraph.Environment

/-!
# Environments in use

An environment is an object: a call binds in it where it stands, and whoever holds
it sees what has been bound.  A registry has the tables of bindings behind all
environments and the environments that are in use.  A step on a registry may fail,
and leaves a registry either way: what it has written before it fails stays written.

* `Registry.construct` — an environment with the bindings given, which are made one
  after the other;
* `Registry.change` — binds in an environment, or leaves it alone;
* `Registry.clone` — an environment of its own with the bindings of another one;
* `Registry.Call` — the calls that callers make.
-/

namespace ShapeGraph

open ShapeGraph.Numeric (Arithmetic Number)

/-- Enters a binding among others, in the place of the earlier one of its symbol if
there is one and at the end if there is none. -/
def Binding.enter (binding : Binding) : List Binding → List Binding
  | [] => [binding]
  | held :: rest =>
    if held.symbol = binding.symbol then binding :: rest else held :: binding.enter rest

/-- The tables of bindings and the environments in use. -/
structure Registry where
  /-- Every table made so far, those of environments that could not be made
  included. -/
  tables : List Environment
  /-- The table behind each environment in use, oldest first. -/
  issued : List Nat

namespace Registry

/-- No environment is in use. -/
def empty : Registry := ⟨[], []⟩

/-- The environment at a place, as it is now. -/
def env? (r : Registry) (place : Nat) : Option Environment :=
  r.issued[place]?.bind (r.tables[·]?)

/-- The table of an environment in use. -/
def tableOf (r : Registry) (place : Nat) : Except Fault Nat :=
  match r.issued[place]? with
  | some table => .ok table
  | none => .error (.handle "environment" (.noNode (.ofNat place)))

/-- What a table holds. -/
def contents (r : Registry) (table : Nat) : Except Fault Environment :=
  match r.tables[table]? with
  | some env => .ok env
  | none => .error (.handle "environment" (.noNode (.ofNat table)))

/-- Replaces what a table holds. -/
def put (r : Registry) (table : Nat) (env : Environment) : Registry :=
  { r with tables := r.tables.set table env }

/-! ## Steps -/

/-- A step on a registry: it ends in a result or a fault, and in a registry. -/
abbrev Step := ExceptT Fault (StateM Registry)

namespace Step

/-- A check or a reading, which leaves the registry alone. -/
def read {α : Type} (f : Registry → Except Fault α) : Step α :=
  ExceptT.mk fun r => (f r, r)

/-- A change that cannot fail. -/
def write {α : Type} (f : Registry → α × Registry) : Step α :=
  ExceptT.mk fun r => (.ok (f r).1, (f r).2)

/-- Runs a step. -/
def perform {α : Type} (step : Step α) (r : Registry) : Except Fault α × Registry :=
  step.run r

end Step

open Step (read write)

/-- Makes a table without bindings. -/
def allocate : Step Nat :=
  write fun r => (r.tables.length, { r with tables := r.tables ++ [.empty] })

/-- Takes the environment of a table into use. -/
def issue (table : Nat) : Step Unit :=
  write fun r => ((), { r with issued := r.issued ++ [table] })

/-- Changes what a table holds, unless the change fails. -/
def revise (table : Nat) (f : Environment → Except Fault Environment) : Step Unit := do
  let changed ← read fun r => do f (← r.contents table)
  write fun r => ((), r.put table changed)

/-- Binds symbols in a table, one after the other. -/
def bindEach (table : Nat) : Bindings → Step Unit
  | [] => return ()
  | (symbol, value) :: rest => do
    revise table fun env => env.bind symbol value .explicit
    bindEach table rest

/-- Enters bindings in a table, one after the other. -/
def enterEach (table : Nat) : List Binding → Step Unit
  | [] => return ()
  | binding :: rest => do
    revise table fun env => .ok ⟨binding.enter env.entries⟩
    enterEach table rest

/-- An environment with the bindings given.  It is in use only if all of them can be
made. -/
def construct (initial : Bindings) : Step Unit := do
  let table ← allocate
  bindEach table initial
  issue table

/-- Changes an environment in use, unless the change fails. -/
def change (place : Nat) (f : Environment → Except Fault Environment) : Step Unit := do
  revise (← read fun r => r.tableOf place) f

/-- Another environment with the bindings of one in use, in a table of its own. -/
def clone (place : Nat) : Step Unit := do
  let held ← read fun r => do r.contents (← r.tableOf place)
  let table ← allocate
  enterEach table held.entries
  issue table

/-! ## Calls -/

/-- One call.  Environments are given by their places among those in use. -/
inductive Call where
  | construct (initial : Bindings)
  | bind (place : Nat) (symbol : String) (value : Number) (source : Source)
  | unify (place : Nat) (size : Size) (value : Number) (relation : String) (source : Source)
  | clone (place : Nat)

variable [Arithmetic]

/-- The step that a call is. -/
def Call.step : Call → Step Unit
  | construct initial => Registry.construct initial
  | bind place symbol value source => change place fun env => env.bind symbol value source
  | unify place size value relation source =>
    change place fun env => env.unify size value relation source
  | clone place => Registry.clone place

/-- What a call ends in. -/
def outcome (r : Registry) (call : Call) : Except Fault Unit :=
  (call.step.perform r).1

/-- The registry after a call, whether it fails or not. -/
def after (r : Registry) (call : Call) : Registry :=
  (call.step.perform r).2

/-- The registry after some calls, those that fail included. -/
def run (r : Registry) (calls : List Call) : Registry :=
  calls.foldl after r

end Registry

end ShapeGraph
