import ShapeGraph.Size.Substitute

/-!
# Run-time bindings

Dynamic sizes are unknown while a graph is built; when it runs every symbol
receives one.  An environment records these bindings in the order in which they
were made, and where each came from.  It is write-once: binding a symbol again
to its own value changes nothing, and to any other value fails.

* `Environment.bind` — one binding more, at the end, or none;
* `Environment.unify` — a size is made to equal a number, by binding it if it
  is a bare symbol that is still free.
-/

namespace ShapeGraph

open ShapeGraph.Numeric (Arithmetic Number)

/-- One bound symbol. -/
structure Binding where
  symbol : String
  value : Number
  source : Source
deriving DecidableEq

/-- The bindings made so far, oldest first. -/
structure Environment where
  entries : List Binding
deriving DecidableEq

namespace Environment

/-- No symbol is bound. -/
def empty : Environment := ⟨[]⟩

/-- The binding of a symbol. -/
def find? (env : Environment) (symbol : String) : Option Binding :=
  env.entries.find? fun entry => entry.symbol = symbol

/-- The value of a symbol. -/
def get? (env : Environment) (symbol : String) : Option Number :=
  (env.find? symbol).map Binding.value

/-- The symbol has a value. -/
def isBound (env : Environment) (symbol : String) : Bool :=
  (env.get? symbol).isSome

/-- The size of a dimension, as far as it is known. -/
def sizeOf (env : Environment) : Dimension → Option Number
  | .constant size => some size
  | .dynamic symbol => env.get? symbol

/-- The values of all bound symbols. -/
def bindings (env : Environment) : Bindings :=
  env.entries.map fun entry => (entry.symbol, entry.value)

/-- Binds a symbol to a size.  Its value cannot change later. -/
def bind (env : Environment) (symbol : String) (value : Number) (source : Source) :
    Except Fault Environment :=
  if value.isSafe && !value.lt 0 then
    match env.find? symbol with
    | some held =>
      if held.value = value then .ok env
      else .error (.mismatch (.rebound symbol held.value value held.source source))
    | none => .ok ⟨env.entries ++ [⟨symbol, value, source⟩]⟩
  else .error (.size (.badBinding symbol value))

/-- Binds symbols one after the other, as callers give them. -/
def bindAll : Environment → Bindings → Except Fault Environment
  | env, [] => .ok env
  | env, (symbol, value) :: rest => do
    bindAll (← env.bind symbol value .explicit) rest

/-- The environment of the bindings that callers give. -/
def ofBindings (initial : Bindings) : Except Fault Environment :=
  empty.bindAll initial

/-- Makes a size equal to a value.  A bare free symbol is bound to it; any
other size has to be known and has to be that value. -/
def unify [Arithmetic] (env : Environment) (size : Size) (value : Number) (relation : String)
    (source : Source) : Except Fault Environment := do
  let pending ← size.substitute env.bindings
  match pending with
  | .literal known =>
    if known.same value then .ok env
    else .error (.mismatch (.size relation known value size))
  | .symbol name => env.bind name value source
  | .binary .. => .error (.size (.unresolved pending pending.symbols))

end Environment

end ShapeGraph
