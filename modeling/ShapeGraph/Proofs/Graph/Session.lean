import ShapeGraph.Graph.Compute
import ShapeGraph.Graph.Generators
import ShapeGraph.Graph.Movement
import ShapeGraph.Proofs.Outcome
import ShapeGraph.Proofs.Size.Meaning

/-!
# Sessions

A session is a graph together with the tensors it has issued, and a command is
one call of a named operation or a generator.  Commands name their operands by
their places among the tensors issued so far, so no handle is ever made up.

* `Session.run` — the session after some commands, those that fail included;
* `Session.build` — the same, but the first failure ends it;
* `perform_bind`, `perform_read`, `perform_derive` — what the parts of a step
  do to the graph;
* `Build.ended_of_read`, `Build.ended_of_operand` — how a reading, or an operand, and what
  follows it end.
-/

namespace ShapeGraph

open ShapeGraph.Numeric (Arithmetic Number)

/-- One call.  Tensors are given by their places among those issued so far. -/
inductive Command where
  | newTensor (name : String) (shape : Shape)
  | constant (value : Number)
  | addFunction (name : String) (inputs : List Nat) (shape : Shape) (payload : Payload)
      (sizes : Option (List (Option Quantity)))
  | realize (t : Nat) (shape : Shape)
  | slice (t : Nat) (specs : List RangeSpec)
  | permute (t : Nat) (axes : List Number)
  | reshape (t : Nat) (target : List ReshapeEntry)
  | expand (t : Nat) (axis : Number) (dim : Dimension)
  | expandTo (t : Nat) (target : Shape)
  | concat (a b : Nat) (axis : Number)
  | contiguous (t : Nat)
  | unary (op : UnaryOp) (t : Nat)
  | binary (op : BinaryOp) (a b : Nat)
  | scalar (op : ScalarOp) (t : Nat) (value : Number)
  | reduce (op : ReduceOp) (t : Nat) (axis : Number)
  | softmax (t : Nat) (axis : Number)
  | matmul (a b : Nat)
  | arange (like : Nat) (axis : Number)
  | causalMask (like : Nat) (axis : Number)

/-- A graph and the tensors it has issued, oldest first. -/
structure Session where
  graph : Graph
  issued : List Tensor

/-! ## Literals of callers -/

/-- The size meant is one of integers, or a bare number that is still to be
checked. -/
def Quantity.Integral : Quantity → Prop
  | number _ => True
  | size s => s.Integral

/-- The size that a quantity of integers stands for is made of integers. -/
theorem Quantity.Integral.toSize {q : Quantity} (hq : q.Integral) {size : Size}
    (h : q.toSize = .ok size) : size.Integral := by
  cases q with
  | number v =>
      simp only [Quantity.toSize, Size.ofNumber, ite_ok_eq_ok] at h
      obtain ⟨hsafe, rfl⟩ := h
      exact Number.eq_int_of_isSafe hsafe
  | size s =>
      obtain rfl := Except.ok.inj h
      exact hq

/-- The value of a bound, if it has one, is a size of integers. -/
def Bound.Integral : Bound → Prop
  | included value => value.Integral
  | excluded value => value.Integral
  | unbounded => True

/-- The bounds of a range are sizes of integers. -/
def RangeSpec.Integral (spec : RangeSpec) : Prop :=
  spec.bounds.1.Integral ∧ spec.bounds.2.Integral

/-- Every size expression that a caller hands in has integers for its
literals. -/
def Command.Integral : Command → Prop
  | slice _ specs => ∀ spec ∈ specs, spec.Integral
  | addFunction _ _ _ _ sizes =>
    ∀ declared, sizes = some declared → ∀ q, some q ∈ declared → q.Integral
  | _ => True

section

variable [Arithmetic]

/-- The tensor at a place; there has to be one. -/
def Command.operand (issued : List Tensor) (place : Nat) : Build Tensor :=
  Build.read fun _ =>
    match issued[place]? with
    | some t => .ok t
    | none => .error (.handle "operand" (.noNode (.ofNat place)))

open Command (operand) in
/-- The step on the graph that a command is. -/
def Command.step (issued : List Tensor) : Command → Build Tensor
  | newTensor name shape => Build.newTensor name shape
  | constant value => Build.constant value
  | addFunction name inputs shape payload sizes => do
    Build.addFunction name (← inputs.mapM (operand issued)) shape payload sizes
  | realize t shape => do Build.realize (← operand issued t) shape
  | slice t specs => do Build.slice (← operand issued t) specs
  | permute t axes => do Build.permute (← operand issued t) axes
  | reshape t target => do Build.reshape (← operand issued t) target
  | expand t axis dim => do Build.expand (← operand issued t) axis dim
  | expandTo t target => do Build.expandTo (← operand issued t) target
  | concat a b axis => do Build.concat (← operand issued a) (← operand issued b) axis
  | contiguous t => do Build.contiguous (← operand issued t)
  | unary op t => do Build.unary op (← operand issued t)
  | binary op a b => do Build.binary op (← operand issued a) (← operand issued b)
  | scalar op t value => do Build.scalar op (← operand issued t) value
  | reduce op t axis => do Build.reduce op (← operand issued t) axis
  | softmax t axis => do Build.softmax (← operand issued t) axis
  | matmul a b => do Build.matmul (← operand issued a) (← operand issued b)
  | arange like axis => do Build.arange (← operand issued like) axis
  | causalMask like axis => do Build.causalMask (← operand issued like) axis

namespace Session

/-- A graph without nodes, which has issued nothing. -/
def start (id : Nat) (settings : GraphSettings) : Session :=
  ⟨.empty id settings, []⟩

/-- The session after a command.  A failure issues nothing, and leaves whatever
graph the step has left. -/
def step (s : Session) (command : Command) : Session :=
  match (command.step s.issued).perform s.graph with
  | (.ok t, g) => ⟨g, s.issued ++ [t]⟩
  | (.error _, g) => ⟨g, s.issued⟩

/-- The session after some commands. -/
def run (s : Session) (commands : List Command) : Session :=
  commands.foldl step s

/-- The session after a command that has to succeed. -/
def extend (s : Session) (command : Command) : Except Fault Session :=
  match (command.step s.issued).perform s.graph with
  | (.ok t, g) => .ok ⟨g, s.issued ++ [t]⟩
  | (.error fault, _) => .error fault

/-- The session after some commands, all of which have to succeed. -/
def build (s : Session) : List Command → Except Fault Session
  | [] => .ok s
  | command :: rest => do
    build (← s.extend command) rest

/-- A command leaves what its step leaves, if it fails too. -/
theorem step_graph (s : Session) (command : Command) :
    (s.step command).graph = ((command.step s.issued).perform s.graph).2 := by
  unfold step
  split
  · next hperform => rw [hperform]
  · next hperform => rw [hperform]

end Session

end

/-! ## Steps on a graph -/

namespace Build

variable {α β : Type} {g : Graph}

/-- What follows a step starts from its result and its graph. -/
theorem perform_bind (step : Build α) (next : α → Build β) (g : Graph) :
    (step >>= next).perform g =
      match step.perform g with
      | (.ok a, g') => (next a).perform g'
      | (.error fault, g') => (.error fault, g') := by
  show (step.run >>= ExceptT.bindCont next) g = _
  show (ExceptT.bindCont next (step.run g).1) (step.run g).2 = _
  unfold perform
  rcases step.run g with ⟨fault | a, g'⟩ <;> rfl

/-- A step that reads leaves the graph alone. -/
@[simp] theorem perform_read (f : Graph → Except Fault α) (g : Graph) :
    (read f).perform g = (f g, g) := rfl

/-- A step that writes does not fail. -/
@[simp] theorem perform_write (f : Graph → α × Graph) (g : Graph) :
    (write f).perform g = (.ok (f g).1, (f g).2) := rfl

/-- What follows a reading that succeeds starts from the same graph. -/
theorem perform_read_bind {f : Graph → Except Fault α} {a : α} (h : f g = .ok a)
    (next : α → Build β) : (read f >>= next).perform g = (next a).perform g := by
  rw [perform_bind, perform_read, h]

/-- What is left of a step after reading has failed is the failure. -/
theorem perform_read_bind_error {f : Graph → Except Fault α} {fault : Fault}
    (h : f g = .error fault) (next : α → Build β) :
    (read f >>= next).perform g = (.error fault, g) := by
  rw [perform_bind, perform_read, h]

/-- A reading that fails leaves the graph, and what follows one that succeeds decides. -/
theorem read_cases (f : Graph → Except Fault α) (next : α → Build β) (g : Graph) :
    (∃ fault, (read f >>= next).perform g = (.error fault, g)) ∨
      ∃ a, f g = .ok a ∧ (read f >>= next).perform g = (next a).perform g := by
  cases hf : f g with
  | error fault => exact .inl ⟨fault, perform_read_bind_error hf next⟩
  | ok a => exact .inr ⟨a, rfl, perform_read_bind hf next⟩

/-- A draft and the ids of its inputs, as a plan derives them from the graph. -/
def planned (plan : Graph → Except Fault Draft) (g : Graph) : Except Fault (Draft × List Nat) := do
  let draft ← plan g
  let inputs ← draft.inputs.mapM (g.inputId draft.kind)
  return (draft, inputs)

/-- The handle of the next node. -/
def handle (g : Graph) (shape : Shape) : Tensor :=
  ⟨.ofNat g.size, shape, .ofNat g.id⟩

/-- Deriving a node either appends it or leaves the graph alone. -/
theorem perform_derive (plan : Graph → Except Fault Draft) (g : Graph) :
    (derive plan).perform g =
      match planned plan g with
      | .ok (draft, inputs) => (.ok (handle g draft.shape), g.append draft inputs)
      | .error fault => (.error fault, g) := by
  unfold derive planned
  cases hplan : plan g with
  | error fault => exact perform_read_bind_error hplan _
  | ok draft =>
      rw [perform_read_bind hplan, insert]
      cases hinputs : draft.inputs.mapM (g.inputId draft.kind) with
      | error fault =>
          rw [perform_read_bind_error hinputs]
          simp [bind, Except.bind, hinputs]
      | ok inputs =>
          rw [perform_read_bind hinputs]
          simp [bind, Except.bind, hinputs, pure, Except.pure, handle]

/-- A draft is planned if it is derived and all of its inputs are found. -/
theorem planned_eq_ok {plan : Graph → Except Fault Draft} {draft : Draft} {inputs : List Nat} :
    planned plan g = .ok (draft, inputs) ↔
      plan g = .ok draft ∧ draft.inputs.mapM (g.inputId draft.kind) = .ok inputs := by
  simp only [planned, bind_eq_ok, pure_eq_ok, Prod.mk.injEq]
  constructor
  · rintro ⟨_, hplan, _, hinputs, rfl, rfl⟩
    exact ⟨hplan, hinputs⟩
  · rintro ⟨hplan, hinputs⟩
    exact ⟨_, hplan, _, hinputs, rfl, rfl⟩

/-- A draft that is derived is appended if all of its inputs are found. -/
theorem perform_derive_ok {plan : Graph → Except Fault Draft} {draft : Draft}
    {inputs : List Nat} (hplan : plan g = .ok draft)
    (hinputs : draft.inputs.mapM (g.inputId draft.kind) = .ok inputs) :
    (derive plan).perform g = (.ok (handle g draft.shape), g.append draft inputs) := by
  rw [perform_derive, planned_eq_ok.mpr ⟨hplan, hinputs⟩]

end Build

/-- What follows an operand has succeeded on the tensor at its place. -/
theorem Command.operand_eq_ok {issued : List Tensor} {place : Nat} {next : Tensor → Build Tensor}
    {g g' : Graph} {t : Tensor} (h : (operand issued place >>= next).perform g = (.ok t, g')) :
    ∃ held, issued[place]? = some held ∧ (next held).perform g = (.ok t, g') := by
  rcases Build.read_cases _ next g with ⟨fault, hfailed⟩ | ⟨held, hheld, hnext⟩
  · cases h.symm.trans hfailed
  · cases hplace : issued[place]? with
    | none =>
        rw [hplace] at hheld
        cases hheld
    | some other =>
        rw [hplace] at hheld
        obtain rfl := Except.ok.inj hheld
        exact ⟨other, rfl, hnext.symm.trans h⟩

namespace Build

variable {g : Graph} {issued : List Tensor}

/-- What holds of any fault here holds of the end of a reading and what follows it, if it holds
of the end of that. -/
theorem ended_of_read {α β : Type} {P : Except Fault β × Graph → Prop}
    {f : Graph → Except Fault α} {next : α → Build β} (hfault : ∀ fault, P (.error fault, g))
    (h : ∀ a, f g = .ok a → P ((next a).perform g)) : P ((read f >>= next).perform g) := by
  rcases read_cases f next g with ⟨fault, hperform⟩ | ⟨a, ha, hperform⟩ <;> rw [hperform]
  · exact hfault fault
  · exact h a ha

/-- What is true of a failure, and of a call on any tensor that has been issued, is true of the
call on the operand at a place. -/
theorem ended_of_operand {P : Except Fault Tensor × Graph → Prop} {place : Nat}
    {next : Tensor → Build Tensor} (hfault : ∀ fault, P (.error fault, g))
    (h : ∀ t ∈ issued, P ((next t).perform g)) :
    P ((Command.operand issued place >>= next).perform g) := by
  refine ended_of_read hfault fun t ht => ?_
  split at ht
  · next held hheld =>
    obtain rfl := Except.ok.inj ht
    exact h _ (List.mem_of_getElem? hheld)
  · cases ht

/-- The same goes for the operands at a list of places. -/
theorem ended_of_operands {P : Except Fault Tensor × Graph → Prop} {places : List Nat}
    {next : List Tensor → Build Tensor} (hfault : ∀ fault, P (.error fault, g))
    (h : ∀ tensors, P ((next tensors).perform g)) :
    P ((places.mapM (Command.operand issued) >>= next).perform g) := by
  induction places generalizing next with
  | nil =>
      rw [List.mapM_nil, pure_bind]
      exact h []
  | cons place rest ih =>
      simp only [List.mapM_cons, bind_assoc, pure_bind]
      exact ended_of_operand hfault fun t _ => ih fun tensors => h (t :: tensors)

end Build

/-- What follows several operands has succeeded on some tensors. -/
theorem Command.operands_eq_ok {issued : List Tensor} {places : List Nat}
    {next : List Tensor → Build Tensor} {g g' : Graph} {t : Tensor}
    (h : (places.mapM (operand issued) >>= next).perform g = (.ok t, g')) :
    ∃ tensors, (next tensors).perform g = (.ok t, g') :=
  Build.ended_of_operands
    (P := fun ended => ended = (.ok t, g') → ∃ tensors, (next tensors).perform g = (.ok t, g'))
    (fun _ hfailed => nomatch hfailed) (fun tensors hnext => ⟨tensors, hnext⟩) h

end ShapeGraph
