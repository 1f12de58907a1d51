import ShapeGraph.Entries
import ShapeGraph.Fault

/-!
# Axes and permutations

Positions of axes as callers write them, negative ones counting from the end,
and the lists that are cut, extended and reordered by them.

* `Axis.position` — the axis that a number names in a given rank;
* `Axis.permutation` — the permutation that a list of numbers names;
* `Axis.invert` — the permutation that undoes another;
* `Axis.pick` — a list reordered.
-/

namespace ShapeGraph.Axis

open ShapeGraph.Numeric (Arithmetic Number)

/-- There is no such axis. -/
def outOfBounds {α : Type} (operation : String) (axis rank : Number) : Except Fault α :=
  .error (.range operation (.noAxis axis rank))

/-- The axis that a number names among `rank` axes; a negative one counts from
the end. -/
def position (operation : String) (axis : Number) (rank : Nat) : Except Fault Nat :=
  match axis with
  | .int a =>
    let moved := if a < 0 then (rank : Int) + a else a
    if 0 ≤ moved ∧ moved < rank then .ok moved.toNat else outOfBounds operation axis (.ofNat rank)
  | _ => outOfBounds operation axis (.ofNat rank)

/-- The axis that a number names when the rank is any number; for a rank that
counts axes this is `position`. -/
def normalize [Arithmetic] (operation : String) (axis rank : Number) : Except Fault Number :=
  match rank.index? with
  | some count => return .ofNat (← position operation axis count)
  | none =>
    let moved := if axis.lt 0 then rank.add axis else axis
    if axis.isInteger && !moved.lt 0 && !rank.lt moved && !rank.same moved then .ok moved
    else outOfBounds operation axis rank

/-! ## Permutations -/

/-- The positions that numbers name, each of them once and none of those seen
before. -/
def distinct (rank : Nat) : List Nat → List Number → Except Fault (List Nat)
  | _, [] => .ok []
  | seen, axis :: rest => do
    let k ← position "permute" axis rank
    if k ∈ seen then .error (.range "permute" (.duplicateAxis axis))
    else return k :: (← distinct rank (k :: seen) rest)

/-- The permutation of `rank` axes that a list of numbers names. -/
def permutation (rank : Number) (axes : List Number) : Except Fault (List Nat) :=
  if .ofNat axes.length = rank then distinct axes.length [] axes
  else .error (.range "permute" (.permutationLength axes.length rank))

/-- The last position of a value in a list, counting from `start`. -/
def lastPosition? (value : Nat) : List (Option Nat) → Nat → Option Nat
  | [], _ => none
  | entry :: rest, start =>
    match lastPosition? value rest (start + 1) with
    | some found => some found
    | none => if entry = some value then some start else none

/-- The permutation that undoes another: where each axis is shown. -/
def invert (axes : List Nat) : List Nat :=
  (List.range axes.length).map fun axis => (lastPosition? axis (axes.map some) 0).getD 0

/-- Where each axis is shown by a list of any numbers.  The list is at least as
long as the one given, with zero for an axis that is not shown; beyond that it
reaches up to the greatest axis shown and may have gaps.  Numbers that are no
indices name no axis. -/
def shownAt (axes : List Number) : List (Option Nat) :=
  let named := axes.map fun axis => axis.index?.filter (· < Entries.indexEnd)
  let reach := named.foldl (fun reach entry => Nat.max reach (entry.elim 0 (· + 1))) axes.length
  (List.range reach).map fun axis =>
    match lastPosition? axis named 0 with
    | some found => some found
    | none => if axis < axes.length then some 0 else none

/-- The items of a list at the given positions, in that order.  An entry that is undefined
counts as no item: the lists that are permuted hold items only, and a place that holds none is
refused like one beyond the end. -/
def pick {α : Type} (items : List α) : List Number → Except Fault (List α)
  | [] => .ok []
  | axis :: rest =>
    match axis.index?.bind (items[·]?) with
    | some item => return item :: (← pick items rest)
    | none => .error (.range "permute" (.noItem axis))

/-! ## Cutting lists -/

/-- Where a list of the given length is cut by a position; a negative one
counts from the end, and positions beyond the ends are at the ends. -/
def cut (position : Number) (length : Nat) : Nat :=
  let whole : Int :=
    match position with
    | .int n => n
    | .real x => x.toInt64.toInt
    | .undefined _ => 0
  if whole < 0 then (whole + length).toNat else Nat.min whole.toNat length

/-- A list with an item put in before a position. -/
def insertAt {α : Type} (items : List α) (position : Nat) (item : α) : List α :=
  items.take position ++ item :: items.drop position

/-- What stands before one position and from another one on. -/
def without {α : Type} (items : List α) (start stop : Nat) : List α :=
  items.take start ++ items.drop stop

/-- A list without the item at a position. -/
def removeAt {α : Type} (items : List α) (position : Nat) : List α :=
  without items position (position + 1)

/-- An item put in where any number cuts the list. -/
def insertCut {α : Type} (items : List α) (position : Number) (item : α) : List α :=
  insertAt items (cut position items.length) item

/-- A list without what stands between a position and the next one. -/
def removeCut [Arithmetic] {α : Type} (items : List α) (position : Number) : List α :=
  without items (cut position items.length) (cut (position.add 1) items.length)

end ShapeGraph.Axis
