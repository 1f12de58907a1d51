import ShapeGraph.Entries
import ShapeGraph.Numeric.Text

/-!
# Host values

The data that hosts hand in beside sizes and shapes: node attributes, log
arguments, the context of an error, and whatever a host computation throws.

`Value.toText` is the text of a value inside a message: a list is written as its
members with commas between them and without brackets, nested lists flatten,
an absent member is empty, and a record has one fixed text.  `Value.entries` is
a value taken apart by name.
-/

namespace ShapeGraph

open ShapeGraph.Numeric (Number)

/-- A value of the host. -/
inductive Value where
  | missing
  | null
  | boolean (b : Bool)
  | number (x : Number)
  | text (s : String)
  | list (members : List Value)
  | record (fields : List (String × Value))
deriving Inhabited

namespace Value

/-- Members of a list that have no text of their own there. -/
def isBlank : Value → Bool
  | missing => true
  | null => true
  | _ => false

mutual

/-- The text of a value inside a message. -/
def toText : Value → String
  | missing => "undefined"
  | null => "null"
  | boolean b => if b then "true" else "false"
  | number x => x.text
  | text s => s
  | list members => ",".intercalate (textOfMembers members)
  | record _ => "[object Object]"

/-- The texts of the members of a list. -/
def textOfMembers : List Value → List String
  | [] => []
  | member :: rest => (if member.isBlank then "" else toText member) :: textOfMembers rest

end

/-- Values under the names of their positions. -/
def byPosition (values : List Value) : Entries Value :=
  values.mapIdx fun i value => (i.repr, value)

/-- The named values inside a value: the fields of a record, the members of a
list and the characters of a text.  Other values have none. -/
def entries : Value → Entries Value
  | record fields => fields
  | list members => byPosition members
  | text s => byPosition (s.toList.map fun c => text c.toString)
  | _ => []

end Value

end ShapeGraph
