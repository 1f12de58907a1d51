/-!
# Named entries in order

An association list in which every name stands once.  Entering a name again
keeps its place and replaces its value.  `ofPairs` keeps the order of entry;
`ofRecord` lists the names that are plain indices first, by size, as records
do.

* `get?_put_self`, `get?_put_of_ne` — what is found after an entry;
* `mem_of_get?` — what is found is one of the entries.
-/

namespace ShapeGraph

/-- Named values in the order in which they are listed. -/
abbrev Entries (α : Type) := List (String × α)

namespace Entries

variable {α : Type}

/-- The value of a name. -/
def get? : Entries α → String → Option α
  | [], _ => none
  | entry :: rest, name => if entry.1 = name then some entry.2 else get? rest name

/-- Enters a value under a name, in the place of the earlier entry if there is
one and at the end if there is none. -/
def put : Entries α → String → α → Entries α
  | [], name, value => [(name, value)]
  | entry :: rest, name, value =>
    if entry.1 = name then (name, value) :: rest else entry :: put rest name value

/-- Entries made one after the other. -/
def ofPairs (pairs : List (String × α)) : Entries α :=
  pairs.foldl (fun entries pair => put entries pair.1 pair.2) []

/-- Indices end before `2^32 - 1`. -/
def indexEnd : Nat := 4294967295

/-- The index that a name writes in its plain decimal form. -/
def index? (name : String) : Option Nat :=
  match name.toNat? with
  | some n => if n.repr = name ∧ n < indexEnd then some n else none
  | none => none

/-- Entries of a record: indices by size, then the other names as entered. -/
def ofRecord (pairs : List (String × α)) : Entries α :=
  let entries := ofPairs pairs
  let indexed := entries.filterMap fun entry => (index? entry.1).map (·, entry)
  let ordered := indexed.mergeSort fun a b => a.1 ≤ b.1
  ordered.map (·.2) ++ entries.filter fun entry => (index? entry.1).isNone

@[simp] theorem get?_put_self (entries : Entries α) (name : String) (value : α) :
    (entries.put name value).get? name = some value := by
  induction entries with
  | nil => simp [put, get?]
  | cons entry rest ih =>
    by_cases h : entry.1 = name
    · simp [put, get?, h]
    · simpa [put, get?, h] using ih

theorem get?_put_of_ne (entries : Entries α) {name other : String} (value : α)
    (hne : other ≠ name) : (entries.put name value).get? other = entries.get? other := by
  induction entries with
  | nil => simp [put, get?, Ne.symm hne]
  | cons entry rest ih =>
    by_cases h : entry.1 = name
    · subst h
      simp [put, get?, Ne.symm hne]
    · by_cases ho : entry.1 = other
      · subst ho
        simp [put, get?, h]
      · simpa [put, get?, h, ho] using ih

/-- What a name is bound to is one of the entries. -/
theorem mem_of_get? {entries : Entries α} {name : String} {value : α}
    (h : entries.get? name = some value) : (name, value) ∈ entries := by
  induction entries with
  | nil => cases h
  | cons entry rest ih =>
      unfold get? at h
      split at h
      · next hname =>
        obtain rfl := Option.some.inj h
        exact hname ▸ List.mem_cons_self
      · exact List.mem_cons_of_mem _ (ih h)

end Entries

end ShapeGraph
