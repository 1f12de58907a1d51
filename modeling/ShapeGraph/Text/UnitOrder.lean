/-!
# The order of names

Names are listed in the order of their 16-bit units: a character beyond the
first 65536 counts as its two surrogate units, so it comes before the last
characters of that range although its code point is greater.

* `mem_sortNames` — sorting keeps exactly the names there are;
* `sortNames_pairwise` — and puts them in order.
-/

namespace ShapeGraph.Text

/-- The 16-bit units of a character. -/
def unitsOfChar (c : Char) : List Nat :=
  if c.toNat < 0x10000 then [c.toNat]
  else [0xD800 + (c.toNat - 0x10000) / 0x400, 0xDC00 + (c.toNat - 0x10000) % 0x400]

/-- The 16-bit units of a text. -/
def units (s : String) : List Nat :=
  s.toList.flatMap unitsOfChar

/-- The order of a dictionary: the first units that differ decide, and a list
comes before its extensions. -/
def lexLe : List Nat → List Nat → Bool
  | [], _ => true
  | _ :: _, [] => false
  | a :: as, b :: bs => a < b || (a == b && lexLe as bs)

/-- The first text is not after the second in the order of their units. -/
def unitsLe (s t : String) : Bool :=
  lexLe (units s) (units t)

/-- Names in the order of their units. -/
def sortNames (names : List String) : List String :=
  names.mergeSort unitsLe

@[simp] theorem mem_sortNames {name : String} {names : List String} :
    name ∈ sortNames names ↔ name ∈ names := by
  simp [sortNames, List.mem_mergeSort]

theorem lexLe_trans {as bs cs : List Nat} (hab : lexLe as bs = true) (hbc : lexLe bs cs = true) :
    lexLe as cs = true := by
  induction as generalizing bs cs with
  | nil => rfl
  | cons a as ih =>
    cases bs with
    | nil => simp [lexLe] at hab
    | cons b bs =>
      cases cs with
      | nil => simp [lexLe] at hbc
      | cons c cs =>
        simp only [lexLe, Bool.or_eq_true, decide_eq_true_eq, Bool.and_eq_true, beq_iff_eq] at *
        rcases hab with hab | ⟨rfl, hab⟩
        · exact Or.inl (by rcases hbc with hbc | ⟨rfl, _⟩ <;> omega)
        · rcases hbc with hbc | ⟨rfl, hbc⟩
          · exact Or.inl hbc
          · exact Or.inr ⟨rfl, ih hab hbc⟩

theorem lexLe_total (as bs : List Nat) : lexLe as bs = true ∨ lexLe bs as = true := by
  induction as generalizing bs with
  | nil => exact Or.inl rfl
  | cons a as ih =>
    cases bs with
    | nil => exact Or.inr rfl
    | cons b bs =>
      simp only [lexLe, Bool.or_eq_true, decide_eq_true_eq, Bool.and_eq_true, beq_iff_eq]
      rcases Nat.lt_trichotomy a b with h | rfl | h
      · exact Or.inl (Or.inl h)
      · rcases ih bs with h | h
        · exact Or.inl (Or.inr ⟨rfl, h⟩)
        · exact Or.inr (Or.inr ⟨rfl, h⟩)
      · exact Or.inr (Or.inl h)

theorem unitsLe_trans (s t u : String) (hst : unitsLe s t = true) (htu : unitsLe t u = true) :
    unitsLe s u = true :=
  lexLe_trans hst htu

theorem unitsLe_total (s t : String) : (unitsLe s t || unitsLe t s) = true := by
  simpa [unitsLe] using lexLe_total (units s) (units t)

theorem sortNames_pairwise (names : List String) :
    (sortNames names).Pairwise (fun s t => unitsLe s t = true) :=
  List.pairwise_mergeSort unitsLe_trans unitsLe_total names

end ShapeGraph.Text
