import ShapeGraph.Numeric.Number
import ShapeGraph.Numeric.Shortest

/-!
# Numbers as text

A finite number is written with the fewest digits that read back.  Where the
point falls decides the layout: numbers that are neither large nor tiny are
written out, the others get an exponent.  `Layout` holds these decisions and
`layout` is the one in use: a number is written out while its integer part has
at most 21 digits and at most five zeros follow the point before the first
digit, and an exponent always carries its sign.

* `toList_text_natCast`, `toList_text_negSucc` — integers are written as their digits;
* `text_int_inj` — no two of them have the same text.
-/

namespace ShapeGraph.Numeric

/-- How the digits of a number are set out. -/
structure Layout where
  /-- Most digits of an integer part that is written out. -/
  integerDigits : Int
  /-- Most zeros between the point and the first digit. -/
  leadingZeros : Int
  /-- Sign of an exponent that is not negative. -/
  exponentSign : String
  undefined : String
  infinity : String

/-- The layout of every number in output. -/
def layout : Layout where
  integerDigits := 21
  leadingZeros := 5
  exponentSign := "+"
  undefined := "NaN"
  infinity := "Infinity"

/-- `count` zeros. -/
def zeros (count : Int) : String :=
  String.ofList (List.replicate count.toNat '0')

/-- The decimal set out: with `point` digits before the point, where that
count may be negative or exceed the digits there are. -/
def Layout.write (l : Layout) (d : Decimal) : String :=
  let digits := d.digits.repr
  let count : Int := digits.length
  let point := count + d.exponent
  if count ≤ point && point ≤ l.integerDigits then
    digits ++ zeros (point - count)
  else if 0 < point && point ≤ l.integerDigits then
    (digits.take point.toNat).toString ++ "." ++ (digits.drop point.toNat).toString
  else if -l.leadingZeros ≤ point && point ≤ 0 then
    "0." ++ zeros (-point) ++ digits
  else
    let rest := (digits.drop 1).toString
    let exponent := point - 1
    (digits.take 1).toString ++ (if rest.isEmpty then "" else "." ++ rest) ++ "e" ++
      (if exponent < 0 then "-" else l.exponentSign) ++ exponent.natAbs.repr

/-- The size of a finite double other than zero as a binary number. -/
def Binary.ofFloat (x : Float) : Binary :=
  let bits := x.toBits.toNat
  let fraction : Nat := bits % twos 52
  let scale : Nat := bits / twos 52 % twos 11
  if scale = 0 then ⟨fraction, -1074, false⟩
  else ⟨twos 52 + fraction, (scale : Int) - 1075, fraction == 0 && scale != 1⟩

/-- The text of a number. -/
def Number.text : Number → String
  | .int n => toString n
  | .real x =>
    let size :=
      if x.isInf then layout.infinity
      else layout.write (Binary.ofFloat x).shortest.trim
    if x < 0 then "-" ++ size else size
  | .undefined _ => layout.undefined

/-- Numbers joined by a separator. -/
def textJoined (separator : String) (xs : List Number) : String :=
  separator.intercalate (xs.map Number.text)

/-! ## Integers -/

theorem toDigits_inj {m n : Nat} (h : Nat.toDigits 10 m = Nat.toDigits 10 n) : m = n := by
  have hread := congrArg (fun digits => Nat.ofDigitChars 10 digits 0) h
  simpa using hread

theorem isDigit_of_mem_toDigits {n : Nat} {c : Char} (h : c ∈ Nat.toDigits 10 n) :
    c.isDigit = true :=
  Nat.isDigit_of_mem_toDigits (by decide) (by decide) h

namespace Number

/-- A natural number is written as its digits. -/
theorem toList_text_natCast (n : Nat) : (Number.int n).text.toList = Nat.toDigits 10 n :=
  Nat.toList_repr

/-- A negative integer is written as the digits of its size after a sign. -/
theorem toList_text_negSucc (n : Nat) :
    (Number.int (.negSucc n)).text.toList = '-' :: Nat.toDigits 10 (n + 1) := by
  show ("-" ++ (n + 1).repr).toList = _
  rw [String.toList_append, Nat.toList_repr]
  rfl

theorem mem_text_int {n : Int} {c : Char} (h : c ∈ (Number.int n).text.toList) :
    c = '-' ∨ c.isDigit = true := by
  cases n with
  | ofNat n =>
    have hmem : c ∈ Nat.toDigits 10 n := toList_text_natCast n ▸ h
    exact .inr (isDigit_of_mem_toDigits hmem)
  | negSucc n =>
    rw [toList_text_negSucc] at h
    exact (List.mem_cons.mp h).imp_right isDigit_of_mem_toDigits

/-- **The text of an integer tells it.** -/
theorem text_int_inj {m n : Int} (h : (Number.int m).text = (Number.int n).text) : m = n := by
  have hsign : ∀ {k : Nat} {digits : List Char}, Nat.toDigits 10 k ≠ '-' :: digits := by
    intro k digits hdigits
    have hmem : '-' ∈ Nat.toDigits 10 k := hdigits ▸ List.mem_cons_self
    exact absurd (isDigit_of_mem_toDigits hmem) (by decide)
  have htext := congrArg String.toList h
  cases m with
  | ofNat m =>
    cases n with
    | ofNat n =>
      have hdigits : Nat.toDigits 10 m = Nat.toDigits 10 n := by
        rwa [← toList_text_natCast, ← toList_text_natCast]
      exact congrArg Int.ofNat (toDigits_inj hdigits)
    | negSucc n =>
      rw [toList_text_negSucc] at htext
      exact absurd ((toList_text_natCast m).symm.trans htext) hsign
  | negSucc m =>
    rw [toList_text_negSucc] at htext
    cases n with
    | ofNat n => exact absurd ((toList_text_natCast n).symm.trans htext.symm) hsign
    | negSucc n =>
      rw [toList_text_negSucc, List.cons_inj_right] at htext
      rw [Nat.succ.inj (toDigits_inj htext)]

end Number

end ShapeGraph.Numeric
