/-!
# The shortest decimal of a binary number

A positive binary number `m · 2^q` stands for an interval of reals: those that
round to it at its own precision.  A decimal `d · 10^e` inside that interval
reads back as the number, and the fewer digits `d` has the better.  This file
finds such a decimal by exact arithmetic on natural numbers, one digit count
after the other:

* `Binary.interval` holds the two ends, in quarters of the last binary place;
* `Binary.nearest?` looks at the two neighbours of the number on the grid of
  decimals with a given number of digits;
* `Binary.shortest` takes the first grid that has a neighbour in the interval,
  and of two neighbours the nearer one, an exact tie going to the even digit;
* `Binary.nearest?_within` says that what is found lies in the interval.
-/

namespace ShapeGraph.Numeric

/-- A power of two. -/
def twos (exponent : Nat) : Nat := Nat.pow 2 exponent

/-- A power of ten. -/
def tens (exponent : Nat) : Nat := Nat.pow 10 exponent

/-- The decimal `digits · 10^exponent`. -/
structure Decimal where
  digits : Nat
  exponent : Int
deriving DecidableEq, Repr

/-- The positive binary number `significand · 2^exponent`.  At the lower end
of its binade the numbers below it are twice as dense, which `lowest` marks. -/
structure Binary where
  significand : Nat
  exponent : Int
  lowest : Bool
deriving DecidableEq, Repr

/-- Compares `a · 10^p` with `b · 2^q` exactly. -/
def compareScaled (a : Nat) (p : Int) (b : Nat) (q : Int) : Ordering :=
  compare (a * tens p.toNat * twos (-q).toNat) (b * twos q.toNat * tens (-p).toNat)

namespace Binary

/-- The ends of the rounding interval, in units of a quarter of the last
binary place. -/
def interval (x : Binary) : Nat × Nat :=
  (4 * x.significand - (if x.lowest then 1 else 2), 4 * x.significand + 2)

/-- The ends themselves round to the number when its significand is even. -/
def closed (x : Binary) : Bool :=
  x.significand % 2 == 0

/-- The decimal lies in the rounding interval. -/
def holds (x : Binary) (d : Decimal) : Bool :=
  let below := compareScaled d.digits d.exponent x.interval.1 (x.exponent - 2)
  let above := compareScaled d.digits d.exponent x.interval.2 (x.exponent - 2)
  (below == .gt || (below == .eq && x.closed)) &&
    (above == .lt || (above == .eq && x.closed))

/-- The greatest `L` with `10^L` not above the number. -/
def magnitude (x : Binary) : Int :=
  let top := x.significand * twos x.exponent.toNat
  let bottom := twos (-x.exponent).toNat
  let guess := (top.repr.length : Int) - (bottom.repr.length : Int)
  if top * tens (-guess).toNat < bottom * tens guess.toNat then guess - 1 else guess

/-- The greatest multiple of `10^unit` not above the number. -/
def floorOn (x : Binary) (unit : Int) : Nat :=
  (x.significand * twos x.exponent.toNat * tens (-unit).toNat) /
    (twos (-x.exponent).toNat * tens unit.toNat)

/-- Of the two neighbours `below` and `below + 1` on the grid of `10^unit`,
the one nearer to the number; a tie goes to the even one. -/
def nearer (x : Binary) (below : Nat) (unit : Int) : Nat :=
  match compareScaled (2 * below + 1) unit (2 * x.significand) x.exponent with
  | .gt => below
  | .lt => below + 1
  | .eq => if below % 2 == 0 then below else below + 1

/-- The best decimal with `count` digits that reads back as the number. -/
def nearest? (x : Binary) (count : Nat) : Option Decimal :=
  let unit := x.magnitude - count + 1
  let below := x.floorOn unit
  let low : Decimal := ⟨below, unit⟩
  let high : Decimal := ⟨below + 1, unit⟩
  match x.holds low, x.holds high with
  | true, true => some ⟨x.nearer below unit, unit⟩
  | true, false => some low
  | false, true => some high
  | false, false => none

/-- The first digit count, of the `fuel` ones from `count` on, that has a
decimal which reads back; without one, the number cut after `count` digits. -/
def search (x : Binary) : Nat → Nat → Decimal
  | 0, count => ⟨x.floorOn (x.magnitude - count + 1), x.magnitude - count + 1⟩
  | fuel + 1, count => (x.nearest? count).getD (search x fuel (count + 1))

/-- The decimal with the fewest digits that reads back as the number.
Seventeen digits always suffice at double precision. -/
def shortest (x : Binary) : Decimal :=
  search x 17 1

/-- What is found with a given number of digits reads back as the number. -/
theorem nearest?_within {x : Binary} {count : Nat} {d : Decimal}
    (h : x.nearest? count = some d) : x.holds d = true := by
  unfold nearest? at h
  simp only at h
  split at h
  · rename_i hlow hhigh
    obtain rfl := Option.some.inj h
    unfold nearer
    split
    · exact hlow
    · exact hhigh
    · split
      · exact hlow
      · exact hhigh
  · rename_i hlow _
    obtain rfl := Option.some.inj h
    exact hlow
  · rename_i _ hhigh
    obtain rfl := Option.some.inj h
    exact hhigh
  · exact absurd h (by simp)

end Binary

/-- The decimal without trailing zeros among its digits. -/
def Decimal.trim (d : Decimal) : Decimal :=
  if h : d.digits ≠ 0 ∧ d.digits % 10 = 0 then
    trim ⟨d.digits / 10, d.exponent + 1⟩
  else d
termination_by d.digits
decreasing_by
  exact Nat.div_lt_self (Nat.pos_of_ne_zero h.1) (by omega)

end ShapeGraph.Numeric
