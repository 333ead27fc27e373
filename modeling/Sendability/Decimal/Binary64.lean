/-
  Binary floating-point numbers of 64 bits, exactly.

  A finite number is `m · 2 ^ e`. `Binary64.ofDecimal` rounds a decimal to the
  nearest such number, half to even; `Binary64.shortest` finds the fewest
  decimal digits that round back to a number, nearest to it among those.
  All arithmetic is on natural numbers.
-/
namespace Sendability

/-- A binary floating-point number. A finite one is `m · 2 ^ e` with
    `m < 2 ^ 53` and `-1074 ≤ e`, and `2 ^ 52 ≤ m` unless `e = -1074`. -/
inductive Binary64 where
  | nan
  | infinity (negative : Bool)
  | finite (negative : Bool) (m : Nat) (e : Int)
  deriving DecidableEq, Inhabited

namespace Binary64

/-- The least exponent of a finite number. -/
def minExponent : Int := -1074

/-- The greatest exponent of a finite number. -/
def maxExponent : Int := 971

/-- `2 ^ 52`, the least `m` of a number above the least exponent. -/
def leastFull : Nat := 0x10000000000000

/-- `2 ^ 53`, above every `m`. -/
def beyond : Nat := 0x20000000000000

/-- `b ^ e` as a numerator and a denominator. -/
def powFraction (b : Nat) (e : Int) : Nat × Nat :=
  if 0 ≤ e then (Nat.pow b e.toNat, 1) else (1, Nat.pow b (-e).toNat)

/-- The quotient rounded to the nearest whole number, half to even. -/
def roundDiv (n d : Nat) : Nat :=
  let q := n / d
  let r := n % d
  if d < 2 * r || (2 * r = d && q % 2 = 1) then q + 1 else q

/-- The number of decimal digits of a number. -/
def digitCount (n : Nat) : Nat := (Nat.toDigits 10 n).length

/-- The quotient of two positive numbers, rounded. -/
def ofFraction (negative : Bool) (num den : Nat) : Binary64 :=
  let guess : Int := Int.ofNat num.log2 - Int.ofNat den.log2 - 53
  let scaled (e : Int) : Nat × Nat :=
    let (n, d) := powFraction 2 (-e)
    (num * n, den * d)
  let (n, d) := scaled guess
  let e := if n / d < beyond then guess else guess + 1
  let e := if e < minExponent then minExponent else e
  let (n, d) := scaled e
  let m := roundDiv n d
  let (m, e) := if m = beyond then (leastFull, e + 1) else (m, e)
  if maxExponent < e then .infinity negative else .finite negative m e

/-- `digits · 10 ^ exponent`, rounded. Decimals that are out of range by far are
    settled by their size alone. -/
def ofDecimal (negative : Bool) (digits : Nat) (exponent : Int) : Binary64 :=
  if digits = 0 then .finite negative 0 minExponent
  else
    let size := exponent + digitCount digits
    if 400 < size then .infinity negative
    else if size < -400 then .finite negative 0 minExponent
    else
      let (n, d) := powFraction 10 exponent
      ofFraction negative (digits * n) d

/-! ## Shortest digits -/

/-- The places to shift the point of `n / d` to the right, at most `fuel`, until
    it is at least one. -/
def leadingZeros (n d : Nat) : Nat → Nat
  | 0 => 0
  | fuel + 1 => if n < d then leadingZeros (n * 10) d fuel + 1 else 0

/-- The exponent of the first decimal digit of the positive fraction `n / d`. -/
def leadingExponent (n d : Nat) : Int :=
  if n < d then -(leadingZeros n d 400 : Int) else (digitCount (n / d) : Int) - 1

/-- Whether `c · 10 ^ u` rounds to `m · 2 ^ e`: it lies between the midpoints to
    the neighbours, which count themselves when `m` is even. -/
def readsBack (m : Nat) (e : Int) (c : Nat) (u : Int) : Bool :=
  let (n2, d2) := powFraction 2 (e - 2)
  let (n10, d10) := powFraction 10 u
  let x := c * n10 * d2
  let scale := n2 * d10
  let low := (4 * m - if m = leastFull && e ≠ minExponent then 1 else 2) * scale
  let high := (4 * m + 2) * scale
  if m % 2 = 0 then low ≤ x && x ≤ high else low < x && x < high

/-- The distance between `c · 10 ^ u` and the number, on a common scale. -/
def distance (m : Nat) (e : Int) (c : Nat) (u : Int) : Nat :=
  let (n2, d2) := powFraction 2 e
  let (n10, d10) := powFraction 10 u
  let x := c * n10 * d2
  let y := m * n2 * d10
  if x < y then y - x else x - y

/-- The digits of the first grid, from `k` digits on, with a point that reads
    back: of its two points next to the number the nearer one, and of two
    equally near ones the even one. -/
def shortestFrom (m : Nat) (e lead : Int) : Nat → Nat → Nat × Int
  | 0, _ => (m, e)
  | fuel + 1, k =>
    let u := lead + 1 - k
    let (n2, d2) := powFraction 2 e
    let (n10, d10) := powFraction 10 u
    let c := m * n2 * d10 / (d2 * n10)
    match readsBack m e c u, readsBack m e (c + 1) u with
    | true, false => (c, u)
    | false, true => (c + 1, u)
    | true, true =>
      let below := distance m e c u
      let above := distance m e (c + 1) u
      if below < above || (below = above && c % 2 = 0) then (c, u) else (c + 1, u)
    | false, false => shortestFrom m e lead fuel (k + 1)

/-- The fewest decimal digits that read back as `m · 2 ^ e`, as a number and a
    power of ten. -/
def shortest (m : Nat) (e : Int) : Nat × Int :=
  let (n2, d2) := powFraction 2 e
  shortestFrom m e (leadingExponent (m * n2) d2) 17 1

end Binary64

end Sendability
