import HornReasoner.Number.Binary64

/-! The shortest decimal that reads back as a given floating point number.

Around `m * 2 ^ q` lies the interval of reals that round to it, its ends included iff
`m` is even. For one, two, three digits and so on the two multiples of the matching
power of ten next to the number are tried; the first grid with a multiple inside
wins, of two the nearer, of two equally near the larger. -/
namespace HornReasoner.Shortest
open Binary64 (twoTo tenTo)

/-- A number and the ends of its interval, as multiples of a common unit `2 ^ unit`. -/
structure Interval where
  low : Nat
  mid : Nat
  high : Nat
  unit : Int
  closed : Bool

/-- Below a power of two the neighbour is half as far away as above it. -/
def interval (bits : Nat) : Interval :=
  let (m, q) := Binary64.split bits
  let near := m = twoTo 52 && bits / twoTo 52 > 1
  { low := if near then 4 * m - 1 else 4 * m - 2
    mid := 4 * m
    high := 4 * m + 2
    unit := q - 2
    closed := m % 2 = 0 }

/-- The interval in units of `10 ^ k` over a common divisor: low, mid, high, divisor. -/
def Interval.scale (i : Interval) (k : Int) : Nat × Nat × Nat × Nat :=
  let up := twoTo i.unit.toNat * tenTo (-k).toNat
  (i.low * up, i.mid * up, i.high * up, twoTo (-i.unit).toNat * tenTo k.toNat)

/-- The best multiple of `10 ^ k` in the interval, if there is one. -/
def Interval.multiple? (i : Interval) (k : Int) : Option Nat :=
  let (low, mid, high, d) := i.scale k
  let inside (n : Nat) : Bool :=
    if i.closed then low ≤ n * d && n * d ≤ high else low < n * d && n * d < high
  let below := mid / d
  let above := below + 1
  match inside below && below > 0, inside above with
  | true, true => if mid - below * d < above * d - mid then some below else some above
  | true, false => some below
  | false, true => some above
  | false, false => none

/-- The first grid, from `10 ^ k` downwards, with a multiple in the interval. -/
def Interval.search (i : Interval) : Nat → Int → Nat × Int
  | 0, k => ((i.multiple? k).getD 0, k)
  | steps + 1, k =>
    match i.multiple? k with
    | some n => (n, k)
    | none => search i steps (k - 1)

/-- Digits and exponent of the shortest decimal of a finite number that is not zero.
No number needs more than 17 digits. -/
def decimal (bits : Nat) : Nat × Int :=
  let i := interval bits
  let (_, mid, _, d) := i.scale 0
  let size : Int := (Nat.log2 mid : Int) - (Nat.log2 d : Int)
  let start := if size ≥ 0 then size * 30103 / 100000 + 1 else size * 30103 / 100000 + 2
  i.search 24 start

/-- Digits with the point at its place and no exponent; a whole number has no point. -/
def positional (digits : List Char) (exponent : Int) : List Char :=
  if exponent ≥ 0 then digits ++ List.replicate exponent.toNat '0'
  else
    let places := (-exponent).toNat
    if digits.length > places then
      digits.take (digits.length - places) ++ '.' :: digits.drop (digits.length - places)
    else '0' :: '.' :: (List.replicate (places - digits.length) '0' ++ digits)

/-- The text of the number with these 64 bits. -/
def text (bits : Nat) : String :=
  let magnitude := bits % twoTo 63
  let sign := if bits / twoTo 63 = 1 then "-" else ""
  if magnitude > Binary64.infinity then "NaN"
  else if magnitude = Binary64.infinity then sign ++ "inf"
  else if magnitude = 0 then sign ++ "0"
  else
    let (n, k) := decimal magnitude
    let digits := (Nat.toDigits 10 n).reverse
    let zeros := digits.takeWhile (· = '0')
    sign ++ String.ofList
      (positional (digits.drop zeros.length).reverse (k + zeros.length))

end HornReasoner.Shortest
