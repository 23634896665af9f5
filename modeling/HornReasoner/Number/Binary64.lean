/-! Rounding to binary floating point with 53 significant bits.

A positive ratio is rounded to the nearest representable number, a tie to the even
one, and the result is given by its 64 bits; a number is taken apart again into an
integer times a power of two. All of it is integer arithmetic. -/
namespace HornReasoner.Binary64

/-- `2 ^ n`. -/
def twoTo (n : Nat) : Nat := Nat.pow 2 n

/-- `10 ^ n`. -/
def tenTo (n : Nat) : Nat := Nat.pow 10 n

/-- The bits of infinity; larger ones are no numbers. -/
def infinity : Nat := 0x7FF0000000000000

/-- `num / den` in units of `2 ^ e`: the whole units, the remainder and its divisor. -/
def units (num den : Nat) (e : Int) : Nat × Nat × Nat :=
  let n := num * twoTo (-e).toNat
  let d := den * twoTo e.toNat
  (n / d, n % d, d)

/-- The bits of the number nearest to `num / den`. The unit is the power of two that
leaves 53 bits, but none is smaller than `2 ^ -1074`. -/
def ofRatio (num den : Nat) : Nat :=
  if num = 0 then 0 else
    let guess : Int := (Nat.log2 num : Int) - (Nat.log2 den : Int) - 52
    let exact := if (units num den guess).1 < twoTo 52 then guess - 1 else guess
    let e := max exact (-1074)
    let (q, r, d) := units num den e
    let rounded := if 2 * r > d ∨ (2 * r = d ∧ q % 2 = 1) then q + 1 else q
    min ((e + 1074).toNat * twoTo 52 + rounded) infinity

/-- The bits of the number nearest to `digits * 10 ^ exponent`. A power of ten that is
certainly out of range is not computed. -/
def ofDecimal (digits : Nat) (exponent : Int) : Nat :=
  let size : Int := (Nat.toDigits 10 digits).length + exponent
  if digits = 0 ∨ size < -330 then 0
  else if size > 330 then infinity
  else ofRatio (digits * tenTo exponent.toNat) (tenTo (-exponent).toNat)

/-- The integer and the exponent of two whose product a finite number is. -/
def split (bits : Nat) : Nat × Int :=
  let exponent : Nat := bits / twoTo 52
  let fraction : Nat := bits % twoTo 52
  if exponent = 0 then (fraction, -1074) else (fraction + twoTo 52, (exponent : Int) - 1075)

/-! ### Order -/

/-- The place of a number in order, both zeros at nought; a NaN has none. Bits without
the sign grow with the number. -/
def place? (bits : Nat) : Option Int :=
  let magnitude := bits % twoTo 63
  if magnitude > infinity then none
  else some (if bits / twoTo 63 = 1 then -(magnitude : Int) else magnitude)

/-- Two numbers are in a relation of their places; a NaN is in none. -/
def related (holds : Int → Int → Bool) (x y : Nat) : Bool :=
  match place? x, place? y with
  | some i, some j => holds i j
  | _, _ => false

def less (x y : Nat) : Bool := related (fun i j => i < j) x y

def lessOrEqual (x y : Nat) : Bool := related (fun i j => i ≤ j) x y

def equal (x y : Nat) : Bool := related (fun i j => i = j) x y

end HornReasoner.Binary64
