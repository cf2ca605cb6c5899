/-!
Decimals and the doubles nearest to them. A double that is neither negative nor a NaN has the bits
`k * 2^52 + m` for the value `m * 2^k / 2^1074`; so rounding a ratio to a double is choosing the
least `k` for which the mantissa fits and rounding once. All arithmetic is on natural numbers; signs
are put on afterwards. Powers are those of `Nat.pow` by name, so that they are the same whatever
else is imported.
-/

namespace Abacus

structure Decimal where
  digits : Nat
  exponent : Int
deriving DecidableEq, Repr

namespace Decimal

def bitLength (n : Nat) : Nat :=
  if n = 0 then 0 else n.log2 + 1

def roundHalfEven (num den : Nat) : Nat :=
  let below := num / den
  let twice := 2 * (num % den)
  if twice < den then below
  else if den < twice then below + 1
  else below + below % 2

/-- The least positive double is `1 / unitsInOne`. -/
def unitsInOne : Nat := Nat.pow 2 1074

def infinityBits : Nat := 2047 * Nat.pow 2 52

def nearestBits (num den : Nat) : Nat :=
  let scaled := num * unitsInOne
  let k := bitLength (scaled / (den * Nat.pow 2 53))
  min infinityBits (k * Nat.pow 2 52 + roundHalfEven scaled (den * Nat.pow 2 k))

/-- The bits of the double nearest to a decimal. Powers of ten that leave the range of the doubles,
whatever the digits, are not computed. -/
def toBits (d : Decimal) : Nat :=
  if d.digits = 0 then 0
  else if 400 < d.exponent then infinityBits
  else if d.exponent < -(400 + bitLength d.digits) then 0
  else if 0 ≤ d.exponent then nearestBits (d.digits * Nat.pow 10 d.exponent.toNat) 1
  else nearestBits d.digits (Nat.pow 10 (-d.exponent).toNat)

def toFloat (d : Decimal) : Float :=
  Float.ofBits (UInt64.ofNat d.toBits)

def isNegative (x : Float) : Bool :=
  Nat.pow 2 63 ≤ x.toBits.toNat

def magnitude (x : Float) : Nat :=
  x.toBits.toNat % Nat.pow 2 63

def isFinite (x : Float) : Bool :=
  magnitude x < infinityBits

/-- A finite magnitude with these bits is this number of units of `2^-1074`. -/
def units (bits : Nat) : Nat :=
  if bits < Nat.pow 2 52 then bits
  else (bits % Nat.pow 2 52 + Nat.pow 2 52) * Nat.pow 2 (bits / Nat.pow 2 52 - 1)

def valueOfDigits (cs : List Char) : Nat :=
  cs.foldl (fun n c => 10 * n + (c.toNat - '0'.toNat)) 0

def ofDigits (whole fraction : List Char) : Decimal :=
  ⟨valueOfDigits (whole ++ fraction), -fraction.length⟩

end Decimal

end Abacus
