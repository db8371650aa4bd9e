/-!
# Double-precision numbers

A `Double` is a 64-bit floating-point number given by its bit pattern, so that equality of doubles
is equality of patterns: the two zeros differ, and so do two NaNs with different payloads. The
arithmetic, where zeros are equal and a NaN equals nothing, is that of `Float`.
-/

namespace Bytescript

structure Double where
  bits : UInt64
deriving DecidableEq, Hashable, Repr

namespace Double

variable (x a b : Double)

def toFloat : Float := .ofBits x.bits

def ofFloat (x : Float) : Double := ⟨x.toBits⟩

instance : Inhabited Double := ⟨⟨0⟩⟩

/-! ## The parts of a pattern -/

def isNegative : Bool := x.bits >>> 63 != 0

/-- The eleven exponent bits; all ones for the infinities and the NaNs. -/
def exponentBits : Nat := ((x.bits >>> 52) &&& 0x7ff).toNat

def fractionBits : Nat := (x.bits &&& 0xfffffffffffff).toNat

def isNaN : Bool := x.exponentBits == 0x7ff && x.fractionBits != 0

def isInfinite : Bool := x.exponentBits == 0x7ff && x.fractionBits == 0

def isZero : Bool := x.exponentBits == 0 && x.fractionBits == 0

/-- The magnitude of a finite double is `significand * 2 ^ scale` in units of `2 ^ (-1074)`. -/
def significand : Nat :=
  if x.exponentBits = 0 then x.fractionBits else x.fractionBits + 1 <<< 52

@[inherit_doc significand]
def scale : Nat := x.exponentBits - 1

/-- The magnitude of a finite double, counted in units of `2 ^ (-1074)`. -/
def units : Nat := x.significand <<< x.scale

def nan : Double := ⟨0x7ff8000000000000⟩

/-- The double with the given sign whose magnitude is `n` units of `2 ^ (-1074)`, provided that `n`
has at most 53 significant bits. -/
def ofUnits (negative : Bool) (n : Nat) : Double :=
  let sign : UInt64 := if negative then 0x8000000000000000 else 0
  if n < 1 <<< 53 then
    ⟨sign ||| n.toUInt64⟩
  else
    let shift := n.log2 - 52
    ⟨sign ||| ((shift <<< 52 + n >>> shift).toUInt64)⟩

/-! ## Arithmetic -/

def add : Double := ofFloat (a.toFloat + b.toFloat)

def sub : Double := ofFloat (a.toFloat - b.toFloat)

def mul : Double := ofFloat (a.toFloat * b.toFloat)

def div : Double := ofFloat (a.toFloat / b.toFloat)

/-- The remainder of a division that rounds toward zero: exact, with the sign of the dividend. -/
def rem : Double :=
  if a.isNaN || b.isNaN || a.isInfinite || b.isZero then nan
  else if b.isInfinite then a
  else ofUnits a.isNegative (a.units % b.units)

/-- The other sign, also of a NaN. -/
def neg (a : Double) : Double := ⟨a.bits ^^^ 0x8000000000000000⟩

/-- Equality of numbers, under which `0.0` equals `-0.0` and a NaN equals nothing. -/
def equal : Bool := a.toFloat == b.toFloat

def less : Bool := a.toFloat < b.toFloat

def lessEqual : Bool := a.toFloat ≤ b.toFloat

/-- The nearest double, with ties to even. -/
def ofInt (n : Int64) : Double := ofFloat n.toFloat

/-- The fraction is dropped; what lies outside the 64-bit range goes to its nearer end, and a NaN
to zero. -/
def toInt (a : Double) : Int64 := a.toFloat.toInt64

/-- The double nearest to `m * 10 ^ e`, or `none` if that is beyond the largest one. -/
def ofDecimal? (negative : Bool) (m : Nat) (e : Int) : Option Double :=
  let width := (Nat.toDigits 10 m).length
  if m = 0 then some ⟨if negative then 0x8000000000000000 else 0⟩
  else if e + width > 400 then none
  else if e + width < -400 then some ⟨if negative then 0x8000000000000000 else 0⟩
  else
    let x := ofFloat (.ofScientific m (e < 0) e.natAbs)
    if x.isInfinite then none
    else some (if negative then ⟨x.bits ||| 0x8000000000000000⟩ else x)

end Double

end Bytescript
