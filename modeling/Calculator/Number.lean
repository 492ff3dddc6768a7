/-!
# Numbers

A number is a double. Its magnitude is known by its rank among all magnitudes: rank 0 is
zero, the next ranks are the multiples of 2^-1074 in order, and the last one is infinity.
The rank is also the value of the 63 low bits of the interchange format.

Of the NaNs it matters only whether they are quiet. A signalling NaN makes the result of any
operation a quiet one, also where a quiet NaN has no influence, as in a power with exponent
zero. It comes only from outside: no operation gives one (`onFloats_ne_signallingNan`).

Powers in definitions are `Nat.pow`, which is the same whatever else is imported; `2 ^ n` is not.
-/

namespace Calculator

def infinityRank : Nat := 0x7FF * Nat.pow 2 52

/-- The least magnitude above zero is two to the power of minus this. -/
@[irreducible] def binaryPlaces : Nat := 1074

def unitsPerOne : Nat := Nat.pow 2 binaryPlaces

theorem unitsPerOne_pos : 0 < unitsPerOne := Nat.two_pow_pos binaryPlaces

structure Magnitude where
  rank : Nat
  rank_le : rank ≤ infinityRank
  deriving DecidableEq, Repr

namespace Magnitude

def ofRank (rank : Nat) : Magnitude := ⟨min rank infinityRank, Nat.min_le_right ..⟩

def zero : Magnitude := ofRank 0

def infinity : Magnitude := ofRank infinityRank

@[simp] theorem ofRank_rank (m : Magnitude) : ofRank m.rank = m := by
  cases m with
  | mk rank h => simp [ofRank, Nat.min_eq_left h]

theorem ofRank_eq {rank : Nat} {m : Magnitude} (h : rank = m.rank) : ofRank rank = m := by
  rw [h, ofRank_rank]

/-- The exact value of a finite magnitude, as a multiple of the least one above zero. -/
def units (m : Magnitude) : Nat :=
  let exponent := m.rank / Nat.pow 2 52
  let fraction := m.rank % Nat.pow 2 52
  if exponent = 0 then fraction else (Nat.pow 2 52 + fraction) * Nat.pow 2 (exponent - 1)

end Magnitude

inductive Number where
  | nan
  | signallingNan
  | signed (negative : Bool) (magnitude : Magnitude)
  deriving DecidableEq, Repr

namespace Number

def isNan : Number → Bool
  | nan | signallingNan => true
  | signed .. => false

def negate : Number → Number
  | nan => nan
  | signallingNan => signallingNan
  | signed negative magnitude => signed (!negative) magnitude

@[simp] theorem negate_negate (x : Number) : x.negate.negate = x := by
  cases x <;> simp [negate]

/-- Reads the interchange format. A NaN is quiet if the first bit of its fraction is set. -/
def ofBits (bits : UInt64) : Number :=
  let rank := bits.toNat % Nat.pow 2 63
  if h : rank ≤ infinityRank then signed (Nat.pow 2 63 ≤ bits.toNat) ⟨rank, h⟩
  else if infinityRank + Nat.pow 2 51 ≤ rank then nan
  else signallingNan

def toBits : Number → UInt64
  | nan => 0x7FF8000000000000
  | signallingNan => 0x7FF0000000000001
  | signed negative magnitude =>
    UInt64.ofNat (magnitude.rank + if negative then Nat.pow 2 63 else 0)

def toFloat (x : Number) : Float := Float.ofBits x.toBits

def ofFloat (x : Float) : Number := ofBits x.toBits

def quieted : Number → Number
  | signallingNan => nan
  | x => x

def onFloats (f : Float → Float → Float) (x y : Number) : Number :=
  if x = signallingNan ∨ y = signallingNan then nan else (ofFloat (f x.toFloat y.toFloat)).quieted

theorem quieted_ne_signallingNan (x : Number) : x.quieted ≠ signallingNan := by
  cases x <;> simp [quieted]

theorem onFloats_ne_signallingNan (f : Float → Float → Float) (x y : Number) :
    onFloats f x y ≠ signallingNan := by
  unfold onFloats
  split
  · simp
  · exact quieted_ne_signallingNan _

end Number

end Calculator
