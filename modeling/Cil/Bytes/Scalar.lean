import Cil.Bytes.Window
import Cil.Bytes.Endian
import Cil.Decimal.Layout

/-! Fixed-width numbers in little-endian bytes.

A `Scalar` is kept as its bits, so that floating-point payloads and signs
survive. What the bits mean is up to the format. -/
namespace Cil

open Bytes Text

namespace Scalar

inductive Format where
  | uint8 | int8 | uint16 | int16 | uint32 | int32 | uint64 | int64 | float32 | float64
  deriving DecidableEq, Repr

namespace Format

/-- Bytes taken. -/
def width : Format → Nat
  | uint8 | int8 => 1
  | uint16 | int16 => 2
  | uint32 | int32 | float32 => 4
  | uint64 | int64 | float64 => 8

/-- What a number of this format is. -/
inductive Reading where
  | unsigned
  | signed
  | float (format : Decimal.Format)

def reading : Format → Reading
  | uint8 | uint16 | uint32 | uint64 => .unsigned
  | int8 | int16 | int32 | int64 => .signed
  | float32 => .float Decimal.single
  | float64 => .float Decimal.double

end Format
end Scalar

structure Scalar where
  format : Scalar.Format
  bits : BitVec (8 * format.width)
  deriving DecidableEq

namespace Scalar

/-- The number with these bytes. -/
def ofBytes (f : Format) (bytes : List UInt8) : Scalar := ⟨f, BitVec.ofNat _ (ofLE bytes)⟩

/-- The bytes of the number. -/
def toBytes (s : Scalar) : List UInt8 := toLE s.format.width s.bits.toNat

/-- The value of an integer; floating-point bits are not one. -/
def toInt? (s : Scalar) : Option Int :=
  match s.format.reading with
  | .unsigned => some s.bits.toNat
  | .signed => some s.bits.toInt
  | .float _ => none

/-- The number as it is written: decimal, and the shortest one for a float. -/
def text (s : Scalar) : String :=
  match s.format.reading with
  | .unsigned => toString s.bits.toNat
  | .signed => toString s.bits.toInt
  | .float f => (Decimal.Value.ofBits f s.bits.toNat).text Decimal.operandStyle

/-- The bits in hexadecimal, at full width. -/
def hex (s : Scalar) : String := upperHex (2 * s.format.width) s.bits.toNat

@[simp]
theorem length_toBytes (s : Scalar) : s.toBytes.length = s.format.width := by
  simp [toBytes]

theorem toNat_ofBytes (f : Format) (bytes : List UInt8) :
    (ofBytes f bytes).bits.toNat = ofLE bytes % capacity f.width := by
  cases f <;> exact BitVec.toNat_ofNat ..

theorem toNat_lt (s : Scalar) : s.bits.toNat < capacity s.format.width := by
  obtain ⟨f, bits⟩ := s
  cases f <;> exact bits.isLt

theorem toBytes_ofBytes (f : Format) {bytes : List UInt8} (h : bytes.length = f.width) :
    (ofBytes f bytes).toBytes = bytes := by
  have hlt := ofLE_lt bytes
  rw [h] at hlt
  show toLE f.width (ofBytes f bytes).bits.toNat = bytes
  rw [toNat_ofBytes, Nat.mod_eq_of_lt hlt, ← h, toLE_ofLE]

theorem ofBytes_toBytes (s : Scalar) : ofBytes s.format s.toBytes = s := by
  have hlt := s.toNat_lt
  have hbits := toNat_ofBytes s.format s.toBytes
  obtain ⟨f, bits⟩ := s
  rw [toBytes, ofLE_toLE, Nat.mod_mod, Nat.mod_eq_of_lt hlt] at hbits
  rw [ofBytes] at hbits ⊢
  congr 1
  exact BitVec.eq_of_toNat_eq hbits

end Scalar
end Cil
