/-! Naturals as bytes of a fixed width, in both byte orders.

Writing keeps a number modulo `capacity width`; reading back gives exactly those
(`ofLE_toLE`), and every list of bytes is the writing of what it reads as
(`toLE_ofLE`). -/
namespace Cil.Bytes

/-- How many numbers fit into `width` bytes. -/
def capacity : (width : Nat) → Nat
  | 0 => 1
  | width + 1 => 256 * capacity width

/-- The natural whose bytes these are, least significant first. -/
def ofLE : List UInt8 → Nat
  | [] => 0
  | b :: rest => b.toNat + 256 * ofLE rest

/-- The `width` low bytes of `n`, least significant first. -/
def toLE : (width : Nat) → Nat → List UInt8
  | 0, _ => []
  | width + 1, n => UInt8.ofNat n :: toLE width (n / 256)

/-- The natural whose bytes these are, most significant first. -/
def ofBE (bytes : List UInt8) : Nat := ofLE bytes.reverse

/-- The `width` low bytes of `n`, most significant first. -/
def toBE (width n : Nat) : List UInt8 := (toLE width n).reverse

@[simp]
theorem length_toLE (width n : Nat) : (toLE width n).length = width := by
  induction width generalizing n with
  | zero => rfl
  | succ width ih => simp [toLE, ih]

theorem ofLE_toLE (width n : Nat) : ofLE (toLE width n) = n % capacity width := by
  induction width generalizing n with
  | zero => simp [toLE, ofLE, capacity, Nat.mod_one]
  | succ width ih =>
    rw [toLE, ofLE, ih, capacity, Nat.mod_mul]
    simp

theorem ofLE_lt (bytes : List UInt8) : ofLE bytes < capacity bytes.length := by
  induction bytes with
  | nil => simp [ofLE, capacity]
  | cons b rest ih =>
    have hb : b.toNat < 256 := b.toNat_lt
    rw [ofLE, List.length_cons, capacity]
    omega

theorem toLE_ofLE (bytes : List UInt8) : toLE bytes.length (ofLE bytes) = bytes := by
  induction bytes with
  | nil => rfl
  | cons b rest ih =>
    have hb : b.toNat < 256 := b.toNat_lt
    rw [List.length_cons, toLE, ofLE]
    have hdiv : (b.toNat + 256 * ofLE rest) / 256 = ofLE rest := by omega
    rw [hdiv, ih]
    congr 1
    apply UInt8.toNat_inj.1
    simp

@[simp]
theorem length_toBE (width n : Nat) : (toBE width n).length = width := by
  simp [toBE]

theorem ofBE_toBE (width n : Nat) : ofBE (toBE width n) = n % capacity width := by
  simp [ofBE, toBE, ofLE_toLE]

theorem toBE_ofBE (bytes : List UInt8) : toBE bytes.length (ofBE bytes) = bytes := by
  have h := toLE_ofLE bytes.reverse
  rw [List.length_reverse] at h
  simp [toBE, ofBE, h]

end Cil.Bytes
