/-! Windows of a byte buffer.

Everything the library reads, it reads through `byte?` and `window?`: a read
either lies inside the buffer or gives nothing. `octets` is the view that
statements about buffers use. -/
namespace Cil.Bytes

/-- The bytes of a buffer, in order. -/
def octets (data : ByteArray) : List UInt8 := data.data.toList

/-- The byte at `i`. -/
def byte? (data : ByteArray) (i : Nat) : Option UInt8 :=
  if _h : i < data.size then some data[i] else none

/-- The `count` bytes from `start`, if the buffer holds them all. -/
def window? (data : ByteArray) (start count : Nat) : Option ByteArray :=
  if start + count ≤ data.size then some (data.extract start (start + count)) else none

/-- The place of the first zero byte at or after `i`. -/
def zeroFrom? (data : ByteArray) (i : Nat) : Option Nat :=
  if _h : i < data.size then
    if data[i] = 0 then some i else zeroFrom? data (i + 1)
  else none
termination_by data.size - i

@[simp]
theorem length_octets (data : ByteArray) : (octets data).length = data.size := rfl

@[simp]
theorem octets_append (a b : ByteArray) : octets (a ++ b) = octets a ++ octets b := by
  simp [octets]

theorem byte?_eq (data : ByteArray) (i : Nat) : byte? data i = (octets data)[i]? := by
  unfold byte? octets
  split
  · next h =>
    rw [List.getElem?_eq_getElem h]
    rfl
  · next h =>
    exact (List.getElem?_eq_none (by simpa using Nat.le_of_not_lt h)).symm

theorem byte?_append {a : ByteArray} (b : ByteArray) {i : Nat} {x : UInt8}
    (h : byte? a i = some x) : byte? (a ++ b) i = some x := by
  rw [byte?_eq] at h ⊢
  obtain ⟨hi, _⟩ := List.getElem?_eq_some_iff.1 h
  rw [octets_append, List.getElem?_append_left hi, h]

theorem octets_extract (data : ByteArray) (i j : Nat) :
    octets (data.extract i j) = ((octets data).take j).drop i := by
  simp [octets, List.extract_eq_take_drop, List.drop_take]

theorem window?_eq_some {data : ByteArray} {start count : Nat} {w : ByteArray} :
    window? data start count = some w ↔
      start + count ≤ data.size ∧ data.extract start (start + count) = w := by
  simp [window?]

theorem size_of_window? {data : ByteArray} {start count : Nat} {w : ByteArray}
    (h : window? data start count = some w) : w.size = count := by
  obtain ⟨hle, rfl⟩ := window?_eq_some.1 h
  simp [ByteArray.size_extract]
  omega

end Cil.Bytes
