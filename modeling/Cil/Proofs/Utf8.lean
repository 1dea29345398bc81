import Cil.Proofs.Fetch

/-! Text through its bytes.

The bytes of a text are those of its characters, one behind the other
(`octets_toUTF8`). A character below `0x80` is a byte of its own, and no byte of any
other character is that low, so such a character stands in a text exactly when its
byte stands among the bytes (`mem_octets_toUTF8`). -/
namespace Cil.Text.Utf8

open Bytes

theorem octets_toUTF8 (s : String) : octets s.toUTF8 = s.toList.flatMap String.utf8EncodeChar := by
  have hbytes : s.toByteArray = s.toList.utf8Encode := by
    rw [← String.toByteArray_ofList, String.ofList_toList]
  rw [String.toUTF8_eq_toByteArray, hbytes]
  exact octets_toByteArray _

theorem utf8EncodeChar_of_lt {c : Char} (h : c.toNat < 0x80) :
    String.utf8EncodeChar c = [UInt8.ofNat c.toNat] :=
  if_pos (Nat.le_of_lt_succ h)

/-- A character that is not below `0x80` has no byte below it. -/
theorem le_of_mem_utf8EncodeChar {c : Char} (h : 0x80 ≤ c.toNat) :
    ∀ b ∈ String.utf8EncodeChar c, 0x80 ≤ b.toNat := by
  have hhigh : ∀ n, 0x80 ≤ n % 256 → 0x80 ≤ (UInt8.ofNat n).toNat := by
    intro n hn
    rwa [UInt8.toNat_ofNat']
  unfold String.utf8EncodeChar
  simp only
  rw [if_neg (by show ¬c.toNat ≤ 0x7F; omega)]
  intro b hb
  split at hb
  · simp only [List.mem_cons, List.not_mem_nil, or_false] at hb
    rcases hb with rfl | rfl <;> exact hhigh _ (by omega)
  · split at hb
    · simp only [List.mem_cons, List.not_mem_nil, or_false] at hb
      rcases hb with rfl | rfl | rfl <;> exact hhigh _ (by omega)
    · simp only [List.mem_cons, List.not_mem_nil, or_false] at hb
      rcases hb with rfl | rfl | rfl | rfl <;> exact hhigh _ (by omega)

theorem mem_utf8EncodeChar {b : UInt8} (hb : b.toNat < 0x80) {c : Char} :
    b ∈ String.utf8EncodeChar c ↔ c.toNat = b.toNat := by
  by_cases hc : c.toNat < 0x80
  · rw [utf8EncodeChar_of_lt hc, List.mem_singleton, ← UInt8.toNat_inj, UInt8.toNat_ofNat',
      Nat.mod_eq_of_lt (by omega)]
    exact eq_comm
  · have hhigh := le_of_mem_utf8EncodeChar (Nat.le_of_not_lt hc) b
    constructor
    · intro hmem
      have := hhigh hmem
      omega
    · intro heq
      omega

/-- A character below `0x80` stands in a text exactly when its byte stands among the bytes. -/
theorem mem_octets_toUTF8 {b : UInt8} {c : Char} (hc : c.toNat = b.toNat) (hb : b.toNat < 0x80)
    {s : String} : b ∈ octets s.toUTF8 ↔ c ∈ s.toList := by
  rw [octets_toUTF8, List.mem_flatMap]
  constructor
  · rintro ⟨d, hd, hmem⟩
    have hsame : d.toNat = c.toNat := ((mem_utf8EncodeChar hb).1 hmem).trans hc.symm
    rwa [← Char.toNat_inj.1 hsame]
  · intro hmem
    exact ⟨c, hmem, (mem_utf8EncodeChar hb).2 hc⟩

end Cil.Text.Utf8
