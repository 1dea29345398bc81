import Cil.Text.Utf16

/-! Text through its units and their bytes.

A character has one unit that is no surrogate, or a high and a low one, so the units
of a text tell where each character ends and decode to it (`decode?_encode`). Bytes
give back the units they were made of, with or without an odd byte behind them
(`ofBytes_toBytes_append`). -/
namespace Cil.Text.Utf16

/-! ### Units -/

theorem isHigh_iff {u : UInt16} : isHigh u = true ↔ 0xD800 ≤ u.toNat ∧ u.toNat < 0xDC00 := by
  simp [isHigh]

theorem isLow_iff {u : UInt16} : isLow u = true ↔ 0xDC00 ≤ u.toNat ∧ u.toNat < 0xE000 := by
  simp [isLow]

theorem exists_unit {n : Nat} (h : n < 0x10000) : ∃ u : UInt16, UInt16.ofNat n = u ∧ u.toNat = n :=
  ⟨_, rfl, UInt16.toNat_ofNat_of_lt' h⟩

/-- A character is one unit that is no surrogate, or a pair of surrogates that stands for it. -/
theorem units_eq (c : Char) :
    (∃ u, units c = [u] ∧ ¬isHigh u ∧ ¬isLow u ∧ Char.ofNat u.toNat = c) ∨
      ∃ u v, units c = [u, v] ∧ isHigh u ∧ isLow v ∧ pair u v = c := by
  have hvalid : c.toNat < 0xD800 ∨ 0xDFFF < c.toNat ∧ c.toNat < 0x110000 := c.valid
  by_cases hplane : c.toNat < 0x10000
  · obtain ⟨u, heq, hu⟩ := exists_unit hplane
    refine .inl ⟨u, ?_, ?_, ?_, ?_⟩
    · rw [units, if_pos hplane, heq]
    · rw [isHigh_iff]
      omega
    · rw [isLow_iff]
      omega
    · rw [hu, Char.ofNat_toNat]
  -- each unit of a pair carries ten of the twenty bits that are left
  · obtain ⟨u, hequ, hu⟩ := exists_unit (n := 0xD800 + (c.toNat - 0x10000) / 0x400) (by omega)
    obtain ⟨v, heqv, hv⟩ := exists_unit (n := 0xDC00 + (c.toNat - 0x10000) % 0x400) (by omega)
    refine .inr ⟨u, v, ?_, ?_, ?_, ?_⟩
    · rw [units, if_neg hplane, hequ, heqv]
    · rw [isHigh_iff]
      omega
    · rw [isLow_iff]
      omega
    · have hnumber : 0x10000 + (u.toNat - 0xD800) * 0x400 + (v.toNat - 0xDC00) = c.toNat := by omega
      rw [pair, hnumber, Char.ofNat_toNat]

/-- The units of a character in front of others decode to that character in front. -/
theorem chars?_units (c : Char) (rest : List UInt16) :
    chars? (units c ++ rest) = (chars? rest).map (c :: ·) := by
  rcases units_eq c with ⟨u, hunits, hhigh, hlow, hc⟩ | ⟨u, v, hunits, hhigh, hlow, hc⟩
  · rw [hunits, List.singleton_append, chars?.eq_def]
    simp only [hhigh, hlow, hc, if_false, Bool.false_eq_true]
  · rw [hunits, List.cons_append, List.singleton_append, chars?, if_pos hhigh, if_pos hlow, hc]

theorem chars?_flatMap_units (cs : List Char) : chars? (cs.flatMap units) = some cs := by
  induction cs with
  | nil => rfl
  | cons c rest ih => rw [List.flatMap_cons, chars?_units, ih, Option.map_some]

theorem decode?_encode (s : String) : decode? (encode s) = some s := by
  rw [decode?, encode, chars?_flatMap_units, Option.map_some, String.ofList_toList]

/-! ### Bytes -/

theorem toBytes_cons (u : UInt16) (us : List UInt16) :
    toBytes (u :: us) = UInt8.ofNat u.toNat :: UInt8.ofNat (u.toNat / 256) :: toBytes us := rfl

theorem length_toBytes (us : List UInt16) : (toBytes us).length = 2 * us.length := by
  induction us with
  | nil => rfl
  | cons u rest ih =>
    rw [toBytes_cons, List.length_cons, List.length_cons, List.length_cons, ih]
    omega

/-- An odd byte at the end is no part of the text. -/
theorem ofBytes_toBytes_append (us : List UInt16) (odd : UInt8) : ofBytes (toBytes us ++ [odd]) = us := by
  induction us with
  | nil => rfl
  | cons u rest ih =>
    have hlt : u.toNat < 65536 := u.toNat_lt
    have hunit : UInt16.ofNat ((UInt8.ofNat u.toNat).toNat + 256 * (UInt8.ofNat (u.toNat / 256)).toNat) = u := by
      have hvalue : (UInt8.ofNat u.toNat).toNat + 256 * (UInt8.ofNat (u.toNat / 256)).toNat = u.toNat := by
        rw [UInt8.toNat_ofNat', UInt8.toNat_ofNat']
        omega
      rw [hvalue, UInt16.ofNat_toNat]
    rw [toBytes_cons, List.cons_append, List.cons_append, ofBytes, hunit, ih]

end Cil.Text.Utf16
