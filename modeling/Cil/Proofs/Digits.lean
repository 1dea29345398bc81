import Cil.Text.Digits
import Cil.Text.Numeral

/-! Digits tell their number.

Digits read back as the number that they were written for, in whatever base and
spelling (`digits_toDigits`): hexadecimal text in either case and however many zeros
fill it up (`digits_hexDigits`), and decimal text as it is given for a number
(`parse_toString`). So two numbers with the same text are the same number. -/
namespace Cil.Text

namespace Numeral

theorem digits_append (base n : Nat) (front rest : List Char) :
    digits base n (front ++ rest) =
      match digits base n front with
      | .ok m => digits base m rest
      | .error fault => .error fault := by
  induction front generalizing n with
  | nil => rfl
  | cons c front ih =>
    rw [List.cons_append, digits, digits]
    split
    · rfl
    · split
      · exact ih _
      · rfl

theorem digits_singleton {base n d : Nat} {c : Char} (hc : digit? base c = some d)
    (hbound : base * n + d < bound) : digits base n [c] = .ok (base * n + d) := by
  rw [digits, hc]
  simp only [if_pos hbound, digits]

/-- Zeros in front change nothing. -/
theorem digits_replicate {c : Char} (hc : digit? 16 c = some 0) (count : Nat) :
    digits 16 0 (List.replicate count c) = .ok 0 := by
  induction count with
  | zero => rfl
  | succ count ih =>
    rw [List.replicate_succ', digits_append, ih]
    exact digits_singleton hc (by decide)

theorem digits_toDigits {base : Nat} (hbase : 1 < base) (spell : Char → Char)
    (hspell : ∀ d < base, digit? base (spell d.digitChar) = some d) {n : Nat} (h : n < bound) :
    digits base 0 ((Nat.toDigits base n).map spell) = .ok n := by
  induction n using Nat.strongRecOn with
  | ind n ih =>
    by_cases hone : n < base
    · rw [Nat.toDigits_of_lt_base hone, List.map_singleton, digits_singleton (hspell n hone) (by omega)]
      simp
    · -- the last digit stands behind those of the number without it
      have hlast := hspell (n % base) (Nat.mod_lt _ (by omega))
      have hparts : base * (n / base) + n % base = n := Nat.div_add_mod n base
      have hfewer : n / base < n := Nat.div_lt_self (by omega) hbase
      rw [Nat.toDigits_of_base_le hbase (by omega), List.map_append, digits_append,
        ih (n / base) hfewer (by omega)]
      show digits base (n / base) [spell (n % base).digitChar] = .ok n
      rw [digits_singleton hlast (by omega), hparts]

section
variable (spell : Char → Char) (hspell : ∀ d < 16, digit? 16 (spell d.digitChar) = some d)
include hspell

theorem digits_hexDigits (width : Nat) {n : Nat} (h : n < bound) :
    digits 16 0 ((hexDigits width n).map spell) = .ok n := by
  have hzero : digit? 16 (spell '0') = some 0 := hspell 0 (by decide)
  rw [hexDigits, List.map_append, List.map_replicate, digits_append, digits_replicate hzero]
  exact digits_toDigits (by decide) spell hspell h

/-- Numbers with the same digits are the same. -/
theorem hexDigits_inj {width m n : Nat} (hm : m < bound) (hn : n < bound)
    (h : (hexDigits width m).map spell = (hexDigits width n).map spell) : m = n := by
  have hread := digits_hexDigits spell hspell width hm
  rw [h, digits_hexDigits spell hspell width hn] at hread
  exact (Except.ok.inj hread).symm

end

/-! ### Characters that are digits -/

theorem digit?_digitChar : ∀ d < 16, digit? 16 d.digitChar = some d := by
  decide

theorem digit?_toUpper : ∀ d < 16, digit? 16 d.digitChar.toUpper = some d := by
  decide

/-- The character is the digit of this value, in one of its two cases. -/
def IsDigit (c : Char) (d : Nat) : Prop := c = d.digitChar ∨ c = d.digitChar.toUpper

instance (c : Char) (d : Nat) : Decidable (IsDigit c d) := inferInstanceAs (Decidable (_ ∨ _))

/-- A base takes those hexadecimal digits that are below it. -/
theorem digit?_of_base (base : Nat) (c : Char) (d : Nat) :
    digit? base c = some d ↔ d < base ∧ digit? 16 c = some d := by
  simp only [digit?]
  grind

theorem isDigit_of_digit? {c : Char} {d : Nat} (h : digit? 16 c = some d) : IsDigit c d := by
  have hlow : c.toNat < 0x67 := by
    simp only [digit?] at h
    grind
  have hsmall : ∀ n < 0x67, ∀ d < 16, digit? 16 (Char.ofNat n) = some d → IsDigit (Char.ofNat n) d := by decide
  have hd : d < 16 := ((digit?_of_base 16 c d).1 h).1
  rw [← Char.ofNat_toNat c] at h ⊢
  exact hsmall c.toNat hlow d hd h

/-- Exactly the digits of a base have a value in it. -/
theorem digit?_eq_some {base : Nat} (hbase : base ≤ 16) {c : Char} {d : Nat} :
    digit? base c = some d ↔ d < base ∧ IsDigit c d := by
  rw [digit?_of_base]
  refine and_congr_right fun hd => ⟨isDigit_of_digit?, fun h => ?_⟩
  have hsixteen : d < 16 := by omega
  cases h with
  | inl hlower => rw [hlower, digit?_digitChar d hsixteen]
  | inr hupper => rw [hupper, digit?_toUpper d hsixteen]

/-! ### Decimal text -/

theorem digit?_ten : ∀ d < 10, digit? 10 d.digitChar = some d := by
  decide

/-- Decimal digits are read as they stand: none of them is a sign or marks a base. -/
theorem parse_of_isDigit {text : String} (hne : text.toList ≠ []) (h : ∀ c ∈ text.toList, c.isDigit = true) :
    parse text = digits 10 0 text.toList := by
  have hx : 'x'.isDigit = false := by decide
  have hX : 'X'.isDigit = false := by decide
  have hplus : '+'.isDigit = false := by decide
  unfold parse
  split
  · next hcs => simp [hcs, hx] at h
  · next hcs => simp [hcs, hX] at h
  · unfold signed
    split
    · next hcs => exact absurd hcs hne
    · next hcs => simp [hcs, hplus] at h
    · next hcs => simp [hcs, hplus] at h
    · rfl

theorem parse_toString {n : Nat} (h : n < bound) : parse (toString n) = .ok n := by
  have htext : (toString n).toList = Nat.toDigits 10 n := by
    rw [Nat.toString_eq_repr, Nat.repr_eq_ofList_toDigits, String.toList_ofList]
  rw [parse_of_isDigit, htext]
  · have hread := digits_toDigits (by decide) id digit?_ten h
    rwa [List.map_id] at hread
  · rw [htext]
    exact Nat.toDigits_ne_nil
  · rw [htext]
    exact fun c => Nat.isDigit_of_mem_toDigits (by decide) (by decide)

end Numeral

open Numeral

theorem lowerHex_inj {width m n : Nat} (hm : m < bound) (hn : n < bound)
    (h : lowerHex width m = lowerHex width n) : m = n :=
  hexDigits_inj id digit?_digitChar hm hn (congrArg (List.map id) (String.ofList_injective h))

theorem upperHex_inj {width m n : Nat} (hm : m < bound) (hn : n < bound)
    (h : upperHex width m = upperHex width n) : m = n :=
  hexDigits_inj Char.toUpper digit?_toUpper hm hn (String.ofList_injective h)

theorem decimal_inj {m n : Nat} (h : toString m = toString n) : m = n := by
  rw [Nat.toString_eq_ofList_toDigits, Nat.toString_eq_ofList_toDigits] at h
  have hread := congrArg (Nat.ofDigitChars 10 · 0) (String.ofList_injective h)
  simpa only [Nat.ofDigitChars_ten_toDigits] using hread

/-- A sign is no digit. -/
theorem decimal_ne_signed (n : Nat) (text : String) : toString n ≠ "-" ++ text := by
  intro h
  have hsign : '-' ∈ Nat.toDigits 10 n := by
    have hchars := congrArg String.toList h
    rw [Nat.toString_eq_ofList_toDigits, String.toList_ofList, String.toList_append] at hchars
    rw [hchars]
    exact List.mem_append_left _ (List.mem_singleton.2 rfl)
  exact absurd (Nat.isDigit_of_mem_toDigits (by decide) (by decide) hsign) (by decide)

/-- Signed numbers with the same decimal text have the same sign and the same digits. -/
theorem signedDecimal_inj {a b : Int} (h : toString a = toString b) : a = b := by
  rw [Int.toString_eq_repr, Int.toString_eq_repr, Int.repr_eq_if, Int.repr_eq_if] at h
  split at h <;> split at h
  · have hdigits := decimal_inj h
    omega
  · exact absurd h (decimal_ne_signed _ _)
  · exact absurd h.symm (decimal_ne_signed _ _)
  · have hdigits := decimal_inj ((String.append_right_inj _).1 h)
    omega

end Cil.Text
