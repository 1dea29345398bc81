import Cil.Proofs.Digits
import Cil.Text.Hex
import Mathlib.Data.List.Forall2
import Mathlib.Logic.Relation

/-! Hexadecimal text and what it denotes.

Of a text only its digits count, and of a digit only its value, so text is read by the
values that stand in it without the blanks (`parse_eq_ok`). They are the halves of the
bytes, high before low. Blanks anywhere and the case of the digits make no difference
(`values_of_respelled`), and every series of bytes has a text (`parse_digitsOf`). -/
namespace Cil

open Text

/-- Bytes below `0x80` are characters of their own. -/
theorem Text.Utf8.fault?_eq_none {bytes : List UInt8} (h : ∀ b ∈ bytes, b.toNat < 0x80) (index : Nat) :
    fault? index bytes = none := by
  induction bytes generalizing index with
  | nil => rw [fault?]
  | cons b rest ih =>
    obtain ⟨hb, hrest⟩ := List.forall_mem_cons.1 h
    have hfront : front b rest = .ok (Char.ofNat b.toNat, 0) := by
      simp only [front, Lead.ofByte?, if_pos hb, further, leadBits]
    rw [fault?, hfront]
    exact ih hrest _

namespace Text.Hex

/-! ### Digits -/

/-- The byte is a digit of this value, in one of its two cases. -/
def DigitOf (b : UInt8) (d : Nat) : Prop := d < 16 ∧ Numeral.IsDigit (Char.ofNat b.toNat) d

instance (b : UInt8) (d : Nat) : Decidable (DigitOf b d) := inferInstanceAs (Decidable (_ ∧ _))

theorem digit?_eq (b : UInt8) : digit? b = Numeral.digit? 16 (Char.ofNat b.toNat) := by
  have hlt : b.toNat < 256 := b.toNat_lt
  have hchar : (Char.ofNat b.toNat).toNat = b.toNat := by
    rw [Char.ofNat, dif_pos (Or.inl (by omega))]
    rfl
  simp only [digit?, Numeral.digit?, hchar]
  grind

theorem digit?_eq_some {b : UInt8} {d : Nat} : digit? b = some d ↔ DigitOf b d := by
  rw [digit?_eq]
  exact Numeral.digit?_eq_some (Nat.le_refl 16)

theorem plain_of_isBlank {b : UInt8} (h : isBlank b = true) : b.toNat < 0x80 ∧ digit? b = none := by
  simp only [isBlank, Bool.or_eq_true, decide_eq_true_eq] at h
  rcases h with (((rfl | rfl) | rfl) | rfl) | rfl <;> decide

/-- A digit is a character of its own and no blank. -/
theorem DigitOf.plain {b : UInt8} {d : Nat} (h : DigitOf b d) : b.toNat < 0x80 ∧ isBlank b = false := by
  rw [← digit?_eq_some] at h
  constructor
  · simp only [digit?] at h
    grind
  · rw [Bool.eq_false_iff]
    intro hblank
    rw [(plain_of_isBlank hblank).2] at h
    cases h

/-! ### The values in a text -/

/-- The values of all that is no blank. -/
def values (text : List UInt8) : List (Option Nat) := (text.filter fun b => !isBlank b).map digit?

/-- The halves of the bytes, high before low. -/
def nibbles (bytes : List UInt8) : List Nat := bytes.flatMap fun b => [b.toNat / 16, b.toNat % 16]

theorem nibbles_cons (b : UInt8) (rest : List UInt8) :
    nibbles (b :: rest) = b.toNat / 16 :: b.toNat % 16 :: nibbles rest := rfl

theorem length_nibbles (bytes : List UInt8) : (nibbles bytes).length = 2 * bytes.length := by
  induction bytes with
  | nil => rfl
  | cons b rest ih =>
    rw [nibbles_cons, List.length_cons, List.length_cons, List.length_cons, ih]
    omega

/-- Digits with the halves of bytes as their values spell those bytes. -/
theorem pairs_of_map {digits bytes : List UInt8} (h : digits.map digit? = (nibbles bytes).map some) :
    pairs digits = .ok bytes := by
  induction bytes generalizing digits with
  | nil =>
    obtain rfl := List.map_eq_nil_iff.1 h
    rfl
  | cons b rest ih =>
    rw [nibbles_cons, List.map_cons, List.map_cons] at h
    obtain ⟨high, digits, rfl, hhigh, h⟩ := List.map_eq_cons_iff.1 h
    obtain ⟨low, digits, rfl, hlow, h⟩ := List.map_eq_cons_iff.1 h
    have hbyte : 16 * (b.toNat / 16) + b.toNat % 16 = b.toNat := Nat.div_add_mod ..
    simp only [pairs, hhigh, hlow, ih h, hbyte, UInt8.ofNat_toNat]

/-- Digits that spell bytes have the halves of those as their values, if none is left over. -/
theorem map_of_pairs {digits bytes : List UInt8} (heven : digits.length % 2 = 0)
    (h : pairs digits = .ok bytes) : digits.map digit? = (nibbles bytes).map some := by
  fun_induction pairs digits generalizing bytes with
  | case1 high low rest x y hhigh hlow spelled hrest ih =>
    cases h
    have hx := (digit?_eq_some.1 hhigh).1
    have hy := (digit?_eq_some.1 hlow).1
    have hbyte : (UInt8.ofNat (16 * x + y)).toNat = 16 * x + y := by
      rw [UInt8.toNat_ofNat']
      omega
    have htail : rest.length % 2 = 0 := by
      simp only [List.length_cons] at heven
      omega
    have hfirst : (16 * x + y) / 16 = x := by omega
    have hsecond : (16 * x + y) % 16 = y := by omega
    simp only [nibbles_cons, List.map_cons, hbyte, hfirst, hsecond, hhigh, hlow, ih htail hrest]
  | case2 | case3 => cases h
  | case4 digits hshort =>
    cases h
    match digits, hshort with
    | [], _ => rfl
    | [b], _ => simp at heven
    | high :: low :: rest, hshort => exact absurd rfl (hshort high low rest)

theorem exists_of_mem {digits : List UInt8} {ns : List Nat} (h : digits.map digit? = ns.map some) :
    ∀ b ∈ digits, ∃ d, DigitOf b d := by
  intro b hb
  have hmem : digit? b ∈ digits.map digit? := List.mem_map_of_mem hb
  rw [h] at hmem
  obtain ⟨d, _, hd⟩ := List.mem_map.1 hmem
  exact ⟨d, digit?_eq_some.1 hd.symm⟩

/-- Where every value is one of a digit there are only digits and blanks. -/
theorem known_of_values {text : List UInt8} {ns : List Nat} (h : values text = ns.map some) :
    ∀ b ∈ text, isBlank b = true ∨ ∃ d, DigitOf b d := by
  intro b hb
  cases hblank : isBlank b with
  | true => exact .inl rfl
  | false => exact .inr (exists_of_mem h b (List.mem_filter.2 ⟨hb, by rw [hblank]; rfl⟩))

theorem plain_of_values {text : List UInt8} {ns : List Nat} (h : values text = ns.map some) :
    ∀ b ∈ text, b.toNat < 0x80 := by
  intro b hb
  rcases known_of_values h b hb with hblank | ⟨d, hd⟩
  · exact (plain_of_isBlank hblank).1
  · exact hd.plain.1

/-- Text is read as the bytes whose halves are the values in it. -/
theorem parse_eq_ok {text bytes : List UInt8} :
    parse text = .ok bytes ↔ values text = (nibbles bytes).map some := by
  unfold parse
  constructor
  · intro h
    split at h
    · cases h
    · dsimp only at h
      split at h
      · next heven => exact map_of_pairs heven h
      · cases h
  · intro h
    have heven : (text.filter fun b => !isBlank b).length % 2 = 0 := by
      have hlength := congrArg List.length h
      rw [values, List.length_map, List.length_map, length_nibbles] at hlength
      omega
    simp only [Utf8.fault?_eq_none (plain_of_values h), heven, if_true]
    exact pairs_of_map h

/-! ### Text for bytes -/

/-- The digit as a byte of text. -/
def digitByte (d : Nat) : UInt8 := UInt8.ofNat d.digitChar.toUpper.toNat

theorem digit?_digitByte : ∀ d < 16, digit? (digitByte d) = some d := by
  decide

/-- The two digits of every byte. -/
def digitsOf (bytes : List UInt8) : List UInt8 :=
  bytes.flatMap fun b => [digitByte (b.toNat / 16), digitByte (b.toNat % 16)]

theorem map_digitsOf (bytes : List UInt8) : (digitsOf bytes).map digit? = (nibbles bytes).map some := by
  induction bytes with
  | nil => rfl
  | cons b rest ih =>
    have hlt : b.toNat < 256 := b.toNat_lt
    have hhigh := digit?_digitByte (b.toNat / 16) (by omega)
    have hlow := digit?_digitByte (b.toNat % 16) (by omega)
    show digit? (digitByte (b.toNat / 16)) :: digit? (digitByte (b.toNat % 16)) :: (digitsOf rest).map digit? = _
    rw [hhigh, hlow, ih]
    rfl

theorem pairs_digitsOf (bytes : List UInt8) : pairs (digitsOf bytes) = .ok bytes :=
  pairs_of_map (map_digitsOf bytes)

/-- Every series of bytes has a text. -/
theorem parse_digitsOf (bytes : List UInt8) : parse (digitsOf bytes) = .ok bytes := by
  have hnone : (digitsOf bytes).filter (fun b => !isBlank b) = digitsOf bytes := by
    refine List.filter_eq_self.2 fun b hb => ?_
    obtain ⟨d, hd⟩ := exists_of_mem (map_digitsOf bytes) b hb
    rw [hd.plain.2]
    rfl
  rw [parse_eq_ok, values, hnone, map_digitsOf]

/-! ### The grammar -/

/-- The text holds only digits and blanks, an even number of digits, and these are the halves of the
bytes in order. -/
structure Denotes (text bytes : List UInt8) : Prop where
  known : ∀ b ∈ text, isBlank b = true ∨ ∃ d, DigitOf b d
  even : (text.filter fun b => !isBlank b).length % 2 = 0
  spelled : List.Forall₂ DigitOf (text.filter fun b => !isBlank b) (nibbles bytes)

theorem forall₂_digitOf {digits : List UInt8} {ns : List Nat} :
    List.Forall₂ DigitOf digits ns ↔ digits.map digit? = ns.map some := by
  have hrel : DigitOf = fun b d => digit? b = some d := by
    funext b d
    exact propext digit?_eq_some.symm
  rw [hrel, ← List.forall₂_eq_eq_eq, List.forall₂_map_left_iff, List.forall₂_map_right_iff]

theorem denotes_iff {text bytes : List UInt8} : Denotes text bytes ↔ values text = (nibbles bytes).map some := by
  constructor
  · intro h
    exact forall₂_digitOf.1 h.spelled
  · intro h
    have hspelled := forall₂_digitOf.2 h
    refine ⟨known_of_values h, ?_, hspelled⟩
    rw [hspelled.length_eq, length_nibbles, Nat.mul_mod_right]

/-! ### Spelling in other ways -/

/-- One blank more, or one digit in another case. -/
inductive Respelled : List UInt8 → List UInt8 → Prop where
  | blank (front back : List UInt8) {b : UInt8} : isBlank b = true →
    Respelled (front ++ back) (front ++ b :: back)
  | recased (front back : List UInt8) {b b' : UInt8} {d : Nat} : DigitOf b d → DigitOf b' d →
    Respelled (front ++ b :: back) (front ++ b' :: back)

theorem values_append (front back : List UInt8) : values (front ++ back) = values front ++ values back := by
  simp [values]

theorem values_blank {b : UInt8} (h : isBlank b = true) (back : List UInt8) :
    values (b :: back) = values back := by
  simp [values, h]

theorem values_digit {b : UInt8} {d : Nat} (h : DigitOf b d) (back : List UInt8) :
    values (b :: back) = some d :: values back := by
  simp [values, digit?_eq_some.2 h, h.plain.2]

theorem values_of_respelled {text text' : List UInt8} (h : Respelled text text') :
    values text = values text' := by
  cases h with
  | blank front back hblank => rw [values_append, values_append, values_blank hblank]
  | recased front back hb hb' => rw [values_append, values_append, values_digit hb, values_digit hb']

/-- However often and in whatever order it is respelled, forth and back, a text keeps its values. -/
theorem values_of_eqvGen {text text' : List UInt8} (h : Relation.EqvGen Respelled text text') :
    values text = values text' := by
  induction h with
  | rel _ _ hstep => exact values_of_respelled hstep
  | refl _ => rfl
  | symm _ _ _ ih => exact ih.symm
  | trans _ _ _ _ _ hfirst hsecond => exact hfirst.trans hsecond

end Text.Hex

open Hex

/-- **Hexadecimal text is digits in pairs among blanks.** Text is read exactly when it holds
nothing but digits and blanks and an even number of digits, and as the bytes whose halves the
digits are, high before low. So blanks put in or taken out anywhere and digits in the other case
leave what is read as it was; and every series of bytes is read from some text. -/
theorem hex_grammar :
    (∀ text bytes, Hex.parse text = .ok bytes ↔ Denotes text bytes) ∧
    (∀ text text' bytes, Relation.EqvGen Respelled text text' → Hex.parse text = .ok bytes →
      Hex.parse text' = .ok bytes) ∧
    ∀ bytes, ∃ text, Hex.parse text = .ok bytes := by
  refine ⟨?_, ?_, ?_⟩
  · intro text bytes
    rw [parse_eq_ok, denotes_iff]
  · intro text text' bytes hrespelled h
    rw [parse_eq_ok] at h ⊢
    rw [← values_of_eqvGen hrespelled, h]
  · intro bytes
    exact ⟨digitsOf bytes, parse_digitsOf bytes⟩

/-- A tab between the halves of a byte and a digit in either case: the text is read as if it were
the digits alone, all in one case. -/
theorem hex_grammar_blanks :
    let text : List UInt8 := [0x66, 0x09, 0x45, 0x30, 0x31]
    let plain : List UInt8 := [0x46, 0x45, 0x30, 0x31]
    Denotes plain [0xFE, 0x01] ∧ Relation.EqvGen Respelled plain text ∧ Hex.parse text = .ok [0xFE, 0x01] := by
  intro text plain
  have hplain : Hex.parse plain = .ok [0xFE, 0x01] := by decide +kernel
  have hrecased : Respelled plain [0x66, 0x45, 0x30, 0x31] :=
    .recased [] [0x45, 0x30, 0x31] (show DigitOf 0x46 15 by decide) (by decide)
  have hblank : Respelled [0x66, 0x45, 0x30, 0x31] text := .blank [0x66] [0x45, 0x30, 0x31] rfl
  have hrespelled : Relation.EqvGen Respelled plain text :=
    .trans _ _ _ (.rel _ _ hrecased) (.rel _ _ hblank)
  exact ⟨(hex_grammar.1 _ _).1 hplain, hrespelled, hex_grammar.2.1 _ _ _ hrespelled hplain⟩

end Cil
