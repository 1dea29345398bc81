import Cil.Proofs.Digits
import Cil.Proofs.Selection
import Mathlib.Data.List.Forall2
import Mathlib.Data.Nat.Digits.Defs

/-! Numbers as they are spelled, and the windows they select.

Reading digits gives the number that they spell in their base as long as that is a word
(`digits_eq_ok`): no zero in front counts, and a number that leaves the words on the way
never comes back to them. A mark tells the base and a plus tells nothing, so a text is
read exactly when it is a numeral (`parse_eq_ok`). Two such numbers select a window that
never reaches over the end of the data, nor over the end of the words
(`selection_exact`). -/
namespace Cil

open Text

namespace Text.Numeral

/-! ### Digits -/

/-- The digits of a base, the first of them counting most, spell a number. -/
def Spells (base : Nat) (cs : List Char) (n : Nat) : Prop :=
  ∃ ds, List.Forall₂ (fun c d => d < base ∧ IsDigit c d) cs ds ∧ Nat.ofDigits base ds.reverse = n

theorem foldl_eq_ofDigits (base : Nat) (ds : List Nat) :
    ds.foldl (fun n d => base * n + d) 0 = Nat.ofDigits base ds.reverse := by
  rw [Nat.ofDigits_eq_foldr, List.foldr_reverse]
  simp only [Nat.add_comm, Nat.cast_id]

/-- A number only grows with its digits. -/
theorem le_foldl {base : Nat} (hbase : 0 < base) (ds : List Nat) (n : Nat) :
    n ≤ ds.foldl (fun n d => base * n + d) n := by
  induction ds generalizing n with
  | nil => exact Nat.le_refl n
  | cons d rest ih =>
    have hstep : n ≤ base * n + d := (Nat.le_mul_of_pos_left n hbase).trans (Nat.le_add_right _ d)
    exact hstep.trans (ih _)

/-- Digits are read onto a number when they stay a word to the end. -/
theorem digits_eq_ok {base : Nat} (hbase : 0 < base) {n m : Nat} (hn : n < bound) {cs : List Char} :
    digits base n cs = .ok m ↔ ∃ ds, List.Forall₂ (fun c d => digit? base c = some d) cs ds ∧
      ds.foldl (fun n d => base * n + d) n = m ∧ m < bound := by
  induction cs generalizing n with
  | nil =>
    simp only [digits, Except.ok.injEq, List.forall₂_nil_left_iff, exists_eq_left, List.foldl_nil]
    exact ⟨fun h => ⟨h, h ▸ hn⟩, And.left⟩
  | cons c rest ih =>
    rw [digits]
    simp only [List.forall₂_cons_left_iff]
    cases hc : digit? base c with
    | none => simp
    | some d =>
      simp only [Option.some.injEq]
      by_cases hfits : base * n + d < bound
      · simp only [if_pos hfits, ih hfits]
        constructor
        · intro h
          obtain ⟨ds, hds, hm⟩ := h
          exact ⟨d :: ds, ⟨d, ds, rfl, hds, rfl⟩, hm⟩
        · intro h
          obtain ⟨_, ⟨_, ds, rfl, hds, rfl⟩, hm⟩ := h
          exact ⟨ds, hds, hm⟩
      · -- what is too large here is too large at the end
        simp only [if_neg hfits]
        constructor
        · intro h
          cases h
        · intro h
          obtain ⟨_, ⟨_, ds, rfl, _, rfl⟩, hm, hbound⟩ := h
          have hgrows := le_foldl hbase ds (base * n + d)
          rw [List.foldl_cons] at hm
          omega

theorem digits_zero_eq_ok {base : Nat} (hpos : 0 < base) (hbase : base ≤ 16) {cs : List Char} {n : Nat} :
    digits base 0 cs = .ok n ↔ Spells base cs n ∧ n < bound := by
  have hzero : 0 < bound := by decide
  simp only [digits_eq_ok hpos hzero, digit?_eq_some hbase, foldl_eq_ofDigits, Spells]
  constructor
  · intro h
    obtain ⟨ds, hds, hn, hbound⟩ := h
    exact ⟨⟨ds, hds, hn⟩, hbound⟩
  · intro h
    obtain ⟨⟨ds, hds, hn⟩, hbound⟩ := h
    exact ⟨ds, hds, hn, hbound⟩

/-! ### Numerals -/

/-- What may stand in front of the digits. -/
def signs : List (List Char) := [[], ['+']]

/-- What may stand in front of that, and the base that it marks. -/
def marks : List (List Char × Nat) := [([], 10), (['0', 'x'], 16), (['0', 'X'], 16)]

/-- The text is a mark, a sign and at least one digit, and spells a number that is a word. -/
def IsNumeral (text : String) (n : Nat) : Prop :=
  ∃ mark base sign cs, (mark, base) ∈ marks ∧ sign ∈ signs ∧ text.toList = mark ++ (sign ++ cs) ∧
    cs ≠ [] ∧ Spells base cs n ∧ n < bound

/-- A plus is no digit. -/
theorem not_spells_plus {base : Nat} (hbase : base ≤ 16) {rest : List Char} {n : Nat} :
    ¬Spells base ('+' :: rest) n := by
  intro h
  obtain ⟨ds, hds, _⟩ := h
  obtain ⟨d, _, hplus, _⟩ := List.forall₂_cons_left_iff.1 hds
  rw [← digit?_eq_some hbase, digit?_of_base] at hplus
  cases hplus.2

theorem signed_plus {base : Nat} {rest : List Char} (h : rest ≠ []) :
    signed base ('+' :: rest) = digits base 0 rest := by
  cases rest with
  | nil => exact absurd rfl h
  | cons c rest => rfl

theorem signed_unsigned {base : Nat} {cs : List Char} (hne : cs ≠ []) (h : ∀ rest, cs ≠ '+' :: rest) :
    signed base cs = digits base 0 cs := by
  fun_cases signed base cs with
  | case1 => exact absurd rfl hne
  | case2 => exact absurd rfl (h [])
  | case3 rest => exact absurd rfl (h rest)
  | case4 => rfl

theorem signed_eq_ok {base : Nat} (hpos : 0 < base) (hbase : base ≤ 16) {cs : List Char} {n : Nat} :
    signed base cs = .ok n ↔
      ∃ sign rest, sign ∈ signs ∧ cs = sign ++ rest ∧ rest ≠ [] ∧ Spells base rest n ∧ n < bound := by
  constructor
  · intro h
    have hne : cs ≠ [] := by
      intro hnil
      rw [hnil] at h
      cases h
    by_cases hplus : ∃ rest, cs = '+' :: rest
    · obtain ⟨rest, rfl⟩ := hplus
      have hrest : rest ≠ [] := by
        intro hnil
        rw [hnil] at h
        cases h
      rw [signed_plus hrest, digits_zero_eq_ok hpos hbase] at h
      exact ⟨['+'], rest, by decide, rfl, hrest, h⟩
    · rw [signed_unsigned hne (not_exists.1 hplus), digits_zero_eq_ok hpos hbase] at h
      exact ⟨[], cs, by decide, rfl, hne, h⟩
  · intro h
    obtain ⟨sign, rest, hsign, hcs, hrest, hspells⟩ := h
    simp only [signs, List.mem_cons, List.not_mem_nil, or_false] at hsign
    rw [hcs]
    rcases hsign with rfl | rfl
    · have hdigit (rest' : List Char) : rest ≠ '+' :: rest' := by
        intro hplus
        exact not_spells_plus hbase (hplus ▸ hspells.1)
      rw [List.nil_append, signed_unsigned hrest hdigit, digits_zero_eq_ok hpos hbase]
      exact hspells
    · rw [List.singleton_append, signed_plus hrest, digits_zero_eq_ok hpos hbase]
      exact hspells

/-- A mark is not read as digits: behind the zero stands no digit of the base ten. -/
theorem parse_eq_signed {text : String} {n : Nat} :
    parse text = .ok n ↔
      ∃ mark base rest, (mark, base) ∈ marks ∧ text.toList = mark ++ rest ∧ signed base rest = .ok n := by
  simp only [marks, List.mem_cons, List.not_mem_nil, or_false, Prod.mk.injEq]
  constructor
  · intro h
    unfold parse at h
    split at h
    · next rest hrest => exact ⟨_, _, rest, .inr (.inl ⟨rfl, rfl⟩), hrest, h⟩
    · next rest hrest => exact ⟨_, _, rest, .inr (.inr ⟨rfl, rfl⟩), hrest, h⟩
    · next cs hcs => exact ⟨_, _, text.toList, .inl ⟨rfl, rfl⟩, rfl, h⟩
  · intro h
    obtain ⟨mark, base, rest, hmark, htext, h⟩ := h
    unfold parse
    rw [htext]
    rcases hmark with ⟨rfl, rfl⟩ | ⟨rfl, rfl⟩ | ⟨rfl, rfl⟩
    · split
      · next rest' hrest =>
        rw [List.nil_append] at hrest
        rw [hrest] at h
        cases h
      · next rest' hrest =>
        rw [List.nil_append] at hrest
        rw [hrest] at h
        cases h
      · exact h
    · exact h
    · exact h

theorem parse_eq_ok {text : String} {n : Nat} : parse text = .ok n ↔ IsNumeral text n := by
  have hbase {mark : List Char} {base : Nat} (h : (mark, base) ∈ marks) : 0 < base ∧ base ≤ 16 := by
    simp only [marks, List.mem_cons, List.not_mem_nil, or_false, Prod.mk.injEq] at h
    omega
  rw [parse_eq_signed]
  constructor
  · intro h
    obtain ⟨mark, base, rest, hmark, htext, h⟩ := h
    obtain ⟨sign, cs, hsign, rfl, hcs⟩ := (signed_eq_ok (hbase hmark).1 (hbase hmark).2).1 h
    exact ⟨mark, base, sign, cs, hmark, hsign, htext, hcs⟩
  · intro h
    obtain ⟨mark, base, sign, cs, hmark, hsign, htext, hcs⟩ := h
    refine ⟨mark, base, sign ++ cs, hmark, htext, ?_⟩
    exact (signed_eq_ok (hbase hmark).1 (hbase hmark).2).2 ⟨sign, cs, hsign, rfl, hcs⟩

end Text.Numeral

/-! ### Windows -/

namespace Command

/-- The number that an option gives, or what stands for it. -/
def Given (text : Option String) (default n : Nat) : Prop :=
  match text with
  | none => n = default
  | some text => Numeral.IsNumeral text n

theorem number_iff_given {text : Option String} {default n : Nat} :
    number text default = .ok n ↔ Given text default n := by
  rw [number_eq_ok]
  cases text with
  | none => simp [Given]
  | some text => simp [Given, Numeral.parse_eq_ok]

/-- Two numbers admit the window from the first on, as long as the second. -/
structure Admitted (offset length : Option String) (size start count : Nat) : Prop where
  offset : Given offset 0 start
  inside : start ≤ size
  length : Given length (size - start) count
  fits : count ≤ size - start

theorem select_iff_admitted {offset length : Option String} {data window : ByteArray} :
    select offset length data = .ok window ↔
      ∃ start count, Admitted offset length data.size start count ∧
        window = data.extract start (start + count) := by
  rw [select_eq_ok]
  constructor
  · intro h
    obtain ⟨start, count, hstart, hcount, hend, hwindow⟩ := h
    have hadmitted : Admitted offset length data.size start count :=
      ⟨number_iff_given.1 hstart, by omega, number_iff_given.1 hcount, by omega⟩
    exact ⟨start, count, hadmitted, hwindow.symm⟩
  · intro h
    obtain ⟨start, count, hadmitted, hwindow⟩ := h
    have hinside := hadmitted.inside
    have hfits := hadmitted.fits
    exact ⟨start, count, number_iff_given.2 hadmitted.offset, number_iff_given.2 hadmitted.length, by omega,
      hwindow.symm⟩

/-- What is computed with words is what is meant: they hold the sum and the difference. -/
theorem Admitted.words {offset length : Option String} {size start count : Nat}
    (h : Admitted offset length size start count) (hsize : size < Numeral.bound) :
    (UInt64.ofNat size - UInt64.ofNat start).toNat = size - start ∧
      (UInt64.ofNat start + UInt64.ofNat count).toNat = start + count := by
  have hinside := h.inside
  have hfits := h.fits
  rw [Numeral.bound] at hsize
  rw [UInt64.toNat_sub, UInt64.toNat_add]
  simp only [UInt64.toNat_ofNat']
  omega

end Command

open Command

/-- **A window is selected by two numerals that stay inside the data.** A text is read exactly when
it is a numeral, as the number that it spells. A window is selected exactly when each text that
is given is read, the offset or zero is at most the size, and the length or all that is left is
at most what is left; and it is the window from the offset on, of that length. For such numbers
no sum and no difference leaves the words. -/
theorem selection_exact :
    (∀ (text : String) (n : Nat), Numeral.parse text = .ok n ↔ Numeral.IsNumeral text n) ∧
    ∀ (offset length : Option String) (data : ByteArray),
      (∀ window, select offset length data = .ok window ↔ ∃ start count,
        Admitted offset length data.size start count ∧ window = data.extract start (start + count)) ∧
      ∀ start count, Admitted offset length data.size start count →
        start + count ≤ data.size ∧
        (data.size < Numeral.bound →
          (UInt64.ofNat data.size - UInt64.ofNat start).toNat = data.size - start ∧
          (UInt64.ofNat start + UInt64.ofNat count).toNat = start + count) := by
  refine ⟨fun text n => Numeral.parse_eq_ok, fun offset length data => ⟨fun window => select_iff_admitted, ?_⟩⟩
  intro start count hadmitted
  have hinside := hadmitted.inside
  have hfits := hadmitted.fits
  exact ⟨by omega, hadmitted.words⟩

/-- A sign behind a mark and zeros in front of a number: the window from the third byte on, as long
as the rest. The greatest word is a numeral too, but admits no window of so few bytes. -/
theorem selection_exact_signed :
    let data : ByteArray := ⟨#[0x0A, 0x0B, 0x0C, 0x0D]⟩
    Admitted (some "0x+0002") none data.size 2 2 ∧
      select (some "0x+0002") none data = .ok (data.extract 2 4) ∧
      (UInt64.ofNat 2 + UInt64.ofNat 2).toNat = 4 ∧
      Numeral.IsNumeral "18446744073709551615" 18446744073709551615 ∧
      ∀ window, select none (some "18446744073709551615") data ≠ .ok window := by
  intro data
  obtain ⟨hparse, hselect⟩ := selection_exact
  have hoffset : Numeral.IsNumeral "0x+0002" 2 := (hparse _ _).1 (by decide +kernel)
  have hgreatest : Numeral.IsNumeral "18446744073709551615" 18446744073709551615 :=
    (hparse _ _).1 (by decide +kernel)
  have hadmitted : Admitted (some "0x+0002") none data.size 2 2 := ⟨hoffset, by decide, rfl, by decide⟩
  refine ⟨hadmitted, ?_, ?_, hgreatest, ?_⟩
  · exact ((hselect _ _ data).1 _).2 ⟨2, 2, hadmitted, rfl⟩
  · exact (((hselect _ _ data).2 2 2 hadmitted).2 (by decide)).2
  · intro window h
    obtain ⟨start, count, hwindow, _⟩ := ((hselect _ _ data).1 window).1 h
    have hcount := (hparse _ _).2 hwindow.length
    rw [(hparse _ _).2 hgreatest] at hcount
    cases hcount
    have hfits := hwindow.fits
    have hsize : data.size = 4 := rfl
    omega

end Cil
