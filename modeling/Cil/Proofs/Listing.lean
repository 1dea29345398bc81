import Cil.Listing
import Cil.Proofs.Compressed
import Cil.Proofs.Digits
import Cil.Proofs.Tiling
import Cil.Proofs.Utf8

/-! A listing tells its code.

A line is a mnemonic, which no two opcodes share and which has no blank in it, and
behind a blank the operand. The opcode fixes the shape of the operand, and a number,
an address and a token are each written in digits of one way only; floating-point
numbers alone are not, as all that are no number look alike. So a line tells its
instruction once the address is known (`Instr.eq_of_text`), and that is known from the
lines before it. The instructions in turn spell the code (`listing_determines_code`). -/
namespace Cil

open Bytes Text

/-! ### Mnemonics -/

namespace Opcode

/-- Numbers are distinct if those with the same remainder are, so that few of them have to be
compared with each other. -/
theorem nodup_of_remainders {m : Nat} (hm : 0 < m) {keys : List Nat}
    (h : ∀ r < m, (keys.filter (· % m = r)).Nodup) : keys.Nodup := by
  rw [List.nodup_iff_count]
  intro a
  have hclass := List.nodup_iff_count.1 (h (a % m) (Nat.mod_lt a hm)) a
  rwa [List.count_filter (by simp)] at hclass

theorem nodup_mnemonics : (catalogue.map mnemonic).Nodup := by
  have hkeys : (catalogue.map fun op => ofLE (octets op.mnemonic.toUTF8)).Nodup :=
    nodup_of_remainders (m := 13) (by decide) (by decide +kernel)
  refine List.Nodup.of_map (fun mnemonic => ofLE (octets mnemonic.toUTF8)) ?_
  rwa [List.map_map]

theorem eq_of_mnemonic {op op' : Opcode} (h : op ∈ catalogue) (h' : op' ∈ catalogue)
    (heq : op.mnemonic = op'.mnemonic) : op = op' :=
  List.inj_on_of_nodup_map nodup_mnemonics h h' heq

theorem blank_notMem_mnemonic {op : Opcode} (h : op ∈ catalogue) : ' ' ∉ op.mnemonic.toList := by
  have hbytes : ∀ op ∈ catalogue, 0x20 ∉ octets op.mnemonic.toUTF8 := by decide +kernel
  rw [← Utf8.mem_octets_toUTF8 (b := 0x20) rfl (by decide)]
  exact hbytes op h

/-- Only two opcodes take a floating-point number. -/
theorem mnemonic_of_float {op : Opcode} (h : op ∈ catalogue)
    (hkind : op.kind = .float32 ∨ op.kind = .float64) : op.mnemonic ∈ ["ldc.r4", "ldc.r8"] := by
  revert op
  decide +kernel

end Opcode

/-! ### Operands -/

/-- Integers of one format with the same text are the same. -/
theorem Scalar.eq_of_text {f : Format} (hf : ∀ g, f.reading ≠ .float g)
    {bits bits' : BitVec (8 * f.width)}
    (h : (Scalar.mk f bits).text = (Scalar.mk f bits').text) : bits = bits' := by
  unfold text at h
  simp only at h
  split at h
  · exact BitVec.eq_of_toNat_eq (decimal_inj h)
  · exact BitVec.eq_of_toInt_eq (signedDecimal_inj h)
  · next hfloat => exact absurd hfloat (hf _)

theorem Token.eq_of_text {t t' : Token} (h : t.text = t'.text) : t = t' := by
  have hdigits : lowerHex 8 t.value.toNat = lowerHex 8 t'.value.toNat := String.append_right_inj _ |>.1 h
  have hbound : ∀ u : Token, u.value.toNat < Numeral.bound := fun u =>
    Nat.lt_trans u.value.toNat_lt (by decide)
  have hvalue := UInt32.toNat_inj.1 (lowerHex_inj (hbound t) (hbound t') hdigits)
  obtain ⟨_⟩ := t
  exact congrArg Token.mk hvalue

/-- Every kind of literal but two is of integers. -/
theorem OperandKind.reading_of_literal? {kind : OperandKind} {f : Scalar.Format}
    (hkind : kind ≠ .float32 ∧ kind ≠ .float64) (h : kind.literal? = some f) (g : Decimal.Format) :
    f.reading ≠ .float g := by
  obtain ⟨hsingle, hdouble⟩ := hkind
  cases kind <;> first | exact absurd rfl hsingle | exact absurd rfl hdouble | cases h <;> nofun

/-- A signed number takes half of the capacity on either side of zero. -/
theorem Scalar.toInt_range (s : Scalar) :
    -(capacity s.format.width : Int) ≤ 2 * s.bits.toInt ∧ 2 * s.bits.toInt < capacity s.format.width := by
  have hlt := s.toNat_lt
  rw [toInt_bits]
  split <;> omega

namespace Operand

open OperandKind

/-- Without metadata every operand that is read has the shape of its kind. -/
theorem fits_of_ofBytes {kind : OperandKind} {next : Nat} {bytes : List UInt8} {o : Operand}
    (h : ofBytes .bare kind next bytes = .ok o) : o.Fits kind next := by
  rw [ofBytes_eq] at h
  split at h
  · next hform =>
    cases h
    exact form_eq_none.1 hform
  · next f hform =>
    obtain ⟨address, htarget, hpure⟩ := bind_eq_ok.1 h
    cases hpure
    obtain ⟨hsum, haddress⟩ := branchTarget_eq_ok.1 htarget
    have hrange := (Scalar.ofBytes f bytes).toInt_range
    have hdisplacement : (address : Int) - next = (Scalar.ofBytes f bytes).bits.toInt := by omega
    have hwidth : kind.width = f.width := width_of_form hform
    refine ⟨isBranch_iff.2 ⟨f, hform⟩, haddress, ?_⟩
    rw [hwidth, hdisplacement]
    exact hrange
  · next f hform =>
    cases h
    exact literal?_eq_some.2 hform
  · next hform =>
    by_cases hgeneric : kind = .genericToken
    · subst hgeneric
      rw [Resolver.operand_bare_generic] at h
      obtain ⟨_, _, hrefused⟩ := bind_eq_ok.1 h
      cases hrefused
    · rw [Resolver.operand_bare hgeneric] at h
      cases hcheck : Resolver.check kind ⟨UInt32.ofNat (ofLE bytes)⟩ with
      | error e =>
        rw [hcheck] at h
        cases h
      | ok table =>
        rw [hcheck] at h
        cases h
        obtain ⟨htable, haccepted⟩ := Resolver.check_eq_ok.1 hcheck
        exact ⟨isToken_iff.2 hform, table, haccepted, htable⟩

/-- What an operand adds to the mnemonic. -/
def tail : Operand → List Char
  | none => []
  | operand => ' ' :: operand.text.toList

/-- An operand of a given kind is told by its text. -/
theorem eq_of_tail {kind : OperandKind} (hkind : kind ≠ .float32 ∧ kind ≠ .float64) {next : Nat}
    {o o' : Operand} (h : o.Fits kind next) (h' : o'.Fits kind next) (htail : o.tail = o'.tail) :
    o = o' := by
  cases o with
  | none =>
    cases o' with
    | none => rfl
    | _ => cases htail
  | immediate value =>
    have hliteral : kind.literal? = some value.format := h
    cases o' with
    | immediate value' =>
      have hliteral' : kind.literal? = some value'.format := h'
      obtain ⟨f, bits⟩ := value
      obtain ⟨f', bits'⟩ := value'
      cases hliteral.symm.trans hliteral'
      have hreading := reading_of_literal? hkind hliteral
      rw [Scalar.eq_of_text hreading (String.toList_injective (List.cons.inj htail).2)]
    | none => cases htail
    | target address =>
      obtain ⟨f, hform⟩ := isBranch_iff.1 h'.1
      cases hform.symm.trans (literal?_eq_some.1 hliteral)
    | token t => cases (literal?_eq_some.1 hliteral).symm.trans (isToken_iff.1 h'.1)
    | symbol sym => exact h'.elim
  | target address =>
    obtain ⟨hbranch, haddress, _⟩ := h
    obtain ⟨f, hform⟩ := isBranch_iff.1 hbranch
    cases o' with
    | target address' =>
      obtain ⟨_, haddress', _⟩ := h'
      have hbound : ∀ a, a ≤ maxAddress → a < Numeral.bound := fun a ha =>
        Nat.lt_of_le_of_lt ha (by decide)
      rw [upperHex_inj (hbound _ haddress) (hbound _ haddress')
        (String.toList_injective (List.cons.inj htail).2)]
    | none => cases htail
    | immediate value => cases hform.symm.trans (literal?_eq_some.1 h')
    | token t => cases hform.symm.trans (isToken_iff.1 h'.1)
    | symbol sym => exact h'.elim
  | token t =>
    have hform := isToken_iff.1 h.1
    cases o' with
    | token t' => rw [Token.eq_of_text (String.toList_injective (List.cons.inj htail).2)]
    | none => cases htail
    | immediate value => cases hform.symm.trans (literal?_eq_some.1 h')
    | target address =>
      obtain ⟨f, hform'⟩ := isBranch_iff.1 h'.1
      cases hform.symm.trans hform'
    | symbol sym => exact h'.elim
  | symbol sym => exact h.elim

end Operand

/-! ### Instructions -/

namespace Instr

theorem toList_text (i : Instr) : (i.text false).toList = i.opcode.mnemonic.toList ++ i.operand.tail := by
  obtain ⟨address, size, opcode, operand⟩ := i
  cases operand with
  | none => exact (List.append_nil _).symm
  | _ => simp [text, plainText, Operand.tail, String.toList_append]

/-- A word without a blank, and what follows it from a blank on, can be told apart. -/
theorem word_eq {word word' : List Char} {o o' : Operand} (hword : ' ' ∉ word) (hword' : ' ' ∉ word')
    (h : word ++ o.tail = word' ++ o'.tail) : word = word' ∧ o.tail = o'.tail := by
  have hfront : ∀ (w : List Char) (o : Operand), ' ' ∉ w → (w ++ o.tail).takeWhile (· ≠ ' ') = w := by
    intro w o hw
    have hnone : o.tail.takeWhile (· ≠ ' ') = [] := by cases o <;> rfl
    rw [List.takeWhile_append_of_pos, hnone, List.append_nil]
    intro c hc
    exact decide_eq_true (ne_of_mem_of_not_mem hc hw)
  have heq : word = word' := by rw [← hfront word o hword, h, hfront word' o' hword']
  subst heq
  exact ⟨rfl, List.append_cancel_left h⟩

/-- Decoded without metadata, at the same address, instructions with the same text are the same,
unless they show a floating-point number. -/
theorem eq_of_text {address : Nat} {bytes bytes' : List UInt8} {i i' : Instr}
    (h : ofBytes .bare address bytes = .ok i) (h' : ofBytes .bare address bytes' = .ok i')
    (hfloat : i.opcode.mnemonic ∉ ["ldc.r4", "ldc.r8"]) (htext : i.text false = i'.text false) :
    i = i' := by
  obtain ⟨operandBytes, hfetch, hoperand, haddress, hsize⟩ := ofBytes_eq_ok.1 h
  obtain ⟨operandBytes', hfetch', hoperand', haddress', hsize'⟩ := ofBytes_eq_ok.1 h'
  have hmem := (fetch_eq_ok.1 hfetch).1
  have hmem' := (fetch_eq_ok.1 hfetch').1
  have hchars := congrArg String.toList htext
  rw [toList_text, toList_text] at hchars
  obtain ⟨hword, htail⟩ := word_eq (Opcode.blank_notMem_mnemonic hmem)
    (Opcode.blank_notMem_mnemonic hmem') hchars
  have hopcode : i.opcode = i'.opcode := Opcode.eq_of_mnemonic hmem hmem' (String.toList_injective hword)
  have hkind : i.opcode.kind ≠ .float32 ∧ i.opcode.kind ≠ .float64 :=
    ⟨fun hsingle => hfloat (Opcode.mnemonic_of_float hmem (.inl hsingle)),
      fun hdouble => hfloat (Opcode.mnemonic_of_float hmem (.inr hdouble))⟩
  rw [← hopcode] at hoperand'
  have hoperands := Operand.eq_of_tail hkind (Operand.fits_of_ofBytes hoperand)
    (Operand.fits_of_ofBytes hoperand') htail
  obtain ⟨_, _, _, _⟩ := i
  obtain ⟨_, _, _, _⟩ := i'
  cases hopcode
  cases hoperands
  cases haddress.trans haddress'.symm
  cases hsize.trans hsize'.symm
  rfl

end Instr

/-! ### Listings -/

/-- Traces from the same address with the same lines have the same instructions, though they
may be of different code. -/
theorem Trace.eq_of_texts {code code' : ByteArray} {pos stop stop' : Nat} {is is' : List Instr}
    {failure failure' : Option Error} (h : Trace .bare code pos is failure stop)
    (h' : Trace .bare code' pos is' failure' stop')
    (hfloat : ∀ i ∈ is, i.opcode.mnemonic ∉ ["ldc.r4", "ldc.r8"])
    (htexts : is.map (Instr.text false) = is'.map (Instr.text false)) : is = is' := by
  induction h generalizing is' with
  | ended => exact (List.map_eq_nil_iff.1 htexts.symm).symm
  | failed => exact (List.map_eq_nil_iff.1 htexts.symm).symm
  | @step pos i rest failure stop hsome _ ih =>
    cases h' with
    | ended => cases htexts
    | failed => cases htexts
    | @step _ i' rest' _ _ hsome' htail' =>
      obtain ⟨hfirst, hrest⟩ := List.cons.inj htexts
      obtain ⟨⟨_, _, hdecoded⟩, _⟩ := Instr.decodeNext_eq_some.1 hsome
      obtain ⟨⟨_, _, hdecoded'⟩, _⟩ := Instr.decodeNext_eq_some.1 hsome'
      obtain rfl := Instr.eq_of_text hdecoded hdecoded' (hfloat i (List.mem_cons_self ..)) hfirst
      -- the next line starts where this instruction ends, in both
      rw [ih htail' (fun j hj => hfloat j (List.mem_cons_of_mem i hj)) hrest]

/-- Code that has a listing is spelled by its instructions. -/
theorem octets_of_disassemble {code : ByteArray} {lines : List Line}
    (h : disassemble .bare code = .ok lines) :
    octets code = (decodeAll .bare code).instrs.toList.flatMap Instr.encode ∧
      lines.map Line.text = (decodeAll .bare code).instrs.toList.map (Instr.text false) := by
  have htrace := decodeAll_trace .bare code
  unfold disassemble at h
  simp only at h
  split at h
  · cases h
  · next hnone =>
    cases h
    rw [hnone] at htrace
    have hwhole := htrace.take_stop
    rw [htrace.stop_eq_size (Nat.zero_le _), ← length_octets, List.take_length, List.take_zero,
      List.nil_append] at hwhole
    exact ⟨hwhole, List.map_map⟩

/-- **A listing without metadata determines its code.** Two pieces of code that have a listing,
with the same texts line by line, are the same code, unless it holds an opcode that shows a
floating-point number. -/
theorem listing_determines_code {code₁ code₂ : ByteArray} {lines₁ lines₂ : List Line}
    (h₁ : disassemble .bare code₁ = .ok lines₁) (h₂ : disassemble .bare code₂ = .ok lines₂)
    (hfloat₁ : ∀ i ∈ (decodeAll .bare code₁).instrs.toList, i.opcode.mnemonic ∉ ["ldc.r4", "ldc.r8"])
    (htexts : lines₁.map Line.text = lines₂.map Line.text) : code₁ = code₂ := by
  obtain ⟨hoctets₁, hlines₁⟩ := octets_of_disassemble h₁
  obtain ⟨hoctets₂, hlines₂⟩ := octets_of_disassemble h₂
  have hinstrs := (decodeAll_trace .bare code₁).eq_of_texts (decodeAll_trace .bare code₂) hfloat₁
    (hlines₁.symm.trans (htexts.trans hlines₂))
  apply octets_inj.1
  rw [hoctets₁, hoctets₂, hinstrs]

/-- One code alone has the listing of `nop`, a branch to itself, a call and `ret`. -/
theorem listing_determines_code_branch :
    ∃! code : ByteArray, ∃ lines, disassemble .bare code = .ok lines ∧
      lines.map Line.text = ["nop", "br.s 0001", "call 0x0a000001", "ret"] := by
  let code : ByteArray := ⟨#[0x00, 0x2B, 0xFE, 0x28, 0x01, 0x00, 0x00, 0x0A, 0x2A]⟩
  have hended : (decodeAll .bare code).failure = none := by decide +kernel
  have hlisting : disassemble .bare code = .ok ((decodeAll .bare code).instrs.toList.map (Instr.line false)) := by
    simp only [disassemble, hended]
    rfl
  have hlines : ((decodeAll .bare code).instrs.toList.map (Instr.line false)).map Line.text =
      ["nop", "br.s 0001", "call 0x0a000001", "ret"] := by decide +kernel
  have hfloat : ∀ i ∈ (decodeAll .bare code).instrs.toList, i.opcode.mnemonic ∉ ["ldc.r4", "ldc.r8"] := by
    decide +kernel
  refine ⟨code, ⟨_, hlisting, hlines⟩, ?_⟩
  rintro code' ⟨lines, h, htexts⟩
  exact (listing_determines_code hlisting h hfloat (hlines.trans htexts.symm)).symm

end Cil
