import Cil.Instr.Decode
import Cil.Instr.Encode
import Cil.Proofs.Resolution

/-! Operands and their bytes.

An operand read from the bytes of its kind is written as those bytes again
(`toBytes_ofBytes`), with metadata and without. Without metadata every operand
that has the shape of its kind is read back from what it is written as
(`ofBytes_toBytes`); only the kind that takes members as well as types is never
read. What shape that is follows from what a kind tells of itself (`Fits`), and not
from the form in which its bytes are read. -/
namespace Cil

open Bytes

/-! ### Signed numbers -/

namespace Scalar

/-- Bits from the half of the capacity on count as negative. -/
theorem toInt_bits (s : Scalar) :
    s.bits.toInt = if 2 * s.bits.toNat < capacity s.format.width then (s.bits.toNat : Int)
      else (s.bits.toNat : Int) - capacity s.format.width := by
  obtain ⟨f, bits⟩ := s
  cases f <;> exact BitVec.toInt_eq_toNat_cond bits

/-- The signed value and the bits agree up to the capacity. -/
theorem toInt_emod (s : Scalar) :
    s.bits.toInt % capacity s.format.width = (s.bits.toNat : Int) := by
  have hlt := s.toNat_lt
  rw [toInt_bits]
  split
  · exact Int.emod_eq_of_lt (by omega) (by omega)
  · rw [Int.sub_emod_right]
    exact Int.emod_eq_of_lt (by omega) (by omega)

/-- A displacement that fits is read back from its bytes. -/
theorem toInt_ofBytes_toLE (f : Format) (d : Int) (hlow : -(capacity f.width : Int) ≤ 2 * d)
    (hhigh : 2 * d < capacity f.width) :
    (ofBytes f (toLE f.width (d % capacity f.width).toNat)).bits.toInt = d := by
  have hbits := toNat_ofBytes f (toLE f.width (d % capacity f.width).toNat)
  rw [ofLE_toLE, Nat.mod_mod] at hbits
  rw [toInt_bits, hbits]
  show (if 2 * _ < capacity f.width then _ else _ - (capacity f.width : Int)) = d
  by_cases hd : 0 ≤ d
  · rw [Int.emod_eq_of_lt hd (by omega), Nat.mod_eq_of_lt (by omega), if_pos (by omega)]
    omega
  · rw [Int.emod_eq_add_self_emod, Int.emod_eq_of_lt (by omega) (by omega),
      Nat.mod_eq_of_lt (by omega), if_neg (by omega)]
    omega

end Scalar

/-! ### Tokens -/

theorem Token.toLE_ofLE {bytes : List UInt8} (h : bytes.length = 4) :
    toLE 4 (UInt32.ofNat (ofLE bytes)).toNat = bytes := by
  have hlt := ofLE_lt bytes
  rw [h] at hlt
  have hvalue : (UInt32.ofNat (ofLE bytes)).toNat = ofLE bytes := Nat.mod_eq_of_lt hlt
  rw [hvalue, ← h, Bytes.toLE_ofLE]

theorem Token.ofLE_toLE (t : Token) : (⟨UInt32.ofNat (ofLE (toLE 4 t.value.toNat))⟩ : Token) = t := by
  have hlt : t.value.toNat < capacity 4 := t.value.toNat_lt
  rw [Bytes.ofLE_toLE, Nat.mod_eq_of_lt hlt, UInt32.ofNat_toNat]

/-! ### Operands -/

theorem branchTarget_eq_ok {next address : Nat} {d : Int} :
    branchTarget next d = .ok address ↔ (address : Int) = next + d ∧ address ≤ maxAddress := by
  unfold branchTarget
  simp only
  split
  · next hrange =>
    rw [Except.ok.injEq]
    omega
  · next hrange =>
    constructor
    · nofun
    · intro h
      omega

/-! ### Operands and their kinds -/

namespace OperandKind

/-- The numbers that the literals of a kind are. -/
def literal? : OperandKind → Option Scalar.Format
  | int8 => some .int8
  | int32 => some .int32
  | int64 => some .int64
  | float32 => some .float32
  | float64 => some .float64
  | varIndex8 => some .uint8
  | varIndex16 => some .uint16
  | switchTable => some .uint32
  | _ => Option.none

theorem literal?_eq_some {k : OperandKind} {f : Scalar.Format} :
    k.literal? = some f ↔ k.form = .literal f := by
  cases k <;> simp [literal?, form]

theorem form_eq_none {k : OperandKind} : k.form = .none ↔ k = .none := by
  cases k <;> simp [form]

/-- Once the form of a kind is known, so is its width. -/
theorem width_of_form {k : OperandKind} {form : Form} (h : k.form = form) : k.width = form.width := by
  rw [← h, width_form]

end OperandKind

namespace Operand

open OperandKind

/-- The shapes of the kinds: a literal in the format of its kind, a branch whose
displacement fits the bytes of its kind, a token of an accepted table. -/
def Fits (kind : OperandKind) (next : Nat) : Operand → Prop
  | none => kind = .none
  | immediate value => kind.literal? = some value.format
  | target address => kind.isBranch = true ∧ address ≤ maxAddress ∧
      -(capacity kind.width : Int) ≤ 2 * ((address : Int) - next) ∧
      2 * ((address : Int) - next) < capacity kind.width
  | token t => kind.isToken = true ∧ ∃ table ∈ kind.accepted, t.table? = some table
  | symbol _ => False

theorem ofBytes_eq (r : Resolver) (kind : OperandKind) (next : Nat) (bytes : List UInt8) :
    ofBytes r kind next bytes =
      match kind.form with
      | .none => .ok .none
      | .branch f => do return .target (← branchTarget next (Scalar.ofBytes f bytes).bits.toInt)
      | .literal f => .ok (.immediate (.ofBytes f bytes))
      | .token => r.operand kind ⟨UInt32.ofNat (ofLE bytes)⟩ := rfl

/-- A token is written by its value, resolved or not. -/
theorem toBytes_of_token? {operand : Operand} {t : Token} (h : operand.token? = some t)
    (kind : OperandKind) (next : Nat) : operand.toBytes kind next = toLE 4 t.value.toNat := by
  cases operand with
  | symbol sym =>
    cases h
    rfl
  | token t' =>
    cases h
    rfl
  | _ => cases h

theorem toBytes_ofBytes {r : Resolver} {kind : OperandKind} {next : Nat} {bytes : List UInt8}
    {operand : Operand} (hlen : bytes.length = kind.width)
    (h : ofBytes r kind next bytes = .ok operand) : operand.toBytes kind next = bytes := by
  rw [ofBytes_eq] at h
  split at h
  · next hform =>
    cases h
    rw [width_of_form hform] at hlen
    exact (List.length_eq_zero_iff.1 hlen).symm
  · next f hform =>
    have hwidth : kind.width = f.width := width_of_form hform
    obtain ⟨address, htarget, hpure⟩ := bind_eq_ok.1 h
    cases hpure
    obtain ⟨hsum, _⟩ := branchTarget_eq_ok.1 htarget
    have hdisplacement : (address : Int) - next = (Scalar.ofBytes f bytes).bits.toInt := by omega
    have hbits := (Scalar.ofBytes f bytes).toInt_emod
    rw [toBytes, hwidth, hdisplacement, show f.width = (Scalar.ofBytes f bytes).format.width from rfl, hbits]
    exact Scalar.toBytes_ofBytes f (hlen.trans hwidth)
  · next f hform =>
    cases h
    exact Scalar.toBytes_ofBytes f (hlen.trans (width_of_form hform))
  · next hform =>
    rw [toBytes_of_token? (Resolver.token?_of_operand h)]
    exact Token.toLE_ofLE (hlen.trans (width_of_form hform))

theorem length_toBytes {kind : OperandKind} {next : Nat} {operand : Operand}
    (h : operand.Fits kind next) : (operand.toBytes kind next).length = kind.width := by
  cases operand with
  | none =>
    have hkind : kind = .none := h
    rw [hkind]
    rfl
  | immediate value =>
    have hform := literal?_eq_some.1 h
    rw [toBytes, Scalar.length_toBytes, width_of_form hform]
    rfl
  | target address => rw [toBytes, length_toLE]
  | token t =>
    have hform := isToken_iff.1 h.1
    rw [toBytes, length_toLE, width_of_form hform]
    rfl
  | symbol sym => exact h.elim

theorem ofBytes_toBytes {kind : OperandKind} {next : Nat} {operand : Operand}
    (h : operand.Fits kind next) (hkind : kind ≠ .genericToken) :
    ofBytes .bare kind next (operand.toBytes kind next) = .ok operand := by
  cases operand with
  | none =>
    have hkind : kind = .none := h
    rw [hkind]
    rfl
  | immediate value =>
    have hform := literal?_eq_some.1 h
    simp only [ofBytes_eq, toBytes, hform, Scalar.ofBytes_toBytes]
  | target address =>
    obtain ⟨hbranch, haddress, hlow, hhigh⟩ := h
    obtain ⟨f, hform⟩ := isBranch_iff.1 hbranch
    have hwidth : kind.width = f.width := width_of_form hform
    have htarget : branchTarget next ((address : Int) - next) = .ok address :=
      branchTarget_eq_ok.2 ⟨by omega, haddress⟩
    rw [hwidth] at hlow hhigh
    rw [toBytes, hwidth]
    simp only [ofBytes_eq, hform, Scalar.toInt_ofBytes_toLE f _ hlow hhigh, htarget]
    rfl
  | token t =>
    obtain ⟨htoken, table, hmem, htable⟩ := h
    have hform := isToken_iff.1 htoken
    have hcheck : Resolver.check kind t = .ok table := Resolver.check_eq_ok.2 ⟨htable, hmem⟩
    simp only [ofBytes_eq, toBytes, hform, Token.ofLE_toLE, Resolver.operand_bare hkind, hcheck]
    rfl
  | symbol sym => exact h.elim

/-- What can be wrong with an operand: a branch that leaves the address space, a token of a
table that is not accepted, and a token that is not or cannot be resolved. -/
theorem ofBytes_error {r : Resolver} {kind : OperandKind} {next : Nat} {bytes : List UInt8} {e : Error}
    (h : ofBytes r kind next bytes = .error e) :
    (∃ tableByte, e = .unsupportedToken tableByte) ∨ e = .noMetadata ∨ e.Unresolved := by
  rw [ofBytes_eq] at h
  split at h
  · cases h
  · rcases bind_eq_error.1 h with htarget | ⟨_, _, hpure⟩
    · unfold branchTarget at htarget
      simp only at htarget
      split at htarget
      · cases htarget
      · cases htarget
        exact .inr (.inr trivial)
    · cases hpure
  · cases h
  · rcases Resolver.operand_error h with rfl | hrest
    · exact .inl ⟨_, rfl⟩
    · exact .inr hrest

end Operand
end Cil
