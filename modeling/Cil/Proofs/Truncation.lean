import Cil.Proofs.Tiling

/-! Code that is cut short.

What a decoder gives never depends on bytes behind the instruction that it decodes.
Cut anywhere, code gives the instructions that the cut leaves whole, and then, if
the cut falls between two instructions, nothing more. Otherwise it gives one
error where they end: the code is truncated there, or it has the error that the
whole code has there. So an error that is not about truncation stays what it is
however the code goes on (`decodeAll_cut`). -/
namespace Cil

open Bytes

/-! ### One instruction -/

namespace Instr

variable {r : Resolver} {address : Nat} {bytes more : List UInt8} {i : Instr}

/-- An instruction that lies in the front of the bytes needs only those. -/
theorem ofBytes_of_size_le (h : ofBytes r address (bytes ++ more) = .ok i)
    (hsize : i.size ≤ bytes.length) : ofBytes r address bytes = .ok i := by
  obtain ⟨operandBytes, hfetch, hoperand, haddress, hsize'⟩ := ofBytes_eq_ok.1 h
  obtain ⟨hmem, hlen, hpre⟩ := fetch_eq_ok.1 hfetch
  have hlength : (i.opcode.toBytes ++ operandBytes).length ≤ bytes.length := by
    rw [List.length_append, Opcode.length_toBytes, hlen]
    rw [hsize', Opcode.size] at hsize
    exact hsize
  have hfront := List.prefix_of_prefix_length_le hpre (List.prefix_append bytes more) hlength
  exact ofBytes_eq_ok.2 ⟨operandBytes, fetch_eq_ok.2 ⟨hmem, hlen, hfront⟩, hoperand, haddress, hsize'⟩

/-- An instruction that goes beyond the front of the bytes is truncated in it. -/
theorem ofBytes_of_lt_size (h : ofBytes r address (bytes ++ more) = .ok i)
    (hsize : bytes.length < i.size) : ofBytes r address bytes = .error .truncated := by
  by_contra hne
  rw [ofBytes_append hne] at h
  obtain ⟨hpre, hlen⟩ := encode_isPrefix h
  have hle := hpre.length_le
  omega

/-- An error stays in the front of the bytes, unless that is truncated. -/
theorem ofBytes_of_error {e : Error} (h : ofBytes r address (bytes ++ more) = .error e) :
    ofBytes r address bytes = .error e ∨ ofBytes r address bytes = .error .truncated := by
  by_cases hne : ofBytes r address bytes = .error .truncated
  · exact .inr hne
  · rw [ofBytes_append hne] at h
    exact .inl h

end Instr

/-! ### Many instructions -/

/-- Where the last of the instructions ends; without any, the start. -/
def Instr.endOf (start : Nat) (is : List Instr) : Nat := (is.getLast?.map Instr.next).getD start

theorem Instr.endOf_cons (start : Nat) (i : Instr) (rest : List Instr) :
    endOf start (i :: rest) = endOf i.next rest := by
  rw [endOf, endOf, List.getLast?_cons]
  cases rest.getLast? <;> rfl

/-- How code ends that is cut at `n`, if the whole code gives `is` and then `failure` at `stop`. -/
inductive CutEnd (n : Nat) (is : List Instr) (failure : Option Error) (stop : Nat) :
    Option Error → Nat → Prop where
  /-- The cut falls between two instructions. -/
  | between : CutEnd n is failure stop none n
  /-- The cut falls inside an instruction of the whole code. -/
  | inside {i : Instr} : i ∈ is → i.address < n →
    CutEnd n is failure stop (some (.decode i.address .truncated)) i.address
  /-- The cut falls behind the place where the whole code fails. -/
  | behind {e e' : Error} : failure = some e → stop < n → e' = e ∨ e' = .decode stop .truncated →
    CutEnd n is failure stop (some e') stop

theorem CutEnd.cons {n stop stop' : Nat} {is : List Instr} {failure failure' : Option Error}
    (h : CutEnd n is failure stop failure' stop') (i : Instr) :
    CutEnd n (i :: is) failure stop failure' stop' := by
  cases h with
  | between => exact .between
  | inside hmem hlt => exact .inside (List.mem_cons_of_mem i hmem) hlt
  | behind hfailure hlt he => exact .behind hfailure hlt he

namespace Trace

variable {r : Resolver} {code front more : ByteArray} {pos stop : Nat} {is : List Instr}
  {failure : Option Error}

theorem stop_eq_endOf (h : Trace r code pos is failure stop) (hsize : code.size ≤ maxAddress)
    (hpos : pos ≤ code.size) : stop = Instr.endOf pos is := by
  induction h with
  | ended => rfl
  | failed => rfl
  | step hsome _ ih =>
    obtain ⟨⟨_, _, hdecoded⟩, _⟩ := Instr.decodeNext_eq_some.1 hsome
    rw [ih (Instr.end_le_size hdecoded hpos), Instr.endOf_cons, Instr.next_of_ofBytes hsize hpos hdecoded]

/-- No instruction of a trace ends at or before its start. -/
theorem filter_eq_nil (h : Trace r code pos is failure stop) (hsize : code.size ≤ maxAddress)
    {n : Nat} (hn : n ≤ pos) : is.filter (·.next ≤ n) = [] := by
  rw [List.filter_eq_nil_iff]
  intro i hi
  obtain ⟨hle, hlt, hdecoded⟩ := h.decoded i hi
  have hpos := Instr.size_pos_of_ofBytes hdecoded
  rw [Instr.next_of_ofBytes hsize (Nat.le_of_lt hlt) hdecoded]
  simp only [decide_eq_true_eq]
  omega

/-- Cut code gives the instructions that the cut leaves whole. -/
theorem cut (h : Trace r (front ++ more) pos is failure stop)
    (hsize : (front ++ more).size ≤ maxAddress) (hpos : pos ≤ front.size) :
    ∃ failure' stop', Trace r front pos (is.filter (·.next ≤ front.size)) failure' stop' ∧
      CutEnd front.size is failure stop failure' stop' := by
  have hfront : front.size ≤ maxAddress := by
    rw [ByteArray.size_append] at hsize
    omega
  induction h with
  | @ended pos hnone =>
    have hend := Instr.decodeNext_eq_none.1 hnone
    rw [ByteArray.size_append] at hend
    obtain rfl : pos = front.size := by omega
    exact ⟨none, front.size, .ended (Instr.decodeNext_eq_none.2 (Nat.le_refl _)), .between⟩
  | @failed pos e herror =>
    obtain ⟨_, cause, hcause, rfl⟩ := (Instr.decodeNext_eq_error hsize).1 herror
    rw [ahead_append front more hpos] at hcause
    rcases Nat.eq_or_lt_of_le hpos with rfl | hlt
    · exact ⟨none, front.size, .ended (Instr.decodeNext_eq_none.2 (Nat.le_refl _)), .between⟩
    · rcases Instr.ofBytes_of_error hcause with hsame | hshort
      · exact ⟨_, pos, .failed ((Instr.decodeNext_eq_error hfront).2 ⟨hlt, cause, hsame, rfl⟩),
          .behind rfl hlt (.inl rfl)⟩
      · exact ⟨_, pos, .failed ((Instr.decodeNext_eq_error hfront).2 ⟨hlt, _, hshort, rfl⟩),
          .behind rfl hlt (.inr rfl)⟩
  | @step pos i rest failure stop hsome htail ih =>
    obtain ⟨⟨hmore, haddr, hdecoded⟩, _⟩ := Instr.decodeNext_eq_some.1 hsome
    have haddress := Instr.address_of_ofBytes hdecoded
    have hone := Instr.size_pos_of_ofBytes hdecoded
    have hnext := Instr.next_of_ofBytes hsize (Nat.le_of_lt hmore) hdecoded
    rw [ahead_append front more hpos] at hdecoded
    by_cases hwhole : pos + i.size ≤ front.size
    · -- the cut leaves this instruction whole, and what follows is cut in the same place
      obtain ⟨failure', stop', htrace, hcut⟩ := ih hwhole
      have hsome' := Instr.decodeNext_eq_some.2
        ⟨⟨show pos < front.size by omega, haddr,
          Instr.ofBytes_of_size_le hdecoded (by rw [length_ahead]; omega)⟩, rfl⟩
      rw [List.filter_cons_of_pos (by rw [hnext]; exact decide_eq_true hwhole)]
      exact ⟨failure', stop', .step hsome' htrace, hcut.cons i⟩
    · rw [List.filter_cons_of_neg (by rw [hnext]; simpa using hwhole),
        htail.filter_eq_nil hsize (Nat.le_of_lt (Nat.lt_of_not_le hwhole))]
      rcases Nat.eq_or_lt_of_le hpos with rfl | hlt
      · exact ⟨none, front.size, .ended (Instr.decodeNext_eq_none.2 (Nat.le_refl _)), .between⟩
      · have hshort := Instr.ofBytes_of_lt_size hdecoded (by rw [length_ahead]; omega)
        have hinside : CutEnd front.size (i :: rest) failure stop _ _ :=
          .inside (List.mem_cons_self ..) (by omega)
        rw [haddress] at hinside
        exact ⟨_, pos, .failed ((Instr.decodeNext_eq_error hfront).2 ⟨hlt, _, hshort, rfl⟩), hinside⟩

end Trace

/-! ### Runs -/

/-- Where the last instruction of a run ends. -/
def Run.lastEnd (run : Run) : Nat := Instr.endOf 0 run.instrs.toList

/-- How the run of code that is cut at `n` follows from the run of the whole code. -/
structure Truncation (whole cut : Run) (n : Nat) : Prop where
  kept : cut.instrs.toList = whole.instrs.toList.filter (·.next ≤ n)
  /-- Cut where an instruction ends, the code has no error. -/
  between : cut.lastEnd = n → cut.failure = none
  /-- Cut elsewhere it has one, where an instruction of the whole code starts or where the
  whole code fails. -/
  place : cut.lastEnd ≠ n → (∃ i ∈ whole.instrs.toList, i.address = cut.lastEnd) ∨
    ∃ e, whole.failure = some e ∧ e.address? = some cut.lastEnd
  inside : cut.lastEnd ≠ n → (∃ i ∈ whole.instrs.toList, i.address = cut.lastEnd) →
    cut.failure = some (.decode cut.lastEnd .truncated)
  behind : cut.lastEnd ≠ n → ∀ e, whole.failure = some e → e.address? = some cut.lastEnd →
    cut.failure = some e ∨ cut.failure = some (.decode cut.lastEnd .truncated)

theorem truncation_append (r : Resolver) (front more : ByteArray)
    (hsize : (front ++ more).size ≤ maxAddress) :
    Truncation (decodeAll r (front ++ more)) (decodeAll r front) front.size := by
  have hfront : front.size ≤ maxAddress := by
    rw [ByteArray.size_append] at hsize
    omega
  obtain ⟨is, failure, stop, hwhole⟩ := Trace.exists r (front ++ more) 0
  obtain ⟨failure', stop', hcut, hend⟩ := hwhole.cut hsize (Nat.zero_le _)
  have hlast : (decodeAll r front).lastEnd = stop' := by
    rw [decodeAll_eq hcut]
    exact (hcut.stop_eq_endOf hfront (Nat.zero_le _)).symm
  have hwholeIs : (decodeAll r (front ++ more)).instrs.toList = is := by rw [decodeAll_eq hwhole]
  have hwholeError : (decodeAll r (front ++ more)).failure = failure := by rw [decodeAll_eq hwhole]
  have hcutIs : (decodeAll r front).instrs.toList = is.filter (·.next ≤ front.size) := by
    rw [decodeAll_eq hcut]
  have hcutError : (decodeAll r front).failure = failure' := by rw [decodeAll_eq hcut]
  have hkept : (decodeAll r front).instrs.toList =
      (decodeAll r (front ++ more)).instrs.toList.filter (·.next ≤ front.size) := by
    rw [hcutIs, hwholeIs]
  cases hend with
  | between =>
    exact ⟨hkept, fun _ => hcutError, fun h => absurd hlast h, fun h => absurd hlast h,
      fun h => absurd hlast h⟩
  | @inside i hmem hlt =>
    refine ⟨hkept, fun h => absurd (hlast.symm.trans h) (Nat.ne_of_lt hlt), fun _ => .inl ?_, ?_, ?_⟩
    · exact ⟨i, by rw [hwholeIs]; exact hmem, hlast.symm⟩
    · intro _ _
      rw [hcutError, hlast]
    · intro _ e _ _
      rw [hcutError, hlast]
      exact .inr rfl
  | @behind e e' hfailure hlt he =>
    obtain ⟨_, cause, _, rfl, _⟩ := (hfailure ▸ hwhole).failure_eq hsize
    refine ⟨hkept, fun h => absurd (hlast.symm.trans h) (Nat.ne_of_lt hlt), fun _ => .inr ?_, ?_, ?_⟩
    · exact ⟨_, by rw [hwholeError, hfailure], by rw [hlast]; rfl⟩
    · rintro _ ⟨i, hi, haddress⟩
      -- the whole code fails behind all of its instructions
      rw [hwholeIs] at hi
      have hbefore := hwhole.end_le_stop i hi
      have hone := Instr.size_pos_of_ofBytes (hwhole.decoded i hi).2.2
      omega
    · intro _ e hsome _
      rw [hwholeError, hfailure] at hsome
      rw [hcutError, hlast, ← Option.some.inj hsome]
      exact he.imp (congrArg some) (congrArg some)

/-- An error that is not about truncation is there however the code goes on. -/
theorem failure_append (r : Resolver) (front more : ByteArray) {e : Error}
    (hsize : (front ++ more).size ≤ maxAddress) (hfailure : (decodeAll r front).failure = some e)
    (hcause : e.cause ≠ .truncated) :
    (decodeAll r (front ++ more)).instrs = (decodeAll r front).instrs ∧
      (decodeAll r (front ++ more)).failure = some e := by
  obtain ⟨is, failure, stop, hwhole⟩ := Trace.exists r (front ++ more) 0
  obtain ⟨failure', stop', hcut, hend⟩ := hwhole.cut hsize (Nat.zero_le _)
  rw [decodeAll_eq hcut] at hfailure ⊢
  rw [decodeAll_eq hwhole]
  cases hend with
  | between => cases hfailure
  | inside =>
    cases hfailure
    exact absurd rfl hcause
  | @behind e₀ e' hfails hlt he =>
    cases hfailure
    rcases he with rfl | rfl
    · have hall : is.filter (·.next ≤ front.size) = is := by
        rw [List.filter_eq_self]
        intro i hi
        have hbefore := hwhole.end_le_stop i hi
        have hnext : i.next ≤ i.address + i.size := Nat.min_le_left ..
        exact decide_eq_true (by omega)
      exact ⟨congrArg List.toArray hall.symm, hfails⟩
    · exact absurd rfl hcause

theorem Bytes.extract_append (data : ByteArray) {n : Nat} (h : n ≤ data.size) :
    data.extract 0 n ++ data.extract n data.size = data := by
  rw [← ByteArray.extract_eq_extract_append_extract n (Nat.zero_le _) h, ByteArray.extract_zero_size]

/-- **What is decoded does not depend on what follows.** Code that is cut anywhere gives the
instructions that the cut leaves whole, and an error only if the cut is not where one of
them ends: that of truncated code, or the one that the whole code has there. An error that
is not about truncation stays the same, after the same instructions, whatever follows. -/
theorem decodeAll_cut (r : Resolver) (code : ByteArray) :
    (∀ n, code.size ≤ maxAddress → n ≤ code.size →
      Truncation (decodeAll r code) (decodeAll r (code.extract 0 n)) n) ∧
    (∀ more e, (code ++ more).size ≤ maxAddress → (decodeAll r code).failure = some e →
      e.cause ≠ .truncated →
        (decodeAll r (code ++ more)).instrs = (decodeAll r code).instrs ∧
          (decodeAll r (code ++ more)).failure = some e) := by
  constructor
  · intro n hsize hn
    have hparts := extract_append code hn
    have hcut := truncation_append r (code.extract 0 n) (code.extract n code.size)
      (by rw [hparts]; exact hsize)
    have hlength : (code.extract 0 n).size = n := by
      rw [ByteArray.size_extract]
      omega
    rw [hparts, hlength] at hcut
    exact hcut
  · intro more e hsize hfailure hcause
    exact failure_append r code more hsize hfailure hcause

/-- `nop` and a branch to before the start: cut inside the branch, and followed by `ret`. -/
theorem decodeAll_cut_branch :
    let code : ByteArray := ⟨#[0x00, 0x2B, 0xF0]⟩
    let e : Error := .decode 1 (.malformed (.branchOutOfRange (-13)))
    Truncation (decodeAll .bare code) (decodeAll .bare (code.extract 0 2)) 2 ∧
      (decodeAll .bare code).failure = some e ∧
      (decodeAll .bare (code ++ ⟨#[0x2A]⟩)).failure = some e := by
  intro code e
  have hfailure : (decodeAll .bare code).failure = some e := by decide +kernel
  obtain ⟨hcut, hmore⟩ := decodeAll_cut .bare code
  refine ⟨hcut 2 (by decide) (by decide), hfailure, ?_⟩
  exact (hmore ⟨#[0x2A]⟩ e (by decide) hfailure nofun).2

end Cil
