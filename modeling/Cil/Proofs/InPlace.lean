import Cil.Proofs.Motion

/-! Reading in place.

A reading moves its cursor as it goes, and what goes wrong finds the cursor where it
has got to. Positions are words, which go up to some `limit`: a sum beyond it, a
difference below zero or an index outside of the buffer is a trap, and ends more than
the reading. So a compressed number goes back by hand when its bytes end, and an
instruction is read with a copy of the cursor.

Inside a buffer whose size is a word none of this is ever seen: every request gets the
answer that it gets from a cursor that moves only when it succeeds (`run_ofRequest`),
and so does every series of requests (`answers_eq`). -/
namespace Cil

open Bytes

/-! ### The opcode and what follows it -/

theorem Opcode.toBytes_ne_nil (op : Opcode) : op.toBytes ≠ [] := by
  apply List.ne_nil_of_length_pos
  rw [Opcode.length_toBytes, Opcode.codeWidth]
  split <;> omega

theorem Opcode.size_le (op : Opcode) : op.size ≤ 10 := by
  have hcode : op.codeWidth ≤ 2 := by
    unfold Opcode.codeWidth
    split <;> omega
  have hkind : op.kind.width ≤ 8 := by cases op.kind <;> decide
  rw [Opcode.size]
  omega

/-- What is decoded once the opcode is known. -/
theorem Instr.decodeAtIn_of_code (symbols : Option Symbols) {data : ByteArray} {pos : Nat} {op : Opcode}
    (hcode : codeAt data pos = .ok op.code) (hop : op ∈ Opcode.catalogue) :
    decodeAtIn symbols data pos = match window? data (pos + op.codeWidth) op.kind.width with
      | none => .error .truncated
      | some bytes => (Operand.ofBytesIn symbols op.kind (pos + op.size) (octets bytes)).map fun operand =>
          { address := pos, size := op.size, opcode := op, operand } := by
  simp only [decodeAtIn, hcode, bind, Except.bind, Opcode.lookup_of_mem hop]
  cases window? data (pos + op.codeWidth) op.kind.width with
  | none => rfl
  | some bytes =>
    dsimp only
    cases Operand.ofBytesIn symbols op.kind (pos + op.size) (octets bytes) <;> rfl

/-! ### Reading with one cursor -/

/-- A computation that moves a cursor and may fail, wherever that leaves the cursor. It may also
trap, which leaves nothing. -/
abbrev Reading := ExceptT Error (StateT Cursor Option)

namespace Reading

/-! ### Words -/

variable {α β : Type}

def trap : Reading α := fun _ => none

variable (limit : Nat)

/-- The sum of two words. -/
def sum (a b : Nat) : Reading Nat := if a + b ≤ limit then pure (a + b) else trap

/-- The difference of two words. -/
def difference (a b : Nat) : Reading Nat := if b ≤ a then pure (a - b) else trap

/-- The bytes from one index to another. -/
def between (data : ByteArray) (start stop : Nat) : Reading ByteArray :=
  if start ≤ stop ∧ stop ≤ data.size then pure (data.extract start stop) else trap

/-- The greatest signed number of 64 bits. -/
def maxSigned : Nat := 0x7FFFFFFFFFFFFFFF

/-- No displacement is further from zero. -/
def maxDisplacement : Nat := 0x80000000

def moveTo (pos : Nat) : Reading Unit := modify fun c => { c with pos }

/-! ### Readings -/

/-- The next bytes. -/
def take (count : Nat) : Reading ByteArray := do
  let c ← get
  let left ← difference c.data.size c.pos
  if count ≤ left then
    let stop ← sum limit c.pos count
    let bytes ← between c.data c.pos stop
    moveTo stop
    return bytes
  else throw .outOfBounds

/-- The next number of a format. Its sum is checked. -/
def scalar (f : Scalar.Format) : Reading Scalar := do
  let c ← get
  if c.pos + f.width ≤ limit then
    match window? c.data c.pos f.width with
    | some bytes =>
      moveTo (c.pos + f.width)
      return .ofBytes f (octets bytes)
    | none => throw .outOfBounds
  else throw .outOfBounds

/-- The next byte. -/
def byte : Reading UInt8 := do
  let value ← scalar limit .uint8
  return UInt8.ofNat value.bits.toNat

/-- The rest of the compressed number that started at `start` with the byte `lead`. -/
def behindLead (start : Nat) (lead : UInt8) : Reading Nat :=
  match Compressed.Form.ofLead? lead with
  | none => throw (.malformed (.compressedLead lead.toNat start))
  | some form => do
    let rest ← take limit (form.width - 1)
    return ofBE (lead :: octets rest) - form.mark

/-- The next compressed number. Its first byte is behind the cursor when the rest fails. -/
def compressed : Reading Nat := do
  let c ← get
  let lead ← byte limit
  tryCatch (behindLead limit c.pos lead) fun e => do
    moveTo c.pos
    throw e

/-- The reading, with one error for all that it may fail with. -/
def orTruncated (x : Reading α) : Reading α := tryCatch x fun _ => throw .truncated

/-- The code of the next opcode. -/
def code : Reading Nat := do
  let first ← orTruncated (byte limit)
  if first.toNat = escapeByte then
    let second ← orTruncated (byte limit)
    return 256 * escapeByte + second.toNat
  else return first.toNat

/-- The rest of the instruction at `start`, behind the code of its opcode. -/
def behindCode (symbols : Option Symbols) (start : Nat) (opcode : Opcode) : Reading Instr := do
  let bytes ← orTruncated (take limit opcode.kind.width)
  let behind ← get
  -- a branch adds its displacement to this, and both are signed
  let _ ← sum maxSigned behind.pos maxDisplacement
  let operand ← liftM (Operand.ofBytesIn symbols opcode.kind behind.pos (octets bytes))
  let size ← difference behind.pos start
  return { address := start, size, opcode, operand }

/-- The next instruction, wherever the cursor is when it fails. -/
def instrHere (symbols : Option Symbols) : Reading Instr := do
  let c ← get
  let code ← code limit
  let opcode ← liftM (Opcode.lookup code)
  behindCode limit symbols c.pos opcode

/-- Reads with a copy of the cursor, and gives the answer with the copy. -/
def onCopy (x : Reading α) : Reading (Except Error α × Cursor) :=
  fun c => (x.run c).map fun given => (.ok given, c)

/-- The next instruction, or nothing at the end. The copy takes the cursor's place once it is
behind the instruction. -/
def instr (symbols : Option Symbols) : Reading (Option Instr) := do
  let c ← get
  if c.hasMore then
    if c.pos ≤ maxAddress then
      match ← onCopy (instrHere limit symbols) with
      | (.ok i, copy) =>
        set copy
        return some i
      | (.error e, _) => throw (e.located c.pos)
    else throw (.malformed (.addressTooLarge c.pos))
  else return none

open Cursor (Request Reply)

def ofRequest : Request → Reading Reply
  | .scalar f => .scalar <$> scalar limit f
  | .bytes count => .bytes <$> take limit count
  | .compressed => .number <$> compressed limit
  | .seek pos => do
    let c ← get
    if pos ≤ c.data.size then
      moveTo pos
      return .moved
    else throw .outOfBounds
  | .reset => do
    moveTo 0
    return .moved
  | .instr symbols => .instr <$> instr limit symbols
  | .data => do
    let c ← get
    return .data c.data

/-- The answers to a series of requests, unless one of them traps. -/
def answers (c : Cursor) : List Request → Option (List (Except Error Reply × Cursor))
  | [] => some []
  | q :: rest => do
    let given ← (ofRequest limit q).run c
    return given :: (← answers given.2 rest)

/-! ### Running a reading -/

section
variable {x : Reading α} {f : α → Reading β} {c c' : Cursor}

theorem run_bind_ok {a : α} (h : x.run c = some (.ok a, c')) : (x >>= f).run c = (f a).run c' := by
  show (x.run c).bind (fun given => ExceptT.bindCont f given.1 given.2) = _
  rw [h]
  rfl

theorem run_bind_error {e : Error} (h : x.run c = some (.error e, c')) :
    (x >>= f).run c = some (.error e, c') := by
  show (x.run c).bind (fun given => ExceptT.bindCont f given.1 given.2) = _
  rw [h]
  rfl

theorem run_tryCatch_ok {a : α} (h : x.run c = some (.ok a, c')) (handle : Error → Reading α) :
    (tryCatch x handle).run c = some (.ok a, c') := by
  show (x.run c).bind _ = _
  rw [h]
  rfl

theorem run_tryCatch_error {e : Error} (h : x.run c = some (.error e, c')) (handle : Error → Reading α) :
    (tryCatch x handle).run c = (handle e).run c' := by
  show (x.run c).bind _ = _
  rw [h]
  rfl

theorem run_get (c : Cursor) : (get : Reading Cursor).run c = some (.ok c, c) := rfl

theorem run_pure (a : α) (c : Cursor) : (pure a : Reading α).run c = some (.ok a, c) := rfl

theorem run_throw (e : Error) (c : Cursor) : (throw e : Reading α).run c = some (.error e, c) := rfl

theorem run_moveTo (pos : Nat) (c : Cursor) : (moveTo pos).run c = some (.ok (), { c with pos }) := rfl

theorem run_liftM (y : Except Error α) (c : Cursor) : (liftM y : Reading α).run c = some (y, c) := by
  cases y <;> rfl

theorem run_map (g : α → β) (x : Reading α) (c : Cursor) :
    (g <$> x).run c = (x.run c).map fun given => (given.1.map g, given.2) := by
  show (x.run c).bind _ = _
  rcases x.run c with _ | ⟨_ | a, c'⟩ <;> rfl

theorem run_orTruncated_ok {a : α} (h : x.run c = some (.ok a, c')) :
    (orTruncated x).run c = some (.ok a, c') :=
  run_tryCatch_ok h _

theorem run_orTruncated_error {e : Error} (h : x.run c = some (.error e, c')) :
    (orTruncated x).run c = some (.error .truncated, c') :=
  run_tryCatch_error h _

theorem run_onCopy (x : Reading α) (c : Cursor) :
    (onCopy x).run c = (x.run c).map fun given => (.ok given, c) := rfl

theorem run_sum {limit a b : Nat} (h : a + b ≤ limit) (c : Cursor) :
    (sum limit a b).run c = some (.ok (a + b), c) := by
  rw [sum, if_pos h, run_pure]

theorem run_difference {a b : Nat} (h : b ≤ a) (c : Cursor) :
    (difference a b).run c = some (.ok (a - b), c) := by
  rw [difference, if_pos h, run_pure]

theorem run_between {data : ByteArray} {start stop : Nat} (hstart : start ≤ stop) (hstop : stop ≤ data.size)
    (c : Cursor) : (between data start stop).run c = some (.ok (data.extract start stop), c) := by
  rw [between, if_pos ⟨hstart, hstop⟩, run_pure]

end

/-! ### No reading traps -/

/-- What is answered, and the cursor afterwards, if only success moves it. -/
def settled (c : Cursor) : Except Error (α × Cursor) → Except Error α × Cursor
  | .ok (a, c') => (.ok a, c')
  | .error e => (.error e, c)

/-- A window is its first byte and a window behind that. -/
theorem window?_succ {data : ByteArray} {pos : Nat} {b : UInt8} (h : byte? data pos = some b) (count : Nat) :
    (window? data pos (count + 1)).map octets =
      (window? data (pos + 1) count).map fun rest => b :: octets rest := by
  cases hrest : window? data (pos + 1) count with
  | none =>
    have hshort := window?_eq_none.1 hrest
    rw [window?_eq_none.2 (by omega)]
    rfl
  | some rest =>
    have hfits := (window?_eq_some.1 hrest).1
    have hw : window? data pos (count + 1) = some _ := window?_eq_some.2 ⟨by omega, rfl⟩
    rw [hw, Option.map_some, Option.map_some, octets_of_window? hw, octets_of_window? hrest,
      ahead_of_byte? h, List.take_succ_cons]

section
variable {limit : Nat} {c : Cursor} (hlimit : c.data.size ≤ limit)
include hlimit

theorem run_scalar (f : Scalar.Format) : (scalar limit f).run c = some (settled c (c.scalar f)) := by
  rw [scalar, run_bind_ok (run_get c)]
  cases hw : window? c.data c.pos f.width with
  | some bytes =>
    have hstop := (window?_eq_some.1 hw).1
    rw [if_pos (by omega)]
    simp only [Cursor.scalar, Scalar.readAt, hw, settled, Cursor.advance]
    rw [run_bind_ok (run_moveTo _ c), run_pure]
  | none =>
    simp only [Cursor.scalar, Scalar.readAt, hw, settled]
    split <;> rfl

theorem run_byte_some {b : UInt8} (h : byte? c.data c.pos = some b) :
    (byte limit).run c = some (.ok b, c.advance 1) := by
  have hw : window? c.data c.pos Scalar.Format.uint8.width = some [b].toByteArray := by
    refine (window?_eq_some_iff (Nat.le_of_lt (lt_size_of_byte? h))).2 ⟨?_, rfl⟩
    rw [octets_toByteArray, ahead_of_byte? h]
    exact List.prefix_append [b] _
  have hscalar : (scalar limit .uint8).run c = some (.ok (.ofBytes .uint8 [b]), c.advance 1) := by
    rw [run_scalar hlimit]
    simp only [Cursor.scalar, Scalar.readAt, hw, octets_toByteArray, settled]
    rfl
  have hvalue : (Scalar.ofBytes .uint8 [b]).bits.toNat = b.toNat := by
    rw [Scalar.toNat_ofBytes]
    exact Nat.mod_eq_of_lt b.toNat_lt
  rw [byte, run_bind_ok hscalar, run_pure, hvalue, UInt8.ofNat_toNat]

theorem run_byte_none (h : byte? c.data c.pos = none) : (byte limit).run c = some (.error .outOfBounds, c) := by
  have hw : window? c.data c.pos Scalar.Format.uint8.width = none :=
    window?_eq_none.2 (Nat.lt_succ_of_le (byte?_eq_none.1 h))
  have hscalar : (scalar limit .uint8).run c = some (.error .outOfBounds, c) := by
    rw [run_scalar hlimit]
    simp only [Cursor.scalar, Scalar.readAt, hw, settled]
  rw [byte, run_bind_error hscalar]

theorem run_take_some {count : Nat} {bytes : ByteArray} (h : window? c.data c.pos count = some bytes) :
    (take limit count).run c = some (.ok bytes, c.advance count) := by
  obtain ⟨hstop, rfl⟩ := window?_eq_some.1 h
  rw [take, run_bind_ok (run_get c), run_bind_ok (run_difference (by omega) c), if_pos (by omega),
    run_bind_ok (run_sum (by omega) c), run_bind_ok (run_between (by omega) hstop c),
    run_bind_ok (run_moveTo _ c), run_pure, Cursor.advance]

omit hlimit in
theorem run_take_none (hinside : c.pos ≤ c.data.size) {count : Nat} (h : window? c.data c.pos count = none) :
    (take limit count).run c = some (.error .outOfBounds, c) := by
  have hstop := window?_eq_none.1 h
  rw [take, run_bind_ok (run_get c), run_bind_ok (run_difference hinside c), if_neg (by omega), run_throw]

theorem run_take (hinside : c.pos ≤ c.data.size) (count : Nat) :
    (take limit count).run c = some (settled c (c.take count)) := by
  cases hw : window? c.data c.pos count with
  | some bytes => simp only [run_take_some hlimit hw, Cursor.take, slice, hw, settled]
  | none => simp only [run_take_none hinside hw, Cursor.take, slice, hw, settled]

/-- What fails behind the first byte of a compressed number leaves the cursor behind that byte. -/
theorem run_behindLead {lead : UInt8} (h : byte? c.data c.pos = some lead) :
    (behindLead limit c.pos lead).run (c.advance 1) = some (settled (c.advance 1) c.compressed) := by
  rw [Cursor.compressed, Compressed.read, h, behindLead]
  cases hform : Compressed.Form.ofLead? lead with
  | none => simp only [hform, settled, run_throw]
  | some form =>
    have hwidth := (Compressed.Form.mark_add_bound_le (Compressed.Form.mem_of_ofLead? hform)).2
    have hwindow := window?_succ h (form.width - 1)
    rw [Nat.sub_add_cancel hwidth] at hwindow
    cases hrest : window? c.data (c.pos + 1) (form.width - 1) with
    | none =>
      have hw : window? c.data c.pos form.width = none := by simpa [hrest] using hwindow
      simp only [hform, hw]
      exact run_bind_error (run_take_none (c := c.advance 1) (lt_size_of_byte? h) hrest)
    | some rest =>
      obtain ⟨w, hw, hoctets⟩ : ∃ w, window? c.data c.pos form.width = some w ∧ octets w = lead :: octets rest := by
        simpa [hrest] using hwindow
      simp only [hform, hw, hoctets]
      rw [run_bind_ok (run_take_some (c := c.advance 1) hlimit hrest), run_pure, Cursor.advance, Cursor.advance]
      simp only [settled, Cursor.advance, Nat.add_assoc, Nat.add_comm 1, Nat.sub_add_cancel hwidth]

theorem run_compressed : (compressed limit).run c = some (settled c c.compressed) := by
  rw [compressed, run_bind_ok (run_get c)]
  cases hlead : byte? c.data c.pos with
  | none =>
    rw [run_bind_error (run_byte_none hlimit hlead)]
    simp only [Cursor.compressed, Compressed.read, hlead, settled]
  | some lead =>
    have hbehind := run_behindLead hlimit hlead
    rw [run_bind_ok (run_byte_some hlimit hlead)]
    cases hread : c.compressed with
    | ok given =>
      rw [hread] at hbehind
      exact run_tryCatch_ok hbehind _
    | error e =>
      -- the cursor is behind the first byte, and is moved back to where it started
      rw [hread] at hbehind
      exact run_tryCatch_error hbehind _

/-- Reading a code ends behind it; where it ends if there is none does not matter. -/
theorem run_code : ∃ width, (code limit).run c = some (Instr.codeAt c.data c.pos, c.advance width) ∧
    ∀ op : Opcode, Instr.codeAt c.data c.pos = .ok op.code → width = op.codeWidth := by
  unfold code Instr.codeAt
  cases hfirst : byte? c.data c.pos with
  | none =>
    refine ⟨0, ?_, by simp⟩
    exact run_bind_error (run_orTruncated_error (run_byte_none hlimit hfirst))
  | some first =>
    rw [run_bind_ok (run_orTruncated_ok (run_byte_some hlimit hfirst))]
    by_cases hescape : first.toNat = escapeByte
    · simp only [hescape, if_true]
      cases hsecond : byte? c.data (c.pos + 1) with
      | none =>
        refine ⟨1, ?_, by simp⟩
        exact run_bind_error (run_orTruncated_error (run_byte_none (c := c.advance 1) hlimit hsecond))
      | some second =>
        refine ⟨2, ?_, ?_⟩
        · rw [run_bind_ok (run_orTruncated_ok (run_byte_some (c := c.advance 1) hlimit hsecond)), run_pure]
          rfl
        · intro op hcode
          have hcode : 256 * escapeByte + second.toNat = op.code := Except.ok.inj hcode
          rw [escapeByte] at hcode
          rw [Opcode.codeWidth, if_pos (by omega)]
    · simp only [hescape, if_false]
      refine ⟨1, run_pure _ _, ?_⟩
      intro op hcode
      have hcode : first.toNat = op.code := Except.ok.inj hcode
      have hlt : first.toNat < 256 := first.toNat_lt
      rw [Opcode.codeWidth, if_neg (by omega)]

/-- Behind its code, an instruction is read as all of it is at its start. -/
theorem run_behindCode (haddress : c.pos ≤ maxAddress) (symbols : Option Symbols) {op : Opcode}
    (hcode : Instr.codeAt c.data c.pos = .ok op.code) (hop : op ∈ Opcode.catalogue) :
    ∃ c', (behindCode limit symbols c.pos op).run (c.advance op.codeWidth) =
        some (Instr.decodeAtIn symbols c.data c.pos, c') ∧
      ∀ i, Instr.decodeAtIn symbols c.data c.pos = .ok i → c' = c.advance i.size := by
  have hinside : c.pos + op.codeWidth ≤ c.data.size := by
    rw [Instr.codeAt_eq] at hcode
    rw [← Opcode.length_toBytes]
    exact add_length_le_of_isPrefix (Opcode.toBytes_isPrefix hcode) op.toBytes_ne_nil
  have hsum : c.pos + op.size + maxDisplacement ≤ maxSigned := by
    have hsize := op.size_le
    simp only [maxAddress, maxDisplacement, maxSigned] at haddress ⊢
    omega
  rw [behindCode, Instr.decodeAtIn_of_code symbols hcode hop]
  cases hw : window? c.data (c.pos + op.codeWidth) op.kind.width with
  | none =>
    have htake : (take limit op.kind.width).run (c.advance op.codeWidth) = _ := run_take_none hinside hw
    exact ⟨_, run_bind_error (run_orTruncated_error htake), by simp⟩
  | some bytes =>
    have htake := run_take_some (c := c.advance op.codeWidth) hlimit hw
    rw [c.advance_advance, ← Opcode.size] at htake
    rw [run_bind_ok (run_orTruncated_ok htake), run_bind_ok (run_get _), Cursor.pos_advance,
      run_bind_ok (run_sum hsum _)]
    dsimp only
    cases hread : Operand.ofBytesIn symbols op.kind (c.pos + op.size) (octets bytes) with
    | error e =>
      rw [run_bind_error (run_liftM _ _)]
      exact ⟨_, rfl, by simp [Except.map]⟩
    | ok operand =>
      rw [run_bind_ok (run_liftM _ _), run_bind_ok (run_difference (Nat.le_add_right _ _) _), run_pure]
      refine ⟨c.advance op.size, by rw [Nat.add_sub_cancel_left]; rfl, ?_⟩
      intro i hi
      cases hi
      rfl

/-- Reading the next instruction gives what is decoded at the cursor, and if that is one, ends
behind it. -/
theorem run_instrHere (haddress : c.pos ≤ maxAddress) (symbols : Option Symbols) :
    ∃ c', (instrHere limit symbols).run c = some (Instr.decodeAtIn symbols c.data c.pos, c') ∧
      ∀ i, Instr.decodeAtIn symbols c.data c.pos = .ok i → c' = c.advance i.size := by
  obtain ⟨width, hcode, hwidth⟩ := run_code hlimit
  rw [instrHere, run_bind_ok (run_get c)]
  cases hread : Instr.codeAt c.data c.pos with
  | error e =>
    have hdecode : Instr.decodeAtIn symbols c.data c.pos = .error e := bind_eq_error.2 (.inl hread)
    rw [hread] at hcode
    rw [hdecode]
    exact ⟨_, run_bind_error hcode, by simp⟩
  | ok n =>
    rw [hread] at hcode
    rw [run_bind_ok hcode]
    cases hop : Opcode.lookup n with
    | error e =>
      have hdecode : Instr.decodeAtIn symbols c.data c.pos = .error e :=
        bind_eq_error.2 (.inr ⟨n, hread, bind_eq_error.2 (.inl hop)⟩)
      rw [hdecode, run_bind_error (run_liftM _ _)]
      exact ⟨_, rfl, by simp⟩
    | ok op =>
      obtain ⟨hmem, rfl⟩ := Opcode.lookup_eq_ok hop
      rw [hwidth op hread, run_bind_ok (run_liftM _ _)]
      exact run_behindCode hlimit haddress symbols hread hmem

theorem run_instr (symbols : Option Symbols) :
    (instr limit symbols).run c = some (settled c ((Instr.decodeNextIn symbols c).map fun
      | some (i, c') => (some i, c')
      | none => (none, c))) := by
  rw [instr, run_bind_ok (run_get c), Instr.decodeNextIn]
  by_cases hmore : c.hasMore
  · rw [if_pos hmore, if_pos hmore]
    by_cases haddress : c.pos ≤ maxAddress
    · rw [if_pos haddress, if_pos haddress]
      obtain ⟨copy, hcopy, hmoved⟩ := run_instrHere hlimit haddress symbols
      have hread : (onCopy (instrHere limit symbols)).run c =
          some (.ok (Instr.decodeAtIn symbols c.data c.pos, copy), c) := by
        rw [run_onCopy, hcopy, Option.map_some]
      rw [run_bind_ok hread]
      cases hdecode : Instr.decodeAtIn symbols c.data c.pos with
      | ok i =>
        rw [hmoved i hdecode]
        rfl
      | error e => rfl
    · rw [if_neg haddress, if_neg haddress]
      rfl
  · rw [if_neg hmore, if_neg hmore]
    rfl

/-- Inside its data a cursor answers in place as it answers when only success moves it. -/
theorem run_ofRequest (hinside : c.pos ≤ c.data.size) (q : Request) :
    (ofRequest limit q).run c = some (c.answer q) := by
  cases q with
  | scalar f =>
    rw [ofRequest, run_map, run_scalar hlimit, Option.map_some, Cursor.answer, Cursor.request]
    cases c.scalar f <;> rfl
  | bytes count =>
    rw [ofRequest, run_map, run_take hlimit hinside, Option.map_some, Cursor.answer, Cursor.request]
    cases c.take count <;> rfl
  | compressed =>
    rw [ofRequest, run_map, run_compressed hlimit, Option.map_some, Cursor.answer, Cursor.request]
    cases c.compressed <;> rfl
  | seek pos =>
    rw [ofRequest, run_bind_ok (run_get c), Cursor.answer_seek]
    by_cases hpos : pos ≤ c.data.size
    · rw [if_pos hpos, if_pos hpos]
      rfl
    · rw [if_neg hpos, if_neg hpos]
      rfl
  | reset => rfl
  | instr symbols =>
    rw [ofRequest, run_map, run_instr hlimit, Option.map_some, Cursor.answer, Cursor.request]
    rcases Instr.decodeNextIn symbols c with e | _ | ⟨i, c'⟩ <;> rfl
  | data => rfl

omit hlimit in
/-- Requests one after another are all answered in place, and none of them traps. -/
theorem answers_eq (hlimit : c.data.size ≤ limit) (hinside : c.pos ≤ c.data.size) (requests : List Request) :
    answers limit c requests = some (c.answers requests) := by
  induction requests generalizing c with
  | nil => rfl
  | cons q rest ih =>
    have hmoved := Cursor.moved_answer hinside q
    have hrest := ih (by rw [hmoved.data]; exact hlimit) hmoved.inside
    rw [answers, run_ofRequest hlimit hinside]
    simp only [bind, Option.bind, hrest]
    rfl

end

end Reading

/-- A number takes as many bytes as the word that holds it, of eight, sixteen, thirty-two or
sixty-four bits, whatever the bits stand for. -/
theorem Scalar.Format.capacity_width :
    (∀ f ∈ [uint8, int8], capacity f.width = UInt8.size) ∧
    (∀ f ∈ [uint16, int16], capacity f.width = UInt16.size) ∧
    (∀ f ∈ [uint32, int32, float32], capacity f.width = UInt32.size) ∧
    ∀ f ∈ [uint64, int64, float64], capacity f.width = UInt64.size := by
  decide

/-- **A cursor stays inside its data.** From the start of any data and under any series of
requests, wherever tokens are looked up, every request leaves the data as they are and the
cursor inside of them; one that fails leaves the cursor where it was, and only one that asks
for a place moves it back. What is read is made of the bytes that the cursor passes, as many
as were asked for. All this takes no sum, difference or index that a word cannot hold, even
where nothing but the size of the data is known to be a word: read in place, the answers are
the same. -/
theorem requests_stay_inside (data : ByteArray) (requests : List Cursor.Request) :
    let given := (Cursor.start data).answers requests
    Cursor.History (.start data) requests given ∧
    (∀ x ∈ given, x.2.data = data ∧ x.2.pos ≤ data.size) ∧
    ∀ limit, data.size ≤ limit → Reading.answers limit (.start data) requests = some given := by
  intro given
  have hinside : (Cursor.start data).pos ≤ (Cursor.start data).data.size := Nat.zero_le _
  have hhistory : Cursor.History (.start data) requests given := Cursor.history_answers hinside requests
  refine ⟨hhistory, hhistory.stays, ?_⟩
  intro limit hlimit
  exact Reading.answers_eq hlimit hinside requests

/-- Two bytes, which start a number of four: it fails behind the first of them, and the cursor
goes back. Requests far beyond the end fail as well, also where the words end with the data. -/
theorem requests_stay_inside_short :
    let data : ByteArray := ⟨#[0xC0, 0x00]⟩
    let requests : List Cursor.Request := [.compressed, .bytes 0xFFFFFFFFFFFFFFFF, .scalar .uint64, .scalar .uint16,
      .instr none, .seek 0xFFFFFFFFFFFFFFFF, .seek 1, .instr none, .bytes 1, .reset, .instr none]
    data.size ≤ 2 ∧
    (Reading.answers 2 (.start data) requests).map (fun given => given.map fun x => (x.1.isOk, x.2.pos)) =
      some [(false, 0), (false, 0), (false, 0), (true, 2), (true, 2), (false, 2), (true, 1), (true, 2),
        (false, 2), (true, 0), (false, 0)] := by
  intro data requests
  have hsize : data.size ≤ 2 := by decide
  refine ⟨hsize, ?_⟩
  rw [(requests_stay_inside data requests).2.2 2 hsize]
  decide +kernel

end Cil
