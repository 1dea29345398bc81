import Cil.Instr.Session
import Cil.Proofs.Assembly
import Cil.Proofs.Canonical

/-! How requests move a cursor.

A request that is met moves the cursor forward inside its data, unless it asks for
another place (`request_moves`); one that fails does not move it. So a cursor that is
inside its data stays there, and what it reads is always the bytes that it passes
(`Moved`). A series of requests is a history of such moves (`history_answers`). -/
namespace Cil

open Bytes

/-- An instruction is decoded from bytes that are there, wherever its token is looked up. -/
theorem Instr.end_le_of_decodeAtIn {symbols : Option Symbols} {data : ByteArray} {pos : Nat} {i : Instr}
    (h : decodeAtIn symbols data pos = .ok i) : pos + i.size ≤ data.size := by
  obtain ⟨code, _, hop⟩ := bind_eq_ok.1 h
  obtain ⟨op, _, hoperand⟩ := bind_eq_ok.1 hop
  split at hoperand
  · cases hoperand
  · next bytes hwindow =>
    obtain ⟨operand, _, hpure⟩ := bind_eq_ok.1 hoperand
    cases hpure
    have hfits := (window?_eq_some.1 hwindow).1
    rwa [Nat.add_assoc, ← Opcode.size] at hfits

namespace Cursor

variable {c c' : Cursor} {q : Request}

/-! ### What a request does -/

theorem pos_advance (c : Cursor) (count : Nat) : (c.advance count).pos = c.pos + count := rfl

theorem advance_advance (c : Cursor) (m n : Nat) : (c.advance m).advance n = c.advance (m + n) := by
  simp only [advance, Nat.add_assoc]

theorem take_eq (c : Cursor) (count : Nat) :
    c.take count = if c.pos + count ≤ c.data.size then
      .ok (c.data.extract c.pos (c.pos + count), c.advance count) else .error .outOfBounds := by
  by_cases hfits : c.pos + count ≤ c.data.size <;> simp [take, slice, window?, hfits]

theorem scalar_eq (c : Cursor) (f : Scalar.Format) :
    c.scalar f = if c.pos + f.width ≤ c.data.size then
      .ok (.ofBytes f (octets (c.data.extract c.pos (c.pos + f.width))), c.advance f.width)
      else .error .outOfBounds := by
  by_cases hfits : c.pos + f.width ≤ c.data.size <;> simp [scalar, Scalar.readAt, window?, hfits]

theorem answer_of_ok {reply : Reply} (h : c.request q = .ok (reply, c')) : c.answer q = (.ok reply, c') := by
  rw [answer, h]

theorem answer_of_error {e : Error} (h : c.request q = .error e) : c.answer q = (.error e, c) := by
  rw [answer, h]

/-- A request that is met moves the cursor forward, or to the place that it asks for. -/
theorem request_moves {reply : Reply} (h : c.request q = .ok (reply, c')) (hinside : c.pos ≤ c.data.size) :
    (∃ count, c.pos + count ≤ c.data.size ∧ c' = c.advance count) ∨
      (∃ pos, q = .seek pos ∧ pos ≤ c.data.size ∧ c' = { c with pos }) ∨ q = .reset ∧ c' = c.reset := by
  cases q with
  | scalar f =>
    obtain ⟨⟨value, behind⟩, hread, hpure⟩ := bind_eq_ok.1 h
    cases hpure
    rw [scalar_eq] at hread
    split at hread
    · next hfits =>
      cases hread
      exact .inl ⟨f.width, hfits, rfl⟩
    · cases hread
  | bytes count =>
    obtain ⟨⟨value, behind⟩, hread, hpure⟩ := bind_eq_ok.1 h
    cases hpure
    rw [take_eq] at hread
    split at hread
    · next hfits =>
      cases hread
      exact .inl ⟨count, hfits, rfl⟩
    · cases hread
  | compressed =>
    obtain ⟨⟨value, behind⟩, hread, hpure⟩ := bind_eq_ok.1 h
    cases hpure
    obtain ⟨bytes, hspells, hahead, rfl⟩ := compressed_eq_ok.1 hread
    exact .inl ⟨bytes.length, add_length_le_of_isPrefix hahead hspells.ne_nil, rfl⟩
  | seek pos =>
    obtain ⟨there, hseek, hpure⟩ := bind_eq_ok.1 h
    cases hpure
    unfold seek at hseek
    split at hseek
    · next hpos =>
      cases hseek
      exact .inr (.inl ⟨pos, rfl, hpos, rfl⟩)
    · cases hseek
  | reset =>
    cases h
    exact .inr (.inr ⟨rfl, rfl⟩)
  | instr symbols =>
    obtain ⟨found, hnext, hpure⟩ := bind_eq_ok.1 h
    cases found with
    | none =>
      cases hpure
      exact .inl ⟨0, hinside, rfl⟩
    | some found =>
      obtain ⟨i, behind⟩ := found
      cases hpure
      obtain ⟨_, hdecoded, rfl⟩ := Instr.decodeNextIn_some hnext
      exact .inl ⟨i.size, Instr.end_le_of_decodeAtIn hdecoded, rfl⟩
  | data =>
    cases h
    exact .inl ⟨0, hinside, rfl⟩

/-! ### What a request leaves -/

/-- How a cursor stands after a request, and what it gave. -/
structure Moved (c : Cursor) (q : Request) (reply : Except Error Reply) (c' : Cursor) : Prop where
  data : c'.data = c.data
  inside : c'.pos ≤ c'.data.size
  /-- What fails does not move. -/
  kept : ∀ e, reply = .error e → c'.pos = c.pos
  /-- Only those that ask for a place go back. -/
  forward : (∀ pos, q ≠ .seek pos) → q ≠ .reset → c.pos ≤ c'.pos
  /-- A number is read from the bytes that are passed, as many as it takes, if they are left. -/
  scalar : ∀ f, q = .scalar f →
    if f.width ≤ c.remaining then
      ∃ value, reply = .ok (.scalar value) ∧ value.format = f ∧ c'.pos = c.pos + f.width ∧
        value.toBytes = octets (c.data.extract c.pos c'.pos)
    else reply = .error .outOfBounds
  bytes : ∀ count, q = .bytes count →
    if count ≤ c.remaining then
      reply = .ok (.bytes (c.data.extract c.pos c'.pos)) ∧ c'.pos = c.pos + count
    else reply = .error .outOfBounds
  seek : ∀ pos, q = .seek pos →
    if pos ≤ c.data.size then reply = .ok .moved ∧ c'.pos = pos else reply = .error .outOfBounds
  reset : q = .reset → reply = .ok .moved ∧ c'.pos = 0

theorem answer_scalar (c : Cursor) (f : Scalar.Format) :
    c.answer (.scalar f) = if c.pos + f.width ≤ c.data.size then
      (.ok (.scalar (.ofBytes f (octets (c.data.extract c.pos (c.pos + f.width))))), c.advance f.width)
      else (.error .outOfBounds, c) := by
  by_cases hfits : c.pos + f.width ≤ c.data.size <;>
    simp [answer, request, scalar_eq, hfits, bind, Except.bind, pure, Except.pure]

theorem answer_bytes (c : Cursor) (count : Nat) :
    c.answer (.bytes count) = if c.pos + count ≤ c.data.size then
      (.ok (.bytes (c.data.extract c.pos (c.pos + count))), c.advance count)
      else (.error .outOfBounds, c) := by
  by_cases hfits : c.pos + count ≤ c.data.size <;>
    simp [answer, request, take_eq, hfits, bind, Except.bind, pure, Except.pure]

theorem answer_seek (c : Cursor) (pos : Nat) :
    c.answer (.seek pos) = if pos ≤ c.data.size then (.ok .moved, { c with pos })
      else (.error .outOfBounds, c) := by
  by_cases hpos : pos ≤ c.data.size <;>
    simp [answer, request, seek, hpos, bind, Except.bind, pure, Except.pure]

theorem answer_stays (hinside : c.pos ≤ c.data.size) (q : Request) :
    let given := c.answer q
    given.2.data = c.data ∧ given.2.pos ≤ given.2.data.size ∧
      (∀ e, given.1 = .error e → given.2.pos = c.pos) ∧
      ((∀ pos, q ≠ .seek pos) → q ≠ .reset → c.pos ≤ given.2.pos) := by
  cases hrequest : c.request q with
  | error e =>
    rw [answer_of_error hrequest]
    exact ⟨rfl, hinside, fun _ _ => rfl, fun _ _ => Nat.le_refl _⟩
  | ok met =>
    obtain ⟨reply, c'⟩ := met
    rw [answer_of_ok hrequest]
    rcases request_moves hrequest hinside with ⟨count, hfits, rfl⟩ | ⟨pos, rfl, hpos, rfl⟩ | ⟨rfl, rfl⟩
    · exact ⟨rfl, hfits, nofun, fun _ _ => Nat.le_add_right _ _⟩
    · exact ⟨rfl, hpos, nofun, fun hseek _ => absurd rfl (hseek pos)⟩
    · exact ⟨rfl, Nat.zero_le _, nofun, fun _ hreset => absurd rfl hreset⟩

theorem moved_answer (hinside : c.pos ≤ c.data.size) (q : Request) :
    Moved c q (c.answer q).1 (c.answer q).2 := by
  obtain ⟨hdata, hstop, hkept, hforward⟩ := answer_stays hinside q
  refine ⟨hdata, hstop, hkept, hforward, ?_, ?_, ?_, ?_⟩
  · intro f hq
    subst hq
    rw [answer_scalar]
    by_cases hfits : c.pos + f.width ≤ c.data.size
    · have hlength : (octets (c.data.extract c.pos (c.pos + f.width))).length = f.width := by
        rw [length_octets]
        exact size_of_window? (window?_eq_some.2 ⟨hfits, rfl⟩)
      rw [if_pos hfits, if_pos (by rw [remaining]; omega)]
      exact ⟨_, rfl, rfl, rfl, Scalar.toBytes_ofBytes f hlength⟩
    · rw [if_neg hfits, if_neg (by rw [remaining]; omega)]
  · intro count hq
    subst hq
    rw [answer_bytes]
    by_cases hfits : c.pos + count ≤ c.data.size
    · rw [if_pos hfits, if_pos (by rw [remaining]; omega)]
      exact ⟨rfl, rfl⟩
    · rw [if_neg hfits, if_neg (by rw [remaining]; omega)]
  · intro pos hq
    subst hq
    rw [answer_seek]
    by_cases hpos : pos ≤ c.data.size
    · rw [if_pos hpos, if_pos hpos]
      exact ⟨rfl, rfl⟩
    · rw [if_neg hpos, if_neg hpos]
  · intro hq
    subst hq
    exact ⟨rfl, rfl⟩

/-! ### A series of requests -/

/-- One move after another. -/
inductive History : Cursor → List Request → List (Except Error Reply × Cursor) → Prop where
  | nil (c : Cursor) : History c [] []
  | cons {c c' : Cursor} {q : Request} {rest : List Request} {reply : Except Error Reply}
      {given : List (Except Error Reply × Cursor)} (hmoved : Moved c q reply c') (hrest : History c' rest given) :
      History c (q :: rest) ((reply, c') :: given)

theorem history_answers (hinside : c.pos ≤ c.data.size) (requests : List Request) :
    History c requests (c.answers requests) := by
  induction requests generalizing c with
  | nil => exact .nil c
  | cons q rest ih =>
    have hmoved := moved_answer hinside q
    exact .cons hmoved (ih hmoved.inside)

/-- Along a history the data stay, and the cursor inside of them. -/
theorem History.stays {requests : List Request} {given : List (Except Error Reply × Cursor)}
    (h : History c requests given) : ∀ x ∈ given, x.2.data = c.data ∧ x.2.pos ≤ c.data.size := by
  induction h with
  | nil => exact List.forall_mem_nil _
  | cons hmoved _ ih =>
    have hinside := hmoved.inside
    rw [hmoved.data] at ih hinside
    exact List.forall_mem_cons.2 ⟨⟨hmoved.data, hinside⟩, ih⟩

end Cursor
end Cil
