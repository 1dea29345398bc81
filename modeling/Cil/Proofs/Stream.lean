import Cil.Proofs.Trace

/-! A decoder that is called again and again.

A decoder may be asked for items and reset in any order. All that the calls before
leave behind is how often it was asked since the last reset (`run_start`): the
decoder is the one that a fresh decoder is after as many calls, so that it goes on
with the same items. A finished decoder stays as it is (`next_of_finished`), and
being finished is the same as having no item to give, whether the code is used up
or an error was given. -/
namespace Cil

namespace Decoder

/-! ### Calls -/

/-- What a decoder can be told. -/
inductive Call where
  | next
  | reset
  deriving DecidableEq, Repr

/-- The decoder after a call. -/
def call (d : Decoder) : Call → Decoder
  | .next => d.next.2
  | .reset => d.reset

/-- The decoder after a series of calls. -/
def run (d : Decoder) : List Call → Decoder
  | [] => d
  | c :: rest => run (d.call c) rest

/-- The decoder after `n` items. -/
def skip (d : Decoder) : Nat → Decoder
  | 0 => d
  | n + 1 => d.next.2.skip n

/-- What `next` gives after `n` items, which is nothing at the end. -/
def item (d : Decoder) (n : Nat) : Option (Except Error Instr) := (d.skip n).next.1

/-- The calls of `next` since the last reset, behind `n` that came before. -/
def sinceReset (n : Nat) : List Call → Nat
  | [] => n
  | .next :: rest => sinceReset (n + 1) rest
  | .reset :: rest => sinceReset 0 rest

theorem skip_add (d : Decoder) (m n : Nat) : d.skip (m + n) = (d.skip m).skip n := by
  induction m generalizing d with
  | zero => rw [Nat.zero_add, skip]
  | succ m ih => rw [Nat.succ_add, skip, skip, ih]

/-! ### Starting again -/

/-- An item does not change what a reset goes back to. -/
theorem reset_next (d : Decoder) : d.next.2.reset = d.reset := by
  unfold next
  split
  · rfl
  · split
    · next decoded =>
      obtain ⟨_, same, _⟩ := Instr.decodeNext_forward decoded
      simp only [reset, Cursor.reset, same]
    · rfl
    · rfl

theorem reset_skip (d : Decoder) (n : Nat) : (d.skip n).reset = d.reset := by
  induction n generalizing d with
  | zero => rfl
  | succ n ih => rw [skip, ih, reset_next]

theorem run_skip {d : Decoder} (hd : d.reset = d) (n : Nat) (calls : List Call) :
    (d.skip n).run calls = d.skip (sinceReset n calls) := by
  induction calls generalizing n with
  | nil => rfl
  | cons c rest ih =>
    cases c with
    | next =>
      have hone : (d.skip n).call .next = d.skip (n + 1) := by
        rw [skip_add]
        rfl
      rw [run, hone, ih, sinceReset]
    | reset =>
      have hback : (d.skip n).call .reset = d.skip 0 := by
        show (d.skip n).reset = d
        rw [reset_skip, hd]
      rw [run, hback, ih, sinceReset]

/-- After any calls a decoder is a fresh one, as many items further as it was asked for since
the last reset. -/
theorem run_start (r : Resolver) (code : ByteArray) (calls : List Call) :
    (start r code).run calls = (start r code).skip (sinceReset 0 calls) :=
  run_skip rfl 0 calls

/-! ### Being finished -/

theorem next_of_finished {d : Decoder} (h : d.isFinished = true) : d.next = (none, d) := by
  obtain ⟨⟨code, pos⟩, r, failed⟩ := d
  cases failed with
  | true => exact next_of_failed _ r
  | false =>
    refine next_of_none (Instr.decodeNext_eq_none.2 ?_)
    simpa [isFinished, Cursor.hasMore] using h

theorem isFinished_iff (d : Decoder) : d.isFinished = true ↔ d.next.1 = none := by
  constructor
  · intro h
    rw [next_of_finished h]
  · intro h
    obtain ⟨⟨code, pos⟩, r, failed⟩ := d
    cases failed with
    | true => rfl
    | false =>
      cases hnext : Instr.decodeNext r ⟨code, pos⟩ with
      | error e =>
        rw [next_of_error hnext] at h
        cases h
      | ok given =>
        cases given with
        | some given =>
          obtain ⟨i, c⟩ := given
          rw [next_of_some hnext] at h
          cases h
        | none => simpa [isFinished, Cursor.hasMore] using Instr.decodeNext_eq_none.1 hnext

/-- An error finishes the decoder that gives it. -/
theorem isFinished_of_error {d : Decoder} {e : Error} (h : d.next.1 = some (.error e)) :
    d.next.2.isFinished = true := by
  unfold next at h ⊢
  split at h
  · cases h
  · next live =>
    rw [if_neg live]
    split at h
    · cases h
    · cases h
    · simp only [isFinished, Bool.true_or]

theorem skip_of_finished {d : Decoder} (h : d.isFinished = true) (n : Nat) : d.skip n = d := by
  induction n with
  | zero => rfl
  | succ n ih => rw [skip, next_of_finished h, ih]

theorem item_of_finished {d : Decoder} (h : d.isFinished = true) (n : Nat) : d.item n = none := by
  rw [item, skip_of_finished h, next_of_finished h]

theorem item_add (d : Decoder) (m n : Nat) : d.item (m + n) = (d.skip m).item n := by
  rw [item, skip_add, item]

/-- Once there is no item, there is none any more. -/
theorem item_eq_none {d : Decoder} {m n : Nat} (hle : m ≤ n) (h : d.item m = none) : d.item n = none := by
  obtain ⟨k, rfl⟩ := Nat.exists_eq_add_of_le hle
  rw [item_add]
  exact item_of_finished ((isFinished_iff _).2 h) k

/-- Nothing follows an error. -/
theorem item_behind_error {d : Decoder} {m n : Nat} {e : Error} (hlt : m < n)
    (h : d.item m = some (.error e)) : d.item n = none := by
  obtain ⟨k, rfl⟩ := Nat.exists_eq_add_of_lt hlt
  rw [Nat.add_assoc, Nat.add_comm k 1, item_add, item_add]
  exact item_of_finished (isFinished_of_error h) k

/-- How a decoder over `code` stands after a series of calls. Its items are counted from
where it stands, and go on until the next reset. -/
structure Restartable (r : Resolver) (code : ByteArray) (calls : List Call) (d : Decoder) : Prop where
  /-- What `next` gives is what a fresh decoder gives that was asked as often as this one since
  the last reset; and it goes on like that one. -/
  items : ∀ n, d.item n = (start r code).item (sinceReset 0 calls + n)
  finished : d.isFinished = true ↔ d.next.1 = none
  /-- No item comes once there was none. -/
  fused : ∀ m n, m ≤ n → d.item m = none → d.item n = none
  /-- Nothing comes behind an error, so that there is one at most. -/
  oneError : ∀ m n e, m < n → d.item m = some (.error e) → d.item n = none
  still : d.isFinished = true → d.next.2.pos = d.pos

end Decoder

/-- **A decoder can be started again at any time, and is fused.** Whatever was called before,
its items are those that a fresh decoder gives after as many calls of `next` as there were
since the last reset. It is finished exactly when it has no item to give, then stays so and
does not move, and an error is the last item it gives. -/
theorem decoder_restarts (r : Resolver) (code : ByteArray) (calls : List Decoder.Call) :
    Decoder.Restartable r code calls ((Decoder.start r code).run calls) where
  items n := by rw [Decoder.run_start, Decoder.item_add]
  finished := Decoder.isFinished_iff _
  fused _ _ := Decoder.item_eq_none
  oneError _ _ _ := Decoder.item_behind_error
  still h := by rw [Decoder.next_of_finished h]

end Cil
