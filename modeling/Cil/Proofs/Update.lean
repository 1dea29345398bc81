import Cil.Store.Edit

/-! What the updates of a store do.

Each of the four updates that the others are made of does all its checks before it
writes (`Update.atomic`), so that one equation says all that it can do: its answer
with the store afterwards, or an error and the store as it was. An update made of
others runs them one after another, each on the store that the one before left, up
to the first error (`Update.run_bind`). -/
namespace Cil

open Bytes Text

/-! ### Running an update -/

namespace Update

variable {α β : Type}

theorem run_bind (u : Update α) (f : α → Update β) (s : Store) :
    (u >>= f).run s =
      match u.run s with
      | (.ok a, s') => (f a).run s'
      | (.error e, s') => (.error e, s') := by
  show (match u.run s with | (answer, s') => ExceptT.bindCont f answer s') = _
  rcases u.run s with ⟨_ | a, s'⟩ <;> rfl

theorem run_map (f : α → β) (u : Update α) (s : Store) :
    (f <$> u).run s = ((u.run s).1.map f, (u.run s).2) := by
  rw [map_eq_pure_bind, run_bind]
  rcases u.run s with ⟨_ | a, s'⟩ <;> rfl

@[simp]
theorem run_pure (a : α) (s : Store) : (pure a : Update α).run s = (.ok a, s) := rfl

@[simp]
theorem run_get (s : Store) : (get : Update Store).run s = (.ok s, s) := rfl

@[simp]
theorem run_modify (f : Store → Store) (s : Store) : (modify f : Update Unit).run s = (.ok (), f s) := rfl

@[simp]
theorem run_liftM (x : Except Error α) (s : Store) : (liftM x : Update α).run s = (x, s) := by
  cases x <;> rfl

/-- An update made of two succeeds when both do, the second on what the first left. -/
theorem run_bind_eq_ok {u : Update α} {f : α → Update β} {s s' : Store} {b : β} :
    (u >>= f).run s = (.ok b, s') ↔ ∃ a s₁, u.run s = (.ok a, s₁) ∧ (f a).run s₁ = (.ok b, s') := by
  rw [run_bind]
  constructor
  · intro h
    rcases hu : u.run s with ⟨e | a, s₁⟩
    · rw [hu] at h
      cases h
    · rw [hu] at h
      exact ⟨a, s₁, rfl, h⟩
  · rintro ⟨a, s₁, hu, hf⟩
    rw [hu]
    exact hf

/-! ### Checks before writes -/

/-- The outcome of an update that does all its checks before it writes. -/
def atomic (s : Store) : Except Error (α × Store) → Except Error α × Store
  | .ok (a, s') => (.ok a, s')
  | .error e => (.error e, s)

theorem atomic_eq_ok {s s' : Store} {x : Except Error (α × Store)} {a : α} :
    atomic s x = (.ok a, s') ↔ x = .ok (a, s') := by
  rcases x with e | ⟨b, s''⟩ <;> simp [atomic]

end Update

namespace Store

open Update

theorem run_push {t : Table} (row : Row t) (s : Store) :
    (push row).run s = atomic s (do
      let token ← tokenFor t (s.rowCount t + 1)
      return (token, { s with rows := s.rows.push row })) := by
  simp only [push, run_bind, run_get, run_liftM, run_modify, run_pure]
  cases tokenFor t (s.rowCount t + 1) <;> rfl

theorem run_addString (value : String) (s : Store) :
    (addString value).run s = atomic s (
      if value.isEmpty then return (0, s)
      else do
        let index ← nextIndex s.strings
        return (index, { s with strings := s.strings.append (identifierEntry value) })) := by
  unfold addString
  split
  · rfl
  · simp only [run_bind, run_get, run_liftM, run_modify, run_pure]
    cases nextIndex s.strings <;> rfl

theorem run_addBlob (value : ByteArray) (s : Store) :
    (addBlob value).run s = atomic s (do
      let index ← nextIndex s.blobs
      let entry ← blobEntry value
      return (index, { s with blobs := s.blobs.append entry })) := by
  simp only [addBlob, run_bind, run_get, run_liftM, run_modify, run_pure]
  cases nextIndex s.blobs with
  | error e => rfl
  | ok index => cases blobEntry value <;> rfl

theorem run_addLiteral (value : String) (s : Store) :
    (addLiteral value).run s = atomic s (do
      let index ← nextIndex s.literals
      let token ← tokenFor .userString index
      let entry ← literalEntry value
      return (token, { s with literals := s.literals.append entry })) := by
  simp only [addLiteral, run_bind, run_get, run_liftM, run_modify, run_pure]
  cases nextIndex s.literals with
  | error e => rfl
  | ok index =>
    simp only [bind, Except.bind]
    cases tokenFor .userString index with
    | error e => rfl
    | ok token => cases literalEntry value <;> rfl

end Store
end Cil
