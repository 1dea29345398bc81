import Cil.Proofs.Columns
import Cil.Proofs.Residue

/-! How tokens are given out.

A table gives its rows the numbers from one on, in the order in which they come, and a
literal has the number of the byte where it starts. So a store knows, for every
table, the number of the token that comes next (`Store.nextRow`). An edit that gives
out a token gives out that one and moves the number on, and no edit moves it back
(`Edit.Effect`); an edit that fails gives out none and moves no number, whatever it
leaves in the heaps. Along a history the tokens of one table therefore rise, those of
a table with rows one by one, and no token comes twice (`tokens_numbered`). -/
namespace Cil

open Bytes

/-! ### Tokens that are not there -/

/-- The computation does not end with this token not found. -/
def Finds {α : Type} (token : Token) (x : Except Error α) : Prop := x ≠ .error (.tokenNotFound token)

namespace Finds

variable {α β : Type} {token : Token}

theorem ok (a : α) : Finds token (.ok a) := nofun

theorem bind {x : Except Error α} {f : α → Except Error β} (hx : Finds token x)
    (hf : ∀ a, Finds token (f a)) : Finds token (x >>= f) := by
  intro herror
  rcases bind_eq_error.1 herror with hfirst | ⟨a, _, hsecond⟩
  · exact hx hfirst
  · exact hf a hsecond

end Finds

namespace Heap

theorem finds_entry {kind : HeapKind} (h : Heap kind) (index : Nat) (token : Token) :
    Finds token (h.entry index) := by
  unfold Finds entry slice
  split
  · split <;> nofun
  · nofun
  · nofun

theorem finds_identifier (h : Heap .strings) (index : Nat) (token : Token) :
    Finds token (h.identifier index) := by
  unfold Finds identifier
  split
  · split <;> nofun
  · nofun

end Heap

namespace Store

theorem row_error {s : Store} {t : Table} {token : Token} {e : Error} (h : s.row t token = .error e) :
    e = .tokenNotFound token := by
  unfold row at h
  split at h
  · exact (Except.error.inj h).symm
  · split at h
    · cases h
    · exact (Except.error.inj h).symm

/-- Looking for one token does not miss another. -/
theorem finds_row (s : Store) {t u : Table} {token other : Token} (htable : token.table? = some t)
    (hother : other.table? = some u) (hne : t ≠ u) : Finds token (s.row u other) := by
  intro herror
  cases row_error herror
  exact hne (Option.some.inj (htable.symm.trans hother))

theorem finds_qualifiedName (s : Store) (space name : Nat) (token : Token) :
    Finds token (s.qualifiedName space name) :=
  .bind (s.strings.finds_identifier space token) fun _ =>
    .bind (s.strings.finds_identifier name token) fun _ => .ok _

/-- What a generic instantiation is made of is in another table than the instantiation. -/
theorem finds_genericName (s : Store) {spec : Token} (hspec : spec.table? = some .methodSpec)
    (method : Token) : Finds spec (s.genericName spec method) := by
  unfold genericName
  split
  · next hmethod =>
    refine .bind (s.finds_row hspec hmethod nofun) fun row => ?_
    cases row
    exact s.strings.finds_identifier _ spec
  · next hmethod =>
    refine .bind (s.finds_row hspec hmethod nofun) fun row => ?_
    cases row
    exact s.strings.finds_identifier _ spec
  · nofun

/-- A row that is there may lead nowhere, but its own token is found. -/
theorem finds_symbol (s : Store) {token : Token} {t : Table} (htable : token.table? = some t)
    (row : Row t) : Finds token (s.symbol token row) := by
  cases row with
  | typeRef space name => exact .bind (s.finds_qualifiedName space name token) fun _ => .ok _
  | typeDef space name => exact .bind (s.finds_qualifiedName space name token) fun _ => .ok _
  | field name => exact .bind (s.strings.finds_identifier name token) fun _ => .ok _
  | methodDef name => exact .bind (s.strings.finds_identifier name token) fun _ => .ok _
  | memberRef name => exact .bind (s.strings.finds_identifier name token) fun _ => .ok _
  | standAloneSig signature => exact .bind (s.blobs.finds_entry signature token) fun _ => .ok _
  | typeSpec signature => exact .bind (s.blobs.finds_entry signature token) fun _ => .ok _
  | methodSpec method _ => exact .bind (s.finds_genericName htable method) fun _ => .ok _

/-- A token of a table with rows is not found exactly when it has the number of no row. -/
theorem resolve_eq_notFound {s : Store} {token : Token} {t : Table} (htable : token.table? = some t)
    (hrow : t ≠ .userString) :
    s.resolve token = .error (.tokenNotFound token) ↔ token.row = 0 ∨ s.rowCount t < token.row := by
  have hrange : (∃ row, s.row t token = .ok row) ↔ _ := exists_row
  rw [resolve_row htable hrow]
  constructor
  · intro h
    have hmissing : ¬∃ row, s.row t token = .ok row := by
      rintro ⟨row, hget⟩
      rw [hget] at h
      exact s.finds_symbol htable row h
    rw [hrange] at hmissing
    omega
  · intro h
    cases hget : s.row t token with
    | ok row =>
      have := hrange.1 ⟨row, hget⟩
      omega
    | error e =>
      rw [row_error hget]
      rfl

/-! ### The next number -/

/-- The number of the token that a table gives out next. -/
def nextRow (s : Store) : Table → Nat
  | .userString => s.literals.size
  | t => s.rowCount t + 1

theorem nextRow_of_row {t : Table} (s : Store) (row : Row t) : s.nextRow t = s.rowCount t + 1 := by
  cases row <;> rfl

theorem nextRow_congr {s s' : Store} (hrows : s'.rows = s.rows) (hliterals : s'.literals = s.literals)
    (t : Table) : s'.nextRow t = s.nextRow t := by
  cases t <;> simp only [nextRow, rowCount, hrows, hliterals]

theorem rowCount_push {s s' : Store} {t : Table} {row : Row t} (h : s'.rows = s.rows.push row) :
    s'.rowCount t = s.rowCount t + 1 := by
  rw [rowCount, h, Rows.get_push_self, Array.size_push, rowCount]

theorem rowCount_push_of_ne {s s' : Store} {t u : Table} {row : Row t} (h : s'.rows = s.rows.push row)
    (hne : u ≠ t) : s'.rowCount u = s.rowCount u := by
  rw [rowCount, h, Rows.get_push_of_ne _ _ hne, rowCount]

end Store

/-! ### One edit -/

namespace Edit

/-- The table of the tokens that an edit answers with. -/
def table? : Edit → Option Table
  | push (t := t) _ => some t
  | addString _ | addBlob _ => none
  | addLiteral _ => some .userString
  | addTypeRef .. => some .typeRef
  | addTypeDef .. => some .typeDef
  | addField _ => some .field
  | addMethodDef _ => some .methodDef
  | addMemberRef _ => some .memberRef
  | addStandAloneSig _ => some .standAloneSig
  | addTypeSpec _ => some .typeSpec
  | addMethodSpec .. => some .methodSpec

/-- The token that an edit was answered with, if it succeeded and there is one. -/
def tokenOf : Except Error Answer → Option Token
  | .ok (.token t) => some t
  | _ => none

/-- What an edit does to the rows and the literals, and the token that it gives out. -/
inductive Effect (s s' : Store) : Option Table → Option Token → Prop where
  | row {t : Table} {token : Token} (row : Row t) : Store.tokenFor t (s.rowCount t + 1) = .ok token →
    s'.rows = s.rows.push row → s'.literals = s.literals → Effect s s' (some t) (some token)
  | literal {token : Token} : Store.tokenFor .userString s.literals.size = .ok token →
    s'.rows = s.rows → s.literals.size < s'.literals.size →
      Effect s s' (some .userString) (some token)
  /-- It failed, or it adds to a heap of names or blobs only. -/
  | kept {table : Option Table} : s'.rows = s.rows → s'.literals = s.literals →
    Effect s s' table none

theorem Effect.of_frame {s s₁ s' : Store} {table : Option Table} {token : Option Token}
    (h : Effect s₁ s' table token) (hrows : s₁.rows = s.rows) (hliterals : s₁.literals = s.literals) :
    Effect s s' table token := by
  cases h with
  | row row htoken hrows' hliterals' =>
    rw [Store.rowCount, hrows] at htoken
    exact .row row htoken (hrows'.trans (hrows ▸ rfl)) (hliterals'.trans hliterals)
  | literal htoken hrows' hsize =>
    rw [hliterals] at htoken hsize
    exact .literal htoken (hrows'.trans hrows) hsize
  | kept hrows' hliterals' => exact .kept (hrows'.trans hrows) (hliterals'.trans hliterals)

/-- The update gives out the next token of a table, or fails without a trace in the tables. -/
def Numbers (t : Table) (u : Update Token) : Prop :=
  ∀ s, Effect s (u.run s).2 (some t) (u.run s).1.toOption

theorem Part.frame_add (part : Part) (s : Store) :
    (part.add.run s).2.rows = s.rows ∧ (part.add.run s).2.literals = s.literals := by
  rcases part.run_add s with ⟨index, hadd⟩ | ⟨err, hadd⟩
  · rw [hadd]
    exact part.frame_write s
  · rw [hadd]
    exact ⟨rfl, rfl⟩

/-- What is added to the heaps first changes no number. -/
theorem Numbers.add_bind {t : Table} {f : Nat → Update Token} (part : Part)
    (hf : ∀ index, Numbers t (f index)) : Numbers t (part.add >>= f) := by
  intro s
  obtain ⟨hrows, hliterals⟩ := part.frame_add s
  rw [Update.run_bind]
  rcases hadd : part.add.run s with ⟨err | index, s₁⟩
  · rw [hadd] at hrows hliterals
    exact .kept hrows hliterals
  · rw [hadd] at hrows hliterals
    exact (hf index s₁).of_frame hrows hliterals

theorem numbers_push {t : Table} (row : Row t) : Numbers t (Store.push row) := by
  intro s
  rw [Store.run_push]
  cases htoken : Store.tokenFor t (s.rowCount t + 1) with
  | error err => exact .kept rfl rfl
  | ok token => exact .row row htoken rfl rfl

theorem numbers_addLiteral (value : String) : Numbers .userString (Store.addLiteral value) := by
  intro s
  rw [Store.run_addLiteral]
  cases hindex : Store.nextIndex s.literals with
  | error err => exact .kept rfl rfl
  | ok index =>
    obtain rfl := Store.nextIndex_eq_ok hindex
    simp only [bind, Except.bind]
    cases htoken : Store.tokenFor .userString s.literals.size with
    | error err => exact .kept rfl rfl
    | ok token =>
      cases hentry : Store.literalEntry value with
      | error err => exact .kept rfl rfl
      | ok entry =>
        obtain ⟨payload, hpayload, _⟩ := Store.isEntry_of_literalEntry hentry
        have hpos := hpayload.size_pos
        refine .literal htoken rfl ?_
        show s.literals.size < (s.literals.append entry).size
        rw [Heap.size_append]
        omega

theorem Numbers.effect {t : Table} {u : Update Token} (hu : Numbers t u) (s : Store) :
    Effect s ((Answer.token <$> u).run s).2 (some t) (tokenOf ((Answer.token <$> u).run s).1) := by
  have htoken : ∀ x : Except Error Token, tokenOf (x.map .token) = x.toOption := by
    intro x
    cases x <;> rfl
  rw [Update.run_map, htoken]
  exact hu s

/-- An entry that is added to a heap on its own gives out no token. -/
theorem Part.effect (part : Part) (s : Store) :
    Effect s ((Answer.index <$> part.add).run s).2 none (tokenOf ((Answer.index <$> part.add).run s).1) := by
  obtain ⟨hrows, hliterals⟩ := part.frame_add s
  have hindex : ∀ x : Except Error Nat, tokenOf (x.map .index) = none := by
    intro x
    cases x <;> rfl
  rw [Update.run_map, hindex]
  exact .kept hrows hliterals

theorem effect_apply (e : Edit) (s : Store) : Effect s (e.apply s).2 e.table? (tokenOf (e.apply s).1) := by
  cases e with
  | push row => exact (numbers_push row).effect s
  | addString value => exact (Part.name value).effect s
  | addBlob value => exact (Part.blob value).effect s
  | addLiteral value => exact (numbers_addLiteral value).effect s
  | addTypeRef space name =>
    exact (Numbers.add_bind (.name space) fun _ => .add_bind (.name name) fun _ => numbers_push _).effect s
  | addTypeDef space name =>
    exact (Numbers.add_bind (.name space) fun _ => .add_bind (.name name) fun _ => numbers_push _).effect s
  | addField name => exact (Numbers.add_bind (.name name) fun _ => numbers_push _).effect s
  | addMethodDef name => exact (Numbers.add_bind (.name name) fun _ => numbers_push _).effect s
  | addMemberRef name => exact (Numbers.add_bind (.name name) fun _ => numbers_push _).effect s
  | addStandAloneSig signature => exact (Numbers.add_bind (.blob signature) fun _ => numbers_push _).effect s
  | addTypeSpec signature => exact (Numbers.add_bind (.blob signature) fun _ => numbers_push _).effect s
  | addMethodSpec method instantiation =>
    exact (Numbers.add_bind (.blob instantiation) fun _ => numbers_push _).effect s

namespace Effect

variable {s s' : Store} {table : Option Table} {given : Option Token}

/-- No number goes back. -/
theorem nextRow_le (h : Effect s s' table given) (t : Table) : s.nextRow t ≤ s'.nextRow t := by
  cases h with
  | @row u _ row _ hrows hliterals =>
    by_cases hsame : t = u
    · subst hsame
      rw [Store.nextRow_of_row s row, Store.nextRow_of_row s' row, Store.rowCount_push hrows]
      omega
    · cases t <;>
        simp only [Store.nextRow, hliterals, Store.rowCount_push_of_ne hrows hsame, Nat.le_refl]
  | literal _ hrows hsize =>
    cases t with
    | userString => exact Nat.le_of_lt hsize
    | _ => simp only [Store.nextRow, Store.rowCount, hrows, Nat.le_refl]
  | kept hrows hliterals => exact Nat.le_of_eq (Store.nextRow_congr hrows hliterals t).symm

/-- The token that is given out has the next number of its table, which moves on. -/
theorem given_next {token : Token} (h : Effect s s' table (some token)) :
    ∃ t, table = some t ∧ token.table? = some t ∧ token.row = s.nextRow t ∧ s.nextRow t < s'.nextRow t := by
  cases h with
  | @row t _ row htoken hrows hliterals =>
    obtain ⟨htable, hrow⟩ := Store.tokenFor_eq_ok htoken
    refine ⟨t, rfl, htable, ?_, ?_⟩
    · rw [hrow, Store.nextRow_of_row s row]
    · rw [Store.nextRow_of_row s row, Store.nextRow_of_row s' row, Store.rowCount_push hrows]
      omega
  | literal htoken hrows hsize =>
    obtain ⟨htable, hrow⟩ := Store.tokenFor_eq_ok htoken
    exact ⟨.userString, rfl, htable, hrow, hsize⟩

/-- A table with rows has one row more exactly when a token of it was given out. -/
theorem rowCount_eq (h : Effect s s' table given) {t : Table} (ht : t ≠ .userString) :
    (table = some t ∧ ∃ token, given = some token ∧
        Store.tokenFor t (s.rowCount t + 1) = .ok token ∧ s'.rowCount t = s.rowCount t + 1) ∨
      ((table = some t → given = none) ∧ s'.rowCount t = s.rowCount t) := by
  cases h with
  | @row u token row htoken hrows =>
    by_cases hsame : t = u
    · subst hsame
      exact .inl ⟨rfl, token, rfl, htoken, Store.rowCount_push hrows⟩
    · refine .inr ⟨fun heq => ?_, Store.rowCount_push_of_ne hrows hsame⟩
      exact absurd (Option.some.inj heq).symm hsame
  | literal _ hrows =>
    refine .inr ⟨fun heq => ?_, by rw [Store.rowCount, hrows, Store.rowCount]⟩
    exact absurd (Option.some.inj heq).symm ht
  | kept hrows => exact .inr ⟨fun _ => rfl, by rw [Store.rowCount, hrows, Store.rowCount]⟩

end Effect

/-! ### Histories -/

/-- The tokens that a history gives out, in order. -/
def tokens (s : Store) (history : List Edit) : List Token := (run s history).1.filterMap tokenOf

/-- The tokens that the edits for one table give out, in order. -/
def tokensFor (t : Table) (s : Store) (history : List Edit) : List Token :=
  (history.zip (run s history).1).filterMap fun given =>
    if given.1.table? = some t then tokenOf given.2 else none

theorem tokens_cons (s : Store) (e : Edit) (rest : List Edit) :
    tokens s (e :: rest) = (tokenOf (e.apply s).1).toList ++ tokens (e.apply s).2 rest := by
  show ((e.apply s).1 :: (run (e.apply s).2 rest).1).filterMap tokenOf = _
  rw [List.filterMap_cons]
  cases tokenOf (e.apply s).1 <;> rfl

theorem tokensFor_cons (t : Table) (s : Store) (e : Edit) (rest : List Edit) :
    tokensFor t s (e :: rest) =
      (if e.table? = some t then tokenOf (e.apply s).1 else none).toList ++
        tokensFor t (e.apply s).2 rest := by
  show ((e :: rest).zip ((e.apply s).1 :: (run (e.apply s).2 rest).1)).filterMap _ = _
  rw [List.zip_cons_cons, List.filterMap_cons]
  cases (if e.table? = some t then tokenOf (e.apply s).1 else none) <;> rfl

/-- All tokens to come have a number that is not given out yet. -/
theorem nextRow_le_of_mem {s : Store} {history : List Edit} {token : Token}
    (h : token ∈ tokens s history) : ∃ t, token.table? = some t ∧ s.nextRow t ≤ token.row := by
  induction history generalizing s with
  | nil => cases h
  | cons e rest ih =>
    have heffect := e.effect_apply s
    rw [tokens_cons] at h
    rcases List.mem_append.1 h with hfirst | hrest
    · rw [Option.mem_toList.1 hfirst] at heffect
      obtain ⟨t, _, htable, hrow, _⟩ := heffect.given_next
      exact ⟨t, htable, Nat.le_of_eq hrow.symm⟩
    · obtain ⟨t, htable, hle⟩ := ih hrest
      exact ⟨t, htable, (heffect.nextRow_le t).trans hle⟩

/-- The tokens of one table are given out in rising order. -/
theorem pairwise_tokens (s : Store) (history : List Edit) :
    (tokens s history).Pairwise fun a b => a.table? = b.table? → a.row < b.row := by
  induction history generalizing s with
  | nil => exact .nil
  | cons e rest ih =>
    have heffect := e.effect_apply s
    rw [tokens_cons]
    cases hgiven : tokenOf (e.apply s).1 with
    | none => exact ih _
    | some token =>
      rw [hgiven] at heffect
      obtain ⟨t, _, htable, hrow, hmoved⟩ := heffect.given_next
      refine List.pairwise_cons.2 ⟨fun later hlater hsame => ?_, ih _⟩
      -- a later token is not below the next number, which this token has moved on
      obtain ⟨u, hlaterTable, hle⟩ := nextRow_le_of_mem hlater
      obtain rfl : t = u := Option.some.inj (htable.symm.trans (hsame.trans hlaterTable))
      omega

theorem tokensFor_sublist (t : Table) (s : Store) (history : List Edit) :
    (tokensFor t s history).Sublist (tokens s history) := by
  induction history generalizing s with
  | nil => exact .slnil
  | cons e rest ih =>
    rw [tokensFor_cons, tokens_cons]
    refine List.Sublist.append ?_ (ih _)
    split
    · exact List.Sublist.refl _
    · exact List.nil_sublist _

theorem table?_of_mem_tokensFor {t : Table} {s : Store} {history : List Edit} {token : Token}
    (h : token ∈ tokensFor t s history) : token.table? = some t := by
  induction history generalizing s with
  | nil => cases h
  | cons e rest ih =>
    have heffect := e.effect_apply s
    rw [tokensFor_cons] at h
    rcases List.mem_append.1 h with hfirst | hrest
    · split at hfirst
      · next htable =>
        rw [Option.mem_toList.1 hfirst] at heffect
        obtain ⟨u, hu, htoken, _⟩ := heffect.given_next
        rw [htoken, ← hu, htable]
      · cases hfirst
    · exact ih hrest

/-- The rows of a table are numbered one by one, and every number was given out. -/
theorem tokensFor_eq {t : Table} (ht : t ≠ .userString) (s : Store) (history : List Edit) :
    ∃ added, (run s history).2.rowCount t = s.rowCount t + added ∧
      tokensFor t s history = (List.range' (s.rowCount t + 1) added).map (Token.ofParts t) := by
  induction history generalizing s with
  | nil => exact ⟨0, rfl, rfl⟩
  | cons e rest ih =>
    obtain ⟨added, hcount, htokens⟩ := ih (e.apply s).2
    rw [tokensFor_cons, htokens]
    show ∃ added, (run (e.apply s).2 rest).2.rowCount t = _ ∧ _
    -- the range starts at the row that this edit adds, or where it started for the rest
    rcases (e.effect_apply s).rowCount_eq ht with
      ⟨htable, token, hgiven, htoken, hone⟩ | ⟨hnone, hsame⟩
    · have hparts : token = Token.ofParts t (s.rowCount t + 1) := by
        unfold Store.tokenFor at htoken
        split at htoken
        · exact (Except.ok.inj htoken).symm
        · cases htoken
      refine ⟨added + 1, by omega, ?_⟩
      rw [if_pos htable, hgiven, hparts, hone, List.range'_succ]
      rfl
    · refine ⟨added, by omega, ?_⟩
      have hnothing : (if e.table? = some t then tokenOf (e.apply s).1 else none) = none := by
        split
        · next htable => exact hnone htable
        · rfl
      rw [hnothing, hsame]
      rfl

/-- No table outgrows the numbers that a token can carry. -/
theorem rowCount_le_run {t : Table} (ht : t ≠ .userString) {s : Store} (h : s.rowCount t ≤ Token.maxRow)
    (history : List Edit) : (run s history).2.rowCount t ≤ Token.maxRow := by
  induction history generalizing s with
  | nil => exact h
  | cons e rest ih =>
    show (run (e.apply s).2 rest).2.rowCount t ≤ Token.maxRow
    refine ih ?_
    rcases (e.effect_apply s).rowCount_eq ht with ⟨_, token, _, htoken, hone⟩ | ⟨_, hsame⟩
    · have hrow := (Store.tokenFor_eq_ok htoken).2
      have hlt := token.row_lt
      rw [hone, Token.maxRow]
      omega
    · rw [hsame]
      exact h

end Edit

/-- A store as it is made: the empty one, or one over given heaps. -/
def Store.Initial (s : Store) : Prop :=
  s = .empty ∨ ∃ strings literals blobs, Store.ofHeaps strings literals blobs = .ok s

theorem Store.Initial.rowCount {s : Store} (h : s.Initial) (t : Table) : s.rowCount t = 0 := by
  rcases h with rfl | ⟨strings, literals, blobs, hmade⟩
  · cases t <;> rfl
  · obtain ⟨_, _, hrest⟩ := bind_eq_ok.1 hmade
    obtain ⟨_, _, hrest⟩ := bind_eq_ok.1 hrest
    obtain ⟨_, _, hpure⟩ := bind_eq_ok.1 hrest
    cases hpure
    cases t <;> rfl

/-- How a history has given out tokens, and the store that it ends with. -/
structure Edit.Numbered (s : Store) (history : List Edit) (later : Store) : Prop where
  /-- The edits for a table that succeeded were answered with its rows one, two and so on. -/
  numbered : ∀ t ≠ .userString, ∀ k token, (tokensFor t s history)[k]? = some token →
    token.tableByte = t.byte ∧ token.row = k + 1
  counted : ∀ t ≠ .userString, later.rowCount t = (tokensFor t s history).length
  bounded : ∀ t ≠ .userString, later.rowCount t ≤ 0xFFFFFF
  /-- The next row can be counted in 32 bits. -/
  unwrapped : ∀ t ≠ .userString,
    (UInt32.ofNat (later.rowCount t) + 1).toNat = later.rowCount t + 1
  missing : ∀ token t, token.table? = some t → t ≠ .userString →
    (later.resolve token = .error (.tokenNotFound token) ↔
      token.row = 0 ∨ later.rowCount t < token.row)
  /-- Literals are answered with ever greater tokens. -/
  rising : (tokensFor .userString s history).Pairwise fun a b => a.value < b.value
  /-- No token is given out twice, by whichever edits. -/
  distinct : (tokens s history).Nodup

/-- Of two tokens of one table the one with the greater row is the greater. -/
theorem Token.value_lt {a b : Token} (htable : a.table? = b.table?) {t : Table} (ha : a.table? = some t)
    (hrow : a.row < b.row) : a.value < b.value := by
  have hbyte := Table.byte_of_ofByte? ha
  have hbyte' := Table.byte_of_ofByte? (htable.symm.trans ha)
  unfold tableByte at hbyte hbyte'
  unfold row at hrow
  rw [UInt32.lt_iff_toNat_lt]
  omega

/-- **Tokens are given out densely and only once.** Whatever is done to a store from the time it
is made, the rows of every table have the numbers from one to their count, in the order in
which they were added, and a token of another number is the one that is not found; literals
have rising tokens; and no two edits are answered with the same token. -/
theorem tokens_numbered (s : Store) (hs : s.Initial) (history : List Edit) :
    Edit.Numbered s history (Edit.run s history).2 := by
  have hbounded : ∀ t ≠ .userString, (Edit.run s history).2.rowCount t ≤ 0xFFFFFF := by
    intro t ht
    exact Edit.rowCount_le_run ht (by rw [hs.rowCount t]; exact Nat.zero_le _) history
  have hdense : ∀ t ≠ .userString, Edit.tokensFor t s history =
      (List.range' 1 ((Edit.run s history).2.rowCount t)).map (Token.ofParts t) := by
    intro t ht
    obtain ⟨added, hcount, htokens⟩ := Edit.tokensFor_eq ht s history
    rw [hs.rowCount t, Nat.zero_add] at hcount htokens
    rw [htokens, hcount]
  have hrising := Edit.pairwise_tokens s history
  refine
    { numbered := ?_
      counted := ?_
      bounded := hbounded
      unwrapped := ?_
      missing := fun token t htable ht => Store.resolve_eq_notFound htable ht
      rising := ?_
      distinct := ?_ }
  · intro t ht k token hk
    have hle := hbounded t ht
    rw [hdense t ht, List.getElem?_map] at hk
    obtain ⟨row, hrow, rfl⟩ := Option.map_eq_some_iff.1 hk
    obtain ⟨hlt, rfl⟩ := List.getElem?_eq_some_iff.1 hrow
    rw [List.length_range'] at hlt
    rw [List.getElem_range', Token.tableByte_ofParts, Token.row_ofParts]
    exact ⟨rfl, by omega⟩
  · intro t ht
    rw [hdense t ht, List.length_map, List.length_range']
  · intro t ht
    have hle := hbounded t ht
    rw [UInt32.toNat_add, UInt32.toNat_ofNat']
    show (_ % _ + 1) % _ = _
    omega
  · refine ((hrising.sublist (Edit.tokensFor_sublist _ s history)).imp_of_mem ?_)
    intro a b ha hb hrow
    have hatable := Edit.table?_of_mem_tokensFor ha
    have hsame := hatable.trans (Edit.table?_of_mem_tokensFor hb).symm
    exact Token.value_lt hsame hatable (hrow hsame)
  · refine hrising.imp ?_
    rintro a b hrow rfl
    exact Nat.lt_irrefl _ (hrow rfl)

/-- Rows of two tables and literals, one behind the other, in a heap that ends within a length. -/
theorem tokens_numbered_mixed :
    let s : Store := { literals := ⟨⟨#[0x00, 0xC0]⟩, rfl⟩ }
    let history : List Edit := [.addField "a", .addLiteral "x", .push (.field 99), .addString "y",
      .addTypeDef "" "T", .addLiteral "", .addField "b"]
    s.Initial ∧ Edit.Numbered s history (Edit.run s history).2 ∧
      Edit.tokens s history = [⟨0x04000001⟩, ⟨0x70000002⟩, ⟨0x04000002⟩, ⟨0x02000001⟩, ⟨0x70000006⟩,
        ⟨0x04000003⟩] := by
  intro s history
  have hmade : Store.ofHeaps ⟨#[0x00]⟩ ⟨#[0x00, 0xC0]⟩ ⟨#[0x00]⟩ = .ok s := rfl
  have hs : s.Initial := .inr ⟨_, _, _, hmade⟩
  exact ⟨hs, tokens_numbered s hs history, by decide +kernel⟩

end Cil
