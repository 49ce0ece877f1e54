import WebServerl.Erlang.Mnesia
import Mathlib.Data.Set.Function

/-! The records of `visitors.hrl`, the four store servers, and the code that their modules share.
The four `handle_call` functions differ in the rows that they build and in their queries; the
insertion of a new row, the removal of a key and `stop` are the same code in each. -/

namespace WebServerl

open Erlang Erlang.Mnesia

structure Visitor where
  name : Term
  city : Term
  date : Term
  time : Term
  deriving DecidableEq

structure Login where
  username : Term
  password : Term
  deriving DecidableEq

structure Message where
  id : Term
  mail : Term
  name : Term
  message : Term
  time : Term
  deriving DecidableEq

structure Comment where
  id : Term
  name : Term
  message : Term
  time : Term
  deriving DecidableEq

instance : Record Visitor := ⟨"visitor", Visitor.name, fun v => [v.city, v.date, v.time]⟩
instance : Record Login := ⟨"login", Login.username, fun l => [l.password]⟩
instance : Record Message :=
  ⟨"message", Message.id, fun m => [m.mail, m.name, m.message, m.time]⟩
instance : Record Comment := ⟨"comment", Comment.id, fun c => [c.name, c.message, c.time]⟩

/-- The store servers, by their registered names.  The state of each is the name of its one
table, which is the name of the table's records. -/
inductive Store where
  | visitorsDb
  | dbLogin
  | dbMessage
  | dbComment
  deriving DecidableEq

instance Store.decidableForall {P : Store → Prop} [∀ S, Decidable (P S)] :
    Decidable (∀ S, P S) :=
  decidable_of_iff (P .visitorsDb ∧ P .dbLogin ∧ P .dbMessage ∧ P .dbComment)
    ⟨fun ⟨h₁, h₂, h₃, h₄⟩ S => by cases S <;> assumption, fun h => ⟨h _, h _, h _, h _⟩⟩

abbrev Store.Row : Store → Type
  | .visitorsDb => Visitor
  | .dbLogin => Login
  | .dbMessage => Message
  | .dbComment => Comment

instance : (S : Store) → Record S.Row
  | .visitorsDb => inferInstanceAs (Record Visitor)
  | .dbLogin => inferInstanceAs (Record Login)
  | .dbMessage => inferInstanceAs (Record Message)
  | .dbComment => inferInstanceAs (Record Comment)

abbrev Db := Mnesia.Db Store Store.Row
abbrev Env := Mnesia.Env Store Store.Row
abbrev Handler := Mnesia.Handler Store Store.Row

/-- `crypto:hash(sha, term_to_binary(Password))`. -/
class Crypto where
  hash : Term → Term

/-- The digests of two passwords. -/
def digests : List (Term × Term) :=
  [(.str "admin", .binary [248, 96, 38, 76, 128, 160, 179, 202, 80, 199, 84, 35, 250, 130, 123,
      118, 86, 229, 159, 31]),
    (.str "secret", .binary [193, 1, 117, 35, 180, 240, 147, 253, 64, 170, 58, 196, 170, 141, 20,
      219, 151, 74, 107, 72])]

/-- The hash function as far as `digests` has it. -/
@[reducible] def Crypto.sample : Crypto := ⟨fun password => (digests.lookup password).getD .nil⟩

theorem Crypto.sample_injOn :
    Set.InjOn Crypto.sample.hash {p | p ∈ digests.map Prod.fst} := by
  have h : ∀ p ∈ digests.map Prod.fst, ∀ q ∈ digests.map Prod.fst,
      Crypto.sample.hash p = Crypto.sample.hash q → p = q := by decide
  exact fun p hp q hq => h p hp q hq

/-- What a client asks of a server: one of the requests of its module, or `stop`. -/
inductive Call (Request : Type) where
  | request (r : Request)
  | stop

inductive Reply (ρ : Type) where
  | ok
  | alreadyInserted
  | bool (b : Bool)
  | none
  | rows (l : List ρ)
  | names (l : List Term)
  | terminated
  deriving DecidableEq

/-- What `handle_call` returns: `{reply, R, Tab}`, or `{stop, normal, R, []}`. -/
inductive Callback (ρ : Type) where
  | reply (r : Reply ρ)
  | stop (r : Reply ρ)

/-- `get_comment`, `get_account`, `get_message` and `get_visitor`. -/
def getRow (S : Store) (key : Term) : Handler (TxResult (List S.Row)) := transaction (read S key)

/-- The end of `add_comment`, `create_account`, `add_message` and `insert_visitor`: the row is
written when the read finds no row of its key.  The result of the write is not looked at. -/
def insertNew (S : Store) (row : S.Row) : Handler (Callback S.Row) := do
  match ← getRow S (Record.key row) with
  | .atomic [] =>
    let _ ← transaction (write S row)
    return .reply .ok
  | .atomic _ => return .reply .alreadyInserted
  | .aborted _ => Handler.crash

/-- `handle_call({remove, Key}, ..)`. -/
def removeKey (S : Store) (key : Term) : Handler (Callback S.Row) := do
  let _ ← transaction (delete S key)
  return .reply .ok

/-- `regular_transaction`; the atom `none` is Lean's `none`. -/
def regularTransaction {α : Type} (F : Activity Store Store.Row (List α)) :
    Handler (Option (List α)) := do
  match ← transaction F with
  | .atomic [] => return none
  | .atomic l => return some l
  | .aborted _ => Handler.crash

/-- `handle_call(stop, ..)`: Mnesia stops with the server. -/
def stopServer (S : Store) : Handler (Callback S.Row) := fun e =>
  (some (.stop .terminated), { e with db := e.db.stop })

/-- `handle_cast/2` of each server. -/
def handleCast (_request : Term) : Handler Unit := pure ()

/-- `handle_info/2` of each server. -/
def handleInfo (_info : Term) : Handler Unit := pure ()

/-- A handler that neither changes Mnesia nor replies `ok`. -/
def Queries {ρ : Type} (h : Handler (Callback ρ)) : Prop :=
  ∀ e, (h e).2.db = e.db ∧ (h e).1 ≠ some (.reply .ok)

/-- What `insertNew` does to a table, when nothing is aborted. -/
def insertRow {ρ : Type} [Record ρ] (row : ρ) (T : Table ρ) : Reply ρ × Table ρ :=
  if Record.key row ∈ T.keys then (.alreadyInserted, T) else (.ok, T.write row)

theorem regularTransaction_readOnly {α : Type} {F : Activity Store Store.Row (List α)}
    (hF : ∀ tables a tables', F tables = .ok (a, tables') → tables' = tables) (e : Env) :
    (regularTransaction F e).2.db = e.db := by
  have hdb := transaction_readOnly hF e
  rw [regularTransaction, Handler.bind_apply]
  match transaction F e, hdb with
  | (some (.atomic []), e'), hdb => exact hdb
  | (some (.atomic (_ :: _)), e'), hdb => exact hdb
  | (some (.aborted _), e'), hdb => exact hdb
  | (none, e'), hdb => exact hdb

theorem queries_regularTransaction {S : Store} {α : Type}
    (f : Table S.Row → Tables Store Store.Row → List α) {reply : Option (List α) → Reply S.Row}
    (hreply : ∀ r, reply r ≠ .ok) :
    Queries (do
      let r ← regularTransaction (withTable S fun T tables => (f T tables, tables))
      return .reply (reply r)) := by
  intro e
  have hdb : (regularTransaction (withTable S fun T tables => (f T tables, tables)) e).2.db =
      e.db := by
    refine regularTransaction_readOnly (fun tables a tables' h => ?_) e
    unfold withTable at h
    split at h
    · cases h
    · cases h
      rfl
  rw [Handler.bind_apply]
  match regularTransaction (withTable S fun T tables => (f T tables, tables)) e, hdb with
  | (some r, e'), hdb => exact ⟨hdb, fun h => hreply r (by simpa using h)⟩
  | (none, e'), hdb => exact ⟨hdb, nofun⟩

section Specs

variable {S : Store} {db : Db} {T : Table S.Row} {fates : List (Option Term)}

theorem insertRow_new {ρ : Type} [Record ρ] {row : ρ} {T : Table ρ}
    (h : Record.key row ∉ T.keys) : insertRow row T = (.ok, T.write row) := if_neg h

theorem insertRow_taken {ρ : Type} [Record ρ] {row : ρ} {T : Table ρ}
    (h : Record.key row ∈ T.keys) : insertRow row T = (.alreadyInserted, T) := if_pos h

theorem insertRow_ok_iff {ρ : Type} [Record ρ] {row : ρ} {T : Table ρ} :
    (insertRow row T).1 = .ok ↔ Record.key row ∉ T.keys := by
  by_cases h : Record.key row ∈ T.keys
  · simp [insertRow_taken h, h]
  · simp [insertRow_new h, h]

theorem insertRow_refused_iff {ρ : Type} [Record ρ] {row : ρ} {T : Table ρ} :
    (insertRow row T).1 = .alreadyInserted ↔ Record.key row ∈ T.keys := by
  by_cases h : Record.key row ∈ T.keys
  · simp [insertRow_taken h, h]
  · simp [insertRow_new h, h]

/-- The rows after an insertion: those before it, and the new one if its key was free. -/
theorem mem_insertRow {ρ : Type} [Record ρ] {new row : ρ} {T : Table ρ} :
    row ∈ (insertRow new T).2 ↔ row ∈ T ∨ (Record.key new ∉ T.keys ∧ row = new) := by
  by_cases hk : Record.key new ∈ T.keys
  · simp [insertRow_taken hk, hk]
  · rw [insertRow_new hk, KeyedTable.mem_write_new hk]
    simp [hk, or_comm]

theorem insertNew_taken (hT : db.table? S = some T) (hf : Commits fates) {row : S.Row}
    (hk : Record.key row ∈ T.keys) :
    insertNew S row ⟨db, fates⟩ = (some (.reply .alreadyInserted), ⟨db, fates.tail⟩) := by
  obtain ⟨r, hr, hkey, hread⟩ := (T.read_cases (Record.key row)).resolve_left fun h => h.1 hk
  rw [insertNew, getRow, Handler.bind_of_some (transaction_read hT hf _), hread]
  rfl

theorem insertNew_new (hT : db.table? S = some T) (hf : Commits fates)
    (hf' : Commits fates.tail) {row : S.Row} (hk : Record.key row ∉ T.keys) :
    insertNew S row ⟨db, fates⟩ =
      (some (.reply .ok), ⟨db.setTable S (T.write row), fates.tail.tail⟩) := by
  rw [insertNew, getRow, Handler.bind_of_some (transaction_read hT hf _),
    KeyedTable.read_eq_nil.mpr hk]
  exact Handler.bind_of_some (transaction_write hT hf' row) _

theorem insertNew_apply (hT : db.table? S = some T) (row : S.Row) :
    insertNew S row ⟨db, []⟩ = (some (.reply (insertRow row T).1),
      ⟨db.setTable S (insertRow row T).2, []⟩) := by
  by_cases hk : Record.key row ∈ T.keys
  · rw [insertNew_taken hT rfl hk, insertRow_taken hk, Db.setTable_self hT]
    rfl
  · rw [insertNew_new hT rfl rfl hk, insertRow_new hk]
    rfl

theorem removeKey_apply (hT : db.table? S = some T) (hf : Commits fates)
    (key : Term) : removeKey S key ⟨db, fates⟩ =
      (some (.reply .ok), ⟨db.setTable S (T.erase key), fates.tail⟩) := by
  rw [removeKey]
  exact Handler.bind_of_some (transaction_delete hT hf key) _

theorem regularTransaction_apply {α : Type} {F : Activity Store Store.Row (List α)} {e e' : Env}
    {l : List α} (h : transaction F e = (some (.atomic l), e')) :
    regularTransaction F e = (some (if l = [] then none else some l), e') := by
  rw [regularTransaction, Handler.bind_of_some h]
  cases l <;> rfl

end Specs

section Missing

variable {S : Store} {db : Db}

theorem transaction_missing (hT : db.table? S = none) {α : Type}
    (f : Table S.Row → Tables Store Store.Row → α × Tables Store Store.Row) :
    ∃ reason, transaction (withTable S f) ⟨db, []⟩ = (some (.aborted reason), ⟨db, []⟩) := by
  cases db with
  | stopped => exact ⟨_, rfl⟩
  | running tables =>
    have hF : withTable S f tables = .error (noExists S.Row) := by
      simp only [Db.table?] at hT
      simp only [withTable, hT]
    exact ⟨noExists S.Row, by simp only [transaction, hF, List.tail_nil]⟩

theorem insertNew_missing (hT : db.table? S = none) (row : S.Row) :
    insertNew S row ⟨db, []⟩ = (none, ⟨db, []⟩) := by
  obtain ⟨reason, h⟩ := transaction_missing hT fun T tables => (T.read (Record.key row), tables)
  exact Handler.bind_of_some h _

theorem removeKey_missing (hT : db.table? S = none) (key : Term) :
    removeKey S key ⟨db, []⟩ = (some (.reply .ok), ⟨db, []⟩) := by
  obtain ⟨reason, h⟩ := transaction_missing hT fun T tables =>
    ((), Function.update tables S (some (T.erase key)))
  exact Handler.bind_of_some h _

theorem regularTransaction_missing (hT : db.table? S = none) {α : Type}
    (f : Table S.Row → Tables Store Store.Row → List α × Tables Store Store.Row) :
    regularTransaction (withTable S f) ⟨db, []⟩ = (none, ⟨db, []⟩) := by
  obtain ⟨reason, h⟩ := transaction_missing hT f
  exact Handler.bind_of_some h _

theorem dirtyAllKeys_missing (hT : db.table? S = none) :
    dirtyAllKeys S ⟨db, []⟩ = (none, ⟨db, []⟩) := by
  simp only [dirtyAllKeys, hT]

end Missing

end WebServerl
