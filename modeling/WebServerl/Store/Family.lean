import WebServerl.Store.DbComment
import WebServerl.Store.DbLogin
import WebServerl.Store.DbMessage
import WebServerl.Store.VisitorsDb

/-! The four stores as one family, indexed by their names. -/

namespace WebServerl

open Erlang Erlang.Mnesia

abbrev Store.Request : Store → Type
  | .visitorsDb => VisitorsDb.Request
  | .dbLogin => DbLogin.Request
  | .dbMessage => DbMessage.Request
  | .dbComment => DbComment.Request

section Family

variable [Crypto] [Ets]

def Store.handleCall : (S : Store) → Call S.Request → DateTime → Handler (Callback S.Row)
  | .visitorsDb => VisitorsDb.handleCall
  | .dbLogin => DbLogin.handleCall
  | .dbMessage => DbMessage.handleCall
  | .dbComment => DbComment.handleCall

def Store.answer :
    (S : Store) → S.Request → DateTime → Table S.Row → Reply S.Row × Table S.Row
  | .visitorsDb => VisitorsDb.answer
  | .dbLogin => DbLogin.answer
  | .dbMessage => DbMessage.answer
  | .dbComment => DbComment.answer

/-- The row that a request asks to be stored. -/
def Store.newRow? : (S : Store) → S.Request → DateTime → Table S.Row → Option S.Row
  | .visitorsDb, .insertVisitor name city, now, _ => some (VisitorsDb.newRow name city now)
  | .dbLogin, .createAccount username password, _, _ => some (DbLogin.newRow username password)
  | .dbMessage, .addMessage name email message, now, T =>
    some (DbMessage.newRow T.size name email message now)
  | .dbComment, .addComment name message, now, T =>
    some (DbComment.newRow T.size name message now)
  | _, _, _, _ => none

/-- The key in `{remove, Key}`. -/
def Store.removedKey? : (S : Store) → S.Request → Option Term
  | .visitorsDb, .remove key => some key
  | .dbLogin, .remove key => some key
  | .dbMessage, .remove key => some key
  | .dbComment, .remove key => some key
  | _, _ => none

/-- A server whose table exists computes its `answer`. -/
theorem Store.handleCall_apply {S : Store} {db : Db} {T : Table S.Row}
    (hT : db.table? S = some T) (r : S.Request) (now : DateTime) :
    S.handleCall (.request r) now ⟨db, []⟩ =
      (some (.reply (S.answer r now T).1), ⟨db.setTable S (S.answer r now T).2, []⟩) := by
  cases S with
  | visitorsDb => exact VisitorsDb.handleCall_apply hT r now
  | dbLogin => exact DbLogin.handleCall_apply hT r now
  | dbMessage => exact DbMessage.handleCall_apply hT r now
  | dbComment => exact DbComment.handleCall_apply hT r now

/-- The three things that a server does with a request: an insertion, a removal or a query. -/
theorem Store.handleCall_cases {S : Store} {db : Db} {T : Table S.Row}
    (hT : db.table? S = some T) (r : S.Request) (now : DateTime) :
    (∃ row, S.newRow? r now T = some row ∧ S.removedKey? r = none ∧ ∀ fates,
      S.handleCall (.request r) now ⟨db, fates⟩ = insertNew S row ⟨db, fates⟩) ∨
    (∃ key, S.newRow? r now T = none ∧ S.removedKey? r = some key ∧
      S.handleCall (.request r) now = removeKey S key) ∨
    (S.newRow? r now T = none ∧ S.removedKey? r = none ∧
      Queries (S.handleCall (.request r) now)) := by
  cases S with
  | visitorsDb =>
    cases r with
    | insertVisitor name city => exact .inl ⟨_, rfl, rfl, fun _ => rfl⟩
    | remove key => exact .inr (.inl ⟨key, rfl, rfl, rfl⟩)
    | allNames =>
      exact .inr (.inr ⟨rfl, rfl, queries_regularTransaction _ fun r => by cases r <;> nofun⟩)
    | getTodayVisitors =>
      exact .inr (.inr ⟨rfl, rfl, queries_regularTransaction _ fun r => by cases r <;> nofun⟩)
    | dumpVisitors =>
      exact .inr (.inr ⟨rfl, rfl, queries_regularTransaction _ fun r => by cases r <;> nofun⟩)
  | dbLogin =>
    cases r with
    | createAccount username password => exact .inl ⟨_, rfl, rfl, fun _ => rfl⟩
    | remove key => exact .inr (.inl ⟨key, rfl, rfl, rfl⟩)
    | attemptLogin username password =>
      exact .inr (.inr ⟨rfl, rfl, DbLogin.queries_attemptLogin username password now⟩)
  | dbMessage =>
    cases r with
    | addMessage name email message =>
      refine .inl ⟨_, rfl, rfl, fun fates => ?_⟩
      rw [← KeyedTable.length_keys]
      exact Handler.bind_of_some (dirtyAllKeys_apply hT) _
    | remove key => exact .inr (.inl ⟨key, rfl, rfl, rfl⟩)
    | dumpMessages => exact .inr (.inr ⟨rfl, rfl, queries_regularTransaction _ fun r => nofun⟩)
  | dbComment =>
    cases r with
    | addComment name message =>
      refine .inl ⟨_, rfl, rfl, fun fates => ?_⟩
      rw [← KeyedTable.length_keys]
      exact Handler.bind_of_some (dirtyAllKeys_apply hT) _
    | remove key => exact .inr (.inl ⟨key, rfl, rfl, rfl⟩)
    | dumpComments => exact .inr (.inr ⟨rfl, rfl, queries_regularTransaction _ fun r => nofun⟩)

/-- What a request does to the table: an insertion, a removal or nothing. -/
theorem Store.answer_cases (S : Store) (r : S.Request) (now : DateTime) (T : Table S.Row) :
    (∃ row, S.newRow? r now T = some row ∧ S.removedKey? r = none ∧
      S.answer r now T = insertRow row T) ∨
    (∃ key, S.removedKey? r = some key ∧ S.answer r now T = (.ok, T.erase key)) ∨
    (S.newRow? r now T = none ∧ S.removedKey? r = none ∧ (S.answer r now T).2 = T) := by
  cases S with
  | visitorsDb =>
    cases r with
    | insertVisitor name city => exact .inl ⟨_, rfl, rfl, rfl⟩
    | remove key => exact .inr (.inl ⟨key, rfl, rfl⟩)
    | _ => exact .inr (.inr ⟨rfl, rfl, rfl⟩)
  | dbLogin =>
    cases r with
    | createAccount username password => exact .inl ⟨_, rfl, rfl, rfl⟩
    | remove key => exact .inr (.inl ⟨key, rfl, rfl⟩)
    | attemptLogin username password => exact .inr (.inr ⟨rfl, rfl, rfl⟩)
  | dbMessage =>
    cases r with
    | addMessage name email message => exact .inl ⟨_, rfl, rfl, rfl⟩
    | remove key => exact .inr (.inl ⟨key, rfl, rfl⟩)
    | dumpMessages => exact .inr (.inr ⟨rfl, rfl, rfl⟩)
  | dbComment =>
    cases r with
    | addComment name message => exact .inl ⟨_, rfl, rfl, rfl⟩
    | remove key => exact .inr (.inl ⟨key, rfl, rfl⟩)
    | dumpComments => exact .inr (.inr ⟨rfl, rfl, rfl⟩)

/-- A request other than the `remove` of its key keeps a row: an insertion overwrites none. -/
theorem Store.answer_keeps_row {S : Store} {r : S.Request} (now : DateTime) {T : Table S.Row}
    {row : S.Row} (hr : S.removedKey? r ≠ some (Record.key row)) (h : row ∈ T) :
    row ∈ (S.answer r now T).2 := by
  rcases S.answer_cases r now T with ⟨new, -, -, hans⟩ | ⟨key, hkey, hans⟩ | ⟨-, -, hans⟩
  · rw [hans]
    exact mem_insertRow.mpr (.inl h)
  · rw [hans]
    refine KeyedTable.mem_erase.mpr ⟨h, fun heq => hr ?_⟩
    rw [hkey, heq]
  · rw [hans]
    exact h

theorem Store.answer_keeps {S : Store} {r : S.Request} (hr : S.removedKey? r = none)
    (now : DateTime) {T : Table S.Row} {row : S.Row} (h : row ∈ T) :
    row ∈ (S.answer r now T).2 :=
  Store.answer_keeps_row now (by rw [hr]; nofun) h

/-- The answer to a request and the table after it. -/
def Store.ask (S : Store) (T : Table S.Row) (i : S.Request × DateTime) :
    Reply S.Row × Table S.Row := S.answer i.1 i.2 T

theorem Store.handleCall_stop (S : Store) (now : DateTime) (e : Env) :
    S.handleCall .stop now e = (some (.stop .terminated), { e with db := e.db.stop }) := by
  cases S <;> rfl

end Family

section Missing

variable {S : Store} {db : Db} [Crypto] [Ets]

/-- A server whose table is gone changes nothing: it crashes on every request except `remove`,
which replies `ok` even when its transaction fails. -/
theorem Store.handleCall_missing (hT : db.table? S = none) (r : S.Request) (now : DateTime) :
    S.handleCall (.request r) now ⟨db, []⟩ =
      (if (S.removedKey? r).isSome then some (.reply .ok) else none, ⟨db, []⟩) := by
  cases S with
  | visitorsDb =>
    cases r with
    | insertVisitor name city => exact insertNew_missing hT _
    | remove key => exact removeKey_missing hT key
    | allNames => exact Handler.bind_of_none (regularTransaction_missing hT _) _
    | getTodayVisitors => exact Handler.bind_of_none (regularTransaction_missing hT _) _
    | dumpVisitors => exact Handler.bind_of_none (regularTransaction_missing hT _) _
  | dbLogin =>
    cases r with
    | createAccount username password => exact insertNew_missing hT _
    | remove key => exact removeKey_missing hT key
    | attemptLogin username password =>
      obtain ⟨reason, h⟩ := transaction_missing hT fun T tables => (T.read username, tables)
      exact Handler.bind_of_some h _
  | dbMessage =>
    cases r with
    | addMessage name email message => exact Handler.bind_of_none (dirtyAllKeys_missing hT) _
    | remove key => exact removeKey_missing hT key
    | dumpMessages => exact Handler.bind_of_none (regularTransaction_missing hT _) _
  | dbComment =>
    cases r with
    | addComment name message => exact Handler.bind_of_none (dirtyAllKeys_missing hT) _
    | remove key => exact removeKey_missing hT key
    | dumpComments => exact Handler.bind_of_none (regularTransaction_missing hT _) _

end Missing

end WebServerl
