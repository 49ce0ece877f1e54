import WebServerl.Store.Server

/-! `db_login.erl`: the accounts, under their user names, with hashed passwords. -/

namespace WebServerl.DbLogin

open Erlang Erlang.Mnesia

inductive Request where
  | createAccount (username password : Term)
  | remove (key : Term)
  | attemptLogin (username password : Term)
  deriving DecidableEq

variable [Crypto]

def newRow (username password : Term) : Login := { username, password := Crypto.hash password }

def handleCall : Call Request → DateTime → Handler (Callback Login)
  | .request (.createAccount username password), _ =>
    insertNew .dbLogin (newRow username password)
  | .request (.remove key), _ => removeKey .dbLogin key
  | .request (.attemptLogin username password), _ => do
    match ← getRow .dbLogin username with
    | .atomic [row] =>
      -- the pattern `{Tab, Username, PWHash}`, in which `Tab` and `Username` are bound
      match Record.elements row with
      | [tab, user, pwHash] =>
        if tab = .atom "login" ∧ user = username then
          return .reply (.bool (pwHash = Crypto.hash password))
        else Handler.crash
      | _ => Handler.crash
    | .atomic [] => return .reply (.bool false)
    | _ => Handler.crash
  | .stop, _ => stopServer .dbLogin

/-- What a request does to a table, when nothing is aborted. -/
def answer : Request → DateTime → Table Login → Reply Login × Table Login
  | .createAccount username password, _, T => insertRow (newRow username password) T
  | .remove key, _, T => (.ok, T.erase key)
  | .attemptLogin username password, _, T =>
    (.bool (decide (⟨username, Crypto.hash password⟩ ∈ T.rows)), T)

theorem queries_attemptLogin (username password : Term) (now : DateTime) :
    Queries (handleCall (.request (.attemptLogin username password)) now) := by
  intro e
  have hdb : (getRow .dbLogin username e).2.db = e.db := by
    refine transaction_readOnly (fun tables a tables' h => ?_) e
    unfold Mnesia.read withTable at h
    split at h
    · cases h
    · cases h
      rfl
  rw [handleCall, Handler.bind_apply]
  match getRow .dbLogin username e, hdb with
  | (some (.atomic []), e'), hdb => exact ⟨hdb, nofun⟩
  | (some (.atomic [row]), e'), hdb =>
    simp only [Record.elements, Record.name, Record.fields]
    split
    · exact ⟨hdb, by simp⟩
    · exact ⟨hdb, nofun⟩
  | (some (.atomic (_ :: _ :: _)), e'), hdb => exact ⟨hdb, nofun⟩
  | (some (.aborted _), e'), hdb => exact ⟨hdb, nofun⟩
  | (none, e'), hdb => exact ⟨hdb, nofun⟩

section Answers

variable {T : Table Login} {username password : Term} {now : DateTime}

theorem answer_create_new (h : username ∉ T.keys) :
    answer (.createAccount username password) now T =
      (.ok, T.write (newRow username password)) := insertRow_new h

theorem answer_create_taken (h : username ∈ T.keys) :
    answer (.createAccount username password) now T = (.alreadyInserted, T) := insertRow_taken h

/-- Whatever the reply, the name has an account after a registration. -/
theorem mem_keys_create (username password : Term) (now : DateTime) (T : Table Login) :
    username ∈ (answer (.createAccount username password) now T).2.keys := by
  by_cases h : username ∈ T.keys
  · rwa [answer_create_taken h]
  · rw [answer_create_new h]
    exact KeyedTable.mem_keys_write.mpr (.inl rfl)

/-- An account has one password. -/
theorem mem_newRow_iff (hrow : newRow username password ∈ T) {password' : Term} :
    newRow username password' ∈ T ↔ Crypto.hash password' = Crypto.hash password := by
  constructor
  · intro hrow'
    exact congrArg Login.password (KeyedTable.eq_of_key_eq hrow' hrow rfl)
  · intro hhash
    rwa [newRow, hhash]

end Answers

theorem handleCall_apply {db : Db} {T : Table Login} (hT : db.table? .dbLogin = some T)
    (r : Request) (now : DateTime) : handleCall (.request r) now ⟨db, []⟩ =
      (some (.reply (answer r now T).1), ⟨db.setTable .dbLogin (answer r now T).2, []⟩) := by
  cases r with
  | createAccount username password => exact insertNew_apply hT _
  | remove key => exact removeKey_apply hT rfl key
  | attemptLogin username password =>
    rw [handleCall, getRow, Handler.bind_of_some (transaction_read hT rfl username), answer,
      Db.setTable_self hT]
    rcases T.read_cases username with ⟨hk, hread⟩ | ⟨row, hrow, hkey, hread⟩
    · have hno : (⟨username, Crypto.hash password⟩ : Login) ∉ T.rows := fun h =>
        hk (KeyedTable.key_mem_keys h)
      rw [hread, decide_eq_false hno]
      rfl
    · have hiff : (⟨username, Crypto.hash password⟩ : Login) ∈ T.rows ↔
          row.password = Crypto.hash password := by
        constructor
        · intro h
          have heq := KeyedTable.eq_of_key_eq hrow h hkey
          rw [heq]
        · intro h
          have heq : row = ⟨username, Crypto.hash password⟩ := by
            cases row
            cases hkey
            cases h
            rfl
          rw [← heq]
          exact hrow
      have hdec : decide ((⟨username, Crypto.hash password⟩ : Login) ∈ T.rows) =
          decide (row.password = Crypto.hash password) := decide_eq_decide.mpr hiff
      rw [hread, hdec]
      cases hkey
      simp [Record.elements, Record.name, Record.fields, Record.key]

end WebServerl.DbLogin
