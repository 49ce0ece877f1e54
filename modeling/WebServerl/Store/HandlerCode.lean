import WebServerl.Lib.Part
import WebServerl.Store.Family

/-! What the servers do in a `handle_call`, call of Mnesia by call of Mnesia.  Run at a stretch,
these programs are the handlers.  Of all tables a request only concerns that of its store, and what
it does to it can be taken for atomic as long as nobody else does more to the table than to lose
it. -/

namespace WebServerl

open Erlang Erlang.Mnesia

/-- A call of Mnesia by the server of `S`.  Each of its transactions makes one access. -/
inductive DbOp (S : Store) where
  | dirtyAllKeys
  | read (key : Term)
  | write (row : S.Row)
  | delete (key : Term)
  | matchObject (pat : List Pat)
  | select (pat : List Pat) (n : Nat)
  | stop

/-- What it gets back; `none` is an exit or an abort, whose reason no handler looks at. -/
abbrev DbOp.Res {S : Store} : DbOp S → Type
  | .dirtyAllKeys => Option (List Term)
  | .read _ => Option (List S.Row)
  | .write _ => Option Unit
  | .delete _ => Option Unit
  | .matchObject _ => Option (List S.Row)
  | .select _ _ => Option (List Term)
  | .stop => Unit

abbrev DbCode (S : Store) (α : Type) := Program (DbOp S) DbOp.Res α

/-! ### The programs -/

namespace DbCode

variable {S : Store}

/-- `mnesia:dirty_all_keys/1`, which crashes the handler when it exits. -/
def dirtyAllKeys : DbCode S (List Term) := do
  match ← Program.op DbOp.dirtyAllKeys with
  | some keys => return keys
  | none => .crash

def insertNew (row : S.Row) : DbCode S (Callback S.Row) := do
  match ← Program.op (DbOp.read (Record.key row)) with
  | some [] =>
    let _ ← Program.op (DbOp.write row)
    return .reply .ok
  | some _ => return .reply .alreadyInserted
  | none => .crash

def removeKey (key : Term) : DbCode S (Callback S.Row) := do
  let _ ← Program.op (DbOp.delete key)
  return .reply .ok

def regularTransaction {α : Type} (F : DbCode S (Option (List α))) :
    DbCode S (Option (List α)) := do
  match ← F with
  | some [] => return none
  | some l => return some l
  | none => .crash

end DbCode

def VisitorsDb.code : VisitorsDb.Request → DateTime → DbCode .visitorsDb (Callback Visitor)
  | .insertVisitor name city, now => DbCode.insertNew (newRow name city now)
  | .remove key, _ => DbCode.removeKey key
  | .allNames, _ => do
    let r ← DbCode.regularTransaction (Program.op (DbOp.select nameHead 1))
    return .reply (r.elim .none .names)
  | .getTodayVisitors, now => do
    let r ← DbCode.regularTransaction (Program.op (DbOp.select (todayHead now.date) 1))
    return .reply (r.elim .none .names)
  | .dumpVisitors, _ => do
    let r ← DbCode.regularTransaction (Program.op (DbOp.matchObject anyVisitor))
    return .reply (r.elim .none .rows)

/-- What `attempt_login` makes of the rows that it finds. -/
def DbLogin.checkLogin [Crypto] (username password : Term) :
    Option (List Login) → DbCode .dbLogin (Callback Login)
  | some [row] =>
    match Record.elements row with
    | [tab, user, pwHash] =>
      if tab = .atom "login" ∧ user = username then
        return .reply (.bool (pwHash = Crypto.hash password))
      else .crash
    | _ => .crash
  | some [] => return .reply (.bool false)
  | _ => .crash

def DbLogin.code [Crypto] : DbLogin.Request → DateTime → DbCode .dbLogin (Callback Login)
  | .createAccount username password, _ => DbCode.insertNew (newRow username password)
  | .remove key, _ => DbCode.removeKey key
  | .attemptLogin username password, _ => do
    let r ← Program.op (DbOp.read username)
    checkLogin username password r

def DbMessage.code : DbMessage.Request → DateTime → DbCode .dbMessage (Callback Message)
  | .addMessage name email message, now => do
    let keys ← DbCode.dirtyAllKeys
    DbCode.insertNew (newRow keys.length name email message now)
  | .remove key, _ => DbCode.removeKey key
  | .dumpMessages, _ => do
    let r ← DbCode.regularTransaction (Program.op (DbOp.matchObject anyMessage))
    return .reply (.rows (r.getD []))

def DbComment.code : DbComment.Request → DateTime → DbCode .dbComment (Callback Comment)
  | .addComment name message, now => do
    let keys ← DbCode.dirtyAllKeys
    DbCode.insertNew (newRow keys.length name message now)
  | .remove key, _ => DbCode.removeKey key
  | .dumpComments, _ => do
    let r ← DbCode.regularTransaction (Program.op (DbOp.matchObject anyComment))
    return .reply (.rows (r.getD []))

def Store.code [Crypto] : (S : Store) → Call S.Request → DateTime → DbCode S (Callback S.Row)
  | _, .stop, _ => do
    let _ ← Program.op DbOp.stop
    return .stop .terminated
  | .visitorsDb, .request r, now => VisitorsDb.code r now
  | .dbLogin, .request r, now => DbLogin.code r now
  | .dbMessage, .request r, now => DbMessage.code r now
  | .dbComment, .request r, now => DbComment.code r now

/-! ### At a stretch -/

/-- A transaction that is not interfered with. -/
def committed {α : Type} (F : Activity Store Store.Row α) (db : Db) : Option α × Db :=
  match transaction F ⟨db, []⟩ with
  | (some (.atomic a), e) => (some a, e.db)
  | (_, e) => (none, e.db)

def DbOp.exec [Ets] {S : Store} : (o : DbOp S) → Db → o.Res × Db
  | .dirtyAllKeys, db => ((Mnesia.dirtyAllKeys S ⟨db, []⟩).1, db)
  | .read key, db => committed (Mnesia.read S key) db
  | .write row, db => committed (Mnesia.write S row) db
  | .delete key, db => committed (Mnesia.delete S key) db
  | .matchObject pat, db => committed (Mnesia.matchObject S pat) db
  | .select pat n, db => committed (Mnesia.select S pat n) db
  | .stop, db => ((), db.stop)

/-- The two outcomes of a transaction. -/
theorem committed_cases {α : Type} (F : Activity Store Store.Row α) (db : Db) :
    (∃ a, (committed F db).1 = some a ∧
      transaction F ⟨db, []⟩ = (some (.atomic a), ⟨(committed F db).2, []⟩)) ∨
    ∃ reason, (committed F db).1 = none ∧
      transaction F ⟨db, []⟩ = (some (.aborted reason), ⟨(committed F db).2, []⟩) := by
  cases db with
  | stopped => exact .inr ⟨_, rfl, rfl⟩
  | running tables =>
    cases hF : F tables with
    | error reason =>
      have htx : transaction F ⟨.running tables, []⟩ =
          (some (.aborted reason), ⟨.running tables, []⟩) := by
        simp only [transaction, hF, List.tail_nil]
      exact .inr ⟨reason, by simp only [committed, htx], by simp only [committed, htx]⟩
    | ok res =>
      have htx : transaction F ⟨.running tables, []⟩ =
          (some (.atomic res.1), ⟨.running res.2, []⟩) := by
        simp only [transaction, hF, List.tail_nil]
      exact .inl ⟨res.1, by simp only [committed, htx], by simp only [committed, htx]⟩

/-- The program, run at a stretch, is the handler, when no transaction is interfered with. -/
def DbCode.Runs [Ets] {S : Store} {α : Type} (g : DbCode S α) (h : Handler α) : Prop :=
  ∀ db, h ⟨db, []⟩ = ((g.eval DbOp.exec db).1, ⟨(g.eval DbOp.exec db).2, []⟩)

section Runs

variable [Ets] {S : Store}

theorem DbCode.insertNew_runs (row : S.Row) :
    (DbCode.insertNew row).Runs (WebServerl.insertNew S row) := by
  intro db
  rw [WebServerl.insertNew, getRow, DbCode.insertNew, Program.op_bind, Program.eval_perform]
  simp only [DbOp.exec]
  rcases committed_cases (Mnesia.read S (Record.key row)) db with ⟨l, hres, htx⟩ |
    ⟨reason, hres, htx⟩
  · rw [Handler.bind_of_some htx, hres]
    cases l with
    | nil =>
      simp only [Program.op_bind, Program.eval_perform, DbOp.exec]
      rcases committed_cases (Mnesia.write S row)
        (committed (Mnesia.read S (Record.key row)) db).2 with ⟨u, -, hwrite⟩ | ⟨reason, -, hwrite⟩
      · exact Handler.bind_of_some hwrite _
      · exact Handler.bind_of_some hwrite _
    | cons r l => rfl
  · rw [Handler.bind_of_some htx, hres]
    rfl

theorem DbCode.removeKey_runs (key : Term) :
    (DbCode.removeKey key : DbCode S _).Runs (WebServerl.removeKey S key) := by
  intro db
  rw [WebServerl.removeKey, DbCode.removeKey, Program.op_bind, Program.eval_perform]
  rcases committed_cases (Mnesia.delete S key) db with ⟨u, -, htx⟩ | ⟨reason, -, htx⟩
  · exact Handler.bind_of_some htx _
  · exact Handler.bind_of_some htx _

/-- A query: the rows that a transaction finds, and a reply made of them. -/
theorem DbCode.query_runs {α : Type} {A : Activity Store Store.Row (List α)}
    {F : DbCode S (Option (List α))}
    (hF : ∀ db, F.eval DbOp.exec db = (some (committed A db).1, (committed A db).2))
    (reply : Option (List α) → Reply S.Row) :
    (do
      let r ← DbCode.regularTransaction F
      return .reply (reply r) : DbCode S (Callback S.Row)).Runs (do
      let r ← WebServerl.regularTransaction A
      return .reply (reply r)) := by
  intro db
  have hcode := Program.eval_bind_some (hF db) fun r => do
    let r ← (match r with
      | some [] => return none
      | some l => return some l
      | none => .crash : DbCode S (Option (List α)))
    return (.reply (reply r) : Callback S.Row)
  rw [DbCode.regularTransaction, bind_assoc, hcode, Handler.bind_apply,
    WebServerl.regularTransaction]
  rcases committed_cases A db with ⟨l, hres, htx⟩ | ⟨reason, hres, htx⟩
  · rw [Handler.bind_of_some htx, hres]
    cases l with
    | nil => rfl
    | cons r l => rfl
  · rw [Handler.bind_of_some htx, hres]
    rfl

/-- `add_comment` and `add_message`. -/
theorem DbCode.numbered_runs (row : Nat → S.Row) :
    (do
      let keys ← DbCode.dirtyAllKeys
      DbCode.insertNew (row keys.length) : DbCode S (Callback S.Row)).Runs (do
      let keys ← Mnesia.dirtyAllKeys S
      WebServerl.insertNew S (row keys.length)) := by
  intro db
  rw [DbCode.dirtyAllKeys, Program.op_bind, Program.perform_bind, Program.eval_perform]
  cases hT : db.table? S with
  | none =>
    rw [Handler.bind_of_none (dirtyAllKeys_missing hT)]
    simp only [DbOp.exec, dirtyAllKeys_missing hT]
    rfl
  | some T =>
    rw [Handler.bind_of_some (dirtyAllKeys_apply hT)]
    simp only [DbOp.exec, dirtyAllKeys_apply hT]
    exact DbCode.insertNew_runs _ db

theorem DbLogin.attemptLogin_runs [Crypto] (username password : Term) (now : DateTime) :
    (DbLogin.code (.attemptLogin username password) now).Runs
      (DbLogin.handleCall (.request (.attemptLogin username password)) now) := by
  intro db
  rw [DbLogin.handleCall, getRow, DbLogin.code, Program.op_bind, Program.eval_perform]
  simp only [DbOp.exec]
  rcases committed_cases (Mnesia.read Store.dbLogin username) db with ⟨l, hres, htx⟩ |
    ⟨reason, hres, htx⟩
  · rw [Handler.bind_of_some htx, hres]
    cases l with
    | nil => rfl
    | cons row rest =>
      cases rest with
      | nil =>
        simp only [checkLogin, Record.elements, Record.fields]
        split
        · rfl
        · rfl
      | cons row' rest => rfl
  · rw [Handler.bind_of_some htx, hres]
    rfl

variable [Crypto]

/-- The programs are the handlers. -/
theorem Store.code_runs (S : Store) (c : Call S.Request) (now : DateTime) :
    (S.code c now).Runs (S.handleCall c now) := by
  cases c with
  | stop =>
    intro db
    rw [Store.handleCall_stop]
    cases S with
    | visitorsDb => rfl
    | dbLogin => rfl
    | dbMessage => rfl
    | dbComment => rfl
  | request r =>
    cases S with
    | visitorsDb =>
      cases r with
      | insertVisitor name city => exact DbCode.insertNew_runs _
      | remove key => exact DbCode.removeKey_runs key
      | allNames => exact DbCode.query_runs (fun _ => rfl) _
      | getTodayVisitors => exact DbCode.query_runs (fun _ => rfl) _
      | dumpVisitors => exact DbCode.query_runs (fun _ => rfl) _
    | dbLogin =>
      cases r with
      | createAccount username password => exact DbCode.insertNew_runs _
      | remove key => exact DbCode.removeKey_runs key
      | attemptLogin username password => exact DbLogin.attemptLogin_runs username password now
    | dbMessage =>
      cases r with
      | addMessage name email message =>
        exact DbCode.numbered_runs (S := .dbMessage)
          fun n => DbMessage.newRow n name email message now
      | remove key => exact DbCode.removeKey_runs key
      | dumpMessages => exact DbCode.query_runs (fun _ => rfl) _
    | dbComment =>
      cases r with
      | addComment name message =>
        exact DbCode.numbered_runs (S := .dbComment)
          fun n => DbComment.newRow n name message now
      | remove key => exact DbCode.removeKey_runs key
      | dumpComments => exact DbCode.query_runs (fun _ => rfl) _

end Runs

/-! ### On the one table -/

/-- What a call of Mnesia does to the table of its store, if there is one. -/
def DbOp.onTable [Ets] {S : Store} :
    (o : DbOp S) → Option (Table S.Row) → o.Res × Option (Table S.Row)
  | .dirtyAllKeys, x => (x.map fun T => T.keys, x)
  | .read key, x => (x.map fun T => T.read key, x)
  | .write row, x => (x.map fun _ => (), x.map fun T => T.write row)
  | .delete key, x => (x.map fun _ => (), x.map fun T => T.erase key)
  | .matchObject pat, x => (x.map fun T => (Ets.order T.rows).filter (matchesRow pat), x)
  | .select pat n, x => (x.map fun T => (Ets.order T.rows).filterMap fun r =>
      (matchTuple pat (Record.elements r) []).bind (List.lookup n), x)
  | .stop, _ => ((), none)

/-- The table of a store, if it has one, becomes another one. -/
def putTable (S : Store) : Option (Table S.Row) → Db → Db
  | some T, db => db.setTable S T
  | none, db => db

section Table

variable {S : Store} {db : Db}

theorem putTable_self (S : Store) (db : Db) : putTable S (db.table? S) db = db := by
  cases hT : db.table? S with
  | none => rfl
  | some T => exact Db.setTable_self hT

theorem table?_putTable {x : Option (Table S.Row)} (h : x.isSome = (db.table? S).isSome) :
    (putTable S x db).table? S = x := by
  cases x with
  | none =>
    rw [putTable, ← Option.not_isSome_iff_eq_none, ← h]
    simp
  | some T =>
    obtain ⟨T₀, hT₀⟩ := Option.isSome_iff_exists.mp (h.symm.trans (Option.isSome_some))
    exact Db.table?_setTable_self hT₀ T

theorem table?_putTable_ne {S' : Store} (h : S' ≠ S) (x : Option (Table S.Row)) :
    (putTable S x db).table? S' = db.table? S' := by
  cases x with
  | none => rfl
  | some T => exact Db.table?_setTable_ne db h T

theorem putTable_putTable {x y : Option (Table S.Row)} (h : x.isSome = y.isSome) :
    putTable S y (putTable S x db) = putTable S y db := by
  cases x with
  | none => rfl
  | some T =>
    obtain ⟨T', rfl⟩ := Option.isSome_iff_exists.mp (h.symm.trans (Option.isSome_some))
    cases db with
    | stopped => rfl
    | running tables => simp [putTable, Db.setTable]

theorem committed_missing (hT : db.table? S = none) {α : Type}
    (f : Table S.Row → Tables Store Store.Row → α × Tables Store Store.Row) :
    committed (withTable S f) db = (none, db) := by
  obtain ⟨reason, htx⟩ := transaction_missing hT f
  simp only [committed, htx]

theorem DbCode.insertNew_uses (row : S.Row) : (DbCode.insertNew row).Uses (· ≠ .stop) := by
  refine ⟨by simp, fun r => ?_⟩
  match r with
  | none => trivial
  | some [] => exact ⟨by simp, fun _ => trivial⟩
  | some (_ :: _) => trivial

/-- The rest of a query does nothing. -/
theorem DbCode.query_rest {α : Type} (reply : Option (List α) → Reply S.Row)
    (r : Option (List α)) :
    (∃ a, (do
      let r ← DbCode.regularTransaction (.done r)
      return .reply (reply r) : DbCode S (Callback S.Row)) = .done a) ∨
    (do
      let r ← DbCode.regularTransaction (.done r)
      return .reply (reply r) : DbCode S (Callback S.Row)) = .crash := by
  match r with
  | none => exact .inr rfl
  | some [] => exact .inl ⟨_, rfl⟩
  | some (_ :: _) => exact .inl ⟨_, rfl⟩

variable [Ets]

/-- Only `mnesia:stop/0` loses the table. -/
theorem DbOp.onTable_isSome {o : DbOp S} (ho : o ≠ .stop) (x : Option (Table S.Row)) :
    (o.onTable x).2.isSome = x.isSome := by
  cases o with
  | stop => exact absurd rfl ho
  | _ => simp [onTable]

theorem DbOp.onTable_none (o : DbOp S) : (o.onTable none).2 = none := by
  cases o <;> rfl

/-- A call of Mnesia other than `stop/0` is about the one table. -/
theorem DbOp.exec_eq {o : DbOp S} (ho : o ≠ .stop) (db : Db) :
    o.exec db = ((o.onTable (db.table? S)).1, putTable S (o.onTable (db.table? S)).2 db) := by
  cases hT : db.table? S with
  | none =>
    cases o with
    | dirtyAllKeys => simp only [exec, dirtyAllKeys_missing hT, onTable, Option.map_none, putTable]
    | read key => exact committed_missing hT _
    | write row => exact committed_missing hT _
    | delete key => exact committed_missing hT _
    | matchObject pat => exact committed_missing hT _
    | select pat n => exact committed_missing hT _
    | stop => exact absurd rfl ho
  | some T =>
    have hself : db.setTable S T = db := Db.setTable_self hT
    have hnil : Commits [] := rfl
    cases o with
    | dirtyAllKeys =>
      simp only [exec, dirtyAllKeys_apply hT, onTable, Option.map_some, putTable, hself]
    | read key =>
      simp only [exec, committed, transaction_read hT hnil, onTable, Option.map_some, putTable,
        hself]
    | write row =>
      simp only [exec, committed, transaction_write hT hnil, onTable, Option.map_some, putTable]
    | delete key =>
      simp only [exec, committed, transaction_delete hT hnil, onTable, Option.map_some, putTable]
    | matchObject pat =>
      simp only [exec, committed, transaction_matchObject hT hnil, onTable, Option.map_some,
        putTable, hself]
    | select pat n =>
      simp only [exec, committed, transaction_select hT hnil, onTable, Option.map_some, putTable,
        hself]
    | stop => exact absurd rfl ho

/-- A program that does not stop Mnesia is about the one table. -/
theorem DbCode.eval_eq {α : Type} {g : DbCode S α} (hg : g.Uses (· ≠ .stop)) (db : Db) :
    g.eval DbOp.exec db = ((g.eval DbOp.onTable (db.table? S)).1,
      putTable S (g.eval DbOp.onTable (db.table? S)).2 db) ∧
    (g.eval DbOp.onTable (db.table? S)).2.isSome = (db.table? S).isSome := by
  induction g generalizing db with
  | done a => exact ⟨by simp [putTable_self], rfl⟩
  | crash => exact ⟨by simp [putTable_self], rfl⟩
  | perform o next ih =>
    obtain ⟨ho, hnext⟩ := hg
    have hsome := DbOp.onTable_isSome ho (db.table? S)
    obtain ⟨heval, hsome'⟩ := ih _ (hnext (o.onTable (db.table? S)).1)
      (putTable S (o.onTable (db.table? S)).2 db)
    rw [table?_putTable hsome] at heval hsome'
    rw [Program.eval_perform, Program.eval_perform, DbOp.exec_eq ho, heval]
    exact ⟨by rw [putTable_putTable hsome'.symm], hsome'.trans hsome⟩

/-- The write is the whole of an insertion; before the read, nothing is. -/
theorem DbCode.insertNew_early (row : S.Row) (x : Option (Table S.Row)) :
    Program.Early DbOp.onTable none (DbCode.insertNew row) (DbCode.insertNew row) x := by
  cases x with
  | none => exact Program.early_lost DbOp.onTable_none rfl
  | some T =>
    refine ⟨.inl ⟨rfl, ?_⟩, .inl rfl⟩
    have heval : (DbCode.insertNew row).eval DbOp.onTable (some T) =
        (match T.read (Record.key row) with
          | [] => (some (.reply .ok), some (T.write row))
          | _ :: _ => (some (.reply .alreadyInserted), some T)) := by
      rw [DbCode.insertNew, Program.op_bind, Program.eval_perform]
      simp only [DbOp.onTable, Option.map_some]
      cases T.read (Record.key row) with
      | nil => rfl
      | cons r l => rfl
    simp only [DbOp.onTable, Option.map_some]
    cases hread : T.read (Record.key row) with
    | nil =>
      rw [hread] at heval
      refine ⟨.inr ?_, .inr ?_⟩
      · rw [heval]
        exact ⟨rfl, rfl⟩
      · rw [heval]
        rfl
    | cons r l =>
      rw [hread] at heval
      exact heval

theorem DbCode.numbered_early (row : Nat → S.Row) (x : Option (Table S.Row)) :
    Program.Early DbOp.onTable none
      (do
        let keys ← DbCode.dirtyAllKeys
        DbCode.insertNew (row keys.length) : DbCode S (Callback S.Row))
      (do
        let keys ← DbCode.dirtyAllKeys
        DbCode.insertNew (row keys.length) : DbCode S (Callback S.Row)) x := by
  cases x with
  | none => exact Program.early_lost DbOp.onTable_none rfl
  | some T => exact Program.early_look rfl (DbCode.insertNew_early _ _) rfl

variable [Crypto]

omit [Ets] in
theorem DbLogin.checkLogin_rest (username password : Term) (r : Option (List Login)) :
    (∃ a, DbLogin.checkLogin username password r = .done a) ∨
      DbLogin.checkLogin username password r = .crash := by
  match r with
  | none => exact .inr rfl
  | some [] => exact .inl ⟨_, rfl⟩
  | some [row] =>
    by_cases h : row.username = username
    · refine .inl ⟨.reply (.bool (row.password = Crypto.hash password)), ?_⟩
      simp [checkLogin, Record.elements, Record.name, Record.key, Record.fields, h]
    · refine .inr ?_
      simp [checkLogin, Record.elements, Record.name, Record.key, Record.fields, h]
  | some (_ :: _ :: _) => exact .inr rfl

omit [Ets] in
theorem Store.code_uses (S : Store) (r : S.Request) (now : DateTime) :
    (S.code (.request r) now).Uses (· ≠ .stop) := by
  have hrest : ∀ {S : Store} {g : DbCode S (Callback S.Row)}, (∃ a, g = .done a) ∨ g = .crash →
      g.Uses (· ≠ .stop) := by
    rintro S g (⟨a, rfl⟩ | rfl)
    · trivial
    · trivial
  cases S with
  | visitorsDb =>
    cases r with
    | insertVisitor name city => exact DbCode.insertNew_uses _
    | remove key => exact ⟨by simp, fun _ => trivial⟩
    | allNames => exact ⟨by simp, fun r => hrest (DbCode.query_rest _ r)⟩
    | getTodayVisitors => exact ⟨by simp, fun r => hrest (DbCode.query_rest _ r)⟩
    | dumpVisitors => exact ⟨by simp, fun r => hrest (DbCode.query_rest _ r)⟩
  | dbLogin =>
    cases r with
    | createAccount username password => exact DbCode.insertNew_uses _
    | remove key => exact ⟨by simp, fun _ => trivial⟩
    | attemptLogin username password =>
      exact ⟨by simp, fun r => hrest (DbLogin.checkLogin_rest _ _ r)⟩
  | dbMessage =>
    cases r with
    | addMessage name email message =>
      refine ⟨by simp, fun r => ?_⟩
      match r with
      | none => trivial
      | some keys => exact DbCode.insertNew_uses _
    | remove key => exact ⟨by simp, fun _ => trivial⟩
    | dumpMessages => exact ⟨by simp, fun r => hrest (DbCode.query_rest _ r)⟩
  | dbComment =>
    cases r with
    | addComment name message =>
      refine ⟨by simp, fun r => ?_⟩
      match r with
      | none => trivial
      | some keys => exact DbCode.insertNew_uses _
    | remove key => exact ⟨by simp, fun _ => trivial⟩
    | dumpComments => exact ⟨by simp, fun r => hrest (DbCode.query_rest _ r)⟩

theorem Store.code_early (S : Store) (r : S.Request) (now : DateTime) (x : Option (Table S.Row)) :
    Program.Early DbOp.onTable none (S.code (.request r) now) (S.code (.request r) now) x := by
  cases S with
  | visitorsDb =>
    cases r with
    | insertVisitor name city => exact DbCode.insertNew_early _ x
    | remove key => exact Program.early_once (fun _ => .inl ⟨_, rfl⟩) x
    | allNames => exact Program.early_once (DbCode.query_rest _) x
    | getTodayVisitors => exact Program.early_once (DbCode.query_rest _) x
    | dumpVisitors => exact Program.early_once (DbCode.query_rest _) x
  | dbLogin =>
    cases r with
    | createAccount username password => exact DbCode.insertNew_early _ x
    | remove key => exact Program.early_once (fun _ => .inl ⟨_, rfl⟩) x
    | attemptLogin username password =>
      exact Program.early_once (DbLogin.checkLogin_rest _ _) x
  | dbMessage =>
    cases r with
    | addMessage name email message =>
      exact DbCode.numbered_early (S := .dbMessage)
        (fun n => DbMessage.newRow n name email message now) x
    | remove key => exact Program.early_once (fun _ => .inl ⟨_, rfl⟩) x
    | dumpMessages => exact Program.early_once (DbCode.query_rest _) x
  | dbComment =>
    cases r with
    | addComment name message =>
      exact DbCode.numbered_early (S := .dbComment)
        (fun n => DbComment.newRow n name message now) x
    | remove key => exact Program.early_once (fun _ => .inl ⟨_, rfl⟩) x
    | dumpComments => exact Program.early_once (DbCode.query_rest _) x

end Table

end WebServerl
