import WebServerl.Erlang.Term
import WebServerl.Lib.KeyedTable
import Mathlib.Data.List.Perm.Basic
import Mathlib.Logic.Function.Basic

/-! One Mnesia node with tables of type `set` that live in memory only: a table is lost when
Mnesia stops, and an operation on a table that does not exist fails.  `Handler` is code of a server
process that uses Mnesia: it may crash, and each of its transactions may be aborted. -/

namespace Erlang.Mnesia

class Record (ρ : Type) where
  name : String
  key : ρ → Term
  fields : ρ → List Term

def Record.elements {ρ : Type} [Record ρ] (r : ρ) : List Term :=
  .atom (Record.name ρ) :: Record.key r :: Record.fields r

abbrev Table (ρ : Type) [Record ρ] := KeyedTable (Record.key : ρ → Term)

/-- The order in which a traversal finds the rows of a table, which Erlang leaves open. -/
class Ets where
  order : {ρ : Type} → List ρ → List ρ
  perm : ∀ {ρ : Type} (l : List ρ), (order l).Perm l

/-- The traversal in the order in which the rows are kept. -/
@[reducible] def Ets.asKept : Ets := ⟨fun l => l, fun l => .refl l⟩

variable {Tab : Type} {Row : Tab → Type} [∀ t, Record (Row t)]

abbrev Tables (Tab : Type) (Row : Tab → Type) [∀ t, Record (Row t)] :=
  (t : Tab) → Option (Table (Row t))

/-- Mnesia, stopped or running. -/
inductive Db (Tab : Type) (Row : Tab → Type) [∀ t, Record (Row t)] where
  | stopped
  | running (tables : Tables Tab Row)

namespace Db

def table? (db : Db Tab Row) (t : Tab) : Option (Table (Row t)) :=
  match db with
  | .stopped => none
  | .running tables => tables t

def start : Db Tab Row → Db Tab Row
  | .stopped => .running fun _ => none
  | .running tables => .running tables

def stop (_ : Db Tab Row) : Db Tab Row := .stopped

@[simp] theorem table?_stop (db : Db Tab Row) (t : Tab) : db.stop.table? t = none := rfl

@[simp] theorem table?_start (db : Db Tab Row) (t : Tab) : db.start.table? t = db.table? t := by
  cases db <;> rfl

variable [DecidableEq Tab]

/-- `mnesia:create_table/2`; a table that exists stays as it is. -/
def createTable (t : Tab) : Db Tab Row → Db Tab Row
  | .stopped => .stopped
  | .running tables =>
    match tables t with
    | none => .running (Function.update tables t (some (KeyedTable.empty _)))
    | some _ => .running tables

def setTable (db : Db Tab Row) (t : Tab) (T : Table (Row t)) : Db Tab Row :=
  match db with
  | .stopped => .stopped
  | .running tables => .running (Function.update tables t (some T))

theorem table?_setTable_self {db : Db Tab Row} {t : Tab} {T₀ : Table (Row t)}
    (h : db.table? t = some T₀) (T : Table (Row t)) : (db.setTable t T).table? t = some T := by
  cases db with
  | stopped => cases h
  | running tables => simp [setTable, table?]

@[simp] theorem table?_setTable_ne (db : Db Tab Row) {t t' : Tab} (h : t' ≠ t)
    (T : Table (Row t)) : (db.setTable t T).table? t' = db.table? t' := by
  cases db with
  | stopped => rfl
  | running tables => simp [setTable, table?, h]

theorem setTable_self {db : Db Tab Row} {t : Tab} {T : Table (Row t)}
    (h : db.table? t = some T) : db.setTable t T = db := by
  cases db with
  | stopped => rfl
  | running tables =>
    simp only [setTable, table?] at h ⊢
    rw [← h, Function.update_eq_self]

/-- After a server's `init`, its table exists: the one that was there, or else an empty one. -/
theorem table?_createTable_start (db : Db Tab Row) (t : Tab) :
    (db.start.createTable t).table? t = some ((db.table? t).getD (KeyedTable.empty _)) := by
  cases db with
  | stopped => simp [start, createTable, table?]
  | running tables =>
    cases h : tables t with
    | none => simp [start, createTable, table?, h]
    | some T => simp [start, createTable, table?, h]

theorem table?_createTable_start_ne (db : Db Tab Row) {t t' : Tab} (h : t' ≠ t) :
    (db.start.createTable t).table? t' = db.table? t' := by
  cases db with
  | stopped => simp [start, createTable, table?, h]
  | running tables =>
    cases ht : tables t with
    | none => simp [start, createTable, table?, ht, h]
    | some T => simp [start, createTable, table?, ht]

end Db

/-! ### Patterns -/

/-- An element of a match pattern: `'_'`, a variable `'$n'`, or a term. -/
inductive Pat where
  | any
  | var (n : Nat)
  | val (t : Term)

def matchTuple : List Pat → List Term → List (Nat × Term) → Option (List (Nat × Term))
  | [], [], binds => some binds
  | .any :: ps, _ :: ts, binds => matchTuple ps ts binds
  | .val v :: ps, t :: ts, binds => if v = t then matchTuple ps ts binds else none
  | .var n :: ps, t :: ts, binds =>
    match binds.lookup n with
    | some u => if u = t then matchTuple ps ts binds else none
    | none => matchTuple ps ts ((n, t) :: binds)
  | _, _, _ => none

def matchesRow {ρ : Type} [Record ρ] (pat : List Pat) (r : ρ) : Bool :=
  (matchTuple pat (Record.elements r) []).isSome

/-! ### Activities -/

abbrev Activity (Tab : Type) (Row : Tab → Type) [∀ t, Record (Row t)] (α : Type) :=
  Tables Tab Row → Except Term (α × Tables Tab Row)

def noExists (ρ : Type) [Record ρ] : Term := .tup [.atom "no_exists", .atom (Record.name ρ)]

def withTable {α : Type} (t : Tab) (f : Table (Row t) → Tables Tab Row → α × Tables Tab Row) :
    Activity Tab Row α := fun tables =>
  match tables t with
  | none => .error (noExists (Row t))
  | some T => .ok (f T tables)

def read (t : Tab) (k : Term) : Activity Tab Row (List (Row t)) :=
  withTable t fun T tables => (T.read k, tables)

def matchObject [Ets] (t : Tab) (pat : List Pat) : Activity Tab Row (List (Row t)) :=
  withTable t fun T tables => ((Ets.order T.rows).filter (matchesRow pat), tables)

/-- `mnesia:select/2` with one clause, without guards, whose result is the variable `'$n'`. -/
def select [Ets] (t : Tab) (pat : List Pat) (n : Nat) : Activity Tab Row (List Term) :=
  withTable t fun T tables =>
    ((Ets.order T.rows).filterMap fun r =>
      (matchTuple pat (Record.elements r) []).bind (List.lookup n), tables)

def write [DecidableEq Tab] (t : Tab) (r : Row t) : Activity Tab Row Unit :=
  withTable t fun T tables => ((), Function.update tables t (some (T.write r)))

def delete [DecidableEq Tab] (t : Tab) (k : Term) : Activity Tab Row Unit :=
  withTable t fun T tables => ((), Function.update tables t (some (T.erase k)))

/-! ### Handlers -/

inductive TxResult (α : Type) where
  | atomic (a : α)
  | aborted (reason : Term)

/-- What a handler runs in: Mnesia, and what becomes of its coming transactions.  `some reason`
aborts a transaction for that reason; the transactions past the end of the list are not
interfered with. -/
structure Env (Tab : Type) (Row : Tab → Type) [∀ t, Record (Row t)] where
  db : Db Tab Row
  fates : List (Option Term)

/-- The next transaction is not interfered with. -/
abbrev Commits (fates : List (Option Term)) : Prop := fates.head?.join = none

theorem exists_of_not_commits {fates : List (Option Term)} (h : ¬ Commits fates) :
    ∃ reason rest, fates = some reason :: rest := by
  match fates, h with
  | [], h => exact absurd rfl h
  | none :: rest, h => exact absurd rfl h
  | some reason :: rest, _ => exact ⟨reason, rest, rfl⟩

/-- Code of a server process; `none` is a crash. -/
def Handler (Tab : Type) (Row : Tab → Type) [∀ t, Record (Row t)] (α : Type) :=
  Env Tab Row → Option α × Env Tab Row

namespace Handler

variable {α β : Type}

instance : Monad (Handler Tab Row) where
  pure a := fun e => (some a, e)
  bind x f := fun e =>
    match x e with
    | (some a, e') => f a e'
    | (none, e') => (none, e')

def crash : Handler Tab Row α := fun e => (none, e)

@[simp] theorem pure_apply (a : α) (e : Env Tab Row) :
    (pure a : Handler Tab Row α) e = (some a, e) := rfl

theorem bind_apply (x : Handler Tab Row α) (f : α → Handler Tab Row β) (e : Env Tab Row) :
    (x >>= f) e = match x e with
      | (some a, e') => f a e'
      | (none, e') => (none, e') := rfl

theorem bind_of_some {x : Handler Tab Row α} {e e' : Env Tab Row} {a : α}
    (h : x e = (some a, e')) (f : α → Handler Tab Row β) : (x >>= f) e = f a e' := by
  rw [bind_apply, h]

theorem bind_of_none {x : Handler Tab Row α} {e e' : Env Tab Row}
    (h : x e = (none, e')) (f : α → Handler Tab Row β) : (x >>= f) e = (none, e') := by
  rw [bind_apply, h]

@[simp] theorem crash_apply (e : Env Tab Row) : (crash : Handler Tab Row α) e = (none, e) := rfl

end Handler

/-- `mnesia:transaction/1`: the activity takes effect as a whole, or the transaction is aborted
and nothing changes. -/
def transaction {α : Type} (F : Activity Tab Row α) : Handler Tab Row (TxResult α) := fun e =>
  match e.fates with
  | some reason :: fates => (some (.aborted reason), { e with fates })
  | fates =>
    match e.db with
    | .stopped => (some (.aborted (.atom "node_not_running")), { e with fates := fates.tail })
    | .running tables =>
      match F tables with
      | .error reason => (some (.aborted reason), { e with fates := fates.tail })
      | .ok (a, tables') => (some (.atomic a), ⟨.running tables', fates.tail⟩)

def dirtyAllKeys (t : Tab) : Handler Tab Row (List Term) := fun e =>
  match e.db.table? t with
  | none => (none, e)
  | some T => (some T.keys, e)

section Specs

variable {db : Db Tab Row} {t : Tab} {T : Table (Row t)} {fates : List (Option Term)}

theorem dirtyAllKeys_apply (hT : db.table? t = some T) :
    dirtyAllKeys t ⟨db, fates⟩ = (some T.keys, ⟨db, fates⟩) := by
  simp only [dirtyAllKeys, hT]

theorem transaction_aborted {α : Type} (F : Activity Tab Row α) (db : Db Tab Row) (reason : Term)
    (fates : List (Option Term)) :
    transaction F ⟨db, some reason :: fates⟩ = (some (.aborted reason), ⟨db, fates⟩) := rfl

theorem transaction_readOnly {α : Type} {F : Activity Tab Row α}
    (hF : ∀ tables a tables', F tables = .ok (a, tables') → tables' = tables)
    (e : Env Tab Row) : (transaction F e).2.db = e.db := by
  obtain ⟨db, fates⟩ := e
  by_cases hf : Commits fates
  · cases db with
    | stopped =>
      match fates, hf with
      | [], _ => rfl
      | none :: rest, _ => rfl
    | running tables =>
      cases hres : F tables with
      | error reason =>
        match fates, hf with
        | [], _ => simp only [transaction, hres]
        | none :: rest, _ => simp only [transaction, hres]
      | ok r =>
        obtain ⟨a, tables'⟩ := r
        have htables := hF _ _ _ hres
        match fates, hf with
        | [], _ => simp only [transaction, hres, htables]
        | none :: rest, _ => simp only [transaction, hres, htables]
  · obtain ⟨reason, rest, rfl⟩ := exists_of_not_commits hf
    rfl

/-- A transaction on a table that exists, which nothing aborts. -/
theorem transaction_withTable {α : Type} {f : Table (Row t) → Tables Tab Row → α × Tables Tab Row}
    (hT : db.table? t = some T) (hf : Commits fates) :
    ∃ tables, db = .running tables ∧ transaction (withTable t f) ⟨db, fates⟩ =
      (some (.atomic (f T tables).1), ⟨.running (f T tables).2, fates.tail⟩) := by
  cases db with
  | stopped => cases hT
  | running tables =>
    have hF : withTable t f tables = .ok (f T tables) := by
      simp only [Db.table?] at hT
      simp only [withTable, hT]
    refine ⟨tables, rfl, ?_⟩
    match fates, hf with
    | [], _ => simp only [transaction, hF]
    | none :: rest, _ => simp only [transaction, hF, List.tail_cons]

theorem transaction_read (hT : db.table? t = some T) (hf : Commits fates) (k : Term) :
    transaction (read t k) ⟨db, fates⟩ = (some (.atomic (T.read k)), ⟨db, fates.tail⟩) := by
  obtain ⟨tables, rfl, h⟩ := transaction_withTable (f := fun T tables => (T.read k, tables)) hT hf
  exact h

theorem transaction_matchObject [Ets] (hT : db.table? t = some T)
    (hf : Commits fates) (pat : List Pat) :
    transaction (matchObject t pat) ⟨db, fates⟩ =
      (some (.atomic ((Ets.order T.rows).filter (matchesRow pat))), ⟨db, fates.tail⟩) := by
  obtain ⟨tables, rfl, h⟩ := transaction_withTable
    (f := fun T tables => ((Ets.order T.rows).filter (matchesRow pat), tables)) hT hf
  exact h

theorem transaction_select [Ets] (hT : db.table? t = some T)
    (hf : Commits fates) (pat : List Pat) (n : Nat) :
    transaction (select t pat n) ⟨db, fates⟩ =
      (some (.atomic ((Ets.order T.rows).filterMap fun r =>
        (matchTuple pat (Record.elements r) []).bind (List.lookup n))), ⟨db, fates.tail⟩) := by
  obtain ⟨tables, rfl, h⟩ := transaction_withTable
    (f := fun T tables => ((Ets.order T.rows).filterMap fun r =>
      (matchTuple pat (Record.elements r) []).bind (List.lookup n), tables)) hT hf
  exact h

variable [DecidableEq Tab]

theorem transaction_write (hT : db.table? t = some T) (hf : Commits fates)
    (r : Row t) : transaction (write t r) ⟨db, fates⟩ =
      (some (.atomic ()), ⟨db.setTable t (T.write r), fates.tail⟩) := by
  obtain ⟨tables, rfl, h⟩ := transaction_withTable
    (f := fun T tables => ((), Function.update tables t (some (T.write r)))) hT hf
  exact h

theorem transaction_delete (hT : db.table? t = some T) (hf : Commits fates)
    (k : Term) : transaction (delete t k) ⟨db, fates⟩ =
      (some (.atomic ()), ⟨db.setTable t (T.erase k), fates.tail⟩) := by
  obtain ⟨tables, rfl, h⟩ := transaction_withTable
    (f := fun T tables => ((), Function.update tables t (some (T.erase k)))) hT hf
  exact h

end Specs

end Erlang.Mnesia
