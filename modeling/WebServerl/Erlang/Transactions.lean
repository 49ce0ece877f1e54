import WebServerl.Erlang.Mnesia
import WebServerl.Lib.Changes
import WebServerl.Lib.Nested

/-! How Mnesia carries out a transaction.  Nothing is written to the tables while it runs: writes
and deletions go to a store of its own, the reads are corrected by that store, and the commit
applies it.  A transaction inside another one works on a copy of the store. -/

namespace Erlang.Mnesia

variable {Tab : Type} {Row : Tab → Type} [∀ t, Record (Row t)]

/-- An access within a transaction. -/
inductive Access (Row : Tab → Type) where
  | read (t : Tab) (k : Term)
  | write (t : Tab) (r : Row t)
  | delete (t : Tab) (k : Term)
  | matchObject (t : Tab) (pat : List Pat)
  | select (t : Tab) (pat : List Pat) (n : Nat)

abbrev Access.Res : Access Row → Type
  | .read t _ => List (Row t)
  | .write _ _ => Unit
  | .delete _ _ => Unit
  | .matchObject t _ => List (Row t)
  | .select _ _ _ => List Term

/-- The key that an access writes or deletes. -/
def Access.changed? : Access Row → Option Term
  | .write _ r => some (Record.key r)
  | .delete _ k => some k
  | _ => none

/-- The code of a transaction, which may contain further transactions. -/
abbrev Tx (Row : Tab → Type) (α : Type) := Nested (Access Row) Access.Res Term α

/-- An element of the store: `{Oid, Val, write}` or `{Oid, Oid, delete}`. -/
abbrev Item (Row : Tab → Type) := (t : Tab) × Change (Row t) Term

def Item.oid (i : Item Row) : Tab × Term := (i.1, i.2.key Record.key)

/-- The store of a transaction, a bag in which no two elements have the same `Oid`. -/
abbrev Shadow (Row : Tab → Type) [∀ t, Record (Row t)] :=
  KeyedTable (Item.oid : Item Row → Tab × Term)

section Code

variable [DecidableEq Tab]

def Item.on (t : Tab) (i : Item Row) : Option (Change (Row t) Term) :=
  if h : i.1 = t then some (h ▸ i.2) else none

/-- `add_written_to_set/1`. -/
def addWrittenToSet {ρ : Type} (ws : List (Change ρ Term)) : List ρ :=
  match ws.getLast? with
  | some (.write val) => [val]
  | some (.delete _) => []
  | none => []

def addWritten {ρ : Type} (written : List (Change ρ Term)) (objs : List ρ) : List ρ :=
  match written with
  | [] => objs
  | written => addWrittenToSet written

/-- `deloid/2`, which compares the keys by `==`. -/
def deloid [Loose] {ρ : Type} [Record ρ] (k : Term) : List ρ → List ρ
  | [] => []
  | h :: t => if (Record.key h).looseEq k then deloid k t else h :: deloid k t

/-- `add_match/3`, for a table of type `set`. -/
def addMatch [Loose] {ρ : Type} [Record ρ] : List (Change ρ Term) → List ρ → List ρ
  | [], objs => objs
  | .delete k :: rest, objs => addMatch rest (deloid k objs)
  | .write val :: rest, objs => addMatch rest (val :: deloid (Record.key val) objs)

namespace Shadow

/-- `?ets_lookup(Store, {Tab, Key})`. -/
def lookup (store : Shadow Row) (t : Tab) (k : Term) : List (Change (Row t) Term) :=
  (store.read (t, k)).filterMap (Item.on t)

/-- The elements of the store for a table, in the order of a traversal. -/
def findOps [Ets] (store : Shadow Row) (t : Tab) : List (Change (Row t) Term) :=
  (Ets.order store.rows).filterMap (Item.on t)

def addWrittenMatch [Ets] [Loose] (store : Shadow Row) (pat : List Pat) (t : Tab)
    (objs : List (Row t)) : List (Row t) :=
  (addMatch (store.findOps t) objs).filter (matchesRow pat)

/-- `copy_ets/2`, into an empty store. -/
def copyEts [Ets] (store : Shadow Row) : Shadow Row where
  rows := Ets.order store.rows
  nodup := ((Ets.perm store.rows).map _).nodup_iff.mpr store.nodup

end Shadow

/-- The result of a match specification with one clause, without guards, for a row. -/
def matchSpec {ρ : Type} [Record ρ] (pat : List Pat) (n : Nat) (r : ρ) : Option Term :=
  (matchTuple pat (Record.elements r) []).bind (List.lookup n)

def withExisting {α : Type} (tables : Tables Tab Row) (t : Tab) (f : Table (Row t) → α) :
    Except Term α :=
  match tables t with
  | none => .error (noExists (Row t))
  | some T => .ok (f T)

/-- An access of a transaction with the store, which the tables know nothing of. -/
def Access.exec [Ets] [Loose] (tables : Tables Tab Row) :
    (o : Access Row) → Shadow Row → Except Term (o.Res × Shadow Row)
  | .read t k, store =>
    withExisting tables t fun T => (addWritten (store.lookup t k) (T.read k), store)
  | .write t r, store => withExisting tables t fun _ => ((), store.write ⟨t, .write r⟩)
  | .delete t k, store => withExisting tables t fun _ => ((), store.write ⟨t, .delete k⟩)
  | .matchObject t pat, store => withExisting tables t fun T =>
      (store.addWrittenMatch pat t ((Ets.order T.rows).filter (matchesRow pat)), store)
  | .select t pat n, store => withExisting tables t fun T =>
      match store.findOps t with
      | [] => ((Ets.order T.rows).filterMap (matchSpec pat n), store)
      | written => ((addMatch written ((Ets.order T.rows).filter (matchesRow pat))).filterMap
          (matchSpec pat n), store)

/-- `#tidstore`: the store of a transaction, and those of the transactions around it. -/
structure TidStore (Row : Tab → Type) [∀ t, Record (Row t)] where
  store : Shadow Row
  upStores : List (Shadow Row)

namespace TidStore

/-- The beginning of a transaction inside another one. -/
def executeInner [Ets] (ts : TidStore Row) : TidStore Row :=
  ⟨ts.store.copyEts, ts.store :: ts.upStores⟩

/-- `t_commit/1` of an inner transaction: its store takes the place of the one around it. -/
def commitNested (ts : TidStore Row) : TidStore Row :=
  match ts.upStores with
  | [] => ts
  | _ :: tail => ⟨ts.store, tail⟩

/-- `return_abort/3` of an inner transaction. -/
def returnAbort (ts : TidStore Row) : TidStore Row :=
  match ts.upStores with
  | [] => ts
  | newStore :: tail => ⟨newStore, tail⟩

end TidStore

def scopes [Ets] [Loose] (tables : Tables Tab Row) :
    Scopes (Access Row) Access.Res Term (TidStore Row) where
  exec o ts := (o.exec tables ts.store).map fun (r, store) => (r, { ts with store })
  enter := TidStore.executeInner
  commit := TidStore.commitNested
  abort := TidStore.returnAbort

/-- `arrange/3`: the elements of the store, in the order of a traversal. -/
def arrange [Ets] (tables : Tables Tab Row) (store : Shadow Row) : Except Term (List (Item Row)) :=
  (Ets.order store.rows).mapM fun i => withExisting tables i.1 fun _ => i

def doUpdateOp (tables : Tables Tab Row) (i : Item Row) : Tables Tab Row :=
  match tables i.1 with
  | none => tables
  | some T => Function.update tables i.1 (some (T.change i.2))

def doCommit (tables : Tables Tab Row) (items : List (Item Row)) : Tables Tab Row :=
  items.foldl doUpdateOp tables

/-- `execute_outer/6`: the code runs, and its store is committed. -/
def executeOuter [Ets] [Loose] {α : Type} (tx : Tx Row α) : Db Tab Row → TxResult α × Db Tab Row
  | .stopped => (.aborted (.atom "node_not_running"), .stopped)
  | .running tables =>
    match tx.run (scopes tables) ⟨KeyedTable.empty _, []⟩ with
    | (.error reason, _) => (.aborted reason, .running tables)
    | (.ok a, ts) =>
      match arrange tables ts.store with
      | .error reason => (.aborted reason, .running tables)
      | .ok items => (.atomic a, .running (doCommit tables items))

end Code

end Erlang.Mnesia
