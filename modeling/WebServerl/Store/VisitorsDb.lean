import WebServerl.Store.Server

/-! `visitors_db.erl`: the visitors, under their names, with the date and time of their entry. -/

namespace WebServerl.VisitorsDb

open Erlang Erlang.Mnesia

inductive Request where
  | insertVisitor (name city : Term)
  | remove (key : Term)
  | allNames
  | getTodayVisitors
  | dumpVisitors

def newRow (name city : Term) (now : DateTime) : Visitor :=
  { name, city, date := now.date, time := now.time }

/-- The match head `#visitor{name='$1',_='_'}`. -/
def nameHead : List Pat := [.val (.atom "visitor"), .var 1, .any, .any, .any]

/-- The match head `#visitor{name='$1',date=Today,_='_'}`. -/
def todayHead (today : Term) : List Pat :=
  [.val (.atom "visitor"), .var 1, .any, .val today, .any]

/-- The pattern `{visitor,'_','_','_','_'}`. -/
def anyVisitor : List Pat := [.val (.atom "visitor"), .any, .any, .any, .any]

def handleCall [Ets] : Call Request → DateTime → Handler (Callback Visitor)
  | .request (.insertVisitor name city), now => insertNew .visitorsDb (newRow name city now)
  | .request (.remove key), _ => removeKey .visitorsDb key
  | .request .allNames, _ => do
    let r ← regularTransaction (select .visitorsDb nameHead 1)
    return .reply (r.elim .none .names)
  | .request .getTodayVisitors, now => do
    let r ← regularTransaction (select .visitorsDb (todayHead now.date) 1)
    return .reply (r.elim .none .names)
  | .request .dumpVisitors, _ => do
    let r ← regularTransaction (matchObject .visitorsDb anyVisitor)
    return .reply (r.elim .none .rows)
  | .stop, _ => stopServer .visitorsDb

/-- The reply with a list, or `none` for the empty one. -/
def orNone {α ρ : Type} (reply : List α → Reply ρ) (l : List α) : Reply ρ :=
  if l.isEmpty then .none else reply l

/-- What a request does to a table, when nothing is aborted. -/
def answer [Ets] : Request → DateTime → Table Visitor → Reply Visitor × Table Visitor
  | .insertVisitor name city, now, T => insertRow (newRow name city now) T
  | .remove key, _, T => (.ok, T.erase key)
  | .allNames, _, T => (orNone .names ((Ets.order T.rows).map Visitor.name), T)
  | .getTodayVisitors, now, T =>
    (orNone .names (((Ets.order T.rows).filter (·.date = now.date)).map Visitor.name), T)
  | .dumpVisitors, _, T => (orNone .rows (Ets.order T.rows), T)

theorem matchTuple_nameHead (v : Visitor) :
    (matchTuple nameHead (Record.elements v) []).bind (List.lookup 1) = some v.name := by
  simp [Record.elements, Record.name, Record.fields, Record.key, nameHead, matchTuple]

theorem matchTuple_todayHead (v : Visitor) (today : Term) :
    (matchTuple (todayHead today) (Record.elements v) []).bind (List.lookup 1) =
      if today = v.date then some v.name else none := by
  by_cases h : today = v.date <;>
    simp [Record.elements, Record.name, Record.fields, Record.key, todayHead, matchTuple, h]

theorem matchesRow_anyVisitor (v : Visitor) : matchesRow anyVisitor v = true := by
  simp [matchesRow, Record.elements, Record.name, Record.fields, anyVisitor, matchTuple]

theorem elim_orNone {α ρ : Type} (reply : List α → Reply ρ) (l : List α) :
    (if l = [] then none else some l).elim .none reply = orNone reply l := by
  cases l <;> rfl

variable [Ets]

section Answers

variable {T : Table Visitor} {name city : Term} {now : DateTime}

theorem answer_insert_new (h : name ∉ T.keys) :
    answer (.insertVisitor name city) now T = (.ok, T.write (newRow name city now)) :=
  insertRow_new h

theorem answer_insert_taken (h : name ∈ T.keys) :
    answer (.insertVisitor name city) now T = (.alreadyInserted, T) := insertRow_taken h

end Answers

theorem handleCall_apply {db : Db} {T : Table Visitor} (hT : db.table? .visitorsDb = some T)
    (r : Request) (now : DateTime) : handleCall (.request r) now ⟨db, []⟩ =
      (some (.reply (answer r now T).1), ⟨db.setTable .visitorsDb (answer r now T).2, []⟩) := by
  cases r with
  | insertVisitor name city => exact insertNew_apply hT _
  | remove key => exact removeKey_apply hT rfl key
  | allNames =>
    rw [handleCall, Handler.bind_of_some (regularTransaction_apply
      (transaction_select hT rfl nameHead 1)), elim_orNone, answer, Db.setTable_self hT]
    have hall : ((Ets.order T.rows).filterMap fun v =>
        (matchTuple nameHead (Record.elements v) []).bind (List.lookup 1)) =
        (Ets.order T.rows).map Visitor.name := by
      rw [← List.filterMap_eq_map]
      exact List.filterMap_congr fun v _ => matchTuple_nameHead v
    rw [hall]
    rfl
  | getTodayVisitors =>
    rw [handleCall, Handler.bind_of_some (regularTransaction_apply
      (transaction_select hT rfl (todayHead now.date) 1)), elim_orNone, answer,
      Db.setTable_self hT]
    have hall : ((Ets.order T.rows).filterMap fun v =>
        (matchTuple (todayHead now.date) (Record.elements v) []).bind (List.lookup 1)) =
        ((Ets.order T.rows).filter (·.date = now.date)).map Visitor.name := by
      rw [← List.filterMap_eq_map, List.filterMap_filter]
      refine List.filterMap_congr fun v _ => ?_
      rw [matchTuple_todayHead]
      simp [eq_comm]
    rw [hall]
    rfl
  | dumpVisitors =>
    rw [handleCall, Handler.bind_of_some (regularTransaction_apply
      (transaction_matchObject hT rfl anyVisitor)), elim_orNone, answer, Db.setTable_self hT]
    have hall : (Ets.order T.rows).filter (matchesRow anyVisitor) = Ets.order T.rows :=
      List.filter_eq_self.mpr fun v _ => matchesRow_anyVisitor v
    rw [hall]
    rfl

end WebServerl.VisitorsDb
