import WebServerl.Store.Server

/-! `db_comment.erl`: the guestbook's comments, under ids computed from the size of the table. -/

namespace WebServerl.DbComment

open Erlang Erlang.Mnesia

inductive Request where
  | addComment (name message : Term)
  | remove (key : Term)
  | dumpComments

/-- The row of `add_comment` for a table of `n` rows. -/
def newRow (n : Nat) (name message : Term) (now : DateTime) : Comment :=
  { id := .int (n + 1), name, message, time := now.dateString }

/-- The pattern `{comment,'_','_','_','_'}`. -/
def anyComment : List Pat := [.val (.atom "comment"), .any, .any, .any, .any]

def handleCall [Ets] : Call Request → DateTime → Handler (Callback Comment)
  | .request (.addComment name message), now => do
    let keys ← dirtyAllKeys .dbComment
    insertNew .dbComment (newRow keys.length name message now)
  | .request (.remove key), _ => removeKey .dbComment key
  | .request .dumpComments, _ => do
    let r ← regularTransaction (matchObject .dbComment anyComment)
    return .reply (.rows (r.getD []))
  | .stop, _ => stopServer .dbComment

/-- What a request does to a table, when nothing is aborted. -/
def answer [Ets] : Request → DateTime → Table Comment → Reply Comment × Table Comment
  | .addComment name message, now, T => insertRow (newRow T.size name message now) T
  | .remove key, _, T => (.ok, T.erase key)
  | .dumpComments, _, T => (.rows (Ets.order T.rows), T)

theorem matchesRow_anyComment (c : Comment) : matchesRow anyComment c = true := by
  simp [matchesRow, Record.elements, Record.name, Record.fields, anyComment, matchTuple]

variable [Ets]

section Answers

variable {T : Table Comment} {name message : Term} {now : DateTime}

theorem answer_add_new (h : .int (T.size + 1) ∉ T.keys) :
    answer (.addComment name message) now T =
      (.ok, T.write (newRow T.size name message now)) := insertRow_new h

theorem answer_add_taken (h : .int (T.size + 1) ∈ T.keys) :
    answer (.addComment name message) now T = (.alreadyInserted, T) := insertRow_taken h

end Answers

theorem handleCall_apply {db : Db} {T : Table Comment} (hT : db.table? .dbComment = some T)
    (r : Request) (now : DateTime) : handleCall (.request r) now ⟨db, []⟩ =
      (some (.reply (answer r now T).1), ⟨db.setTable .dbComment (answer r now T).2, []⟩) := by
  cases r with
  | addComment name message =>
    rw [handleCall, Handler.bind_of_some (dirtyAllKeys_apply hT), KeyedTable.length_keys]
    exact insertNew_apply hT _
  | remove key => exact removeKey_apply hT rfl key
  | dumpComments =>
    rw [handleCall, Handler.bind_of_some (regularTransaction_apply
      (transaction_matchObject hT rfl anyComment)), answer, Db.setTable_self hT]
    have hall : (Ets.order T.rows).filter (matchesRow anyComment) = Ets.order T.rows :=
      List.filter_eq_self.mpr fun c _ => matchesRow_anyComment c
    rw [hall]
    by_cases h : Ets.order T.rows = [] <;> simp [h]

end WebServerl.DbComment
