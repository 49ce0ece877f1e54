import WebServerl.Store.Server

/-! `db_message.erl`: the messages of the contact page, under ids computed from the size of the
table.  `remove` is called with an e-mail address and uses it as the key. -/

namespace WebServerl.DbMessage

open Erlang Erlang.Mnesia

inductive Request where
  | addMessage (name email message : Term)
  | remove (key : Term)
  | dumpMessages

/-- The row of `add_message` for a table of `n` rows. -/
def newRow (n : Nat) (name email message : Term) (now : DateTime) : Message :=
  { id := .int (n + 1), mail := email, name, message, time := now.dateString }

/-- The pattern `{message,'_','_','_','_','_'}`. -/
def anyMessage : List Pat := [.val (.atom "message"), .any, .any, .any, .any, .any]

def handleCall [Ets] : Call Request → DateTime → Handler (Callback Message)
  | .request (.addMessage name email message), now => do
    let keys ← dirtyAllKeys .dbMessage
    insertNew .dbMessage (newRow keys.length name email message now)
  | .request (.remove key), _ => removeKey .dbMessage key
  | .request .dumpMessages, _ => do
    let r ← regularTransaction (matchObject .dbMessage anyMessage)
    return .reply (.rows (r.getD []))
  | .stop, _ => stopServer .dbMessage

/-- What a request does to a table, when nothing is aborted. -/
def answer [Ets] : Request → DateTime → Table Message → Reply Message × Table Message
  | .addMessage name email message, now, T => insertRow (newRow T.size name email message now) T
  | .remove key, _, T => (.ok, T.erase key)
  | .dumpMessages, _, T => (.rows (Ets.order T.rows), T)

theorem matchesRow_anyMessage (m : Message) : matchesRow anyMessage m = true := by
  simp [matchesRow, Record.elements, Record.name, Record.fields, anyMessage, matchTuple]

variable [Ets]

theorem handleCall_apply {db : Db} {T : Table Message} (hT : db.table? .dbMessage = some T)
    (r : Request) (now : DateTime) : handleCall (.request r) now ⟨db, []⟩ =
      (some (.reply (answer r now T).1), ⟨db.setTable .dbMessage (answer r now T).2, []⟩) := by
  cases r with
  | addMessage name email message =>
    rw [handleCall, Handler.bind_of_some (dirtyAllKeys_apply hT), KeyedTable.length_keys]
    exact insertNew_apply hT _
  | remove key => exact removeKey_apply hT rfl key
  | dumpMessages =>
    rw [handleCall, Handler.bind_of_some (regularTransaction_apply
      (transaction_matchObject hT rfl anyMessage)), answer, Db.setTable_self hT]
    have hall : (Ets.order T.rows).filter (matchesRow anyMessage) = Ets.order T.rows :=
      List.filter_eq_self.mpr fun m _ => matchesRow_anyMessage m
    rw [hall]
    by_cases h : Ets.order T.rows = [] <;> simp [h]

end WebServerl.DbMessage
