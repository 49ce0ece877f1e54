import WebServerl.Erlang.Listing
import WebServerl.Store.DbMessage
import WebServerl.Store.Runs

/-! The removal of messages.  The argument of `remove/1` is called an e-mail, and the server takes
it for the key of a row; but the rows are kept under numbers, so that nothing is found under an
address. -/

namespace WebServerl.DbMessage

open Erlang Erlang.Mnesia Machine

/-- What a removal by e-mail has to leave of a table: none of the messages with that address, and
all of the others. -/
def RemovesMail (mail : Term) (T T' : Table Message) : Prop :=
  (∀ m ∈ T', m.mail ≠ mail) ∧ ∀ m ∈ T, m.mail ≠ mail → m ∈ T'

section Model

variable [Ets]

theorem computes : Computes .dbMessage handleCall answer := fun _ _ hT => handleCall_apply hT

theorem answer_intKeys {T : Table Message} (h : IntKeys T) (r : Request) (now : DateTime) :
    IntKeys (answer r now T).2 := by
  intro m hm
  cases r with
  | addMessage name email message =>
    rcases mem_insertRow.mp hm with hold | ⟨-, rfl⟩
    · exact h m hold
    · exact ⟨_, rfl⟩
  | remove key => exact h m (KeyedTable.mem_erase.mp hm).1
  | dumpMessages => exact h m hm

section Runs

variable {db : Db} (hT : db.table? .dbMessage = some (KeyedTable.empty _))
  (is : List (Request × DateTime))

include hT

/-- Whatever is added and removed, the keys stay numbers. -/
theorem intKeys_after :
    ∃ T, (serve (handle handleCall) db is).2.table? .dbMessage = some T ∧ IntKeys T :=
  computes.serve_induction hT (G := fun _ => True) (P := fun _ T => IntKeys T) .empty
    (fun _ _ i h _ => answer_intKeys h i.1 i.2) fun _ _ => trivial

/-- A removal by e-mail does what it has to in those tables that have no message with the
address, and only there: it never removes a message. -/
theorem removesMail_iff {mail : Term} (hmail : mail.IsString) (now : DateTime) :
    ∃ T T', (serve (handle handleCall) db is).2.table? .dbMessage = some T ∧
      (handle handleCall (serve (handle handleCall) db is).2 (.remove mail, now)).2.table?
        .dbMessage = some T' ∧
      (RemovesMail mail T T' ↔ ∀ m ∈ T, m.mail ≠ mail) := by
  obtain ⟨T, hafter, hint⟩ := intKeys_after hT is
  have hkept : (answer (.remove mail) now T).2 = T :=
    KeyedTable.erase_of_not_mem (hint.not_mem_keys hmail)
  refine ⟨T, T, hafter, ?_, ?_⟩
  · rw [computes.handle hafter, hkept]
    exact Db.table?_setTable_self hafter T
  · constructor
    · exact fun h => h.1
    · exact fun h => ⟨h, fun m hm _ => hm⟩

end Runs

end Model

/-! Ann writes a message.  Removing the messages of another address leaves it, and so does removing
hers. -/

def annWrote : List (Request × DateTime) :=
  [(.addMessage (.str "Ann") (.str "ann@example.org") (.str "hello"), .noon)]

section Sample

attribute [local instance] Ets.asKept

/-- Mnesia after Ann's message. -/
abbrev annDb : Db :=
  (serve (handle handleCall) (Db.stopped.start.createTable .dbMessage) annWrote).2

theorem mail_of_annDb {T : Table Message} (hT : annDb.table? .dbMessage = some T) :
    ∀ m ∈ T, m.mail = .str "ann@example.org" := by
  have hrows : (annDb.table? .dbMessage).map KeyedTable.rows = some
      [newRow 0 (.str "Ann") (.str "ann@example.org") (.str "hello") .noon] := rfl
  rw [hT, Option.map_some, Option.some.injEq] at hrows
  intro m hm
  rw [← KeyedTable.mem_rows, hrows, List.mem_singleton] at hm
  rw [hm]
  rfl

theorem removesMail_cid :
    ∃ T T', annDb.table? .dbMessage = some T ∧
      (handle handleCall annDb (.remove (.str "cid@example.org"), .noon)).2.table? .dbMessage =
        some T' ∧ RemovesMail (.str "cid@example.org") T T' := by
  have hempty : (Db.stopped.start.createTable .dbMessage : Db).table? .dbMessage =
      some (KeyedTable.empty _) := rfl
  obtain ⟨T, T', hT, hT', hiff⟩ :=
    removesMail_iff hempty annWrote (Term.isString_str "cid@example.org") .noon
  refine ⟨T, T', hT, hT', hiff.mpr fun m hm => ?_⟩
  rw [mail_of_annDb hT m hm]
  decide

theorem mail_not_removed :
    ¬ ∀ is T T' (mail : Term) now, mail.IsString →
      (serve (handle handleCall) (Db.stopped.start.createTable .dbMessage) is).2.table? .dbMessage =
        some T →
      (handle handleCall (serve (handle handleCall)
        (Db.stopped.start.createTable .dbMessage) is).2 (.remove mail, now)).2.table? .dbMessage =
        some T' → RemovesMail mail T T' := by
  intro h
  obtain ⟨hgone, -⟩ := h annWrote _ _ _ .noon (Term.isString_str "ann@example.org") rfl rfl
  exact hgone (newRow 0 (.str "Ann") (.str "ann@example.org") (.str "hello") .noon)
    (List.mem_singleton_self _) rfl

end Sample

end WebServerl.DbMessage
