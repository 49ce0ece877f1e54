import WebServerl.Site.Authentication
import WebServerl.Site.Eval

/-! Who sees the messages of the contact page: `contact:body/0` only asks whether the session has
a user. -/

namespace WebServerl

open Erlang Erlang.Mnesia Machine

/-- The site with another table of messages. -/
def Site.withMessages (M : Table Message) (w : Site) : Site :=
  { w with node := { w.node with db := w.node.db.setTable .dbMessage M } }

section Model

variable [Crypto] [Ets]

/-- What `contact:body/0` returns to the session; `none` is a crash. -/
def contactOutput (p : Pid) (s : Session) (now : DateTime) (w : Site) : Option Body :=
  (w.eval (w.ctx p s (.load .contact)) now Contact.body).1

variable {p : Pid} {s : Session} {now : DateTime} {w : Site}

theorem contactOutput_anonymous (h : w.user s = .undefined) :
    contactOutput p s now w = some ⟨Contact.validators, Contact.form⟩ := by
  rw [contactOutput, Contact.body, Site.eval_user, Site.ctx_session, if_pos h]
  rfl

theorem contactOutput_down (h : w.user s ≠ .undefined)
    (hdown : w.node.server .dbMessage = .down) : contactOutput p s now w = none := by
  rw [contactOutput, Contact.body, Site.eval_user, Site.ctx_session, if_neg h,
    Site.eval_call_none (Node.call_down hdown _ now)]

/-- Where there is no user, or no server, the messages play no part. -/
theorem contactOutput_hidden (h : w.user s = .undefined ∨ w.node.server .dbMessage = .down) :
    contactOutput p s now w =
      if w.user s = .undefined then some ⟨Contact.validators, Contact.form⟩ else none := by
  by_cases huser : w.user s = .undefined
  · rw [contactOutput_anonymous huser, if_pos huser]
  · rw [contactOutput_down huser (h.resolve_left huser), if_neg huser]

/-- A session with a user is shown the messages, whoever the user is. -/
theorem contactOutput_up (h : w.user s ≠ .undefined)
    (hup : w.node.server .dbMessage ≠ .down) {T : Table Message}
    (hT : w.node.db.table? .dbMessage = some T) {views : List (List Element)}
    (hview : Contact.view (Ets.order T.rows) = pure views) :
    contactOutput p s now w = some ⟨[], views.flatten⟩ := by
  have hcall := Node.call_apply hup hT .dumpMessages now
  rw [contactOutput, Contact.body, Site.eval_user, Site.ctx_session, if_neg h,
    Site.eval_call_some hcall]
  show (Site.eval _ now (Contact.view (Ets.order T.rows) >>= _) _).1 = _
  rw [hview]
  rfl

/-- A message of one row, and the table that holds it. -/
def oneMessage : Table Message :=
  ⟨[⟨.int 1, .str "ann@example.org", .str "Ann", .str "hello", .nil⟩], List.nodup_singleton _⟩

/-- The output tells an empty table of messages from one with a message in it. -/
theorem contactOutput_differs (h : w.user s ≠ .undefined)
    (hup : w.node.server .dbMessage ≠ .down) {T : Table Message}
    (hT : w.node.db.table? .dbMessage = some T) :
    contactOutput p s now (w.withMessages (KeyedTable.empty _)) ≠
      contactOutput p s now (w.withMessages oneMessage) := by
  have hnone : Contact.view (Ets.order (KeyedTable.empty (Record.key : Message → Term)).rows) =
      pure [] := by
    have horder : Ets.order (KeyedTable.empty (Record.key : Message → Term)).rows = [] :=
      (Ets.perm _).eq_nil
    rw [horder]
    rfl
  have hone : ∃ e es, Contact.view (Ets.order oneMessage.rows) = pure [e :: es] := by
    have horder : Ets.order oneMessage.rows = oneMessage.rows :=
      List.perm_singleton.mp (Ets.perm _)
    rw [horder]
    exact ⟨_, _, rfl⟩
  obtain ⟨e, es, hone⟩ := hone
  have hdb := Db.table?_setTable_self hT
  rw [contactOutput_up (w := w.withMessages _) h hup (hdb _) hnone,
    contactOutput_up (w := w.withMessages _) h hup (hdb _) hone]
  intro heq
  cases heq

/-- What a session is shown does not depend on the messages exactly if it has no user, or
`db_message` is not running. -/
theorem messages_private_iff {ls : List Label} {w : World}
    (hrun : run World.step .init ls = some w) (hstop : ∀ S now, .stop S now ∉ ls) (s : Session) :
    (∀ M₁ M₂ p now, contactOutput p s now (w.site.withMessages M₁) =
      contactOutput p s now (w.site.withMessages M₂)) ↔
      w.site.user s = .undefined ∨ w.site.node.server .dbMessage = .down := by
  constructor
  · intro h
    by_contra hnot
    obtain ⟨huser, hup⟩ := not_or.mp hnot
    obtain ⟨T, hT⟩ := World.ready hrun hstop .dbMessage hup
    exact contactOutput_differs huser hup hT (h _ _ 0 .noon)
  · intro h M₁ M₂ p now
    have hhidden (M : Table Message) : contactOutput p s now (w.site.withMessages M) =
        if w.site.user s = .undefined then some ⟨Contact.validators, Contact.form⟩ else none :=
      contactOutput_hidden h
    rw [hhidden M₁, hhidden M₂]

end Model

/-! Once Bob has registered, he sees the messages; a session that has not logged in does not. -/

theorem messages_private_anonymous :
    let _ := Crypto.sample
    let _ := Ets.asKept
    ∃ w, run World.step .init (loadHome ++ bobRegisters) = some w ∧
      ∀ M₁ M₂ p now, contactOutput p 2 now (w.site.withMessages M₁) =
        contactOutput p 2 now (w.site.withMessages M₂) := by
  intro _ _
  have hstop : ∀ S now, Label.stop S now ∉ loadHome ++ bobRegisters := by
    intro S now h
    simp [loadHome, bobRegisters] at h
  exact ⟨_, rfl, (messages_private_iff rfl hstop 2).mpr (.inl rfl)⟩

theorem messages_shown_to_bob :
    let _ := Crypto.sample
    let _ := Ets.asKept
    ∃ w, run World.step .init (loadHome ++ bobRegisters) = some w ∧
      w.site.user 1 = .str "bob" ∧
      contactOutput 2 1 .noon (w.site.withMessages (KeyedTable.empty _)) ≠
        contactOutput 2 1 .noon (w.site.withMessages oneMessage) := by
  intro _ _
  exact ⟨_, rfl, rfl, contactOutput_differs (by decide) (by decide) rfl⟩

end WebServerl
