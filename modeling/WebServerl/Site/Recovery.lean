import WebServerl.Site.Eval
import WebServerl.Site.Requests
import WebServerl.Site.Seeding

/-! A load of the home page as a recovery step.  `index:body/0` starts the stores and creates the
admin's account without looking at what any of this returns: whichever servers have crashed, they
are up afterwards, and nothing that was there is lost. -/

namespace WebServerl

open Erlang Erlang.Mnesia Machine

/-- Some of the servers have crashed. -/
def Site.crash (dead : Store → Bool) (w : Site) : Site :=
  { w with node :=
      { w.node with server := fun S => if dead S then .down else w.node.server S } }

theorem Node.Ready.crash {w : Site} (h : w.node.Ready) (dead : Store → Bool) :
    (w.crash dead).node.Ready := by
  intro S hup
  refine h S fun hdown => hup ?_
  simp [Site.crash, hdown]

section Model

variable [Crypto] [Ets] {c : Ctx} {now : DateTime} {w : Site}

/-- An answer that leaves the table as it is changes nothing. -/
theorem Node.call_kept {n : Node} {S : Store} {T : Table S.Row} (hup : n.server S ≠ .down)
    (hT : n.db.table? S = some T) {r : S.Request}
    {reply : Reply S.Row} (hans : S.answer r now T = (reply, T)) :
    n.call S (.request r) now = (some reply, n) := by
  rw [call_apply hup hT, hans, Db.setTable_self hT]

theorem Site.eval_start {α : Type} (S : Store) (f : Unit → Code α) :
    w.eval c now (WebServerl.start S >>= f) =
      Site.eval c now (f ()) (w.exec c (.start S) now).2 := rfl

/-- What the page leaves behind. -/
structure Recovered (w w' : Site) : Prop where
  up : ∀ S, w'.node.server S ≠ .down
  tables : ∀ S, S ≠ .dbLogin → w'.node.db.table? S = some (w.table S)
  accounts : ∃ T, w'.node.db.table? .dbLogin = some T ∧ ∀ row, row ∈ T ↔
    row ∈ w.table .dbLogin ∨ (.str "admin" ∉ (w.table .dbLogin).keys ∧ row = adminRow)
  user : w'.user = w.user

/-- What a number of starts do: servers stay up, and no table changes, except that an empty one may
be created. -/
structure Site.Started (w w' : Site) : Prop where
  ready : w'.node.Ready
  up : ∀ S, w.node.server S ≠ .down → w'.node.server S ≠ .down
  table : ∀ S, w'.table S = w.table S
  user : w'.user = w.user

omit [Crypto] [Ets] in
theorem Site.Started.trans {w w' w'' : Site} (h : w.Started w') (h' : w'.Started w'') :
    w.Started w'' where
  ready := h'.ready
  up S hup := h'.up S (h.up S hup)
  table S := (h'.table S).trans (h.table S)
  user := h'.user.trans h.user

theorem Site.exec_started (hready : w.node.Ready) (S : Store) :
    w.Started (w.exec c (.start S) now).2 where
  ready := Site.exec_ready hready c (.start S) now
  up _ hup := Node.start_up_of_up S (some c.pid) hup
  table _ := Site.exec_handles hready c (.start S) now
  user := rfl

theorem Site.exec_start_up (S : Store) :
    (w.exec c (.start S) now).2.node.server S ≠ .down :=
  Node.start_self_up w.node S (some c.pid)

namespace Index

omit [Ets] in
/-- What the creation of the admin's account leaves of a login table. -/
theorem mem_seeded {T : Table Login} {row : Login} :
    row ∈ (DbLogin.answer adminAccount now T).2 ↔
      row ∈ T ∨ (.str "admin" ∉ T.keys ∧ row = adminRow) :=
  mem_insertRow

/-- Whichever servers are down, the page brings all of them up again. -/
theorem eval_body (hready : w.node.Ready) (c : Ctx) (now : DateTime) :
    ∃ w', w.eval c now body = (some ⟨[], []⟩, w') ∧ Recovered w w' := by
  let w₁ := (w.exec c (.start .visitorsDb) now).2
  let w₂ := (w₁.exec c (.start .dbLogin) now).2
  have h₁ : w.Started w₁ := Site.exec_started hready .visitorsDb
  have h₂ : w₁.Started w₂ := Site.exec_started h₁.ready .dbLogin
  have hlogin : w₂.node.server .dbLogin ≠ .down := Site.exec_start_up .dbLogin
  have hT : w₂.node.db.table? .dbLogin = some (w₂.table .dbLogin) :=
    Site.table_some h₂.ready hlogin
  -- the call changes nothing but the table of accounts
  let T' := (DbLogin.answer adminAccount now (w₂.table .dbLogin)).2
  let w₃ : Site := { w₂ with node := { w₂.node with db := w₂.node.db.setTable .dbLogin T' } }
  have hcall := Node.call_apply hlogin hT adminAccount now
  have hready₃ : w₃.node.Ready := by
    have h : (w₂.node.call .dbLogin (.request adminAccount) now).2.Ready := h₂.ready.call
    rwa [hcall] at h
  let w₄ := (w₃.exec c (.start .dbMessage) now).2
  let w₅ := (w₄.exec c (.start .dbComment) now).2
  have h₄ : w₃.Started w₄ := Site.exec_started hready₃ .dbMessage
  have h₅ : w₄.Started w₅ := Site.exec_started h₄.ready .dbComment
  have h₁₂ := h₁.trans h₂
  have h₄₅ := h₄.trans h₅
  have hup : ∀ S, w₅.node.server S ≠ .down := by
    intro S
    cases S with
    | visitorsDb => exact h₄₅.up _ (h₂.up _ (Site.exec_start_up .visitorsDb))
    | dbLogin => exact h₄₅.up _ hlogin
    | dbMessage => exact h₅.up _ (Site.exec_start_up .dbMessage)
    | dbComment => exact Site.exec_start_up .dbComment
  refine ⟨w₅, ?_, hup, fun S hS => ?_, ⟨T', ?_, fun row => ?_⟩, ?_⟩
  · rw [body, Site.eval_start, Site.eval_start]
    exact Site.eval_call_some hcall _
  · have htable : w₃.table S = w₂.table S :=
      Site.table_eq (Db.table?_setTable_ne w₂.node.db hS T')
    rw [Site.table_some h₅.ready (hup S), h₄₅.table, htable, h₁₂.table]
  · have htable : w₃.table .dbLogin = T' := Site.table_of (Db.table?_setTable_self hT T')
    rw [Site.table_some h₅.ready (hup .dbLogin), h₄₅.table, htable]
  · rw [mem_seeded, h₁₂.table]
  · rw [h₄₅.user, ← h₁₂.user]

/-- Where all servers are up and the admin has an account, the page changes nothing. -/
theorem eval_body_again (hup : ∀ S, w.node.server S ≠ .down) {T : Table Login}
    (hT : w.node.db.table? .dbLogin = some T) (hadmin : .str "admin" ∈ T.keys) :
    w.eval c now body = (some ⟨[], []⟩, w) := by
  have hstart (S : Store) : (w.exec c (.start S) now).2 = w := by
    obtain ⟨link, hlink⟩ := Status.exists_up (hup S)
    simp only [Site.exec, Node.start_up hlink]
  have hans : DbLogin.answer adminAccount now T = (.alreadyInserted, T) :=
    DbLogin.answer_create_taken hadmin
  have hcall : w.node.call .dbLogin (.request adminAccount) now = (some .alreadyInserted, w.node) :=
    Node.call_kept (hup .dbLogin) hT hans
  rw [body, Site.eval_start, hstart, Site.eval_start, hstart]
  refine (Site.eval_call_some hcall _).trans ?_
  show w.eval c now _ = _
  rw [Site.eval_start, hstart, Site.eval_start, hstart]
  rfl

end Index

end Model

attribute [local instance] Crypto.sample Ets.asKept

end WebServerl
