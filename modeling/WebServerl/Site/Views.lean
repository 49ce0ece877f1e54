import WebServerl.Erlang.Listing
import WebServerl.Site.Eval

/-! What the guestbook and the contact page show.  Each of them sorts the rows of its table in one
of the three branches of `length/1`; in all three it shows the listing of the table, row by row. -/

namespace WebServerl

open Erlang Erlang.Mnesia

/-- `Name ++ " " ++ Time`, for strings. -/
def caption (name time : Term) : Term := .ofList (name.elements ++ .int 32 :: time.elements)

theorem headline_eq {name time : Term} (hname : name.IsString) (htime : time.IsString) :
    headline name time = pure (caption name time) := by
  obtain ⟨codes, rfl⟩ := hname
  obtain ⟨codes', rfl⟩ := htime
  have hspace : Term.str " " = .ofList [.int 32] := rfl
  rw [headline, hspace, Term.append?_ofList, Option.bind_some, Term.append?_ofList, caption,
    Term.elements_ofList, Term.elements_ofList]
  rfl

namespace Guestbook

/-- What the guestbook shows of a comment, to a user. -/
def block (u : Term) (c : Comment) : List Element :=
  if u = .undefined then
    [.br, .text .h1 (caption c.name c.time), .br, .br, .text .p c.message, .br]
  else
    [.br, .singlerow [.listitem [.text .h1 (caption c.name c.time)],
        .listitem [.button none "Delete Comment" (.delete c.id)]],
      .br, .br, .text .p c.message, .br]

/-- The page of `body/0` with these comments, for a user. -/
def shown (u : Term) (comments : List Comment) : Body :=
  ⟨validators, (comments.map (block u)).flatten ++ form⟩

/-- The three branches show the same: a list of at most one comment is sorted. -/
theorem view_eq (comments : List Comment) :
    view comments = (Erlang.sort keyLeq comments).mapM pretty := by
  match comments with
  | [] => rfl
  | [c] => rfl
  | c₁ :: c₂ :: rest => rfl

end Guestbook

namespace Contact

/-- What the contact page shows of a message. -/
def block (m : Message) : List Element :=
  [.br, .text .h1 (caption m.name m.time), .br, .br, .text .h1 m.mail, .br, .br,
    .text .p m.message, .br]

theorem view_eq (messages : List Message) :
    view messages = (Erlang.sort keyLeq messages).mapM pretty := by
  match messages with
  | [] => rfl
  | [m] => rfl
  | m₁ :: m₂ :: rest => rfl

end Contact

section Eval

variable [Crypto] [Ets] {c : Ctx} {now : DateTime} {w : Site}

/-- A list of programs, each of which comes to a value without changing the site. -/
theorem Site.eval_mapM {α β γ : Type} {g : α → Code β} {b : α → β} {l : List α}
    (h : ∀ a ∈ l, ∀ f : β → Code γ, w.eval c now (g a >>= f) = w.eval c now (f (b a)))
    (f : List β → Code γ) : w.eval c now (l.mapM g >>= f) = w.eval c now (f (l.map b)) := by
  induction l generalizing f with
  | nil => rfl
  | cons a l ih =>
    rw [List.mapM_cons, bind_assoc, h a List.mem_cons_self]
    rw [bind_assoc, ih fun a' ha' => h a' (List.mem_cons_of_mem _ ha')]
    rfl

/-- A request that changes nothing is answered from the table. -/
theorem Site.eval_query {S : Store} {r : S.Request} (hup : w.node.server S ≠ .down)
    {T : Table S.Row} (hT : w.node.db.table? S = some T) (hquery : (S.answer r now T).2 = T)
    {β : Type} (f : Reply S.Row → Code β) :
    w.eval c now (WebServerl.call S r >>= f) = w.eval c now (f (S.answer r now T).1) := by
  rw [Site.eval_call_some (Node.call_apply hup hT r now), hquery, Db.setTable_self hT]

theorem Guestbook.eval_pretty {row : Comment} (hname : row.name.IsString)
    (htime : row.time.IsString) {β : Type} (f : List Element → Code β) :
    w.eval c now (pretty row >>= f) = w.eval c now (f (block (w.user c.session) row)) := by
  rw [pretty, bind_assoc, Site.eval_user, headline_eq hname htime, block]
  split
  · rfl
  · rfl

/-- What the guestbook shows a session. -/
theorem Guestbook.eval_body (hup : w.node.server .dbComment ≠ .down) {T : Table Comment}
    (hT : w.node.db.table? .dbComment = some T)
    (hstr : ∀ row ∈ T, row.name.IsString ∧ row.time.IsString) :
    w.eval c now body = (some (shown (w.user c.session) (listing T)), w) := by
  rw [body, Site.eval_query hup hT rfl]
  show w.eval c now (view (Ets.order T.rows) >>= _) = _
  rw [view_eq]
  refine (Site.eval_mapM (b := block (w.user c.session)) (fun row hrow f => ?_) _).trans rfl
  obtain ⟨hname, htime⟩ := hstr row (mem_listing.mp hrow)
  exact eval_pretty hname htime f

/-- What the contact page shows a session with a user. -/
theorem Contact.eval_body (huser : w.user c.session ≠ .undefined)
    (hup : w.node.server .dbMessage ≠ .down) {T : Table Message}
    (hT : w.node.db.table? .dbMessage = some T)
    (hstr : ∀ row ∈ T, row.name.IsString ∧ row.time.IsString) :
    w.eval c now body = (some ⟨[], ((listing T).map block).flatten⟩, w) := by
  rw [body, Site.eval_user, if_neg huser, Site.eval_query hup hT rfl]
  show w.eval c now (view (Ets.order T.rows) >>= _) = _
  rw [view_eq]
  refine (Site.eval_mapM (b := block) (fun row hrow f => ?_) _).trans rfl
  obtain ⟨hname, htime⟩ := hstr row (mem_listing.mp hrow)
  rw [pretty, headline_eq hname htime]
  rfl

end Eval

end WebServerl
