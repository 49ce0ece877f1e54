import WebServerl.Lib.Program
import WebServerl.Node
import WebServerl.Site.Element

/-! The code of the pages: sequential programs that use the stores and the session's user, and the
parts that most pages share. -/

namespace WebServerl

open Erlang

/-- What the code of a page does outside itself. -/
inductive Op where
  | start (S : Store)
  | call (S : Store) (r : S.Request)
  | user
  | setUser (user : Term)
  | logout

/-- What it gets back; a call that exits gives `none`. -/
abbrev Op.Res : Op → Type
  | .start _ => Bool
  | .call S _ => Option (Reply S.Row)
  | .user => Term
  | .setUser _ => Unit
  | .logout => Unit

abbrev Code := Program Op Op.Res

/-- `start/0` of a store, whose result no page looks at. -/
def start (S : Store) : Code Unit := do
  let _ ← Program.op (Op.start S)
  return ()

/-- A call to a store, which crashes the page when it exits. -/
def call (S : Store) (r : S.Request) : Code (Reply S.Row) := do
  let reply ← Program.op (Op.call S r)
  match reply with
  | some reply => return reply
  | none => .crash

/-- What can be left of code that makes one call and goes on with any reply. -/
theorem call_residual {S : Store} {r : S.Request} {α : Type} {a : α} {g : Code α}
    (h : (call S r >>= fun _ => return a : Code α).Residual g) :
    g = (call S r >>= fun _ => return a) ∨ g = .done a ∨ g = .crash := by
  rcases h.of_perform with heq | ⟨reply, hrest⟩
  · exact .inl heq
  · cases reply with
    | none => exact .inr (.inr hrest.of_crash)
    | some reply => exact .inr (.inl hrest.of_done)

/-- `wf:user/0`. -/
def user : Code Term := Program.op Op.user

/-- `wf:user/1`. -/
def setUser (u : Term) : Code Unit := Program.op (Op.setUser u)

/-- `wf:logout/0`. -/
def logout : Code Unit := Program.op Op.logout

/-- `admin_place/0`, which seven pages have. -/
def adminPlace : Code (List Element) := do
  if (← user) = .str "admin" then
    return [.text .p (.str "You are admin"), .button none "Log out" .logout]
  else
    return []

/-- The item between two links of a header. -/
def dot : Element := .listitem [.text .p (.str "•")]

/-- `header/0`, which six pages have. -/
def header : List Element :=
  [.singlerow [.listitem [.link none " HOME " .home], dot,
      .listitem [.link none " PORTRAIT " .portrait], dot,
      .listitem [.link none " NATURE " .nature], dot,
      .listitem [.link none " REPORTAGE " .reportage]], dot,
    .listitem [.link none " CONTACT " .aboutMe], dot,
    .listitem [.link none " GUESTBOOK " .guestbook]]

/-- `footer/0`, which six pages have. -/
def footer : List Element :=
  [.singlerow [.listitem [.url "" "https://vk.com"],
    .listitem [.url "" "https://www.instagram.com"]]]

/-- The template of the six pages of the site: the slots in their order. -/
def template (body : Code Body) : Code Response := do
  let admin ← adminPlace
  let body ← body
  return .page { body with elements := admin ++ header ++ body.elements ++ footer }

/-- The clauses of `event/1` that the six pages share; any other postback matches none. -/
def navigate : Postback → Code (List Action)
  | .home => return [.redirect "/"]
  | .aboutMe => return [.redirect "/contact"]
  | .nature => return [.redirect "/nature"]
  | .portrait => return [.redirect "/portrait"]
  | .reportage => return [.redirect "/reportage"]
  | .guestbook => return [.redirect "/guestbook"]
  | .logout => do
    logout
    return [.redirect "/"]
  | _ => .crash

/-- `Name ++ " " ++ Time`, which fails when the name is not a list. -/
def headline (name time : Term) : Code Term :=
  match ((Term.str " ").append? time).bind name.append? with
  | some text => return text
  | none => .crash

/-- The parameters of a request, as `wf:q/1` reads them. -/
abbrev Params := String → Term

end WebServerl
