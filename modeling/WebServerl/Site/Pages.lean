import WebServerl.Site.Contact
import WebServerl.Site.Guestbook
import WebServerl.Site.Login

/-! `index.erl`, which starts the stores, the pages that only show pictures, `visitors_admin.erl`,
and the site as a whole: the code that a request runs. -/

namespace WebServerl

open Erlang

namespace Index

def body : Code Body := do
  start .visitorsDb
  start .dbLogin
  let _ ← call .dbLogin (.createAccount (.str "admin") (.str "admin"))
  start .dbMessage
  start .dbComment
  return ⟨[], []⟩

def main : Code Response := template body

end Index

namespace Pictures

def body (title text : String) : Code Body :=
  return ⟨[], [.text .h1 (.str title), .text .p (.str text)]⟩

end Pictures

def Nature.main : Code Response :=
  template (Pictures.body "Hi, these are photo of nature" "Waiting for Varya's model")

def Portrait.main : Code Response :=
  template (Pictures.body "Portraites" "Waiting for Varya's model")

def Reportage.main : Code Response :=
  template (Pictures.body "Reportages" "Waiting for Varya's model")

namespace VisitorsAdmin

def body1 : List Element :=
  [.text .h1 (.str "Visitors"), .text .h3 (.str "Enter appointment")]

def timeOption (hour : Nat) : String :=
  if hour = 12 then "12:00 noon"
  else if hour ≤ 11 then Term.integerToList hour ++ ":00 am"
  else Term.integerToList (hour - 12) ++ ":00 pm"

/-- The hours from 8 to 17. -/
def timeDropdown : Element := .dropdown "time" ((List.range' 8 10).map timeOption)

def body : Code Body :=
  return ⟨[],
    [.text .label (.str "Date:  "), .input .datepicker "date1" "", .br,
      .text .label (.str "Time:  "), timeDropdown, .br,
      .text .label (.str "Name: "), .input .textbox "name" "", .br,
      .text .label (.str "City:  "), .input .textbox "city" "", .br,
      .button none "Done" .done, .button (some "save") "Save" .save]⟩

def innerBody : List Validate :=
  [⟨"save", "name", [.isRequiredUnless "Name or Company is required" "company"]⟩]

def main : Code Response := do
  let body ← body
  return .page { body with elements := body1 ++ body.elements }

def saveVisitor (q : Params) : Code (List Action) := do
  let _ ← call .visitorsDb (.insertVisitor (q "name") (q "city"))
  return [.redirect "/"]

def event (pb : Postback) (q : Params) : Code (List Action) :=
  match pb with
  | .done => return [.confirm "Done?" .doneOk]
  | .doneOk => return [.redirect "/"]
  | .save => return [.confirm "Save?" .confirmOk]
  | .confirmOk => do
    let redirect ← saveVisitor q
    return redirect ++ [.clearValidation, .update "inner_body" innerBody]
  | _ => .crash

end VisitorsAdmin

/-! ### Requests -/

/-- The code of a request for a page. -/
def Page.main : Page → Code Response
  | .index => Index.main
  | .guestbook => Guestbook.main
  | .contact => Contact.main
  | .login => Login.main
  | .createAccount => CreateAccount.main
  | .loginPage => LoginPage.main
  | .visitorsAdmin => VisitorsAdmin.main
  | .nature => Nature.main
  | .portrait => Portrait.main
  | .reportage => Reportage.main

/-- The code of an event of a page. -/
def Page.event : Page → Postback → Params → Code (List Action)
  | .guestbook => Guestbook.event
  | .contact => Contact.event
  | .login => Login.event
  | .createAccount => CreateAccount.event
  | .loginPage => fun pb _ => LoginPage.event pb
  | .visitorsAdmin => VisitorsAdmin.event
  | .index | .nature | .portrait | .reportage => fun pb _ => navigate pb

/-- A request: for a page, or for an event of a page. -/
inductive Job where
  | load (page : Page)
  | post (page : Page) (pb : Postback) (q : Params)

def Job.code : Job → Code Response
  | .load page => page.main
  | .post page pb q => do
    let l ← page.event pb q
    return .actions l

theorem Job.code_index {job : Job} (h : job = .load .index) : job.code = Index.main := by
  rw [h]
  rfl

end WebServerl
