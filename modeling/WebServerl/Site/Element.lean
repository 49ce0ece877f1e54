import WebServerl.Erlang.Term

/-! What the pages of the site send to a browser: elements, validators, and the actions of events.
Attributes that only concern the layout are left out. -/

namespace WebServerl

open Erlang

/-- The page modules. -/
inductive Page where
  | index
  | guestbook
  | contact
  | login
  | createAccount
  | loginPage
  | visitorsAdmin
  | nature
  | portrait
  | reportage
  deriving DecidableEq

inductive Postback where
  | home
  | aboutMe
  | nature
  | portrait
  | reportage
  | guestbook
  | save
  | delete (id : Term)
  | login
  | logout
  | done
  | doneOk
  | confirmOk
  deriving DecidableEq

inductive Tag where
  | h1
  | h3
  | h4
  | p
  | label
  | span
  | plain

inductive Field where
  | textbox
  | password
  | textarea
  | datepicker

inductive Element where
  | br
  | text (tag : Tag) (text : Term)
  | input (field : Field) (id : String) (placeholder : String)
  | dropdown (id : String) (options : List String)
  | button (id : Option String) (text : String) (postback : Postback)
  | link (id : Option String) (text : String) (postback : Postback)
  | url (text : String) (url : String)
  | singlerow (cells : List Element)
  | listitem (body : List Element)

mutual

def Element.postbacks : Element → List Postback
  | .button _ _ postback => [postback]
  | .link _ _ postback => [postback]
  | .singlerow cells => postbacksOf cells
  | .listitem body => postbacksOf body
  | .br | .text _ _ | .input _ _ _ | .dropdown _ _ | .url _ _ => []

def postbacksOf : List Element → List Postback
  | [] => []
  | e :: es => e.postbacks ++ postbacksOf es

end

theorem postbacksOf_append (es es' : List Element) :
    postbacksOf (es ++ es') = postbacksOf es ++ postbacksOf es' := by
  induction es with
  | nil => rfl
  | cons e es ih => rw [List.cons_append, postbacksOf, postbacksOf, ih, List.append_assoc]

theorem mem_postbacksOf_flatten {pb : Postback} (ess : List (List Element)) :
    pb ∈ postbacksOf ess.flatten ↔ ∃ es ∈ ess, pb ∈ postbacksOf es := by
  induction ess with
  | nil => simp [postbacksOf]
  | cons es ess ih => simp [postbacksOf_append, ih]

inductive Validator where
  | isRequired (text : String)
  | isRequiredUnless (text : String) (field : String)
  | isEmail (text : String)

/-- `wf:defer(Trigger, Target, #validate{..})`. -/
structure Validate where
  trigger : String
  target : String
  validators : List Validator

/-- What `body/0` of a page returns, with the validators that it has deferred. -/
structure Body where
  defer : List Validate
  elements : List Element

inductive Action where
  | redirect (url : String)
  | alert (text : String)
  | confirm (text : String) (postback : Postback)
  | clearValidation
  | update (id : String) (defer : List Validate)

def Action.postbacks : Action → List Postback
  | .confirm _ postback => [postback]
  | .redirect _ | .alert _ | .clearValidation | .update _ _ => []

/-- The answer to a request: a page, or the actions of an event. -/
inductive Response where
  | page (body : Body)
  | actions (l : List Action)

/-- The postbacks that the browser can send after the response. -/
def Response.postbacks : Response → List Postback
  | .page body => postbacksOf body.elements
  | .actions l => l.flatMap Action.postbacks

end WebServerl
