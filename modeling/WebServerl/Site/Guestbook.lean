import WebServerl.Site.Code

/-! `guestbook.erl`: the comments, a form for a new one, and a delete button beside each comment
for a session with a user. -/

namespace WebServerl.Guestbook

open Erlang

/-- `Pretty`, which reads the user again for each comment. -/
def pretty (c : Comment) : Code (List Element) := do
  if (← user) = .undefined then
    let head ← headline c.name c.time
    return [.br, .text .h1 head, .br, .br, .text .p c.message, .br]
  else
    let head ← headline c.name c.time
    return [.br, .singlerow [.listitem [.text .h1 head],
        .listitem [.button none "Delete Comment" (.delete c.id)]],
      .br, .br, .text .p c.message, .br]

def form : List Element :=
  [.br, .input .textbox "name" "Name", .br, .br, .input .textarea "message" "Your comment", .br,
    .br, .link (some "comment") "" .save]

def validators : List Validate :=
  [⟨"comment", "name", [.isRequired "Name Required"]⟩,
    ⟨"comment", "message", [.isRequired "Message Required"]⟩]

def view (comments : List Comment) : Code (List (List Element)) :=
  match comments with
  | [] => return []
  | [c] => [c].mapM pretty
  | _ => (Erlang.sort (fun c₁ c₂ => c₁.id.leq c₂.id) comments).mapM pretty

def body : Code Body := do
  match ← call .dbComment .dumpComments with
  | .rows comments =>
    let view ← view comments
    return ⟨validators, view.flatten ++ form⟩
  | _ => .crash

def main : Code Response := template body

def event (pb : Postback) (q : Params) : Code (List Action) :=
  match pb with
  | .save => do
    let _ ← call .dbComment (.addComment (q "name") (q "message"))
    return [.redirect "/guestbook"]
  | .delete id => do
    let _ ← call .dbComment (.remove id)
    return [.redirect "/guestbook"]
  | pb => navigate pb

end WebServerl.Guestbook
