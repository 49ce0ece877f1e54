import WebServerl.Site.Code

/-! `contact.erl`: a form for a message to the photographer, or the messages. -/

namespace WebServerl.Contact

open Erlang

def pretty (m : Message) : Code (List Element) := do
  let head ← headline m.name m.time
  return [.br, .text .h1 head, .br, .br, .text .h1 m.mail, .br, .br, .text .p m.message, .br]

def form : List Element :=
  [.br,
    .text .h4 (.str "Здравствуйте, меня зовут Елькина Варвара, я начинающий фотограф."),
    .text .h4
      (.str "Люблю фотографировать природу и людей. Также занимаюсь репортажной съемкой. "),
    .br, .br,
    .text .h4 (.str "Россия. г. Нижний Новгород"),
    .br,
    .text .h4 (.str "Пожалуйста используйте форму ниже, чтобы связаться со мной"),
    .br, .br,
    .input .textbox "name" "Name", .br, .br,
    .input .textbox "mail" "E-mail", .br, .br,
    .input .textarea "message" "Your message", .br, .br,
    .link (some "message") "" .save]

def validators : List Validate :=
  [⟨"message", "name", [.isRequired "Name Required"]⟩,
    ⟨"message", "mail",
      [.isEmail "E-mail Address Required", .isRequired "E-mail Address Required"]⟩,
    ⟨"message", "message", [.isRequired "Message Required"]⟩]

def view (messages : List Message) : Code (List (List Element)) :=
  match messages with
  | [] => return []
  | [m] => [m].mapM pretty
  | _ => (Erlang.sort (fun m₁ m₂ => m₁.id.leq m₂.id) messages).mapM pretty

def body : Code Body := do
  if (← user) = .undefined then
    return ⟨validators, form⟩
  else
    match ← call .dbMessage .dumpMessages with
    | .rows messages =>
      let view ← view messages
      return ⟨[], view.flatten⟩
    | _ => .crash

def main : Code Response := template body

def event (pb : Postback) (q : Params) : Code (List Action) :=
  match pb with
  | .save => do
    let _ ← call .dbMessage (.addMessage (q "name") (q "mail") (q "message"))
    return [.redirect "/"]
  | pb => navigate pb

end WebServerl.Contact
