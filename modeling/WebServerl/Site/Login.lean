import WebServerl.Site.Code

/-! `login.erl`, `create_account.erl` and `login_page.erl`: the pages that set the session's
user. -/

namespace WebServerl

open Erlang

namespace Login

def loggedInAs (username : Term) : Term :=
  .ofList [.str "Logged in as ", username, .str ". "]

def validators : List Validate :=
  [⟨"login", "username", [.isRequired "Username Required"]⟩,
    ⟨"login", "password", [.isRequired "Password Required"]⟩]

def body : Code Body := do
  let username ← user
  if username = .undefined then
    return ⟨validators,
      [.br, .text .h1 (.str "This is a login page for admin"), .br,
        .text .p (.str "Please close it if you are user"), .br,
        .input .textbox "username" "Username", .br, .br,
        .input .password "password" "Password", .br, .br,
        .button (some "login") "Log In" .login]⟩
  else
    return ⟨validators,
      [.text .span (loggedInAs username), .br, .br, .button none "Log out" .logout]⟩

/-- The page has no `header/0` and no `footer/0`. -/
def main : Code Response := do
  let admin ← adminPlace
  let body ← body
  return .page { body with elements := admin ++ body.elements }

def event (pb : Postback) (q : Params) : Code (List Action) :=
  match pb with
  | .login => do
    match ← call .dbLogin (.attemptLogin (q "username") (q "password")) with
    | .bool true =>
      setUser (q "username")
      return [.redirect "/"]
    | .bool false => return [.alert "Invalid Username or Password"]
    | _ => .crash
  | .logout => do
    logout
    return [.redirect "/"]
  | _ => .crash

end Login

namespace CreateAccount

def body : Code Body :=
  return ⟨[],
    [.text .label (.str "Username:"), .input .textbox "username" "", .br,
      .text .label (.str "Password:"), .input .password "password" "", .br,
      .text .label (.str "Confirm Password:"), .input .password "password2" "", .br,
      .button none "Save Account" .save]⟩

def main : Code Response := do
  let body ← body
  return .page body

def event (pb : Postback) (q : Params) : Code (List Action) :=
  match pb with
  | .save => do
    match ← call .dbLogin (.createAccount (q "username") (q "password")) with
    | .ok =>
      setUser (q "username")
      return [.redirect "/"]
    | _ => .crash
  | _ => .crash

end CreateAccount

namespace LoginPage

def body : Code Body := do
  let username ← user
  if username = .undefined then
    return ⟨[],
      [.text .plain (.str "Not Logged in."), .br, .url "Log In" "/login",
        .text .plain (.str "  or  "), .url "Create an Account" "/create_account"]⟩
  else
    return ⟨[],
      [.text .span (Login.loggedInAs username), .br, .link none "Log out" .logout]⟩

def main : Code Response := do
  let body ← body
  return .page body

def event (pb : Postback) : Code (List Action) :=
  match pb with
  | .logout => do
    logout
    return [.redirect "/"]
  | _ => .crash

end LoginPage

end WebServerl
