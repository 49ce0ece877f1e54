import WebServerl.Site.Pages

/-! Which operations the code of a request can perform. -/

namespace WebServerl

open Erlang

/-- An operation that neither touches the accounts, nor removes a row, nor sets a user. -/
def Op.Plain : Op → Prop
  | .user | .logout => True
  | .call S r => S ≠ .dbLogin ∧ S.removedKey? r = none
  | .start _ | .setUser _ => False

def adminAccount : DbLogin.Request := .createAccount (.str "admin") (.str "admin")

def Job.MayUse : Job → Op → Prop
  | .load .index, o =>
    o = .user ∨ (∃ S, o = .start S) ∨ o = .call .dbLogin adminAccount
  | .post .createAccount .save q, o =>
    o = .call .dbLogin (.createAccount (q "username") (q "password")) ∨
      o = .setUser (q "username")
  | .post .login .login q, o =>
    o = .call .dbLogin (.attemptLogin (q "username") (q "password")) ∨
      o = .setUser (q "username")
  | .post .guestbook (.delete id) _, o => o = .call .dbComment (.remove id)
  | _, o => o.Plain

/-- An operation that changes no row and logs nobody in. -/
def Op.Quiet : Op → Prop
  | .user | .logout => True
  | .call .dbComment .dumpComments => True
  | .call .dbMessage .dumpMessages => True
  | _ => False

/-- The operations of a request, with the rows that it asks for. -/
def Job.Performs : Job → Op → Prop
  | .post .guestbook .save q, o => o = .call .dbComment (.addComment (q "name") (q "message"))
  | .post .contact .save q, o =>
    o = .call .dbMessage (.addMessage (q "name") (q "mail") (q "message"))
  | .post .visitorsAdmin .confirmOk q, o =>
    o = .call .visitorsDb (.insertVisitor (q "name") (q "city"))
  | .load .index, o => Job.MayUse (.load .index) o
  | .post .createAccount .save q, o => Job.MayUse (.post .createAccount .save q) o
  | .post .login .login q, o => Job.MayUse (.post .login .login q) o
  | .post .guestbook (.delete id) q, o => Job.MayUse (.post .guestbook (.delete id) q) o
  | _, o => o.Quiet

theorem Op.Quiet.plain {o : Op} (h : o.Quiet) : o.Plain := by
  unfold Op.Quiet at h
  split at h
  · trivial
  · trivial
  · exact ⟨nofun, rfl⟩
  · exact ⟨nofun, rfl⟩
  · exact h.elim

theorem Job.Performs.mayUse {job : Job} {o : Op} (h : job.Performs o) : job.MayUse o := by
  unfold Job.Performs at h
  split at h
  · rw [h]
    exact ⟨nofun, rfl⟩
  · rw [h]
    exact ⟨nofun, rfl⟩
  · rw [h]
    exact ⟨nofun, rfl⟩
  · exact h
  · exact h
  · exact h
  · exact h
  · rename_i hindex hcreate hlogin hdelete
    unfold Job.MayUse
    split
    · exact (hindex rfl).elim
    · exact (hcreate _ rfl).elim
    · exact (hlogin _ rfl).elim
    · exact (hdelete _ _ rfl).elim
    · exact h.plain

section Parts

variable {good : Op → Prop}

theorem uses_start {S : Store} (h : good (.start S)) : (start S).Uses good :=
  ⟨h, fun _ => trivial⟩

theorem uses_call {S : Store} {r : S.Request} (h : good (.call S r)) :
    (call S r).Uses good := by
  refine ⟨h, fun reply => ?_⟩
  cases reply <;> trivial

theorem uses_user (h : good .user) : user.Uses good := ⟨h, fun _ => trivial⟩

theorem uses_setUser {u : Term} (h : good (.setUser u)) : (setUser u).Uses good :=
  ⟨h, fun _ => trivial⟩

theorem uses_logout (h : good .logout) : logout.Uses good := ⟨h, fun _ => trivial⟩

theorem uses_headline (name time : Term) : (headline name time).Uses good := by
  unfold headline
  split <;> trivial

theorem uses_adminPlace (h : good .user) : adminPlace.Uses good := by
  refine (uses_user h).bind fun u => ?_
  split <;> trivial

theorem uses_template {body : Code Body} (h : good .user) (hbody : body.Uses good) :
    (template body).Uses good :=
  (uses_adminPlace h).bind fun _ => hbody.bind fun _ => trivial

end Parts

theorem uses_navigate (pb : Postback) : (navigate pb).Uses Op.Quiet := by
  cases pb with
  | logout => exact (uses_logout trivial).bind fun _ => trivial
  | _ => trivial

theorem Guestbook.uses_pretty (c : Comment) : (pretty c).Uses Op.Quiet := by
  refine (uses_user trivial).bind fun u => ?_
  split
  · exact (uses_headline _ _).bind fun _ => trivial
  · exact (uses_headline _ _).bind fun _ => trivial

theorem Guestbook.uses_view (comments : List Comment) : (view comments).Uses Op.Quiet := by
  unfold view
  split
  · trivial
  · exact Program.Uses.mapM uses_pretty _
  · exact Program.Uses.mapM uses_pretty _

theorem Guestbook.uses_main : main.Uses Op.Quiet := by
  refine uses_template trivial ((uses_call trivial).bind fun reply => ?_)
  split
  · exact (uses_view _).bind fun _ => trivial
  · trivial

theorem Contact.uses_pretty (m : Message) : (pretty m).Uses Op.Quiet :=
  (uses_headline _ _).bind fun _ => trivial

theorem Contact.uses_view (messages : List Message) : (view messages).Uses Op.Quiet := by
  unfold view
  split
  · trivial
  · exact Program.Uses.mapM uses_pretty _
  · exact Program.Uses.mapM uses_pretty _

theorem Contact.uses_main : main.Uses Op.Quiet := by
  refine uses_template trivial ((uses_user trivial).bind fun u => ?_)
  split
  · trivial
  · refine (uses_call trivial).bind fun reply => ?_
    split
    · exact (uses_view _).bind fun _ => trivial
    · trivial

theorem Login.uses_main : main.Uses Op.Quiet := by
  refine (uses_adminPlace trivial).bind fun _ => Program.Uses.bind ?_ fun _ => trivial
  refine (uses_user trivial).bind fun u => ?_
  split <;> trivial

theorem LoginPage.uses_main : main.Uses Op.Quiet := by
  refine Program.Uses.bind ?_ fun _ => trivial
  refine (uses_user trivial).bind fun u => ?_
  split <;> trivial

theorem Index.uses_main : main.Uses (Job.Performs (.load .index)) := by
  refine uses_template (.inl rfl) ?_
  refine (uses_start (.inr (.inl ⟨_, rfl⟩))).bind fun _ => ?_
  refine (uses_start (.inr (.inl ⟨_, rfl⟩))).bind fun _ => ?_
  refine (uses_call (.inr (.inr rfl))).bind fun _ => ?_
  refine (uses_start (.inr (.inl ⟨_, rfl⟩))).bind fun _ => ?_
  exact (uses_start (.inr (.inl ⟨_, rfl⟩))).bind fun _ => trivial

theorem Page.uses_main (page : Page) : page.main.Uses (Job.Performs (.load page)) := by
  cases page with
  | index => exact Index.uses_main
  | guestbook => exact Guestbook.uses_main
  | contact => exact Contact.uses_main
  | login => exact Login.uses_main
  | createAccount => trivial
  | loginPage => exact LoginPage.uses_main
  | visitorsAdmin => trivial
  | nature => exact uses_template trivial trivial
  | portrait => exact uses_template trivial trivial
  | reportage => exact uses_template trivial trivial

theorem Guestbook.event_eq_navigate {pb : Postback} (hsave : pb ≠ .save)
    (hdelete : ∀ id, pb ≠ .delete id) (q : Params) : event pb q = navigate pb := by
  cases pb with
  | save => exact absurd rfl hsave
  | delete id => exact absurd rfl (hdelete id)
  | _ => rfl

theorem Guestbook.uses_event (pb : Postback) (q : Params) :
    (event pb q).Uses (Job.Performs (.post .guestbook pb q)) := by
  cases pb with
  | save => exact Program.Uses.bind (uses_call rfl) fun _ => trivial
  | delete id => exact Program.Uses.bind (uses_call rfl) fun _ => trivial
  | _ =>
    rw [event_eq_navigate (by simp) (by simp)]
    exact uses_navigate _

theorem Contact.event_eq_navigate {pb : Postback} (hsave : pb ≠ .save) (q : Params) :
    event pb q = navigate pb := by
  cases pb with
  | save => exact absurd rfl hsave
  | _ => rfl

theorem Contact.uses_event (pb : Postback) (q : Params) :
    (event pb q).Uses (Job.Performs (.post .contact pb q)) := by
  cases pb with
  | save => exact Program.Uses.bind (uses_call rfl) fun _ => trivial
  | _ =>
    rw [event_eq_navigate (by simp)]
    exact uses_navigate _

theorem Login.uses_event (pb : Postback) (q : Params) :
    (event pb q).Uses (Job.Performs (.post .login pb q)) := by
  cases pb with
  | login =>
    refine (uses_call (.inl rfl)).bind fun reply => ?_
    split
    · exact (uses_setUser (.inr rfl)).bind fun _ => trivial
    · trivial
    · trivial
  | logout => exact (uses_logout trivial).bind fun _ => trivial
  | _ => trivial

theorem CreateAccount.uses_event (pb : Postback) (q : Params) :
    (event pb q).Uses (Job.Performs (.post .createAccount pb q)) := by
  cases pb with
  | save =>
    refine (uses_call (.inl rfl)).bind fun reply => ?_
    split
    · exact (uses_setUser (.inr rfl)).bind fun _ => trivial
    · trivial
  | _ => trivial

theorem LoginPage.uses_event (pb : Postback) : (event pb).Uses Op.Quiet := by
  cases pb with
  | logout => exact (uses_logout trivial).bind fun _ => trivial
  | _ => trivial

theorem VisitorsAdmin.uses_saveVisitor (q : Params) :
    (saveVisitor q).Uses (Job.Performs (.post .visitorsAdmin .confirmOk q)) :=
  Program.Uses.bind (uses_call rfl) fun _ => trivial

theorem VisitorsAdmin.uses_event (pb : Postback) (q : Params) :
    (event pb q).Uses (Job.Performs (.post .visitorsAdmin pb q)) := by
  cases pb with
  | confirmOk => exact (uses_saveVisitor q).bind fun _ => trivial
  | _ => trivial

theorem Page.uses_event (page : Page) (pb : Postback) (q : Params) :
    (page.event pb q).Uses (Job.Performs (.post page pb q)) := by
  cases page with
  | guestbook => exact Guestbook.uses_event pb q
  | contact => exact Contact.uses_event pb q
  | login => exact Login.uses_event pb q
  | createAccount => exact CreateAccount.uses_event pb q
  | loginPage => exact LoginPage.uses_event pb
  | visitorsAdmin => exact VisitorsAdmin.uses_event pb q
  | _ => exact uses_navigate pb

theorem Job.code_performs (job : Job) : job.code.Uses job.Performs := by
  cases job with
  | load page => exact page.uses_main
  | post page pb q => exact (page.uses_event pb q).bind fun _ => trivial

theorem Job.code_uses (job : Job) : job.code.Uses job.MayUse :=
  job.code_performs.mono fun _ => Job.Performs.mayUse

/-! The requests that set a user, and the one that removes rows. -/

theorem Job.mayUse_setUser {job : Job} {u : Term} (h : job.MayUse (.setUser u)) :
    ∃ q, u = q "username" ∧ (job = .post .createAccount .save q ∨ job = .post .login .login q) := by
  unfold Job.MayUse at h
  split at h
  · rcases h with h | ⟨S, h⟩ | h <;> cases h
  · rename_i q
    rcases h with h | h
    · cases h
    · cases h
      exact ⟨q, rfl, .inl rfl⟩
  · rename_i q
    rcases h with h | h
    · cases h
    · cases h
      exact ⟨q, rfl, .inr rfl⟩
  · cases h
  · exact absurd h id

theorem Job.mayUse_remove {job : Job} {S : Store} {r : S.Request} {key : Term}
    (h : job.MayUse (.call S r)) (hr : S.removedKey? r = some key) :
    S = .dbComment ∧ ∃ q, job = .post .guestbook (.delete key) q := by
  unfold Job.MayUse at h
  split at h
  · rcases h with h | ⟨S, h⟩ | h
    · cases h
    · cases h
    · cases h
      cases hr
  · rcases h with h | h
    · cases h
      cases hr
    · cases h
  · rcases h with h | h
    · cases h
      cases hr
    · cases h
  · cases h
    cases hr
    exact ⟨rfl, _, rfl⟩
  · rw [h.2] at hr
    cases hr

/-! The requests that save something. -/

theorem Job.performs_addMessage {job : Job} {name email message : Term}
    (h : job.Performs (.call .dbMessage (.addMessage name email message))) :
    ∃ q, job = .post .contact .save q ∧ name = q "name" ∧ email = q "mail" ∧
      message = q "message" := by
  unfold Job.Performs at h
  split at h
  · cases h
  · cases h
    exact ⟨_, rfl, rfl, rfl, rfl⟩
  · cases h
  · rcases h with h | ⟨S, h⟩ | h <;> cases h
  · rcases h with h | h <;> cases h
  · rcases h with h | h <;> cases h
  · cases h
  · exact h.elim

theorem Job.performs_addComment {job : Job} {name message : Term}
    (h : job.Performs (.call .dbComment (.addComment name message))) :
    ∃ q, job = .post .guestbook .save q ∧ name = q "name" ∧ message = q "message" := by
  unfold Job.Performs at h
  split at h
  · cases h
    exact ⟨_, rfl, rfl, rfl⟩
  · cases h
  · cases h
  · rcases h with h | ⟨S, h⟩ | h <;> cases h
  · rcases h with h | h <;> cases h
  · rcases h with h | h <;> cases h
  · cases h
  · exact h.elim

/-! The two requests that set a user are a call and, after one of its answers, a `wf:user/1`. -/

def afterCreate (username : Term) : Option (Reply Login) → Code Response
  | some .ok => .perform (.setUser username) fun _ => .done (.actions [.redirect "/"])
  | _ => .crash

def afterAttempt (username : Term) : Option (Reply Login) → Code Response
  | some (.bool true) => .perform (.setUser username) fun _ => .done (.actions [.redirect "/"])
  | some (.bool false) => .done (.actions [.alert "Invalid Username or Password"])
  | _ => .crash

theorem CreateAccount.save_code (q : Params) : (Job.post .createAccount .save q).code =
    .perform (.call .dbLogin (.createAccount (q "username") (q "password")))
      (afterCreate (q "username")) := by
  refine congrArg (Program.perform _) (funext fun reply => ?_)
  match reply with
  | none => rfl
  | some reply => cases reply <;> rfl

theorem afterCreate_crash (username : Term) {reply : Option (Reply Login)}
    (h : reply ≠ some .ok) : afterCreate username reply = .crash := by
  unfold afterCreate
  split
  · exact absurd rfl h
  · rfl

/-- The call of a registration is its first operation, so that the rest of its code is known. -/
theorem CreateAccount.residual_call {q : Params} {S : Store} {r : S.Request}
    {next : Option (Reply S.Row) → Code Response}
    (h : (Job.post .createAccount .save q).code.Residual (.perform (.call S r) next)) :
    Program.perform (.call S r) next = (Job.post .createAccount .save q).code := by
  rw [save_code] at h ⊢
  rcases h.of_perform with heq | ⟨reply, h⟩
  · exact heq
  · unfold afterCreate at h
    split at h
    · rcases h.of_perform with heq | ⟨-, h⟩
      · cases heq
      · cases h.of_done
    · cases h.of_crash

theorem Login.login_code (q : Params) : (Job.post .login .login q).code =
    .perform (.call .dbLogin (.attemptLogin (q "username") (q "password")))
      (afterAttempt (q "username")) := by
  refine congrArg (Program.perform _) (funext fun reply => ?_)
  match reply with
  | none => rfl
  | some (.bool true) => rfl
  | some (.bool false) => rfl
  | some .ok | some .alreadyInserted | some .none | some (.rows _) | some (.names _)
  | some .terminated => rfl

end WebServerl
