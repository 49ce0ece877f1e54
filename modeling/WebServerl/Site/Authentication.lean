import WebServerl.Site.Contract
import WebServerl.Site.Rows
import WebServerl.Site.Uses

/-! Who a session can be logged in as: a name that it submitted itself, with the password that is
stored for the name.  The invariant joins the accounts, the users and the requests of the past; the
requests rely on each other not to change a stored password. -/

namespace WebServerl

open Erlang Erlang.Mnesia Machine

/-- The session has sent a form of `create_account` or `login` with these fields. -/
def Submitted (tr : List Label) (s : Session) (username password : Term) : Prop :=
  ∃ p page pb q, .request p s (.post page pb q) ∈ tr ∧ q "username" = username ∧
    q "password" = password ∧
    ((page, pb) = (.createAccount, .save) ∨ (page, pb) = (.login, .login))

theorem Submitted.mono {tr tr' : List Label} {s : Session} {username password : Term}
    (h : Submitted tr s username password) (htr : tr <+: tr') :
    Submitted tr' s username password := by
  obtain ⟨p, page, pb, q, hmem, hq⟩ := h
  exact ⟨p, page, pb, q, htr.subset hmem, hq⟩

section Model

variable [Crypto]

/-- The name has an account, and the session has submitted it with the password stored there. -/
def Proven (σ : Past) (s : Session) (username : Term) : Prop :=
  ∃ T password, σ.2.node.db.table? .dbLogin = some T ∧
    DbLogin.newRow username password ∈ T ∧ Submitted σ.1 s username password

/-- Every session with a user has proven to be that user. -/
def Authenticated (σ : Past) : Prop :=
  ∀ s, σ.2.user s ≠ .undefined → Proven σ s (σ.2.user s)

/-- The past has grown, and the accounts are still there with their passwords. -/
def AccountsKept (σ σ' : Past) : Prop := σ.1 <+: σ'.1 ∧ KeepsRows .dbLogin σ.2.node σ'.2.node

/-- The name has an account with this password. -/
def HasAccount (σ : Past) (username password : Term) : Prop :=
  ∃ T, σ.2.node.db.table? .dbLogin = some T ∧ DbLogin.newRow username password ∈ T

theorem HasAccount.mono {σ σ' : Past} {username password : Term}
    (h : HasAccount σ username password) (hle : AccountsKept σ σ') :
    HasAccount σ' username password := by
  obtain ⟨T, hT, hrow⟩ := h
  obtain ⟨T', hT', hrows⟩ := hle.2 T hT
  exact ⟨T', hT', hrows _ hrow⟩

theorem Proven.mono {σ σ' : Past} {s : Session} {username : Term} (h : Proven σ s username)
    (hle : AccountsKept σ σ') : Proven σ' s username := by
  obtain ⟨T, password, hT, hrow, hsub⟩ := h
  obtain ⟨T', hT', hrows⟩ := hle.2 T hT
  exact ⟨T', password, hT', hrows _ hrow, hsub.mono hle.1⟩

/-- A step that keeps the accounts, and sets each user to what it was or to none. -/
theorem Authenticated.mono {σ σ' : Past} (h : Authenticated σ) (hle : AccountsKept σ σ')
    (huser : ∀ s, σ'.2.user s = σ.2.user s ∨ σ'.2.user s = .undefined) : Authenticated σ' := by
  intro s hs
  rcases huser s with heq | hnone
  · rw [heq] at hs ⊢
    exact (h s hs).mono hle
  · exact absurd hnone hs

def authentication : Contract where
  condition := { stop := fun _ _ => False }
  inv := Authenticated
  le := AccountsKept
  allowed _ _ _ := True
  post _ _ _ := True
  le_refl _ := ⟨List.prefix_refl _, .refl _ _⟩
  le_trans h h' := ⟨h.1.trans h'.1, h.2.trans h'.2⟩

variable [Ets]

/-- An operation that is neither `wf:user/1` nor removes an account keeps the contract. -/
theorem authentication_keeps_op {c : Ctx} {o : Op} (hset : ∀ u, o ≠ .setUser u)
    (hrem : ∀ r, o = .call .dbLogin r → Store.dbLogin.removedKey? r = none) {σ : Past}
    (hinv : Authenticated σ) (now : DateTime) :
    authentication.Keeps σ (authentication.discipline.exec c o now σ).2 := by
  have hle : AccountsKept σ (authentication.discipline.exec c o now σ).2 :=
    ⟨List.prefix_append _ _, Site.exec_keepsRows hrem c now σ.2⟩
  refine ⟨hinv.mono hle fun s => ?_, hle⟩
  cases o with
  | start S => exact .inl rfl
  | call S r => exact .inl rfl
  | user => exact .inl rfl
  | setUser u => exact absurd rfl (hset u)
  | logout =>
    by_cases hs : s = c.session
    · refine .inr ?_
      show Function.update σ.2.user c.session .undefined s = .undefined
      rw [hs, Function.update_self]
    · refine .inl ?_
      show Function.update σ.2.user c.session .undefined s = σ.2.user s
      rw [Function.update_of_ne hs]

/-- `wf:user/1` with a name that the session has proven. -/
theorem authentication_safe_setUser {c : Ctx} {username : Term} {r : Response} {σ : Past}
    {post : Response → Past → Prop} (h : Proven σ c.session username)
    (hpost : ∀ σ', AccountsKept σ σ' → post r σ') :
    (Program.perform (.setUser username) fun _ => .done r : Code Response).Safe
      authentication.discipline c post σ := by
  intro σ' hle hinv _
  refine ⟨trivial, fun now => ?_⟩
  have hle' : AccountsKept σ' (authentication.discipline.exec c (.setUser username) now σ').2 :=
    ⟨List.prefix_append _ _, .refl _ _⟩
  refine ⟨fun s hs => ?_, hle', fun σ'' hle'' _ => ?_⟩
  · by_cases hcs : s = c.session
    · subst hcs
      have huser : (authentication.discipline.exec c (.setUser username) now σ').2.2.user
          c.session = username := Function.update_self _ _ _
      rw [huser]
      exact (h.mono hle).mono hle'
    · have huser : (authentication.discipline.exec c (.setUser username) now σ').2.2.user s =
          σ'.2.user s := Function.update_of_ne hcs _ _
      rw [huser] at hs ⊢
      exact (hinv s hs).mono hle'
  · exact hpost σ'' (authentication.le_trans (authentication.le_trans hle hle') hle'')

section Calls

variable {n : Node} {username password : Term} {now : DateTime}

theorem Node.call_create_ok
    (h : (n.call .dbLogin (.request (.createAccount username password)) now).1 = some .ok) :
    ∃ T, (n.call .dbLogin (.request (.createAccount username password)) now).2.db.table?
      .dbLogin = some T ∧ DbLogin.newRow username password ∈ T := by
  obtain ⟨T, -, hreply, hT'⟩ := call_answered rfl h
  have hok : (insertRow (DbLogin.newRow username password) T).1 = .ok := hreply.symm
  exact ⟨_, hT', mem_insertRow.mpr (.inr ⟨insertRow_ok_iff.mp hok, rfl⟩)⟩

theorem Node.call_attempt_true
    (h : (n.call .dbLogin (.request (.attemptLogin username password)) now).1 =
      some (.bool true)) :
    ∃ T, (n.call .dbLogin (.request (.attemptLogin username password)) now).2.db.table?
      .dbLogin = some T ∧ DbLogin.newRow username password ∈ T := by
  obtain ⟨T, -, hreply, hT'⟩ := call_answered rfl h
  have htrue : decide (DbLogin.newRow username password ∈ T.rows) = true :=
    Reply.bool.inj hreply.symm
  have hrow : DbLogin.newRow username password ∈ T.rows := of_decide_eq_true htrue
  exact ⟨_, hT', hrow⟩

/-- What a login is answered. -/
theorem Node.call_attempt {T : Table Login} (hup : n.server .dbLogin ≠ .down)
    (hT : n.db.table? .dbLogin = some T) :
    (n.call .dbLogin (.request (.attemptLogin username password)) now).1 =
      some (.bool (decide (DbLogin.newRow username password ∈ T.rows))) :=
  congrArg Prod.fst (call_apply hup hT (.attemptLogin username password) now)

/-- A registration that is not accepted changes no account. -/
theorem Node.call_create_refused
    (h : (n.call .dbLogin (.request (.createAccount username password)) now).1 ≠ some .ok) :
    (n.call .dbLogin (.request (.createAccount username password)) now).2.db.table? .dbLogin =
      n.db.table? .dbLogin := by
  rcases call_cases .dbLogin (.request (.createAccount username password)) now n with
    ⟨-, hcall⟩ | ⟨link, -, hc, -⟩ | ⟨link, r, T, -, hc, hT, hcall⟩ | ⟨link, r, -, hc, -, hcall⟩
  · rw [hcall]
  · cases hc
  · cases hc
    rw [hcall] at h ⊢
    by_cases hk : username ∈ T.keys
    · have hans : DbLogin.answer (.createAccount username password) now T =
          (.alreadyInserted, T) := DbLogin.answer_create_taken hk
      have hkept : (Store.dbLogin.answer (.createAccount username password) now T).2 = T :=
        congrArg Prod.snd hans
      rw [hkept, Db.setTable_self hT]
    · have hans : DbLogin.answer (.createAccount username password) now T =
          (.ok, T.write (DbLogin.newRow username password)) := DbLogin.answer_create_new hk
      exact absurd (congrArg (fun ans => some ans.1) hans) h
  · cases hc
    rw [hcall]
    split
    · rfl
    · rw [crashServer_db]

/-- A registration under a taken name is not accepted, and changes no account. -/
theorem Node.call_create_taken {T : Table Login} (hT : n.db.table? .dbLogin = some T)
    (hk : username ∈ T.keys) :
    (n.call .dbLogin (.request (.createAccount username password)) now).1 ≠ some .ok ∧
      (n.call .dbLogin (.request (.createAccount username password)) now).2.db.table?
        .dbLogin = some T := by
  have hne : (n.call .dbLogin (.request (.createAccount username password)) now).1 ≠
      some .ok := by
    intro h
    obtain ⟨T', hT', hreply, -⟩ := call_answered rfl h
    obtain rfl : T = T' := Option.some.inj (hT.symm.trans hT')
    have hans : DbLogin.answer (.createAccount username password) now T =
        (.alreadyInserted, T) := DbLogin.answer_create_taken hk
    cases hreply.trans (congrArg Prod.fst hans)
  exact ⟨hne, (call_create_refused hne).trans hT⟩

end Calls

theorem authentication_safe_create {c : Ctx} {q : Params} {σ : Past}
    {post : Response → Past → Prop} (h : Submitted σ.1 c.session (q "username") (q "password"))
    (hpost : ∀ r σ', HasAccount σ' (q "username") (q "password") → post r σ') :
    (Job.post .createAccount .save q).code.Safe authentication.discipline c post σ := by
  rw [CreateAccount.save_code]
  intro σ' hle hinv _
  refine ⟨trivial, fun now => ?_⟩
  obtain ⟨hinv', hle'⟩ := authentication_keeps_op (c := c)
    (o := .call .dbLogin (.createAccount (q "username") (q "password"))) nofun
    (fun r hr => by cases hr; rfl) hinv now
  refine ⟨hinv', hle', ?_⟩
  generalize hreply : (authentication.discipline.exec c
    (.call .dbLogin (.createAccount (q "username") (q "password"))) now σ').1 = reply
  unfold afterCreate
  split
  · obtain ⟨T, hT, hrow⟩ := Node.call_create_ok hreply
    refine authentication_safe_setUser
      ⟨T, q "password", hT, hrow, h.mono (hle.1.trans hle'.1)⟩ fun σ'' hle'' => ?_
    exact hpost _ σ'' (HasAccount.mono ⟨T, hT, hrow⟩ hle'')
  · trivial

theorem authentication_safe_login {c : Ctx} {q : Params} {σ : Past}
    (h : Submitted σ.1 c.session (q "username") (q "password")) :
    (Job.post .login .login q).code.Safe authentication.discipline c
      (authentication.post c) σ := by
  rw [Login.login_code]
  intro σ' hle hinv _
  refine ⟨trivial, fun now => ?_⟩
  obtain ⟨hinv', hle'⟩ := authentication_keeps_op (c := c)
    (o := .call .dbLogin (.attemptLogin (q "username") (q "password"))) nofun
    (fun r hr => by cases hr; rfl) hinv now
  refine ⟨hinv', hle', ?_⟩
  generalize hreply : (authentication.discipline.exec c
    (.call .dbLogin (.attemptLogin (q "username") (q "password"))) now σ').1 = reply
  unfold afterAttempt
  split
  · obtain ⟨T, hT, hrow⟩ := Node.call_attempt_true hreply
    exact authentication_safe_setUser
      ⟨T, q "password", hT, hrow, h.mono (hle.1.trans hle'.1)⟩ fun _ _ => trivial
  · exact fun _ _ _ => trivial
  · trivial

/-- Every request keeps the contract: two of them set a user, and none removes an account. -/
theorem authentication_safe {p : Pid} {s : Session} {job : Job} {tr : List Label} {w w' : Site} :
    job.code.Safe authentication.discipline (w.ctx p s job) (authentication.post (w.ctx p s job))
      (tr ++ [.request p s job], w') := by
  by_cases hcreate : ∃ q, job = .post .createAccount .save q
  · obtain ⟨q, rfl⟩ := hcreate
    exact authentication_safe_create ⟨p, _, _, q, by simp, rfl, rfl, .inl rfl⟩ fun _ _ _ => trivial
  by_cases hlogin : ∃ q, job = .post .login .login q
  · obtain ⟨q, rfl⟩ := hlogin
    exact authentication_safe_login ⟨p, _, _, q, by simp, rfl, rfl, .inr rfl⟩
  refine job.code_uses.safe (fun o ho σ hinv _ => ⟨trivial, fun now => ?_⟩)
    (fun _ _ _ => trivial) _
  refine authentication_keeps_op ?_ ?_ hinv now
  · rintro u rfl
    obtain ⟨q, -, hjob | hjob⟩ := Job.mayUse_setUser ho
    · exact hcreate ⟨q, hjob⟩
    · exact hlogin ⟨q, hjob⟩
  · rintro r rfl
    cases hkey : Store.dbLogin.removedKey? r with
    | none => rfl
    | some key => exact absurd (Job.mayUse_remove ho hkey).1 nofun

theorem authentication_sound : authentication.Sound where
  request {tr w p s job} hinv _ := by
    have hle : AccountsKept (tr, w) (tr ++ [.request p s job], w.enter p) :=
      ⟨List.prefix_append _ _, .of_eq rfl⟩
    exact ⟨⟨hinv.mono hle fun _ => .inl rfl, hle⟩, authentication_safe⟩
  respond {tr w c r} hinv _ _ := by
    have hle : AccountsKept (tr, w) (tr ++ [.respond c.pid], w.deliver c r) :=
      ⟨List.prefix_append _ _, .of_eq rfl⟩
    exact ⟨hinv.mono hle fun _ => .inl rfl, hle⟩
  close {tr w p normal} hinv _ := by
    have hle : AccountsKept (tr, w) (tr ++ [.close p normal], w.exit p normal) :=
      ⟨List.prefix_append _ _, .of_eq rfl⟩
    exact ⟨hinv.mono hle fun _ => .inl rfl, hle⟩
  stop _ h := h.elim

theorem authentication_meets {ls : List Label} (hstop : ∀ S now, .stop S now ∉ ls) (w : World) :
    Always World.step authentication.condition.Meets w ls := by
  refine always_of_forall (fun l hl w => ?_) _
  cases l with
  | stop S now => exact absurd hl (hstop S now)
  | step p now => exact fun _ _ _ _ => trivial
  | respond p => exact fun _ _ _ => trivial
  | _ => trivial

theorem authenticated {ls : List Label} {w : World} (hrun : run World.step .init ls = some w)
    (hstop : ∀ S now, .stop S now ∉ ls) : Authenticated (ls, w.site) := by
  have hinit : Authenticated ([], .init) := fun s hs => absurd rfl hs
  exact ((Contract.Holds.init hinit).run authentication_sound hrun
    (authentication_meets hstop .init)).1.inv

/-- In every run in which nobody stops a store, each session with a user has submitted that name
with the password stored for it; and a registration under a taken name ends there. -/
theorem sessions_authenticated {ls : List Label} {w : World}
    (hrun : run World.step .init ls = some w) (hstop : ∀ S now, .stop S now ∉ ls) :
    Authenticated (ls, w.site) ∧
      ∀ p now w' c q username password next T, w.step (.step p now) = some w' →
        w.task p = some (c, .perform (.call .dbLogin (.createAccount username password)) next) →
        c.job = .post .createAccount .save q →
        w.site.node.db.table? .dbLogin = some T → username ∈ T.keys →
        w'.site.node.db.table? .dbLogin = some T ∧ w'.site.user = w.site.user ∧
          w'.task p = some (c, .crash) := by
  refine ⟨authenticated hrun hstop, ?_⟩
  intro p now w' c q username password next T hstep htask hjob hT hk
  have hres := World.residual hrun htask
  rw [hjob] at hres
  have hcode := CreateAccount.residual_call hres
  rw [CreateAccount.save_code] at hcode
  cases hcode
  have htaken : (w.site.node.call .dbLogin
      (.request (.createAccount (q "username") (q "password"))) now).1 ≠ some .ok ∧
      (w.site.node.call .dbLogin
        (.request (.createAccount (q "username") (q "password"))) now).2.db.table?
        .dbLogin = some T := Node.call_create_taken hT hk
  obtain ⟨hne, hkept⟩ := htaken
  obtain rfl := World.step_operation htask hstep
  have hcrash := afterCreate_crash (q "username") hne
  refine ⟨hkept, rfl, ?_⟩
  show Function.update w.task p _ p = some (c, .crash)
  rw [Function.update_self]
  exact congrArg (fun g => some (c, g)) hcrash

end Model

/-! The home page is loaded, and Bob registers. -/

def loadHome : List Label :=
  [.request 0 0 (.load .index), .step 0 .noon, .step 0 .noon, .step 0 .noon, .step 0 .noon,
    .step 0 .noon, .step 0 .noon, .respond 0]

def bobForm : Params := fun field =>
  if field = "username" then .str "bob" else if field = "password" then .str "secret"
  else .undefined

def bobRegisters : List Label :=
  [.request 1 1 (.post .createAccount .save bobForm), .step 1 .noon, .step 1 .noon, .respond 1]

theorem bob_authenticated :
    let _ := Crypto.sample
    let _ := Ets.asKept
    ∃ w, run World.step .init (loadHome ++ bobRegisters) = some w ∧
      w.site.user 1 = .str "bob" ∧ Authenticated (loadHome ++ bobRegisters, w.site) := by
  intro _ _
  have hstop : ∀ S now, Label.stop S now ∉ loadHome ++ bobRegisters := by
    intro S now h
    simp [loadHome, bobRegisters] at h
  exact ⟨_, rfl, rfl, (sessions_authenticated rfl hstop).1⟩

end WebServerl
