import WebServerl.Site.Alone
import WebServerl.Site.Authentication

/-! Which password an account gets.  `create_account:event/1` asks for a password and for its
confirmation, and reads only the first; that one is stored, and stays the only one with which the
account can be used. -/

namespace WebServerl

open Erlang Erlang.Mnesia Machine

section Model

variable [Crypto]

/-- The contract of the sessions, with what a registration that comes to its end has done. -/
def registration : Contract :=
  { authentication with
    post := fun c _ σ => ∀ q, c.job = .post .createAccount .save q →
      HasAccount σ (q "username") (q "password") }

variable [Ets]

theorem registration_safe {p : Pid} {s : Session} {job : Job} {tr : List Label} {w w' : Site} :
    job.code.Safe registration.discipline (w.ctx p s job) (registration.post (w.ctx p s job))
      (tr ++ [.request p s job], w') := by
  by_cases hcreate : ∃ q, job = .post .createAccount .save q
  · obtain ⟨q, rfl⟩ := hcreate
    refine authentication_safe_create ⟨p, _, _, q, by simp, rfl, rfl, .inl rfl⟩ ?_
    rintro r σ' haccount q' ⟨⟩
    exact haccount
  · refine (authentication_safe (p := p) (s := s)).mono_post fun r σ _ q hjob => ?_
    exact absurd ⟨q, hjob⟩ hcreate

theorem registration_sound : registration.Sound where
  request hinv hC := ⟨(authentication_sound.request hinv hC).1, registration_safe⟩
  respond hinv _ hC := authentication_sound.respond hinv trivial hC
  close hinv hC := authentication_sound.close hinv hC
  stop hinv hC := authentication_sound.stop hinv hC

variable {ls : List Label} {w : World}

theorem registration_holds (hrun : run World.step .init ls = some w)
    (hstop : ∀ S now, .stop S now ∉ ls) : registration.Holds ls w := by
  have hinit : Authenticated ([], .init) := fun s hs => absurd rfl hs
  exact ((Contract.Holds.init hinit).run registration_sound hrun
    (authentication_meets hstop .init)).1

/-- A registration has come to its end: its session is logged in, and waits for the response. -/
def RegistrationDone (w : World) (q : Params) : Prop :=
  ∃ p c r, w.site.node.live p = true ∧ w.task p = some (c, .done r) ∧
    c.job = .post .createAccount .save q

/-- Whatever happens from now on, of the passwords in `used` exactly this one is accepted for the
name. -/
def AcceptsOnly (used : Set Term) (w : World) (username password : Term) : Prop :=
  ∀ ls w' now, run World.step w ls = some w' → (∀ S now, .stop S now ∉ ls) →
    w'.site.node.server .dbLogin ≠ .down → ∀ password' ∈ used,
    (w'.site.node.call .dbLogin (.request (.attemptLogin username password')) now).1 =
      some (.bool (decide (password' = password)))

/-- The account has the password in the field `password`. -/
theorem registered_acceptsOnly {used : Set Term} (hinj : Set.InjOn Crypto.hash used)
    (hrun : run World.step .init ls = some w) (hstop : ∀ S now, .stop S now ∉ ls) {q : Params}
    (hdone : RegistrationDone w q) (hpass : q "password" ∈ used) :
    AcceptsOnly used w (q "username") (q "password") := by
  intro ls' w' now hrun' hstop' hup password' hpass'
  obtain ⟨p, c, r, hlive, htask, hjob⟩ := hdone
  have hholds := registration_holds hrun hstop
  have haccount : HasAccount (ls, w.site) (q "username") (q "password") :=
    hholds.post_of_done hlive htask q hjob
  obtain ⟨-, hle⟩ := hholds.run registration_sound hrun' (authentication_meets hstop' w)
  obtain ⟨T, hT, hrow⟩ := haccount.mono hle
  rw [Node.call_attempt hup hT]
  have hiff : DbLogin.newRow (q "username") password' ∈ T.rows ↔ password' = q "password" := by
    refine (DbLogin.mem_newRow_iff hrow).trans ?_
    exact hinj.eq_iff hpass' hpass
  rw [decide_eq_decide.mpr hiff]

/-- Only one password can be accepted from now on. -/
theorem AcceptsOnly.unique {used : Set Term} (hrun : run World.step .init ls = some w)
    (hstop : ∀ S now, .stop S now ∉ ls) {username password password' : Term}
    (hpass : password ∈ used) (h : AcceptsOnly used w username password)
    (h' : AcceptsOnly used w username password') : password = password' := by
  -- `db_login` may be down, but the next load of the home page starts it
  obtain ⟨ls', w', hrun', hstop', hup⟩ := World.recovers hrun hstop
  have hreply := h ls' w' .noon hrun' hstop' (hup .dbLogin) password hpass
  have hreply' := h' ls' w' .noon hrun' hstop' (hup .dbLogin) password hpass
  have heq := Reply.bool.inj (Option.some.inj (hreply.symm.trans hreply'))
  exact (decide_eq_decide.mp heq).mp rfl

/-- A registration that fails changes neither the accounts nor any user. -/
theorem registration_failed (hrun : run World.step .init ls = some w) {p : Pid} {now : DateTime}
    {w' : World} (hstep : w.step (.step p now) = some w') {c : Ctx} {o : Op}
    {next : o.Res → Code Response} (htask : w.task p = some (c, .perform o next)) {q : Params}
    (hjob : c.job = .post .createAccount .save q) (hcrash : w'.task p = some (c, .crash)) :
    w'.site.node.db.table? .dbLogin = w.site.node.db.table? .dbLogin ∧
      w'.site.user = w.site.user := by
  have hres := World.residual hrun htask
  rw [hjob, CreateAccount.save_code] at hres
  obtain rfl := World.step_operation htask hstep
  have hnext : next (w.site.exec c o now).1 = .crash := by
    simpa only [Function.update_self, Option.some.injEq, Prod.mk.injEq, true_and] using hcrash
  rcases hres.of_perform with heq | ⟨reply, hrest⟩
  · cases heq
    refine ⟨Node.call_create_refused fun hok => ?_, rfl⟩
    have hreply : (w.site.exec c (.call .dbLogin
        (.createAccount (q "username") (q "password"))) now).1 = some .ok := hok
    rw [hreply] at hnext
    cases hnext
  · -- after the answer `ok`, nothing can fail any more
    unfold afterCreate at hrest
    split at hrest
    · rcases hrest.of_perform with heq | ⟨-, hlast⟩
      · cases heq
        cases hnext
      · cases hlast.of_done
    · cases hrest.of_crash

/-- In every run in which nobody stops a store, the confirmation is the one password that a new
account accepts from then on exactly if it is the password; and a registration of which the code
crashes changes neither the accounts nor any user.  One whose call times out, or whose process is
killed, is left out: it may leave its account behind. -/
theorem registration_confirmed_iff {used : Set Term} (hinj : Set.InjOn Crypto.hash used)
    (hrun : run World.step .init ls = some w) (hstop : ∀ S now, .stop S now ∉ ls) :
    (∀ q, RegistrationDone w q → q "password" ∈ used →
      (AcceptsOnly used w (q "username") (q "password2") ↔ q "password" = q "password2")) ∧
    ∀ p now w' c o next q, w.step (.step p now) = some w' →
      w.task p = some (c, .perform o next) → c.job = .post .createAccount .save q →
      w'.task p = some (c, .crash) →
      w'.site.node.db.table? .dbLogin = w.site.node.db.table? .dbLogin ∧
        w'.site.user = w.site.user := by
  constructor
  · intro q hdone hpass
    have haccepts := registered_acceptsOnly hinj hrun hstop hdone hpass
    constructor
    · exact fun hconfirm => haccepts.unique hrun hstop hpass hconfirm
    · intro heq
      rwa [← heq]
  · intro p now w' c o next q hstep htask hjob hcrash
    exact registration_failed hrun hstep htask hjob hcrash

end Model

/-! Bob registers with the password "secret", once with the same confirmation and once with
another. -/

def registerForm (password password2 : String) : Params := fun field =>
  if field = "username" then .str "bob" else if field = "password" then .str password
  else if field = "password2" then .str password2 else .undefined

def registers (password password2 : String) : List Label :=
  [.request 1 1 (.post .createAccount .save (registerForm password password2)), .step 1 .noon,
    .step 1 .noon]

theorem registers_running (password password2 : String) :
    ∀ S now, Label.stop S now ∉ loadHome ++ registers password password2 := by
  simp [loadHome, registers]

/-- The passwords of which the digests are known. -/
def knownPasswords : Set Term := {password | password ∈ digests.map Prod.fst}

attribute [local instance] Crypto.sample Ets.asKept

theorem registration_confirmed_bob :
    ∃ w ∈ run World.step .init (loadHome ++ registers "secret" "secret"),
      AcceptsOnly knownPasswords w (.str "bob") (.str "secret") := by
  have hdone : ∃ w, run World.step .init (loadHome ++ registers "secret" "secret") = some w ∧
      RegistrationDone w (registerForm "secret" "secret") :=
    ⟨_, rfl, 1, _, _, rfl, rfl, rfl⟩
  obtain ⟨w, hw, hdone⟩ := hdone
  have hpass : registerForm "secret" "secret" "password" ∈ knownPasswords := by
    show _ ∈ digests.map Prod.fst
    decide
  obtain ⟨hconfirm, -⟩ :=
    registration_confirmed_iff Crypto.sample_injOn hw (registers_running "secret" "secret")
  exact ⟨w, hw, (hconfirm _ hdone hpass).mpr rfl⟩

theorem confirmation_refused :
    ¬ ∀ ls w, run World.step .init ls = some w → (∀ S now, .stop S now ∉ ls) →
      ∀ q, RegistrationDone w q → q "password" ∈ knownPasswords →
        q "password2" ∈ knownPasswords →
        AcceptsOnly knownPasswords w (q "username") (q "password2") := by
  intro h
  have hrefused : ∃ w, run World.step .init (loadHome ++ registers "secret" "admin") = some w ∧
      RegistrationDone w (registerForm "secret" "admin") ∧
      w.site.node.server .dbLogin ≠ .down ∧
      (w.site.node.call .dbLogin
        (.request (.attemptLogin (.str "bob") (.str "admin"))) .noon).1 = some (.bool false) :=
    ⟨_, rfl, ⟨1, _, _, rfl, rfl, rfl⟩, by decide, rfl⟩
  obtain ⟨w, hw, hdone, hup, hreply⟩ := hrefused
  have hknown : ∀ field ∈ ["password", "password2"],
      registerForm "secret" "admin" field ∈ digests.map Prod.fst := by decide
  have hadmin := h _ w hw (registers_running "secret" "admin") _ hdone
    (hknown "password" (by simp)) (hknown "password2" (by simp)) [] w .noon rfl (by simp) hup
    (.str "admin") (hknown "password2" (by simp))
  have htrue := hreply.symm.trans hadmin
  exact absurd htrue (by decide)

end WebServerl
