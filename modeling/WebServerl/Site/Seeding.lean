import WebServerl.Site.Authentication
import WebServerl.Site.Lifetime

/-! The admin's account.  `index:body/0` starts `db_login` and then creates the account, in two
steps; a visitor who registers as "admin" between them has the account.  Where nobody does, the
account of every state is the one with the password "admin". -/

namespace WebServerl

open Erlang Erlang.Mnesia Machine

section Model

variable [Crypto]

/-- The account that `index:body/0` creates. -/
def adminRow : Login := DbLogin.newRow (.str "admin") (.str "admin")

/-- An account of the name "admin" is that one, and every server that is up has its table. -/
structure AdminOnly (σ : Past) : Prop where
  ready : σ.2.node.Ready
  row : ∀ T, σ.2.node.db.table? .dbLogin = some T → ∀ row ∈ T, row.username = .str "admin" →
    row = adminRow

/-- `db_login` is up, or some process has ended with an error. -/
def UpOrFailed (σ : Past) : Prop :=
  σ.2.node.server .dbLogin ≠ .down ∨ ∃ p, .close p false ∈ σ.1

structure AccountStays (σ σ' : Past) : Prop where
  rows : KeepsRows .dbLogin σ.2.node σ'.2.node
  up : UpOrFailed σ → UpOrFailed σ'

/-- The admin's account has been created. -/
structure Seeded (σ : Past) : Prop where
  row : ∃ T, σ.2.node.db.table? .dbLogin = some T ∧ adminRow ∈ T
  up : UpOrFailed σ

theorem Seeded.mono {σ σ' : Past} (h : Seeded σ) (hle : AccountStays σ σ') : Seeded σ' := by
  obtain ⟨T, hT, hrow⟩ := h.row
  obtain ⟨T', hT', hrows⟩ := hle.rows T hT
  exact ⟨⟨T', hT', hrows _ hrow⟩, hle.up h.up⟩

end Model

/-- A registration as "admin" with another password. -/
def Op.claimsAdmin : Op → Bool
  | .call .dbLogin (.createAccount username password) =>
    username = .str "admin" ∧ password ≠ .str "admin"
  | _ => false

/-- No registration as "admin" with another password is handled while there is no such account. -/
def seededFirst : Condition where
  operation _ o w := o.claimsAdmin → w.node.server .dbLogin ≠ .down →
    ∀ T ∈ w.node.db.table? .dbLogin, .str "admin" ∈ T.keys
  stop _ _ := False

instance : seededFirst.Checkable where
  request _ _ _ _ := .isTrue trivial
  operation _ _ w := inferInstanceAs (Decidable (_ → _ → ∀ T ∈ w.node.db.table? .dbLogin, _))
  respond _ _ _ := .isTrue trivial
  close _ _ _ := .isTrue trivial
  stop _ _ := .isFalse id

def seeding [Crypto] : Contract where
  condition := seededFirst
  inv := AdminOnly
  le := AccountStays
  allowed _ _ _ := True
  post c _ σ := c.job = .load .index → Seeded σ
  le_refl _ := ⟨.refl _ _, id⟩
  le_trans h h' := ⟨h.rows.trans h'.rows, h'.up ∘ h.up⟩

section Model

variable [Crypto] [Ets]

omit [Ets] in
/-- What an accepted registration adds to the accounts. -/
theorem adminOnly_answer {T : Table Login} {r : DbLogin.Request} {now : DateTime}
    (hT : ∀ row ∈ T, row.username = .str "admin" → row = adminRow)
    (hr : Op.claimsAdmin (.call .dbLogin r) → .str "admin" ∈ T.keys) {row : Login}
    (hrow : row ∈ (DbLogin.answer r now T).2) (hname : row.username = .str "admin") :
    row = adminRow := by
  cases r with
  | createAccount username password =>
    rcases mem_insertRow.mp hrow with hold | ⟨hk, rfl⟩
    · exact hT row hold hname
    · obtain rfl : username = .str "admin" := hname
      by_cases hpass : password = .str "admin"
      · rw [hpass]
        rfl
      · exact absurd (hr (by simp [Op.claimsAdmin, hpass])) hk
  | remove key => exact hT row (KeyedTable.mem_erase.mp hrow).1 hname
  | attemptLogin username password => exact hT row hrow hname

theorem seeding_keeps_op {c : Ctx} {o : Op} (ho : c.job.MayUse o) {σ : Past}
    (hinv : AdminOnly σ) (hC : seededFirst.operation c o σ.2) (now : DateTime) :
    seeding.Keeps σ (seeding.discipline.exec c o now σ).2 := by
  have hready : (σ.2.exec c o now).2.node.Ready := Site.exec_ready hinv.ready c o now
  refine ⟨⟨hready, fun T' hT' row hrow hname => ?_⟩, ?_, ?_⟩
  · cases hT : σ.2.node.db.table? .dbLogin with
    | none =>
      obtain rfl : T' = KeyedTable.empty _ := Site.exec_new_table c o now hT hT'
      exact absurd hrow (KeyedTable.not_mem_empty row)
    | some T =>
      rcases Site.exec_table c o now hT with hsame | ⟨r, rfl, hup, hans⟩
      · obtain rfl : T = T' := Option.some.inj (hsame.symm.trans hT')
        exact hinv.row T hT row hrow hname
      · obtain rfl : (Store.dbLogin.answer r now T).2 = T' := Option.some.inj (hans.symm.trans hT')
        exact adminOnly_answer (hinv.row T hT) (fun hclaims => hC hclaims hup T hT) hrow hname
  · refine Site.exec_keepsRows (fun r hr => ?_) c now σ.2
    subst hr
    cases hkey : Store.dbLogin.removedKey? r with
    | none => rfl
    | some key => exact absurd (Job.mayUse_remove ho hkey).1 nofun
  · rintro (hup | ⟨p, hp⟩)
    · refine .inl (Site.exec_up (c := c) (fun S _ hS => ?_) now hup)
      obtain ⟨T, hT⟩ := hinv.ready S hS
      rw [hT]
      rfl
    · exact .inr ⟨p, List.mem_append_left _ hp⟩

theorem seeding_safe_of_uses {α : Type} {c : Ctx} {g : Code α} {post : α → Past → Prop}
    (hg : g.Uses c.job.MayUse) (hpost : ∀ a σ, post a σ) (σ : Past) :
    g.Safe seeding.discipline c post σ :=
  hg.safe (fun _ ho _ hinv hC => ⟨trivial, seeding_keeps_op ho hinv hC⟩) (fun a σ _ => hpost a σ) σ

section Index

variable {c : Ctx}

theorem seeding_safe_start (hjob : c.job = .load .index) (σ : Past) :
    (start .dbLogin).Safe seeding.discipline c (fun _ σ => UpOrFailed σ) σ := by
  intro σ' _ hinv hC
  have ho : c.job.MayUse (.start .dbLogin) := by
    rw [hjob]
    exact .inr (.inl ⟨_, rfl⟩)
  refine ⟨trivial, fun now => ?_⟩
  obtain ⟨hinv', hle⟩ := seeding_keeps_op ho hinv hC now
  exact ⟨hinv', hle, fun σ'' hle' _ =>
    hle'.up (.inl (Node.start_self_up σ'.2.node .dbLogin (some c.pid)))⟩

/-- The reply of the call is ignored: whether it is `ok` or `already_inserted`, the account is
there. -/
theorem seeding_safe_call (hjob : c.job = .load .index) (σ : Past) :
    (call .dbLogin adminAccount).Safe seeding.discipline c
      (fun _ σ => ∃ T, σ.2.node.db.table? .dbLogin = some T ∧ adminRow ∈ T) σ := by
  intro σ' _ hinv hC
  have ho : c.job.MayUse (.call .dbLogin adminAccount) := by
    rw [hjob]
    exact .inr (.inr rfl)
  refine ⟨trivial, fun now => ?_⟩
  obtain ⟨hinv', hle⟩ := seeding_keeps_op ho hinv hC now
  refine ⟨hinv', hle, ?_⟩
  generalize hreply :
    (seeding.discipline.exec c (.call .dbLogin adminAccount) now σ').1 = reply
  cases reply with
  | none => trivial
  | some reply =>
    intro σ'' hle' _
    obtain ⟨T, -, -, hT'⟩ := Node.call_answered (S := .dbLogin) (r := adminAccount) rfl hreply
    obtain ⟨row, hrow, hkey⟩ := KeyedTable.mem_keys.mp
      (DbLogin.mem_keys_create (.str "admin") (.str "admin") now T)
    have hadmin : row = adminRow := hinv'.row _ hT' row hrow hkey
    obtain ⟨T'', hT'', hrows⟩ := hle'.rows _ hT'
    exact ⟨T'', hT'', hrows _ (hadmin ▸ hrow)⟩

theorem seeding_safe_index (hjob : c.job = .load .index) (σ : Past) :
    Index.main.Safe seeding.discipline c (fun _ σ => Seeded σ) σ := by
  have hmay : ∀ S, c.job.MayUse (.start S) := by
    intro S
    rw [hjob]
    exact .inr (.inl ⟨S, rfl⟩)
  have huser : c.job.MayUse .user := by
    rw [hjob]
    exact .inl rfl
  have hstart (S : Store) (σ : Past) :
      (start S).Safe seeding.discipline c (fun _ _ => True) σ :=
    seeding_safe_of_uses (uses_start (hmay S)) (fun _ _ => trivial) σ
  have hadmin : adminPlace.Safe seeding.discipline c (fun _ _ => True) σ :=
    seeding_safe_of_uses (uses_adminPlace huser) (fun _ _ => trivial) σ
  have hbody (σ : Past) : Index.body.Safe seeding.discipline c (fun _ σ => Seeded σ) σ := by
    refine (hstart .visitorsDb σ).bind fun _ σ₁ _ _ _ => ?_
    refine (seeding_safe_start hjob σ₁).bind fun _ σ₂ _ _ hup => ?_
    refine (seeding_safe_call hjob σ₂).bind fun _ σ₃ hle₃ _ hrow => ?_
    have hseeded : Seeded σ₃ := ⟨hrow, hle₃.up hup⟩
    refine (hstart .dbMessage σ₃).bind fun _ σ₄ hle₄ _ _ => ?_
    refine (hstart .dbComment σ₄).bind fun _ σ₅ hle₅ _ _ => ?_
    exact fun σ₆ hle₆ _ => ((hseeded.mono hle₄).mono hle₅).mono hle₆
  refine hadmin.bind fun admin σ₁ _ _ _ => (hbody σ₁).bind fun b σ₂ _ _ h => ?_
  exact fun σ₃ hle₃ _ => h.mono hle₃

end Index

theorem seeding_safe {c : Ctx} (σ : Past) :
    c.job.code.Safe seeding.discipline c (seeding.post c) σ := by
  by_cases hjob : c.job = .load .index
  · rw [Job.code_index hjob]
    have hpost : ∀ r σ, Seeded σ → seeding.post c r σ := fun _ _ h _ => h
    exact (seeding_safe_index hjob σ).mono_post hpost
  · exact seeding_safe_of_uses c.job.code_uses (fun _ _ h => absurd h hjob) σ

theorem seeding_sound : seeding.Sound where
  request {tr w p s job} hinv _ :=
    ⟨⟨⟨hinv.ready, hinv.row⟩, ⟨.of_eq rfl, Or.imp_right fun ⟨q, hq⟩ =>
      ⟨q, List.mem_append_left _ hq⟩⟩⟩, seeding_safe (c := w.ctx p s job) _⟩
  respond {tr w c r} hinv _ _ :=
    ⟨⟨hinv.ready, hinv.row⟩, ⟨.of_eq rfl, Or.imp_right fun ⟨q, hq⟩ =>
      ⟨q, List.mem_append_left _ hq⟩⟩⟩
  close {tr w p normal} hinv _ := by
    refine ⟨⟨Node.Ready.exit hinv.ready p normal, hinv.row⟩, .of_eq rfl, ?_⟩
    rintro (hup | ⟨q, hq⟩)
    · cases normal with
      | true => exact .inl (Node.exit_up nofun hup)
      | false => exact .inr ⟨p, by simp⟩
    · exact .inr ⟨q, List.mem_append_left _ hq⟩
  stop _ h := h.elim

theorem seeding_holds {ls : List Label} {w : World} (hrun : run World.step .init ls = some w)
    (hC : Always World.step seededFirst.Meets .init ls) : seeding.Holds ls w := by
  have hinit : AdminOnly ([], .init) := ⟨.init, fun T hT => by cases hT⟩
  exact ((Contract.Holds.init hinit).run seeding_sound hrun hC).1

/-- Once the home page has been loaded, the account stays. -/
theorem seeded_of_homeLoaded {before after : List Label} {w₀ w : World} {p : Pid}
    (hbefore : run World.step .init before = some w₀) (hdone : HomeLoaded w₀ p)
    (hafter : run World.step w₀ after = some w)
    (hC : Always World.step seededFirst.Meets .init (before ++ after)) :
    Seeded (before ++ after, w.site) := by
  obtain ⟨hC₁, hC₂⟩ := always_append.mp hC
  have hholds := seeding_holds hbefore hC₁
  obtain ⟨hlive, c, r, htask, hjob⟩ := hdone
  have hseeded : Seeded (before, w₀.site) := hholds.post_of_done hlive htask hjob
  exact hseeded.mono (hholds.run seeding_sound hafter (hC₂ w₀ hbefore)).2

section Passwords

variable {used : Set Term} (hinj : Set.InjOn Crypto.hash used) (hadmin : .str "admin" ∈ used)

include hinj hadmin

omit [Ets] in
/-- Of the passwords used, only "admin" is that of the account. -/
theorem password_of_adminRow {password : Term} (hpass : password ∈ used)
    (hrow : DbLogin.newRow (.str "admin") password = adminRow) : password = .str "admin" :=
  hinj hpass hadmin (congrArg Login.password hrow)

theorem attempt_admin_iff {σ : Past} (hinv : AdminOnly σ) (hseeded : Seeded σ) {password : Term}
    (hpass : password ∈ used) (hup : σ.2.node.server .dbLogin ≠ .down) (now : DateTime) :
    (σ.2.node.call .dbLogin (.request (.attemptLogin (.str "admin") password)) now).1 =
      some (.bool true) ↔ password = .str "admin" := by
  obtain ⟨T, hT, hrow⟩ := hseeded.row
  rw [Node.call_attempt hup hT, Option.some.injEq, Reply.bool.injEq, decide_eq_true_eq]
  constructor
  · intro hmem
    exact password_of_adminRow hinj hadmin hpass (hinv.row T hT _ hmem rfl)
  · rintro rfl
    exact hrow

/-- In every run in which nobody registers as "admin" with another password before the account
exists, every session of the admin has submitted the password "admin"; and once the home page has
been loaded, that is the only password of the account. -/
theorem admin_not_claimed {ls : List Label} {w : World}
    (hrun : run World.step .init ls = some w)
    (hC : Always World.step seededFirst.Meets .init ls)
    (hused : ∀ s username password, Submitted ls s username password → password ∈ used) :
    (∀ s, w.site.user s = .str "admin" → Submitted ls s (.str "admin") (.str "admin")) ∧
      ∀ before w₀ p, before <+: ls → run World.step .init before = some w₀ → HomeLoaded w₀ p →
        (w.site.node.server .dbLogin ≠ .down ∨ ∃ p, .close p false ∈ ls) ∧
        ∀ password ∈ used, ∀ now, w.site.node.server .dbLogin ≠ .down →
          ((w.site.node.call .dbLogin
              (.request (.attemptLogin (.str "admin") password)) now).1 =
            some (.bool true) ↔ password = .str "admin") := by
  have hinv : AdminOnly (ls, w.site) := (seeding_holds hrun hC).inv
  have hstop : ∀ S now, .stop S now ∉ ls := by
    intro S now hmem
    obtain ⟨w₁, hmeets⟩ := hC.exists_of_mem hrun hmem
    exact hmeets
  constructor
  · intro s hs
    have hproven := authenticated hrun hstop s (by rw [hs]; decide)
    rw [hs] at hproven
    obtain ⟨T, password, hT, hrow, hsub⟩ := hproven
    have hpass := password_of_adminRow hinj hadmin (hused _ _ _ hsub) (hinv.row T hT _ hrow rfl)
    rwa [hpass] at hsub
  · rintro before w₀ p ⟨after, rfl⟩ hbefore hdone
    rw [run_append, hbefore, Option.bind_some] at hrun
    have hseeded := seeded_of_homeLoaded hbefore hdone hrun hC
    exact ⟨hseeded.up, fun password hpass now hup =>
      attempt_admin_iff hinj hadmin hinv hseeded hpass hup now⟩

end Passwords

end Model

/-! Bob registers after the home page has been loaded; somebody else registers as "admin" while it
is being loaded. -/

def claimForm : Params := fun field =>
  if field = "username" then .str "admin" else if field = "password" then .str "secret"
  else .undefined

/-- The other session registers between the start of `db_login` and the creation of the account. -/
def claimRun : List Label :=
  [.request 0 0 (.load .index), .step 0 .noon, .step 0 .noon, .step 0 .noon,
    .request 1 1 (.post .createAccount .save claimForm), .step 1 .noon, .step 1 .noon,
    .step 0 .noon, .step 0 .noon, .step 0 .noon]

attribute [local instance] Crypto.sample Ets.asKept

theorem admin_not_claimed_bob :
    ∃ w ∈ run World.step .init (loadHome ++ bobRegisters), w.site.user 1 = .str "bob" ∧
      (w.site.node.call .dbLogin
        (.request (.attemptLogin (.str "admin") (.str "secret"))) .noon).1 ≠ some (.bool true) := by
  have hused : ∀ s username password, Submitted (loadHome ++ bobRegisters) s username password →
      password ∈ {p | p ∈ digests.map Prod.fst} := by
    rintro s username password ⟨p, page, pb, q, hmem, -, rfl, -⟩
    simp only [loadHome, bobRegisters, List.cons_append, List.nil_append, List.mem_cons,
      reduceCtorEq, Label.request.injEq, Job.post.injEq, and_false, false_or, or_false,
      List.not_mem_nil] at hmem
    obtain ⟨-, -, -, -, rfl⟩ := hmem
    show bobForm "password" ∈ digests.map Prod.fst
    decide
  have hC : Always World.step seededFirst.Meets .init (loadHome ++ bobRegisters) := by
    decide +kernel
  have hloaded : ∃ w₀ w, run World.step .init loadHome.dropLast = some w₀ ∧ HomeLoaded w₀ 0 ∧
      run World.step .init (loadHome ++ bobRegisters) = some w ∧ w.site.user 1 = .str "bob" ∧
      w.site.node.server .dbLogin ≠ .down :=
    ⟨_, _, rfl, ⟨rfl, _, _, rfl, rfl⟩, rfl, rfl, by decide⟩
  obtain ⟨w₀, w, hbefore, hdone, hrun, hbob, hup⟩ := hloaded
  obtain ⟨-, hadmin⟩ := admin_not_claimed Crypto.sample_injOn (by decide) hrun hC hused
  obtain ⟨-, hattempt⟩ := hadmin _ w₀ 0 ⟨.respond 0 :: bobRegisters, rfl⟩ hbefore hdone
  refine ⟨w, hrun, hbob, fun htrue => ?_⟩
  have heq := (hattempt (.str "secret") (by decide) .noon hup).mp htrue
  exact absurd heq (by decide)

theorem admin_claimed :
    ∃ w ∈ run World.step .init claimRun, w.site.user 1 = .str "admin" ∧
      (∀ username, ¬ Submitted claimRun 1 username (.str "admin")) ∧ HomeLoaded w 0 ∧
      (w.site.node.call .dbLogin
        (.request (.attemptLogin (.str "admin") (.str "secret"))) .noon).1 = some (.bool true) := by
  refine ⟨_, rfl, rfl, ?_, ⟨rfl, _, _, rfl, rfl⟩, rfl⟩
  rintro username ⟨p, page, pb, q, hmem, -, hpass, -⟩
  simp only [claimRun, List.mem_cons, reduceCtorEq, Label.request.injEq, Job.post.injEq,
    and_false, false_or, or_false, List.not_mem_nil] at hmem
  obtain ⟨-, -, -, -, rfl⟩ := hmem
  exact absurd hpass (by decide)

end WebServerl
