import WebServerl.Site.Alone
import WebServerl.Site.Comments
import WebServerl.Site.Lifetime
import WebServerl.Site.Messages
import WebServerl.Site.Postbacks

/-! When every request is answered.  In an orderly run no request process crashes, whatever the
others do meanwhile, but one that registers a name that has an account; and each process that is
left alone comes to its response. -/

namespace WebServerl

open Erlang Erlang.Mnesia Machine

def Job.isHome : Job → Bool
  | .load .index => true
  | _ => false

theorem Job.eq_of_isHome {job : Job} (h : job.isHome = true) : job = .load .index := by
  unfold isHome at h
  split at h
  · rfl
  · cases h

/-- Until the home page has brought the stores up, nothing else is requested; a session only sends
postbacks that it has been shown; no process that a store is linked to ends with an error, and
nobody stops a store. -/
def orderly : Condition where
  request p s job w :=
    (job.isHome ∨ ∀ S, w.node.server S ≠ .down) ∧ browser.request p s job w
  close p normal w := normal = false → ∀ S, w.node.server S ≠ .up (some p)
  stop _ _ := False

instance : orderly.Checkable where
  request p s job w :=
    have := Condition.Checkable.request (C := browser) p s job w
    inferInstanceAs (Decidable ((_ ∨ ∀ _ : Store, _) ∧ browser.request p s job w))
  operation _ _ _ := .isTrue trivial
  respond _ _ _ := .isTrue trivial
  close _ _ _ := inferInstanceAs (Decidable (_ → ∀ _ : Store, _))
  stop _ _ := .isFalse id

/-- Each form that is saved under a name has a string for it. -/
def FormsNamed (ls : List Label) : Prop :=
  ∀ p s page q, .request p s (.post page .save q) ∈ ls → page = .guestbook ∨ page = .contact →
    (q "name").IsString

theorem FormsNamed.left {ls ls' : List Label} (h : FormsNamed (ls ++ ls')) : FormsNamed ls :=
  fun p s page q hmem => h p s page q (List.mem_append_left ls' hmem)

/-- A result with which the code of the pages can go on: a call has been answered, and the rows that
are to be shown have strings for a name and a time. -/
def Op.Answered : (o : Op) → o.Res → Prop
  | .call .dbComment .dumpComments, r =>
    ∃ rows, r = some (.rows rows) ∧ ∀ row ∈ rows, row.name.IsString ∧ row.time.IsString
  | .call .dbMessage .dumpMessages, r =>
    ∃ rows, r = some (.rows rows) ∧ ∀ row ∈ rows, row.name.IsString ∧ row.time.IsString
  | .call .dbLogin (.attemptLogin _ _), r => ∃ b, r = some (.bool b)
  | .call _ _, r => r ≠ none
  | _, _ => True

/-- A registration also needs the answer `ok`. -/
def Job.Gets : Job → (o : Op) → o.Res → Prop
  | .post .createAccount .save _, .call .dbLogin (.createAccount _ _), r => r = some .ok
  | _, o, r => o.Answered r

theorem Job.Gets.answered {job : Job} {o : Op} {r : o.Res} (h : job.Gets o r) : o.Answered r := by
  unfold Job.Gets at h
  split at h
  · rw [h]
    exact nofun
  · exact h

theorem Op.Answered.gets {job : Job} {o : Op} {r : o.Res} (h : o.Answered r)
    (hjob : ∀ q, job ≠ .post .createAccount .save q) : job.Gets o r := by
  unfold Job.Gets
  split
  · exact absurd rfl (hjob _)
  · exact h

section Survival

abbrev Code.Survives {α : Type} (g : Code α) (good : α → Prop) : Prop :=
  Program.Survives Op.Answered good g

theorem survives_call {S : Store} {r : S.Request} {good : Reply S.Row → Prop}
    (h : ∀ reply, Op.Answered (.call S r) reply → ∃ a, reply = some a ∧ good a) :
    (call S r).Survives good := by
  intro reply hreply
  obtain ⟨a, rfl, ha⟩ := h reply hreply
  exact ha

/-- A call whose answer does not matter. -/
theorem survives_ignored {α : Type} (S : Store) (r : S.Request) {f : Reply S.Row → Code α}
    (h : ∀ reply, Op.Answered (.call S r) reply → reply ≠ none)
    (hf : ∀ reply, (f reply).Survives fun _ => True) :
    (call S r >>= f).Survives fun _ => True := by
  have hcall : (call S r).Survives fun _ => True := by
    refine survives_call fun reply hreply => ?_
    obtain ⟨a, ha⟩ := Option.ne_none_iff_exists'.mp (h reply hreply)
    exact ⟨a, ha, trivial⟩
  exact hcall.bind fun reply _ => hf reply

theorem survives_adminPlace : adminPlace.Survives fun _ => True := by
  intro u _
  show Program.Survives _ _ (if u = .str "admin" then _ else _)
  split <;> trivial

theorem survives_template {body : Code Body} (hbody : body.Survives fun _ => True) :
    (template body).Survives fun _ => True :=
  survives_adminPlace.bind fun _ _ => hbody.bind fun _ _ => trivial

theorem survives_headline {name time : Term} (hname : name.IsString) (htime : time.IsString) :
    (headline name time).Survives fun _ => True := by
  rw [headline_eq hname htime]
  trivial

theorem Guestbook.survives_pretty {row : Comment} (h : row.name.IsString ∧ row.time.IsString) :
    (pretty row).Survives fun _ => True := by
  intro u _
  show Program.Survives _ _ (if u = .undefined then _ else _)
  split
  · exact (survives_headline h.1 h.2).bind fun _ _ => trivial
  · exact (survives_headline h.1 h.2).bind fun _ _ => trivial

theorem Guestbook.survives_main : main.Survives fun _ => True := by
  have hrows : (call .dbComment .dumpComments).Survives fun reply =>
      ∃ rows, reply = .rows rows ∧ ∀ row ∈ rows, row.name.IsString ∧ row.time.IsString :=
    survives_call fun reply ⟨rows, hreply, hstr⟩ => ⟨_, hreply, rows, rfl, hstr⟩
  refine survives_template (hrows.bind ?_)
  rintro _ ⟨rows, rfl, hstr⟩
  show Program.Survives _ _ (view rows >>= _)
  rw [view_eq]
  refine Program.Survives.bind (Program.Survives.mapM fun row hrow => ?_) fun _ _ => trivial
  exact survives_pretty (hstr row ((List.mem_insertionSort _).mp hrow))

theorem Contact.survives_main : main.Survives fun _ => True := by
  have hrows : (call .dbMessage .dumpMessages).Survives fun reply =>
      ∃ rows, reply = .rows rows ∧ ∀ row ∈ rows, row.name.IsString ∧ row.time.IsString :=
    survives_call fun reply ⟨rows, hreply, hstr⟩ => ⟨_, hreply, rows, rfl, hstr⟩
  refine survives_template fun u _ => ?_
  show Program.Survives _ _ (if u = .undefined then _ else _)
  split
  · trivial
  · refine hrows.bind ?_
    rintro _ ⟨rows, rfl, hstr⟩
    show Program.Survives _ _ (view rows >>= _)
    rw [view_eq]
    refine Program.Survives.bind (Program.Survives.mapM fun row hrow => ?_) fun _ _ => trivial
    obtain ⟨hname, htime⟩ := hstr row ((List.mem_insertionSort _).mp hrow)
    exact (survives_headline hname htime).bind fun _ _ => trivial

theorem Index.survives_main : main.Survives fun _ => True := by
  refine survives_template fun _ _ _ _ => ?_
  refine survives_ignored .dbLogin (.createAccount _ _) (fun _ h => h) fun _ => ?_
  exact fun _ _ _ _ => trivial

theorem Page.survives_main (page : Page) : page.main.Survives fun _ => True := by
  cases page with
  | index => exact Index.survives_main
  | guestbook => exact Guestbook.survives_main
  | contact => exact Contact.survives_main
  | login =>
    refine survives_adminPlace.bind fun _ _ u _ => ?_
    show Program.Survives _ _ ((if u = .undefined then _ else _ : Code Body) >>= _)
    split <;> trivial
  | loginPage =>
    intro u _
    show Program.Survives _ _ ((if u = .undefined then _ else _ : Code Body) >>= _)
    split <;> trivial
  | createAccount | visitorsAdmin => trivial
  | nature | portrait | reportage => exact survives_template trivial

theorem survives_navigate {pb : Postback} (h : navigate pb ≠ .crash) :
    (navigate pb).Survives fun _ => True := by
  cases pb with
  | logout => exact fun _ _ => trivial
  | save | delete _ | login | done | doneOk | confirmOk => exact absurd rfl h
  | _ => trivial

/-- An event for which the page has a clause. -/
theorem Page.survives_event {page : Page} {pb : Postback} (h : page.Handles pb) (q : Params)
    (hcreate : page ≠ .createAccount) : (page.event pb q).Survives fun _ => True := by
  have hq := h q
  cases page with
  | guestbook =>
    cases pb with
    | save => exact survives_ignored .dbComment (.addComment _ _) (fun _ h => h) fun _ => trivial
    | delete id => exact survives_ignored .dbComment (.remove id) (fun _ h => h) fun _ => trivial
    | _ =>
      rw [Page.event, Guestbook.event_eq_navigate (by simp) (by simp)] at hq ⊢
      exact survives_navigate hq
  | contact =>
    cases pb with
    | save =>
      exact survives_ignored .dbMessage (.addMessage _ _ _) (fun _ h => h) fun _ => trivial
    | _ =>
      rw [Page.event, Contact.event_eq_navigate (by simp)] at hq ⊢
      exact survives_navigate hq
  | login =>
    cases pb with
    | login =>
      have hbool : (call .dbLogin (.attemptLogin (q "username") (q "password"))).Survives
          fun reply => ∃ b, reply = .bool b :=
        survives_call fun reply ⟨b, hreply⟩ => ⟨_, hreply, b, rfl⟩
      refine hbool.bind ?_
      rintro _ ⟨b, rfl⟩
      cases b with
      | true => exact fun _ _ => trivial
      | false => trivial
    | logout => exact fun _ _ => trivial
    | _ => exact absurd rfl hq
  | createAccount => exact absurd rfl hcreate
  | loginPage =>
    cases pb with
    | logout => exact fun _ _ => trivial
    | _ => exact absurd rfl hq
  | visitorsAdmin =>
    cases pb with
    | confirmOk =>
      have hsave : (VisitorsAdmin.saveVisitor q).Survives fun _ => True :=
        survives_ignored .visitorsDb (.insertVisitor _ _) (fun _ h => h) fun _ => trivial
      exact hsave.bind fun _ _ => trivial
    | done | doneOk | save => trivial
    | _ => exact absurd rfl hq
  | index | nature | portrait | reportage => exact survives_navigate hq

/-- The code of a request, when the page has a clause for what it is sent. -/
theorem Job.survives {job : Job} (h : ∀ page pb q, job = .post page pb q → page.Handles pb) :
    Program.Survives job.Gets (fun _ => True) job.code := by
  cases job with
  | load page => exact page.survives_main.mono fun _ _ => Job.Gets.answered
  | post page pb q =>
    have hhandles := h page pb q rfl
    by_cases hcreate : page = .createAccount
    · subst hcreate
      cases pb with
      | save =>
        rw [CreateAccount.save_code]
        intro reply hreply
        obtain rfl : reply = some .ok := hreply
        exact fun _ _ => trivial
      | _ => exact absurd rfl (hhandles q)
    · have hcode : (Job.post page pb q).code.Survives fun _ => True :=
        (page.survives_event hhandles q hcreate).bind fun _ _ => trivial
      exact hcode.mono fun _ _ => Job.Gets.answered

end Survival

section Steps

variable [Crypto] [Ets]

/-- No call is made to a server that is down. -/
def serving : Contract where
  condition := orderly
  inv σ := σ.2.node.Ready
  le σ σ' := ∀ S, σ.2.node.server S ≠ .down → σ'.2.node.server S ≠ .down
  allowed _ o σ := ∀ S r, o = .call S r → σ.2.node.server S ≠ .down
  post _ _ _ := True
  le_refl _ _ := id
  le_trans h h' S := h' S ∘ h S

theorem serving_keeps_op {c : Ctx} {o : Op} {σ : Past} (hinv : serving.inv σ) (now : DateTime) :
    serving.Keeps σ (serving.discipline.exec c o now σ).2 := by
  refine ⟨Site.exec_ready hinv c o now, fun S hup => Site.exec_up (fun S' _ hup' => ?_) now hup⟩
  obtain ⟨T, hT⟩ := hinv S' hup'
  rw [hT]
  rfl

/-- A request that begins when all servers are up. -/
theorem serving_safe_up {α : Type} {c : Ctx} {g : Code α} (hg : g.Uses fun _ => True) {σ : Past}
    (hup : ∀ S, σ.2.node.server S ≠ .down) :
    g.Safe serving.discipline c (fun _ _ => True) σ := by
  refine hg.safe_above σ (fun o _ σ' hle hinv _ => ⟨?_, serving_keeps_op hinv⟩)
    (fun _ _ _ => trivial) (serving.le_refl σ)
  rintro S r rfl
  exact hle S (hup S)

theorem serving_safe_start {c : Ctx} (S : Store) (σ : Past) : (start S).Safe serving.discipline c
    (fun _ σ => σ.2.node.server S ≠ .down) σ := by
  intro σ' _ hinv _
  refine ⟨nofun, fun now => ?_⟩
  obtain ⟨hinv', hle⟩ := serving_keeps_op (c := c) (o := .start S) hinv now
  refine ⟨hinv', hle, fun σ'' hle' _ => hle' S ?_⟩
  exact Node.start_self_up σ'.2.node S (some c.pid)

theorem serving_safe_call {c : Ctx} {S : Store} {r : S.Request} {σ : Past}
    (hup : σ.2.node.server S ≠ .down) :
    (call S r).Safe serving.discipline c (fun _ _ => True) σ := by
  have huses : (call S r).Uses (· = .call S r) := uses_call rfl
  refine huses.safe_above σ (fun o ho σ' hle hinv _ => ⟨?_, serving_keeps_op hinv⟩)
    (fun _ _ _ => trivial) (serving.le_refl σ)
  rintro S' r' rfl
  cases ho
  exact hle S hup

/-- `index:body/0` calls the one server that it has just started. -/
theorem serving_safe_index {c : Ctx} (σ : Past) :
    Index.main.Safe serving.discipline c (fun _ _ => True) σ := by
  have hadmin : adminPlace.Safe serving.discipline c (fun _ _ => True) σ := by
    have huses : adminPlace.Uses (· = .user) := uses_adminPlace rfl
    refine huses.safe (fun o ho σ' hinv _ => ⟨?_, serving_keeps_op hinv⟩)
      (fun _ _ _ => trivial) σ
    rintro S r rfl
    cases ho
  refine hadmin.bind fun admin σ₁ _ _ _ => ?_
  have hbody : Index.body.Safe serving.discipline c (fun _ _ => True) σ₁ := by
    refine (serving_safe_start .visitorsDb σ₁).bind fun _ σ₂ _ _ _ => ?_
    refine (serving_safe_start .dbLogin σ₂).bind fun _ σ₃ _ _ hup => ?_
    refine (serving_safe_call hup).bind fun _ σ₄ _ _ _ => ?_
    refine (serving_safe_start .dbMessage σ₄).bind fun _ σ₅ _ _ _ => ?_
    exact (serving_safe_start .dbComment σ₅).bind fun _ σ₆ _ _ _ _ _ _ => trivial
  exact hbody.bind fun body σ₂ _ _ _ _ _ _ => trivial

theorem serving_sound : serving.Sound where
  request {tr w p s job} hinv hC := by
    refine ⟨⟨hinv, fun _ => id⟩, ?_⟩
    rcases hC.1 with hhome | hup
    · rw [Job.code_index (Job.eq_of_isHome hhome)]
      exact serving_safe_index _
    · exact serving_safe_up (job.code_uses.mono fun _ _ => trivial) hup
  respond hinv _ _ := ⟨hinv, fun _ => id⟩
  close {tr w p normal} hinv hC :=
    ⟨hinv.exit p normal, fun S => Node.exit_up fun h => hC h S⟩
  stop _ hC := hC.elim

variable {ls : List Label} {w : World}

/-- In an orderly run, every server that is called is up. -/
theorem World.called_up (hrun : run World.step .init ls = some w)
    (hC : Always World.step orderly.Meets .init ls) {p : Pid} {c : Ctx} {S : Store} {r : S.Request}
    {next : Op.Res (.call S r) → Code Response} (hlive : w.site.node.live p = true)
    (htask : w.task p = some (c, .perform (.call S r) next)) : w.site.node.server S ≠ .down := by
  have hinit : serving.Holds [] .init := .init Node.Ready.init
  obtain ⟨hholds, -⟩ := hinit.run serving_sound hrun hC
  exact hholds.allowed hlive htask trivial S r rfl

theorem orderly_not_stopped (hrun : run World.step .init ls = some w)
    (hC : Always World.step orderly.Meets .init ls) : ∀ S now, .stop S now ∉ ls := by
  intro S now hmem
  obtain ⟨w', h⟩ := hC.exists_of_mem hrun hmem
  exact h

/-- In an orderly run, every operation has a result with which the code can go on. -/
theorem World.answered (hrun : run World.step .init ls = some w)
    (hC : Always World.step orderly.Meets .init ls) (hnames : FormsNamed ls) {p : Pid} {c : Ctx}
    {o : Op} {next : o.Res → Code Response} (hlive : w.site.node.live p = true)
    (htask : w.task p = some (c, .perform o next)) (now : DateTime) :
    o.Answered (w.site.exec c o now).1 := by
  have hstop := orderly_not_stopped hrun hC
  cases o with
  | call S r =>
    rw [Site.exec_reply (World.ready hrun hstop) (World.called_up hrun hC hlive htask)]
    cases S with
    | visitorsDb => exact nofun
    | dbLogin =>
      cases r with
      | attemptLogin username password => exact ⟨_, rfl⟩
      | createAccount username password => exact nofun
      | remove key => exact nofun
    | dbMessage =>
      cases r with
      | dumpMessages =>
        refine ⟨_, rfl, fun row hrow => ?_⟩
        apply messages_strings hrun hstop fun p s q hmem => hnames p s _ q hmem (.inr rfl)
        exact (Ets.perm _).mem_iff.mp hrow
      | addMessage name email message => exact nofun
      | remove key => exact nofun
    | dbComment =>
      cases r with
      | dumpComments =>
        refine ⟨_, rfl, fun row hrow => ?_⟩
        apply comments_strings hrun hstop fun p s q hmem => hnames p s _ q hmem (.inl rfl)
        exact (Ets.perm _).mem_iff.mp hrow
      | addComment name message => exact nofun
      | remove key => exact nofun
  | start S | user | setUser u | logout => trivial

/-- The request is a registration of a name that has an account. -/
def Site.Refuses (w : Site) (job : Job) : Prop :=
  ∃ q, job = .post .createAccount .save q ∧ q "username" ∈ (w.table .dbLogin).keys

omit [Crypto] [Ets] in
theorem KeepsRows.keys {S : Store} {w w' : Site} (h : KeepsRows S w.node w'.node) {key : Term}
    (hkey : key ∈ (w.table S).keys) : key ∈ (w'.table S).keys := by
  cases hT : w.node.db.table? S with
  | none =>
    rw [Site.table, hT] at hkey
    cases hkey
  | some T =>
    rw [Site.table_of hT] at hkey
    obtain ⟨T', hT', hrows⟩ := h T hT
    obtain ⟨row, hrow, rfl⟩ := KeyedTable.mem_keys.mp hkey
    rw [Site.table_of hT']
    exact KeyedTable.key_mem_keys (hrows row hrow)

omit [Crypto] [Ets] in
theorem Site.Refuses.mono {w w' : Site} {job : Job} (h : w.Refuses job)
    (hkept : KeepsRows .dbLogin w.node w'.node) : w'.Refuses job := by
  obtain ⟨q, hjob, hkey⟩ := h
  exact ⟨q, hjob, hkept.keys hkey⟩

/-- No page removes an account. -/
theorem World.keepsAccounts (hrun : run World.step .init ls = some w) {l : Label} {w' : World}
    (hstep : w.step l = some w') (hstop : ∀ S now, l ≠ .stop S now) :
    KeepsRows .dbLogin w.site.node w'.site.node := by
  rcases World.step_keepsRows (S := .dbLogin) hstep hstop with hkeeps |
    ⟨p, now, c, r, key, next, -, -, htask, hkey⟩
  · exact hkeeps
  · exact absurd (Job.mayUse_remove (World.mayUse hrun htask) hkey).1 nofun

/-- A registration gets `ok`, unless the name has an account already. -/
theorem World.gets (hrun : run World.step .init ls = some w)
    (hC : Always World.step orderly.Meets .init ls) (hnames : FormsNamed ls) {p : Pid} {c : Ctx}
    {o : Op} {next : o.Res → Code Response} (hlive : w.site.node.live p = true)
    (htask : w.task p = some (c, .perform o next)) (now : DateTime) :
    c.job.Gets o (w.site.exec c o now).1 ∨ w.site.Refuses c.job := by
  have hanswered := World.answered hrun hC hnames hlive htask now
  by_cases hcreate : ∃ q, c.job = .post .createAccount .save q
  · obtain ⟨q, hjob⟩ := hcreate
    by_cases hkey : q "username" ∈ (w.site.table .dbLogin).keys
    · exact .inr ⟨q, hjob, hkey⟩
    · refine .inl ?_
      cases o with
      | call S r =>
        have hup := World.called_up hrun hC hlive htask
        have hready := World.ready hrun (orderly_not_stopped hrun hC)
        have hres := World.residual hrun htask
        rw [hjob] at hres ⊢
        have hcode := CreateAccount.residual_call hres
        rw [CreateAccount.save_code] at hcode
        cases hcode
        rw [Site.exec_reply hready hup]
        exact congrArg some (insertRow_ok_iff.mpr hkey)
      | start S | user | setUser u | logout =>
        rw [hjob]
        trivial
  · exact .inl (hanswered.gets fun q hjob => hcreate ⟨q, hjob⟩)

/-- What is left of a request comes to a response, if it is no registration that is refused. -/
theorem tasks_survive (hrun : run World.step .init ls = some w)
    (hC : Always World.step orderly.Meets .init ls) (hnames : FormsNamed ls) {p : Pid} {c : Ctx}
    {g : Code Response}
    (htask : w.task p = some (c, g)) :
    Program.Survives c.job.Gets (fun _ => True) g ∨ w.site.Refuses c.job := by
  induction ls using List.reverseRecOn generalizing w p c g with
  | nil =>
    cases hrun
    cases htask
  | append_singleton ls l ih =>
    have hstop := orderly_not_stopped hrun hC
    obtain ⟨w₁, hrun₁, hstep⟩ := run_concat_some.mp hrun
    obtain ⟨hC₁, hl⟩ := always_concat.mp hC
    have hkept : KeepsRows .dbLogin w₁.site.node w.site.node :=
      World.keepsAccounts hrun₁ hstep fun S now hl => hstop S now (by simp [hl])
    have hold : ∀ p c g, w₁.task p = some (c, g) →
        Program.Survives c.job.Gets (fun _ => True) g ∨ w.site.Refuses c.job :=
      fun p c g htask => (ih hrun₁ hC₁ hnames.left htask).imp_right fun h => h.mono hkept
    refine (?_ : ∀ p c g, w.task p = some (c, g) →
      Program.Survives c.job.Gets (fun _ => True) g ∨ w.site.Refuses c.job) p c g htask
    rcases World.step_cases hstep with ⟨p, s, job, rfl, -, rfl⟩ |
      ⟨p, now, c, o, next, rfl, hlive, htask₁, rfl⟩ | ⟨p, c, r, rfl, -, -, rfl⟩ |
      ⟨p, normal, rfl, -, rfl⟩ | ⟨S, now, rfl, -⟩
    · refine forall_update hold ?_
      rintro c g ⟨⟩
      refine .inl (Job.survives fun page pb q hjob => ?_)
      obtain rfl : job = .post page pb q := hjob
      obtain ⟨-, sent, hsent, rfl, rfl⟩ := hl w₁ hrun₁
      exact World.shown_of_code Job.handles_code hrun₁ s sent hsent
    · refine forall_update hold ?_
      rintro c' g ⟨⟩
      rcases hold p c _ htask₁ with hsurvives | hrefuses
      · rcases World.gets hrun₁ hC₁ hnames.left hlive htask₁ now with hgets | hrefuses
        · exact .inl (hsurvives _ hgets)
        · exact .inr (hrefuses.mono hkept)
      · exact .inr hrefuses
    · exact forall_update hold nofun
    · exact forall_update hold nofun
    · exact absurd (List.mem_append_right ls (List.mem_singleton_self _)) (hstop S now)

/-- In an orderly run, whatever the requests do meanwhile, none of them crashes but a registration
of a name that has an account. -/
theorem requests_do_not_crash (hrun : run World.step .init ls = some w)
    (hC : Always World.step orderly.Meets .init ls) (hnames : FormsNamed ls) {p : Pid} {c : Ctx}
    (htask : w.task p = some (c, .crash)) : w.site.Refuses c.job :=
  (tasks_survive hrun hC hnames htask).resolve_left id

theorem orderly_steps (p : Pid) (now : DateTime) (n : Nat) (w : World) :
    Always World.step orderly.Meets w (List.replicate n (.step p now)) := by
  refine always_of_forall (fun l hl w' => ?_) w
  rw [List.eq_of_mem_replicate hl]
  exact fun _ _ _ _ => trivial

/-- In an orderly run, a process that is left alone comes to a response, if it is not to register a
name that has an account. -/
theorem requests_answered (hrun : run World.step .init ls = some w)
    (hC : Always World.step orderly.Meets .init ls) (hnames : FormsNamed ls) {p : Pid} {c : Ctx}
    {g : Code Response} (hlive : w.site.node.live p = true) (htask : w.task p = some (c, g))
    (now : DateTime) :
    ∃ n w', run World.step w (List.replicate n (.step p now)) = some w' ∧
      ((∃ r, w'.task p = some (c, .done r)) ∨
        w'.task p = some (c, .crash) ∧ w'.site.Refuses c.job) := by
  have hready := World.ready hrun (orderly_not_stopped hrun hC)
  obtain ⟨n, w', hrun', -, htask'⟩ := World.run_alone hready hlive htask now
  refine ⟨n, w', hrun', ?_⟩
  cases heval : (w.site.eval c now g).1 with
  | some r =>
    rw [heval] at htask'
    exact .inl ⟨r, htask'⟩
  | none =>
    rw [heval] at htask'
    have hwhole : run World.step .init (ls ++ List.replicate n (.step p now)) = some w' := by
      rw [run_append, hrun]
      exact hrun'
    have hC' : Always World.step orderly.Meets .init (ls ++ List.replicate n (.step p now)) := by
      refine always_append.mpr ⟨hC, fun w₁ _ => orderly_steps p now n w₁⟩
    have hnames' : FormsNamed (ls ++ List.replicate n (.step p now)) := by
      intro p' s page q hmem
      rcases List.mem_append.mp hmem with hmem | hmem
      · exact hnames p' s page q hmem
      · cases List.eq_of_mem_replicate hmem
    exact .inr ⟨htask', (tasks_survive hwhole hC' hnames' htask').resolve_left id⟩

end Steps

/-! Somebody registers as the admin; and Ann writes a comment, which the next visitor is shown. -/

def adminSignsUp : List Label :=
  [.request 1 1 (.load .createAccount), .respond 1,
    .request 2 1 (.post .createAccount .save adminForm), .step 2 .noon]

def annWrites : List Label :=
  [.request 3 3 (.load .guestbook), .step 3 .noon, .step 3 .noon, .respond 3] ++
    writesComment 4 "Ann" "hello" ++ [.request 5 5 (.load .guestbook), .step 5 .noon]

attribute [local instance] Crypto.sample Ets.asKept

theorem requests_do_not_crash_admin :
    ∃ w ∈ run World.step .init (loadHome ++ adminSignsUp),
      ∃ c, w.task 2 = some (c, .crash) ∧ w.site.Refuses (.post .createAccount .save adminForm) := by
  have hnames : FormsNamed (loadHome ++ adminSignsUp) := by
    intro p s page q hmem hpage
    simp [loadHome, adminSignsUp] at hmem
    obtain ⟨-, -, rfl, -⟩ := hmem
    rcases hpage with hpage | hpage
    · cases hpage
    · cases hpage
  have hC : Always World.step orderly.Meets .init (loadHome ++ adminSignsUp) := by
    decide +kernel
  have hrun : ∃ w c, run World.step .init (loadHome ++ adminSignsUp) = some w ∧
      w.task 2 = some (c, .crash) ∧ c.job = .post .createAccount .save adminForm :=
    ⟨_, _, rfl, rfl, rfl⟩
  obtain ⟨w, c, hw, htask, hjob⟩ := hrun
  have hrefuses := requests_do_not_crash hw hC hnames htask
  rw [hjob] at hrefuses
  exact ⟨w, hw, c, htask, hrefuses⟩

theorem requests_answered_guestbook :
    ∃ w ∈ run World.step .init (loadHome ++ annWrites), ∃ n w',
      run World.step w (List.replicate n (.step 5 .noon)) = some w' ∧
        ∃ c r, w'.task 5 = some (c, .done r) := by
  have hnames : FormsNamed (loadHome ++ annWrites) := by
    intro p s page q hmem hpage
    simp only [loadHome, annWrites, writesComment, List.cons_append, List.nil_append,
      List.mem_cons, reduceCtorEq, Label.request.injEq, Job.post.injEq, and_false, false_or,
      or_false, List.not_mem_nil, true_and] at hmem
    obtain ⟨-, -, -, rfl⟩ := hmem
    exact Term.isString_str "Ann"
  have hC : Always World.step orderly.Meets .init (loadHome ++ annWrites) := by decide +kernel
  have hrun : ∃ w c g, run World.step .init (loadHome ++ annWrites) = some w ∧
      w.site.node.live 5 = true ∧ w.task 5 = some (c, g) ∧ c.job = .load .guestbook :=
    ⟨_, _, _, rfl, rfl, rfl, rfl⟩
  obtain ⟨w, c, g, hw, hlive, htask, hjob⟩ := hrun
  obtain ⟨n, w', hrun', hend⟩ := requests_answered hw hC hnames hlive htask .noon
  refine ⟨w, hw, n, w', hrun', c, ?_⟩
  rcases hend with hdone | ⟨-, q, hjob', -⟩
  · exact hdone
  · rw [hjob] at hjob'
    cases hjob'

end WebServerl
