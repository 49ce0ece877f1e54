import WebServerl.Site.Authentication
import WebServerl.Site.Buttons

/-! Who deletes comments.  `guestbook:body/0` hands out delete buttons to every session with a
user, and `guestbook:event/1` obeys them whoever the user is by then.  Where neither happens, only
the admin deletes: the invariant says that the delete buttons of a session's present epoch are the
admin's. -/

namespace WebServerl

open Erlang Erlang.Mnesia Machine

/-- If the epoch `n` of the session is the present one, then its user is the admin. -/
def AdminSince (σ : Past) (s : Session) (n : Nat) : Prop :=
  n ≤ σ.2.epoch s ∧ (n = σ.2.epoch s → σ.2.user s = .str "admin")

/-- The delete buttons of each session are the admin's, or of an earlier epoch. -/
def ButtonsGuarded (σ : Past) : Prop :=
  ∀ s id n, ⟨.guestbook, .delete id, n⟩ ∈ σ.2.shown s → AdminSince σ s n

/-- Epochs only grow, and the user stays the same within one. -/
def EpochsGrow (σ σ' : Past) : Prop :=
  ∀ s, σ.2.epoch s ≤ σ'.2.epoch s ∧ (σ.2.epoch s = σ'.2.epoch s → σ'.2.user s = σ.2.user s)

theorem EpochsGrow.of_eq {σ σ' : Past} (hepoch : σ'.2.epoch = σ.2.epoch)
    (huser : σ'.2.user = σ.2.user) : EpochsGrow σ σ' := by
  intro s
  rw [hepoch, huser]
  exact ⟨Nat.le_refl _, fun _ => rfl⟩

theorem EpochsGrow.trans {σ σ' σ'' : Past} (h : EpochsGrow σ σ') (h' : EpochsGrow σ' σ'') :
    EpochsGrow σ σ'' := by
  intro s
  obtain ⟨hle, huser⟩ := h s
  obtain ⟨hle', huser'⟩ := h' s
  refine ⟨Nat.le_trans hle hle', fun heq => ?_⟩
  rw [huser' (by omega), huser (by omega)]

theorem AdminSince.mono {σ σ' : Past} {s : Session} {n : Nat} (h : AdminSince σ s n)
    (hle : EpochsGrow σ σ') : AdminSince σ' s n := by
  obtain ⟨hn, hadmin⟩ := h
  obtain ⟨hepoch, huser⟩ := hle s
  refine ⟨by omega, fun heq => ?_⟩
  rw [huser (by omega)]
  exact hadmin (by omega)

theorem ButtonsGuarded.mono {σ σ' : Past} (h : ButtonsGuarded σ) (hle : EpochsGrow σ σ')
    (hshown : σ'.2.shown = σ.2.shown) : ButtonsGuarded σ' := by
  intro s id n hmem
  rw [hshown] at hmem
  exact (h s id n hmem).mono hle

def Job.rendersGuestbook : Job → Bool
  | .load .guestbook => true
  | _ => false

/-- The id of a delete event of the guestbook. -/
def Job.deleted? : Job → Option Term
  | .post .guestbook (.delete id) _ => some id
  | _ => none

def Op.readsUser : Op → Bool
  | .user => true
  | _ => false

/-- The code of a guestbook page only finds sessions of the admin and sessions without a user, and
a delete button is obeyed in the epoch in which its page was requested. -/
def adminsButtons : Condition where
  operation c o w :=
    (c.job.rendersGuestbook ∧ o.readsUser →
      w.user c.session = .undefined ∨ w.user c.session = .str "admin") ∧
    ∀ id ∈ c.job.deleted?, ⟨.guestbook, .delete id, w.epoch c.session⟩ ∈ w.shown c.session
  stop _ _ := False

instance : adminsButtons.Checkable where
  request _ _ _ _ := .isTrue trivial
  operation c _ _ := inferInstanceAs (Decidable ((_ → _) ∧ ∀ id ∈ c.job.deleted?, _))
  respond _ _ _ := .isTrue trivial
  close _ _ _ := .isTrue trivial
  stop _ _ := .isFalse id

def deletes : Contract where
  condition := adminsButtons
  inv := ButtonsGuarded
  le := EpochsGrow
  allowed c o σ := ∀ r, o = .call .dbComment r → (Store.dbComment.removedKey? r).isSome →
    (∃ id q, c.job = .post .guestbook (.delete id) q) ∧ σ.2.user c.session = .str "admin"
  post c r σ := c.job.page = .guestbook → ∀ id, .delete id ∈ r.postbacks →
    AdminSince σ c.session c.epoch
  le_refl _ := .of_eq rfl rfl
  le_trans := .trans

theorem deletes_keeps_setUser {σ σ' : Past} {s : Session} {u : Term}
    (hinv : ButtonsGuarded σ) (hσ : σ'.2 = σ.2.setUser s u) : deletes.Keeps σ σ' := by
  have hle : EpochsGrow σ σ' := by
    intro s'
    rw [hσ]
    by_cases hs : s' = s
    · subst hs
      simp [Site.setUser]
    · simp [Site.setUser, hs]
  refine ⟨hinv.mono hle ?_, hle⟩
  rw [hσ]
  rfl

/-- A request may perform its operations: a removal is a delete button of the present epoch. -/
theorem deletes_allowed {c : Ctx} {o : Op} (ho : c.job.MayUse o) {σ : Past}
    (hinv : ButtonsGuarded σ) (hC : adminsButtons.operation c o σ.2) :
    deletes.allowed c o σ := by
  rintro r rfl hr
  obtain ⟨key, hkey⟩ := Option.isSome_iff_exists.mp hr
  obtain ⟨-, q, hjob⟩ := Job.mayUse_remove ho hkey
  have hkeyjob : key ∈ c.job.deleted? := by rw [hjob, Job.deleted?, Option.mem_def]
  exact ⟨⟨key, q, hjob⟩, (hinv _ _ _ (hC.2 key hkeyjob)).2 rfl⟩

section Model

variable [Crypto] [Ets]

/-- Every operation keeps the contract. -/
theorem deletes_keeps_op {c : Ctx} (o : Op) {σ : Past} (hinv : ButtonsGuarded σ)
    (now : DateTime) : deletes.Keeps σ (deletes.discipline.exec c o now σ).2 := by
  cases o with
  | start S => exact ⟨hinv.mono (.of_eq rfl rfl) rfl, .of_eq rfl rfl⟩
  | call S r => exact ⟨hinv.mono (.of_eq rfl rfl) rfl, .of_eq rfl rfl⟩
  | user => exact ⟨hinv.mono (.of_eq rfl rfl) rfl, .of_eq rfl rfl⟩
  | setUser u => exact deletes_keeps_setUser hinv rfl
  | logout => exact deletes_keeps_setUser hinv rfl

theorem deletes_safe_of_uses {α : Type} {c : Ctx} {g : Code α} {value : α → Prop}
    {post : α → Past → Prop} (hg : g.Uses c.job.MayUse) (hvalue : g.Returns value)
    (hpost : ∀ a σ, value a → ButtonsGuarded σ → post a σ) (σ : Past) :
    g.Safe deletes.discipline c post σ :=
  hg.safe_returns hvalue
    (fun o ho _ hinv hC => ⟨deletes_allowed ho hinv hC, deletes_keeps_op o hinv⟩) hpost σ

section Guestbook

variable {c : Ctx} {σ : Past}

/-- A comment is rendered with a button for nobody but the admin of the page's epoch. -/
theorem deletes_safe_pretty (hjob : c.job = .load .guestbook)
    (hbegan : c.epoch ≤ σ.2.epoch c.session) (comment : Comment) :
    (Guestbook.pretty comment).Safe deletes.discipline c
      (fun es σ => ∀ id, .delete id ∈ postbacksOf es → AdminSince σ c.session c.epoch) σ := by
  have huser : user.Safe deletes.discipline c
      (fun u σ => u = .undefined ∨ AdminSince σ c.session c.epoch) σ := by
    intro σ' hle hinv hC
    refine ⟨nofun, fun now => ⟨(deletes_keeps_op .user hinv now).1,
      (deletes_keeps_op .user hinv now).2, fun σ'' hle' _ => ?_⟩⟩
    have hrenders : c.job.rendersGuestbook := by rw [hjob, Job.rendersGuestbook]
    rcases hC.1 ⟨hrenders, rfl⟩ with hnone | hadmin
    · exact .inl hnone
    · have hsince : AdminSince σ' c.session c.epoch :=
        ⟨Nat.le_trans hbegan (hle c.session).1, fun _ => hadmin⟩
      exact .inr ((hsince.mono (deletes_keeps_op .user hinv now).2).mono hle')
  refine huser.bind fun u σ' _ _ hu => ?_
  have hheadline : (headline comment.name comment.time).Safe deletes.discipline c
      (fun _ _ => True) σ' :=
    deletes_safe_of_uses (uses_headline _ _) (.any _) (fun _ _ _ _ => trivial) σ'
  split
  · refine hheadline.bind fun head σ'' _ _ _ => ?_
    intro _ _ _ id
    simp [postbacksOf, Element.postbacks]
  · rename_i hne
    have hsince := hu.resolve_left hne
    refine hheadline.bind fun head σ'' hle _ _ => ?_
    intro σ₃ hle' _ id _
    exact (hsince.mono hle).mono hle'

theorem deletes_safe_view (hjob : c.job = .load .guestbook)
    (hbegan : c.epoch ≤ σ.2.epoch c.session) (comments : List Comment) :
    (Guestbook.view comments).Safe deletes.discipline c
      (fun ess σ => ∀ es ∈ ess, ∀ id, .delete id ∈ postbacksOf es →
        AdminSince σ c.session c.epoch) σ := by
  have hlist := Program.Safe.mapM (D := deletes.discipline) (s := σ)
    (fun comment σ' hle _ => deletes_safe_pretty hjob
      (Nat.le_trans hbegan (hle c.session).1) comment)
    (fun es σ' σ'' h hle id hid => (h id hid).mono hle)
  unfold Guestbook.view
  split
  · exact fun _ _ _ => List.forall_mem_nil _
  · exact hlist _
  · exact hlist _

theorem deletes_safe_guestbook (hjob : c.job = .load .guestbook)
    (hbegan : c.epoch ≤ σ.2.epoch c.session) :
    Guestbook.main.Safe deletes.discipline c (deletes.post c) σ := by
  have hplain : ∀ o, Op.Plain o → c.job.MayUse o := by
    intro o ho
    rw [hjob]
    exact ho
  have hadmin : adminPlace.Safe deletes.discipline c
      (fun es _ => ∀ id, .delete id ∉ postbacksOf es) σ :=
    deletes_safe_of_uses (uses_adminPlace (hplain .user trivial)) returns_adminPlace
      (fun _ _ h _ => h) σ
  refine hadmin.bind fun admin σ₁ hle₁ _ hnone => ?_
  have hbody : Guestbook.body.Safe deletes.discipline c
      (fun b σ => ∀ id, .delete id ∈ postbacksOf b.elements →
        AdminSince σ c.session c.epoch) σ₁ := by
    have hcall : (call .dbComment .dumpComments).Safe deletes.discipline c
        (fun _ _ => True) σ₁ :=
      deletes_safe_of_uses (uses_call (hplain (.call .dbComment .dumpComments) ⟨nofun, rfl⟩))
        (.any _) (fun _ _ _ _ => trivial) σ₁
    refine hcall.bind fun reply σ₂ hle₂ _ _ => ?_
    split
    · rename_i comments
      have hbegan' := Nat.le_trans hbegan
        (Nat.le_trans (hle₁ c.session).1 (hle₂ c.session).1)
      refine (deletes_safe_view hjob hbegan' comments).bind fun ess σ₃ _ _ hess => ?_
      intro σ₄ hle₄ _ id hid
      rw [postbacksOf_append, List.mem_append] at hid
      obtain ⟨es, hes, hmem⟩ := (mem_postbacksOf_flatten ess).mp
        (hid.resolve_right delete_not_mem_form)
      exact (hess es hes id hmem).mono hle₄
    · trivial
  refine hbody.bind fun b σ₂ _ _ hb => ?_
  intro σ₃ hle₃ _ _ id hid
  have hmem := (delete_mem_template.mp hid).resolve_left (hnone id)
  exact (hb id hmem).mono hle₃

end Guestbook

theorem deletes_safe {p : Pid} {s : Session} {job : Job} {tr : List Label} {w : Site} :
    job.code.Safe deletes.discipline (w.ctx p s job) (deletes.post (w.ctx p s job))
      (tr ++ [.request p s job], w.enter p) := by
  by_cases hguestbook : job = .load .guestbook
  · subst hguestbook
    exact deletes_safe_guestbook rfl (Nat.le_refl _)
  have hvalue : job.code.Returns fun r =>
      job.page = .guestbook → ∀ id, .delete id ∉ r.postbacks := by
    by_cases hpage : job.page = .guestbook
    · cases job with
      | load page => exact absurd (congrArg Job.load hpage) hguestbook
      | post page pb q =>
        obtain rfl : page = .guestbook := hpage
        exact (Guestbook.returns_event pb q).bind fun l hl _ => hl
    · exact (Program.Returns.any _).mono fun r _ h => absurd h hpage
  exact deletes_safe_of_uses job.code_uses hvalue
    (fun r σ hr _ hpage id hid => absurd hid (hr hpage id)) _

theorem deletes_sound : deletes.Sound where
  request {tr w p s job} hinv _ :=
    ⟨⟨ButtonsGuarded.mono hinv (.of_eq rfl rfl) rfl, .of_eq rfl rfl⟩, deletes_safe⟩
  respond {tr w c r} hinv hpost _ := by
    refine ⟨fun s id n hmem => ?_, .of_eq rfl rfl⟩
    by_cases hs : s = c.session
    · subst hs
      simp only [Site.deliver, Function.update_self, List.mem_append, List.mem_map,
        Sent.mk.injEq] at hmem
      rcases hmem with hold | ⟨pb, hpb, hpage, rfl, rfl⟩
      · exact hinv _ id n hold
      · exact hpost hpage id hpb
    · simp only [Site.deliver, Function.update_of_ne hs] at hmem
      exact hinv s id n hmem
  close {tr w p normal} hinv _ :=
    ⟨ButtonsGuarded.mono hinv (.of_eq rfl rfl) rfl, .of_eq rfl rfl⟩
  stop _ h := h.elim

/-- The step takes a comment out of the table. -/
def RemovesComment (w : World) (l : Label) : Prop :=
  ∃ w' ∈ w.step l, ∃ row ∈ w.site.comments, row ∉ w'.site.comments

instance (w : World) (l : Label) : Decidable (RemovesComment w l) :=
  inferInstanceAs (Decidable (∃ w' ∈ w.step l, ∃ row ∈ w.site.comments, row ∉ w'.site.comments))

/-- The step is the removal of a delete event of the guestbook, in a session of the admin. -/
def AdminDeletes (w : World) (l : Label) : Prop :=
  ∃ p now c id q next, l = .step p now ∧
    w.task p = some (c, .perform (.call .dbComment (.remove id)) next) ∧
    c.job = .post .guestbook (.delete id) q ∧ w.site.user c.session = .str "admin"

/-- Every step that removes a comment is a delete event of the admin, in every run in which the
guestbook is not rendered for another user and no delete button outlives its epoch. -/
theorem only_admin_deletes {ls : List Label}
    (h : Always World.step adminsButtons.Meets .init ls) :
    Always World.step (fun w l => RemovesComment w l → AdminDeletes w l) .init ls := by
  refine always_iff_forall_before.mpr ?_
  rintro before l after w rfl hrun ⟨w', hstep, row, hrow, hgone⟩
  obtain ⟨hbefore, hrest⟩ := always_append.mp h
  have hl : adminsButtons.Meets w l := (hrest w hrun).1
  have hinit : ButtonsGuarded ([], .init) := nofun
  have hholds := ((Contract.Holds.init hinit).run deletes_sound hrun hbefore).1
  have hstop : ∀ S now, l ≠ .stop S now := by
    rintro S now rfl
    exact hl
  rcases World.step_keepsRows hstep hstop with hkeeps |
    ⟨p, now, c, r, key, next, rfl, hlive, htask, hkey⟩
  · exact absurd (hkeeps.comments hrow) hgone
  · obtain ⟨-, q, hjob⟩ := Job.mayUse_remove (World.mayUse hrun htask) hkey
    obtain ⟨-, hadmin⟩ := hholds.allowed hlive htask (hl c _ next htask) r rfl (by simp [hkey])
    cases r with
    | remove id =>
      cases hkey
      exact ⟨p, now, c, key, q, next, rfl, htask, hjob, hadmin⟩
    | addComment name message => cases hkey
    | dumpComments => cases hkey

end Model

/-- A session only sends postbacks that it has been shown. -/
def browser : Condition where
  request _ s job w :=
    match job with
    | .load _ => True
    | .post page pb _ => ∃ sent ∈ w.shown s, sent.page = page ∧ sent.postback = pb
  stop _ _ := False

instance : browser.Checkable where
  request _ s job w :=
    match job with
    | .load _ => .isTrue trivial
    | .post page pb _ => inferInstanceAs
      (Decidable (∃ sent ∈ w.shown s, sent.page = page ∧ sent.postback = pb))
  operation _ _ _ := .isTrue trivial
  respond _ _ _ := .isTrue trivial
  close _ _ _ := .isTrue trivial
  stop _ _ := .isFalse id

/-! A session logs in, writes a comment and deletes it: first the admin, and then Bob. -/

def annsForm : Params := fun field =>
  if field = "name" then .str "Ann" else if field = "message" then .str "hello" else .undefined

/-- Session 1 writes a comment, sees it, and deletes it. -/
def writesAndDeletes : List Label :=
  [.request 3 1 (.load .guestbook), .step 3 .noon, .step 3 .noon, .respond 3,
    .request 4 1 (.post .guestbook .save annsForm), .step 4 .noon, .respond 4,
    .request 5 1 (.load .guestbook), .step 5 .noon, .step 5 .noon, .step 5 .noon, .respond 5,
    .request 6 1 (.post .guestbook (.delete (.int 1)) annsForm)]

def adminForm : Params := fun field =>
  if field = "username" then .str "admin" else if field = "password" then .str "admin"
  else .undefined

def adminLogsIn : List Label :=
  [.request 1 1 (.load .login), .step 1 .noon, .step 1 .noon, .respond 1,
    .request 2 1 (.post .login .login adminForm), .step 2 .noon, .step 2 .noon, .respond 2]

attribute [local instance] Crypto.sample Ets.asKept

theorem only_admin_deletes_own :
    ∃ w ∈ run World.step .init (loadHome ++ adminLogsIn ++ writesAndDeletes),
      RemovesComment w (.step 6 .noon) ∧ AdminDeletes w (.step 6 .noon) := by
  have h : Always World.step (fun w l => RemovesComment w l → AdminDeletes w l) .init
      (loadHome ++ adminLogsIn ++ writesAndDeletes ++ [.step 6 .noon]) :=
    only_admin_deletes (by decide +kernel)
  have hremoves : ∃ w ∈ run World.step .init (loadHome ++ adminLogsIn ++ writesAndDeletes),
      RemovesComment w (.step 6 .noon) := by decide +kernel
  obtain ⟨w, hrun, hw⟩ := hremoves
  exact ⟨w, hrun, hw, (always_concat.mp h).2 w hrun hw⟩

def bobSignsUp : List Label :=
  [.request 1 1 (.load .createAccount), .respond 1,
    .request 2 1 (.post .createAccount .save bobForm), .step 2 .noon, .step 2 .noon, .respond 2]

theorem comment_deleted_by_bob :
    ¬ ∀ ls, Always World.step browser.Meets .init ls →
      Always World.step (fun w l => RemovesComment w l → AdminDeletes w l) .init ls := by
  intro h
  have hdelete := h (loadHome ++ bobSignsUp ++ writesAndDeletes ++ [.step 6 .noon])
    (by decide +kernel)
  have hbob : ∃ w ∈ run World.step .init (loadHome ++ bobSignsUp ++ writesAndDeletes),
      w.site.user 1 = .str "bob" ∧ (w.task 6).map (fun t => t.1.session) = some 1 ∧
        RemovesComment w (.step 6 .noon) := by decide +kernel
  obtain ⟨w, hrun, huser, hsession, hremoves⟩ := hbob
  obtain ⟨p, now, c, id, q, next, hl, htask, -, hadmin⟩ :=
    (always_concat.mp hdelete).2 w hrun hremoves
  cases hl
  rw [htask, Option.map_some, Option.some.injEq] at hsession
  rw [show c.session = 1 from hsession, huser] at hadmin
  exact absurd hadmin (by decide)

end WebServerl
