import WebServerl.Site.Uses
import WebServerl.Site.World

/-! The postbacks of the pages.  Whatever a page shows, its `event/1` has a clause for it, and so in
every run a session has been sent only postbacks that the page it got them from can handle. -/

namespace WebServerl

open Erlang Erlang.Mnesia Machine

/-- `event/1` of the page has a clause for the postback. -/
def Page.Handles (page : Page) (pb : Postback) : Prop := ∀ q, page.event pb q ≠ .crash

/-- The postbacks of `admin_place/0` and `header/0`. -/
def navigation : List Postback :=
  [.logout, .home, .portrait, .nature, .reportage, .aboutMe, .guestbook]

section Parts

variable {good : Postback → Prop}

theorem returns_adminPlace_postbacks :
    adminPlace.Returns fun es => ∀ pb ∈ postbacksOf es, pb = .logout := by
  refine (Program.Returns.any user).bind fun u _ => ?_
  split
  · intro pb
    simp [postbacksOf, Element.postbacks]
  · intro pb
    simp [postbacksOf]

theorem postbacks_header : ∀ pb ∈ postbacksOf header, pb ∈ navigation := by
  intro pb hpb
  apply List.mem_cons_of_mem
  simpa [header, dot, postbacksOf, Element.postbacks] using hpb

theorem postbacks_footer : postbacksOf footer = [] := by
  simp [footer, postbacksOf, Element.postbacks]

/-- A page of the template shows its navigation and what its `body/0` shows. -/
theorem returns_template (hnav : ∀ pb ∈ navigation, good pb) {body : Code Body}
    (hbody : body.Returns fun b => ∀ pb ∈ postbacksOf b.elements, good pb) :
    (template body).Returns fun r => ∀ pb ∈ r.postbacks, good pb := by
  refine returns_adminPlace_postbacks.bind fun admin hadmin => hbody.bind fun b hb pb hpb => ?_
  simp only [Response.postbacks, postbacksOf_append, postbacks_footer, List.append_nil,
    List.mem_append] at hpb
  rcases hpb with (hpb | hpb) | hpb
  · rw [hadmin pb hpb]
    exact hnav _ (by simp [navigation])
  · exact hnav pb (postbacks_header pb hpb)
  · exact hb pb hpb

/-- The list of a view shows what its parts show. -/
theorem returns_mapM {α : Type} {f : α → Code (List Element)}
    (hf : ∀ a, (f a).Returns fun es => ∀ pb ∈ postbacksOf es, good pb) (l : List α) :
    (l.mapM f).Returns fun ess => ∀ pb ∈ postbacksOf ess.flatten, good pb := by
  refine (Program.Returns.mapM fun a _ => hf a).mono fun ess h pb hpb => ?_
  obtain ⟨es, hes, hmem⟩ := (mem_postbacksOf_flatten ess).mp hpb
  exact h es hes pb hmem

end Parts

/-- The actions of an event that asks the visitor nothing. -/
def Silent (l : List Action) : Prop := l.flatMap Action.postbacks = []

theorem silent_navigate (pb : Postback) : (navigate pb).Returns Silent := by
  cases pb with
  | logout => exact fun _ => rfl
  | save | delete _ | login | done | doneOk | confirmOk => trivial
  | _ => rfl

theorem Guestbook.silent_event (pb : Postback) (q : Params) : (event pb q).Returns Silent := by
  cases pb with
  | save => exact (Program.Returns.any (call .dbComment _)).bind fun _ _ => rfl
  | delete id => exact (Program.Returns.any (call .dbComment _)).bind fun _ _ => rfl
  | _ =>
    rw [event_eq_navigate (by simp) (by simp)]
    exact silent_navigate _

theorem Contact.silent_event (pb : Postback) (q : Params) : (event pb q).Returns Silent := by
  cases pb with
  | save => exact (Program.Returns.any (call .dbMessage _)).bind fun _ _ => rfl
  | _ =>
    rw [event_eq_navigate (by simp)]
    exact silent_navigate _

theorem Login.silent_event (pb : Postback) (q : Params) : (event pb q).Returns Silent := by
  cases pb with
  | login =>
    refine (Program.Returns.any (call .dbLogin _)).bind fun reply _ => ?_
    split
    · exact fun _ => rfl
    · rfl
    · trivial
  | logout => exact fun _ => rfl
  | _ => trivial

theorem CreateAccount.silent_event (pb : Postback) (q : Params) :
    (event pb q).Returns Silent := by
  cases pb with
  | save =>
    refine (Program.Returns.any (call .dbLogin _)).bind fun reply _ => ?_
    split
    · exact fun _ => rfl
    · trivial
  | _ => trivial

theorem LoginPage.silent_event (pb : Postback) : (event pb).Returns Silent := by
  cases pb with
  | logout => exact fun _ => rfl
  | _ => trivial

/-- Two clauses ask the visitor to confirm something. -/
theorem VisitorsAdmin.returns_event (pb : Postback) (q : Params) :
    (event pb q).Returns fun l => ∀ pb' ∈ l.flatMap Action.postbacks,
      pb' = .doneOk ∨ pb' = .confirmOk := by
  cases pb with
  | done => exact fun pb' hpb' => .inl (by simpa [Action.postbacks] using hpb')
  | save => exact fun pb' hpb' => .inr (by simpa [Action.postbacks] using hpb')
  | doneOk => exact List.forall_mem_nil _
  | confirmOk =>
    have hsave : (saveVisitor q).Returns Silent :=
      (Program.Returns.any (call .visitorsDb _)).bind fun _ _ => rfl
    refine hsave.bind fun redirect hredirect pb' hpb' => ?_
    rw [List.flatMap_append, hredirect] at hpb'
    simp [Action.postbacks] at hpb'
  | _ => trivial

/-! ### What the pages show -/

/-- The pages with `header/0`. -/
def Page.hasHeader : Page → Bool
  | .index | .guestbook | .contact | .nature | .portrait | .reportage => true
  | .login | .createAccount | .loginPage | .visitorsAdmin => false

theorem Page.handles_navigation {page : Page} (hpage : page.hasHeader = true) {pb : Postback}
    (h : pb ∈ navigation) : page.Handles pb := by
  simp only [navigation, List.mem_cons, List.not_mem_nil, or_false] at h
  cases page with
  | login | createAccount | loginPage | visitorsAdmin => cases hpage
  | _ => rcases h with rfl | rfl | rfl | rfl | rfl | rfl | rfl <;> exact fun q hq => by cases hq

theorem Guestbook.handles_pretty (c : Comment) :
    (pretty c).Returns fun es => ∀ pb ∈ postbacksOf es, Page.guestbook.Handles pb := by
  refine (Program.Returns.any user).bind fun u _ => ?_
  split
  · refine (Program.Returns.any (headline c.name c.time)).bind fun head _ pb hpb => ?_
    simp [postbacksOf, Element.postbacks] at hpb
  · refine (Program.Returns.any (headline c.name c.time)).bind fun head _ pb hpb => ?_
    simp only [postbacksOf, Element.postbacks, List.append_nil, List.nil_append,
      List.mem_singleton] at hpb
    subst hpb
    exact fun q hq => by cases hq

theorem Guestbook.handles_view (comments : List Comment) :
    (view comments).Returns fun ess =>
      ∀ pb ∈ postbacksOf ess.flatten, Page.guestbook.Handles pb := by
  unfold view
  split
  · exact List.forall_mem_nil _
  · exact returns_mapM handles_pretty _
  · exact returns_mapM handles_pretty _

theorem Guestbook.handles_body :
    body.Returns fun b => ∀ pb ∈ postbacksOf b.elements, Page.guestbook.Handles pb := by
  refine (Program.Returns.any (call .dbComment .dumpComments)).bind fun reply _ => ?_
  split
  · refine (handles_view _).bind fun ess hess pb hpb => ?_
    rw [postbacksOf_append, List.mem_append] at hpb
    rcases hpb with hpb | hpb
    · exact hess pb hpb
    · simp only [form, postbacksOf, Element.postbacks, List.append_nil, List.nil_append,
        List.mem_singleton] at hpb
      subst hpb
      exact fun q hq => by cases hq
  · trivial

theorem Contact.handles_pretty (m : Message) :
    (pretty m).Returns fun es => ∀ pb ∈ postbacksOf es, Page.contact.Handles pb := by
  refine (Program.Returns.any (headline m.name m.time)).bind fun head _ pb hpb => ?_
  simp [postbacksOf, Element.postbacks] at hpb

theorem Contact.handles_view (messages : List Message) :
    (view messages).Returns fun ess =>
      ∀ pb ∈ postbacksOf ess.flatten, Page.contact.Handles pb := by
  unfold view
  split
  · exact List.forall_mem_nil _
  · exact returns_mapM handles_pretty _
  · exact returns_mapM handles_pretty _

theorem Contact.handles_body :
    body.Returns fun b => ∀ pb ∈ postbacksOf b.elements, Page.contact.Handles pb := by
  refine (Program.Returns.any user).bind fun u _ => ?_
  split
  · intro pb hpb
    simp only [form, postbacksOf, Element.postbacks, List.append_nil, List.nil_append,
      List.mem_singleton] at hpb
    subst hpb
    exact fun q hq => by cases hq
  · refine (Program.Returns.any (call .dbMessage .dumpMessages)).bind fun reply _ => ?_
    split
    · exact (handles_view _).bind fun ess hess => hess
    · trivial

theorem Login.handles_main :
    main.Returns fun r => ∀ pb ∈ r.postbacks, Page.login.Handles pb := by
  refine returns_adminPlace_postbacks.bind fun admin hadmin => ?_
  have hbody : body.Returns fun b => ∀ pb ∈ postbacksOf b.elements, Page.login.Handles pb := by
    refine (Program.Returns.any user).bind fun u _ => ?_
    split
    · intro pb hpb
      simp only [postbacksOf, Element.postbacks, List.append_nil, List.nil_append,
        List.mem_singleton] at hpb
      subst hpb
      exact fun q hq => by cases hq
    · intro pb hpb
      simp only [postbacksOf, Element.postbacks, List.append_nil, List.nil_append,
        List.mem_singleton] at hpb
      subst hpb
      exact fun q hq => by cases hq
  refine hbody.bind fun b hb pb hpb => ?_
  simp only [Response.postbacks, postbacksOf_append, List.mem_append] at hpb
  rcases hpb with hpb | hpb
  · rw [hadmin pb hpb]
    exact fun q hq => by cases hq
  · exact hb pb hpb

theorem LoginPage.handles_main :
    main.Returns fun r => ∀ pb ∈ r.postbacks, Page.loginPage.Handles pb := by
  have hbody : body.Returns fun b =>
      ∀ pb ∈ postbacksOf b.elements, Page.loginPage.Handles pb := by
    refine (Program.Returns.any user).bind fun u _ => ?_
    split
    · intro pb hpb
      simp [postbacksOf, Element.postbacks] at hpb
    · intro pb hpb
      simp only [postbacksOf, Element.postbacks, List.append_nil, List.nil_append,
        List.mem_singleton] at hpb
      subst hpb
      exact fun q hq => by cases hq
  exact hbody.bind fun b hb => hb

theorem VisitorsAdmin.handles_main :
    main.Returns fun r => ∀ pb ∈ r.postbacks, Page.visitorsAdmin.Handles pb := by
  intro pb hpb
  simp [Response.postbacks, body1, timeDropdown, postbacksOf, Element.postbacks] at hpb
  rcases hpb with rfl | rfl <;> exact fun q hq => by cases hq

theorem CreateAccount.handles_main :
    main.Returns fun r => ∀ pb ∈ r.postbacks, Page.createAccount.Handles pb := by
  intro pb hpb
  simp [Response.postbacks, postbacksOf, Element.postbacks] at hpb
  subst hpb
  exact fun q hq => by cases hq

theorem Index.handles_body :
    body.Returns fun b => ∀ pb ∈ postbacksOf b.elements, Page.index.Handles pb := by
  refine (Program.Returns.any (start .visitorsDb)).bind fun _ _ => ?_
  refine (Program.Returns.any (start .dbLogin)).bind fun _ _ => ?_
  refine (Program.Returns.any (call .dbLogin _)).bind fun _ _ => ?_
  refine (Program.Returns.any (start .dbMessage)).bind fun _ _ => ?_
  exact (Program.Returns.any (start .dbComment)).bind fun _ _ => List.forall_mem_nil _

theorem Page.handles_main (page : Page) :
    page.main.Returns fun r => ∀ pb ∈ r.postbacks, page.Handles pb := by
  have hnav : page.hasHeader = true → ∀ pb ∈ navigation, page.Handles pb :=
    fun hpage _ => handles_navigation hpage
  cases page with
  | index => exact returns_template (hnav rfl) Index.handles_body
  | guestbook => exact returns_template (hnav rfl) Guestbook.handles_body
  | contact => exact returns_template (hnav rfl) Contact.handles_body
  | login => exact Login.handles_main
  | createAccount => exact CreateAccount.handles_main
  | loginPage => exact LoginPage.handles_main
  | visitorsAdmin => exact VisitorsAdmin.handles_main
  | nature | portrait | reportage =>
    refine returns_template (hnav rfl) fun pb hpb => ?_
    simp [postbacksOf, Element.postbacks] at hpb

theorem Page.handles_event (page : Page) (pb : Postback) (q : Params) :
    (page.event pb q).Returns fun l => ∀ pb' ∈ l.flatMap Action.postbacks, page.Handles pb' := by
  have hsilent : ∀ l, Silent l → ∀ pb' ∈ l.flatMap Action.postbacks, page.Handles pb' := by
    intro l hl pb' hpb'
    rw [hl] at hpb'
    cases hpb'
  cases page with
  | guestbook => exact (Guestbook.silent_event pb q).mono hsilent
  | contact => exact (Contact.silent_event pb q).mono hsilent
  | login => exact (Login.silent_event pb q).mono hsilent
  | createAccount => exact (CreateAccount.silent_event pb q).mono hsilent
  | loginPage => exact (LoginPage.silent_event pb).mono hsilent
  | visitorsAdmin =>
    refine (VisitorsAdmin.returns_event pb q).mono fun l hl pb' hpb' => ?_
    rcases hl pb' hpb' with rfl | rfl <;> exact fun q hq => by cases hq
  | index | nature | portrait | reportage => exact (silent_navigate pb).mono hsilent

/-- Whatever a page answers to a request, it has a clause for each postback that it shows. -/
theorem Job.handles_code (job : Job) :
    job.code.Returns fun r => ∀ pb ∈ r.postbacks, job.page.Handles pb := by
  cases job with
  | load page => exact page.handles_main
  | post page pb q => exact (page.handles_event pb q).bind fun _ hl => hl

section Model

variable [Crypto] [Ets] {ls : List Label} {w : World}

/-- What holds of each postback that a page can show holds of those that have been shown. -/
theorem World.shown_of_code {good : Page → Postback → Prop}
    (hgood : ∀ job : Job, job.code.Returns fun r => ∀ pb ∈ r.postbacks, good job.page pb)
    (hrun : run World.step .init ls = some w) :
    ∀ s, ∀ sent ∈ w.site.shown s, good sent.page sent.postback := by
  refine run_induction (G := fun _ _ => True) (P := fun _ (w : World) => ∀ s,
    ∀ sent ∈ w.site.shown s, good sent.page sent.postback) (fun s => List.forall_mem_nil _)
    (fun ls w₁ l w₂ hrun₁ hP _ hstep => ?_) hrun (always_true _ _)
  rcases World.step_cases hstep with ⟨p, s, job, -, -, rfl⟩ | ⟨p, now, c, o, next, -, -, -, rfl⟩ |
    ⟨p, c, r, -, -, htask, rfl⟩ | ⟨p, normal, -, -, rfl⟩ | ⟨S, now, -, rfl⟩
  · exact hP
  · intro s sent hsent
    refine hP s sent ?_
    cases o <;> exact hsent
  · intro s sent hsent
    by_cases hs : s = c.session
    · subst hs
      simp only [Site.deliver, Function.update_self, List.mem_append, List.mem_map] at hsent
      rcases hsent with hsent | ⟨pb, hpb, rfl⟩
      · exact hP _ sent hsent
      · exact (hgood c.job).of_residual (World.residual hrun₁ htask) pb hpb
    · exact hP s sent (by simpa [Site.deliver, hs] using hsent)
  · exact hP
  · exact hP

/-- In every run, the pages have a clause for each postback that a session has been sent. -/
theorem postbacks_handled (hrun : run World.step .init ls = some w) :
    ∀ s, ∀ sent ∈ w.site.shown s, sent.page.Handles sent.postback :=
  World.shown_of_code Job.handles_code hrun

end Model

/-! Somebody looks at the pictures of nature. -/

def looksAtNature : List Label := [.request 0 0 (.load .nature), .step 0 .noon, .respond 0]

theorem postbacks_handled_nature :
    let _ := Crypto.sample
    let _ := Ets.asKept
    ∃ w ∈ run World.step .init looksAtNature,
      ⟨.nature, .guestbook, 0⟩ ∈ w.site.shown 0 ∧ Page.nature.Handles .guestbook := by
  intro _ _
  have hrun : ∃ w ∈ run World.step .init looksAtNature,
      ⟨.nature, .guestbook, 0⟩ ∈ w.site.shown 0 := by decide +kernel
  obtain ⟨w, hw, hsent⟩ := hrun
  exact ⟨w, hw, hsent, postbacks_handled hw 0 _ hsent⟩

end WebServerl
