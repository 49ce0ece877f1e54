import WebServerl.Site.Authentication
import WebServerl.Site.Eval
import WebServerl.Site.Messages

/-! The three forms whose contents are to be stored.  Their events do not look at the reply of the
store, so that they end with the same redirect whether the row has been added or refused. -/

namespace WebServerl

open Erlang Erlang.Mnesia Machine

/-- The forms of the guestbook, the contact page and the visitors' page. -/
inductive Form where
  | guestbook
  | contact
  | visitors
  deriving DecidableEq

namespace Form

abbrev store : Form → Store
  | guestbook => .dbComment
  | contact => .dbMessage
  | visitors => .visitorsDb

/-- The request by which the form is submitted. -/
def job (q : Params) : Form → Job
  | guestbook => .post .guestbook .save q
  | contact => .post .contact .save q
  | visitors => .post .visitorsAdmin .confirmOk q

def event (q : Params) : Form → Code (List Action)
  | guestbook => Guestbook.event .save q
  | contact => Contact.event .save q
  | visitors => VisitorsAdmin.event .confirmOk q

/-- Where the event leads when it succeeds. -/
def target : Form → String
  | guestbook => "/guestbook"
  | contact => "/"
  | visitors => "/"

def fields : Form → List String
  | guestbook => ["name", "message"]
  | contact => ["name", "mail", "message"]
  | visitors => ["name", "city"]

/-- What a row has of the fields. -/
def values : (f : Form) → f.store.Row → List Term
  | guestbook => fun (c : Comment) => [c.name, c.message]
  | contact => fun (m : Message) => [m.name, m.mail, m.message]
  | visitors => fun (v : Visitor) => [v.name, v.city]

/-- The table has a row with exactly the fields submitted. -/
def Saved (f : Form) (q : Params) (T : Table f.store.Row) : Prop :=
  ∃ row ∈ T, f.values row = f.fields.map q

/-- What the event asks of the store. -/
def request (q : Params) : (f : Form) → f.store.Request
  | guestbook => .addComment (q "name") (q "message")
  | contact => .addMessage (q "name") (q "mail") (q "message")
  | visitors => .insertVisitor (q "name") (q "city")

def actions : Form → List Action
  | guestbook => [.redirect "/guestbook"]
  | contact => [.redirect "/"]
  | visitors => [.redirect "/", .clearValidation, .update "inner_body" VisitorsAdmin.innerBody]

/-- The row with the submitted fields, for a table that it may be refused by. -/
def newRow (q : Params) (now : DateTime) : (f : Form) → Table f.store.Row → f.store.Row
  | guestbook, T => DbComment.newRow T.size (q "name") (q "message") now
  | contact, T => DbMessage.newRow T.size (q "name") (q "mail") (q "message") now
  | visitors, _ => VisitorsDb.newRow (q "name") (q "city") now

/-- The key of that row is unused, or there is a row with these fields already. -/
def Accepts (q : Params) : (f : Form) → Table f.store.Row → Prop
  | guestbook, T => .int (T.size + 1) ∉ T.keys ∨ Form.guestbook.Saved q T
  | contact, _ => True
  | visitors, T => q "name" ∉ T.keys ∨ Form.visitors.Saved q T

theorem redirect_mem_actions (f : Form) : .redirect f.target ∈ f.actions := by
  cases f <;> simp [actions, target]

section Model

variable [Crypto] [Ets] {c : Ctx} {q : Params} {now : DateTime} {w : Site}

omit [Crypto] [Ets] in
theorem event_eq (f : Form) (q : Params) :
    f.event q = (WebServerl.call f.store (f.request q) >>= fun _ => return f.actions) := by
  cases f with
  | guestbook => rfl
  | contact => rfl
  | visitors => exact bind_assoc _ _ _

omit [Crypto] [Ets] in
theorem code_job (f : Form) (q : Params) :
    (f.job q).code =
      (WebServerl.call f.store (f.request q) >>= fun _ => return .actions f.actions) := by
  have hcode : (f.job q).code = (f.event q >>= fun l => return .actions l) := by cases f <;> rfl
  rw [hcode, event_eq, bind_assoc]
  rfl

/-- The store is asked to insert a row with the submitted fields. -/
theorem answer_request (f : Form) (q : Params) (now : DateTime) (T : Table f.store.Row) :
    f.store.answer (f.request q) now T = insertRow (f.newRow q now T) T := by
  cases f <;> rfl

omit [Crypto] [Ets] in
theorem values_newRow (f : Form) (q : Params) (now : DateTime) (T : Table f.store.Row) :
    f.values (f.newRow q now T) = f.fields.map q := by
  cases f <;> rfl

/-- A row with the submitted fields is there afterwards if the new one was not refused, or if one
was there before. -/
theorem saved_answer (f : Form) (q : Params) (now : DateTime) (T : Table f.store.Row) :
    f.Saved q (f.store.answer (f.request q) now T).2 ↔
      Record.key (f.newRow q now T) ∉ T.keys ∨ f.Saved q T := by
  rw [answer_request]
  constructor
  · rintro ⟨row, hrow, hvalues⟩
    rcases mem_insertRow.mp hrow with hold | ⟨hnew, rfl⟩
    · exact .inr ⟨row, hold, hvalues⟩
    · exact .inl hnew
  · rintro (hnew | ⟨row, hold, hvalues⟩)
    · exact ⟨f.newRow q now T, mem_insertRow.mpr (.inr ⟨hnew, rfl⟩), f.values_newRow q now T⟩
    · exact ⟨row, mem_insertRow.mpr (.inl hold), hvalues⟩

theorem eval_down {f : Form} (hdown : w.node.server f.store = .down) :
    w.eval c now (f.event q) = (none, w) := by
  rw [event_eq]
  exact Site.eval_call_none (Node.call_down hdown (.request (f.request q)) now) _

/-- A server that is up answers, and the event ends with its redirect whatever the answer. -/
theorem eval_up (f : Form) (q : Params) (c : Ctx) (now : DateTime) (hready : w.node.Ready)
    (hup : w.node.server f.store ≠ .down) :
    ∃ w', w.eval c now (f.event q) = (some f.actions, w') ∧
      w'.table f.store = (f.store.answer (f.request q) now (w.table f.store)).2 := by
  have hT := Site.table_some hready hup
  rw [event_eq]
  refine ⟨_, Site.eval_call_some (Node.call_apply hup hT (f.request q) now) _, ?_⟩
  exact Site.table_of (Db.table?_setTable_self hT _)

omit [Crypto] [Ets] in
/-- The submission of a form is a single operation. -/
theorem perform_of_residual {f : Form} {o : Op} {next : o.Res → Code Response}
    (h : (f.job q).code.Residual (.perform o next)) : .perform o next = (f.job q).code := by
  rw [code_job] at h ⊢
  rcases call_residual h with heq | heq | heq
  · exact heq
  · cases heq
  · cases heq

/-- It ends with a response if the server is up, and has had the answer of the store by then. -/
theorem exec_submission {f : Form} {o : Op} {next : o.Res → Code Response}
    (h : .perform o next = (f.job q).code) (hready : w.node.Ready) (c : Ctx) (now : DateTime) :
    ((∃ r, next (w.exec c o now).1 = .done r) ↔ w.node.server f.store ≠ .down) ∧
      (w.node.server f.store ≠ .down → (w.exec c o now).2.table f.store =
        (f.store.answer (f.request q) now (w.table f.store)).2) := by
  rw [code_job] at h
  cases h
  by_cases hdown : w.node.server f.store = .down
  · have hexec : (w.exec c (.call f.store (f.request q)) now).1 = none := by
      simp only [Site.exec, Node.call_down hdown]
    rw [hexec]
    refine ⟨iff_of_false ?_ (not_not.mpr hdown), fun hup => absurd hdown hup⟩
    rintro ⟨r, hr⟩
    cases hr
  · rw [Site.exec_reply hready hdown, Site.exec_handles hready, Site.handles_call hdown]
    exact ⟨iff_of_true ⟨_, rfl⟩ hdown, fun _ => rfl⟩

end Model

end Form

/-- A step that ends the work on a submission with a response leaves a row with its fields. -/
def SubmissionSaved [Crypto] [Ets] (w : World) : Label → Prop
  | .step p now => ∀ c o next, w.task p = some (c, .perform o next) → ∀ (f : Form) q,
    c.job = f.job q → ∀ w', w.step (.step p now) = some w' →
    (∃ r, w'.task p = some (c, .done r)) → f.Saved q (w'.site.table f.store)
  | _ => True

/-- A submission is handled only in a table that accepts it. -/
def acceptedOnly : Condition where
  operation c _ w := ∀ (f : Form) q, c.job = f.job q → w.node.server f.store ≠ .down →
    f.Accepts q (w.table f.store)

section Model

variable [Crypto] [Ets] {ls : List Label} {w : World}

/-- In the tables of the running site, only the forms of the guestbook and of the visitors can be
refused. -/
theorem saved_iff_accepts (hrun : run World.step .init ls = some w)
    (hstop : ∀ S now, .stop S now ∉ ls) (f : Form) (q : Params) (now : DateTime) :
    f.Saved q (f.store.answer (f.request q) now (w.site.table f.store)).2 ↔
      f.Accepts q (w.site.table f.store) := by
  rw [Form.saved_answer]
  cases f with
  | guestbook => exact .rfl
  | contact =>
    have hfree := DbMessage.next_id_free (messages_numbered hrun hstop)
    exact iff_of_true (.inl hfree) trivial
  | visitors => exact .rfl

theorem step_submission (hrun : run World.step .init ls = some w)
    (hstop : ∀ S now, .stop S now ∉ ls) {p : Pid} {now : DateTime} {c : Ctx} {o : Op}
    {next : o.Res → Code Response} (htask : w.task p = some (c, .perform o next)) {f : Form}
    {q : Params} (hjob : c.job = f.job q) {w' : World} (hstep : w.step (.step p now) = some w') :
    ((∃ r, w'.task p = some (c, .done r)) → f.Saved q (w'.site.table f.store)) ↔
      (w.site.node.server f.store ≠ .down → f.Accepts q (w.site.table f.store)) := by
  have hperform : .perform o next = (f.job q).code :=
    Form.perform_of_residual (hjob ▸ World.residual hrun htask)
  obtain ⟨hdone, htable⟩ := Form.exec_submission hperform (World.ready hrun hstop) c now
  obtain rfl := World.step_operation htask hstep
  simp only [Function.update_self, Option.some.injEq, Prod.mk.injEq, true_and]
  rw [hdone]
  refine imp_congr_right fun hup => ?_
  rw [htable hup]
  exact saved_iff_accepts hrun hstop f q now

theorem submissionSaved_iff (hrun : run World.step .init ls = some w)
    (hstop : ∀ S now, .stop S now ∉ ls) {l : Label} {w' : World} (hstep : w.step l = some w') :
    SubmissionSaved w l ↔ acceptedOnly.Meets w l := by
  cases l with
  | step p now =>
    constructor
    · intro h c o next htask f q hjob
      exact (step_submission hrun hstop htask hjob hstep).mp (h c o next htask f q hjob w' hstep)
    · intro h c o next htask f q hjob w'' hstep'
      exact (step_submission hrun hstop htask hjob hstep').mpr (h c o next htask f q hjob)
  | request p s job => exact iff_of_true trivial trivial
  | respond p => exact iff_of_true trivial fun _ _ _ => trivial
  | close p normal => exact iff_of_true trivial trivial
  | stop S now => exact iff_of_true trivial trivial

/-- In every state of a run in which nobody stops a store, an event of the three that ends with its
redirect leaves a row with the submitted fields exactly if the table accepts them, which the contact
page's always does; and all submissions of the run leave theirs exactly if each is accepted. -/
theorem submissions_saved_iff (hrun : run World.step .init ls = some w)
    (hstop : ∀ S now, .stop S now ∉ ls) :
    (∀ (f : Form) q c now,
      (∀ l w', w.site.eval c now (f.event q) = (some l, w') → .redirect f.target ∈ l →
        f.Saved q (w'.table f.store)) ↔
      (w.site.node.server f.store ≠ .down → f.Accepts q (w.site.table f.store))) ∧
    (Always World.step SubmissionSaved .init ls ↔
      Always World.step acceptedOnly.Meets .init ls) := by
  have hready := World.ready hrun hstop
  refine ⟨fun f q c now => ?_, ?_⟩
  · by_cases hdown : w.site.node.server f.store = .down
    · rw [Form.eval_down hdown]
      exact iff_of_true nofun fun hup => absurd hdown hup
    · obtain ⟨w', heval, htable⟩ := Form.eval_up f q c now hready hdown
      rw [heval, ← saved_iff_accepts hrun hstop f q now, ← htable]
      constructor
      · exact fun h _ => h _ _ rfl f.redirect_mem_actions
      · rintro h l w'' ⟨⟩ -
        exact h hdown
  · refine always_congr hrun fun before w₁ l w₂ hpre hbefore hstep => ?_
    have hquiet : ∀ S now, .stop S now ∉ before := by
      intro S now hmem
      exact hstop S now (hpre.subset (by simp [hmem]))
    exact submissionSaved_iff hbefore hquiet hstep

end Model

/-! Ann from Paris enters herself as a visitor, and another Ann, from Rome, does so after her: she
is sent to the home page like the first, and is not in the table. -/

def visitorForm (name city : String) : Params := fun field =>
  if field = "name" then .str name else if field = "city" then .str city else .undefined

def annEntered : List Label :=
  [.request 3 3 (.post .visitorsAdmin .confirmOk (visitorForm "Ann" "Paris")), .step 3 .noon,
    .respond 3]

attribute [local instance] Crypto.sample Ets.asKept

theorem annEntered_table :
    ∃ w ∈ run World.step .init (loadHome ++ annEntered),
      w.site.node.server .visitorsDb ≠ .down ∧
      (w.site.table .visitorsDb).rows = [VisitorsDb.newRow (.str "Ann") (.str "Paris") .noon] := by
  decide +kernel

theorem annEntered_running : ∀ S now, Label.stop S now ∉ loadHome ++ annEntered := by
  simp [loadHome, annEntered]

theorem submissions_saved_bob :
    ∃ w ∈ run World.step .init (loadHome ++ annEntered), ∀ l w',
      w.site.eval ⟨5, 5, Form.visitors.job (visitorForm "Bob" "Rome"), 0⟩ .noon
        (Form.visitors.event (visitorForm "Bob" "Rome")) = (some l, w') →
      .redirect "/" ∈ l →
      Form.visitors.Saved (visitorForm "Bob" "Rome") (w'.table .visitorsDb) := by
  obtain ⟨w, hw, -, hrows⟩ := annEntered_table
  obtain ⟨hevents, -⟩ := submissions_saved_iff hw annEntered_running
  refine ⟨w, hw, (hevents .visitors _ _ _).mpr fun _ => .inl fun hmem => ?_⟩
  obtain ⟨row, hrow, hname⟩ := KeyedTable.mem_keys.mp hmem
  rw [← KeyedTable.mem_rows, hrows, List.mem_singleton] at hrow
  rw [hrow] at hname
  exact absurd hname (by decide)

theorem submission_lost :
    ¬ ∀ ls w, run World.step .init ls = some w → (∀ S now, .stop S now ∉ ls) →
      ∀ (f : Form) q c now, (∀ field ∈ f.fields, (q field).IsString) → ∀ l w',
        w.site.eval c now (f.event q) = (some l, w') → .redirect f.target ∈ l →
        f.Saved q (w'.table f.store) := by
  intro h
  obtain ⟨w, hw, hup, hrows⟩ := annEntered_table
  let q := visitorForm "Ann" "Rome"
  have hstr : ∀ field ∈ Form.visitors.fields, (q field).IsString := by
    intro field hfield
    rcases List.mem_pair.mp hfield with rfl | rfl
    · exact Term.isString_str "Ann"
    · exact Term.isString_str "Rome"
  obtain ⟨w', heval, htable⟩ := Form.eval_up .visitors q ⟨5, 5, Form.visitors.job q, 0⟩ .noon
    (World.ready hw annEntered_running) hup
  have hsaved := h _ w hw annEntered_running .visitors q _ _ hstr _ w' heval
    (Form.redirect_mem_actions .visitors)
  rw [htable, Form.saved_answer] at hsaved
  have hann : VisitorsDb.newRow (.str "Ann") (.str "Paris") .noon ∈ w.site.table .visitorsDb := by
    rw [← KeyedTable.mem_rows, hrows]
    exact List.mem_singleton_self _
  rcases hsaved with hfree | ⟨row, hrow, hvalues⟩
  · exact hfree (KeyedTable.mem_keys.mpr ⟨_, hann, rfl⟩)
  · rw [← KeyedTable.mem_rows, hrows, List.mem_singleton] at hrow
    rw [hrow] at hvalues
    exact absurd hvalues (by decide)

end WebServerl
