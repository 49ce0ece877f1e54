import WebServerl.Site.Authentication
import WebServerl.Site.Requests
import WebServerl.Site.Views
import WebServerl.Store.SavedMessages

/-! The messages of the contact page: each form that is sent is stored, under the number of its
turn, and the page shows the messages in the order of their turns. -/

namespace WebServerl

open Erlang Erlang.Mnesia Machine DbMessage

/-- The form that a request sends to the contact page. -/
def Job.contactForm? : Job → Option Params
  | .post .contact .save q => some q
  | _ => none

theorem Job.contactForm?_eq_some {job : Job} {q : Params} :
    job.contactForm? = some q ↔ job = .post .contact .save q := by
  constructor
  · intro h
    unfold contactForm? at h
    split at h
    · cases h
      rfl
    · cases h
  · rintro rfl
    rfl

/-- What is in a form, when it is saved. -/
def savedForm (q : Params) (now : DateTime) : Saved := ⟨q "name", q "mail", q "message", now⟩

/-- The form of the contact page with which a step of its event gets to `db_message`. -/
def World.contactSave (w : World) : Label → Option Saved
  | .step p now =>
    match w.task p with
    | some (c, .perform _ _) =>
      if w.site.node.server .dbMessage = .down then none
      else c.job.contactForm?.map fun q => savedForm q now
    | _ => none
  | _ => none

/-- The request that `contact:event(save)` makes for a form. -/
def addForm (q : Params) : DbMessage.Request := .addMessage (q "name") (q "mail") (q "message")

section Model

variable [Crypto] [Ets] {ls : List Label} {w : World}

/-- The forms of the contact page in a run, in the order in which `db_message` handled the saves. -/
def World.contactSaves (ls : List Label) : List Saved :=
  observe World.step World.contactSave .init ls

/-- The messages that `db_message` has saved in a run, in the order in which it did. -/
def World.savedMessages (ls : List Label) : List Saved :=
  saves (World.init.requests .dbMessage ls)

/-- No page removes messages. -/
theorem messages_not_removed (hrun : run World.step .init ls = some w) :
    ∀ i ∈ World.init.requests .dbMessage ls, ∀ key, i.1 ≠ .remove key := by
  intro i hi key hkey
  obtain ⟨p, s, job, -, hjob⟩ := World.performed hrun hi
  have hmay := hjob.mayUse
  rw [hkey] at hmay
  exact absurd (Job.mayUse_remove (S := .dbMessage) hmay rfl).1 nofun

/-- The messages of the table are those saved. -/
theorem messages_numbered (hrun : run World.step .init ls = some w)
    (hstop : ∀ S now, .stop S now ∉ ls) :
    (w.site.table .dbMessage).rows.Perm (numbered (World.savedMessages ls)) := by
  rw [World.table_of_requests hrun hstop]
  exact rows_of_saves (messages_not_removed hrun)

/-- A message has the fields of a form that a session has sent. -/
theorem savedMessages_requested (hrun : run World.step .init ls = some w) {saved : Saved}
    (h : saved ∈ World.savedMessages ls) :
    ∃ p s q, .request p s (.post .contact .save q) ∈ ls ∧ saved.name = q "name" ∧
      saved.mail = q "mail" ∧ saved.text = q "message" := by
  obtain ⟨⟨r, now⟩, hi, hsaved⟩ := List.mem_filterMap.mp h
  obtain ⟨p, s, job, hmem, hjob⟩ := World.performed hrun hi
  cases r with
  | addMessage name email message =>
    cases hsaved
    obtain ⟨q, rfl, rfl, rfl, rfl⟩ := Job.performs_addMessage hjob
    exact ⟨p, s, q, hmem, rfl, rfl, rfl⟩
  | remove key => cases hsaved
  | dumpMessages => cases hsaved

theorem messages_strings (hrun : run World.step .init ls = some w)
    (hstop : ∀ S now, .stop S now ∉ ls)
    (hstr : ∀ p s q, .request p s (.post .contact .save q) ∈ ls → (q "name").IsString) :
    ∀ row ∈ w.site.table .dbMessage, row.name.IsString ∧ row.time.IsString := by
  intro row hrow
  obtain ⟨n, saved, hn, rfl⟩ :=
    mem_numbered.mp ((messages_numbered hrun hstop).mem_iff.mp hrow)
  obtain ⟨p, s, q, hmem, hname, -, -⟩ :=
    savedMessages_requested hrun (List.mem_of_getElem? hn)
  refine ⟨?_, Term.isString_str _⟩
  show saved.name.IsString
  rw [hname]
  exact hstr p s q hmem

omit [Crypto] [Ets] in
theorem contact_code (q : Params) : (Job.post .contact .save q).code =
    (call .dbMessage (addForm q) >>= fun _ => return .actions [.redirect "/"]) :=
  bind_assoc _ _ _

/-- A process that saves a form has its one call to make, or has made it. -/
theorem contact_task (hrun : run World.step .init ls = some w) {p : Pid} {c : Ctx}
    {g : Code Response} (htask : w.task p = some (c, g)) {q : Params}
    (hjob : c.job = .post .contact .save q) :
    (∃ next, g = .perform (.call .dbMessage (addForm q)) next ∧
      next (some .ok) = .done (.actions [.redirect "/"]) ∧ next none = .crash) ∨
    g = .done (.actions [.redirect "/"]) ∨ g = .crash := by
  have hres := World.residual hrun htask
  rw [hjob, contact_code] at hres
  rcases call_residual hres with rfl | hdone | hcrash
  · exact .inl ⟨_, rfl, rfl, rfl⟩
  · exact .inr (.inl hdone)
  · exact .inr (.inr hcrash)

/-- A message is saved where a form is handled, and nowhere else. -/
theorem contactSave_eq (hrun : run World.step .init ls = some w) {l : Label} {w' : World}
    (hstep : w.step l = some w') :
    w.contactSave l = (w.handled .dbMessage l).bind saved? := by
  rcases World.step_cases hstep with ⟨p, s, job, rfl, -, -⟩ |
    ⟨p, now, c, o, next, rfl, hlive, htask, -⟩ | ⟨p, c, r, rfl, -, -, -⟩ |
    ⟨p, normal, rfl, -, -⟩ | ⟨S, now, rfl, -⟩
  · rfl
  · simp only [World.contactSave, World.handled, hlive, htask]
    cases hform : c.job.contactForm? with
    | some q =>
      rcases contact_task hrun htask (Job.contactForm?_eq_some.mp hform) with
        ⟨next', heq, -, -⟩ | heq | heq
      · cases heq
        by_cases hdown : w.site.node.server .dbMessage = .down
        · simp [Site.handles, hdown]
        · simp [Site.handles, hdown, addForm, saved?, savedForm]
      · cases heq
      · cases heq
    | none =>
      -- any other request saves nothing
      have hnone : (w.site.handles .dbMessage o now).bind saved? = none := by
        rw [Option.bind_eq_none_iff]
        intro i hi
        obtain ⟨rfl, -, -⟩ := Site.handles_eq_some hi
        obtain ⟨r, now'⟩ := i
        cases r with
        | addMessage name email message =>
          have hperforms := (c.job.code_performs.of_residual (World.residual hrun htask)).1
          obtain ⟨q, hjob, -, -, -⟩ := Job.performs_addMessage hperforms
          rw [Job.contactForm?_eq_some.mpr hjob] at hform
          cases hform
        | remove key => rfl
        | dumpMessages => rfl
      rw [hnone]
      simp
  · rfl
  · rfl
  · rfl

theorem contactSaves_eq (hrun : run World.step .init ls = some w) :
    World.contactSaves ls = World.savedMessages ls := by
  refine run_induction (P := fun ls _ => World.contactSaves ls = World.savedMessages ls) rfl
    (fun ls w₁ l w₂ hrun₁ ih _ hstep => ?_) hrun (always_true _ _)
  have hsaved : (w₁.contactSave l).toList = saves (w₁.handled .dbMessage l).toList := by
    rw [contactSave_eq hrun₁ hstep]
    cases w₁.handled .dbMessage l with
    | none => rfl
    | some i => cases hi : saved? i <;> simp [saves, hi]
  rw [World.contactSaves, World.savedMessages, World.requests, observe_concat hrun₁ hstep,
    observe_concat hrun₁ hstep, saves, List.filterMap_append, hsaved]
  exact congrArg (· ++ _) ih

/-- The event of a form, from its one request to the redirect. -/
theorem Contact.eval_save {site : Site} (hready : site.node.Ready)
    (hup : site.node.server .dbMessage ≠ .down) {l : List Saved}
    (hrows : (site.table .dbMessage).rows.Perm (numbered l)) (c : Ctx) (q : Params)
    (now : DateTime) : ∃ site',
      site.exec c (.call .dbMessage (addForm q)) now = (some .ok, site') ∧
      site.eval c now (Contact.event .save q) = (some [.redirect "/"], site') ∧
      (site'.table .dbMessage).rows.Perm (numbered (l ++ [savedForm q now])) := by
  have hT := Site.table_some hready hup
  have hcall := Node.call_apply hup hT (addForm q) now
  have hok : (Store.dbMessage.answer (addForm q) now (site.table .dbMessage)).1 = .ok :=
    congrArg Prod.fst (answer_add_next hrows)
  rw [hok] at hcall
  refine ⟨_, ?_, Site.eval_call_some hcall _, ?_⟩
  · simp only [Site.exec, hcall]
  · rw [Site.table_of (Db.table?_setTable_self hT _)]
    exact answer_numbered hrows (addForm q, now) fun key hkey => by cases hkey

/-- If a process that saves a form has come to its end after `ls`, the form was handled, or
`db_message` was not there. -/
def FormEnded (ls : List Label) (q : Params) (g : Code Response) : Prop :=
  (∀ r, g = .done r → ∃ now, savedForm q now ∈ World.contactSaves ls) ∧
    (g = .crash → ∃ before w, before <+: ls ∧ run World.step .init before = some w ∧
      w.site.node.server .dbMessage = .down)

namespace FormEnded

variable {l : Label} {w' : World} {q : Params}

theorem concat (hrun : run World.step .init ls = some w) (hstep : w.step l = some w')
    {g : Code Response} (h : FormEnded ls q g) : FormEnded (ls ++ [l]) q g := by
  refine ⟨fun r hr => ?_, fun hcrash => ?_⟩
  · obtain ⟨now, hmem⟩ := h.1 r hr
    refine ⟨now, ?_⟩
    rw [World.contactSaves, observe_concat hrun hstep]
    exact List.mem_append_left _ hmem
  · obtain ⟨before, w₁, hbefore, hrun₁, hdown⟩ := h.2 hcrash
    exact ⟨before, w₁, hbefore.trans (List.prefix_append ls [l]), hrun₁, hdown⟩

/-- The one call of the process is the handling of its form. -/
theorem of_step (hrun : run World.step .init ls = some w) (hstop : ∀ S now, .stop S now ∉ ls)
    {p : Pid} {c : Ctx} {o : Op} {next : o.Res → Code Response} {now : DateTime}
    (htask : w.task p = some (c, .perform o next)) (hjob : c.job = .post .contact .save q)
    (hstep : w.step (.step p now) = some w') :
    FormEnded (ls ++ [.step p now]) q (next (w.site.exec c o now).1) := by
  rcases contact_task hrun htask hjob with ⟨next', heq, hok, hnone⟩ | heq | heq
  · cases heq
    by_cases hdown : w.site.node.server .dbMessage = .down
    · rw [Site.exec, Node.call_down hdown, hnone]
      refine ⟨fun r hr => ?_, fun _ => ⟨ls, w, List.prefix_append ls _, hrun, hdown⟩⟩
      cases hr
    · obtain ⟨site, hexec, -, -⟩ := Contact.eval_save (World.ready hrun hstop) hdown
        (messages_numbered hrun hstop) c q now
      rw [hexec, hok]
      refine ⟨fun _ _ => ⟨now, ?_⟩, fun hcrash => ?_⟩
      · rw [World.contactSaves, observe_concat hrun hstep, World.contactSave, htask]
        simp [hdown, Job.contactForm?_eq_some.mpr hjob]
      · cases hcrash
  · cases heq
  · cases heq

end FormEnded

theorem contact_ended (hrun : run World.step .init ls = some w)
    (hstop : ∀ S now, .stop S now ∉ ls) {p : Pid} {c : Ctx} {g : Code Response}
    (htask : w.task p = some (c, g)) {q : Params} (hjob : c.job = .post .contact .save q) :
    FormEnded ls q g := by
  have hall : (∀ S now, .stop S now ∉ ls) → ∀ p c g, w.task p = some (c, g) → ∀ q,
      c.job = .post .contact .save q → FormEnded ls q g := by
    refine run_induction (P := fun ls w => (∀ S now, .stop S now ∉ ls) → ∀ p c g,
      w.task p = some (c, g) → ∀ q, c.job = .post .contact .save q → FormEnded ls q g)
      nofun (fun ls w₁ l w₂ hrun₁ ih _ hstep hstop => ?_) hrun (always_true _ _)
    have hstop₁ : ∀ S now, .stop S now ∉ ls := fun S now hmem =>
      hstop S now (List.mem_append_left _ hmem)
    have hold : ∀ p c g, w₁.task p = some (c, g) → ∀ q, c.job = .post .contact .save q →
        FormEnded (ls ++ [l]) q g := fun p c g hp q hjob =>
      (ih hstop₁ p c g hp q hjob).concat hrun₁ hstep
    rcases World.step_cases hstep with ⟨p, s, job, rfl, -, rfl⟩ |
      ⟨p, now, c, o, next, rfl, -, htask, rfl⟩ | ⟨p, c, r, rfl, -, -, rfl⟩ |
      ⟨p, normal, rfl, -, rfl⟩ | ⟨S, now, rfl, rfl⟩
    · refine forall_update hold ?_
      rintro c g ⟨⟩ q hjob
      rw [Site.ctx_job] at hjob
      rw [hjob, contact_code]
      exact ⟨nofun, nofun⟩
    · refine forall_update hold ?_
      rintro c' g ⟨⟩ q hjob
      exact .of_step hrun₁ hstop₁ htask hjob hstep
    · exact forall_update hold nofun
    · exact forall_update hold nofun
    · exact hold
  exact hall hstop p c g htask q hjob

end Model

/-! Two visitors write to the photographer, and Bob reads what they wrote. -/

def messageForm (name mail message : String) : Params := fun field =>
  if field = "name" then .str name else if field = "mail" then .str mail
  else if field = "message" then .str message else .undefined

def twoMessages : List Label :=
  [.request 3 3 (.post .contact .save (messageForm "Ann" "ann@example.org" "hello")),
    .request 4 4 (.post .contact .save (messageForm "Cid" "cid@example.org" "hi")),
    .step 4 .noon, .step 3 .noon, .respond 3, .respond 4]

def cidThenAnn : List Message :=
  [⟨.int 1, .str "cid@example.org", .str "Cid", .str "hi", .str "1.5.2018"⟩,
    ⟨.int 2, .str "ann@example.org", .str "Ann", .str "hello", .str "1.5.2018"⟩]

attribute [local instance] Crypto.sample Ets.asKept

end WebServerl
