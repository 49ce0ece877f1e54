import WebServerl.Site.Contract
import WebServerl.Site.Mail

/-! The site with its calls as messages refines the site whose calls are atomic, as long as no
process goes away from a request that is still in a mailbox. -/

namespace WebServerl

open Erlang Erlang.Mnesia Machine

abbrev AtomicCalls := Calls.Atomic Client Site Store.Asked Store.Told

/-- What a request process is at among the messages, and what the atomic site makes of it, by what
its call has come to. -/
inductive Follows : Option (Calls.Call Store.Asked Store.Told) → Option (Ctx × Code Response) →
    Option (Ctx × Code Response) → Prop where
  | free (t : Option (Ctx × Code Response)) : Follows none t t
  | pending (c : Ctx) (S : Store) (r : S.Request) (next : Op.Res (.call S r) → Code Response) :
      Follows (some (.pending S (.request r))) (some (c, .perform (.call S r) next))
        (some (c, .perform (.call S r) next))
  | answered (c : Ctx) (S : Store) (r : S.Request) (next : Op.Res (.call S r) → Code Response)
      (reply : Option S.Told) :
      Follows (some (.answered S reply)) (some (c, .perform (.call S r) next))
        (some (c, next reply))

structure Mirrors (task : Pool Pid Op Op.Res Ctx Response) (a : AtomicCalls) (w : World) :
    Prop where
  site : w.site = a.state
  task : ∀ p, w.site.node.live p = true → Follows (a.call (.worker p)) (task p) (w.task p)
  stop : ∀ k S r, a.call (.operator k) = some (.pending S r) → r = .stop

namespace Mirrors

variable {task : Pool Pid Op Op.Res Ctx Response} {a : AtomicCalls} {w : World}

/-- The call of one caller changes, and what the atomic site makes of it. -/
theorem update (h : Mirrors task a w) {p : Pid} {call : Option (Calls.Call Store.Asked Store.Told)}
    {t t' : Option (Ctx × Code Response)} (ht : Follows call t t') :
    Mirrors (Function.update task p t) (a.setCall (.worker p) call)
      { w with task := Function.update w.task p t' } where
  site := h.site
  task p' hlive := by
    by_cases hpp : p' = p
    · subst hpp
      simpa [Calls.Atomic.setCall] using ht
    · have hne : Client.worker p' ≠ .worker p := fun heq => hpp (Client.worker.inj heq)
      simpa [Calls.Atomic.setCall, hpp, hne] using h.task p' hlive
  stop k S r := by simpa [Calls.Atomic.setCall] using h.stop k S r

theorem update_call (h : Mirrors task a w) {p : Pid}
    {call : Option (Calls.Call Store.Asked Store.Told)} {t : Option (Ctx × Code Response)}
    (ht : Follows call t (w.task p)) :
    Mirrors (Function.update task p t) (a.setCall (.worker p) call) w := by
  have hupdate := h.update (p := p) ht
  rwa [Function.update_eq_self] at hupdate

/-- What a process comes to that has ended is not looked at. -/
theorem update_dead (h : Mirrors task a w) {p : Pid} (hdead : w.site.node.live p = false)
    (call : Option (Calls.Call Store.Asked Store.Told)) (t : Option (Ctx × Code Response)) :
    Mirrors (Function.update task p t) (a.setCall (.worker p) call) w where
  site := h.site
  task p' hlive := by
    have hpp : p' ≠ p := by
      rintro rfl
      rw [hdead] at hlive
      cases hlive
    have hne : Client.worker p' ≠ .worker p := fun heq => hpp (Client.worker.inj heq)
    simpa [Calls.Atomic.setCall, hpp, hne] using h.task p' hlive
  stop k S r := by simpa [Calls.Atomic.setCall] using h.stop k S r

theorem operator (h : Mirrors task a w) (k : Nat)
    (call : Option (Calls.Call Store.Asked Store.Told))
    (hcall : ∀ S r, call = some (.pending S r) → r = .stop) :
    Mirrors task (a.setCall (.operator k) call) w where
  site := h.site
  task p hlive := by simpa [Calls.Atomic.setCall] using h.task p hlive
  stop k' S r hr := by
    by_cases hk : k' = k
    · subst hk
      exact hcall S r (by simpa [Calls.Atomic.setCall] using hr)
    · have hne : Client.operator k' ≠ .operator k := fun heq => hk (Client.operator.inj heq)
      exact h.stop k' S r (by simpa [Calls.Atomic.setCall, hne] using hr)

/-- The site changes, and no process begins. -/
theorem change (h : Mirrors task a w) (site : Site)
    (hlive : ∀ p, site.node.live p = true → w.site.node.live p = true) :
    Mirrors task { a with state := site } { w with site := site } where
  site := rfl
  task p hp := h.task p (hlive p hp)
  stop := h.stop

end Mirrors

theorem Mail.event_receive {n : Mail} {x : Client} {S : Store} {reply : Option S.Told}
    (h : n.answer x S = some reply) :
    Calls.Net.event n (.receive x : MailStep) = some (.returned x S reply) := by
  unfold Mail.answer at h
  split at h
  · rename_i S' hcaller
    split at h
    · rename_i hS
      subst hS
      cases h
      simp only [Calls.Net.event, hcaller]
    · cases h
  · rename_i S' k ref hcaller
    split at h
    · rename_i hS
      subst hS
      simp only [Calls.Net.event, hcaller, h, Option.map_some]
    · cases h
  · cases h

section Model

variable [Crypto] [Ets]

namespace Mirrors

variable {task : Pool Pid Op Op.Res Ctx Response} {a : AtomicCalls} {w : World}

/-- A call to a dead server is answered. -/
theorem fail (h : Mirrors task a w) (x : Client) : ∃ w', w.Goes [] w' ∧
    Mirrors task (a.setCall x (Calls.fail servers a.state (a.call x))) w' := by
  by_cases hfail : Calls.fail servers a.state (a.call x) = a.call x
  · rw [hfail, Calls.Atomic.setCall_self rfl]
    exact ⟨w, .refl w, h⟩
  -- the call is pending, and its server is dead
  have hpending : ∃ S r, a.call x = some (.pending S r) ∧ a.state.node.server S = .down ∧
      Calls.fail servers a.state (a.call x) = some (.answered S none) := by
    unfold Calls.fail at hfail ⊢
    split at hfail
    · rename_i S r hcall
      split at hfail
      · exact absurd hcall.symm hfail
      · rename_i hdead
        have hdown : a.state.node.server S = .down := by simpa [servers] using hdead
        exact ⟨S, r, hcall, hdown, by simp [hdead]⟩
    · exact absurd rfl hfail
  obtain ⟨S, r, hcall, hdown, heq⟩ := hpending
  rw [heq]
  cases x with
  | operator k =>
    refine ⟨w, .refl w, h.operator k _ ?_⟩
    rintro S r ⟨⟩
  | worker p =>
    cases hlive : w.site.node.live p with
    | false =>
      have hdead := h.update_dead hlive (some (.answered S none)) (task p)
      exact ⟨w, .refl w, by simpa using hdead⟩
    | true =>
      have hfollows := h.task p hlive
      rw [hcall] at hfollows
      generalize htask : task p = t, htask' : w.task p = t' at hfollows
      cases hfollows with
      | pending c S r next =>
        have hsame : w.site.exec c (.call S r) .noon = (none, w.site) := by
          rw [← h.site] at hdown
          simp only [Site.exec, Node.call_down hdown]
        have hstep : w.step (.step p .noon) =
            some { w with task := Function.update w.task p (some (c, next none)) } := by
          simp [World.step, hlive, htask', hsame]
        have hupdate := h.update (p := p) (.answered c S r next none)
        rw [← htask, Function.update_eq_self] at hupdate
        exact ⟨_, .of_step hstep, hupdate⟩

theorem failAll (h : Mirrors task a w) (xs : List Client) : ∃ w', w.Goes [] w' ∧
    Mirrors task (a.failAll servers xs) w' := by
  induction xs generalizing a w with
  | nil => exact ⟨w, .refl w, by rwa [Calls.Atomic.failAll_nil]⟩
  | cons x xs ih =>
    obtain ⟨w₁, hgoes, h₁⟩ := h.fail x
    obtain ⟨w₂, hgoes', h₂⟩ := ih h₁
    rw [Calls.Atomic.failAll_cons]
    exact ⟨w₂, hgoes.trans hgoes', h₂⟩

end Mirrors

namespace MailWorld

/-- No request is in a mailbox that nobody waits for. -/
def Attended (m : MailWorld) : Prop :=
  ∀ S, ∀ e ∈ m.mail.mailbox S, m.live e.sender = true ∧
    ∃ k, m.mail.caller e.sender = .waiting S k e.ref

instance (n : Mail) (x : Client) (S : Store) (ref : Nat) :
    Decidable (∃ k, n.caller x = .waiting S k ref) :=
  match h : n.caller x with
  | .waiting S' k ref' =>
    decidable_of_iff (S' = S ∧ ref' = ref) (by simp)
  | .idle | .noproc _ | .found _ _ _ => .isFalse (by simp)

instance (m : MailWorld) : Decidable m.Attended :=
  inferInstanceAs (Decidable (∀ S, ∀ e ∈ m.mail.mailbox S, m.live e.sender = true ∧
    ∃ k, m.mail.caller e.sender = .waiting S k e.ref))

/-- What the atomic site shows of a step. -/
def shown (m : MailWorld) : Label → Option WebServerl.Label
  | .request p s job => some (.request p s job)
  | .handle S now =>
    match m.mail.mailbox S with
    | ⟨_, _, .stop⟩ :: _ => some (.stop S now)
    | _ => none
  | .respond p => some (.respond p)
  | .close p normal => some (.close p normal)
  | _ => none

end MailWorld

/-- The site with its messages, its atomic calls, and the site whose calls are atomic. -/
structure Mirrored (m : MailWorld) (a : AtomicCalls) (w : World) : Prop where
  refines : Calls.Refines servers m.mail a
  mirrors : Mirrors m.task a w

namespace Mirrored

open MailWorld

variable {m : MailWorld} {a a' : AtomicCalls} {w : World}

theorem site_eq (h : Mirrored m a w) : w.site = m.site :=
  h.mirrors.site.trans h.refines.state

theorem call_idle (h : Mirrored m a w) {x : Client} (hidle : m.idle x = true) :
    a.call x = none := by
  have hstands := h.refines.caller x
  unfold MailWorld.idle at hidle
  split at hidle
  · rename_i hcaller
    rwa [hcaller] at hstands
  · cases hidle

/-- A process without a call is at the same point of its code in both sites. -/
theorem task_eq (h : Mirrored m a w) {p : Pid} (hlive : m.site.node.live p = true)
    (hidle : m.idle (.worker p) = true) : w.task p = m.task p := by
  have hfollows := h.mirrors.task p (by rw [h.site_eq]; exact hlive)
  rw [h.call_idle hidle] at hfollows
  generalize m.task p = t, w.task p = t' at hfollows
  cases hfollows
  rfl

/-- A request process begins. -/
theorem request (h : Mirrored m a w) {p : Pid} {s : Session} {job : Job}
    (hdead : m.site.node.live p = false) (hidle : m.idle (.worker p) = true)
    {e : Option (Calls.Event Client Change Store.Asked Store.Told)}
    (hmoves : Calls.Moves servers (· = .change (.enter p)) a e a') :
    ∃ w', w.Goes [.request p s job] w' ∧ Mirrors
      (Function.update m.task p (some (m.site.ctx p s job, job.code))) a' w' := by
  obtain rfl := hmoves.change
  have hstep : w.step (.request p s job) = some ⟨w.site.enter p,
      Function.update w.task p (some (w.site.ctx p s job, job.code))⟩ := by
    simp [World.step, h.site_eq, hdead]
  refine ⟨_, .of_step hstep, ?_, fun p' hlive => ?_, h.mirrors.stop⟩
  · exact congrArg (Site.enter p) h.mirrors.site
  · by_cases hpp : p' = p
    · subst hpp
      have hcall : a.call (.worker p') = none := h.call_idle hidle
      simp only [hcall, Function.update_self, h.site_eq]
      exact .free _
    · have hlive' : w.site.node.live p' = true := by simpa [Site.enter, hpp] using hlive
      simpa [hpp] using h.mirrors.task p' hlive'

/-- An operation other than a call. -/
theorem operation (h : Mirrored m a w) {p : Pid} {now : DateTime} {c : Ctx} {o : Op}
    {next : o.Res → Code Response} (hlive : m.site.node.live p = true)
    (hidle : m.idle (.worker p) = true) (htask : m.task p = some (c, .perform o next))
    {e : Option (Calls.Event Client Change Store.Asked Store.Told)}
    (hmoves : Calls.Moves servers (· = .change (.perform c o now)) a e a') :
    ∃ w', w.Goes [] w' ∧ Mirrors
      (Function.update m.task p (some (c, next (m.site.exec c o now).1))) a' w' := by
  obtain rfl := hmoves.change
  have htask' := (h.task_eq hlive hidle).trans htask
  have hstep : w.step (.step p now) = some ⟨(w.site.exec c o now).2,
      Function.update w.task p (some (c, next (w.site.exec c o now).1))⟩ := by
    have hlive' : w.site.node.live p = true := by rwa [h.site_eq]
    simp [World.step, hlive', htask']
  refine ⟨_, .of_step hstep, ?_⟩
  have hupdate := (h.mirrors.change (w.site.exec c o now).2 fun _ => Site.exec_live).update
    (p := p) (.free (some (c, next (w.site.exec c o now).1)))
  rw [Calls.Atomic.setCall_self (a := { a with state := (w.site.exec c o now).2 })
    (h.call_idle hidle)] at hupdate
  rw [← h.site_eq]
  show Mirrors _ { a with state := (a.state.exec c o now).2 } _
  rwa [← h.mirrors.site]

/-- A process looks a server up. -/
theorem call (h : Mirrored m a w) {p : Pid} {c : Ctx} {S : Store} {r : S.Request}
    {next : Op.Res (.call S r) → Code Response} (hlive : m.site.node.live p = true)
    (htask : m.task p = some (c, .perform (.call S r) next))
    {e : Option (Calls.Event Client Change Store.Asked Store.Told)}
    (hmoves : Calls.Moves servers (· = .invoke (.worker p) S (.request r)) a e a') :
    Mirrors m.task a' w := by
  obtain ⟨hcall, rfl⟩ := hmoves.invoke
  have hfollows := h.mirrors.task p (by rw [h.site_eq]; exact hlive)
  rw [hcall, htask] at hfollows
  have ht : Follows (some (.pending S (.request r))) (m.task p) (w.task p) := by
    generalize w.task p = t' at hfollows
    rw [htask]
    cases hfollows
    exact .pending c S r next
  have hupdate := h.mirrors.update_call ht
  rwa [Function.update_eq_self] at hupdate

/-- A process takes the reply, or the news that the server is dead. -/
theorem receive (h : Mirrored m a w) {p : Pid} {c : Ctx} {S : Store} {r : S.Request}
    {next : Op.Res (.call S r) → Code Response} {reply : Option S.Told}
    (hlive : m.site.node.live p = true)
    (htask : m.task p = some (c, .perform (.call S r) next))
    (hmoves : Calls.Moves servers (· = .finish (.worker p)) a
      (some (.returned (.worker p) S reply)) a') :
    Mirrors (Function.update m.task p (some (c, next reply))) a' w := by
  obtain ⟨S', o, hcall, hevent, rfl⟩ := hmoves.finish
  cases hevent
  have hfollows := h.mirrors.task p (by rw [h.site_eq]; exact hlive)
  rw [hcall, htask] at hfollows
  refine h.mirrors.update_call ?_
  generalize w.task p = t' at hfollows
  cases hfollows
  exact .free _

/-- A server handles the request of a process that waits for it. -/
theorem handle_worker (h : Mirrored m a w) {p : Pid} {S : Store} {asked : S.Asked}
    (hlive : m.site.node.live p = true)
    (hcall : a.call (.worker p) = some (.pending S asked)) (now : DateTime) :
    asked ≠ .stop ∧ ∃ w', w.Goes [] w' ∧ Mirrors m.task
      { a.setCall (.worker p) (some (.answered S (servers.serve S asked now a.state).1)) with
        state := (servers.serve S asked now a.state).2 } w' := by
  have hlive' : w.site.node.live p = true := by rw [h.site_eq]; exact hlive
  have hfollows := h.mirrors.task p hlive'
  rw [hcall] at hfollows
  generalize htask : m.task p = t, htask' : w.task p = t' at hfollows
  cases hfollows with
  | pending c S r next =>
    refine ⟨nofun, ?_⟩
    have hstep : w.step (.step p now) = some ⟨(w.site.exec c (.call S r) now).2,
        Function.update w.task p (some (c, next (w.site.exec c (.call S r) now).1))⟩ := by
      simp [World.step, hlive', htask']
    refine ⟨_, .of_step hstep, ?_⟩
    have hupdate := (h.mirrors.change (w.site.exec c (.call S r) now).2 fun _ =>
      Site.exec_live).update (p := p) (.answered c S r next (w.site.exec c (.call S r) now).1)
    rw [← htask, Function.update_eq_self] at hupdate
    rw [← h.mirrors.site]
    exact hupdate

/-- A server handles the request of a process that stops it. -/
theorem handle_operator (h : Mirrored m a w) {k : Nat} {S : Store} {asked : S.Asked}
    (hcall : a.call (.operator k) = some (.pending S asked)) (now : DateTime) :
    asked = .stop ∧ ∃ w', w.Goes [.stop S now] w' ∧ Mirrors m.task
      { a.setCall (.operator k) (some (.answered S (servers.serve S asked now a.state).1)) with
        state := (servers.serve S asked now a.state).2 } w' := by
  obtain rfl := h.mirrors.stop k S asked hcall
  have hstep : w.step (.stop S now) = some { w with site := w.site.stop S now } := rfl
  refine ⟨rfl, _, .of_step hstep, ?_⟩
  have hchange := (h.mirrors.change (w.site.stop S now) fun _ => Node.call_live).operator k
    (some (.answered S (servers.serve S .stop now a.state).1)) (by rintro S r ⟨⟩)
  rw [← h.mirrors.site] at hchange ⊢
  exact hchange

/-- A server handles the first request in its mailbox. -/
theorem handle (h : Mirrored m a w) {S : Store} {now : DateTime} {mail : Mail}
    (hstep : m.mail.step servers (.handle S now) = some mail)
    {e : Option (Calls.Event Client Change Store.Asked Store.Told)}
    (hmoves : Calls.Moves servers (m.mail.moves (.handle S now)) a e a') (hatt : m.Attended) :
    ∃ w', w.Goes (m.shown (.handle S now)).toList w' ∧ Mirrors m.task a' w' := by
  cases hS : m.mail.mailbox S with
  | nil => simp [Calls.Net.step, hS] at hstep
  | cons letter rest =>
    obtain ⟨hlive, k, hwaits⟩ := hatt S letter (by simp [hS])
    obtain ⟨hcall, rfl⟩ := Calls.Moves.handle h.refines hS hwaits hmoves
    obtain ⟨x, ref, asked⟩ := letter
    cases x with
    | worker p =>
      obtain ⟨hasked, hgoes⟩ := h.handle_worker hlive hcall now
      have hshown : m.shown (.handle S now) = none := by
        cases asked with
        | request r => simp [MailWorld.shown, hS]
        | stop => exact absurd rfl hasked
      rw [hshown]
      exact hgoes
    | operator k =>
      obtain ⟨rfl, hgoes⟩ := h.handle_operator hcall now
      have hshown : m.shown (.handle S now) = some (.stop S now) := by
        simp [MailWorld.shown, hS]
      rw [hshown]
      exact hgoes

/-- A process sends its response. -/
theorem respond (h : Mirrored m a w) {p : Pid} {c : Ctx} {r : Response}
    (hlive : m.site.node.live p = true) (hidle : m.idle (.worker p) = true)
    (htask : m.task p = some (c, .done r))
    {e : Option (Calls.Event Client Change Store.Asked Store.Told)}
    (hmoves : Calls.Moves servers (· = .change (.deliver c r)) a e a') :
    ∃ w', w.Goes [.respond p] w' ∧ Mirrors (Function.update m.task p none) a' w' := by
  obtain rfl := hmoves.change
  have htask' := (h.task_eq hlive hidle).trans htask
  have hstep : w.step (.respond p) =
      some ⟨w.site.deliver c r, Function.update w.task p none⟩ := by
    have hlive' : w.site.node.live p = true := by rwa [h.site_eq]
    simp [World.step, hlive', htask']
  refine ⟨_, .of_step hstep, ?_⟩
  have hupdate := (h.mirrors.change (w.site.deliver c r) fun _ hp => hp).update
    (p := p) (.free none)
  rw [Calls.Atomic.setCall_self (a := { a with state := w.site.deliver c r })
    (h.call_idle hidle)] at hupdate
  show Mirrors _ { a with state := a.state.deliver c r } _
  rwa [← h.mirrors.site]

/-- A process ends, in the middle of a call or not. -/
theorem close (h : Mirrored m a w) {p : Pid} {normal : Bool} (hlive : m.site.node.live p = true)
    {e : Option (Calls.Event Client Change Store.Asked Store.Told)}
    (hmoves : Calls.Moves servers (· = .change (.exit p normal)) a e a') :
    ∃ w', w.Goes [.close p normal] w' ∧ Mirrors (Function.update m.task p none) a' w' := by
  obtain rfl := hmoves.change
  have hstep : w.step (.close p normal) =
      some ⟨w.site.exit p normal, Function.update w.task p none⟩ := by
    simp [World.step, h.site_eq, hlive]
  refine ⟨_, .of_step hstep, ?_⟩
  have hdead : (w.site.exit p normal).node.live p = false := by simp [Site.exit, Node.exit]
  refine ⟨congrArg (Site.exit p normal) h.mirrors.site, fun p' hp' => ?_, h.mirrors.stop⟩
  have hpp : p' ≠ p := by
    rintro rfl
    rw [hdead] at hp'
    cases hp'
  simpa [hpp] using h.mirrors.task p' (Node.exit_live normal hp')

/-- A caller gives up, which no process does that is alive. -/
theorem abandon (h : Mirrored m a w) {x : Client}
    (hdead : ∀ p, x = .worker p → m.site.node.live p = false)
    {e : Option (Calls.Event Client Change Store.Asked Store.Told)}
    (hmoves : Calls.Moves servers (∃ keep, · = .abandon x keep) a e a') :
    Mirrors m.task a' w := by
  obtain ⟨hstate, hcall⟩ := hmoves.abandon
  have hmirrors : Mirrors m.task (a.setCall x none) w := by
    cases x with
    | operator k => exact h.mirrors.operator k none nofun
    | worker p =>
      have hlive : w.site.node.live p = false := by
        rw [h.site_eq]
        exact hdead p rfl
      have hmirrors := h.mirrors.update_dead hlive none (m.task p)
      rwa [Function.update_eq_self] at hmirrors
  refine ⟨hmirrors.site.trans hstate.symm, ?_, ?_⟩
  · rw [hcall]
    exact hmirrors.task
  · rw [hcall]
    exact hmirrors.stop

/-- A process whose call times out leaves its request behind. -/
theorem not_attended (h : Mirrored m a w) {x : Client} {S : Store}
    (hwaits : m.mail.waits x S = true) {mail : Mail}
    (hstep : m.mail.step servers (.abandon x) = some mail)
    (task : Pool Pid Op Op.Res Ctx Response) : ¬ Attended ⟨mail, task⟩ := by
  intro hatt
  unfold Mail.waits at hwaits
  split at hwaits
  · rename_i S' k ref hcaller
    split at hwaits
    · rename_i hS
      subst hS
      have hlookup : (m.mail.inbox x S').lookup ref = none := by simpa using hwaits
      have hstands := h.refines.caller x
      rw [hcaller] at hstands
      rcases hstands.2 with ⟨e, he, rfl, rfl⟩ | ⟨o, ho, -⟩
      · simp only [Calls.Net.step, hcaller, Option.some.injEq] at hstep
        subst hstep
        obtain ⟨-, k', hk'⟩ := hatt S' e he
        simp [Calls.Net.setCaller] at hk'
      · rw [hlookup] at ho
        cases ho
    · cases hwaits
  · cases hwaits

theorem moves (h : Mirrored m a w) {l : MailWorld.Label} {k : MailStep}
    {task' : Pool Pid Op Op.Res Ctx Response} (hplan : m.plan l = some (k, task')) {mail : Mail}
    (hstep : m.mail.step servers k = some mail)
    (hmoves : Calls.Moves servers (m.mail.moves k) a (m.mail.event k) a')
    (hatt : m.Attended) (hatt' : Attended ⟨mail, task'⟩) :
    ∃ w', w.Goes (m.shown l).toList w' ∧ Mirrors task' a' w' := by
  cases l with
  | request p s job =>
    simp only [plan] at hplan
    split at hplan
    · cases hplan
    · rename_i hfree
      cases hplan
      simp only [Bool.or_eq_true, Bool.not_eq_true', not_or, Bool.not_eq_true,
        Bool.not_eq_false] at hfree
      exact h.request hfree.1 hfree.2 hmoves
  | step p now =>
    simp only [plan] at hplan
    split at hplan
    · cases hplan
    · rename_i c o next _ hfree htask
      cases hplan
      rw [Bool.and_eq_true] at hfree
      exact h.operation hfree.1 hfree.2 htask hmoves
    · cases hplan
  | call p =>
    simp only [plan] at hplan
    split at hplan
    · rename_i c S r next hlive htask
      cases hplan
      exact ⟨w, .refl w, h.call hlive htask hmoves⟩
    · cases hplan
  | stop k S =>
    cases hplan
    obtain ⟨-, rfl⟩ := hmoves.invoke
    refine ⟨w, .refl w, h.mirrors.operator k _ ?_⟩
    rintro S r ⟨⟩
    rfl
  | send x =>
    simp only [plan] at hplan
    split at hplan
    · cases hplan
      obtain rfl := hmoves.none
      exact ⟨w, .refl w, h.mirrors⟩
    · cases hplan
  | handle S now =>
    cases hplan
    exact h.handle hstep hmoves hatt
  | receive x =>
    cases x with
    | worker p =>
      simp only [plan] at hplan
      split at hplan
      · rename_i c S r next hlive htask
        obtain ⟨reply, hanswer, hplan⟩ := Option.map_eq_some_iff.mp hplan
        cases hplan
        rw [Mail.event_receive hanswer] at hmoves
        exact ⟨w, .refl w, h.receive hlive htask hmoves⟩
      · cases hplan
    | operator k =>
      cases hplan
      obtain ⟨S, o, -, -, rfl⟩ := hmoves.finish
      exact ⟨w, .refl w, h.mirrors.operator k none nofun⟩
  | giveUp x =>
    cases x with
    | worker p =>
      simp only [plan] at hplan
      split at hplan
      · rename_i hlive
        cases hplan
        refine ⟨w, .refl w, h.abandon ?_ hmoves⟩
        rintro p' ⟨⟩
        exact hlive
      · rename_i c S r next hlive htask
        split at hplan
        · rename_i hwaits
          cases hplan
          exact absurd hatt' (h.not_attended hwaits hstep _)
        · cases hplan
      · cases hplan
    | operator k =>
      cases hplan
      exact ⟨w, .refl w, h.abandon (fun p hp => by cases hp) hmoves⟩
  | respond p =>
    simp only [plan] at hplan
    split at hplan
    · rename_i c r hfree htask
      cases hplan
      rw [Bool.and_eq_true] at hfree
      exact h.respond hfree.1 hfree.2 htask hmoves
    · cases hplan
  | close p normal =>
    simp only [plan] at hplan
    split at hplan
    · rename_i hlive
      cases hplan
      exact h.close hlive hmoves
    · cases hplan

theorem step (h : Mirrored m a w) {l : MailWorld.Label} {m' : MailWorld}
    (hstep : m.step l = some m') (hatt : m.Attended) (hatt' : m'.Attended) :
    ∃ a' w', w.Goes (m.shown l).toList w' ∧ Mirrored m' a' w' := by
  obtain ⟨⟨k, task'⟩, hplan, hbind⟩ := Option.bind_eq_some_iff.mp hstep
  obtain ⟨mail, hmail, rfl⟩ := Option.map_eq_some_iff.mp hbind
  obtain ⟨a₁, xs, hmoves, hrefines⟩ := h.refines.step hmail
  obtain ⟨w₁, hgoes, h₁⟩ := h.moves hplan hmail hmoves hatt hatt'
  -- the calls to the servers that have died of it are answered
  obtain ⟨w₂, hgoes', h₂⟩ := h₁.failAll xs
  exact ⟨_, w₂, by simpa using hgoes.trans hgoes', hrefines, h₂⟩

theorem init : Mirrored .init (.init .init) .init where
  refines := .init _
  mirrors := ⟨rfl, fun _ _ => .free _, nofun⟩

end Mirrored

variable {ls : List MailWorld.Label} {m : MailWorld}

/-- The messages of a run. -/
def MailWorld.messages (ls : List MailWorld.Label) : List MailStep :=
  observe MailWorld.step (fun m l => (m.plan l).map Prod.fst) .init ls

theorem MailWorld.run_mail (hrun : run MailWorld.step .init ls = some m) :
    run (Calls.Net.step servers) (Calls.Net.init .init) (MailWorld.messages ls) = some m.mail := by
  induction ls using List.reverseRecOn generalizing m with
  | nil =>
    cases hrun
    rfl
  | append_singleton ls l ih =>
    obtain ⟨m₁, hrun₁, hstep⟩ := run_concat_some.mp hrun
    have hmessages : messages (ls ++ [l]) = messages ls ++ ((m₁.plan l).map Prod.fst).toList :=
      observe_concat hrun₁ hstep
    obtain ⟨⟨k, task'⟩, hplan, hbind⟩ := Option.bind_eq_some_iff.mp hstep
    obtain ⟨mail, hmail, rfl⟩ := Option.map_eq_some_iff.mp hbind
    rw [hmessages, run_append, ih hrun₁, hplan]
    simp [hmail]

theorem MailWorld.run_handle {m : MailWorld} {S : Store} {nows : List DateTime} {mail : Mail}
    (h : run (Calls.Net.step servers) m.mail (nows.map (.handle S)) = some mail) :
    run MailWorld.step m (nows.map (.handle S)) = some ⟨mail, m.task⟩ := by
  induction nows generalizing m with
  | nil =>
    cases h
    rfl
  | cons now nows ih =>
    rw [List.map_cons, run_cons, Option.bind_eq_some_iff] at h
    obtain ⟨mail₁, hstep, hrest⟩ := h
    have hstep' : m.step (.handle S now) = some ⟨mail₁, m.task⟩ := by
      simp only [step, plan, Option.bind_some, hstep, Option.map_some]
    rw [List.map_cons, run_cons, hstep', Option.bind_some]
    exact ih hrest

theorem MailWorld.plan_handles {l : Label} {k : MailStep}
    {task : Pool Pid Op Op.Res Ctx Response} (hplan : m.plan l = some (k, task)) (S : Store) :
    k.handles S = l.handles S := by
  cases l with
  | stop | handle =>
    cases hplan
    rfl
  | request | step | call | send | respond | close =>
    simp only [plan] at hplan
    split at hplan <;> cases hplan
    rfl
  | receive x =>
    cases x with
    | worker p =>
      simp only [plan] at hplan
      split at hplan
      · obtain ⟨reply, -, hplan⟩ := Option.map_eq_some_iff.mp hplan
        cases hplan
        rfl
      · cases hplan
    | operator k =>
      cases hplan
      rfl
  | giveUp x =>
    cases x with
    | worker p =>
      simp only [plan] at hplan
      split at hplan
      · cases hplan
        rfl
      · split at hplan <;> cases hplan
        rfl
      · cases hplan
    | operator k =>
      cases hplan
      rfl

/-- With each request that a server handles, a request in its mailbox comes one place forward. -/
theorem MailWorld.run_within {S : Store} {ref j : Nat} (h : m.mail.Within S ref j)
    {ls' : List Label} {m' : MailWorld} (hrun : run MailWorld.step m ls' = some m') :
    m'.mail.Within S ref (j - ls'.countP (Label.handles S)) := by
  refine run_induction (P := fun ls (m : MailWorld) =>
    m.mail.Within S ref (j - ls.countP (Label.handles S))) h
    (fun ls m₁ l m₂ _ ih _ hstep => ?_) hrun (always_true _ _)
  obtain ⟨⟨k, task⟩, hplan, hbind⟩ := Option.bind_eq_some_iff.mp hstep
  obtain ⟨mail, hmail, rfl⟩ := Option.map_eq_some_iff.mp hbind
  have hwithin := ih.step hmail
  rw [plan_handles hplan, Nat.sub_sub] at hwithin
  rwa [List.countP_append, List.countP_singleton]

/-- In every state of a run, a caller that waits has its answer by the time its server has handled
as many requests as are in the mailbox, whatever they are, whenever it does and whatever else
happens in between; and its server can handle them one after the other. -/
theorem answer_comes (hrun : run MailWorld.step .init ls = some m) {x : Client} {S : Store}
    {k ref : Nat} (hwaits : m.mail.caller x = .waiting S k ref) :
    (∀ ls' m', run MailWorld.step m ls' = some m' → m'.mail.caller x = .waiting S k ref →
      (m.mail.mailbox S).length ≤ ls'.countP (MailWorld.Label.handles S) →
      ∃ reply, m'.mail.answer x S = some reply) ∧
    ∀ nows : List DateTime, nows.length = (m.mail.mailbox S).length →
      ∃ used, used <+: nows ∧ ∃ m', run MailWorld.step m (used.map (.handle S)) = some m' ∧
        ∃ reply, m'.mail.answer x S = some reply := by
  have : Inhabited DateTime := ⟨.noon⟩
  constructor
  · intro ls' m' hrun' hwaits' hcount
    have hwithin : m.mail.Within S ref (m.mail.mailbox S).length := by
      obtain ⟨-, a, -, -, h⟩ := Calls.Net.run_refines (MailWorld.run_mail hrun)
      have hstands := h.caller x
      rw [hwaits] at hstands
      exact ⟨hstands.1, by simp⟩
    have hout := MailWorld.run_within hwithin hrun'
    rw [Nat.sub_eq_zero_of_le hcount] at hout
    have hrun'' : run MailWorld.step .init (ls ++ ls') = some m' := by
      rw [run_append, hrun, Option.bind_some, hrun']
    obtain ⟨-, a, -, -, h⟩ := Calls.Net.run_refines (MailWorld.run_mail hrun'')
    obtain ⟨reply, hreply⟩ := h.answered_of_within hwaits' hout
    exact ⟨reply, by simp [Mail.answer, hwaits', hreply]⟩
  · intro nows hlength
    obtain ⟨-, a, -, -, h⟩ := Calls.Net.run_refines (MailWorld.run_mail hrun)
    obtain ⟨used, hused, n, hhandled, hcaller, reply, hreply⟩ :=
      h.answered nows hwaits (Nat.le_of_eq hlength.symm)
    refine ⟨used, hused, _, MailWorld.run_handle hhandled, reply, ?_⟩
    simp [Mail.answer, hcaller, hreply]

end Model

/-! The home page is loaded.  Before its one call is answered, another process loads it too. -/

def homeAsked : List MailWorld.Label :=
  [.request 0 0 (.load .index), .request 1 1 (.load .index), .step 0 .noon, .step 0 .noon,
    .step 0 .noon, .step 1 .noon, .call 0, .step 1 .noon, .step 1 .noon, .call 1,
    .send (.worker 1), .send (.worker 0)]

def homeLoaded : List MailWorld.Label :=
  homeAsked ++ [.handle .dbLogin .noon, .receive (.worker 1), .handle .dbLogin .noon,
    .receive (.worker 0), .step 0 .noon, .step 0 .noon, .respond 0]

attribute [local instance] Crypto.sample Ets.asKept

/-- The other process reads its reply between the two requests that the server handles. -/
theorem answer_comes_home : ∃ m ∈ run MailWorld.step .init homeAsked,
    (∃ m' ∈ run MailWorld.step m [.handle .dbLogin .noon, .receive (.worker 1),
        .handle .dbLogin .noon],
      ∃ reply, m'.mail.answer (.worker 0) .dbLogin = some reply) ∧
    ∃ used, used <+: [.noon, .noon] ∧ ∃ m', run MailWorld.step m (used.map (.handle .dbLogin)) =
      some m' ∧ ∃ reply, m'.mail.answer (.worker 0) .dbLogin = some reply := by
  have hasked : ∃ m, run MailWorld.step .init homeAsked = some m ∧
      m.mail.caller (.worker 0) = .waiting .dbLogin 0 1 ∧
      (m.mail.mailbox .dbLogin).length = 2 ∧
      ∃ m', run MailWorld.step m [.handle .dbLogin .noon, .receive (.worker 1),
        .handle .dbLogin .noon] = some m' ∧
        m'.mail.caller (.worker 0) = .waiting .dbLogin 0 1 := ⟨_, rfl, rfl, rfl, _, rfl, rfl⟩
  obtain ⟨m, hrun, hwaits, hlength, m', hrun', hwaits'⟩ := hasked
  obtain ⟨hcomes, hhandles⟩ := answer_comes hrun hwaits
  refine ⟨m, hrun, ⟨m', hrun', hcomes _ m' hrun' hwaits' ?_⟩, hhandles [.noon, .noon] hlength.symm⟩
  rw [hlength]
  decide

end WebServerl
