import WebServerl.Lib.CallRefinement
import WebServerl.Site.World

/-! The running site with its calls as messages.  A request process looks a server up, sends it a
request and waits for the reply, for the news that the server is dead, or for the timeout; the
servers handle the requests in their mailboxes one by one, and what a process asked of a server may
be done when the process is gone. -/

namespace WebServerl

open Erlang Erlang.Mnesia Machine

/-- Who calls a server: a request process, or a process that serves no request and stops a store. -/
inductive Client where
  | worker (p : Pid)
  | operator (k : Nat)
  deriving DecidableEq

/-- What happens to the site other than calls of its servers. -/
inductive Change where
  | enter (p : Pid)
  | perform (c : Ctx) (o : Op) (now : DateTime)
  | deliver (c : Ctx) (r : Response)
  | exit (p : Pid) (normal : Bool)

abbrev Store.Asked (S : Store) : Type := Call S.Request

abbrev Store.Told (S : Store) : Type := Reply S.Row

/-- The calls, and the messages that they are made of. -/
abbrev Mail := Calls.Net Client Site Store.Asked Store.Told

abbrev MailStep := Calls.Net.Label Client DateTime Change Store.Asked

/-- What the caller `x` has got from the server of `S` that it called, if anything yet. -/
def Mail.answer (n : Mail) (x : Client) (S : Store) : Option (Option S.Told) :=
  match n.caller x with
  | .noproc S' => if S' = S then some none else none
  | .waiting S' _ ref => if S' = S then (n.inbox x S).lookup ref else none
  | _ => none

/-- The caller `x` waits for the server of `S`, and no message about its call has come. -/
def Mail.waits (n : Mail) (x : Client) (S : Store) : Bool :=
  match n.caller x with
  | .waiting S' _ ref => if S' = S then ((n.inbox x S).lookup ref).isNone else false
  | _ => false

/-- The site with its messages and the requests that it is working on. -/
structure MailWorld where
  mail : Mail
  task : Pool Pid Op Op.Res Ctx Response

/-- A step of the site.  A caller gives up when its call times out, or when it has ended. -/
inductive MailWorld.Label where
  | request (p : Pid) (s : Session) (job : Job)
  | step (p : Pid) (now : DateTime)
  | call (p : Pid)
  | stop (k : Nat) (S : Store)
  | send (x : Client)
  | handle (S : Store) (now : DateTime)
  | receive (x : Client)
  | giveUp (x : Client)
  | respond (p : Pid)
  | close (p : Pid) (normal : Bool)

/-- The server of `S` handles a request. -/
def MailWorld.Label.handles (S : Store) : Label → Bool
  | .handle S' _ => S' = S
  | _ => false

section Service

variable [Crypto] [Ets]

def Site.change : Change → Site → Site
  | .enter p, w => w.enter p
  | .perform c o now, w => (w.exec c o now).2
  | .deliver c r, w => w.deliver c r
  | .exit p normal, w => w.exit p normal

def Site.serve (S : Store) (c : S.Asked) (now : DateTime) (w : Site) : Option S.Told × Site :=
  ((w.node.call S c now).1, { w with node := (w.node.call S c now).2 })

/-- A server that gives no reply is dead. -/
theorem Node.call_none {S : Store} {c : Call S.Request} {now : DateTime} {n : Node}
    (h : (n.call S c now).1 = none) : (n.call S c now).2.server S = .down := by
  rcases call_cases S c now n with ⟨hdown, hcall⟩ | ⟨link, -, -, hcall⟩ |
    ⟨link, r, T, -, -, -, hcall⟩ | ⟨link, r, -, -, -, hcall⟩
  · rw [hcall]
    exact hdown
  · rw [hcall] at h
    cases h
  · rw [hcall] at h
    cases h
  · rw [hcall] at h ⊢
    split at h
    · cases h
    · rename_i hr
      rw [if_neg hr]
      cases link with
      | none => simp [crashServer]
      | some p => simp [crashServer, exit]

/-- The four store servers. -/
def servers : Calls.Service Store DateTime Change Site Store.Asked Store.Told where
  alive S w := w.node.server S ≠ .down
  serve := Site.serve
  change := Site.change
  serve_dead := by
    intro S w hdead r now
    have hdown : w.node.server S = .down := by simpa using hdead
    simp only [Site.serve, Node.call_down hdown]
  serve_none := by
    intro S w r now hnone
    exact decide_eq_false (not_not.mpr (Node.call_none hnone))

end Service

namespace MailWorld

def site (m : MailWorld) : Site := m.mail.state

def init : MailWorld := ⟨Calls.Net.init .init, fun _ => none⟩

def live (m : MailWorld) : Client → Bool
  | .worker p => m.site.node.live p
  | .operator _ => true

def idle (m : MailWorld) (x : Client) : Bool :=
  match m.mail.caller x with
  | .idle => true
  | _ => false

variable [Crypto] [Ets]

/-- What a label comes to: a step of the messages, and the requests after it.  What a process has
called when it ends is left to a later step. -/
def plan (m : MailWorld) : Label → Option (MailStep × Pool Pid Op Op.Res Ctx Response)
  | .request p s job =>
    if m.site.node.live p || !m.idle (.worker p) then none
    else some (.change (.enter p),
      Function.update m.task p (some (m.site.ctx p s job, job.code)))
  | .step p now =>
    match m.site.node.live p && m.idle (.worker p), m.task p with
    | true, some (_, .perform (.call _ _) _) => none
    | true, some (c, .perform o next) => some (.change (.perform c o now),
        Function.update m.task p (some (c, next (m.site.exec c o now).1)))
    | _, _ => none
  | .call p =>
    match m.site.node.live p, m.task p with
    | true, some (_, .perform (.call S r) _) => some (.lookup (.worker p) S (.request r), m.task)
    | _, _ => none
  | .stop k S => some (.lookup (.operator k) S .stop, m.task)
  | .send x => if m.live x then some (.send x, m.task) else none
  | .handle S now => some (.handle S now, m.task)
  | .receive x =>
    match x with
    | .worker p =>
      match m.site.node.live p, m.task p with
      | true, some (c, .perform (.call S _) next) =>
        (m.mail.answer x S).map fun reply =>
          (.receive x, Function.update m.task p (some (c, next reply)))
      | _, _ => none
    | .operator _ => some (.receive x, m.task)
  | .giveUp x =>
    match x with
    | .worker p =>
      match m.site.node.live p, m.task p with
      | false, _ => some (.abandon x, m.task)
      | true, some (c, .perform (.call S _) next) =>
        if m.mail.waits x S then
          some (.abandon x, Function.update m.task p (some (c, next none)))
        else none
      | true, _ => none
    | .operator _ => some (.abandon x, m.task)
  | .respond p =>
    match m.site.node.live p && m.idle (.worker p), m.task p with
    | true, some (c, .done r) => some (.change (.deliver c r), Function.update m.task p none)
    | _, _ => none
  | .close p normal =>
    if m.site.node.live p then some (.change (.exit p normal), Function.update m.task p none)
    else none

def step (m : MailWorld) (l : Label) : Option MailWorld :=
  (m.plan l).bind fun (k, task) =>
    (Calls.Net.step servers m.mail k).map fun mail => ⟨mail, task⟩

end MailWorld

end WebServerl
