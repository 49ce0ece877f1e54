import WebServerl.Site.World

/-! The running site with its starts in parts.  `start/0` of a store looks the name up and, when no
server has it, spawns a process that is linked to the caller.  That process registers the name, or
finds that another one has been faster; it starts Mnesia, creates the table, and acknowledges,
which the caller waits for.  A registered server does not take its calls before it has done all
that, and dies with the caller if the caller dies meanwhile. -/

namespace WebServerl

open Erlang Erlang.Mnesia Machine

/-- What a caller of `start/0` waits for: the process that it has spawned registers, or does its
`init/1`, or has sent the acknowledgement, with whether it is the server now. -/
inductive Stage where
  | spawned
  | registered
  | acked (started : Bool)
  deriving DecidableEq

/-- What comes next in the `init/1` of a store. -/
inductive Init where
  | startMnesia
  | createTable
  deriving DecidableEq

/-- The site, the servers that do their `init/1`, each for its starter, the processes that are in a
`start/0`, and the requests. -/
structure BootWorld where
  site : Site
  booting : Store → Option (Pid × Init)
  starter : Pid → Option (Store × Stage)
  task : Pool Pid Op Op.Res Ctx Response

/-- A step of the site.  The first five are those of a world whose starts are atomic; `start` is
the lookup, `acked` the return from `start/0`. -/
inductive BootWorld.Label where
  | request (p : Pid) (s : Session) (job : Job)
  | step (p : Pid) (now : DateTime)
  | respond (p : Pid)
  | close (p : Pid) (normal : Bool)
  | stop (S : Store) (now : DateTime)
  | start (p : Pid)
  | register (p : Pid)
  | init (S : Store)
  | acked (p : Pid)

/-- The site with another Mnesia. -/
def Site.withDb (db : Db) (w : Site) : Site := { w with node := { w.node with db } }

/-- The child of `p` registers as the server of `S`. -/
def Site.register (S : Store) (p : Pid) (w : Site) : Site :=
  { w with node := { w.node with server := Function.update w.node.server S (.up (some p)) } }

namespace BootWorld

def init : BootWorld := ⟨.init, fun _ => none, fun _ => none, fun _ => none⟩

/-- A server in its `init/1` has no other operation performed on it; `start/0` has labels of its
own. -/
def performs (b : BootWorld) : Op → Bool
  | .start _ => false
  | .call S _ => (b.booting S).isNone
  | .user | .setUser _ | .logout => true

/-- The site has changed: servers that are dead do not go on with their `init/1`, nor dead
processes with their starts. -/
def settle (site : Site) (task : Pool Pid Op Op.Res Ctx Response) (b : BootWorld) : BootWorld where
  site := site
  booting S := if site.node.server S = .down then none else b.booting S
  starter p := if site.node.live p then b.starter p else none
  task := task

variable [Crypto] [Ets]

def step (b : BootWorld) : Label → Option BootWorld
  | .request p s job =>
    if b.site.node.live p then none
    else some { b with
      site := b.site.enter p
      task := Function.update b.task p (some (b.site.ctx p s job, job.code)) }
  | .step p now =>
    match b.site.node.live p, b.starter p, b.task p with
    | true, none, some (c, .perform o next) =>
      if b.performs o then
        some (b.settle (b.site.exec c o now).2
          (Function.update b.task p (some (c, next (b.site.exec c o now).1))))
      else none
    | _, _, _ => none
  | .respond p =>
    match b.site.node.live p, b.starter p, b.task p with
    | true, none, some (c, .done r) =>
      some { b with site := b.site.deliver c r, task := Function.update b.task p none }
    | _, _, _ => none
  | .close p normal =>
    -- a process that waits in `start/0` does not come to a normal end
    if b.site.node.live p && !(normal && (b.starter p).isSome) then
      some (b.settle (b.site.exit p normal) (Function.update b.task p none))
    else none
  | .stop S now =>
    if (b.booting S).isNone then some (b.settle (b.site.stop S now) b.task) else none
  | .start p =>
    match b.site.node.live p, b.starter p, b.task p with
    | true, none, some (c, .perform (.start S) next) =>
      match b.site.node.server S with
      | .up _ => some { b with task := Function.update b.task p (some (c, next false)) }
      | .down => some { b with starter := Function.update b.starter p (some (S, .spawned)) }
    | _, _, _ => none
  | .register p =>
    match b.starter p with
    | some (S, .spawned) =>
      match b.site.node.server S with
      | .up _ => some { b with starter := Function.update b.starter p (some (S, .acked false)) }
      | .down => some { b with
          site := b.site.register S p
          booting := Function.update b.booting S (some (p, .startMnesia))
          starter := Function.update b.starter p (some (S, .registered)) }
    | _ => none
  | .init S =>
    match b.booting S with
    | some (p, .startMnesia) => some { b with
        site := b.site.withDb b.site.node.db.start
        booting := Function.update b.booting S (some (p, .createTable)) }
    | some (p, .createTable) => some { b with
        site := b.site.withDb (b.site.node.db.createTable S)
        booting := Function.update b.booting S none
        starter := Function.update b.starter p (some (S, .acked true)) }
    | none => none
  | .acked p =>
    match b.starter p, b.task p with
    | some (_, .acked started), some (c, .perform (.start _) next) =>
      some { b with
        starter := Function.update b.starter p none
        task := Function.update b.task p (some (c, next started)) }
    | _, _ => none

/-- Nobody stops a store while a server does its `init/1`. -/
def Quiet (b : BootWorld) : Label → Prop
  | .stop _ _ => ∀ S, b.booting S = none
  | _ => True

instance (b : BootWorld) : (l : Label) → Decidable (b.Quiet l)
  | .stop _ _ => inferInstanceAs (Decidable (∀ S, b.booting S = none))
  | .request .. | .step .. | .respond _ | .close .. | .start _ | .register _ | .init _ | .acked _ =>
    .isTrue trivial

end BootWorld

/-- The label among those of the site whose starts are atomic, unless it is an operation. -/
def BootWorld.Label.shown : BootWorld.Label → Option WebServerl.Label
  | .request p s job => some (.request p s job)
  | .respond p => some (.respond p)
  | .close p normal => some (.close p normal)
  | .stop S now => some (.stop S now)
  | .step .. | .start _ | .register _ | .init _ | .acked _ => none

end WebServerl
