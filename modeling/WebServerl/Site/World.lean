import WebServerl.Lib.Machine
import WebServerl.Site.Pages

/-! The running site: request processes of any number of sessions, which take turns at each of
their operations.  A run is a list of labels.  The rule at the end lifts a rely-guarantee
discipline of the page code to all runs. -/

namespace WebServerl

open Erlang Erlang.Mnesia Machine

abbrev Session := Nat

/-- A postback that a session has been sent, in a response of the page to a request that began in
the epoch. -/
structure Sent where
  page : Page
  postback : Postback
  epoch : Nat
  deriving DecidableEq

/-- The state that requests share: the node, the user of each session and how often it has been
set, and the postbacks that each session has been sent.  No code reads the last two. -/
structure Site where
  node : Node
  user : Session → Term
  epoch : Session → Nat
  shown : Session → List Sent

def Job.page : Job → Page
  | .load page => page
  | .post page _ _ => page

/-- A request process: its pid, its session, its request, and the epoch in which it began. -/
structure Ctx where
  pid : Pid
  session : Session
  job : Job
  epoch : Nat

namespace Site

/-- The site before its first request. -/
def init : Site := ⟨.init, fun _ => .undefined, fun _ => 0, fun _ => []⟩

def ctx (p : Pid) (s : Session) (job : Job) (w : Site) : Ctx := ⟨p, s, job, w.epoch s⟩

section Ctx

variable (p : Pid) (s : Session) (job : Job) (w : Site)

@[simp] theorem ctx_pid : (w.ctx p s job).pid = p := rfl

@[simp] theorem ctx_session : (w.ctx p s job).session = s := rfl

@[simp] theorem ctx_job : (w.ctx p s job).job = job := rfl

@[simp] theorem ctx_epoch : (w.ctx p s job).epoch = w.epoch s := rfl

end Ctx

/-- A request process begins. -/
def enter (p : Pid) (w : Site) : Site :=
  { w with node := { w.node with live := Function.update w.node.live p true } }

/-- The session receives a response. -/
def deliver (c : Ctx) (r : Response) (w : Site) : Site :=
  let sent := r.postbacks.map fun pb => ⟨c.job.page, pb, c.epoch⟩
  { w with shown := Function.update w.shown c.session (w.shown c.session ++ sent) }

def setUser (s : Session) (u : Term) (w : Site) : Site :=
  { w with
    user := Function.update w.user s u
    epoch := Function.update w.epoch s (w.epoch s + 1) }

/-- A process ends. -/
def exit (p : Pid) (normal : Bool) (w : Site) : Site := { w with node := w.node.exit p normal }

variable [Crypto] [Ets]

/-- An operation of the process `c`. -/
def exec (c : Ctx) : (o : Op) → DateTime → Site → o.Res × Site
  | .start S, _, w =>
    ((w.node.start S (some c.pid)).1, { w with node := (w.node.start S (some c.pid)).2 })
  | .call S r, now, w =>
    ((w.node.call S (.request r) now).1, { w with node := (w.node.call S (.request r) now).2 })
  | .user, _, w => (w.user c.session, w)
  | .setUser u, _, w => ((), w.setUser c.session u)
  | .logout, _, w => ((), w.setUser c.session .undefined)

/-- `stop/0` of a store, called by a process that serves no request. -/
def stop (S : Store) (now : DateTime) (w : Site) : Site :=
  { w with node := (w.node.call S .stop now).2 }

end Site

/-- The site with the requests that it is working on. -/
structure World where
  site : Site
  task : Pool Pid Op Op.Res Ctx Response

/-- A step of the world.  A process may end at any time. -/
inductive Label where
  | request (p : Pid) (s : Session) (job : Job)
  | step (p : Pid) (now : DateTime)
  | respond (p : Pid)
  | close (p : Pid) (normal : Bool)
  | stop (S : Store) (now : DateTime)

/-- What holds of every task still does when one of them changes to a task of which it holds. -/
theorem forall_update {P : Pid → Ctx → Code Response → Prop}
    {task : Pool Pid Op Op.Res Ctx Response} (h : ∀ p c g, task p = some (c, g) → P p c g)
    {p : Pid} {t : Option (Ctx × Code Response)} (ht : ∀ c g, t = some (c, g) → P p c g) :
    ∀ p' c g, Function.update task p t p' = some (c, g) → P p' c g := by
  intro p' c g hp
  by_cases hpp : p' = p
  · subst hpp
    rw [Function.update_self] at hp
    exact ht c g hp
  · rw [Function.update_of_ne hpp] at hp
    exact h p' c g hp

/-- The label, unless it is an operation of a request process. -/
def Label.shown : Label → Option Label
  | .step _ _ => none
  | l => some l

namespace World

def init : World := ⟨.init, fun _ => none⟩

variable [Crypto] [Ets]

def step (w : World) : Label → Option World
  | .request p s job =>
    if w.site.node.live p then none
    else some ⟨w.site.enter p, Function.update w.task p (some (w.site.ctx p s job, job.code))⟩
  | .step p now =>
    match w.site.node.live p, w.task p with
    | true, some (c, .perform o next) =>
      some ⟨(w.site.exec c o now).2,
        Function.update w.task p (some (c, next (w.site.exec c o now).1))⟩
    | _, _ => none
  | .respond p =>
    match w.site.node.live p, w.task p with
    | true, some (c, .done r) => some ⟨w.site.deliver c r, Function.update w.task p none⟩
    | _, _ => none
  | .close p normal =>
    if w.site.node.live p then some ⟨w.site.exit p normal, Function.update w.task p none⟩
    else none
  | .stop S now => some { w with site := w.site.stop S now }

/-- What a step does, with all that is checked before it. -/
theorem step_cases {w w' : World} {l : Label} (h : w.step l = some w') :
    (∃ p s job, l = .request p s job ∧ w.site.node.live p = false ∧
      w' = ⟨w.site.enter p, Function.update w.task p (some (w.site.ctx p s job, job.code))⟩) ∨
    (∃ p now c o next, l = .step p now ∧ w.site.node.live p = true ∧
      w.task p = some (c, .perform o next) ∧
      w' = ⟨(w.site.exec c o now).2,
        Function.update w.task p (some (c, next (w.site.exec c o now).1))⟩) ∨
    (∃ p c r, l = .respond p ∧ w.site.node.live p = true ∧ w.task p = some (c, .done r) ∧
      w' = ⟨w.site.deliver c r, Function.update w.task p none⟩) ∨
    (∃ p normal, l = .close p normal ∧ w.site.node.live p = true ∧
      w' = ⟨w.site.exit p normal, Function.update w.task p none⟩) ∨
    (∃ S now, l = .stop S now ∧ w' = { w with site := w.site.stop S now }) := by
  cases l with
  | request p s job =>
    simp only [step] at h
    split at h
    · cases h
    · rename_i hlive
      cases h
      exact .inl ⟨p, s, job, rfl, by simpa using hlive, rfl⟩
  | step p now =>
    simp only [step] at h
    split at h
    · rename_i c o next hlive htask
      cases h
      exact .inr (.inl ⟨p, now, c, o, next, rfl, hlive, htask, rfl⟩)
    · cases h
  | respond p =>
    simp only [step] at h
    split at h
    · rename_i c r hlive htask
      cases h
      exact .inr (.inr (.inl ⟨p, c, r, rfl, hlive, htask, rfl⟩))
    · cases h
  | close p normal =>
    simp only [step] at h
    split at h
    · rename_i hlive
      cases h
      exact .inr (.inr (.inr (.inl ⟨p, normal, rfl, hlive, rfl⟩)))
    · cases h
  | stop S now =>
    cases h
    exact .inr (.inr (.inr (.inr ⟨S, now, rfl, rfl⟩)))

theorem step_request {w w' : World} {p : Pid} {s : Session} {job : Job}
    (h : w.step (.request p s job) = some w') :
    w' = ⟨w.site.enter p, Function.update w.task p (some (w.site.ctx p s job, job.code))⟩ := by
  rcases step_cases h with ⟨_, _, _, hl, -, rfl⟩ | ⟨_, _, _, _, _, hl, -⟩ | ⟨_, _, _, hl, -⟩ |
    ⟨_, _, hl, -⟩ | ⟨_, _, hl, -⟩
  · cases hl
    rfl
  · cases hl
  · cases hl
  · cases hl
  · cases hl

/-- The step of a process whose next operation is known. -/
theorem step_operation {w w' : World} {p : Pid} {now : DateTime} {c : Ctx} {o : Op}
    {next : o.Res → Code Response} (htask : w.task p = some (c, .perform o next))
    (h : w.step (.step p now) = some w') :
    w' = ⟨(w.site.exec c o now).2,
      Function.update w.task p (some (c, next (w.site.exec c o now).1))⟩ := by
  rcases step_cases h with ⟨_, _, _, hl, -⟩ | ⟨_, _, _, _, _, hl, -, htask', rfl⟩ |
    ⟨_, _, _, hl, -⟩ | ⟨_, _, hl, -⟩ | ⟨_, _, hl, -⟩
  · cases hl
  · cases hl
    rw [htask] at htask'
    cases htask'
    rfl
  · cases hl
  · cases hl
  · cases hl

/-- Every task is what is left of the code of its request. -/
theorem residual {ls : List Label} {w : World} (hrun : run step init ls = some w) {p : Pid}
    {c : Ctx} {g : Code Response} (hp : w.task p = some (c, g)) : c.job.code.Residual g := by
  have hall : ∀ p c g, w.task p = some (c, g) → c.job.code.Residual g := by
    refine run_induction (G := fun _ _ => True)
      (P := fun _ w => ∀ p c g, w.task p = some (c, g) → c.job.code.Residual g) nofun
      (fun ls w₁ l w₂ _ hP _ hstep => ?_) hrun (always_true _ _)
    rcases step_cases hstep with ⟨p, s, job, -, -, rfl⟩ |
      ⟨p, now, c, o, next, -, -, htask, rfl⟩ | ⟨p, c, r, -, -, -, rfl⟩ | ⟨p, normal, -, -, rfl⟩ |
      ⟨S, now, -, rfl⟩
    · refine forall_update hP ?_
      rintro c g ⟨⟩
      exact .start
    · refine forall_update hP ?_
      rintro c' g ⟨⟩
      exact (hP p c _ htask).next _
    · exact forall_update hP nofun
    · exact forall_update hP nofun
    · exact hP
  exact hall p c g hp

/-- The world goes on from `w` to `w'`, and these are the labels but for the operations. -/
def Goes (w : World) (shown : List Label) (w' : World) : Prop :=
  ∃ ls, run step w ls = some w' ∧ ls.filterMap Label.shown = shown

theorem Goes.refl (w : World) : w.Goes [] w := ⟨[], rfl, rfl⟩

theorem Goes.of_step {w w' : World} {l : Label} (h : w.step l = some w') :
    w.Goes l.shown.toList w' := by
  refine ⟨[l], ?_, ?_⟩
  · rw [run_cons, h, Option.bind_some, run_nil]
  · cases l <;> rfl

theorem Goes.trans {w w' w'' : World} {shown shown' : List Label} (h : w.Goes shown w')
    (h' : w'.Goes shown' w'') : w.Goes (shown ++ shown') w'' := by
  obtain ⟨ls, hrun, rfl⟩ := h
  obtain ⟨ls', hrun', rfl⟩ := h'
  refine ⟨ls ++ ls', ?_, List.filterMap_append⟩
  rw [run_append, hrun, Option.bind_some, hrun']

/-- The requests of the processes that are alive. -/
def running (w : World) : Pool Pid Op Op.Res Ctx Response :=
  fun p => if w.site.node.live p then w.task p else none

end World

/-- A condition on the steps of a run, each in the state in which it is taken. -/
structure Condition where
  request : Pid → Session → Job → Site → Prop := fun _ _ _ _ => True
  operation : Ctx → Op → Site → Prop := fun _ _ _ => True
  respond : Ctx → Response → Site → Prop := fun _ _ _ => True
  close : Pid → Bool → Site → Prop := fun _ _ _ => True
  stop : Store → Site → Prop := fun _ _ => True

def Condition.Meets (C : Condition) (w : World) : Label → Prop
  | .request p s job => C.request p s job w.site
  | .step p _ => ∀ c o next, w.task p = some (c, .perform o next) → C.operation c o w.site
  | .respond p => ∀ c r, w.task p = some (c, .done r) → C.respond c r w.site
  | .close p normal => C.close p normal w.site
  | .stop S _ => C.stop S w.site

/-- A condition that can be checked on a run. -/
class Condition.Checkable (C : Condition) where
  request : ∀ p s job w, Decidable (C.request p s job w)
  operation : ∀ c o w, Decidable (C.operation c o w)
  respond : ∀ c r w, Decidable (C.respond c r w)
  close : ∀ p normal w, Decidable (C.close p normal w)
  stop : ∀ S w, Decidable (C.stop S w)

instance (C : Condition) [h : C.Checkable] (w : World) : (l : Label) → Decidable (C.Meets w l)
  | .request p s job => h.request p s job w.site
  | .step p _ =>
    match ht : w.task p with
    | some (c, .perform o next) =>
      have := h.operation c o w.site
      decidable_of_iff (C.operation c o w.site) (by
        refine ⟨fun hC c' o' next' h' => ?_, fun hC => hC c o next ht⟩
        rw [ht] at h'
        cases h'
        exact hC)
    | some (_, .done _) => .isTrue fun _ _ _ h' => by simp [ht] at h'
    | some (_, .crash) => .isTrue fun _ _ _ h' => by simp [ht] at h'
    | none => .isTrue fun _ _ _ h' => by simp [ht] at h'
  | .respond p =>
    match ht : w.task p with
    | some (c, .done r) =>
      have := h.respond c r w.site
      decidable_of_iff (C.respond c r w.site) (by
        refine ⟨fun hC c' r' h' => ?_, fun hC => hC c r ht⟩
        rw [ht] at h'
        cases h'
        exact hC)
    | some (_, .perform _ _) => .isTrue fun _ _ h' => by simp [ht] at h'
    | some (_, .crash) => .isTrue fun _ _ h' => by simp [ht] at h'
    | none => .isTrue fun _ _ h' => by simp [ht] at h'
  | .close p normal => h.close p normal w.site
  | .stop S _ => h.stop S w.site

end WebServerl
