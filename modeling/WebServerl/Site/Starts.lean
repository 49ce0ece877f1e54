import WebServerl.Site.Boot
import WebServerl.Site.Contract

/-! The starts in parts: how the processes that are in a `start/0`, the servers in their `init/1`
and the tasks go together in every run, and that a start can always come to its end. -/

namespace WebServerl

open Erlang Erlang.Mnesia Machine

namespace Site

variable (db : Db) (w : Site)

@[simp] theorem withDb_db : (w.withDb db).node.db = db := rfl

@[simp] theorem withDb_server : (w.withDb db).node.server = w.node.server := rfl

@[simp] theorem withDb_live : (w.withDb db).node.live = w.node.live := rfl

@[simp] theorem register_server (S : Store) (p : Pid) :
    (w.register S p).node.server = Function.update w.node.server S (.up (some p)) := rfl

end Site

/-! ### What a step does -/

namespace BootWorld

variable [Crypto] [Ets]

/-- The steps, each with all that is checked before it. -/
inductive Moves (b : BootWorld) : Label → BootWorld → Prop where
  | request {p : Pid} (s : Session) (job : Job) (hlive : b.site.node.live p = false) :
    Moves b (.request p s job) { b with
      site := b.site.enter p
      task := Function.update b.task p (some (b.site.ctx p s job, job.code)) }
  | step {p : Pid} (now : DateTime) {c : Ctx} {o : Op} {next : o.Res → Code Response}
    (hlive : b.site.node.live p = true) (hstarter : b.starter p = none)
    (htask : b.task p = some (c, .perform o next)) (hperforms : b.performs o = true) :
    Moves b (.step p now) (b.settle (b.site.exec c o now).2
      (Function.update b.task p (some (c, next (b.site.exec c o now).1))))
  | respond {p : Pid} {c : Ctx} {r : Response} (hlive : b.site.node.live p = true)
    (hstarter : b.starter p = none) (htask : b.task p = some (c, .done r)) :
    Moves b (.respond p)
      { b with site := b.site.deliver c r, task := Function.update b.task p none }
  | close {p : Pid} (normal : Bool) (hlive : b.site.node.live p = true)
    (hwaits : normal = true → b.starter p = none) :
    Moves b (.close p normal) (b.settle (b.site.exit p normal) (Function.update b.task p none))
  | stop (S : Store) (now : DateTime) (hbooting : b.booting S = none) :
    Moves b (.stop S now) (b.settle (b.site.stop S now) b.task)
  | found {p : Pid} {c : Ctx} {S : Store} {next : Bool → Code Response} {link : Option Pid}
    (hlive : b.site.node.live p = true) (hstarter : b.starter p = none)
    (htask : b.task p = some (c, .perform (.start S) next))
    (hup : b.site.node.server S = .up link) :
    Moves b (.start p) { b with task := Function.update b.task p (some (c, next false)) }
  | spawn {p : Pid} {c : Ctx} {S : Store} {next : Bool → Code Response}
    (hlive : b.site.node.live p = true) (hstarter : b.starter p = none)
    (htask : b.task p = some (c, .perform (.start S) next))
    (hdown : b.site.node.server S = .down) :
    Moves b (.start p) { b with starter := Function.update b.starter p (some (S, .spawned)) }
  | taken {p : Pid} {S : Store} {link : Option Pid} (hstarter : b.starter p = some (S, .spawned))
    (hup : b.site.node.server S = .up link) :
    Moves b (.register p)
      { b with starter := Function.update b.starter p (some (S, .acked false)) }
  | register {p : Pid} {S : Store} (hstarter : b.starter p = some (S, .spawned))
    (hdown : b.site.node.server S = .down) :
    Moves b (.register p) { b with
      site := b.site.register S p
      booting := Function.update b.booting S (some (p, .startMnesia))
      starter := Function.update b.starter p (some (S, .registered)) }
  | startMnesia {S : Store} {p : Pid} (hbooting : b.booting S = some (p, .startMnesia)) :
    Moves b (.init S) { b with
      site := b.site.withDb b.site.node.db.start
      booting := Function.update b.booting S (some (p, .createTable)) }
  | createTable {S : Store} {p : Pid} (hbooting : b.booting S = some (p, .createTable)) :
    Moves b (.init S) { b with
      site := b.site.withDb (b.site.node.db.createTable S)
      booting := Function.update b.booting S none
      starter := Function.update b.starter p (some (S, .acked true)) }
  | acked {p : Pid} {S S' : Store} {started : Bool} {c : Ctx} {next : Bool → Code Response}
    (hstarter : b.starter p = some (S, .acked started))
    (htask : b.task p = some (c, .perform (.start S') next)) :
    Moves b (.acked p) { b with
      starter := Function.update b.starter p none
      task := Function.update b.task p (some (c, next started)) }

theorem moves {b b' : BootWorld} {l : Label} (h : b.step l = some b') : b.Moves l b' := by
  cases l with
  | request p s job =>
    simp only [step] at h
    split at h
    · cases h
    · rename_i hlive
      cases h
      exact .request s job (by simpa using hlive)
  | step p now =>
    simp only [step] at h
    split at h
    · rename_i c o next hlive hstarter htask
      split at h
      · rename_i hperforms
        cases h
        exact .step now hlive hstarter htask hperforms
      · cases h
    · cases h
  | respond p =>
    simp only [step] at h
    split at h
    · rename_i c r hlive hstarter htask
      cases h
      exact .respond hlive hstarter htask
    · cases h
  | close p normal =>
    simp only [step] at h
    split at h
    · rename_i hcond
      cases h
      obtain ⟨hlive, hwaits⟩ := (Bool.and_eq_true _ _).mp hcond
      refine .close normal hlive fun hnormal => ?_
      simpa [hnormal] using hwaits
    · cases h
  | stop S now =>
    simp only [step] at h
    split at h
    · rename_i hbooting
      cases h
      exact .stop S now (by simpa using hbooting)
    · cases h
  | start p =>
    simp only [step] at h
    split at h
    · rename_i c S next hlive hstarter htask
      split at h
      · rename_i link hup
        cases h
        exact .found hlive hstarter htask hup
      · rename_i hdown
        cases h
        exact .spawn hlive hstarter htask hdown
    · cases h
  | register p =>
    simp only [step] at h
    split at h
    · rename_i S hstarter
      split at h
      · rename_i link hup
        cases h
        exact .taken hstarter hup
      · rename_i hdown
        cases h
        exact .register hstarter hdown
    · cases h
  | init S =>
    simp only [step] at h
    split at h
    · rename_i p hbooting
      cases h
      exact .startMnesia hbooting
    · rename_i p hbooting
      cases h
      exact .createTable hbooting
    · cases h
  | acked p =>
    simp only [step] at h
    split at h
    · rename_i S started c S' next hstarter htask
      cases h
      exact .acked hstarter htask
    · cases h

end BootWorld

/-! ### The starts, the servers and the tasks -/

namespace BootWorld

/-- A process that is in the `start/0` of `S`: it is alive, and this is what its code does next. -/
def Starts (b : BootWorld) (p : Pid) (S : Store) : Prop :=
  b.site.node.live p = true ∧ ∃ c next, b.task p = some (c, .perform (.start S) next)

/-- How the starts, the servers in their `init/1` and the tasks go together. -/
structure Valid (b : BootWorld) : Prop where
  tagged : Tagged b.task
  starts : ∀ p S stage, b.starter p = some (S, stage) → b.Starts p S
  booting : ∀ S p i, b.booting S = some (p, i) →
    b.site.node.server S = .up (some p) ∧ b.starter p = some (S, .registered)
  registered : ∀ p S, b.starter p = some (S, .registered) → ∃ i, b.booting S = some (p, i)

/-- When the site changes so, a server in its `init/1` is left alone, or it dies with its
starter. -/
def Spares (b : BootWorld) (n : Node) : Prop :=
  ∀ S p i, b.booting S = some (p, i) →
    (n.server S = .up (some p) ∧ n.live p = true) ∨ (n.server S = .down ∧ n.live p = false)

namespace Valid

variable {b : BootWorld}

theorem init : BootWorld.init.Valid := ⟨nofun, nofun, nofun, nofun⟩

theorem settle (h : b.Valid) {site : Site} {task : Pool Pid Op Op.Res Ctx Response}
    (hspares : b.Spares site.node) (htagged : Tagged task)
    (htask : ∀ p S stage, b.starter p = some (S, stage) → site.node.live p = true →
      task p = b.task p) : (b.settle site task).Valid where
  tagged := htagged
  starts p S stage hp := by
    simp only [BootWorld.settle] at hp
    split at hp
    · rename_i hlive
      obtain ⟨-, hcode⟩ := h.starts p S stage hp
      rw [← htask p S stage hp hlive] at hcode
      exact ⟨hlive, hcode⟩
    · cases hp
  booting S p i hS := by
    simp only [BootWorld.settle] at hS ⊢
    split at hS
    · cases hS
    · rename_i hdown
      rcases hspares S p i hS with ⟨hserver, hlive⟩ | ⟨hserver, -⟩
      · exact ⟨hserver, by rw [if_pos hlive, (h.booting S p i hS).2]⟩
      · exact absurd hserver hdown
  registered p S hp := by
    simp only [BootWorld.settle] at hp ⊢
    split at hp
    · rename_i hlive
      obtain ⟨i, hS⟩ := h.registered p S hp
      rcases hspares S p i hS with ⟨hserver, -⟩ | ⟨-, hdead⟩
      · exact ⟨i, by rw [hserver, if_neg nofun, hS]⟩
      · rw [hlive] at hdead
        cases hdead
    · cases hp

end Valid

namespace Spares

variable {b : BootWorld} {n : Node}

theorem refl (h : b.Valid) : b.Spares b.site.node := by
  intro S p i hS
  obtain ⟨hserver, hstarter⟩ := h.booting S p i hS
  exact .inl ⟨hserver, (h.starts p S _ hstarter).1⟩

/-- A server that is not in its `init/1` dies. -/
theorem down (h : b.Spares n) {S : Store} (hS : b.booting S = none) :
    b.Spares { n with server := Function.update n.server S .down } := by
  intro S' p i hS'
  have hne : S' ≠ S := by
    rintro rfl
    rw [hS] at hS'
    cases hS'
  simpa [hne] using h S' p i hS'

/-- A process that waits in `start/0` takes the server that it waits for along. -/
theorem exit (h : b.Spares n) (hb : b.Valid) {p : Pid} {normal : Bool}
    (hwaits : normal = true → b.starter p = none) : b.Spares (n.exit p normal) := by
  intro S p' i hS
  rcases h S p' i hS with ⟨hserver, hlive⟩ | ⟨hserver, hdead⟩
  · by_cases hp : p' = p
    · subst hp
      have hnormal : normal = false := by
        by_contra htrue
        have hnone := hwaits (Bool.eq_true_of_not_eq_false htrue)
        rw [(hb.booting S p' i hS).2] at hnone
        cases hnone
      exact .inr ⟨by simp [Node.exit, hserver, hnormal], by simp [Node.exit]⟩
    · exact .inl ⟨by simp [Node.exit, hserver, hp], by simp [Node.exit, hp, hlive]⟩
  · refine .inr ⟨by simp [Node.exit, hserver], ?_⟩
    by_cases hp : p' = p
    · simp [Node.exit, hp]
    · simp [Node.exit, hp, hdead]

theorem crashServer (h : b.Spares n) (hb : b.Valid) {S : Store} (hS : b.booting S = none)
    (link : Option Pid) : b.Spares (Node.crashServer S link n) := by
  cases link with
  | none => exact h.down hS
  | some p => exact (h.down hS).exit hb nofun

variable [Crypto] [Ets]

theorem call (hb : b.Valid) {S : Store} (hS : b.booting S = none) (c : Call S.Request)
    (now : DateTime) : b.Spares (b.site.node.call S c now).2 := by
  have hrefl := refl hb
  rcases Node.call_cases S c now b.site.node with ⟨-, hcall⟩ | ⟨link, -, -, hcall⟩ |
    ⟨link, r, T, -, -, -, hcall⟩ | ⟨link, r, -, -, -, hcall⟩
  · rw [hcall]
    exact hrefl
  · rw [hcall]
    exact hrefl.down hS
  · rw [hcall]
    exact hrefl
  · rw [hcall]
    split
    · exact hrefl
    · exact hrefl.crashServer hb hS link

theorem exec (hb : b.Valid) {o : Op} (ho : b.performs o = true) (c : Ctx) (now : DateTime) :
    b.Spares (b.site.exec c o now).2.node := by
  cases o with
  | start S => cases ho
  | call S r => exact call hb (by simpa [performs] using ho) _ now
  | user => exact refl hb
  | setUser u => exact refl hb
  | logout => exact refl hb

end Spares

namespace Valid

variable {b : BootWorld}

/-- The start of one process comes to another stage. -/
theorem starts_update (h : b.Valid) {p : Pid} {x : Option (Store × Stage)}
    (hx : ∀ S stage, x = some (S, stage) → b.Starts p S) :
    ∀ p' S' stage', Function.update b.starter p x p' = some (S', stage') → b.Starts p' S' := by
  intro p' S' stage' hp'
  by_cases hp : p' = p
  · subst hp
    rw [Function.update_self] at hp'
    exact hx S' stage' hp'
  · rw [Function.update_of_ne hp] at hp'
    exact h.starts p' S' stage' hp'

/-- The process that a server in its `init/1` acknowledges to is no other than its starter. -/
theorem booting_update (h : b.Valid) {p : Pid} (x : Option (Store × Stage)) {S : Store}
    {p' : Pid} {i : Init} (hS : b.booting S = some (p', i))
    (hp : b.starter p ≠ some (S, .registered)) :
    b.site.node.server S = .up (some p') ∧
      Function.update b.starter p x p' = some (S, .registered) := by
  obtain ⟨hserver, hstarter⟩ := h.booting S p' i hS
  have hne : p' ≠ p := by
    rintro rfl
    exact hp hstarter
  exact ⟨hserver, by rwa [Function.update_of_ne hne]⟩

theorem registered_update (h : b.Valid) {p : Pid} {x : Option (Store × Stage)}
    (hx : ∀ S, x ≠ some (S, .registered)) {p' : Pid} {S : Store}
    (hp' : Function.update b.starter p x p' = some (S, .registered)) :
    p' ≠ p ∧ ∃ i, b.booting S = some (p', i) := by
  have hne : p' ≠ p := by
    rintro rfl
    rw [Function.update_self] at hp'
    exact hx S hp'
  rw [Function.update_of_ne hne] at hp'
  exact ⟨hne, h.registered p' S hp'⟩

/-- A process that is in no `start/0` changes its task. -/
theorem update_task (h : b.Valid) {p : Pid} (hstarter : b.starter p = none)
    {t : Option (Ctx × Code Response)} (ht : ∀ c g, t = some (c, g) → c.pid = p) :
    ({ b with task := Function.update b.task p t } : BootWorld).Valid where
  tagged := forall_update h.tagged ht
  starts p' S stage hp' := by
    have hne : p' ≠ p := by
      rintro rfl
      simp [hstarter] at hp'
    simpa [Starts, hne] using h.starts p' S stage hp'
  booting := h.booting
  registered := h.registered

/-- A start comes to another stage, not from or to that of a registered server. -/
theorem setStarter (h : b.Valid) {p : Pid} {x : Option (Store × Stage)}
    (hx : ∀ S stage, x = some (S, stage) → b.Starts p S ∧ stage ≠ .registered)
    (hfrom : ∀ S, b.starter p ≠ some (S, .registered)) :
    ({ b with starter := Function.update b.starter p x } : BootWorld).Valid where
  tagged := h.tagged
  starts := h.starts_update fun S stage hS => (hx S stage hS).1
  booting S _ _ hS := h.booting_update x hS (hfrom S)
  registered _ _ hp' := (h.registered_update (fun S' hS' => (hx S' _ hS').2 rfl) hp').2

theorem not_booting (h : b.Valid) {S : Store} (hdown : b.site.node.server S = .down) :
    b.booting S = none := by
  cases hS : b.booting S with
  | none => rfl
  | some pi =>
    rw [(h.booting S pi.1 pi.2 hS).1] at hdown
    cases hdown

theorem register (h : b.Valid) {p : Pid} {S : Store} (hstarter : b.starter p = some (S, .spawned))
    (hdown : b.site.node.server S = .down) : ({ b with
      site := b.site.register S p
      booting := Function.update b.booting S (some (p, .startMnesia))
      starter := Function.update b.starter p (some (S, .registered)) } : BootWorld).Valid where
  tagged := h.tagged
  starts := by
    refine h.starts_update fun S' stage hS' => ?_
    cases hS'
    exact h.starts p S _ hstarter
  booting S' p' i hS' := by
    by_cases hS : S' = S
    · subst hS
      obtain ⟨rfl, -⟩ : p = p' ∧ Init.startMnesia = i := by simpa using hS'
      simp
    · have hbooting : b.booting S' = some (p', i) := by simpa [hS] using hS'
      have hp : b.starter p ≠ some (S', .registered) := by simp [hstarter]
      simpa [hS] using h.booting_update (some (S, .registered)) hbooting hp
  registered p' S' hp' := by
    by_cases hp : p' = p
    · subst hp
      obtain rfl : S = S' := by simpa using hp'
      exact ⟨.startMnesia, Function.update_self ..⟩
    · obtain ⟨i, hi⟩ := h.registered p' S' (by simpa [hp] using hp')
      have hne : S' ≠ S := by
        rintro rfl
        rw [h.not_booting hdown] at hi
        cases hi
      exact ⟨i, by simpa [hne] using hi⟩

theorem startMnesia (h : b.Valid) {S : Store} {p : Pid}
    (hbooting : b.booting S = some (p, .startMnesia)) (db : Db) : ({ b with
      site := b.site.withDb db
      booting := Function.update b.booting S (some (p, .createTable)) } : BootWorld).Valid where
  tagged := h.tagged
  starts := h.starts
  booting S' p' i hS' := by
    by_cases hS : S' = S
    · subst hS
      obtain ⟨rfl, -⟩ : p = p' ∧ Init.createTable = i := by simpa using hS'
      exact h.booting S' p _ hbooting
    · exact h.booting S' p' i (by simpa [hS] using hS')
  registered p' S' hp' := by
    obtain ⟨i, hi⟩ := h.registered p' S' hp'
    by_cases hS : S' = S
    · subst hS
      rw [hbooting] at hi
      cases hi
      exact ⟨.createTable, Function.update_self ..⟩
    · exact ⟨i, by simpa [hS] using hi⟩

theorem createTable (h : b.Valid) {S : Store} {p : Pid}
    (hbooting : b.booting S = some (p, .createTable)) (db : Db) :
    ({ b with
      site := b.site.withDb db
      booting := Function.update b.booting S none
      starter := Function.update b.starter p (some (S, .acked true)) } : BootWorld).Valid where
  tagged := h.tagged
  starts := by
    refine h.starts_update fun S' stage hS' => ?_
    cases hS'
    exact h.starts p S _ (h.booting S p _ hbooting).2
  booting S' p' i hS' := by
    by_cases hS : S' = S
    · simp [hS] at hS'
    · refine h.booting_update _ (by simpa [hS] using hS') fun hp => hS ?_
      rw [(h.booting S p _ hbooting).2] at hp
      cases hp
      rfl
  registered p' S' hp' := by
    obtain ⟨hp, i, hi⟩ := h.registered_update (by simp) hp'
    have hne : S' ≠ S := by
      rintro rfl
      rw [hbooting] at hi
      cases hi
      exact hp rfl
    exact ⟨i, by simpa [hne] using hi⟩

variable [Crypto] [Ets]

theorem step (h : b.Valid) {l : BootWorld.Label} {b' : BootWorld} (hstep : b.step l = some b') :
    b'.Valid := by
  cases moves hstep with
  | @request p s job hlive =>
    have hstarter : b.starter p = none := by
      cases hp : b.starter p with
      | none => rfl
      | some x =>
        rw [(h.starts p x.1 x.2 hp).1] at hlive
        cases hlive
    have hvalid := h.update_task hstarter (t := some (b.site.ctx p s job, job.code)) (by
      rintro c g ⟨⟩
      rfl)
    refine ⟨hvalid.tagged, fun p' S stage hp' => ?_, h.booting, h.registered⟩
    obtain ⟨hlive', hcode⟩ := hvalid.starts p' S stage hp'
    exact ⟨by simp [Site.enter, Function.update_apply, show b.site.node.live p' = true from hlive'],
      hcode⟩
  | @step p now c o next hlive hstarter htask hperforms =>
    refine h.settle (Spares.exec h hperforms c now) (forall_update h.tagged ?_) ?_
    · rintro c' g ⟨⟩
      exact h.tagged p c _ htask
    · intro p' S stage hp' _
      have hne : p' ≠ p := by
        rintro rfl
        rw [hstarter] at hp'
        cases hp'
      exact Function.update_of_ne hne _ _
  | @respond p c r hlive hstarter htask =>
    have hvalid := h.update_task hstarter (t := none) fun c g hc => by cases hc
    exact ⟨hvalid.tagged, hvalid.starts, h.booting, h.registered⟩
  | @close p normal hlive hwaits =>
    refine h.settle ((Spares.refl h).exit h hwaits)
      (forall_update h.tagged fun c g hc => by cases hc) ?_
    intro p' S stage _ hlive'
    have hne : p' ≠ p := by
      rintro rfl
      simp [Site.exit, Node.exit] at hlive'
    exact Function.update_of_ne hne _ _
  | stop S now hbooting =>
    exact h.settle (Spares.call h hbooting .stop now) h.tagged fun _ _ _ _ _ => rfl
  | @found p c S next link hlive hstarter htask hup =>
    refine h.update_task hstarter ?_
    rintro c' g ⟨⟩
    exact h.tagged p c _ htask
  | @spawn p c S next hlive hstarter htask hdown =>
    refine h.setStarter ?_ (by simp [hstarter])
    rintro S' stage ⟨⟩
    exact ⟨⟨hlive, c, next, htask⟩, Stage.noConfusion⟩
  | @taken p S link hstarter hup =>
    refine h.setStarter ?_ (by simp [hstarter])
    rintro S' stage ⟨⟩
    exact ⟨h.starts p S _ hstarter, Stage.noConfusion⟩
  | register hstarter hdown => exact h.register hstarter hdown
  | startMnesia hbooting => exact h.startMnesia hbooting _
  | createTable hbooting => exact h.createTable hbooting _
  | @acked p S S' started c next hstarter htask =>
    have hvalid := h.setStarter (p := p) (x := none) (by simp) (by simp [hstarter])
    refine hvalid.update_task (p := p) (by simp) ?_
    rintro c' g ⟨⟩
    exact h.tagged p c _ htask

end Valid

end BootWorld

namespace BootWorld

variable [Crypto] [Ets]

theorem valid {ls : List BootWorld.Label} {b : BootWorld} (hrun : run step .init ls = some b) :
    b.Valid :=
  run_induction (P := fun _ b => b.Valid) Valid.init (fun _ _ _ _ _ h _ hstep => h.step hstep) hrun
    (always_true _ _)

/-- The process `p` comes back from the `start/0` of `S` in at most `n` steps, which are its own and
those of the process that it has spawned. -/
def Returns (b : BootWorld) (p : Pid) (S : Store) (n : Nat) : Prop :=
  ∃ ls b' c next started, ls.length ≤ n ∧
    (∀ l ∈ ls, l = .register p ∨ l = .init S ∨ l = .acked p) ∧ run step b ls = some b' ∧
    b.task p = some (c, .perform (.start S) next) ∧ b'.task p = some (c, next started) ∧
    b'.starter p = none ∧ (b.site.node.server S ≠ .down → b'.site.node.server S ≠ .down)

theorem Returns.step {b b' : BootWorld} {p : Pid} {S : Store} {n : Nat} {l : BootWorld.Label}
    (h : b'.Returns p S n) (hl : l = .register p ∨ l = .init S) (hstep : b.step l = some b')
    (htask : b'.task = b.task)
    (hup : b.site.node.server S ≠ .down → b'.site.node.server S ≠ .down) :
    b.Returns p S (n + 1) := by
  obtain ⟨ls, b'', c, next, started, hlength, hls, hrun, hcode, hgone, hfree, hup'⟩ := h
  refine ⟨l :: ls, b'', c, next, started, Nat.succ_le_succ hlength, ?_, ?_, htask ▸ hcode, hgone,
    hfree, fun h => hup' (hup h)⟩
  · refine List.forall_mem_cons.mpr ⟨?_, hls⟩
    exact hl.imp id .inl
  · rw [run_cons, hstep, Option.bind_some, hrun]

theorem returns_acked {b : BootWorld} (hb : b.Valid) {p : Pid} {S : Store} {started : Bool}
    (hstarter : b.starter p = some (S, .acked started)) : b.Returns p S 1 := by
  obtain ⟨-, c, next, hcode⟩ := hb.starts p S _ hstarter
  refine ⟨[.acked p], { b with
    starter := Function.update b.starter p none
    task := Function.update b.task p (some (c, next started)) }, c, next, started, le_refl 1,
    by simp, ?_, hcode, Function.update_self .., Function.update_self .., id⟩
  simp only [run_cons, run_nil, BootWorld.step, hstarter, hcode, Option.bind_some]

theorem returns_booting {b : BootWorld} (hb : b.Valid) {p : Pid} {S : Store} {i : Init}
    (hbooting : b.booting S = some (p, i)) : b.Returns p S 3 := by
  have hlast : ∀ b : BootWorld, b.Valid → b.booting S = some (p, .createTable) →
      b.Returns p S 2 := by
    intro b hb hbooting
    have hstep : b.step (.init S) = some { b with
        site := b.site.withDb (b.site.node.db.createTable S)
        booting := Function.update b.booting S none
        starter := Function.update b.starter p (some (S, .acked true)) } := by
      simp only [BootWorld.step, hbooting]
    exact (returns_acked (hb.step hstep) (Function.update_self ..)).step (.inr rfl) hstep rfl id
  cases i with
  | createTable =>
    obtain ⟨ls, b', c, next, started, hlength, h⟩ := hlast b hb hbooting
    exact ⟨ls, b', c, next, started, hlength.trans (by decide), h⟩
  | startMnesia =>
    have hstep : b.step (.init S) = some { b with
        site := b.site.withDb b.site.node.db.start
        booting := Function.update b.booting S (some (p, .createTable)) } := by
      simp only [BootWorld.step, hbooting]
    exact (hlast _ (hb.step hstep) (Function.update_self ..)).step (.inr rfl) hstep rfl id

end BootWorld

section Model

variable [Crypto] [Ets] {ls : List BootWorld.Label} {b : BootWorld}

/-- In every state of a run, whatever the other processes have begun, a process that is in the
`start/0` of a store can come back from it in four steps of its own and of the process that it has
spawned; and the store is up then, if its answer was still open. -/
theorem start_returns (hrun : run BootWorld.step .init ls = some b) {p : Pid} {S : Store}
    {stage : Stage} (hstarter : b.starter p = some (S, stage)) :
    ∃ ls' b' c next started, ls'.length ≤ 4 ∧
      (∀ l ∈ ls', l = .register p ∨ l = .init S ∨ l = .acked p) ∧
      run BootWorld.step b ls' = some b' ∧
      b.task p = some (c, .perform (.start S) next) ∧ b'.task p = some (c, next started) ∧
      b'.starter p = none ∧
      ((∀ started, stage ≠ .acked started) → b'.site.node.server S ≠ .down) := by
  have hb := BootWorld.valid hrun
  cases stage with
  | acked started =>
    obtain ⟨ls', b', c, next, started', hlength, hls, hrun', hcode, hgone, hfree, -⟩ :=
      BootWorld.returns_acked hb hstarter
    exact ⟨ls', b', c, next, started', hlength.trans (by decide), hls, hrun', hcode, hgone, hfree,
      fun h => absurd rfl (h started)⟩
  | registered =>
    obtain ⟨i, hbooting⟩ := hb.registered p S hstarter
    obtain ⟨ls', b', c, next, started, hlength, hls, hrun', hcode, hgone, hfree, hup⟩ :=
      BootWorld.returns_booting hb hbooting
    refine ⟨ls', b', c, next, started, hlength.trans (by decide), hls, hrun', hcode, hgone, hfree,
      fun _ => hup ?_⟩
    rw [(hb.booting S p i hbooting).1]
    exact nofun
  | spawned =>
    cases hserver : b.site.node.server S with
    | up link =>
      have hstep : b.step (.register p) = some { b with
          starter := Function.update b.starter p (some (S, .acked false)) } := by
        simp only [BootWorld.step, hstarter, hserver]
      obtain ⟨ls', b', c, next, started, hlength, hls, hrun', hcode, hgone, hfree, hup⟩ :=
        (BootWorld.returns_acked (hb.step hstep) (Function.update_self ..)).step (.inl rfl) hstep
          rfl id
      exact ⟨ls', b', c, next, started, hlength.trans (by decide), hls, hrun', hcode, hgone, hfree,
        fun _ => hup (by rw [hserver]; exact nofun)⟩
    | down =>
      have hstep : b.step (.register p) = some { b with
          site := b.site.register S p
          booting := Function.update b.booting S (some (p, .startMnesia))
          starter := Function.update b.starter p (some (S, .registered)) } := by
        simp only [BootWorld.step, hstarter, hserver]
      have hreturns := BootWorld.returns_booting (hb.step hstep) (Function.update_self ..)
      obtain ⟨ls', b', c, next, started, hlength, hls, hrun', hcode, hgone, hfree, hup⟩ := hreturns
      refine ⟨.register p :: ls', b', c, next, started, Nat.succ_le_succ hlength, ?_, ?_, hcode,
        hgone, hfree, fun _ => hup ?_⟩
      · exact List.forall_mem_cons.mpr ⟨.inl rfl, hls⟩
      · rw [run_cons, hstep, Option.bind_some, hrun']
      · simp

end Model

/-! The home page is loaded twice at once.  Both processes find no server of the first store; the
child of the second one registers, and the first process goes on while it does its `init/1`. -/

def bootHome : List BootWorld.Label :=
  [.request 0 0 (.load .index), .request 1 1 (.load .index), .step 0 .noon, .step 1 .noon,
    .start 0, .start 1, .register 1, .register 0, .init .visitorsDb, .acked 0, .start 0,
    .register 0]

attribute [local instance] Crypto.sample Ets.asKept

theorem start_returns_home : ∃ b ∈ run BootWorld.step .init bootHome,
    ∃ ls' b', ls'.length ≤ 4 ∧ run BootWorld.step b ls' = some b' ∧ b'.starter 1 = none := by
  have hbooting : ∃ b, run BootWorld.step .init bootHome = some b ∧
      b.starter 1 = some (.visitorsDb, .registered) := ⟨_, rfl, rfl⟩
  obtain ⟨b, hrun, hstarter⟩ := hbooting
  obtain ⟨ls', b', c, next, started, hlength, -, hrun', -, -, hfree, -⟩ :=
    start_returns hrun hstarter
  exact ⟨b, hrun, ls', b', hlength, hrun', hfree⟩

end WebServerl
