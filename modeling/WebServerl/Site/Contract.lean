import WebServerl.Site.World

/-! The rely-guarantee rule for the running site.  A contract speaks about the labels so far and
the site.  If the code of every request is safe under it, and responses, ends of processes and
stops keep it, then every run does. -/

namespace WebServerl

open Erlang Erlang.Mnesia Machine

/-- The labels so far and the site. -/
abbrev Past := List Label × Site

/-- What requests may rely on and must guarantee. -/
structure Contract where
  condition : Condition
  inv : Past → Prop
  le : Past → Past → Prop
  allowed : Ctx → Op → Past → Prop
  post : Ctx → Response → Past → Prop
  le_refl : ∀ σ, le σ σ
  le_trans : ∀ {σ σ' σ''}, le σ σ' → le σ' σ'' → le σ σ''

/-- Each task carries its own pid. -/
def Tagged (task : Pool Pid Op Op.Res Ctx Response) : Prop :=
  ∀ p c g, task p = some (c, g) → c.pid = p

namespace Contract

variable [Crypto] [Ets]

def discipline (K : Contract) : Discipline Op Op.Res Ctx DateTime Past where
  exec c o now σ := ((σ.2.exec c o now).1, (σ.1 ++ [.step c.pid now], (σ.2.exec c o now).2))
  inv := K.inv
  le := K.le
  guard c o σ := K.condition.operation c o σ.2
  allowed := K.allowed
  le_refl := K.le_refl
  le_trans := K.le_trans

/-- The step to `σ'` keeps the invariant and moves up. -/
def Keeps (K : Contract) (σ σ' : Past) : Prop := K.inv σ' ∧ K.le σ σ'

/-- Requests begin with safe code, and the steps that are not operations keep the contract. -/
structure Sound (K : Contract) : Prop where
  request : ∀ {tr w p s job}, K.inv (tr, w) → K.condition.request p s job w →
    K.Keeps (tr, w) (tr ++ [.request p s job], w.enter p) ∧
      job.code.Safe K.discipline (w.ctx p s job) (K.post (w.ctx p s job))
        (tr ++ [.request p s job], w.enter p)
  respond : ∀ {tr w c r}, K.inv (tr, w) → K.post c r (tr, w) → K.condition.respond c r w →
    K.Keeps (tr, w) (tr ++ [.respond c.pid], w.deliver c r)
  close : ∀ {tr w p normal}, K.inv (tr, w) → K.condition.close p normal w →
    K.Keeps (tr, w) (tr ++ [.close p normal], w.exit p normal)
  stop : ∀ {tr w S now}, K.inv (tr, w) → K.condition.stop S w →
    K.Keeps (tr, w) (tr ++ [.stop S now], w.stop S now)

/-- What holds of the world after the labels `tr`. -/
structure Holds (K : Contract) (tr : List Label) (w : World) : Prop where
  tagged : Tagged w.task
  inv : K.inv (tr, w.site)
  safe : w.running.Safe K.discipline K.post (tr, w.site)

end Contract

theorem Node.exit_live {n : Node} {p p' : Pid} (normal : Bool)
    (h : (n.exit p normal).live p' = true) : n.live p' = true := by
  by_cases hp : p' = p
  · simp [Node.exit, hp] at h
  · simpa [Node.exit, hp] using h

theorem Node.crashServer_live {n : Node} {S : Store} {link : Option Pid} {p' : Pid}
    (h : (Node.crashServer S link n).live p' = true) : n.live p' = true := by
  cases link with
  | none => exact h
  | some p => exact Node.exit_live false h

theorem Node.start_live (n : Node) (S : Store) (link : Option Pid) :
    (n.start S link).2.live = n.live := by
  unfold Node.start
  split <;> rfl

section Rule

variable [Crypto] [Ets] {K : Contract} {tr : List Label} {w w' : World} {l : Label}

theorem Node.call_live {n : Node} {S : Store} {c : Call S.Request} {now : DateTime} {p : Pid}
    (h : (n.call S c now).2.live p = true) : n.live p = true := by
  rcases call_cases S c now n with ⟨-, hcall⟩ | ⟨link, -, -, hcall⟩ |
    ⟨link, r, T, -, -, -, hcall⟩ | ⟨link, r, -, -, -, hcall⟩
  · rwa [hcall] at h
  · rwa [hcall] at h
  · rwa [hcall] at h
  · rw [hcall] at h
    split at h
    · exact h
    · exact Node.crashServer_live h

/-- No operation brings a process back. -/
theorem Site.exec_live {c : Ctx} {o : Op} {now : DateTime} {w : Site} {p : Pid}
    (h : (w.exec c o now).2.node.live p = true) : w.node.live p = true := by
  cases o with
  | start S =>
    have heq := w.node.start_live S (some c.pid)
    rwa [← heq]
  | call S r => exact Node.call_live h
  | user => exact h
  | setUser u => exact h
  | logout => exact h

/-- An operation is performed only where the contract allows it. -/
theorem Contract.Holds.allowed (h : K.Holds tr w) {p : Pid} {c : Ctx} {o : Op}
    {next : o.Res → Code Response} (hlive : w.site.node.live p = true)
    (htask : w.task p = some (c, .perform o next)) (hC : K.condition.operation c o w.site) :
    K.allowed c o (tr, w.site) := by
  have hrun : w.running p = some (c, .perform o next) := by simp [World.running, hlive, htask]
  exact (h.safe.step h.inv hrun hC).1

/-- A request that has come to its end has its postcondition. -/
theorem Contract.Holds.post_of_done (h : K.Holds tr w) {p : Pid} {c : Ctx} {r : Response}
    (hlive : w.site.node.live p = true) (htask : w.task p = some (c, .done r)) :
    K.post c r (tr, w.site) := by
  have hrun : w.running p = some (c, .done r) := by simp [World.running, hlive, htask]
  exact h.safe.post_of_done h.inv hrun

theorem World.tagged {ls : List Label} {w : World} (hrun : run World.step .init ls = some w) :
    Tagged w.task := by
  refine run_induction (P := fun _ (w : World) => Tagged w.task) (fun p c g hp => by cases hp)
    (fun ls w₁ l w₂ _ hP _ hstep => ?_) hrun (always_true _ _)
  rcases World.step_cases hstep with ⟨p, s, job, -, -, rfl⟩ |
    ⟨p, now, c, o, next, -, -, htask, rfl⟩ | ⟨p, c, r, -, -, -, rfl⟩ | ⟨p, normal, -, -, rfl⟩ |
    ⟨S, now, -, rfl⟩
  · refine forall_update hP ?_
    rintro c g ⟨⟩
    rfl
  · refine forall_update hP ?_
    rintro c' g ⟨⟩
    exact hP p c _ htask
  · exact forall_update hP nofun
  · exact forall_update hP nofun
  · exact hP

theorem Contract.Holds.step (hK : K.Sound) (h : K.Holds tr w) (hstep : w.step l = some w')
    (hC : K.condition.Meets w l) :
    K.Holds (tr ++ [l]) w' ∧ K.le (tr, w.site) (tr ++ [l], w'.site) := by
  rcases World.step_cases hstep with ⟨p, s, job, rfl, hlive, rfl⟩ |
    ⟨p, now, c, o, next, rfl, hlive, htask, rfl⟩ | ⟨p, c, r, rfl, hlive, htask, rfl⟩ |
    ⟨p, normal, rfl, hlive, rfl⟩ | ⟨S, now, rfl, rfl⟩
  · obtain ⟨⟨hinv, hle⟩, hcode⟩ := hK.request h.inv hC
    refine ⟨⟨forall_update h.tagged ?_, hinv, ?_⟩, hle⟩
    · rintro c g ⟨⟩
      rfl
    · refine ((h.safe.mono hle).spawn p hcode).sub fun p' t hp => ?_
      by_cases hpp : p' = p
      · subst hpp
        simpa [World.running, Site.enter] using hp
      · simpa [World.running, Site.enter, hpp] using hp
  · obtain rfl := h.tagged p c _ htask
    have hrun : w.running c.pid = some (c, .perform o next) := by
      simp [World.running, hlive, htask]
    obtain ⟨-, hsafe⟩ := h.safe.step h.inv hrun (hC c o next htask)
    obtain ⟨hinv, hle, hpool⟩ := hsafe now
    refine ⟨⟨forall_update h.tagged ?_, hinv, ?_⟩, hle⟩
    · rintro c' g ⟨⟩
      rfl
    · refine hpool.sub fun p' t hp => ?_
      -- a process that is alive after the operation was alive before it
      have hlive' : (w.site.exec c o now).2.node.live p' = true := by
        by_contra hdead
        simp [World.running, hdead] at hp
      have halive := Site.exec_live hlive'
      by_cases hpp : p' = c.pid
      · subst hpp
        simpa [World.running, hlive', Contract.discipline] using hp
      · simpa [World.running, hlive', halive, hpp] using hp
  · obtain rfl := h.tagged p c _ htask
    obtain ⟨hinv, hle⟩ := hK.respond h.inv (h.post_of_done hlive htask) (hC c r htask)
    refine ⟨⟨forall_update h.tagged nofun, hinv, ?_⟩, hle⟩
    refine (h.safe.mono hle).sub fun p' t hp => ?_
    by_cases hpp : p' = c.pid
    · simp [World.running, hpp] at hp
    · simpa [World.running, Site.deliver, hpp] using hp
  · obtain ⟨hinv, hle⟩ := hK.close h.inv hC
    refine ⟨⟨forall_update h.tagged nofun, hinv, ?_⟩, hle⟩
    refine (h.safe.mono hle).sub fun p' t hp => ?_
    by_cases hpp : p' = p
    · simp [World.running, hpp] at hp
    · simpa [World.running, Site.exit, Node.exit, hpp] using hp
  · obtain ⟨hinv, hle⟩ := hK.stop h.inv hC
    refine ⟨⟨h.tagged, hinv, ?_⟩, hle⟩
    refine (h.safe.mono hle).sub fun p' t hp => ?_
    have hlive' : (w.site.stop S now).node.live p' = true := by
      by_contra hdead
      simp [World.running, hdead] at hp
    have halive := Node.call_live hlive'
    simpa [World.running, hlive', halive] using hp

/-- Every run that meets the condition keeps the contract and moves up. -/
theorem Contract.Holds.run (hK : K.Sound) (h : K.Holds tr w) {ls : List Label}
    (hrun : run World.step w ls = some w') (hC : Always World.step K.condition.Meets w ls) :
    K.Holds (tr ++ ls) w' ∧ K.le (tr, w.site) (tr ++ ls, w'.site) := by
  refine run_induction (P := fun ls w' => K.Holds (tr ++ ls) w' ∧
    K.le (tr, w.site) (tr ++ ls, w'.site)) ?_ (fun ls w₁ l w₂ _ hP hl hstep => ?_) hrun hC
  · rw [List.append_nil]
    exact ⟨h, K.le_refl _⟩
  · obtain ⟨hholds, hle⟩ := hP
    obtain ⟨hholds', hle'⟩ := hholds.step hK hstep hl
    rw [← List.append_assoc]
    exact ⟨hholds', K.le_trans hle hle'⟩

theorem Contract.Holds.init (hinv : K.inv ([], .init)) : K.Holds [] .init where
  tagged := nofun
  inv := hinv
  safe := fun p c g hp => by simp [World.running, World.init, Site.init, Node.init] at hp

end Rule

end WebServerl
