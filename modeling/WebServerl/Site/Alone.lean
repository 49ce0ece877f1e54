import WebServerl.Site.Contract
import WebServerl.Site.Eval
import WebServerl.Site.Recovery

/-! A request that is served while the others wait.  The code of a page run to its end is one of the
runs of the site; and since there is always a process that is free to load the home page, every
state of a run is followed by one in which all servers are up. -/

namespace WebServerl

open Erlang Erlang.Mnesia Machine

section Model

variable [Crypto] [Ets] {ls : List Label} {w : World}

/-- As long as every server that is up has its table, no operation ends a process. -/
theorem Site.exec_live_eq {w : Site} (hready : w.node.Ready) (c : Ctx) (o : Op) (now : DateTime) :
    (w.exec c o now).2.node.live = w.node.live := by
  cases o with
  | start S => exact w.node.start_live S (some c.pid)
  | call S r =>
    by_cases hdown : w.node.server S = .down
    · simp only [exec, Node.call_down hdown]
    · obtain ⟨T, hT⟩ := hready S hdown
      rw [exec_answered hdown hT]
  | user => rfl
  | setUser u => rfl
  | logout => rfl

/-- The steps of one process, with nothing in between, do what `Site.eval` says. -/
theorem World.run_alone {p : Pid} {c : Ctx} {g : Code Response} (hready : w.site.node.Ready)
    (hlive : w.site.node.live p = true) (htask : w.task p = some (c, g)) (now : DateTime) :
    ∃ n w', run World.step w (List.replicate n (.step p now)) = some w' ∧
      w'.site = (w.site.eval c now g).2 ∧
      w'.task p = some (c, (w.site.eval c now g).1.elim .crash .done) := by
  induction g generalizing w with
  | done r => exact ⟨0, w, rfl, rfl, htask⟩
  | crash => exact ⟨0, w, rfl, rfl, htask⟩
  | perform o next ih =>
    let w₁ : World := ⟨(w.site.exec c o now).2,
      Function.update w.task p (some (c, next (w.site.exec c o now).1))⟩
    have hstep : w.step (.step p now) = some w₁ := by simp [World.step, hlive, htask, w₁]
    have hlive₁ : w₁.site.node.live p = true := by
      rw [Site.exec_live_eq hready c o now]
      exact hlive
    obtain ⟨n, w', hrun, hsite, htask'⟩ :=
      ih _ (Site.exec_ready hready c o now) hlive₁ (Function.update_self _ _ _)
    refine ⟨n + 1, w', ?_, hsite, htask'⟩
    rw [List.replicate_succ, run_cons, hstep]
    exact hrun

/-- Only finitely many processes are alive. -/
theorem World.exists_bound (hrun : run World.step .init ls = some w) :
    ∃ N, ∀ p, w.site.node.live p = true → p < N := by
  refine run_induction (G := fun _ _ => True)
    (P := fun _ (w : World) => ∃ N, ∀ p, w.site.node.live p = true → p < N)
    ⟨0, fun p h => by cases h⟩ (fun ls w₁ l w₂ _ hbound _ hstep => ?_) hrun (always_true _ _)
  obtain ⟨N, hN⟩ := hbound
  rcases World.step_cases hstep with ⟨p, s, job, -, -, rfl⟩ | ⟨p, now, c, o, next, -, -, -, rfl⟩ |
    ⟨p, c, r, -, -, -, rfl⟩ | ⟨p, normal, -, -, rfl⟩ | ⟨S, now, -, rfl⟩
  · refine ⟨max N (p + 1), fun p' hlive => ?_⟩
    replace hlive : Function.update w₁.site.node.live p true p' = true := hlive
    by_cases hp : p' = p
    · rw [hp]
      exact Nat.lt_of_lt_of_le (Nat.lt_succ_self p) (Nat.le_max_right N (p + 1))
    · rw [Function.update_of_ne hp] at hlive
      exact Nat.lt_of_lt_of_le (hN p' hlive) (Nat.le_max_left N (p + 1))
  · exact ⟨N, fun p' hlive => hN p' (Site.exec_live hlive)⟩
  · exact ⟨N, hN⟩
  · exact ⟨N, fun p' hlive => hN p' (Node.exit_live normal hlive)⟩
  · exact ⟨N, fun p' hlive => hN p' (Node.call_live hlive)⟩

/-- In every run in which nobody stops a store, the home page can still be loaded, which leaves
all servers up. -/
theorem World.recovers (hrun : run World.step .init ls = some w)
    (hstop : ∀ S now, .stop S now ∉ ls) :
    ∃ ls' w', run World.step w ls' = some w' ∧ (∀ S now, .stop S now ∉ ls') ∧
      ∀ S, w'.site.node.server S ≠ .down := by
  obtain ⟨p, hp⟩ := World.exists_bound hrun
  have hdead : w.site.node.live p = false := by
    by_contra hlive
    exact absurd (hp p (by simpa using hlive)) (Nat.lt_irrefl p)
  let c : Ctx := w.site.ctx p 0 (.load .index)
  let w₁ : World := ⟨w.site.enter p, Function.update w.task p (some (c, Index.main))⟩
  have hstep : w.step (.request p 0 (.load .index)) = some w₁ := by
    simp only [World.step, hdead]
    rfl
  have hready : w₁.site.node.Ready := by
    apply World.step_ready (World.ready hrun hstop) hstep
    intro S now hl
    cases hl
  have hlive : w₁.site.node.live p = true := by simp [w₁, Site.enter]
  have htask : w₁.task p = some (c, Index.main) := Function.update_self p _ w.task
  obtain ⟨n, w', hrun', hsite, -⟩ := World.run_alone hready hlive htask .noon
  obtain ⟨w'', heval, hrec⟩ := Index.eval_body hready c .noon
  refine ⟨.request p 0 (.load .index) :: List.replicate n (.step p .noon), w', ?_, ?_, ?_⟩
  · rw [run_cons, hstep]
    exact hrun'
  · intro S now hmem
    rcases List.mem_cons.mp hmem with hl | hl
    · cases hl
    · cases List.eq_of_mem_replicate hl
  · obtain ⟨r, hmain⟩ := Site.eval_template heval
    have hmain' : w₁.site.eval c .noon Index.main = (some r, w'') := hmain
    rw [hsite, hmain']
    exact hrec.up

end Model

end WebServerl
