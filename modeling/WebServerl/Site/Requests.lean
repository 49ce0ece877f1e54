import WebServerl.Site.Rows

/-! What the running site asks of one store.  The requests that a server handles in the course of a
run are all that its table depends on: the table is what the server's answers to them make of the
empty one. -/

namespace WebServerl

open Erlang Erlang.Mnesia Machine

/-- The table of a store, empty as long as there is none. -/
def Site.table (S : Store) (w : Site) : Table S.Row :=
  (w.node.db.table? S).getD (KeyedTable.empty _)

/-- The request to the server of `S` that an operation comes to, if the server is up. -/
def Site.handles (S : Store) (o : Op) (now : DateTime) (w : Site) : Option (S.Request × DateTime) :=
  match o with
  | .call S' r =>
    if h : S' = S then if w.node.server S = .down then none else some (h ▸ r, now) else none
  | _ => none

/-- The request that the server of `S` handles in a step. -/
def World.handled (S : Store) (w : World) : Label → Option (S.Request × DateTime)
  | .step p now =>
    match w.site.node.live p, w.task p with
    | true, some (_, .perform o _) => w.site.handles S o now
    | _, _ => none
  | _ => none

theorem Site.table_of {S : Store} {w : Site} {T : Table S.Row}
    (hT : w.node.db.table? S = some T) : w.table S = T := by
  rw [table, hT, Option.getD_some]

theorem Site.table_eq {S : Store} {w w' : Site}
    (h : w'.node.db.table? S = w.node.db.table? S) : w'.table S = w.table S := by
  rw [table, table, h]

theorem Site.table_some {S : Store} {w : Site} (hready : w.node.Ready)
    (hup : w.node.server S ≠ .down) : w.node.db.table? S = some (w.table S) := by
  obtain ⟨T, hT⟩ := hready S hup
  rw [table_of hT, hT]

theorem Site.handles_call {S : Store} {r : S.Request} {now : DateTime} {w : Site}
    (hup : w.node.server S ≠ .down) : w.handles S (.call S r) now = some (r, now) := by
  simp [handles, hup]

theorem Site.handles_eq_some {S : Store} {o : Op} {now : DateTime} {w : Site}
    {i : S.Request × DateTime} (h : w.handles S o now = some i) :
    o = .call S i.1 ∧ i.2 = now ∧ w.node.server S ≠ .down := by
  unfold handles at h
  split at h
  · rename_i S' r
    by_cases hS : S' = S
    · subst hS
      by_cases hdown : w.node.server S' = .down
      · simp [hdown] at h
      · simp only [dite_true, hdown, if_false, Option.some.injEq] at h
        subst h
        exact ⟨rfl, rfl, hdown⟩
    · simp [hS] at h
  · cases h

theorem World.handled_eq_some {S : Store} {w : World} {l : Label} {i : S.Request × DateTime}
    (h : w.handled S l = some i) : ∃ p c next, l = .step p i.2 ∧ w.site.node.live p = true ∧
      w.task p = some (c, .perform (.call S i.1) next) ∧ w.site.node.server S ≠ .down := by
  cases l with
  | step p now =>
    simp only [handled] at h
    split at h
    · rename_i c o next hlive htask
      obtain ⟨rfl, rfl, hup⟩ := Site.handles_eq_some h
      exact ⟨p, c, next, rfl, hlive, htask, hup⟩
    · cases h
  | _ => cases h

variable [Crypto] [Ets]

/-- The requests that the server of `S` handles in a run, in the order in which it does. -/
def World.requests (S : Store) (w : World) (ls : List Label) : List (S.Request × DateTime) :=
  observe World.step (World.handled S) w ls

section Steps

variable {S : Store} {w : Site} {now : DateTime}

/-- An operation answers the request that it comes to, and does nothing else to the table. -/
theorem Site.exec_handles (hready : w.node.Ready) (c : Ctx) (o : Op) (now : DateTime) :
    (w.exec c o now).2.table S =
      (w.handles S o now).elim (w.table S) fun i => (S.ask (w.table S) i).2 := by
  cases o with
  | start S' =>
    show (w.exec c (.start S') now).2.table S = w.table S
    cases hT : w.node.db.table? S with
    | some T =>
      have hT' : (w.exec c (.start S') now).2.node.db.table? S = some T := by
        rcases Site.exec_table c (.start S') now hT with hsame | ⟨r, hr, -⟩
        · exact hsame
        · cases hr
      exact table_eq (hT'.trans hT.symm)
    | none =>
      cases hT' : (w.exec c (.start S') now).2.node.db.table? S with
      | none => exact table_eq (hT'.trans hT.symm)
      | some T' =>
        rw [table_of hT', Site.exec_new_table c (.start S') now hT hT', table, hT,
          Option.getD_none]
  | call S' r =>
    by_cases hS : S' = S
    · subst hS
      by_cases hdown : w.node.server S' = .down
      · simp only [handles, dite_true, hdown, if_true, Option.elim_none]
        refine table_eq ?_
        simp only [exec, Node.call_down hdown]
      · have hT := table_some hready hdown
        rw [handles_call hdown]
        refine table_of ?_
        rw [exec_answered hdown hT]
        exact Db.table?_setTable_self hT _
    · simp only [handles, dif_neg hS]
      exact table_eq (Node.call_request_table? (Ne.symm hS) r now)
  | user => rfl
  | setUser u => rfl
  | logout => rfl

/-- The reply to a request that a server handles. -/
theorem Site.exec_reply (hready : w.node.Ready) (hup : w.node.server S ≠ .down) (c : Ctx)
    (r : S.Request) :
    (w.exec c (.call S r) now).1 = some (S.ask (w.table S) (r, now)).1 := by
  simp only [exec, Node.call_apply hup (table_some hready hup)]
  rfl

end Steps

theorem World.step_handled {S : Store} {w w' : World} {l : Label} (hready : w.site.node.Ready)
    (hstep : w.step l = some w') (hstop : ∀ S now, l ≠ .stop S now) :
    w'.site.table S =
      (w.handled S l).elim (w.site.table S) fun i => (S.ask (w.site.table S) i).2 := by
  rcases World.step_cases hstep with ⟨p, s, job, rfl, -, rfl⟩ |
    ⟨p, now, c, o, next, rfl, hlive, htask, rfl⟩ | ⟨p, c, r, rfl, -, -, rfl⟩ |
    ⟨p, normal, rfl, -, rfl⟩ | ⟨S, now, rfl, -⟩
  · rfl
  · rw [handled, hlive, htask]
    exact Site.exec_handles hready c o now
  · rfl
  · rfl
  · exact absurd rfl (hstop S now)

/-- A server that has its table is still up when it has handled a request. -/
theorem World.handled_up {S : Store} {w w' : World} {l : Label} {i : S.Request × DateTime}
    (hready : w.site.node.Ready) (h : w.handled S l = some i) (hstep : w.step l = some w') :
    w'.site.node.server S ≠ .down := by
  obtain ⟨p, c, next, rfl, -, htask, hup⟩ := World.handled_eq_some h
  obtain rfl := World.step_operation htask hstep
  show (w.site.exec c (.call S i.1) i.2).2.node.server S ≠ .down
  rw [Site.exec_answered hup (Site.table_some hready hup)]
  exact hup

/-- The job of a task has been requested. -/
theorem World.requested {ls : List Label} {w : World} (hrun : run World.step .init ls = some w)
    {p : Pid} {c : Ctx} {g : Code Response} (htask : w.task p = some (c, g)) :
    .request p c.session c.job ∈ ls := by
  have hall : ∀ p c g, w.task p = some (c, g) → .request p c.session c.job ∈ ls := by
    refine run_induction (G := fun _ _ => True) (P := fun ls w => ∀ p c g,
      w.task p = some (c, g) → Label.request p c.session c.job ∈ ls) nofun
      (fun ls w₁ l w₂ _ hP _ hstep => ?_) hrun (always_true _ _)
    have hold : ∀ p c g, w₁.task p = some (c, g) → .request p c.session c.job ∈ ls ++ [l] :=
      fun p c g hp => List.mem_append_left _ (hP p c g hp)
    rcases World.step_cases hstep with ⟨p, s, job, rfl, -, rfl⟩ |
      ⟨p, now, c, o, next, rfl, -, htask, rfl⟩ | ⟨p, c, r, rfl, -, -, rfl⟩ |
      ⟨p, normal, rfl, -, rfl⟩ | ⟨S, now, rfl, rfl⟩
    · refine forall_update hold ?_
      rintro c g ⟨⟩
      simp
    · refine forall_update hold ?_
      rintro c' g ⟨⟩
      exact hold p c _ htask
    · exact forall_update hold nofun
    · exact forall_update hold nofun
    · exact hold
  exact hall p c g htask

/-- A server handles what some request process asks of it. -/
theorem World.performed {S : Store} {ls : List Label} {w : World}
    (hrun : run World.step .init ls = some w) {i : S.Request × DateTime}
    (hi : i ∈ World.init.requests S ls) :
    ∃ p s job, .request p s job ∈ ls ∧ job.Performs (.call S i.1) := by
  obtain ⟨is, is', heq⟩ := List.append_of_mem hi
  obtain ⟨before, l, after, w', rfl, hbefore, hhandled, -⟩ := observe_entry heq
  obtain ⟨p, c, next, rfl, -, htask, -⟩ := World.handled_eq_some hhandled
  refine ⟨p, c.session, c.job, List.mem_append_left _ (World.requested hbefore htask), ?_⟩
  exact (c.job.code_performs.of_residual (World.residual hbefore htask)).1

/-- In a run in which nobody stops a store, its table is what the requests to it make of the empty
one, whatever else happens. -/
theorem World.table_of_requests {ls : List Label} {w : World}
    (hrun : run World.step .init ls = some w) (hstop : ∀ S now, .stop S now ∉ ls) (S : Store) :
    w.site.table S = (serve S.ask (KeyedTable.empty _) (World.init.requests S ls)).2 := by
  have h : w.site.node.Ready ∧
      w.site.table S = (serve S.ask (KeyedTable.empty _) (World.init.requests S ls)).2 := by
    refine run_observe (R := fun (w : World) T => w.site.node.Ready ∧ w.site.table S = T)
      ⟨.init, rfl⟩ (fun w l w' T hR hl hstep => ?_) hrun (World.always_not_stop hstop .init)
    obtain ⟨hready, rfl⟩ := hR
    exact ⟨World.step_ready hready hstep hl, World.step_handled hready hstep hl⟩
  exact h.2

end WebServerl
