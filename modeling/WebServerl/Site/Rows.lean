import WebServerl.Site.Uses
import WebServerl.Site.World

/-! What the steps of the site do to the tables of the stores: no step of a page overwrites a row,
and as long as nobody stops Mnesia, every server that is up has its table. -/

namespace WebServerl

open Erlang Erlang.Mnesia Machine

/-- Every row of the store is still there, in a table that still exists. -/
def KeepsRows (S : Store) (n n' : Node) : Prop :=
  ∀ T, n.db.table? S = some T → ∃ T', n'.db.table? S = some T' ∧ ∀ row ∈ T, row ∈ T'

theorem KeepsRows.of_eq {S : Store} {n n' : Node} (h : n'.db.table? S = n.db.table? S) :
    KeepsRows S n n' := fun T hT => ⟨T, h.trans hT, fun _ => id⟩

theorem KeepsRows.refl (S : Store) (n : Node) : KeepsRows S n n := .of_eq rfl

theorem KeepsRows.trans {S : Store} {n n' n'' : Node} (h : KeepsRows S n n')
    (h' : KeepsRows S n' n'') : KeepsRows S n n'' := by
  intro T hT
  obtain ⟨T', hT', hrows⟩ := h T hT
  obtain ⟨T'', hT'', hrows'⟩ := h' T' hT'
  exact ⟨T'', hT'', fun row hrow => hrows' row (hrows row hrow)⟩

/-- The rows of `db_comment`. -/
def Site.comments (w : Site) : List Comment :=
  ((w.node.db.table? .dbComment).map KeyedTable.rows).getD []

theorem Site.comments_of_table {w : Site} {T : Table Comment}
    (hT : w.node.db.table? .dbComment = some T) : w.comments = T.rows := by
  rw [comments, hT, Option.map_some, Option.getD_some]

theorem Site.mem_comments {w : Site} {row : Comment} :
    row ∈ w.comments ↔ ∃ T, w.node.db.table? .dbComment = some T ∧ row ∈ T := by
  cases hT : w.node.db.table? .dbComment with
  | none => simp [comments, hT]
  | some T =>
    rw [comments_of_table hT]
    exact ⟨fun h => ⟨T, rfl, h⟩, fun ⟨T', hT', h⟩ => by cases hT'; exact h⟩

theorem Site.eq_of_id_eq {w : Site} {row row' : Comment} (h : row ∈ w.comments)
    (h' : row' ∈ w.comments) (hid : row.id = row'.id) : row = row' := by
  obtain ⟨T, hT, hrow⟩ := Site.mem_comments.mp h
  rw [Site.comments_of_table hT] at h'
  exact KeyedTable.eq_of_key_eq hrow h' hid

theorem KeepsRows.comments {w w' : Site} (h : KeepsRows .dbComment w.node w'.node) {row : Comment}
    (hrow : row ∈ w.comments) : row ∈ w'.comments := by
  obtain ⟨T, hT, hmem⟩ := Site.mem_comments.mp hrow
  obtain ⟨T', hT', hrows⟩ := h T hT
  exact Site.mem_comments.mpr ⟨T', hT', hrows row hmem⟩

/-- Every server that is up has its table. -/
def Node.Ready (n : Node) : Prop := ∀ S, n.server S ≠ .down → ∃ T, n.db.table? S = some T

theorem Node.Ready.init : Node.init.Ready := fun _ h => absurd rfl h

theorem Node.Ready.start {n : Node} (h : n.Ready) (S : Store) (link : Option Pid) :
    (n.start S link).2.Ready := by
  intro S' hup
  by_cases hS : S' = S
  · subst hS
    cases hs : n.server S' with
    | down =>
      rw [start_down hs]
      exact ⟨_, Db.table?_createTable_start _ _⟩
    | up link' =>
      rw [start_up hs]
      exact h S' (by simp [hs])
  · obtain ⟨hserver, htable⟩ := start_other hS link (n := n)
    rw [htable]
    exact h S' (hserver ▸ hup)

theorem Node.Ready.exit {n : Node} (h : n.Ready) (p : Pid) (normal : Bool) :
    (n.exit p normal).Ready := by
  intro S hup
  refine h S fun hdown => hup ?_
  simp [Node.exit, hdown]

section Calls

variable [Crypto] [Ets] {n : Node} {S : Store} {r : S.Request} {now : DateTime}

theorem Node.Ready.call (h : n.Ready) : (n.call S (.request r) now).2.Ready := by
  rcases call_cases S (.request r) now n with ⟨-, hcall⟩ | ⟨link, -, hc, -⟩ |
    ⟨link, r', T, hup, -, hT, hcall⟩ | ⟨link, r', hup, -, hT, -⟩
  · rw [hcall]
    exact h
  · cases hc
  · rw [hcall]
    intro S' hS'
    by_cases hS : S' = S
    · subst hS
      exact ⟨_, Db.table?_setTable_self hT _⟩
    · obtain ⟨T', hT'⟩ := h S' hS'
      exact ⟨T', (Db.table?_setTable_ne _ hS _).trans hT'⟩
  · obtain ⟨T, hT'⟩ := h S (by simp [hup])
    rw [hT] at hT'
    cases hT'

/-- A call that a running server answers. -/
theorem Site.exec_answered {T : Table S.Row} {w : Site} (hup : w.node.server S ≠ .down)
    (hT : w.node.db.table? S = some T) (c : Ctx) :
    (w.exec c (.call S r) now).2.node =
      { w.node with db := w.node.db.setTable S (S.answer r now T).2 } := by
  simp only [exec, Node.call_apply hup hT]

/-- What an operation does to a table that exists. -/
theorem Site.exec_table {S : Store} (c : Ctx) (o : Op) (now : DateTime) {w : Site}
    {T : Table S.Row} (hT : w.node.db.table? S = some T) :
    (w.exec c o now).2.node.db.table? S = some T ∨ ∃ r, o = .call S r ∧
      w.node.server S ≠ .down ∧
      (w.exec c o now).2.node.db.table? S = some (S.answer r now T).2 := by
  cases o with
  | start S' =>
    refine .inl ?_
    by_cases hS : S = S'
    · subst hS
      exact Node.start_table S (some c.pid) hT
    · exact (Node.start_other hS (some c.pid)).2.trans hT
  | call S' r =>
    by_cases hS : S = S'
    · subst hS
      by_cases hdown : w.node.server S = .down
      · refine .inl ?_
        simp only [exec, Node.call_down hdown]
        exact hT
      · refine .inr ⟨r, rfl, hdown, ?_⟩
        rw [exec_answered hdown hT]
        exact Db.table?_setTable_self hT _
    · exact .inl ((Node.call_request_table? hS r now).trans hT)
  | user => exact .inl hT
  | setUser u => exact .inl hT
  | logout => exact .inl hT

/-- A table that an operation creates is empty. -/
theorem Site.exec_new_table {S : Store} (c : Ctx) (o : Op) (now : DateTime) {w : Site}
    (hT : w.node.db.table? S = none) {T' : Table S.Row}
    (hT' : (w.exec c o now).2.node.db.table? S = some T') : T' = KeyedTable.empty _ := by
  have hold : ∀ n : Node, n.db.table? S = w.node.db.table? S → n.db.table? S ≠ some T' := by
    intro n heq
    rw [heq, hT]
    nofun
  cases o with
  | start S' =>
    by_cases hS : S = S'
    · subst hS
      cases hs : w.node.server S with
      | down =>
        have hdb : (w.exec c (.start S) now).2.node.db = w.node.db.start.createTable S := by
          simp only [exec, Node.start_down hs]
        rw [hdb, Db.table?_createTable_start, hT, Option.getD_none] at hT'
        exact (Option.some.inj hT').symm
      | up link =>
        have hnode : (w.exec c (.start S) now).2.node = w.node := by
          simp only [exec, Node.start_up hs]
        exact absurd hT' (hold _ (by rw [hnode]))
    · exact absurd hT' (hold _ (Node.start_other hS (some c.pid)).2)
  | call S' r =>
    by_cases hS : S = S'
    · subst hS
      refine absurd hT' (hold _ ?_)
      rcases Node.call_cases S (.request r) now w.node with ⟨-, hcall⟩ | ⟨link, -, hc, -⟩ |
        ⟨link, r', T, -, -, hT₀, -⟩ | ⟨link, r', -, -, -, hcall⟩
      · simp only [exec, hcall]
      · cases hc
      · rw [hT] at hT₀
        cases hT₀
      · simp only [exec, hcall]
        split
        · rfl
        · rw [Node.crashServer_db]
    · exact absurd hT' (hold _ (Node.call_request_table? hS r now))
  | user => exact absurd hT' (hold _ rfl)
  | setUser u => exact absurd hT' (hold _ rfl)
  | logout => exact absurd hT' (hold _ rfl)

theorem Site.exec_keepsRows {S : Store} {o : Op}
    (ho : ∀ r, o = .call S r → S.removedKey? r = none) (c : Ctx) (now : DateTime) (w : Site) :
    KeepsRows S w.node (w.exec c o now).2.node := by
  intro T hT
  rcases Site.exec_table c o now hT with hsame | ⟨r, rfl, -, hans⟩
  · exact ⟨T, hsame, fun _ => id⟩
  · exact ⟨_, hans, fun row hrow => Store.answer_keeps (ho r rfl) now hrow⟩

theorem Site.exec_ready {w : Site} (h : w.node.Ready) (c : Ctx) (o : Op) (now : DateTime) :
    (w.exec c o now).2.node.Ready := by
  cases o with
  | start S => exact h.start S _
  | call S r => exact h.call
  | user => exact h
  | setUser u => exact h
  | logout => exact h

/-- The next operation of a task is one that its request may use. -/
theorem World.mayUse {ls : List Label} {w : World} (hrun : run World.step .init ls = some w)
    {p : Pid} {c : Ctx} {o : Op} {next : o.Res → Code Response}
    (htask : w.task p = some (c, .perform o next)) : c.job.MayUse o :=
  (c.job.code_uses.of_residual (World.residual hrun htask)).1

/-- A step leaves an existing table as it is, or is a call that a running server answers. -/
theorem World.step_table {S : Store} {w w' : World} {l : Label} {T : Table S.Row}
    (hstep : w.step l = some w') (hstop : ∀ S now, l ≠ .stop S now)
    (hT : w.site.node.db.table? S = some T) :
    w'.site.node.db.table? S = some T ∨ ∃ p now c r next, l = .step p now ∧
      w.site.node.live p = true ∧ w.task p = some (c, .perform (.call S r) next) ∧
      w.site.node.server S ≠ .down ∧
      w'.site.node.db.table? S = some (S.answer r now T).2 := by
  rcases World.step_cases hstep with ⟨p, s, job, -, -, rfl⟩ |
    ⟨p, now, c, o, next, rfl, hlive, htask, rfl⟩ | ⟨p, c, r, -, -, -, rfl⟩ |
    ⟨p, normal, -, -, rfl⟩ | ⟨S, now, hl, -⟩
  · exact .inl hT
  · rcases Site.exec_table c o now hT with hsame | ⟨r, rfl, hup, hans⟩
    · exact .inl hsame
    · exact .inr ⟨p, now, c, r, next, rfl, hlive, htask, hup, hans⟩
  · exact .inl hT
  · exact .inl hT
  · exact absurd hl (hstop S now)

theorem World.step_table_exists {S : Store} {w w' : World} {l : Label}
    (hT : ∃ T, w.site.node.db.table? S = some T) (hstep : w.step l = some w')
    (hstop : ∀ S now, l ≠ .stop S now) : ∃ T, w'.site.node.db.table? S = some T := by
  obtain ⟨T, hT⟩ := hT
  rcases World.step_table hstep hstop hT with hsame | ⟨_, _, _, _, _, _, _, _, _, hans⟩
  · exact ⟨T, hsame⟩
  · exact ⟨_, hans⟩

theorem World.always_not_stop {ls : List Label} (hstop : ∀ S now, .stop S now ∉ ls) (w : World) :
    Always World.step (fun _ l => ∀ S now, l ≠ .stop S now) w ls :=
  always_of_forall (fun l hmem w S now hl => hstop S now (by rwa [← hl])) w

theorem World.table_exists {S : Store} {w w' : World} {ls : List Label}
    (hT : ∃ T, w.site.node.db.table? S = some T) (hrun : run World.step w ls = some w')
    (hstop : ∀ S now, .stop S now ∉ ls) : ∃ T, w'.site.node.db.table? S = some T := by
  exact run_induction (P := fun _ w' => ∃ T, w'.site.node.db.table? S = some T) hT
    (fun _ _ _ _ _ h hl hstep => World.step_table_exists h hstep hl) hrun (always_not_stop hstop w)

/-- A step keeps the rows of a store, or is a call that removes one. -/
theorem World.step_keepsRows {S : Store} {w w' : World} {l : Label} (hstep : w.step l = some w')
    (hstop : ∀ S now, l ≠ .stop S now) :
    KeepsRows S w.site.node w'.site.node ∨ ∃ p now c r key next, l = .step p now ∧
      w.site.node.live p = true ∧ w.task p = some (c, .perform (.call S r) next) ∧
      S.removedKey? r = some key := by
  by_cases hrem : ∃ p now c r key next, l = .step p now ∧ w.site.node.live p = true ∧
      w.task p = some (c, .perform (.call S r) next) ∧ S.removedKey? r = some key
  · exact .inr hrem
  · refine .inl fun T hT => ?_
    rcases World.step_table hstep hstop hT with hsame |
      ⟨p, now, c, r, next, rfl, hlive, htask, -, hans⟩
    · exact ⟨T, hsame, fun _ => id⟩
    · refine ⟨_, hans, fun row hrow => Store.answer_keeps ?_ now hrow⟩
      by_contra hkey
      obtain ⟨key, hkey⟩ := Option.ne_none_iff_exists'.mp hkey
      exact hrem ⟨p, now, c, r, key, next, rfl, hlive, htask, hkey⟩

theorem World.step_ready {w w' : World} {l : Label} (hready : w.site.node.Ready)
    (hstep : w.step l = some w') (hstop : ∀ S now, l ≠ .stop S now) : w'.site.node.Ready := by
  rcases World.step_cases hstep with ⟨p, s, job, -, -, rfl⟩ |
    ⟨p, now, c, o, next, -, -, -, rfl⟩ | ⟨p, c, r, -, -, -, rfl⟩ | ⟨p, normal, -, -, rfl⟩ |
    ⟨S, now, rfl, -⟩
  · exact hready
  · exact Site.exec_ready hready c o now
  · exact hready
  · exact hready.exit p normal
  · exact absurd rfl (hstop S now)

/-- As long as nobody stops a store, every server that is up has its table. -/
theorem World.ready {ls : List Label} {w : World} (hrun : run World.step .init ls = some w)
    (hstop : ∀ S now, .stop S now ∉ ls) : w.site.node.Ready :=
  run_induction (P := fun _ (w : World) => w.site.node.Ready) .init
    (fun _ _ _ _ _ h hl hstep => World.step_ready h hstep hl) hrun (always_not_stop hstop .init)

end Calls

end WebServerl
