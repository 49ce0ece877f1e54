import WebServerl.Handling

/-! Servers that go call of Mnesia by call of Mnesia, while the others do and any of them may stop
Mnesia, show just what servers show that do the whole of a `handle_call` at once. -/

namespace WebServerl

open Erlang Erlang.Mnesia

section Simulation

variable [Crypto] [Ets] {S : Store} {x : Option (Table S.Row)}

/-- A handler with nobody between its calls of Mnesia, by what its program does to the table. -/
theorem Store.handleCall_eq (S : Store) (r : S.Request) (now : DateTime) (db : Db) :
    S.handleCall (.request r) now ⟨db, []⟩ =
      (((S.code (.request r) now).eval DbOp.onTable (db.table? S)).1,
        ⟨putTable S ((S.code (.request r) now).eval DbOp.onTable (db.table? S)).2 db, []⟩) := by
  rw [Store.code_runs S (.request r) now db, (DbCode.eval_eq (S.code_uses r now) db).1]

omit [Ets] in
theorem Store.code_stop (S : Store) (now : DateTime) :
    S.code .stop now = .perform .stop fun _ => .done (.stop .terminated) := by
  cases S <;> rfl

/-- How far a server is that goes call by call, when the table of its store is `x`, and what the
server that does it all at once has done. -/
inductive Abreast (S : Store) (x : Option (Table S.Row)) : DbCode S (Callback S.Row) → Turn S → Prop
  | early {g : DbCode S (Callback S.Row)} {r : S.Request} {now : DateTime}
      (h : Program.Early DbOp.onTable none (S.code (.request r) now) g x)
      (hg : g.Uses (· ≠ .stop)) : Abreast S x g (.called (.request r) now)
  | stopping (now : DateTime) :
      Abreast S x (.perform .stop fun _ => .done (.stop .terminated)) (.called .stop now)
  | late {g : DbCode S (Callback S.Row)} {out : Option (Callback S.Row)}
      (h : Program.Late DbOp.onTable none out g x) (hg : g.Uses (· ≠ .stop)) :
      Abreast S x g (.handled out)

theorem Abreast.receive (S : Store) (x : Option (Table S.Row)) (c : Call S.Request)
    (now : DateTime) : Abreast S x (S.code c now) (.called c now) := by
  cases c with
  | stop =>
    rw [Store.code_stop]
    exact .stopping now
  | request r => exact .early (S.code_early r now x) (S.code_uses r now)

/-- When Mnesia is stopped, a server that has not come to its write yet goes on as one that has
only been called, or as one that had done all before. -/
theorem Abreast.lose {g : DbCode S (Callback S.Row)} {turn : Turn S} (h : Abreast S x g turn) :
    Abreast S none g turn ∨ ∃ r now, turn = .called (.request r) now ∧
      Abreast S none g (.handled ((S.code (.request r) now).eval DbOp.onTable x).1) := by
  cases h with
  | early h hg =>
    rcases h.lose DbOp.onTable_none with hearly | hlate
    · exact .inl (.early hearly hg)
    · exact .inr ⟨_, _, rfl, .late hlate hg⟩
  | stopping now => exact .inl (.stopping now)
  | late h hg => exact .inl (.late (h.lose DbOp.onTable_none) hg)

/-- A server that has come to the end of its program has done what was to be done, or the whole of
it would change nothing. -/
theorem Abreast.result {g : DbCode S (Callback S.Row)} {turn : Turn S} (h : Abreast S x g turn)
    {out : Option (Callback S.Row)} (hout : byCalls.result S g = some out) :
    turn = .handled out ∨ ∃ r now, turn = .called (.request r) now ∧
      (S.code (.request r) now).eval DbOp.onTable x = (out, x) := by
  cases h with
  | early h hg =>
    cases g with
    | done a =>
      obtain rfl : some a = out := Option.some.inj hout
      exact .inr ⟨_, _, rfl, h⟩
    | crash =>
      obtain rfl : none = out := Option.some.inj hout
      exact .inr ⟨_, _, rfl, h⟩
    | perform o next => cases hout
  | stopping now => cases hout
  | late h hg =>
    cases g with
    | done a =>
      obtain rfl : some a = out := Option.some.inj hout
      exact .inl (congrArg Turn.handled h)
    | crash =>
      obtain rfl : none = out := Option.some.inj hout
      exact .inl (congrArg Turn.handled h)
    | perform o next => cases hout

/-- One call of Mnesia changes nothing that matters, or it is where the whole handler happens, or
it stops Mnesia. -/
theorem Abreast.next {db db' : Db} {g g' : DbCode S (Callback S.Row)} {turn : Turn S}
    (h : Abreast S (db.table? S) g turn) (hnext : byCalls.next S g db = some (g', db')) :
    (db' = db ∧ Abreast S (db.table? S) g' turn) ∨
    (∃ r now, turn = .called (.request r) now ∧
      S.handleCall (.request r) now ⟨db, []⟩ =
        (((S.code (.request r) now).eval DbOp.onTable (db.table? S)).1, ⟨db', []⟩) ∧
      (∀ S' ≠ S, db'.table? S' = db.table? S') ∧
      Abreast S (db'.table? S) g'
        (.handled ((S.code (.request r) now).eval DbOp.onTable (db.table? S)).1)) ∨
    (db' = .stopped ∧ g = .perform .stop (fun _ => .done (.stop .terminated)) ∧
      g' = .done (.stop .terminated)) := by
  cases g with
  | done a => cases hnext
  | crash => cases hnext
  | perform o next =>
    obtain ⟨rfl, rfl⟩ := Prod.mk.inj (Option.some.inj hnext)
    cases h with
    | @early _ r now h hg =>
      obtain ⟨ho, hrest⟩ := hg
      have hexec := DbOp.exec_eq ho db
      obtain ⟨⟨hkeep, hearly⟩ | ⟨hdone, hlate⟩, -⟩ := h
      · refine .inl ?_
        rw [hexec, hkeep, putTable_self]
        exact ⟨rfl, .early hearly (hrest _)⟩
      · refine .inr (.inl ⟨r, now, rfl, ?_, fun S' hne => ?_, ?_⟩)
        · rw [Store.handleCall_eq, hdone, hexec]
        · rw [hexec]
          exact table?_putTable_ne hne _
        · rw [hexec, table?_putTable (DbOp.onTable_isSome ho _)]
          exact .late hlate (hrest _)
    | stopping now => exact .inr (.inr ⟨rfl, rfl, rfl⟩)
    | late h hg =>
      obtain ⟨ho, hrest⟩ := hg
      obtain ⟨hkeep, hlate, -⟩ := h
      refine .inl ?_
      rw [DbOp.exec_eq ho db, hkeep, putTable_self]
      exact ⟨rfl, .late hlate (hrest _)⟩

/-- What a server that goes call by call has left to do when it is called or has just ended. -/
def Turn.code : Turn S → DbCode S (Callback S.Row)
  | .called c now => S.code c now
  | .handled (some a) => .done a
  | .handled none => .crash

namespace Handling

/-- Two nodes in the same state, on which each server that is up is equally far. -/
structure Follows (s : Handling fun S => DbCode S (Callback S.Row)) (t : Handling Turn) :
    Prop where
  node : t.node = s.node
  abreast : ∀ S, s.node.server S ≠ .down →
    Option.Rel (Abreast S (s.node.db.table? S)) (s.work S) (t.work S)

variable {s s' : Handling fun S => DbCode S (Callback S.Row)} {t : Handling Turn}

theorem Follows.exists_turn (h : Follows s t) (hup : s.node.server S ≠ .down)
    {g : DbCode S (Callback S.Row)} (hg : s.work S = some g) :
    ∃ turn, t.work S = some turn ∧ Abreast S (s.node.db.table? S) g turn := by
  have hrel := h.abreast S hup
  rw [hg] at hrel
  cases hturn : t.work S with
  | none =>
    rw [hturn] at hrel
    cases hrel
  | some turn =>
    rw [hturn] at hrel
    cases hrel with
    | some hab => exact ⟨turn, rfl, hab⟩

theorem Follows.idle (h : Follows s t) (hup : s.node.server S ≠ .down)
    (hidle : s.work S = none) : t.work S = none := by
  have hrel := h.abreast S hup
  rw [hidle] at hrel
  cases hturn : t.work S with
  | none => rfl
  | some turn =>
    rw [hturn] at hrel
    cases hrel

/-- What happens to the server of `S` does not concern the others, as long as their tables stay. -/
theorem Follows.update (h : Follows s t) {n : Node} {w : Option (DbCode S (Callback S.Row))}
    {turn : Option (Turn S)}
    (hdown : ∀ S' ≠ S, s.node.server S' = .down → n.server S' = .down)
    (htable : ∀ S' ≠ S, n.db.table? S' = s.node.db.table? S')
    (hS : n.server S ≠ .down → Option.Rel (Abreast S (n.db.table? S)) w turn) :
    Follows ⟨n, Function.update s.work S w⟩ ⟨n, Function.update t.work S turn⟩ := by
  refine ⟨rfl, fun S' hup => ?_⟩
  by_cases hne : S' = S
  · subst hne
    simpa only [Function.update_self] using hS hup
  · simp only [Function.update_of_ne hne, htable S' hne]
    exact h.abreast S' fun hdown' => hup (hdown S' hne hdown')

/-- Before Mnesia stops, those that will have done their work first do it. -/
theorem Follows.before_stop (h : Follows s t) (stores : List Store) :
    ∃ ls t', Machine.run (step atOnce) t ls = some t' ∧ ls.filter Label.seen = [] ∧
      (∃ db, t'.node = { t.node with db }) ∧
      (∀ S, S ∉ stores → t'.work S = t.work S ∧ t'.node.db.table? S = t.node.db.table? S) ∧
      ∀ S ∈ stores, s.node.server S ≠ .down →
        Option.Rel (Abreast S none) (s.work S) (t'.work S) := by
  induction stores with
  | nil => exact ⟨[], t, rfl, rfl, ⟨t.node.db, rfl⟩, fun _ _ => ⟨rfl, rfl⟩, by simp⟩
  | cons S stores ih =>
    obtain ⟨ls, t₁, hrun, hseen, ⟨db, hnode⟩, hkept, hlost⟩ := ih
    have hsame (hrel : s.node.server S ≠ .down →
        Option.Rel (Abreast S none) (s.work S) (t₁.work S)) :
        ∃ ls t', Machine.run (step atOnce) t ls = some t' ∧ ls.filter Label.seen = [] ∧
          (∃ db, t'.node = { t.node with db }) ∧
          (∀ S', S' ∉ S :: stores →
            t'.work S' = t.work S' ∧ t'.node.db.table? S' = t.node.db.table? S') ∧
          ∀ S' ∈ S :: stores, s.node.server S' ≠ .down →
            Option.Rel (Abreast S' none) (s.work S') (t'.work S') :=
      ⟨ls, t₁, hrun, hseen, ⟨db, hnode⟩, fun S' hS' => hkept S' fun h => hS' (.tail _ h),
        List.forall_mem_cons.mpr ⟨hrel, hlost⟩⟩
    by_cases hmem : S ∈ stores
    · exact hsame (hlost S hmem)
    by_cases hup : s.node.server S = .down
    · exact hsame fun h => absurd hup h
    obtain ⟨hwork, htable⟩ := hkept S hmem
    cases hg : s.work S with
    | none =>
      refine hsame fun _ => ?_
      rw [hg, hwork, h.idle hup hg]
      exact .none
    | some g =>
      obtain ⟨turn, hturn, hab⟩ := h.exists_turn hup hg
      rcases hab.lose with hab' | ⟨r, now, rfl, hab'⟩
      · refine hsame fun _ => ?_
        rw [hg, hwork, hturn]
        exact .some hab'
      · have hup₁ : t₁.node.server S ≠ .down := by
          rw [hnode]
          rwa [h.node]
        have hstep := step_called hup₁ (hwork.trans hturn)
        refine ⟨ls ++ [.mnesia S], _, Machine.run_concat_some.mpr ⟨t₁, hrun, hstep⟩,
          by simp [hseen, Label.seen], ⟨_, by rw [hnode]⟩, fun S' hS' => ?_, fun S' hS' hup' => ?_⟩
        · obtain ⟨hne, hmem'⟩ : S' ≠ S ∧ S' ∉ stores := by simpa using hS'
          rw [Store.handleCall_eq]
          exact ⟨(Function.update_of_ne hne _ _).trans (hkept S' hmem').1,
            (table?_putTable_ne hne _).trans (hkept S' hmem').2⟩
        · by_cases hne : S' = S
          · subst hne
            simp only [hg, Function.update_self, Store.handleCall_eq, htable, h.node]
            exact .some hab'
          · simp only [Function.update_of_ne hne]
            exact hlost S' ((List.mem_cons.mp hS').resolve_left hne) hup'

theorem Follows.mnesia (h : Follows s t) (hstep : step byCalls s (.mnesia S) = some s') :
    ∃ ls t', Machine.run (step atOnce) t ls = some t' ∧ ls.filter Label.seen = [] ∧
      Follows s' t' := by
  obtain ⟨hup, g, g', db', hg, hnext, rfl⟩ := step_mnesia_iff.mp hstep
  obtain ⟨turn, hturn, hab⟩ := h.exists_turn hup hg
  have hup' : t.node.server S ≠ .down := by rwa [h.node]
  obtain ⟨rfl, hab'⟩ | ⟨r, now, rfl, hcall, htable, hab'⟩ | ⟨rfl, rfl, rfl⟩ :=
    hab.next hnext
  · have hsame := h.update (n := s.node) (fun _ _ => id) (fun _ _ => rfl) fun _ => .some hab'
    rw [← hturn, Function.update_eq_self] at hsame
    obtain ⟨node, work⟩ := t
    obtain rfl : node = s.node := h.node
    exact ⟨[], _, rfl, rfl, hsame⟩
  · refine ⟨[.mnesia S], _, ?_, rfl, h.update (fun _ _ => id) htable fun _ => .some hab'⟩
    rw [Machine.run_cons, step_called hup' hturn, h.node, hcall]
    rfl
  · obtain ⟨ls, t₁, hrun, hseen, ⟨db, hnode⟩, -, hlost⟩ :=
      h.before_stop [.visitorsDb, .dbLogin, .dbMessage, .dbComment]
    have hstopped : Follows ⟨{ s.node with db := .stopped }, s.work⟩
        ⟨{ s.node with db := .stopped }, t₁.work⟩ :=
      ⟨rfl, fun S' hup' => hlost S' (by cases S' <;> simp) hup'⟩
    obtain ⟨turn₁, hturn₁, hab₁⟩ := hstopped.exists_turn hup hg
    cases hab₁ with
    | early _ huses => exact absurd rfl huses.1
    | late _ huses => exact absurd rfl huses.1
    | stopping now =>
      have hup₁ : t₁.node.server S ≠ .down := by rwa [hnode]
      have hcalled := step_called hup₁ hturn₁
      rw [Store.handleCall_stop, hnode, h.node] at hcalled
      refine ⟨ls ++ [.mnesia S], _, Machine.run_concat_some.mpr ⟨t₁, hrun, hcalled⟩,
        by simp [hseen, Label.seen], ?_⟩
      exact hstopped.update (fun _ _ => id) (fun _ _ => rfl) fun _ => .some (.late rfl trivial)

theorem Follows.finish (h : Follows s t) {out : Option (Callback S.Row)}
    (hstep : step byCalls s (.finish S out) = some s') :
    ∃ ls t', Machine.run (step atOnce) t ls = some t' ∧
      ls.filter Label.seen = [.finish S out] ∧ Follows s' t' := by
  obtain ⟨link, g, hlink, hg, hout, rfl⟩ := step_finish_iff.mp hstep
  have hup : s.node.server S ≠ .down := by simp [hlink]
  obtain ⟨turn, hturn, hab⟩ := h.exists_turn hup hg
  have hfollows : Follows ⟨Handling.finish S link s.node out, Function.update s.work S none⟩
      ⟨Handling.finish S link s.node out, Function.update t.work S none⟩ :=
    h.update (fun _ _ hdown => finish_down hdown link out)
      (fun _ _ => by rw [finish_db]) fun _ => .none
  rcases hab.result hout with rfl | ⟨r, now, rfl, heval⟩
  · refine ⟨[.finish S out], _, ?_, rfl, hfollows⟩
    rw [Machine.run_cons, step_handled (by rw [h.node, hlink]) hturn, h.node]
    rfl
  · have hcalled := step_called (by rwa [h.node]) hturn
    rw [Store.handleCall_eq, h.node, heval, putTable_self] at hcalled
    refine ⟨[.mnesia S, .finish S out], _, ?_, rfl, hfollows⟩
    rw [Machine.run_cons, hcalled, Option.bind_some, Machine.run_cons,
      step_handled hlink (Function.update_self S _ _)]
    simp [Function.update_idem]

theorem Follows.start (h : Follows s t) {link : Option Pid}
    (hstep : step byCalls s (.start S link) = some s') :
    ∃ t', step atOnce t (.start S link) = some t' ∧ Follows s' t' := by
  rw [step] at hstep ⊢
  rw [h.node]
  cases hs : s.node.server S with
  | up link' =>
    rw [hs] at hstep
    obtain rfl := Option.some.inj hstep
    exact ⟨t, rfl, h⟩
  | down =>
    rw [hs] at hstep
    obtain rfl := Option.some.inj hstep
    refine ⟨_, rfl, h.update (fun S' hne hdown => ?_) (fun S' hne => ?_) fun _ => .none⟩
    · rw [(Node.start_other hne link).1, hdown]
    · exact (Node.start_other hne link).2

theorem Follows.receive (h : Follows s t) {c : Call S.Request} {now : DateTime}
    (hstep : step byCalls s (.receive S c now) = some s') :
    ∃ t', step atOnce t (.receive S c now) = some t' ∧ Follows s' t' := by
  obtain ⟨hup, hidle, rfl⟩ := step_receive_iff.mp hstep
  refine ⟨_, step_receive_iff.mpr ⟨by rwa [h.node], h.idle hup hidle, rfl⟩, ?_⟩
  rw [h.node]
  exact h.update (n := s.node) (fun _ _ => id) (fun _ _ => rfl)
    fun _ => .some (.receive S _ c now)

theorem Follows.exit (h : Follows s t) {p : Pid} {normal : Bool}
    (hstep : step byCalls s (.exit p normal) = some s') :
    ∃ t', step atOnce t (.exit p normal) = some t' ∧ Follows s' t' := by
  obtain rfl := Option.some.inj hstep
  refine ⟨_, rfl, by rw [h.node], fun S hup => h.abreast S fun hdown => hup ?_⟩
  exact Node.exit_down hdown p normal

/-- The step: the servers that work at once follow, and show the same. -/
theorem Follows.step (h : Follows s t) {l : Label} (hstep : Handling.step byCalls s l = some s') :
    ∃ ls t', Machine.run (Handling.step atOnce) t ls = some t' ∧
      ls.filter Label.seen = [l].filter Label.seen ∧ Follows s' t' := by
  have hone (hone : ∃ t', Handling.step atOnce t l = some t' ∧ Follows s' t') :
      ∃ ls t', Machine.run (Handling.step atOnce) t ls = some t' ∧
        ls.filter Label.seen = [l].filter Label.seen ∧ Follows s' t' := by
    obtain ⟨t', ht, h'⟩ := hone
    exact ⟨[l], t', by rw [Machine.run_cons, ht]; rfl, rfl, h'⟩
  cases l with
  | start S link => exact hone (h.start hstep)
  | exit p normal => exact hone (h.exit hstep)
  | receive S c now => exact hone (h.receive hstep)
  | mnesia S => exact h.mnesia hstep
  | finish S out => exact h.finish hstep

theorem Follows.init (n : Node) : Follows (.init _ n) (.init Turn n) := ⟨rfl, fun _ _ => .none⟩

/-! ### One after the other -/

/-- The same state of servers that go call by call. -/
def spelled (t : Handling Turn) : Handling fun S => DbCode S (Callback S.Row) :=
  ⟨t.node, fun S => (t.work S).map Turn.code⟩

omit [Ets] in
theorem spelled_update (n : Node) (work : (S : Store) → Option (Turn S))
    (turn : Option (Turn S)) :
    spelled ⟨n, Function.update work S turn⟩ =
      ⟨n, Function.update (spelled ⟨n, work⟩).work S (turn.map Turn.code)⟩ := by
  have hwork : (fun S' => (Function.update work S turn S').map Turn.code) =
      Function.update (fun S' => (work S').map Turn.code) S (turn.map Turn.code) :=
    funext fun S' => Function.apply_update (fun _ => Option.map Turn.code) work S turn S'
  exact congrArg (Handling.mk n) hwork

/-- A server makes its calls of Mnesia one after the other, with nobody in between. -/
theorem run_code (hup : s.node.server S ≠ .down) {g : DbCode S (Callback S.Row)}
    (hg : s.work S = some g) :
    ∃ k, Machine.run (step byCalls) s (List.replicate k (.mnesia S)) =
      some ⟨{ s.node with db := (g.eval DbOp.exec s.node.db).2 },
        Function.update s.work S (some (Turn.handled (g.eval DbOp.exec s.node.db).1).code)⟩ := by
  induction g generalizing s with
  | done a =>
    refine ⟨0, congrArg some ?_⟩
    rw [Program.eval_done, Turn.code, ← hg, Function.update_eq_self]
  | crash =>
    refine ⟨0, congrArg some ?_⟩
    rw [Program.eval_crash, Turn.code, ← hg, Function.update_eq_self]
  | perform o next ih =>
    have hstep : step byCalls s (.mnesia S) = some ⟨{ s.node with db := (o.exec s.node.db).2 },
        Function.update s.work S (some (next (o.exec s.node.db).1))⟩ :=
      step_mnesia_iff.mpr ⟨hup, _, _, _, hg, rfl, rfl⟩
    obtain ⟨k, hrun⟩ := ih (o.exec s.node.db).1
      (s := ⟨{ s.node with db := (o.exec s.node.db).2 },
        Function.update s.work S (some (next (o.exec s.node.db).1))⟩) hup
      (Function.update_self S _ _)
    refine ⟨k + 1, ?_⟩
    rw [List.replicate_succ, Machine.run_cons, hstep]
    refine hrun.trans (congrArg some ?_)
    simp only [Function.update_idem, Program.eval_perform]

/-- The step: what is done at once can be done call by call. -/
theorem spelled_step {t' : Handling Turn} {l : Label} (hs : s = t.spelled)
    (hstep : step atOnce t l = some t') :
    ∃ ls s', Machine.run (step byCalls) s ls = some s' ∧
      ls.filter Label.seen = [l].filter Label.seen ∧ s' = t'.spelled := by
  subst hs
  have hone (hone : step byCalls t.spelled l = some t'.spelled) :
      ∃ ls s', Machine.run (step byCalls) t.spelled ls = some s' ∧
        ls.filter Label.seen = [l].filter Label.seen ∧ s' = t'.spelled :=
    ⟨[l], _, by rw [Machine.run_cons, hone]; rfl, rfl, rfl⟩
  cases l with
  | start S link =>
    refine hone ?_
    rw [step] at hstep ⊢
    cases hs : t.node.server S with
    | up link' =>
      rw [hs] at hstep
      obtain rfl := Option.some.inj hstep
      simp [spelled, hs]
    | down =>
      rw [hs] at hstep
      obtain rfl := Option.some.inj hstep
      rw [spelled_update]
      simp [spelled, hs]
  | exit p normal =>
    obtain rfl := Option.some.inj hstep
    exact hone rfl
  | receive S c now =>
    obtain ⟨hup, hidle, rfl⟩ := step_receive_iff.mp hstep
    refine hone (step_receive_iff.mpr ⟨hup, ?_, ?_⟩)
    · simp [spelled, hidle]
    · exact spelled_update _ _ _
  | mnesia S =>
    obtain ⟨hup, turn, turn', db', hturn, hnext, rfl⟩ := step_mnesia_iff.mp hstep
    cases turn with
    | handled out => cases hnext
    | called c now =>
      obtain ⟨rfl, rfl⟩ := Prod.mk.inj (Option.some.inj hnext)
      obtain ⟨k, hrun⟩ := run_code (s := t.spelled) hup (g := S.code c now)
        (by simp [spelled, hturn, Turn.code])
      refine ⟨List.replicate k (.mnesia S), _, ?_, by simp [Label.seen], rfl⟩
      rw [hrun, Store.code_runs S c now, spelled_update]
      rfl
  | finish S out =>
    obtain ⟨link, turn, hlink, hturn, hout, rfl⟩ := step_finish_iff.mp hstep
    refine hone (step_finish_iff.mpr ⟨link, turn.code, hlink, by simp [spelled, hturn], ?_, ?_⟩)
    · cases turn with
      | called c now => cases hout
      | handled out' =>
        obtain rfl := Option.some.inj hout
        cases out' <;> rfl
    · exact spelled_update _ _ _

end Handling

end Simulation

open Handling Machine

section Atomic

variable [Crypto] [Ets]

end Atomic

attribute [local instance] Crypto.sample Ets.asKept

/-! Mnesia is stopped between the read and the write of a comment, and the reply is `ok`. -/

example : (run (step byCalls) (.init _ .init) [.start .dbComment none, .start .visitorsDb none,
    .receive .dbComment (.request (.addComment (.str "Ann") (.str "hello"))) .noon,
    .mnesia .dbComment, .mnesia .dbComment,
    .receive .visitorsDb .stop .noon, .mnesia .visitorsDb, .mnesia .dbComment,
    .finish .dbComment (some (.reply .ok))]).isSome := by decide +kernel

end WebServerl
