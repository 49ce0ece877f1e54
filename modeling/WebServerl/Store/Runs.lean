import WebServerl.Lib.Machine
import WebServerl.Store.Server

/-! Runs of one store server: it handles the requests of all its clients one after the other.  A
server whose table exists keeps it, so that its run is the run of its `answer` on that table. -/

namespace WebServerl

open Erlang Erlang.Mnesia Machine

/-- The server handles a request at the time `now`: what its `handle_call` returns, and Mnesia
after it. -/
def handle {Request ρ : Type} (handleCall : Call Request → DateTime → Handler (Callback ρ))
    (db : Db) (i : Request × DateTime) : Option (Callback ρ) × Db :=
  ((handleCall (.request i.1) i.2 ⟨db, []⟩).1, (handleCall (.request i.1) i.2 ⟨db, []⟩).2.db)

/-- The requests handled so far, each with what it was answered. -/
abbrev History (Request ρ : Type) := List ((Request × DateTime) × Option (Callback ρ))

section Simulation

variable {S : Store} {Request : Type}
  {handleCall : Call Request → DateTime → Handler (Callback S.Row)}
  {answer : Request → DateTime → Table S.Row → Reply S.Row × Table S.Row}

/-- `answer` is what `handleCall` computes, as long as the table exists and nothing is aborted. -/
def Computes (S : Store) {Request : Type}
    (handleCall : Call Request → DateTime → Handler (Callback S.Row))
    (answer : Request → DateTime → Table S.Row → Reply S.Row × Table S.Row) : Prop :=
  ∀ ⦃db : Db⦄ ⦃T : Table S.Row⦄, db.table? S = some T → ∀ r now,
    handleCall (.request r) now ⟨db, []⟩ =
      (some (.reply (answer r now T).1), ⟨db.setTable S (answer r now T).2, []⟩)

theorem Computes.handle (h : Computes S handleCall answer) {db : Db} {T : Table S.Row}
    (hT : db.table? S = some T) (i : Request × DateTime) :
    handle handleCall db i =
      (some (.reply (answer i.1 i.2 T).1), db.setTable S (answer i.1 i.2 T).2) := by
  simp only [WebServerl.handle, h hT]

/-- The server keeps a table `P`, which each of its answers carries on with the history. -/
theorem Computes.serve_induction (h : Computes S handleCall answer) {db : Db} {T : Table S.Row}
    (hT : db.table? S = some T) {G : Request × DateTime → Prop}
    {P : History Request S.Row → Table S.Row → Prop} (start : P [] T)
    (keep : ∀ hist T' i, P hist T' → G i →
      P (hist ++ [(i, some (.reply (answer i.1 i.2 T').1))]) (answer i.1 i.2 T').2)
    {is : List (Request × DateTime)} (hG : ∀ i ∈ is, G i) :
    ∃ T', (serve (WebServerl.handle handleCall) db is).2.table? S = some T' ∧
      P (serve (WebServerl.handle handleCall) db is).1 T' := by
  refine Machine.serve_induction
    (P := fun hist (db : Db) => ∃ T', db.table? S = some T' ∧ P hist T')
    ⟨T, hT, start⟩ (fun hist db' i hinv hi => ?_) hG
  obtain ⟨T', hT', hP⟩ := hinv
  rw [h.handle hT']
  exact ⟨_, Db.table?_setTable_self hT' _, keep hist T' i hP hi⟩

end Simulation

end WebServerl
