import WebServerl.Interference

/-! How long a row stays.  A server also gets casts and stray messages, which it ignores; of what it
is called for, only `remove` takes a row out of its table, and nothing overwrites one. -/

namespace WebServerl

open Erlang Erlang.Mnesia Machine

/-- What can reach the server of a store. -/
inductive Input (S : Store) where
  | api (function : Api S)
  | cast (request : Term)
  | info (message : Term)

structure Event where
  store : Store
  input : Input store
  now : DateTime

/-- A call of `stop/0`. -/
def Event.isStop (e : Event) : Prop := e.input = .api (.ask .stop)

/-- A server that is up handles a message to which there is no reply. -/
def Node.receive (S : Store) (handler : Handler Unit) (n : Node) : Node :=
  match n.server S with
  | .down => n
  | .up link =>
    match handler ⟨n.db, []⟩ with
    | (some _, e) => { n with db := e.db }
    | (none, e) => crashServer S link { n with db := e.db }

/-- The server of `S` handles a `remove` of the key. -/
def Removes (S : Store) (key : Term) (n : Node) (e : Event) : Prop :=
  ∃ r now, e = ⟨S, .api (.ask (.request r)), now⟩ ∧ S.removedKey? r = some key ∧
    n.server S ≠ .down

section Model

variable [Crypto] [Ets]

def Node.event (n : Node) : Event → Option Node
  | ⟨S, .api function, now⟩ => some (n.api ⟨S, function, now⟩).2
  | ⟨S, .cast request, _⟩ => some (n.receive S (handleCast request))
  | ⟨S, .info message, _⟩ => some (n.receive S (handleInfo message))

variable {S : Store} {n n' : Node} {T : Table S.Row} {row : S.Row}

omit [Crypto] [Ets] in
theorem Node.receive_db {S : Store} {handler : Handler Unit}
    (h : ∀ e, (handler e).2.db = e.db) (n : Node) : (n.receive S handler).db = n.db := by
  unfold Node.receive
  split
  · rfl
  · have hdb := h ⟨n.db, []⟩
    split
    · rename_i e hres
      rwa [hres] at hdb
    · rename_i e hres
      rw [crashServer_db]
      rwa [hres] at hdb

/-- A request to any store keeps a row, unless it removes it. -/
theorem Node.call_keeps_row (hT : n.db.table? S = some T) (hrow : row ∈ T) {S' : Store}
    {r : S'.Request} {now : DateTime}
    (h : ¬ Removes S (Record.key row) n ⟨S', .api (.ask (.request r)), now⟩) :
    ∃ T', (n.call S' (.request r) now).2.db.table? S = some T' ∧ row ∈ T' := by
  by_cases hS : S = S'
  · subst hS
    rcases call_cases S (.request r) now n with ⟨-, hcall⟩ | ⟨link, -, hc, -⟩ |
      ⟨link, r', T', hup, hc, hT', hcall⟩ | ⟨link, r', -, -, hT', -⟩
    · rw [hcall]
      exact ⟨T, hT, hrow⟩
    · cases hc
    · cases hc
      obtain rfl : T = T' := Option.some.inj (hT.symm.trans hT')
      rw [hcall]
      refine ⟨_, Db.table?_setTable_self hT _, Store.answer_keeps_row now (fun hkey => h ?_) hrow⟩
      exact ⟨r, now, rfl, hkey, by simp [hup]⟩
    · rw [hT] at hT'
      cases hT'
  · exact ⟨T, (call_request_table? hS r now).trans hT, hrow⟩

/-- The step: whatever reaches a server, the row stays. -/
theorem Node.event_keeps_row {e : Event} (hstep : n.event e = some n')
    (hT : n.db.table? S = some T) (hrow : row ∈ T)
    (h : ¬ e.isStop ∧ ¬ Removes S (Record.key row) n e) :
    ∃ T', n'.db.table? S = some T' ∧ row ∈ T' := by
  obtain ⟨S', input, now⟩ := e
  cases input with
  | api function =>
    cases hstep
    cases function with
    | start =>
      refine ⟨T, ?_, hrow⟩
      show (n.start S' none).2.db.table? S = some T
      by_cases hS : S = S'
      · subst hS
        exact start_table S none hT
      · rw [(start_other hS none).2, hT]
    | ask c =>
      cases c with
      | request r => exact call_keeps_row hT hrow h.2
      | stop => exact absurd rfl h.1
  | cast request =>
    cases hstep
    rw [receive_db fun _ => rfl]
    exact ⟨T, hT, hrow⟩
  | info message =>
    cases hstep
    rw [receive_db fun _ => rfl]
    exact ⟨T, hT, hrow⟩

/-- A row stays as it is in every run in which no store is stopped and its own server handles no
`remove` of its key. -/
theorem rows_stay (hT : n.db.table? S = some T) (hrow : row ∈ T) {es : List Event}
    (hrun : run Node.event n es = some n')
    (h : Always Node.event (fun n e => ¬ e.isStop ∧ ¬ Removes S (Record.key row) n e) n es) :
    ∃ T', n'.db.table? S = some T' ∧ row ∈ T' := by
  refine run_induction (P := fun _ n' => ∃ T', n'.db.table? S = some T' ∧ row ∈ T') ⟨T, hT, hrow⟩
    (fun _ n₁ e n₂ _ ih he hstep => ?_) hrun h
  obtain ⟨T₁, hT₁, hrow₁⟩ := ih
  exact Node.event_keeps_row hstep hT₁ hrow₁ he

end Model

/-! Ann has an account and stays registered through a second registration under her name, the
removal of Bob's account, a cast and a stray message. -/

def annsAccount [Crypto] : Login := DbLogin.newRow (.str "Ann") (.str "secret")

def askLogin (r : DbLogin.Request) : Event := ⟨.dbLogin, .api (.ask (.request r)), .noon⟩

def annRegisters : List Event :=
  [⟨.dbLogin, .api .start, .noon⟩, askLogin (.createAccount (.str "Ann") (.str "secret"))]

def annStays : List Event :=
  [askLogin (.createAccount (.str "Ann") (.str "admin")), askLogin (.remove (.str "Bob")),
    ⟨.dbLogin, .cast (.atom "hello"), .noon⟩, ⟨.dbLogin, .info (.atom "hello"), .noon⟩]

theorem rows_stay_ann :
    let _ := Crypto.sample
    let _ := Ets.asKept
    ∃ n T, run Node.event .init (annRegisters ++ annStays) = some n ∧
      n.db.table? .dbLogin = some T ∧ annsAccount ∈ T := by
  intro _ _
  obtain ⟨n₁, T₁, hrun₁, hT₁, hann⟩ : ∃ n T, run Node.event .init annRegisters = some n ∧
      n.db.table? .dbLogin = some T ∧ annsAccount ∈ T :=
    ⟨_, _, rfl, rfl, List.mem_cons_self⟩
  have hall : Always Node.event
      (fun n e => ¬ e.isStop ∧ ¬ Removes .dbLogin (.str "Ann") n e) n₁ annStays := by
    refine always_of_forall (fun e he n => ?_) n₁
    simp only [annStays, List.mem_cons, List.not_mem_nil, or_false] at he
    rcases he with rfl | rfl | rfl | rfl
    · refine ⟨fun h => (nomatch h), ?_⟩
      rintro ⟨r, now, heq, hkey, -⟩
      cases heq
      cases hkey
    · refine ⟨fun h => (nomatch h), ?_⟩
      rintro ⟨r, now, heq, hkey, -⟩
      cases heq
      have hname : Term.str "Bob" = .str "Ann" := Option.some.inj hkey
      exact absurd hname (by decide)
    · refine ⟨fun h => (nomatch h), ?_⟩
      rintro ⟨r, now, heq, -⟩
      cases heq
    · refine ⟨fun h => (nomatch h), ?_⟩
      rintro ⟨r, now, heq, -⟩
      cases heq
  obtain ⟨n₂, hrun₂⟩ : ∃ n₂, run Node.event n₁ annStays = some n₂ := ⟨_, rfl⟩
  obtain ⟨T₂, hT₂, hstays⟩ := rows_stay hT₁ hann hrun₂ hall
  refine ⟨n₂, T₂, ?_, hT₂, hstays⟩
  rw [run_append, hrun₁, Option.bind_some, hrun₂]

end WebServerl
