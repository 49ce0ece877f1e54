import WebServerl.Store.Family

/-! The Erlang node: one Mnesia, the four store servers, and the processes that they are linked
to.  `start` is each module's `start/0`, and `call` is `gen_server:call/2`. -/

namespace WebServerl

open Erlang Erlang.Mnesia

abbrev Pid := Nat

/-- A server is not registered, or it is alive and linked to the process that started it, as long
as that process has not ended. -/
inductive Status where
  | down
  | up (link : Option Pid)
  deriving DecidableEq

theorem Status.exists_up {status : Status} (h : status ≠ .down) :
    ∃ link, status = .up link := by
  cases status with
  | down => exact absurd rfl h
  | up link => exact ⟨link, rfl⟩

structure Node where
  db : Db
  server : Store → Status
  live : Pid → Bool

namespace Node

/-- The node before any store has been started. -/
def init : Node := ⟨.stopped, fun _ => .down, fun _ => false⟩

/-- `start/0` of a store, by a process that `gen_server:start_link` links to it: whether a server
was started, or one was running already. -/
def start (S : Store) (link : Option Pid) (n : Node) : Bool × Node :=
  match n.server S with
  | .up _ => (false, n)
  | .down => (true, { n with
      db := n.db.start.createTable S
      server := Function.update n.server S (.up link) })

/-- The process `p` ends.  A server linked to it ignores a normal end and dies of any other. -/
def exit (p : Pid) (normal : Bool) (n : Node) : Node :=
  { n with
    server := fun S =>
      if n.server S = .up (some p) then (if normal then .up none else .down) else n.server S
    live := Function.update n.live p false }

/-- A server dies of an error, which takes the process linked to it along. -/
def crashServer (S : Store) (link : Option Pid) (n : Node) : Node :=
  let n' := { n with server := Function.update n.server S .down }
  match link with
  | none => n'
  | some p => n'.exit p false

theorem start_down {S : Store} {n : Node} (h : n.server S = .down) (link : Option Pid) :
    n.start S link = (true, { n with
      db := n.db.start.createTable S
      server := Function.update n.server S (.up link) }) := by
  simp only [start, h]

theorem start_up {S : Store} {n : Node} {link : Option Pid} (h : n.server S = .up link)
    (link' : Option Pid) : n.start S link' = (false, n) := by
  simp only [start, h]

theorem start_other {S S' : Store} {n : Node} (h : S ≠ S') (link : Option Pid) :
    (n.start S' link).2.server S = n.server S ∧
      (n.start S' link).2.db.table? S = n.db.table? S := by
  cases hs : n.server S' with
  | down =>
    rw [start_down hs]
    exact ⟨Function.update_of_ne h _ _, Db.table?_createTable_start_ne _ h⟩
  | up link' =>
    rw [start_up hs]
    exact ⟨rfl, rfl⟩

theorem start_table {n : Node} (S : Store) (link : Option Pid) {T : Table S.Row}
    (hT : n.db.table? S = some T) : (n.start S link).2.db.table? S = some T := by
  cases hs : n.server S with
  | down =>
    rw [start_down hs]
    show (n.db.start.createTable S).table? S = some T
    rw [Db.table?_createTable_start, hT, Option.getD_some]
  | up link' =>
    rw [start_up hs]
    exact hT

theorem exit_down {n : Node} {S : Store} (h : n.server S = .down) (p : Pid) (normal : Bool) :
    (n.exit p normal).server S = .down := by
  simp [exit, h]

theorem crashServer_db (S : Store) (link : Option Pid) (n : Node) :
    (crashServer S link n).db = n.db := by
  cases link <;> rfl

variable [Crypto] [Ets]

/-- `gen_server:call/2`; `none` is an exit in the caller, because there is no such server or
because it died over the call. -/
def call (S : Store) (c : Call S.Request) (now : DateTime) (n : Node) :
    Option (Reply S.Row) × Node :=
  match n.server S with
  | .down => (none, n)
  | .up link =>
    match S.handleCall c now ⟨n.db, []⟩ with
    | (some (.reply r), e) => (some r, { n with db := e.db })
    | (some (.stop r), e) =>
      (some r, { n with db := e.db, server := Function.update n.server S .down })
    | (none, e) => (none, crashServer S link { n with db := e.db })

variable {S : Store} {n : Node}

theorem call_down (h : n.server S = .down) (c : Call S.Request) (now : DateTime) :
    n.call S c now = (none, n) := by
  simp only [call, h]

/-- A call to a server that is up and has its table. -/
theorem call_apply {T : Table S.Row} (hup : n.server S ≠ .down) (hT : n.db.table? S = some T)
    (r : S.Request) (now : DateTime) :
    n.call S (.request r) now =
      (some (S.answer r now T).1, { n with db := n.db.setTable S (S.answer r now T).2 }) := by
  obtain ⟨link, hlink⟩ := Status.exists_up hup
  simp only [call, hlink, Store.handleCall_apply hT]

theorem call_stop {link : Option Pid} (hup : n.server S = .up link) (now : DateTime) :
    n.call S .stop now = (some .terminated,
      { n with db := n.db.stop, server := Function.update n.server S .down }) := by
  simp only [call, hup, Store.handleCall_stop]

theorem call_missing {link : Option Pid} (hup : n.server S = .up link)
    (hT : n.db.table? S = none) (r : S.Request) (now : DateTime) :
    n.call S (.request r) now =
      if (S.removedKey? r).isSome then (some .ok, n) else (none, crashServer S link n) := by
  cases hr : (S.removedKey? r).isSome with
  | true => simp only [call, hup, Store.handleCall_missing hT, hr, if_true]
  | false => simp only [call, hup, Store.handleCall_missing hT, hr, Bool.false_eq_true, if_false]

/-- What a call can come to: there is no server, the server stops, it answers, or its table is
gone. -/
theorem call_cases (S : Store) (c : Call S.Request) (now : DateTime) (n : Node) :
    (n.server S = .down ∧ n.call S c now = (none, n)) ∨
    (∃ link, n.server S = .up link ∧ c = .stop ∧ n.call S c now = (some .terminated,
      { n with db := n.db.stop, server := Function.update n.server S .down })) ∨
    (∃ link r T, n.server S = .up link ∧ c = .request r ∧ n.db.table? S = some T ∧
      n.call S c now =
        (some (S.answer r now T).1, { n with db := n.db.setTable S (S.answer r now T).2 })) ∨
    (∃ link r, n.server S = .up link ∧ c = .request r ∧ n.db.table? S = none ∧
      n.call S c now =
        if (S.removedKey? r).isSome then (some .ok, n) else (none, crashServer S link n)) := by
  cases hs : n.server S with
  | down => exact .inl ⟨rfl, call_down hs c now⟩
  | up link =>
    cases c with
    | stop => exact .inr (.inl ⟨link, rfl, rfl, call_stop hs now⟩)
    | request r =>
      cases hT : n.db.table? S with
      | none => exact .inr (.inr (.inr ⟨link, r, rfl, rfl, rfl, call_missing hs hT r now⟩))
      | some T =>
        have hup : n.server S ≠ .down := by simp [hs]
        exact .inr (.inr (.inl ⟨link, r, T, rfl, rfl, rfl, call_apply hup hT r now⟩))

/-- A reply to a request that is not a `remove` is the answer of the store's table. -/
theorem call_answered {r : S.Request} {now : DateTime} {reply : Reply S.Row}
    (hr : S.removedKey? r = none) (h : (n.call S (.request r) now).1 = some reply) :
    ∃ T, n.db.table? S = some T ∧ reply = (S.answer r now T).1 ∧
      (n.call S (.request r) now).2.db.table? S = some (S.answer r now T).2 := by
  rcases call_cases S (.request r) now n with ⟨-, hcall⟩ | ⟨link, -, hc, -⟩ |
    ⟨link, r', T, -, hc, hT, hcall⟩ | ⟨link, r', -, hc, -, hcall⟩
  · rw [hcall] at h
    cases h
  · cases hc
  · cases hc
    rw [hcall] at h ⊢
    exact ⟨T, hT, (Option.some.inj h).symm, Db.table?_setTable_self hT _⟩
  · cases hc
    rw [hcall, hr] at h
    cases h

/-- A request to one store leaves the tables of the others alone. -/
theorem call_request_table? {S' : Store} (h : S' ≠ S) (r : S.Request) (now : DateTime) :
    (n.call S (.request r) now).2.db.table? S' = n.db.table? S' := by
  rcases call_cases S (.request r) now n with ⟨-, hcall⟩ | ⟨link, -, hc, -⟩ |
    ⟨link, r', T, -, -, -, hcall⟩ | ⟨link, r', -, -, -, hcall⟩
  · rw [hcall]
  · cases hc
  · rw [hcall]
    exact Db.table?_setTable_ne _ h _
  · rw [hcall]
    split
    · rfl
    · rw [crashServer_db]

end Node

end WebServerl
