import WebServerl.Lib.Machine
import WebServerl.Node

/-! The interfaces of the four stores, called in any order on one node.  The stores share Mnesia,
and `stop/0` of each of them stops Mnesia for all.  Who started a server plays no part here: a
caller of `start/0` is a process whose own end does not reach the server. -/

namespace WebServerl

open Erlang Erlang.Mnesia Machine

/-- A call of a function of a store's module. -/
inductive Api (S : Store) where
  | start
  | ask (c : Call S.Request)

structure ApiCall where
  store : Store
  function : Api store
  now : DateTime

/-- What a call returns; `exited` is an exit of the caller. -/
inductive Outcome (S : Store) where
  | started
  | alreadyStarted
  | replied (r : Reply S.Row)
  | exited

def ApiCall.isOf (S : Store) (i : ApiCall) : Bool := i.store = S

section Model

variable [Crypto] [Ets]

def Node.api : Node → ApiCall → (Σ S, Outcome S) × Node
  | n, ⟨S, .start, _⟩ =>
    (⟨S, if (n.start S none).1 then .started else .alreadyStarted⟩, (n.start S none).2)
  | n, ⟨S, .ask c, now⟩ => (⟨S, (n.call S c now).1.elim .exited .replied⟩, (n.call S c now).2)

/-- No other running server is asked to stop while the table of `S` exists. -/
def NoForeignStop (S : Store) (n : Node) (i : ApiCall) : Prop :=
  i.store ≠ S → i.function = .ask .stop → n.server i.store ≠ .down → n.db.table? S = none

end Model

/-- Two nodes on which the server of `S` is in the same state, and linked to nobody. -/
structure SameStore (S : Store) (n m : Node) : Prop where
  unlinked : ∀ S' p, n.server S' ≠ .up (some p)
  unlinked' : ∀ S' p, m.server S' ≠ .up (some p)
  server : n.server S = m.server S
  table : n.db.table? S = m.db.table? S

theorem SameStore.init (S : Store) : SameStore S .init .init := ⟨nofun, nofun, rfl, rfl⟩

section Steps

variable {S : Store} {n m : Node}

theorem Node.start_unlinked (h : ∀ S' p, n.server S' ≠ .up (some p)) (S S' : Store) (p : Pid) :
    (n.start S none).2.server S' ≠ .up (some p) := by
  unfold Node.start
  split
  · exact h S' p
  · by_cases hS : S' = S
    · simp [hS]
    · simpa [hS] using h S' p

theorem SameStore.own_start (h : SameStore S n m) :
    (n.start S none).1 = (m.start S none).1 ∧
      SameStore S (n.start S none).2 (m.start S none).2 := by
  have hn := Node.start_unlinked h.unlinked S
  have hm := Node.start_unlinked h.unlinked' S
  cases hs : n.server S with
  | down =>
    have hs' : m.server S = .down := by rw [← h.server, hs]
    rw [Node.start_down hs] at hn ⊢
    rw [Node.start_down hs'] at hm ⊢
    refine ⟨rfl, hn, hm, by simp, ?_⟩
    show (n.db.start.createTable S).table? S = (m.db.start.createTable S).table? S
    rw [Db.table?_createTable_start, Db.table?_createTable_start, h.table]
  | up link =>
    have hs' : m.server S = .up link := by rw [← h.server, hs]
    rw [Node.start_up hs, Node.start_up hs']
    exact ⟨rfl, h⟩

variable [Crypto] [Ets]

theorem Node.call_unlinked (h : ∀ S' p, n.server S' ≠ .up (some p)) (c : Call S.Request)
    (now : DateTime) (S' : Store) (p : Pid) : (n.call S c now).2.server S' ≠ .up (some p) := by
  have hdown : Function.update n.server S .down S' ≠ .up (some p) := by
    by_cases hS : S' = S
    · simp [hS]
    · simpa [hS] using h S' p
  rcases call_cases S c now n with ⟨-, hcall⟩ | ⟨link, -, -, hcall⟩ |
    ⟨link, r, T, -, -, -, hcall⟩ | ⟨link, r, hup, -, -, hcall⟩
  · rw [hcall]
    exact h S' p
  · rw [hcall]
    exact hdown
  · rw [hcall]
    exact h S' p
  · rw [hcall]
    split
    · exact h S' p
    · match link, hup with
      | none, _ => exact hdown
      | some q, hup => exact absurd hup (h S q)

theorem Node.call_other_server (h : ∀ S' p, n.server S' ≠ .up (some p)) {S' : Store}
    (hS : S ≠ S') (c : Call S'.Request) (now : DateTime) :
    (n.call S' c now).2.server S = n.server S := by
  have hdown : Function.update n.server S' .down S = n.server S := Function.update_of_ne hS _ _
  rcases call_cases S' c now n with ⟨-, hcall⟩ | ⟨link, -, -, hcall⟩ |
    ⟨link, r, T, -, -, -, hcall⟩ | ⟨link, r, hup, -, -, hcall⟩
  · rw [hcall]
  · rw [hcall]
    exact hdown
  · rw [hcall]
  · rw [hcall]
    split
    · rfl
    · match link, hup with
      | none, _ => exact hdown
      | some q, hup => exact absurd hup (h S' q)

/-- A call to another store leaves the state of `S` alone, unless it stops Mnesia. -/
theorem SameStore.other (h : SameStore S n m) {i : ApiCall} (hi : i.store ≠ S)
    (hstop : NoForeignStop S n i) : SameStore S (n.api i).2 m := by
  obtain ⟨S', function, now⟩ := i
  have hS : S ≠ S' := fun heq => hi heq.symm
  cases function with
  | start =>
    obtain ⟨hserver, htable⟩ := n.start_other hS none
    exact ⟨Node.start_unlinked h.unlinked S', h.unlinked', hserver.trans h.server,
      htable.trans h.table⟩
  | ask c =>
    refine ⟨Node.call_unlinked h.unlinked c now, h.unlinked',
      (Node.call_other_server h.unlinked hS c now).trans h.server, ?_⟩
    rw [← h.table]
    cases c with
    | request r => exact Node.call_request_table? hS r now
    | stop =>
      show (n.call S' .stop now).2.db.table? S = n.db.table? S
      cases hs : n.server S' with
      | down => rw [Node.call_down hs]
      | up link =>
        have hnone : n.db.table? S = none := hstop hi rfl (by simp [hs])
        rw [Node.call_stop hs, hnone]
        rfl

theorem SameStore.own_call (h : SameStore S n m) (c : Call S.Request) (now : DateTime) :
    (n.call S c now).1 = (m.call S c now).1 ∧
      SameStore S (n.call S c now).2 (m.call S c now).2 := by
  have hn := Node.call_unlinked h.unlinked c now
  have hm := Node.call_unlinked h.unlinked' c now
  cases hs : n.server S with
  | down =>
    have hs' : m.server S = .down := by rw [← h.server, hs]
    rw [Node.call_down hs, Node.call_down hs']
    exact ⟨rfl, h⟩
  | up link =>
    have hs' : m.server S = .up link := by rw [← h.server, hs]
    cases c with
    | stop =>
      rw [Node.call_stop hs] at hn ⊢
      rw [Node.call_stop hs'] at hm ⊢
      exact ⟨rfl, hn, hm, by simp, rfl⟩
    | request r =>
      cases hT : n.db.table? S with
      | some T =>
        have hT' : m.db.table? S = some T := by rw [← h.table, hT]
        rw [Node.call_apply (by simp [hs]) hT] at hn ⊢
        rw [Node.call_apply (by simp [hs']) hT'] at hm ⊢
        refine ⟨rfl, hn, hm, h.server, ?_⟩
        show (n.db.setTable S _).table? S = (m.db.setTable S _).table? S
        rw [Db.table?_setTable_self hT, Db.table?_setTable_self hT']
      | none =>
        have hT' : m.db.table? S = none := by rw [← h.table, hT]
        rw [Node.call_missing hs hT] at hn ⊢
        rw [Node.call_missing hs' hT'] at hm ⊢
        -- the server is linked to nobody, so that only the server itself dies
        obtain rfl : link = none := by
          cases link with
          | none => rfl
          | some p => exact absurd hs (h.unlinked S p)
        cases hr : (S.removedKey? r).isSome with
        | true => exact ⟨rfl, h⟩
        | false =>
          simp only [hr, Bool.false_eq_true, if_false] at hn hm ⊢
          refine ⟨trivial, hn, hm, ?_, h.table⟩
          simp [Node.crashServer]

/-- A call to the store itself depends on nothing but its state. -/
theorem SameStore.own (h : SameStore S n m) {i : ApiCall} (hi : i.store = S) :
    (n.api i).1 = (m.api i).1 ∧ SameStore S (n.api i).2 (m.api i).2 := by
  obtain ⟨S, function, now⟩ := i
  subst hi
  cases function with
  | start =>
    obtain ⟨heq, hsame⟩ := h.own_start
    refine ⟨?_, hsame⟩
    simp only [Node.api, heq]
  | ask c =>
    obtain ⟨heq, hsame⟩ := h.own_call c now
    refine ⟨?_, hsame⟩
    simp only [Node.api, heq]

/-- As long as no other running server is asked to stop while the table of `S` exists, the server
of `S` gives the answers and keeps the table that it would without the calls to the others. -/
theorem stores_do_not_interfere {is : List ApiCall}
    (hstop : Always (advance Node.api) (NoForeignStop S) .init is) :
    (serve Node.api .init is).1.filter (fun e => e.1.isOf S) =
        (serve Node.api .init (is.filter (·.isOf S))).1 ∧
      (serve Node.api .init is).2.db.table? S =
        (serve Node.api .init (is.filter (·.isOf S))).2.db.table? S := by
  obtain ⟨hanswers, hsame⟩ := serve_filter (ApiCall.isOf S)
    (fun s t i h hi _ => h.own (by simpa [ApiCall.isOf] using hi))
    (fun s t i h hi hG => h.other (by simpa [ApiCall.isOf] using hi) hG)
    (SameStore.init S) hstop
  exact ⟨hanswers, hsame.table⟩

end Steps

/-! Ann has an account, and `visitors_db` is stopped before or after she registers. -/

def startAndStopVisitors : List ApiCall :=
  [⟨.visitorsDb, .start, .noon⟩, ⟨.visitorsDb, .ask .stop, .noon⟩]

def register : List ApiCall :=
  [⟨.dbLogin, .start, .noon⟩,
    ⟨.dbLogin, .ask (.request (.createAccount (.str "Ann") (.str "secret"))), .noon⟩]

def login : ApiCall :=
  ⟨.dbLogin, .ask (.request (.attemptLogin (.str "Ann") (.str "secret"))), .noon⟩

theorem stores_do_not_interfere_before :
    let _ := Crypto.sample
    let _ := Ets.asKept
    (serve Node.api .init (startAndStopVisitors ++ register)).2.db.table? .dbLogin =
      (serve Node.api .init register).2.db.table? .dbLogin := by
  intro _ _
  have hstop : Always (advance Node.api) (NoForeignStop .dbLogin) .init
      (startAndStopVisitors ++ register) := by
    refine ⟨fun _ h => (nomatch h), fun n₁ h₁ => ?_⟩
    cases h₁
    refine ⟨fun _ _ _ => rfl, fun n₂ h₂ => ?_⟩
    cases h₂
    exact ⟨fun h => absurd rfl h, fun _ _ => ⟨fun h => absurd rfl h, fun _ _ => trivial⟩⟩
  exact (stores_do_not_interfere hstop).2

theorem login_exits_after_stop :
    let _ := Crypto.sample
    let _ := Ets.asKept
    ¬ ∀ (S : Store) (is : List ApiCall),
      (serve Node.api .init is).1.filter (fun e => e.1.isOf S) =
        (serve Node.api .init (is.filter (·.isOf S))).1 := by
  intro _ _ h
  have hlogin : some (⟨.dbLogin, .exited⟩ : Σ S, Outcome S) =
      some ⟨.dbLogin, .replied (.bool true)⟩ :=
    congrArg (fun hist => hist.getLast?.map Prod.snd)
      (h .dbLogin (register ++ startAndStopVisitors ++ [login]))
  cases hlogin

end WebServerl
