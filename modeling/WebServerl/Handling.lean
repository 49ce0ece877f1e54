import WebServerl.Node
import WebServerl.Store.HandlerCode
import WebServerl.Lib.Machine

/-! The four servers at work at the same time.  A server handles one call after the other, and
while it does, processes end and other servers call Mnesia, which any of them may stop.  The same
machine has servers that work call of Mnesia by call of Mnesia, and servers that do the whole of a
`handle_call` at once. -/

namespace WebServerl

open Erlang Erlang.Mnesia

instance Store.decidableEqRow : (S : Store) → DecidableEq S.Row
  | .visitorsDb => inferInstanceAs (DecidableEq Visitor)
  | .dbLogin => inferInstanceAs (DecidableEq Login)
  | .dbMessage => inferInstanceAs (DecidableEq Message)
  | .dbComment => inferInstanceAs (DecidableEq Comment)

deriving instance DecidableEq for Callback

/-- The state of a node and what the server of each store that is up has to do for the call in
hand.  The work of a server that is down means nothing. -/
structure Handling (W : Store → Type) where
  node : Node
  work : (S : Store) → Option (W S)

/-- How a server works: with what it begins on a call, what it does next with Mnesia, and what it
has come to, `none` for a crash, when it has nothing left to do. -/
structure Working (W : Store → Type) where
  receive : (S : Store) → Call S.Request → DateTime → W S
  next : (S : Store) → W S → Db → Option (W S × Db)
  result : (S : Store) → W S → Option (Option (Callback S.Row))

namespace Handling

inductive Label where
  | start (S : Store) (link : Option Pid)
  | exit (p : Pid) (normal : Bool)
  | receive (S : Store) (c : Call S.Request) (now : DateTime)
  | mnesia (S : Store)
  | finish (S : Store) (out : Option (Callback S.Row))

/-- Everything but what a server does with Mnesia is seen from outside. -/
def Label.seen : Label → Bool
  | .mnesia _ => false
  | _ => true

def init (W : Store → Type) (n : Node) : Handling W := ⟨n, fun _ => none⟩

/-- The node when a server that is up has come to the end of a `handle_call`. -/
def finish (S : Store) (link : Option Pid) (n : Node) : Option (Callback S.Row) → Node
  | some (.reply _) => n
  | some (.stop _) => { n with server := Function.update n.server S .down }
  | none => Node.crashServer S link n

variable {W : Store → Type}

def step (K : Working W) (s : Handling W) : Label → Option (Handling W)
  | .start S link =>
    match s.node.server S with
    | .up _ => some s
    | .down => some ⟨(s.node.start S link).2, Function.update s.work S none⟩
  | .exit p normal => some { s with node := s.node.exit p normal }
  | .receive S c now =>
    match s.node.server S, s.work S with
    | .up _, none => some { s with work := Function.update s.work S (some (K.receive S c now)) }
    | _, _ => none
  | .mnesia S =>
    match s.node.server S, s.work S with
    | .up _, some w => (K.next S w s.node.db).map fun (w', db) =>
        ⟨{ s.node with db }, Function.update s.work S (some w')⟩
    | _, _ => none
  | .finish S out =>
    match s.node.server S, s.work S with
    | .up link, some w =>
      if K.result S w = some out then
        some ⟨finish S link s.node out, Function.update s.work S none⟩
      else none
    | _, _ => none

theorem finish_down {n : Node} {S S' : Store} (h : n.server S' = .down) (link : Option Pid)
    (out : Option (Callback S.Row)) : (finish S link n out).server S' = .down := by
  have hupdate : Function.update n.server S .down S' = .down := by
    by_cases hS : S' = S
    · rw [hS, Function.update_self]
    · rw [Function.update_of_ne hS, h]
  match out with
  | some (.reply _) => exact h
  | some (.stop _) => exact hupdate
  | none =>
    cases link with
    | none => exact hupdate
    | some p => exact Node.exit_down hupdate p false

theorem finish_db (S : Store) (link : Option Pid) (n : Node) (out : Option (Callback S.Row)) :
    (finish S link n out).db = n.db := by
  match out with
  | some (.reply _) => rfl
  | some (.stop _) => rfl
  | none => exact Node.crashServer_db S link n

section Steps

variable {K : Working W} {s s' : Handling W} {S : Store}

theorem step_receive_iff {c : Call S.Request} {now : DateTime} :
    step K s (.receive S c now) = some s' ↔ s.node.server S ≠ .down ∧ s.work S = none ∧
      s' = { s with work := Function.update s.work S (some (K.receive S c now)) } := by
  rw [step]
  cases s.node.server S <;> cases s.work S <;> simp [eq_comm]

theorem step_mnesia_iff : step K s (.mnesia S) = some s' ↔ s.node.server S ≠ .down ∧
    ∃ w w' db, s.work S = some w ∧ K.next S w s.node.db = some (w', db) ∧
      s' = ⟨{ s.node with db }, Function.update s.work S (some w')⟩ := by
  rw [step]
  cases s.node.server S <;> cases s.work S <;> simp [eq_comm]

theorem step_finish_iff {out : Option (Callback S.Row)} :
    step K s (.finish S out) = some s' ↔ ∃ link w, s.node.server S = .up link ∧
      s.work S = some w ∧ K.result S w = some out ∧
      s' = ⟨finish S link s.node out, Function.update s.work S none⟩ := by
  rw [step]
  cases s.node.server S <;> cases s.work S <;> simp [eq_comm]

end Steps

end Handling

/-- Call of Mnesia by call of Mnesia. -/
def byCalls [Crypto] [Ets] : Working fun S => DbCode S (Callback S.Row) where
  receive := Store.code
  next _ g db :=
    match g with
    | .perform o next => some (next (o.exec db).1, (o.exec db).2)
    | _ => none
  result _ g :=
    match g with
    | .done a => some (some a)
    | .crash => some none
    | .perform _ _ => none

/-- A call, before and after all that is to be done for it. -/
inductive Turn (S : Store) where
  | called (c : Call S.Request) (now : DateTime)
  | handled (out : Option (Callback S.Row))

/-- The handler at once. -/
def atOnce [Crypto] [Ets] : Working Turn where
  receive _ := .called
  next S turn db :=
    match turn with
    | .called c now => some (.handled (S.handleCall c now ⟨db, []⟩).1,
        (S.handleCall c now ⟨db, []⟩).2.db)
    | .handled _ => none
  result _ turn :=
    match turn with
    | .called _ _ => none
    | .handled out => some out

section AtOnce

variable [Crypto] [Ets] {S : Store} {t : Handling Turn}

namespace Handling

theorem step_called {c : Call S.Request} {now : DateTime} (hup : t.node.server S ≠ .down)
    (hturn : t.work S = some (.called c now)) :
    step atOnce t (.mnesia S) =
      some ⟨{ t.node with db := (S.handleCall c now ⟨t.node.db, []⟩).2.db },
        Function.update t.work S (some (.handled (S.handleCall c now ⟨t.node.db, []⟩).1))⟩ :=
  step_mnesia_iff.mpr ⟨hup, _, _, _, hturn, rfl, rfl⟩

theorem step_handled {link : Option Pid} (hlink : t.node.server S = .up link)
    {out : Option (Callback S.Row)} (hturn : t.work S = some (.handled out)) :
    step atOnce t (.finish S out) =
      some ⟨finish S link t.node out, Function.update t.work S none⟩ :=
  step_finish_iff.mpr ⟨link, _, hlink, hturn, rfl, rfl⟩

end Handling

/-- The reply that the caller gets. -/
def Callback.answer {ρ : Type} : Callback ρ → Reply ρ
  | .reply r => r
  | .stop r => r

/-- A call that is received, handled at once and answered, with nobody in between, is
`gen_server:call/2` of the node. -/
theorem Node.call_atOnce {t : Handling Turn} (hup : t.node.server S ≠ .down)
    (hidle : t.work S = none) (c : Call S.Request) (now : DateTime) :
    ∃ out, (t.node.call S c now).1 = out.map Callback.answer ∧
      Machine.run (Handling.step atOnce) t [.receive S c now, .mnesia S, .finish S out] =
        some ⟨(t.node.call S c now).2, t.work⟩ := by
  obtain ⟨link, hlink⟩ := Status.exists_up hup
  have hcall : t.node.call S c now =
      ((S.handleCall c now ⟨t.node.db, []⟩).1.map Callback.answer,
        Handling.finish S link { t.node with db := (S.handleCall c now ⟨t.node.db, []⟩).2.db }
          (S.handleCall c now ⟨t.node.db, []⟩).1) := by
    simp only [Node.call, hlink]
    split
    · rename_i h
      rw [h]
      rfl
    · rename_i h
      rw [h]
      rfl
    · rename_i h
      rw [h]
      rfl
  have hreceive : Handling.step atOnce t (.receive S c now) =
      some { t with work := Function.update t.work S (some (.called c now)) } :=
    Handling.step_receive_iff.mpr ⟨hup, hidle, rfl⟩
  have hmnesia := Handling.step_called
    (t := { t with work := Function.update t.work S (some (.called c now)) })
    hup (Function.update_self S _ _)
  refine ⟨(S.handleCall c now ⟨t.node.db, []⟩).1, by rw [hcall], ?_⟩
  have hfinish := Handling.step_handled
    (t := ⟨{ t.node with db := (S.handleCall c now ⟨t.node.db, []⟩).2.db }, Function.update
      (Function.update t.work S (some (.called c now))) S
      (some (.handled (S.handleCall c now ⟨t.node.db, []⟩).1))⟩)
    hlink (Function.update_self S _ _)
  rw [Machine.run_cons, hreceive, Option.bind_some, Machine.run_cons, hmnesia, Option.bind_some,
    Machine.run_cons, hfinish, Option.bind_some, Machine.run_nil, hcall, Function.update_idem,
    Function.update_idem, ← hidle, Function.update_eq_self]

end AtOnce

end WebServerl
