import Mathlib.Logic.Function.Basic

/-! Calls by messages.  A caller looks a server up by its name, monitors it and sends it a request,
and then waits for the reply or for the news that the server is dead.  A server handles the
requests in its mailbox one by one.  A caller may give up at any time, and a server that dies is
lost with its mailbox.  `Atomic` is what the callers may rely on: each request is performed at once,
at one moment between its call and its return, and a request that its caller has given up on is
performed once at most. -/

namespace Calls


variable {Srv Pid Inp Env σ : Type} {Req Rep : Srv → Type}

/-- Named servers that work on one state.  `serve` gives no reply when the server is dead, or dies
of the request; `change` is anything else that happens to the state. -/
structure Service (Srv Inp Env σ : Type) (Req Rep : Srv → Type) where
  alive : Srv → σ → Bool
  serve : (S : Srv) → Req S → Inp → σ → Option (Rep S) × σ
  change : Env → σ → σ
  serve_dead : ∀ {S s}, alive S s = false → ∀ r i, serve S r i s = (none, s)
  serve_none : ∀ {S s r i}, (serve S r i s).1 = none → alive S (serve S r i s).2 = false

/-- What can be seen of the calls. -/
inductive Event (Pid Env : Type) (Req Rep : Srv → Type) where
  | invoked (p : Pid) (S : Srv) (r : Req S)
  | returned (p : Pid) (S : Srv) (o : Option (Rep S))
  | abandoned (p : Pid)
  | changed (e : Env)

/-! ### Atomic calls -/

inductive Call (Req Rep : Srv → Type) where
  | pending (S : Srv) (r : Req S)
  | answered (S : Srv) (o : Option (Rep S))

/-- The state, the calls of the callers, and the requests that their callers have given up on. -/
structure Atomic (Pid σ : Type) (Req Rep : Srv → Type) where
  state : σ
  call : Pid → Option (Call Req Rep)
  late : Nat → Option ((S : Srv) × Req S)

inductive Atomic.Label (Pid Inp Env : Type) (Req : Srv → Type) where
  | invoke (p : Pid) (S : Srv) (r : Req S)
  | perform (p : Pid) (i : Inp)
  | finish (p : Pid)
  | abandon (p : Pid) (keep : Option Nat)
  | late (k : Nat) (i : Inp)
  | change (e : Env)

/-! ### Messages -/

inductive Caller (Req : Srv → Type) where
  | idle
  | noproc (S : Srv)
  | found (S : Srv) (r : Req S) (incarnation : Nat)
  | waiting (S : Srv) (incarnation ref : Nat)

/-- A request in a mailbox, with the caller and its reference. -/
structure Envelope (Pid : Type) (Req : Srv → Type) (S : Srv) where
  sender : Pid
  ref : Nat
  request : Req S

/-- The state and the messages.  `dead` counts the servers of each name that have died, and `inbox`
holds what each server has sent to each caller: replies, and `none` for the news of its death. -/
structure Net (Pid σ : Type) (Req Rep : Srv → Type) where
  state : σ
  dead : Srv → Nat
  fresh : Nat
  mailbox : (S : Srv) → List (Envelope Pid Req S)
  caller : Pid → Caller Req
  inbox : Pid → (S : Srv) → List (Nat × Option (Rep S))

inductive Net.Label (Pid Inp Env : Type) (Req : Srv → Type) where
  | lookup (p : Pid) (S : Srv) (r : Req S)
  | send (p : Pid)
  | handle (S : Srv) (i : Inp)
  | receive (p : Pid)
  | abandon (p : Pid)
  | change (e : Env)

section Semantics

variable [DecidableEq Srv] [DecidableEq Pid] (Q : Service Srv Inp Env σ Req Rep)

namespace Atomic

def init (s : σ) : Atomic Pid σ Req Rep := ⟨s, fun _ => none, fun _ => none⟩

def setCall (p : Pid) (c : Option (Call Req Rep)) (a : Atomic Pid σ Req Rep) :
    Atomic Pid σ Req Rep :=
  { a with call := Function.update a.call p c }

def step (a : Atomic Pid σ Req Rep) : Label Pid Inp Env Req → Option (Atomic Pid σ Req Rep)
  | .invoke p S r =>
    match a.call p with
    | none => some (a.setCall p (some (.pending S r)))
    | some _ => none
  | .perform p i =>
    match a.call p with
    | some (.pending S r) =>
      some { a.setCall p (some (.answered S (Q.serve S r i a.state).1)) with
        state := (Q.serve S r i a.state).2 }
    | _ => none
  | .finish p =>
    match a.call p with
    | some (.answered _ _) => some (a.setCall p none)
    | _ => none
  | .abandon p keep =>
    match a.call p, keep with
    | none, _ => none
    | some (.pending S r), some k =>
      match a.late k with
      | none => some { a.setCall p none with late := Function.update a.late k (some ⟨S, r⟩) }
      | some _ => none
    | some _, _ => some (a.setCall p none)
  | .late k i =>
    match a.late k with
    | some ⟨S, r⟩ => some { a with
        state := (Q.serve S r i a.state).2, late := Function.update a.late k none }
    | none => none
  | .change e => some { a with state := Q.change e a.state }

/-- What a step shows. -/
def event (a : Atomic Pid σ Req Rep) : Label Pid Inp Env Req → Option (Event Pid Env Req Rep)
  | .invoke p S r => some (.invoked p S r)
  | .finish p =>
    match a.call p with
    | some (.answered S o) => some (.returned p S o)
    | _ => none
  | .abandon p _ => some (.abandoned p)
  | .change e => some (.changed e)
  | .perform _ _ | .late _ _ => none

end Atomic

namespace Net

/-- The server `S` handles a request. -/
def Label.handles (S : Srv) : Label Pid Inp Env Req → Bool
  | .handle S' _ => S' = S
  | _ => false

def init (s : σ) : Net Pid σ Req Rep :=
  ⟨s, fun _ => 0, 0, fun _ => [], fun _ => .idle, fun _ _ => []⟩

def setCaller (p : Pid) (c : Caller Req) (n : Net Pid σ Req Rep) : Net Pid σ Req Rep :=
  { n with caller := Function.update n.caller p c }

/-- The server `S` takes a request and has the others left. -/
def take (S : Srv) (rest : List (Envelope Pid Req S)) (n : Net Pid σ Req Rep) :
    Net Pid σ Req Rep :=
  { n with mailbox := Function.update n.mailbox S rest }

/-- The server `S` sends `p` a message. -/
def post (p : Pid) (S : Srv) (m : Nat × Option (Rep S)) (n : Net Pid σ Req Rep) :
    Net Pid σ Req Rep :=
  { n with
    inbox := Function.update n.inbox p (Function.update (n.inbox p) S (n.inbox p S ++ [m])) }

/-- `p` has seen what became of its call: no message about it is kept. -/
def flush (p : Pid) (S : Srv) (ref : Nat) (n : Net Pid σ Req Rep) : Net Pid σ Req Rep :=
  { n with
    inbox := Function.update n.inbox p
      (Function.update (n.inbox p) S ((n.inbox p S).filter fun m => m.1 ≠ ref)) }

def died (s s' : σ) (S : Srv) : Bool := Q.alive S s && !Q.alive S s'

/-- The state changes.  A server that dies over it is lost with its mailbox, and those who monitor
it are told. -/
def settle (s' : σ) (n : Net Pid σ Req Rep) : Net Pid σ Req Rep :=
  { n with
    state := s'
    dead := fun S => if died Q n.state s' S then n.dead S + 1 else n.dead S
    mailbox := fun S => if died Q n.state s' S then [] else n.mailbox S
    inbox := fun p S =>
      match n.caller p with
      | .waiting S' k ref =>
        if S' = S ∧ k = n.dead S ∧ died Q n.state s' S = true then n.inbox p S ++ [(ref, none)]
        else n.inbox p S
      | _ => n.inbox p S }

def step (n : Net Pid σ Req Rep) : Label Pid Inp Env Req → Option (Net Pid σ Req Rep)
  | .lookup p S r =>
    match n.caller p with
    | .idle => some (n.setCaller p
        (if Q.alive S n.state then .found S r (n.dead S) else .noproc S))
    | _ => none
  | .send p =>
    match n.caller p with
    | .found S r k =>
      let sent := { n.setCaller p (.waiting S k n.fresh) with fresh := n.fresh + 1 }
      if k = n.dead S then
        some { sent with
          mailbox := Function.update n.mailbox S (n.mailbox S ++ [⟨p, n.fresh, r⟩]) }
      else some (sent.post p S (n.fresh, none))
    | _ => none
  | .handle S i =>
    match n.mailbox S with
    | [] => none
    | m :: rest =>
      match Q.serve S m.request i n.state with
      | (some o, s') => some (((n.take S rest).post m.sender S (m.ref, some o)).settle Q s')
      | (none, s') => some ((n.take S rest).settle Q s')
  | .receive p =>
    match n.caller p with
    | .noproc _ => some (n.setCaller p .idle)
    | .waiting S _ ref =>
      match (n.inbox p S).lookup ref with
      | some _ => some ((n.setCaller p .idle).flush p S ref)
      | none => none
    | _ => none
  | .abandon p =>
    match n.caller p with
    | .idle => none
    | _ => some (n.setCaller p .idle)
  | .change e => some (n.settle Q (Q.change e n.state))

def event (n : Net Pid σ Req Rep) : Label Pid Inp Env Req → Option (Event Pid Env Req Rep)
  | .lookup p S r => some (.invoked p S r)
  | .receive p =>
    match n.caller p with
    | .noproc S => some (.returned p S none)
    | .waiting S _ ref => ((n.inbox p S).lookup ref).map (.returned p S)
    | _ => none
  | .abandon p => some (.abandoned p)
  | .change e => some (.changed e)
  | .send _ | .handle _ _ => none

end Net

end Semantics

end Calls
