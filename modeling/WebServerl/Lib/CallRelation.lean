import Mathlib.Data.List.Nodup
import WebServerl.Lib.Calls
import WebServerl.Lib.Machine

/-! How the messages of a call stand for the call: the relation between a net of messages and atomic
calls, what it says of each caller, and how it is kept when the state changes and servers die. -/

namespace Calls

open Machine

variable {Srv Pid Inp Env σ : Type} {Req Rep : Srv → Type} [DecidableEq Srv] [DecidableEq Pid]

/-- A request in a mailbox for which its caller waits. -/
structure Owned (n : Net Pid σ Req Rep) (a : Atomic Pid σ Req Rep) (S : Srv)
    (m : Envelope Pid Req S) : Prop where
  caller : n.caller m.sender = .waiting S (n.dead S) m.ref
  call : a.call m.sender = some (.pending S m.request)
  inbox : (n.inbox m.sender S).lookup m.ref = none
  late : a.late m.ref = none

/-- A request in a mailbox that its caller has given up on. -/
structure Orphan (n : Net Pid σ Req Rep) (a : Atomic Pid σ Req Rep) (S : Srv)
    (m : Envelope Pid Req S) : Prop where
  late : a.late m.ref = some ⟨S, m.request⟩
  caller : ∀ p S' k, n.caller p ≠ .waiting S' k m.ref

/-- What a caller has come to among the messages is what its call has come to. -/
def Stands (Q : Service Srv Inp Env σ Req Rep) (n : Net Pid σ Req Rep) (a : Atomic Pid σ Req Rep)
    (p : Pid) : Caller Req → Prop
  | .idle => a.call p = none
  | .noproc S => a.call p = some (.answered S none)
  | .found S r k => k ≤ n.dead S ∧
      (k = n.dead S → Q.alive S n.state = true ∧ a.call p = some (.pending S r)) ∧
      (k ≠ n.dead S → a.call p = some (.answered S none))
  | .waiting S _ ref => ref < n.fresh ∧ ((∃ m ∈ n.mailbox S, m.sender = p ∧ m.ref = ref) ∨
      ∃ o, (n.inbox p S).lookup ref = some o ∧ a.call p = some (.answered S o))

/-- The step of the atomic calls that a step of the messages stands for, if any. -/
def Net.moves (n : Net Pid σ Req Rep) :
    Label Pid Inp Env Req → Atomic.Label Pid Inp Env Req → Prop
  | .lookup p S r, k => k = .invoke p S r
  | .send _, _ => False
  | .handle S i, k => ∃ m rest, n.mailbox S = m :: rest ∧
      ((k = .perform m.sender i ∧ n.caller m.sender = .waiting S (n.dead S) m.ref) ∨
        (k = .late m.ref i ∧ ∀ p S' k, n.caller p ≠ .waiting S' k m.ref))
  | .receive p, k => k = .finish p
  | .abandon p, k => ∃ keep, k = .abandon p keep
  | .change e, k => k = .change e

structure Refines (Q : Service Srv Inp Env σ Req Rep) (n : Net Pid σ Req Rep)
    (a : Atomic Pid σ Req Rep) : Prop where
  state : a.state = n.state
  caller : ∀ p, Stands Q n a p (n.caller p)
  mail : ∀ S, ∀ m ∈ n.mailbox S, Q.alive S n.state = true ∧ m.ref < n.fresh ∧
    (Owned n a S m ∨ Orphan n a S m)
  nodup : ∀ S, ((n.mailbox S).map Envelope.ref).Nodup
  distinct : ∀ p p' S S' k k' ref, n.caller p = .waiting S k ref →
    n.caller p' = .waiting S' k' ref → p = p'
  inbox : ∀ p S, ∀ m ∈ n.inbox p S, m.1 < n.fresh
  late : ∀ k, a.late k ≠ none → k < n.fresh
  busy : ∃ ps : List Pid, ∀ p, a.call p ≠ none → p ∈ ps

variable {Q : Service Srv Inp Env σ Req Rep} {n : Net Pid σ Req Rep} {a : Atomic Pid σ Req Rep}
  {p : Pid} {S : Srv}

omit [DecidableEq Srv] [DecidableEq Pid] in
theorem Refines.init (s : σ) : Refines Q (.init s : Net Pid σ Req Rep) (.init s) where
  state := rfl
  caller _ := rfl
  mail := nofun
  nodup _ := List.nodup_nil
  distinct := nofun
  inbox := nofun
  late _ h := absurd rfl h
  busy := ⟨[], fun _ h => absurd rfl h⟩

/-- A server that is dead answers every call to it. -/
def fail (Q : Service Srv Inp Env σ Req Rep) (s : σ) :
    Option (Call Req Rep) → Option (Call Req Rep)
  | some (.pending S r) => if Q.alive S s then some (.pending S r) else some (.answered S none)
  | c => c

namespace Atomic

/-- The calls of the callers `ps` to dead servers are answered. -/
def failAll (Q : Service Srv Inp Env σ Req Rep) (ps : List Pid) (a : Atomic Pid σ Req Rep) :
    Atomic Pid σ Req Rep :=
  { a with call := fun p => if p ∈ ps then fail Q a.state (a.call p) else a.call p }

omit [DecidableEq Srv] in
theorem setCall_self {p : Pid} {c : Option (Call Req Rep)} (h : a.call p = c) :
    a.setCall p c = a := by
  subst h
  simp [setCall]

omit [DecidableEq Srv] in
theorem failAll_nil (a : Atomic Pid σ Req Rep) : a.failAll Q [] = a := by
  simp [failAll]

omit [DecidableEq Srv] in
theorem fail_idem (s : σ) (c : Option (Call Req Rep)) : fail Q s (fail Q s c) = fail Q s c := by
  cases c with
  | none => rfl
  | some c =>
    cases c with
    | pending S r => cases halive : Q.alive S s <;> simp [fail, halive]
    | answered S o => rfl

omit [DecidableEq Srv] in
theorem failAll_cons (p : Pid) (ps : List Pid) (a : Atomic Pid σ Req Rep) :
    a.failAll Q (p :: ps) = (a.setCall p (fail Q a.state (a.call p))).failAll Q ps := by
  have hcall : ∀ p', (a.failAll Q (p :: ps)).call p' =
      ((a.setCall p (fail Q a.state (a.call p))).failAll Q ps).call p' := by
    intro p'
    by_cases hpp : p' = p
    · subst hpp
      simp [failAll, setCall, fail_idem]
    · simp [failAll, setCall, hpp]
  exact congrArg (fun call => (⟨a.state, call, a.late⟩ : Atomic Pid σ Req Rep)) (funext hcall)

omit [DecidableEq Srv] in
/-- A call to a dead server is answered when it is performed. -/
theorem step_fail {p : Pid} {S : Srv} {r : Req S} (hcall : a.call p = some (.pending S r))
    (hdead : Q.alive S a.state = false) (i : Inp) :
    a.step Q (.perform p i) = some (a.setCall p (fail Q a.state (a.call p))) := by
  simp [step, hcall, Q.serve_dead hdead, setCall, fail, hdead]

omit [DecidableEq Srv] in
/-- All that are to fail are performed one by one. -/
theorem run_fail [Inhabited Inp] (ps : List Pid) (a : Atomic Pid σ Req Rep) :
    ∃ ks, run (step Q) a ks = some (a.failAll Q ps) ∧ observe (step Q) event a ks = [] := by
  induction ps generalizing a with
  | nil => exact ⟨[], by rw [failAll_nil, run_nil], rfl⟩
  | cons p ps ih =>
    rw [failAll_cons]
    by_cases hp : ∃ S r, a.call p = some (.pending S r) ∧ Q.alive S a.state = false
    · obtain ⟨S, r, hcall, hdead⟩ := hp
      have hstep := step_fail hcall hdead default
      obtain ⟨ks, hrun, hobs⟩ := ih (a.setCall p (fail Q a.state (a.call p)))
      refine ⟨.perform p default :: ks, ?_, ?_⟩
      · rw [run_cons, hstep, Option.bind_some, hrun]
      · simp [observe, hstep, event, hobs]
    · have hfail : fail Q a.state (a.call p) = a.call p := by
        unfold fail
        split
        · rename_i S r hcall
          split
          · exact hcall.symm
          · rename_i halive
            exact absurd ⟨S, r, hcall, Bool.not_eq_true _ ▸ halive⟩ hp
        · rfl
      rw [hfail, setCall_self rfl]
      exact ih a

end Atomic

omit [DecidableEq Srv] [DecidableEq Pid] in
theorem Refines.owned_of_waiting (h : Refines Q n a) {k ref : Nat}
    (hp : n.caller p = .waiting S k ref) {m : Envelope Pid Req S} (hm : m ∈ n.mailbox S)
    (href : m.ref = ref) : Owned n a S m := by
  rcases (h.mail S m hm).2.2 with howned | horphan
  · exact howned
  · subst href
    exact absurd hp (horphan.caller p S k)

namespace Net

variable {s' : σ}

omit [DecidableEq Pid]

@[simp] theorem settle_state : (n.settle Q s').state = s' := rfl

@[simp] theorem settle_caller : (n.settle Q s').caller = n.caller := rfl

omit [DecidableEq Srv] in
theorem alive_of_not_died {s : σ} (halive : Q.alive S s = true) (h : died Q s s' S = false) :
    Q.alive S s' = true := by
  simpa [died, halive] using h

theorem settle_dead_of_alive (h : died Q n.state s' S = false) :
    (n.settle Q s').dead S = n.dead S ∧ (n.settle Q s').mailbox S = n.mailbox S ∧
      ∀ p, (n.settle Q s').inbox p S = n.inbox p S := by
  refine ⟨by simp [settle, h], by simp [settle, h], fun p => ?_⟩
  simp only [settle]
  split
  · refine if_neg ?_
    rintro ⟨rfl, -, hdied⟩
    rw [h] at hdied
    cases hdied
  · rfl

/-- What was to be read first is still read first. -/
theorem lookup_settle {ref : Nat} {o : Option (Rep S)} (h : (n.inbox p S).lookup ref = some o) :
    ((n.settle Q s').inbox p S).lookup ref = some o := by
  simp only [settle]
  split
  · split
    · rw [List.lookup_append, h, Option.some_or]
    · exact h
  · exact h

/-- The news of the death of a server reaches the caller that monitors it. -/
theorem lookup_settle_died {ref : Nat} (hp : n.caller p = .waiting S (n.dead S) ref)
    (hdied : died Q n.state s' S = true) (h : (n.inbox p S).lookup ref = none) :
    ((n.settle Q s').inbox p S).lookup ref = some none := by
  simp [settle, hp, hdied, List.lookup_append, h]

end Net

/-- A step of the atomic calls that is one of `D` and shows `e`, or no step when there is none in
`D` and nothing is to be shown. -/
def Moves (Q : Service Srv Inp Env σ Req Rep) (D : Atomic.Label Pid Inp Env Req → Prop)
    (a : Atomic Pid σ Req Rep) (e : Option (Event Pid Env Req Rep)) (a' : Atomic Pid σ Req Rep) :
    Prop :=
  (e = none ∧ (∀ k, ¬ D k) ∧ a' = a) ∨ ∃ k, D k ∧ a.step Q k = some a' ∧ a.event k = e

section Moves

variable {e : Option (Event Pid Env Req Rep)} {a' : Atomic Pid σ Req Rep}

omit [DecidableEq Srv]

theorem Moves.none (h : Moves Q (fun _ => False) a e a') : a' = a := by
  rcases h with ⟨-, -, rfl⟩ | ⟨_, hk, -⟩
  · rfl
  · exact hk.elim

theorem Moves.invoke {r : Req S} (h : Moves Q (· = .invoke p S r) a e a') :
    a.call p = .none ∧ a' = a.setCall p (some (.pending S r)) := by
  rcases h with ⟨-, hD, -⟩ | ⟨_, rfl, hstep, -⟩
  · exact absurd rfl (hD _)
  · simp only [Atomic.step] at hstep
    split at hstep
    · rename_i hcall
      exact ⟨hcall, (Option.some.inj hstep).symm⟩
    · cases hstep

theorem Moves.finish (h : Moves Q (· = .finish p) a e a') : ∃ S o,
    a.call p = some (.answered S o) ∧ e = some (.returned p S o) ∧ a' = a.setCall p .none := by
  rcases h with ⟨-, hD, -⟩ | ⟨_, rfl, hstep, hshow⟩
  · exact absurd rfl (hD _)
  · simp only [Atomic.step] at hstep
    split at hstep
    · rename_i S o hcall
      simp only [Atomic.event, hcall] at hshow
      exact ⟨S, o, hcall, hshow.symm, (Option.some.inj hstep).symm⟩
    · cases hstep

theorem Moves.abandon (h : Moves Q (∃ keep, · = .abandon p keep) a e a') :
    a'.state = a.state ∧ a'.call = Function.update a.call p .none := by
  rcases h with ⟨-, hD, -⟩ | ⟨_, ⟨keep, rfl⟩, hstep, -⟩
  · exact absurd ⟨.none, rfl⟩ (hD (.abandon p .none))
  · simp only [Atomic.step] at hstep
    split at hstep
    · cases hstep
    · split at hstep
      · cases hstep
        exact ⟨rfl, rfl⟩
      · cases hstep
    · cases hstep
      exact ⟨rfl, rfl⟩

theorem Moves.change {e' : Env} (h : Moves Q (· = .change e') a e a') :
    a' = { a with state := Q.change e' a.state } := by
  rcases h with ⟨-, hD, -⟩ | ⟨_, rfl, hstep, -⟩
  · exact absurd rfl (hD _)
  · exact (Option.some.inj hstep).symm

/-- What a server does with the request of a caller that waits. -/
theorem Moves.handle (h : Refines Q n a) {m : Envelope Pid Req S} {rest : List (Envelope Pid Req S)}
    (hS : n.mailbox S = m :: rest) {k : Nat} (hm : n.caller m.sender = .waiting S k m.ref) {i : Inp}
    (hmoves : Moves Q (n.moves (.handle S i)) a e a') :
    a.call m.sender = some (.pending S m.request) ∧
      a' = { a.setCall m.sender (some (.answered S (Q.serve S m.request i a.state).1)) with
        state := (Q.serve S m.request i a.state).2 } := by
  have hmem : m ∈ n.mailbox S := by simp [hS]
  have howned := h.owned_of_waiting hm hmem rfl
  have hcall := howned.call
  rcases hmoves with ⟨-, hD, -⟩ | ⟨l, ⟨m', rest', hS', hl⟩, hstep, -⟩
  · exact absurd ⟨m, rest, hS, .inl ⟨rfl, howned.caller⟩⟩ (hD (.perform m.sender i))
  · rw [hS] at hS'
    cases hS'
    rcases hl with ⟨rfl, -⟩ | ⟨-, hne⟩
    · simp only [Atomic.step, hcall] at hstep
      exact ⟨hcall, (Option.some.inj hstep).symm⟩
    · exact absurd hm (hne _ _ _)

end Moves

/-- The step of the messages is matched: the atomic calls move, and the calls to servers that are
dead by then are answered. -/
def Matched (Q : Service Srv Inp Env σ Req Rep) (D : Atomic.Label Pid Inp Env Req → Prop)
    (a : Atomic Pid σ Req Rep) (e : Option (Event Pid Env Req Rep)) (n' : Net Pid σ Req Rep) :
    Prop :=
  ∃ a₁ ps, Moves Q D a e a₁ ∧ Refines Q n' (a₁.failAll Q ps)

variable {D : Atomic.Label Pid Inp Env Req → Prop}

omit [DecidableEq Srv] in
theorem Matched.of_step {a' : Atomic Pid σ Req Rep} {n' : Net Pid σ Req Rep}
    {k : Atomic.Label Pid Inp Env Req} (hk : D k) (hstep : a.step Q k = some a')
    (h : Refines Q n' a') : Matched Q D a (a.event k) n' :=
  ⟨a', [], .inr ⟨k, hk, hstep, rfl⟩, by rwa [Atomic.failAll_nil]⟩

omit [DecidableEq Srv] in
theorem Matched.of_refines {n' : Net Pid σ Req Rep} (hD : ∀ k, ¬ D k) (h : Refines Q n' a) :
    Matched Q D a none n' :=
  ⟨a, [], .inl ⟨rfl, hD, rfl⟩, by rwa [Atomic.failAll_nil]⟩

omit [DecidableEq Srv] in
/-- What matches a step is a run of the atomic calls. -/
theorem Matched.run [Inhabited Inp] {e : Option (Event Pid Env Req Rep)} {n' : Net Pid σ Req Rep}
    (h : Matched Q D a e n') : ∃ ks a', run (Atomic.step Q) a ks = some a' ∧
      observe (Atomic.step Q) Atomic.event a ks = e.toList ∧ Refines Q n' a' := by
  obtain ⟨a₁, ps, hmoves, href⟩ := h
  obtain ⟨ks, hrun, hobs⟩ := Atomic.run_fail (Q := Q) ps a₁
  rcases hmoves with ⟨rfl, -, rfl⟩ | ⟨k, -, hstep, rfl⟩
  · exact ⟨ks, _, hrun, hobs, href⟩
  · refine ⟨k :: ks, _, ?_, ?_, href⟩
    · rw [run_cons, hstep, Option.bind_some, hrun]
    · simp [observe, hstep, hobs]

/-- What becomes of the calls when the state changes to `s'`: those to the servers that die are
answered, and the others stay as they are. -/
structure Settled (Q : Service Srv Inp Env σ Req Rep) (s s' : σ)
    (call call' : Pid → Option (Call Req Rep)) : Prop where
  died : ∀ p S r, call p = some (.pending S r) → Net.died Q s s' S = true →
    call' p = some (.answered S none)
  pending : ∀ p S r, call p = some (.pending S r) → Q.alive S s = true →
    Net.died Q s s' S = false → call' p = some (.pending S r)
  answered : ∀ p S o, call p = some (.answered S o) → call' p = some (.answered S o)
  none : ∀ p, call p = none → call' p = none

omit [DecidableEq Pid] in
theorem Refines.settled (h : Refines Q n a) {s' : σ} {a' : Atomic Pid σ Req Rep}
    (hstate : a'.state = s') (hlate : a'.late = a.late)
    (hcall : Settled Q n.state s' a.call a'.call)
    (hbusy : ∃ ps : List Pid, ∀ p, a'.call p ≠ none → p ∈ ps) :
    Refines Q (n.settle Q s') a' where
  state := hstate
  caller p := by
    have hp := h.caller p
    show Stands Q (n.settle Q s') a' p (n.caller p)
    cases hc : n.caller p with
    | idle =>
      rw [hc] at hp
      exact hcall.none p hp
    | noproc S =>
      rw [hc] at hp
      exact hcall.answered p S none hp
    | found S r k =>
      rw [hc] at hp
      obtain ⟨hle, hcur, hold⟩ := hp
      cases hdied : Net.died Q n.state s' S with
      | true =>
        have hdead : (n.settle Q s').dead S = n.dead S + 1 := by simp [Net.settle, hdied]
        refine ⟨by omega, fun hk => by omega, fun _ => ?_⟩
        by_cases hk : k = n.dead S
        · exact hcall.died p S r (hcur hk).2 hdied
        · exact hcall.answered p S none (hold hk)
      | false =>
        have hdead := (Net.settle_dead_of_alive hdied).1
        refine ⟨by omega, fun hk => ?_, fun hk => ?_⟩
        · obtain ⟨halive, hpending⟩ := hcur (by omega)
          exact ⟨Net.alive_of_not_died halive hdied, hcall.pending p S r hpending halive hdied⟩
        · exact hcall.answered p S none (hold (by omega))
    | waiting S k ref =>
      rw [hc] at hp
      obtain ⟨hfresh, hp⟩ := hp
      refine ⟨hfresh, ?_⟩
      rcases hp with ⟨m, hm, rfl, href⟩ | ⟨o, hlookup, hans⟩
      · have howned := h.owned_of_waiting hc hm href
        subst href
        cases hdied : Net.died Q n.state s' S with
        | true =>
          refine .inr ⟨none, Net.lookup_settle_died howned.caller hdied howned.inbox, ?_⟩
          exact hcall.died _ S _ howned.call hdied
        | false =>
          refine .inl ⟨m, ?_, rfl, rfl⟩
          rw [(Net.settle_dead_of_alive hdied).2.1]
          exact hm
      · exact .inr ⟨o, Net.lookup_settle hlookup, hcall.answered p S o hans⟩
  mail S m hm := by
    cases hdied : Net.died Q n.state s' S with
    | true => simp [Net.settle, hdied] at hm
    | false =>
      obtain ⟨hdead, hmailbox, hinbox⟩ := Net.settle_dead_of_alive hdied
      rw [hmailbox] at hm
      obtain ⟨halive, hfresh, hm⟩ := h.mail S m hm
      refine ⟨Net.alive_of_not_died halive hdied, hfresh, ?_⟩
      rcases hm with howned | horphan
      · refine .inl ⟨?_, hcall.pending _ S _ howned.call halive hdied, ?_, ?_⟩
        · rw [hdead]
          exact howned.caller
        · rw [hinbox]
          exact howned.inbox
        · rw [hlate]
          exact howned.late
      · exact .inr ⟨hlate ▸ horphan.late, horphan.caller⟩
  nodup S := by
    cases hdied : Net.died Q n.state s' S with
    | true => simp [Net.settle, hdied]
    | false =>
      rw [(Net.settle_dead_of_alive hdied).2.1]
      exact h.nodup S
  distinct := h.distinct
  inbox p S m hm := by
    simp only [Net.settle] at hm
    split at hm
    · rename_i S' k ref hc
      split at hm
      · rename_i hS
        rcases List.mem_append.mp hm with hm | hm
        · exact h.inbox p S m hm
        · rw [List.mem_singleton.mp hm]
          have hp := h.caller p
          rw [hc] at hp
          exact hp.1
      · exact h.inbox p S m hm
    · exact h.inbox p S m hm
  late := hlate ▸ h.late
  busy := hbusy

/-- The state changes, and the calls to the servers that die of it are answered. -/
theorem Refines.settle (h : Refines Q n a) (s' : σ) (a₁ : Atomic Pid σ Req Rep)
    (hstate : a₁.state = s') (hlate : a₁.late = a.late)
    (hcall : ∀ p, a₁.call p = a.call p ∨ ∃ S r, Net.died Q n.state s' S = true ∧
      a.call p = some (.pending S r) ∧ a₁.call p = some (.answered S none)) :
    ∃ ps, Refines Q (n.settle Q s') (a₁.failAll Q ps) := by
  obtain ⟨ps, hps⟩ := h.busy
  have hbusy : ∀ p, a₁.call p ≠ none → p ∈ ps := by
    intro p hp
    rcases hcall p with heq | ⟨S, r, -, hpending, -⟩
    · exact hps p (heq ▸ hp)
    · exact hps p (by simp [hpending])
  have hfail : ∀ p, (a₁.failAll Q ps).call p = fail Q s' (a₁.call p) := by
    intro p
    simp only [Atomic.failAll, hstate]
    split
    · rfl
    · rename_i hp
      have hnone : a₁.call p = none := by
        by_contra hne
        exact hp (hbusy p hne)
      rw [hnone]
      rfl
  refine ⟨ps, h.settled hstate hlate ?_ ⟨ps, ?_⟩⟩
  · constructor
    · intro p S r hp hdied
      have hdead : Q.alive S s' = false := by simp_all [Net.died]
      rw [hfail]
      rcases hcall p with heq | ⟨S', r', -, hp', hans⟩
      · simp [heq, hp, fail, hdead]
      · rw [hp] at hp'
        cases hp'
        simp [hans, fail]
    · intro p S r hp halive hdied
      have halive' := Net.alive_of_not_died halive hdied
      rw [hfail]
      rcases hcall p with heq | ⟨S', r', hdied', hp', -⟩
      · simp [heq, hp, fail, halive']
      · rw [hp] at hp'
        cases hp'
        rw [hdied] at hdied'
        cases hdied'
    · intro p S o hp
      rw [hfail]
      rcases hcall p with heq | ⟨S', r', -, hp', -⟩
      · simp [heq, hp, fail]
      · rw [hp] at hp'
        cases hp'
    · intro p hp
      rw [hfail]
      rcases hcall p with heq | ⟨S', r', -, hp', -⟩
      · simp [heq, hp, fail]
      · rw [hp] at hp'
        cases hp'
  · intro p hp
    rw [hfail] at hp
    refine hbusy p fun hnone => hp ?_
    rw [hnone]
    rfl

end Calls
