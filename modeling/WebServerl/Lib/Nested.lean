import Mathlib.Logic.Basic

/-! Programs with nested scopes that take effect as a whole: when a scope fails, what it did is
undone, and the scope around it goes on and is told.  `Goes` is what such a program means; `run`
is how a machine may carry it out that enters and leaves its scopes one by one. -/

/-- A program returns a value, fails, performs an operation, or opens a scope and goes on with its
outcome. -/
inductive Nested (Op : Type) (Res : Op → Type) (Err : Type) : Type → Type 1 where
  | done {α : Type} (a : α) : Nested Op Res Err α
  | abort {α : Type} (e : Err) : Nested Op Res Err α
  | perform {α : Type} (o : Op) (next : Res o → Nested Op Res Err α) : Nested Op Res Err α
  | nested {α β : Type} (inner : Nested Op Res Err β) (next : Except Err β → Nested Op Res Err α) :
    Nested Op Res Err α

/-- A machine that performs operations and keeps a stack of scopes. -/
structure Scopes (Op : Type) (Res : Op → Type) (Err τ : Type) where
  exec : (o : Op) → τ → Except Err (Res o × τ)
  enter : τ → τ
  commit : τ → τ
  abort : τ → τ

namespace Nested

variable {Op : Type} {Res : Op → Type} {Err σ τ : Type}

/-- The outcomes of a program that starts in a state, when `acts` tells the outcomes of each
operation.  A scope that fails leaves the state as it found it. -/
inductive Goes (acts : (o : Op) → σ → Except Err (Res o × σ) → Prop) :
    {α : Type} → Nested Op Res Err α → σ → Except Err (α × σ) → Prop where
  | done {α : Type} (a : α) (s : σ) : Goes acts (.done a) s (.ok (a, s))
  | abort {α : Type} (e : Err) (s : σ) : Goes acts (.abort e : Nested Op Res Err α) s (.error e)
  | perform {α : Type} {o : Op} {next : Res o → Nested Op Res Err α} {s s' : σ} {r : Res o}
    {out : Except Err (α × σ)} (h : acts o s (.ok (r, s'))) (hnext : Goes acts (next r) s' out) :
    Goes acts (.perform o next) s out
  | fail {α : Type} {o : Op} {next : Res o → Nested Op Res Err α} {s : σ} {e : Err}
    (h : acts o s (.error e)) : Goes acts (.perform o next) s (.error e)
  | commit {α β : Type} {inner : Nested Op Res Err β} {next : Except Err β → Nested Op Res Err α}
    {s s' : σ} {b : β} {out : Except Err (α × σ)} (h : Goes acts inner s (.ok (b, s')))
    (hnext : Goes acts (next (.ok b)) s' out) : Goes acts (.nested inner next) s out
  | rollback {α β : Type} {inner : Nested Op Res Err β} {next : Except Err β → Nested Op Res Err α}
    {s : σ} {e : Err} {out : Except Err (α × σ)} (h : Goes acts inner s (.error e))
    (hnext : Goes acts (next (.error e)) s out) : Goes acts (.nested inner next) s out

/-- Every operation that the program can perform satisfies `good`. -/
def Uses (good : Op → Prop) : {α : Type} → Nested Op Res Err α → Prop
  | _, .done _ => True
  | _, .abort _ => True
  | _, .perform o next => good o ∧ ∀ r, (next r).Uses good
  | _, .nested inner next => inner.Uses good ∧ ∀ out, (next out).Uses good

def run (S : Scopes Op Res Err τ) : {α : Type} → Nested Op Res Err α → τ → Except Err α × τ
  | _, .done a, t => (.ok a, t)
  | _, .abort e, t => (.error e, t)
  | _, .perform o next, t =>
    match S.exec o t with
    | .ok (r, t') => (next r).run S t'
    | .error e => (.error e, t)
  | _, .nested inner next, t =>
    match inner.run S (S.enter t) with
    | (.ok b, t') => (next (.ok b)).run S (S.commit t')
    | (.error e, t') => (next (.error e)).run S (S.abort t')

/-- The machine carries out `acts` for the operations that are `good`: `R` relates its states to
those of the program, and `Base` those between which only the innermost scope has changed. -/
structure CarriesOut (S : Scopes Op Res Err τ) (good : Op → Prop)
    (acts : (o : Op) → σ → Except Err (Res o × σ) → Prop) (R : τ → σ → Prop)
    (Base : τ → τ → Prop) : Prop where
  refl : ∀ t, Base t t
  trans : ∀ {t t' t''}, Base t t' → Base t' t'' → Base t t''
  exec_ok : ∀ {o t s r t'}, good o → R t s → S.exec o t = .ok (r, t') →
    ∃ s', acts o s (.ok (r, s')) ∧ R t' s' ∧ Base t t'
  exec_error : ∀ {o t s e}, good o → R t s → S.exec o t = .error e → acts o s (.error e)
  enter : ∀ {t s}, R t s → R (S.enter t) s
  commit : ∀ {t t' s}, Base (S.enter t) t' → R t' s → R (S.commit t') s ∧ Base t (S.commit t')
  abort : ∀ {t t' s}, R t s → Base (S.enter t) t' → R (S.abort t') s ∧ Base t (S.abort t')

/-- A run of the machine from `t` does what the program may do from `s`, and leaves the outer scopes
alone. -/
def Follows (acts : (o : Op) → σ → Except Err (Res o × σ) → Prop) (R : τ → σ → Prop)
    (Base : τ → τ → Prop) {α : Type} (p : Nested Op Res Err α) (t : τ) (s : σ) :
    Except Err α × τ → Prop
  | (.ok a, t') => Base t t' ∧ ∃ s', p.Goes acts s (.ok (a, s')) ∧ R t' s'
  | (.error e, t') => Base t t' ∧ p.Goes acts s (.error e)

/-- What comes after a part of a run in which the program goes on with `q`. -/
theorem Follows.lift {acts : (o : Op) → σ → Except Err (Res o × σ) → Prop} {R : τ → σ → Prop}
    {Base : τ → τ → Prop} {α : Type} {p q : Nested Op Res Err α} {t t₁ : τ} {s s₁ : σ}
    {res : Except Err α × τ} (h : q.Follows acts R Base t₁ s₁ res)
    (hbase : ∀ t', Base t₁ t' → Base t t') (hgoes : ∀ out, q.Goes acts s₁ out → p.Goes acts s out) :
    p.Follows acts R Base t s res := by
  obtain ⟨out, t'⟩ := res
  cases out with
  | ok a =>
    obtain ⟨hb, s', hq, hR⟩ := h
    exact ⟨hbase t' hb, s', hgoes _ hq, hR⟩
  | error e => exact ⟨hbase t' h.1, hgoes _ h.2⟩

/-- What the machine makes of a program is what the program means. -/
theorem run_follows {S : Scopes Op Res Err τ} {good : Op → Prop}
    {acts : (o : Op) → σ → Except Err (Res o × σ) → Prop} {R : τ → σ → Prop} {Base : τ → τ → Prop}
    (hS : CarriesOut S good acts R Base) {α : Type} {p : Nested Op Res Err α} (hp : p.Uses good)
    {t : τ} {s : σ} (hR : R t s) :
    p.Follows acts R Base t s (p.run S t) := by
  induction p generalizing t s with
  | done a => exact ⟨hS.refl t, s, .done a s, hR⟩
  | abort e => exact ⟨hS.refl t, .abort e s⟩
  | perform o next ih =>
    cases hexec : S.exec o t with
    | error e =>
      simp only [run, hexec]
      exact ⟨hS.refl t, .fail (hS.exec_error hp.1 hR hexec)⟩
    | ok out =>
      obtain ⟨r, t₁⟩ := out
      obtain ⟨s₁, hacts, hR₁, hbase⟩ := hS.exec_ok hp.1 hR hexec
      simp only [run, hexec]
      exact (ih r (hp.2 r) hR₁).lift (fun _ => hS.trans hbase) fun _ => .perform hacts
  | nested inner next ihinner ihnext =>
    have hinner := ihinner hp.1 (hS.enter hR)
    rw [run]
    generalize inner.run S (S.enter t) = res at hinner ⊢
    obtain ⟨out, t₁⟩ := res
    cases out with
    | ok b =>
      obtain ⟨hbase, s₁, hgoes, hR₁⟩ := hinner
      obtain ⟨hR₂, hbase₂⟩ := hS.commit hbase hR₁
      exact (ihnext (.ok b) (hp.2 _) hR₂).lift (fun _ => hS.trans hbase₂) fun _ => .commit hgoes
    | error e =>
      obtain ⟨hbase, hgoes⟩ := hinner
      obtain ⟨hR₂, hbase₂⟩ := hS.abort hR hbase
      exact (ihnext (.error e) (hp.2 _) hR₂).lift (fun _ => hS.trans hbase₂)
        fun _ => .rollback hgoes

end Nested
