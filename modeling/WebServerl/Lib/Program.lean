import Mathlib.Logic.Function.Basic

/-! Sequential programs over atomic operations, and the interleaving of any number of them on one
shared state.  A program is a tree: it performs an operation and goes on with the result.
`Program.Safe` is a rely-guarantee condition on one program: whatever the other programs do
between its operations, as long as they move the state up in an order `le` and keep an invariant
`inv`, the program does the same and performs each operation only where it is allowed.  A pool of
safe programs stays safe under every interleaving. -/

/-- A program returns a value, crashes, or performs an operation and goes on with its result. -/
inductive Program (Op : Type) (Res : Op → Type) (α : Type) where
  | done (a : α)
  | crash
  | perform (o : Op) (next : Res o → Program Op Res α)

namespace Program

variable {Op : Type} {Res : Op → Type} {α β σ : Type}

def bind : Program Op Res α → (α → Program Op Res β) → Program Op Res β
  | .done a, f => f a
  | .crash, _ => .crash
  | .perform o next, f => .perform o fun r => (next r).bind f

instance : Monad (Program Op Res) where
  pure := .done
  bind := bind

def op (o : Op) : Program Op Res (Res o) := .perform o .done

@[simp] theorem pure_eq (a : α) : (pure a : Program Op Res α) = .done a := rfl

@[simp] theorem done_bind (a : α) (f : α → Program Op Res β) :
    (Program.done a >>= f) = f a := rfl

@[simp] theorem crash_bind (f : α → Program Op Res β) :
    ((Program.crash : Program Op Res α) >>= f) = .crash := rfl

@[simp] theorem perform_bind (o : Op) (next : Res o → Program Op Res α)
    (f : α → Program Op Res β) :
    (Program.perform o next >>= f) = .perform o fun r => next r >>= f := rfl

@[simp] theorem op_bind (o : Op) (f : Res o → Program Op Res β) :
    (op o >>= f) = .perform o f := rfl

instance : LawfulMonad (Program Op Res) :=
  LawfulMonad.mk' _
    (fun p => by
      induction p with
      | done a => rfl
      | crash => rfl
      | perform o next ih => exact congrArg (perform o) (funext ih))
    (fun _ _ => rfl)
    (fun p f g => by
      induction p with
      | done a => rfl
      | crash => rfl
      | perform o next ih => exact congrArg (perform o) (funext ih))

def eval (exec : (o : Op) → σ → Res o × σ) : Program Op Res α → σ → Option α × σ
  | .done a, s => (some a, s)
  | .crash, s => (none, s)
  | .perform o next, s => (next (exec o s).1).eval exec (exec o s).2

@[simp] theorem eval_done (exec : (o : Op) → σ → Res o × σ) (a : α) (s : σ) :
    (Program.done a).eval exec s = (some a, s) := rfl

@[simp] theorem eval_crash (exec : (o : Op) → σ → Res o × σ) (s : σ) :
    (Program.crash : Program Op Res α).eval exec s = (none, s) := rfl

@[simp] theorem eval_perform (exec : (o : Op) → σ → Res o × σ) (o : Op)
    (next : Res o → Program Op Res α) (s : σ) :
    (Program.perform o next).eval exec s = (next (exec o s).1).eval exec (exec o s).2 := rfl

theorem eval_bind_some {exec : (o : Op) → σ → Res o × σ} {p : Program Op Res α} {s s' : σ} {a : α}
    (h : p.eval exec s = (some a, s')) (f : α → Program Op Res β) :
    (p >>= f).eval exec s = (f a).eval exec s' := by
  induction p generalizing s with
  | done a' =>
    cases h
    rfl
  | crash => cases h
  | perform o next ih => exact ih _ h

/-- Every operation that the program can perform satisfies `good`, whatever the results of the
operations before it. -/
def Uses (good : Op → Prop) : Program Op Res α → Prop
  | .done _ => True
  | .crash => True
  | .perform o next => good o ∧ ∀ r, (next r).Uses good

theorem Uses.bind {good : Op → Prop} {p : Program Op Res α} {f : α → Program Op Res β}
    (hp : p.Uses good) (hf : ∀ a, (f a).Uses good) : (p >>= f).Uses good := by
  induction p with
  | done a => exact hf a
  | crash => trivial
  | perform o next ih => exact ⟨hp.1, fun r => ih r (hp.2 r)⟩

theorem Uses.mapM {good : Op → Prop} {f : α → Program Op Res β} (hf : ∀ a, (f a).Uses good)
    (l : List α) : (l.mapM f).Uses good := by
  induction l with
  | nil => trivial
  | cons a l ih =>
    rw [List.mapM_cons]
    exact (hf a).bind fun b => ih.bind fun bs => trivial

theorem Uses.mono {good good' : Op → Prop} {p : Program Op Res α} (hp : p.Uses good)
    (h : ∀ o, good o → good' o) : p.Uses good' := by
  induction p with
  | done a => trivial
  | crash => trivial
  | perform o next ih => exact ⟨h o hp.1, fun r => ih r (hp.2 r)⟩

/-- Every value that the program can return satisfies `good`. -/
def Returns (good : α → Prop) : Program Op Res α → Prop
  | .done a => good a
  | .crash => True
  | .perform _ next => ∀ r, (next r).Returns good

theorem Returns.bind {good : α → Prop} {good' : β → Prop} {p : Program Op Res α}
    {f : α → Program Op Res β} (hp : p.Returns good) (hf : ∀ a, good a → (f a).Returns good') :
    (p >>= f).Returns good' := by
  induction p with
  | done a => exact hf a hp
  | crash => trivial
  | perform o next ih => exact fun r => ih r (hp r)

theorem Returns.mono {good good' : α → Prop} {p : Program Op Res α} (hp : p.Returns good)
    (h : ∀ a, good a → good' a) : p.Returns good' := by
  induction p with
  | done a => exact h a hp
  | crash => trivial
  | perform o next ih => exact fun r => ih r (hp r)

theorem Returns.any (p : Program Op Res α) : p.Returns fun _ => True := by
  induction p with
  | done a => trivial
  | crash => trivial
  | perform o next ih => exact ih

theorem Returns.mapM {good : β → Prop} {f : α → Program Op Res β} {l : List α}
    (hf : ∀ a ∈ l, (f a).Returns good) : (l.mapM f).Returns fun bs => ∀ b ∈ bs, good b := by
  induction l with
  | nil => exact List.forall_mem_nil _
  | cons a l ih =>
    rw [List.mapM_cons]
    refine (hf a List.mem_cons_self).bind fun b hb => ?_
    refine (ih fun a ha => hf a (List.mem_cons_of_mem _ ha)).bind fun bs hbs => ?_
    exact List.forall_mem_cons.mpr ⟨hb, hbs⟩

theorem Returns.of_eval {good : α → Prop} {exec : (o : Op) → σ → Res o × σ}
    {p : Program Op Res α} (hp : p.Returns good) {s : σ} {a : α}
    (h : (p.eval exec s).1 = some a) : good a := by
  induction p generalizing s with
  | done a' =>
    cases h
    exact hp
  | crash => cases h
  | perform o next ih => exact ih _ (hp _) h

/-- As long as each operation has a result that is `fine` for it, the program does not crash and
returns a value that satisfies `good`. -/
def Survives (fine : (o : Op) → Res o → Prop) (good : α → Prop) : Program Op Res α → Prop
  | .done a => good a
  | .crash => False
  | .perform o next => ∀ r, fine o r → (next r).Survives fine good

theorem Survives.mono {fine fine' : (o : Op) → Res o → Prop} {good : α → Prop}
    {p : Program Op Res α} (hp : p.Survives fine good) (h : ∀ o r, fine' o r → fine o r) :
    p.Survives fine' good := by
  induction p with
  | done a => exact hp
  | crash => exact hp
  | perform o next ih => exact fun r hr => ih r (hp r (h o r hr))

theorem Survives.bind {fine : (o : Op) → Res o → Prop} {good : α → Prop} {good' : β → Prop}
    {p : Program Op Res α} {f : α → Program Op Res β} (hp : p.Survives fine good)
    (hf : ∀ a, good a → (f a).Survives fine good') : (p >>= f).Survives fine good' := by
  induction p with
  | done a => exact hf a hp
  | crash => exact hp.elim
  | perform o next ih => exact fun r hr => ih r (hp r hr)

theorem Survives.mapM {fine : (o : Op) → Res o → Prop} {f : α → Program Op Res β} {l : List α}
    (hf : ∀ a ∈ l, (f a).Survives fine fun _ => True) :
    (l.mapM f).Survives fine fun _ => True := by
  induction l with
  | nil => trivial
  | cons a l ih =>
    rw [List.mapM_cons]
    refine (hf a List.mem_cons_self).bind fun b _ => ?_
    exact (ih fun a ha => hf a (List.mem_cons_of_mem _ ha)).bind fun bs _ => trivial

/-- What can be left of the program when some of its operations have been performed. -/
inductive Residual (p : Program Op Res α) : Program Op Res α → Prop where
  | start : Residual p p
  | next {o : Op} {k : Res o → Program Op Res α} (h : Residual p (.perform o k)) (r : Res o) :
    Residual p (k r)

theorem Residual.of_perform {o : Op} {k : Res o → Program Op Res α} {g : Program Op Res α}
    (h : (Program.perform o k).Residual g) : g = .perform o k ∨ ∃ r, (k r).Residual g := by
  induction h with
  | start => exact .inl rfl
  | next h r ih =>
    rcases ih with heq | ⟨r', h'⟩
    · cases heq
      exact .inr ⟨r, .start⟩
    · exact .inr ⟨r', h'.next r⟩

theorem Residual.of_done {a : α} {g : Program Op Res α}
    (h : (Program.done a : Program Op Res α).Residual g) : g = .done a := by
  induction h with
  | start => rfl
  | next h r ih => cases ih

theorem Uses.of_residual {good : Op → Prop} {p g : Program Op Res α} (hp : p.Uses good)
    (h : p.Residual g) : g.Uses good := by
  induction h with
  | start => exact hp
  | next h r ih => exact ih.2 r

theorem Returns.of_residual {good : α → Prop} {p : Program Op Res α} (hp : p.Returns good)
    {a : α} (h : p.Residual (.done a)) : good a := by
  have hall : ∀ {g : Program Op Res α}, p.Residual g → g.Returns good := by
    intro g hg
    induction hg with
    | start => exact hp
    | next _ r ih => exact ih r
  exact hall h

theorem Residual.of_crash {g : Program Op Res α}
    (h : (Program.crash : Program Op Res α).Residual g) : g = .crash := by
  induction h with
  | start => rfl
  | next h r ih => cases ih

end Program

/-- What the programs of a pool promise each other.  `exec c o i` performs the operation `o` of a
program with context `c` on input `i`; `guard` is what is assumed of the operations performed and
`allowed` what has to hold where they are. -/
structure Discipline (Op : Type) (Res : Op → Type) (Ctx Input σ : Type) where
  exec : Ctx → (o : Op) → Input → σ → Res o × σ
  inv : σ → Prop
  le : σ → σ → Prop
  guard : Ctx → Op → σ → Prop
  allowed : Ctx → Op → σ → Prop
  le_refl : ∀ s, le s s
  le_trans : ∀ {s s' s''}, le s s' → le s' s'' → le s s''

namespace Program

variable {Op : Type} {Res : Op → Type} {α β Ctx Input σ : Type}
  {D : Discipline Op Res Ctx Input σ} {c : Ctx}

/-- From the state `s` on, and in every state that the other programs may have moved to before
each operation, the program keeps the discipline `D`; when it returns, `post` holds. -/
def Safe (D : Discipline Op Res Ctx Input σ) (c : Ctx) (post : α → σ → Prop) :
    Program Op Res α → σ → Prop
  | .done a, s => ∀ s', D.le s s' → D.inv s' → post a s'
  | .crash, _ => True
  | .perform o next, s => ∀ s', D.le s s' → D.inv s' → D.guard c o s' →
      D.allowed c o s' ∧ ∀ i, D.inv (D.exec c o i s').2 ∧ D.le s' (D.exec c o i s').2 ∧
        (next (D.exec c o i s').1).Safe D c post (D.exec c o i s').2

theorem Safe.mono {post : α → σ → Prop} {p : Program Op Res α} {s s' : σ}
    (h : p.Safe D c post s) (hle : D.le s s') : p.Safe D c post s' := by
  cases p with
  | done a => exact fun s'' hs'' => h s'' (D.le_trans hle hs'')
  | crash => trivial
  | perform o next => exact fun s'' hs'' => h s'' (D.le_trans hle hs'')

theorem Safe.mono_post {post post' : α → σ → Prop} {p : Program Op Res α} {s : σ}
    (h : p.Safe D c post s) (hpost : ∀ a s, post a s → post' a s) : p.Safe D c post' s := by
  induction p generalizing s with
  | done a => exact fun s' hle hinv => hpost a s' (h s' hle hinv)
  | crash => trivial
  | perform o next ih =>
    intro s' hle hinv hguard
    obtain ⟨hallowed, hstep⟩ := h s' hle hinv hguard
    exact ⟨hallowed, fun i => ⟨(hstep i).1, (hstep i).2.1, ih _ (hstep i).2.2⟩⟩

theorem Safe.of_inv {post : α → σ → Prop} {p : Program Op Res α} {s : σ}
    (h : ∀ s', D.le s s' → D.inv s' → p.Safe D c post s') : p.Safe D c post s := by
  cases p with
  | done a => exact fun s' hle hinv => h s' hle hinv s' (D.le_refl s') hinv
  | crash => trivial
  | perform o next => exact fun s' hle hinv => h s' hle hinv s' (D.le_refl s') hinv

theorem Safe.bind {mid : α → σ → Prop} {post : β → σ → Prop} {p : Program Op Res α}
    {f : α → Program Op Res β} {s : σ} (hp : p.Safe D c mid s)
    (hf : ∀ a s', D.le s s' → D.inv s' → mid a s' → (f a).Safe D c post s') :
    (p >>= f).Safe D c post s := by
  induction p generalizing s with
  | done a => exact Safe.of_inv fun s' hle hinv => hf a s' hle hinv (hp s' hle hinv)
  | crash => trivial
  | perform o next ih =>
    intro s' hle hinv hguard
    obtain ⟨hallowed, hstep⟩ := hp s' hle hinv hguard
    refine ⟨hallowed, fun i => ?_⟩
    obtain ⟨hinv', hle', hnext⟩ := hstep i
    exact ⟨hinv', hle', ih _ hnext fun a s'' h'' => hf a s'' (D.le_trans (D.le_trans hle hle') h'')⟩

/-- A program is safe when each operation that it uses keeps the discipline by itself. -/
theorem Uses.safe_returns {good : Op → Prop} {value : α → Prop} {post : α → σ → Prop}
    {p : Program Op Res α} (hp : p.Uses good) (hvalue : p.Returns value)
    (hgood : ∀ o, good o → ∀ s, D.inv s → D.guard c o s → D.allowed c o s ∧
      ∀ i, D.inv (D.exec c o i s).2 ∧ D.le s (D.exec c o i s).2)
    (hpost : ∀ a s, value a → D.inv s → post a s) (s : σ) : p.Safe D c post s := by
  induction p generalizing s with
  | done a => exact fun s' _ hinv => hpost a s' hvalue hinv
  | crash => trivial
  | perform o next ih =>
    intro s' _ hinv hguard
    obtain ⟨hallowed, hstep⟩ := hgood o hp.1 s' hinv hguard
    exact ⟨hallowed, fun i => ⟨(hstep i).1, (hstep i).2, ih _ (hp.2 _) (hvalue _) _⟩⟩

theorem Uses.safe {good : Op → Prop} {post : α → σ → Prop} {p : Program Op Res α}
    (hp : p.Uses good)
    (hgood : ∀ o, good o → ∀ s, D.inv s → D.guard c o s → D.allowed c o s ∧
      ∀ i, D.inv (D.exec c o i s).2 ∧ D.le s (D.exec c o i s).2)
    (hpost : ∀ a s, D.inv s → post a s) (s : σ) : p.Safe D c post s :=
  hp.safe_returns (.any p) hgood (fun a s _ => hpost a s) s

/-- A program is safe from a state on above which its operations keep the discipline. -/
theorem Uses.safe_above {good : Op → Prop} {post : α → σ → Prop} {p : Program Op Res α}
    (hp : p.Uses good) (s₀ : σ)
    (hgood : ∀ o, good o → ∀ s, D.le s₀ s → D.inv s → D.guard c o s → D.allowed c o s ∧
      ∀ i, D.inv (D.exec c o i s).2 ∧ D.le s (D.exec c o i s).2)
    (hpost : ∀ a s, D.inv s → post a s) {s : σ} (hs : D.le s₀ s) : p.Safe D c post s := by
  induction p generalizing s with
  | done a => exact fun s' _ hinv => hpost a s' hinv
  | crash => trivial
  | perform o next ih =>
    intro s' hle hinv hguard
    obtain ⟨hallowed, hstep⟩ := hgood o hp.1 s' (D.le_trans hs hle) hinv hguard
    refine ⟨hallowed, fun i => ⟨(hstep i).1, (hstep i).2, ih _ (hp.2 _) ?_⟩⟩
    exact D.le_trans (D.le_trans hs hle) (hstep i).2

/-- A list of programs that establish a stable `P`, one after the other. -/
theorem Safe.mapM {P : β → σ → Prop} {f : α → Program Op Res β} {s : σ}
    (hf : ∀ a s', D.le s s' → D.inv s' → (f a).Safe D c P s')
    (hstable : ∀ b s s', P b s → D.le s s' → P b s') (l : List α) :
    (l.mapM f).Safe D c (fun bs s' => ∀ b ∈ bs, P b s') s := by
  induction l generalizing s with
  | nil => exact fun _ _ _ => List.forall_mem_nil _
  | cons a l ih =>
    rw [List.mapM_cons]
    refine Safe.of_inv fun s₀ h₀ hinv₀ => (hf a s₀ h₀ hinv₀).bind fun b s₁ h₁ _ hb => ?_
    have hrest := ih (s := s₁) fun a s' h => hf a s' (D.le_trans (D.le_trans h₀ h₁) h)
    refine hrest.bind fun bs s₂ h₂ _ hbs => ?_
    intro s₃ h₃ _
    refine List.forall_mem_cons.mpr ⟨hstable _ _ _ hb (D.le_trans h₂ h₃), fun b' hb' => ?_⟩
    exact hstable _ _ _ (hbs b' hb') h₃

end Program

abbrev Pool (Pid Op : Type) (Res : Op → Type) (Ctx α : Type) :=
  Pid → Option (Ctx × Program Op Res α)

namespace Pool

variable {Pid Op : Type} {Res : Op → Type} {Ctx Input σ α : Type}
  {D : Discipline Op Res Ctx Input σ} {post : Ctx → α → σ → Prop}
  {pool : Pool Pid Op Res Ctx α} {s : σ}

/-- Every program of the pool is safe from `s` on. -/
def Safe (D : Discipline Op Res Ctx Input σ) (post : Ctx → α → σ → Prop)
    (pool : Pool Pid Op Res Ctx α) (s : σ) : Prop :=
  ∀ p c g, pool p = some (c, g) → g.Safe D c (post c) s

theorem Safe.mono {s' : σ} (h : pool.Safe D post s) (hle : D.le s s') : pool.Safe D post s' :=
  fun p c g hp => (h p c g hp).mono hle

theorem Safe.sub {pool' : Pool Pid Op Res Ctx α} (h : pool.Safe D post s)
    (hsub : ∀ p t, pool' p = some t → pool p = some t) : pool'.Safe D post s :=
  fun p c g hp => h p c g (hsub p _ hp)

theorem Safe.post_of_done (h : pool.Safe D post s) (hinv : D.inv s) {p : Pid} {c : Ctx} {a : α}
    (hp : pool p = some (c, .done a)) : post c a s :=
  h p c _ hp s (D.le_refl s) hinv

variable [DecidableEq Pid]

theorem Safe.spawn (h : pool.Safe D post s) (p : Pid) {c : Ctx} {g : Program Op Res α}
    (hg : g.Safe D c (post c) s) :
    Pool.Safe D post (Function.update pool p (some (c, g))) s := by
  intro p' c' g' hp
  by_cases hpp : p' = p
  · subst hpp
    rw [Function.update_self, Option.some.injEq, Prod.mk.injEq] at hp
    obtain ⟨rfl, rfl⟩ := hp
    exact hg
  · exact h p' c' g' (by rwa [Function.update_of_ne hpp] at hp)

/-- The step rule: the process at `p` performs its operation where that is allowed, keeps the
invariant, moves the state up, and leaves every program of the pool safe. -/
theorem Safe.step (h : pool.Safe D post s) (hinv : D.inv s) {p : Pid} {c : Ctx} {o : Op}
    {next : Res o → Program Op Res α} (hp : pool p = some (c, .perform o next))
    (hguard : D.guard c o s) :
    D.allowed c o s ∧ ∀ i, D.inv (D.exec c o i s).2 ∧ D.le s (D.exec c o i s).2 ∧
      Pool.Safe D post (Function.update pool p (some (c, next (D.exec c o i s).1)))
        (D.exec c o i s).2 := by
  obtain ⟨hallowed, hstep⟩ := h p c _ hp s (D.le_refl s) hinv hguard
  refine ⟨hallowed, fun i => ?_⟩
  obtain ⟨hinv', hle, hnext⟩ := hstep i
  exact ⟨hinv', hle, (h.mono hle).spawn p hnext⟩

end Pool
