import Mathlib.Data.List.Induction

/-! Runs of machines over lists of inputs.  `run` follows a partial step, which may refuse an
input; `serve` follows a total step that answers every input, and keeps each input with its
answer.  `Always` says that every step of a run meets a condition on the state it is taken in, and
`observe` collects what can be observed at the steps of a run. -/

namespace Machine

variable {σ τ ι κ ω : Type}

section Partial

variable (step : σ → ι → Option σ)

def run (s : σ) (ls : List ι) : Option σ := ls.foldlM step s

/-- Every input of `ls` is met in a state that satisfies `G` with it. -/
def Always (G : σ → ι → Prop) : σ → List ι → Prop
  | _, [] => True
  | s, l :: ls => G s l ∧ ∀ s', step s l = some s' → Always G s' ls

@[simp] theorem run_nil (s : σ) : run step s [] = some s := rfl

@[simp] theorem run_cons (s : σ) (l : ι) (ls : List ι) :
    run step s (l :: ls) = (step s l).bind fun s' => run step s' ls := rfl

theorem run_append (s : σ) (ls ls' : List ι) :
    run step s (ls ++ ls') = (run step s ls).bind fun s' => run step s' ls' := by
  induction ls generalizing s with
  | nil => rfl
  | cons l ls ih =>
    rw [List.cons_append, run_cons, run_cons]
    cases step s l with
    | none => rfl
    | some s' => exact ih s'

theorem run_concat (s : σ) (ls : List ι) (l : ι) :
    run step s (ls ++ [l]) = (run step s ls).bind fun s' => step s' l := by
  rw [run_append]
  cases run step s ls with
  | none => rfl
  | some s' => simp

variable {step}

theorem run_concat_some {s s'' : σ} {ls : List ι} {l : ι} :
    run step s (ls ++ [l]) = some s'' ↔ ∃ s', run step s ls = some s' ∧ step s' l = some s'' := by
  rw [run_concat, Option.bind_eq_some_iff]

theorem always_append {G : σ → ι → Prop} {s : σ} {ls ls' : List ι} :
    Always step G s (ls ++ ls') ↔
      Always step G s ls ∧ ∀ s', run step s ls = some s' → Always step G s' ls' := by
  induction ls generalizing s with
  | nil => simp [Always]
  | cons l ls ih =>
    simp only [List.cons_append, Always, run_cons, Option.bind_eq_some_iff, ih]
    constructor
    · rintro ⟨hl, h⟩
      exact ⟨⟨hl, fun s' hs => (h s' hs).1⟩, fun s'' ⟨s', hs, hr⟩ => (h s' hs).2 s'' hr⟩
    · rintro ⟨⟨hl, h⟩, h'⟩
      exact ⟨hl, fun s' hs => ⟨h s' hs, fun s'' hr => h' s'' ⟨s', hs, hr⟩⟩⟩

theorem always_concat {G : σ → ι → Prop} {s : σ} {ls : List ι} {l : ι} :
    Always step G s (ls ++ [l]) ↔
      Always step G s ls ∧ ∀ s', run step s ls = some s' → G s' l := by
  simp [always_append, Always]

theorem always_iff_forall_before {G : σ → ι → Prop} {s : σ} {ls : List ι} :
    Always step G s ls ↔ ∀ before l after s', ls = before ++ l :: after →
      run step s before = some s' → G s' l := by
  constructor
  · rintro h before l after s' rfl hrun
    exact ((always_append.mp h).2 s' hrun).1
  · intro h
    induction ls using List.reverseRecOn with
    | nil => trivial
    | append_singleton ls l ih =>
      refine always_concat.mpr ⟨ih fun before l' after s' hls hrun => ?_, fun s' hrun => ?_⟩
      · exact h before l' (after ++ [l]) s' (by simp [hls]) hrun
      · exact h ls l [] s' rfl hrun

/-- Every input of a run is met in some state. -/
theorem Always.exists_of_mem {G : σ → ι → Prop} {s s' : σ} {ls : List ι} {l : ι}
    (h : Always step G s ls) (hrun : run step s ls = some s') (hl : l ∈ ls) : ∃ s₁, G s₁ l := by
  obtain ⟨before, after, rfl⟩ := List.append_of_mem hl
  rw [run_append, Option.bind_eq_some_iff] at hrun
  obtain ⟨s₁, hbefore, -⟩ := hrun
  exact ⟨s₁, always_iff_forall_before.mp h before l after s₁ rfl hbefore⟩

instance Always.decidable {G : σ → ι → Prop} [∀ s l, Decidable (G s l)] :
    (s : σ) → (ls : List ι) → Decidable (Always step G s ls)
  | _, [] => .isTrue trivial
  | s, l :: ls =>
    match h : step s l with
    | none => decidable_of_iff (G s l) ⟨fun hl => ⟨hl, by simp [h]⟩, And.left⟩
    | some s' =>
      have : Decidable (Always step G s' ls) := Always.decidable s' ls
      decidable_of_iff (G s l ∧ Always step G s' ls) (by simp [Always, h])

theorem always_of_forall {G : σ → ι → Prop} {ls : List ι} (h : ∀ l ∈ ls, ∀ s, G s l) (s : σ) :
    Always step G s ls := by
  rw [always_iff_forall_before]
  rintro before l after s' rfl -
  exact h l (by simp) s'

theorem always_true (s : σ) (ls : List ι) : Always step (fun _ _ => True) s ls :=
  always_of_forall (fun _ _ _ => trivial) s

theorem Always.mono {G G' : σ → ι → Prop} {s : σ} {ls : List ι} (h : Always step G s ls)
    (hG : ∀ before s' l, before ++ [l] <+: ls → run step s before = some s' → G s' l → G' s' l) :
    Always step G' s ls := by
  rw [always_iff_forall_before] at h ⊢
  rintro before l after s' rfl hrun
  exact hG before s' l ⟨after, by simp⟩ hrun (h before l after s' rfl hrun)

/-- A run passes through the states of its prefixes. -/
theorem run_prefix {s s' : σ} {ls before : List ι} (hrun : run step s ls = some s')
    (h : before <+: ls) : ∃ s₁, run step s before = some s₁ := by
  obtain ⟨after, rfl⟩ := h
  rw [run_append, Option.bind_eq_some_iff] at hrun
  obtain ⟨s₁, hbefore, -⟩ := hrun
  exact ⟨s₁, hbefore⟩

/-- Conditions that agree on the steps that a run takes hold of the same runs. -/
theorem always_congr {G G' : σ → ι → Prop} {s s' : σ} {ls : List ι}
    (hrun : run step s ls = some s')
    (h : ∀ before s₁ l s₂, before ++ [l] <+: ls → run step s before = some s₁ →
      step s₁ l = some s₂ → (G s₁ l ↔ G' s₁ l)) :
    Always step G s ls ↔ Always step G' s ls := by
  have hiff : ∀ before s₁ l, before ++ [l] <+: ls → run step s before = some s₁ →
      (G s₁ l ↔ G' s₁ l) := by
    intro before s₁ l hprefix hbefore
    obtain ⟨s₂, hrun₂⟩ := run_prefix hrun hprefix
    obtain ⟨s₁', hbefore', hstep⟩ := run_concat_some.mp hrun₂
    obtain rfl := Option.some.inj (hbefore'.symm.trans hbefore)
    exact h before s₁' l s₂ hprefix hbefore hstep
  constructor
  · intro hG
    exact hG.mono fun before s₁ l hprefix hbefore => (hiff before s₁ l hprefix hbefore).mp
  · intro hG
    exact hG.mono fun before s₁ l hprefix hbefore => (hiff before s₁ l hprefix hbefore).mpr

/-- The invariant rule: what holds before a run and is kept by every step that the run may take
holds after the run.  The invariant may speak about the inputs so far. -/
theorem run_induction {G : σ → ι → Prop} {P : List ι → σ → Prop} {s : σ} (start : P [] s)
    (keep : ∀ ls s' l s'', run step s ls = some s' → P ls s' → G s' l → step s' l = some s'' →
      P (ls ++ [l]) s'')
    {ls : List ι} {s' : σ} (hrun : run step s ls = some s') (hG : Always step G s ls) :
    P ls s' := by
  induction ls using List.reverseRecOn generalizing s' with
  | nil =>
    cases hrun
    exact start
  | append_singleton ls l ih =>
    obtain ⟨s₁, hrun₁, hstep⟩ := run_concat_some.mp hrun
    obtain ⟨hG₁, hl⟩ := always_concat.mp hG
    exact keep ls s₁ l s' hrun₁ (ih hrun₁ hG₁) (hl s₁ hrun₁) hstep

/-- The simulation rule: when every step of one machine is matched by steps of another one that
show the same, so is every run. -/
theorem run_matched {step' : τ → ι → Option τ} {seen : ι → Bool} {R : σ → τ → Prop}
    (hstep : ∀ s t l s', R s t → step s l = some s' → ∃ ls t', run step' t ls = some t' ∧
      ls.filter seen = [l].filter seen ∧ R s' t')
    {s s' : σ} {t : τ} {ls : List ι} (h : R s t) (hrun : run step s ls = some s') :
    ∃ ls' t', run step' t ls' = some t' ∧ ls'.filter seen = ls.filter seen ∧ R s' t' := by
  refine run_induction (P := fun ls s' => ∃ ls' t', run step' t ls' = some t' ∧
    ls'.filter seen = ls.filter seen ∧ R s' t')
    ⟨[], t, rfl, rfl, h⟩ (fun ls s₁ l s₂ _ ih _ hl => ?_) hrun (always_true _ _)
  obtain ⟨ls₁, t₁, hrun₁, hseen₁, h₁⟩ := ih
  obtain ⟨ls₂, t₂, hrun₂, hseen₂, h₂⟩ := hstep s₁ t₁ l s₂ h₁ hl
  refine ⟨ls₁ ++ ls₂, t₂, ?_, ?_, h₂⟩
  · rw [run_append, hrun₁]
    exact hrun₂
  · rw [List.filter_append, List.filter_append, hseen₁, hseen₂]

/-- When no step that the run may take brings `Q` about where the invariant `I` holds, what has `Q`
after the run had it all along. -/
theorem held_all_along {G : σ → ι → Prop} {I Q : σ → Prop} {s s' : σ} {ls : List ι} (start : I s)
    (keep : ∀ s₁ l s₂, I s₁ → G s₁ l → step s₁ l = some s₂ → I s₂)
    (back : ∀ s₁ l s₂, I s₁ → G s₁ l → step s₁ l = some s₂ → Q s₂ → Q s₁)
    (hrun : run step s ls = some s') (hG : Always step G s ls) (hQ : Q s') :
    ∀ before s₁, before <+: ls → run step s before = some s₁ → Q s₁ := by
  have hall : I s' ∧ (Q s' → ∀ before s₁, before <+: ls → run step s before = some s₁ →
      Q s₁) := by
    refine run_induction (P := fun ls s' => I s' ∧ (Q s' → ∀ before s₁, before <+: ls →
      run step s before = some s₁ → Q s₁)) ?_ ?_ hrun hG
    · refine ⟨start, fun hs before s₁ hbefore hs₁ => ?_⟩
      obtain rfl := List.prefix_nil.mp hbefore
      cases hs₁
      exact hs
    · intro ls s₁ l s₂ hrun₁ ih hl hstep
      obtain ⟨hinv, ih⟩ := ih
      refine ⟨keep s₁ l s₂ hinv hl hstep, fun hs₂ before s₃ hbefore hs₃ => ?_⟩
      rcases List.prefix_concat_iff.mp hbefore with rfl | hbefore
      · rw [run_concat_some.mpr ⟨s₁, hrun₁, hstep⟩, Option.some.injEq] at hs₃
        rwa [← hs₃]
      · exact ih (back s₁ l s₂ hinv hl hstep hs₂) before s₃ hbefore hs₃
  exact hall.2 hQ

end Partial

section Total

variable (f : σ → ι → ω × σ)

/-- The inputs with their answers, and the state after them. -/
def serve : σ → List ι → List (ι × ω) × σ
  | s, [] => ([], s)
  | s, i :: is => ((i, (f s i).1) :: (serve (f s i).2 is).1, (serve (f s i).2 is).2)

def advance (s : σ) (i : ι) : Option σ := some (f s i).2

@[simp] theorem serve_nil (s : σ) : serve f s [] = ([], s) := rfl

theorem serve_cons (s : σ) (i : ι) (is : List ι) :
    serve f s (i :: is) =
      ((i, (f s i).1) :: (serve f (f s i).2 is).1, (serve f (f s i).2 is).2) := rfl

theorem serve_append (s : σ) (is is' : List ι) :
    serve f s (is ++ is') = ((serve f s is).1 ++ (serve f (serve f s is).2 is').1,
      (serve f (serve f s is).2 is').2) := by
  induction is generalizing s with
  | nil => rfl
  | cons i is ih => simp [serve_cons, ih]

theorem serve_concat (s : σ) (is : List ι) (i : ι) :
    serve f s (is ++ [i]) = ((serve f s is).1 ++ [(i, (f (serve f s is).2 i).1)],
      (f (serve f s is).2 i).2) := by
  rw [serve_append]
  rfl

/-- Each entry of a history is what its input was answered after the entries before it. -/
theorem serve_entry {s : σ} {is : List ι} {before after : List (ι × ω)} {i : ι} {o : ω}
    (h : (serve f s is).1 = before ++ (i, o) :: after) :
    ∃ is₁ is₂, is = is₁ ++ i :: is₂ ∧ (serve f s is₁).1 = before ∧
      o = (f (serve f s is₁).2 i).1 := by
  induction before generalizing s is with
  | nil =>
    cases is with
    | nil => simp at h
    | cons j is =>
      rw [serve_cons, List.nil_append, List.cons.injEq, Prod.mk.injEq] at h
      obtain ⟨⟨rfl, rfl⟩, -⟩ := h
      exact ⟨[], is, rfl, rfl, rfl⟩
  | cons e before ih =>
    cases is with
    | nil => simp at h
    | cons j is =>
      rw [serve_cons, List.cons_append, List.cons.injEq] at h
      obtain ⟨rfl, hrest⟩ := h
      obtain ⟨is₁, is₂, rfl, hbefore, ho⟩ := ih hrest
      exact ⟨j :: is₁, is₂, rfl, by rw [serve_cons, hbefore], ho⟩

theorem run_advance (s : σ) (is : List ι) : run (advance f) s is = some (serve f s is).2 := by
  induction is generalizing s with
  | nil => rfl
  | cons i is ih => rw [run_cons, serve_cons, advance, Option.bind_some, ih]

variable {f}

theorem serve_induction {G : ι → Prop} {P : List (ι × ω) → σ → Prop} {s : σ} (start : P [] s)
    (keep : ∀ h s' i, P h s' → G i → P (h ++ [(i, (f s' i).1)]) (f s' i).2)
    {is : List ι} (hG : ∀ i ∈ is, G i) : P (serve f s is).1 (serve f s is).2 := by
  induction is using List.reverseRecOn with
  | nil => exact start
  | append_singleton is i ih =>
    rw [serve_concat]
    exact keep _ _ i (ih fun j hj => hG j (by simp [hj])) (hG i (by simp))

/-- The projection rule: when the inputs that are not `own` leave related states related, and the
`own` inputs get the same answers in related states, a run gives the `own` inputs the answers that
they get in the run from which all other inputs have been deleted. -/
theorem serve_filter (own : ι → Bool) {G : σ → ι → Prop} {R : σ → σ → Prop}
    (hown : ∀ s t i, R s t → own i = true → G s i → (f s i).1 = (f t i).1 ∧ R (f s i).2 (f t i).2)
    (hother : ∀ s t i, R s t → own i = false → G s i → R (f s i).2 t)
    {s t : σ} {is : List ι} (hR : R s t) (hG : Always (advance f) G s is) :
    (serve f s is).1.filter (fun e => own e.1) = (serve f t (is.filter own)).1 ∧
      R (serve f s is).2 (serve f t (is.filter own)).2 := by
  induction is generalizing s t with
  | nil => exact ⟨rfl, hR⟩
  | cons i is ih =>
    obtain ⟨hi, hrest⟩ := hG
    cases ho : own i with
    | true =>
      obtain ⟨heq, hR'⟩ := hown s t i hR ho hi
      obtain ⟨hans, hfin⟩ := ih hR' (hrest _ rfl)
      simp only [serve_cons, List.filter_cons, ho, if_true]
      exact ⟨by rw [heq, hans], hfin⟩
    | false =>
      obtain ⟨hans, hfin⟩ := ih (hother s t i hR ho hi) (hrest _ rfl)
      simp only [serve_cons, List.filter_cons, ho, Bool.false_eq_true, if_false]
      exact ⟨hans, hfin⟩

end Total

section Observation

variable (step : σ → ι → Option σ) (obs : σ → ι → Option ω)

/-- What is observed at the steps of a run, in their order. -/
def observe : σ → List ι → List ω
  | _, [] => []
  | s, l :: ls => (obs s l).toList ++ (step s l).elim [] fun s' => observe s' ls

variable {step obs}

theorem observe_append {s s' : σ} {ls : List ι} (hrun : run step s ls = some s') (ls' : List ι) :
    observe step obs s (ls ++ ls') = observe step obs s ls ++ observe step obs s' ls' := by
  induction ls generalizing s with
  | nil =>
    cases hrun
    rfl
  | cons l ls ih =>
    rw [run_cons, Option.bind_eq_some_iff] at hrun
    obtain ⟨s₁, hstep, hrun⟩ := hrun
    simp only [List.cons_append, observe, hstep, Option.elim_some, ih hrun, List.append_assoc]

theorem observe_concat {s s' s'' : σ} {ls : List ι} {l : ι} (hrun : run step s ls = some s')
    (hstep : step s' l = some s'') :
    observe step obs s (ls ++ [l]) = observe step obs s ls ++ (obs s' l).toList := by
  rw [observe_append hrun]
  simp only [observe, hstep, Option.elim_some, List.append_nil]

/-- Whatever is observed is observed at some step, with what is observed before it. -/
theorem observe_entry {s : σ} {ls : List ι} {o : ω} {os os' : List ω}
    (h : observe step obs s ls = os ++ o :: os') :
    ∃ before l after s', ls = before ++ l :: after ∧ run step s before = some s' ∧
      obs s' l = some o ∧ observe step obs s before = os := by
  induction ls generalizing s os with
  | nil => simp [observe] at h
  | cons l ls ih =>
    rw [observe] at h
    have hfirst : (os = [] ∧ obs s l = some o) ∨ ∃ os₁, os = (obs s l).toList ++ os₁ ∧
        ((step s l).elim [] fun s' => observe step obs s' ls) = os₁ ++ o :: os' := by
      cases hl : obs s l with
      | none =>
        rw [hl] at h
        exact .inr ⟨os, rfl, h⟩
      | some o' =>
        rw [hl] at h
        cases os with
        | nil => exact .inl ⟨rfl, congrArg some (List.cons.inj h).1⟩
        | cons o'' os =>
          obtain ⟨rfl, hrest⟩ := List.cons.inj h
          exact .inr ⟨os, rfl, hrest⟩
    rcases hfirst with ⟨rfl, hobs⟩ | ⟨os₁, rfl, hrest⟩
    · exact ⟨[], l, ls, s, rfl, rfl, hobs, rfl⟩
    · cases hstep : step s l with
      | none => simp [hstep] at hrest
      | some s₁ =>
        rw [hstep] at hrest
        obtain ⟨before, l', after, s', rfl, hrun, hobs, rfl⟩ := ih hrest
        refine ⟨l :: before, l', after, s', rfl, ?_, hobs, ?_⟩
        · rw [run_cons, hstep, Option.bind_some, hrun]
        · simp [observe, hstep]

/-- The simulation rule: when a step leaves related states related, with the answer to its
observation if it has one, a run ends where the answers to its observations lead. -/
theorem run_observe {α : Type} {f : τ → ω → α × τ} {G : σ → ι → Prop} {R : σ → τ → Prop} {s : σ}
    {t : τ} (start : R s t)
    (keep : ∀ s l s' t, R s t → G s l → step s l = some s' →
      R s' ((obs s l).elim t fun o => (f t o).2))
    {ls : List ι} {s' : σ} (hrun : run step s ls = some s') (hG : Always step G s ls) :
    R s' (serve f t (observe step obs s ls)).2 := by
  refine run_induction (P := fun ls s' => R s' (serve f t (observe step obs s ls)).2) start
    (fun ls s₁ l s₂ hrun₁ ih hl hstep => ?_) hrun hG
  have h := keep s₁ l s₂ _ ih hl hstep
  rw [observe_concat hrun₁ hstep, serve_append]
  cases hobs : obs s₁ l with
  | none => simpa [hobs] using h
  | some o => simpa [hobs, serve_cons] using h

/-- The refinement rule: when each step is matched by a run of the other machine, with the same
observations, so is each run. -/
theorem run_refines {step' : τ → κ → Option τ} {obs' : τ → κ → Option ω} {G : σ → ι → Prop}
    {R : σ → τ → Prop} {s : σ} {t : τ} (start : R s t)
    (keep : ∀ s l s' t, R s t → G s l → step s l = some s' → ∃ ks t', run step' t ks = some t' ∧
      observe step' obs' t ks = (obs s l).toList ∧ R s' t')
    {ls : List ι} {s' : σ} (hrun : run step s ls = some s') (hG : Always step G s ls) :
    ∃ ks t', run step' t ks = some t' ∧ observe step' obs' t ks = observe step obs s ls ∧
      R s' t' := by
  refine run_induction (P := fun ls s' => ∃ ks t', run step' t ks = some t' ∧
    observe step' obs' t ks = observe step obs s ls ∧ R s' t') ⟨[], t, rfl, rfl, start⟩
    (fun ls s₁ l s₂ hrun₁ ih hl hstep => ?_) hrun hG
  obtain ⟨ks, t₁, hks, hobs, hR⟩ := ih
  obtain ⟨ks', t₂, hks', hobs', hR'⟩ := keep s₁ l s₂ t₁ hR hl hstep
  refine ⟨ks ++ ks', t₂, ?_, ?_, hR'⟩
  · rw [run_append, hks, Option.bind_some, hks']
  · rw [observe_append hks, observe_concat hrun₁ hstep, hobs, hobs']

end Observation

end Machine
