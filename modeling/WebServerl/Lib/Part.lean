import WebServerl.Lib.Program

/-! Programs that work on a part of a shared state which nobody else changes, but which may be lost
between any two of their operations.  `Early` says that what a program has done so far may still be
taken for nothing, so that the whole of it is yet to happen; `Late`, that the whole of it has
happened, and the operations that are left do nothing.  A program that goes from the one to the
other in every case can be taken for atomic. -/

namespace Program

variable {Op : Type} {Res : Op → Type} {α τ : Type}

section Definitions

variable (exec : (o : Op) → τ → Res o × τ) (lost : τ)

/-- The program comes to the result `r` on the part as it is, without changing it, and also when
the part is lost first. -/
def Late (r : Option α) : Program Op Res α → τ → Prop
  | .done a, _ => r = some a
  | .crash, _ => r = none
  | .perform o next, x => (exec o x).2 = x ∧ Late r (next (exec o x).1) x ∧
      (Program.perform o next).eval exec lost = (r, lost)

/-- The program does on the part as it is what `whole` does there.  Each of its operations changes
nothing, or it changes what `whole` changes and the rest is `Late`.  When the part is lost, the
program does what `whole` does after that, or has the result that `whole` has before. -/
def Early (whole : Program Op Res α) : Program Op Res α → τ → Prop
  | .done a, x => whole.eval exec x = (some a, x)
  | .crash, x => whole.eval exec x = (none, x)
  | .perform o next, x =>
    ((exec o x).2 = x ∧ Early whole (next (exec o x).1) x ∨
      (whole.eval exec x).2 = (exec o x).2 ∧
        Late exec lost (whole.eval exec x).1 (next (exec o x).1) (exec o x).2) ∧
    ((Program.perform o next).eval exec lost = whole.eval exec lost ∨
      (Program.perform o next).eval exec lost = ((whole.eval exec x).1, lost))

end Definitions

variable {exec : (o : Op) → τ → Res o × τ} {lost : τ}

theorem Late.eval_lost {r : Option α} {g : Program Op Res α} {x : τ}
    (h : g.Late exec lost r x) : g.eval exec lost = (r, lost) := by
  cases g with
  | done a => rw [eval_done, show r = some a from h]
  | crash => rw [eval_crash, show r = none from h]
  | perform o next => exact h.2.2

theorem Early.congr {whole whole' g : Program Op Res α} {x : τ} (h : Early exec lost whole g x)
    (hx : whole'.eval exec x = whole.eval exec x)
    (hlost : whole'.eval exec lost = whole.eval exec lost) : Early exec lost whole' g x := by
  induction g with
  | done a => exact hx.trans h
  | crash => exact hx.trans h
  | perform o next ih =>
    obtain ⟨hstep, hwipe⟩ := h
    rw [Early, hx, hlost]
    exact ⟨hstep.imp (fun h => ⟨h.1, ih _ h.2⟩) id, hwipe⟩

section Lost

variable (hexec : ∀ o, (exec o lost).2 = lost)
include hexec

theorem late_lost {r : Option α} {g : Program Op Res α} (h : g.eval exec lost = (r, lost)) :
    g.Late exec lost r lost := by
  induction g with
  | done a => exact (congrArg Prod.fst h).symm
  | crash => exact (congrArg Prod.fst h).symm
  | perform o next ih =>
    refine ⟨hexec o, ih _ ?_, h⟩
    rwa [eval_perform, hexec o] at h

theorem early_lost {whole g : Program Op Res α}
    (h : g.eval exec lost = whole.eval exec lost) : Early exec lost whole g lost := by
  induction g with
  | done a => exact h.symm
  | crash => exact h.symm
  | perform o next ih =>
    refine ⟨.inl ⟨hexec o, ih _ ?_⟩, .inl h⟩
    rwa [eval_perform, hexec o] at h

theorem Late.lose {r : Option α} {g : Program Op Res α} {x : τ} (h : g.Late exec lost r x) :
    g.Late exec lost r lost := late_lost hexec h.eval_lost

/-- When the part is lost, the whole is still to happen, or it has happened just before. -/
theorem Early.lose {whole g : Program Op Res α} {x : τ} (h : Early exec lost whole g x) :
    Early exec lost whole g lost ∨ g.Late exec lost (whole.eval exec x).1 lost := by
  cases g with
  | done a =>
    have hwhole : whole.eval exec x = (some a, x) := h
    exact .inr (congrArg Prod.fst hwhole)
  | crash =>
    have hwhole : whole.eval exec x = (none, x) := h
    exact .inr (congrArg Prod.fst hwhole)
  | perform o next => exact h.2.imp (early_lost hexec) (late_lost hexec)

end Lost

/-- A program of one operation is atomic. -/
theorem early_once {o : Op} {next : Res o → Program Op Res α}
    (h : ∀ r, (∃ a, next r = .done a) ∨ next r = .crash) (x : τ) :
    Early exec lost (.perform o next) (Program.perform o next) x := by
  refine ⟨.inr ?_, .inl rfl⟩
  rw [eval_perform]
  rcases h (exec o x).1 with ⟨a, ha⟩ | hcrash
  · rw [ha]
    exact ⟨rfl, rfl⟩
  · rw [hcrash]
    exact ⟨rfl, rfl⟩

/-- A program that looks at the part first, and is a program then that is atomic, and that comes to
the same when the part is lost before or after the look. -/
theorem early_look {o : Op} {next : Res o → Program Op Res α} {x : τ} (hlook : (exec o x).2 = x)
    (hnext : Early exec lost (next (exec o x).1) (next (exec o x).1) x)
    (hlost : (Program.perform o next).eval exec lost = (next (exec o x).1).eval exec lost) :
    Early exec lost (.perform o next) (Program.perform o next) x := by
  refine ⟨.inl ⟨hlook, hnext.congr ?_ hlost⟩, .inl rfl⟩
  rw [eval_perform, hlook]

end Program
