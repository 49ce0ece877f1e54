import Mathlib.Data.List.Basic

/-! The past operator *since* over a list of events, oldest first. -/

namespace History

variable {ε : Type}

/-- Some event is a `start`, and each event after it is a `keep`. -/
def Since (start keep : ε → Prop) (h : List ε) : Prop :=
  ∃ before e after, h = before ++ e :: after ∧ start e ∧ ∀ e' ∈ after, keep e'

variable {start keep : ε → Prop}

theorem not_since_nil : ¬ Since start keep [] := by
  rintro ⟨before, e, after, h, -⟩
  simp at h

theorem since_concat {h : List ε} {e : ε} :
    Since start keep (h ++ [e]) ↔ start e ∨ (Since start keep h ∧ keep e) := by
  constructor
  · rintro ⟨before, e₀, after, heq, hstart, hkeep⟩
    rcases List.eq_nil_or_concat after with rfl | ⟨after, e', rfl⟩
    · obtain ⟨-, hlast⟩ := List.append_inj' heq rfl
      obtain rfl : e = e₀ := by simpa using hlast
      exact .inl hstart
    · rw [List.concat_eq_append, ← List.cons_append, ← List.append_assoc] at heq
      obtain ⟨rfl, hlast⟩ := List.append_inj' heq rfl
      obtain rfl : e = e' := by simpa using hlast
      exact .inr ⟨⟨before, e₀, after, rfl, hstart, fun e'' he => hkeep e'' (by simp [he])⟩,
        hkeep e (by simp)⟩
  · rintro (hstart | ⟨⟨before, e₀, after, rfl, hstart, hkeep⟩, hlast⟩)
    · exact ⟨h, e, [], rfl, hstart, nofun⟩
    · refine ⟨before, e₀, after ++ [e], by simp, hstart, fun e' he' => ?_⟩
      rcases List.mem_append.mp he' with he' | he'
      · exact hkeep e' he'
      · rw [List.mem_singleton.mp he']
        exact hlast

end History
