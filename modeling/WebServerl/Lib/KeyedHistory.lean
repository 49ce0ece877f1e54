import WebServerl.Lib.History
import WebServerl.Lib.KeyedTable

/-! A keyed table as the outcome of a history.  Each event stores a value under a key that is free,
or removes a key, or does neither; a value is in force when it was stored and its key has not been
stored or removed since. -/

namespace History

variable {ε κ ν ρ : Type}

/-- What an event does to the values in force. -/
inductive Effect (κ ν : Type) where
  | store (k : κ) (v : ν)
  | remove (k : κ)
  | none

/-- The event leaves the key alone. -/
def Spares (effect : ε → Effect κ ν) (k : κ) (e : ε) : Prop :=
  (∀ v, effect e ≠ .store k v) ∧ effect e ≠ .remove k

/-- The value was stored under the key, and the key has been left alone since. -/
def InForce (effect : ε → Effect κ ν) (k : κ) (v : ν) : List ε → Prop :=
  Since (fun e => effect e = .store k v) (Spares effect k)

/-- The rows of the table are those of the values in force. -/
def Represents {key : ρ → κ} (effect : ε → Effect κ ν) (row : κ → ν → ρ) (h : List ε)
    (t : KeyedTable key) : Prop :=
  ∀ r, r ∈ t ↔ ∃ k v, InForce effect k v h ∧ r = row k v

section Lemmas

variable {key : ρ → κ} {effect : ε → Effect κ ν} {row : κ → ν → ρ} {h : List ε} {e : ε}
  {t : KeyedTable key}

theorem Represents.empty : Represents effect row [] (KeyedTable.empty key) := by
  intro r
  simp [InForce, not_since_nil]

theorem Represents.mem_keys (hkey : ∀ k v, key (row k v) = k) (hrep : Represents effect row h t)
    {k : κ} : k ∈ t.keys ↔ ∃ v, InForce effect k v h := by
  rw [KeyedTable.mem_keys]
  constructor
  · rintro ⟨r, hr, rfl⟩
    obtain ⟨k, v, hin, rfl⟩ := (hrep r).mp hr
    rw [hkey]
    exact ⟨v, hin⟩
  · rintro ⟨v, hin⟩
    exact ⟨row k v, (hrep _).mpr ⟨k, v, hin, rfl⟩, hkey k v⟩

/-- A value in force has just been stored, or was in force before. -/
theorem inForce_concat_cases {k : κ} {v : ν} (hin : InForce effect k v (h ++ [e])) :
    effect e = .store k v ∨ InForce effect k v h := by
  rw [InForce, since_concat] at hin
  exact hin.imp_right And.left

theorem inForce_concat_none (he : effect e = .none) {k : κ} {v : ν} :
    InForce effect k v (h ++ [e]) ↔ InForce effect k v h := by
  rw [InForce, since_concat, Spares, he]
  simp

theorem inForce_concat_remove {k' : κ} (he : effect e = .remove k') {k : κ} {v : ν} :
    InForce effect k v (h ++ [e]) ↔ InForce effect k v h ∧ k ≠ k' := by
  rw [InForce, since_concat, Spares, he]
  simp [eq_comm]

/-- A value stored under a free key is in force, and so is every value that was. -/
theorem inForce_concat_store {k' : κ} {v' : ν} (he : effect e = .store k' v')
    (hfree : ¬ ∃ v, InForce effect k' v h) {k : κ} {v : ν} :
    InForce effect k v (h ++ [e]) ↔ (k = k' ∧ v = v') ∨ InForce effect k v h := by
  rw [InForce, since_concat, Spares, he]
  constructor
  · rintro (hstore | ⟨hin, -⟩)
    · cases hstore
      exact .inl ⟨rfl, rfl⟩
    · exact .inr hin
  · rintro (⟨rfl, rfl⟩ | hin)
    · exact .inl rfl
    · refine .inr ⟨hin, fun w hw => ?_, nofun⟩
      cases hw
      exact hfree ⟨v, hin⟩

theorem Represents.concat_none (hrep : Represents effect row h t) (he : effect e = .none) :
    Represents effect row (h ++ [e]) t := by
  intro r
  simp only [inForce_concat_none he]
  exact hrep r

variable [DecidableEq κ]

theorem Represents.concat_remove (hkey : ∀ k v, key (row k v) = k)
    (hrep : Represents effect row h t) {k : κ} (he : effect e = .remove k) :
    Represents effect row (h ++ [e]) (t.erase k) := by
  intro r
  simp only [inForce_concat_remove he, KeyedTable.mem_erase, hrep r]
  constructor
  · rintro ⟨⟨k', v, hin, rfl⟩, hne⟩
    rw [hkey] at hne
    exact ⟨k', v, ⟨hin, hne⟩, rfl⟩
  · rintro ⟨k', v, ⟨hin, hne⟩, rfl⟩
    rw [hkey]
    exact ⟨⟨k', v, hin, rfl⟩, hne⟩

theorem Represents.concat_store (hkey : ∀ k v, key (row k v) = k)
    (hrep : Represents effect row h t) {k : κ} {v : ν} (he : effect e = .store k v)
    (hfree : k ∉ t.keys) : Represents effect row (h ++ [e]) (t.write (row k v)) := by
  have hnone : ¬ ∃ v, InForce effect k v h := fun hin => hfree ((hrep.mem_keys hkey).mpr hin)
  intro r
  rw [KeyedTable.mem_write_new (by rwa [hkey]), hrep r]
  simp only [inForce_concat_store he hnone]
  constructor
  · rintro (rfl | ⟨k', v', hin, rfl⟩)
    · exact ⟨k, v, .inl ⟨rfl, rfl⟩, rfl⟩
    · exact ⟨k', v', .inr hin, rfl⟩
  · rintro ⟨k', v', ⟨rfl, rfl⟩ | hin, rfl⟩
    · exact .inl rfl
    · exact .inr ⟨k', v', hin, rfl⟩

end Lemmas

end History
