import WebServerl.Erlang.Listing
import WebServerl.Lib.Machine
import WebServerl.Store.Family

/-! When the comments of the table were saved.  The guestbook shows them in the order of their ids,
which is that of their saves as long as no comment gets an id below that of an older one. -/

namespace WebServerl.DbComment

open Erlang Erlang.Mnesia Machine

variable [Crypto] [Ets]

/-- The table after the requests. -/
def tableAfter (is : List (Request × DateTime)) : Table Comment :=
  (serve Store.dbComment.ask (KeyedTable.empty _) is).2

/-- An `add_comment` handled after the requests `before` has saved the comment, and no `remove` of
its id came later. -/
def SavedAfter (before is : List (Request × DateTime)) (c : Comment) : Prop :=
  ∃ name message now after, is = before ++ (.addComment name message, now) :: after ∧
    (answer (.addComment name message) now (tableAfter before)).1 = .ok ∧
    c = newRow (tableAfter before).size name message now ∧ ∀ i ∈ after, i.1 ≠ .remove c.id

/-- Of two comments in the table, the one that was saved earlier comes first. -/
def Chronological (is : List (Request × DateTime)) (comments : List Comment) : Prop :=
  ∀ c₁ c₂ before₁ before₂, SavedAfter before₁ is c₁ → SavedAfter before₂ is c₂ →
    before₁.length < before₂.length → [c₁, c₂].Sublist comments

/-- An `add_comment` that is accepted finds no id above the new one. -/
def NewestHighest (T : Table Comment) (i : Request × DateTime) : Prop :=
  ∀ name message, i.1 = .addComment name message → .int (T.size + 1) ∉ T.keys →
    ∀ m : Int, .int m ∈ T.keys → m ≤ T.size + 1

section Saves

variable {before is : List (Request × DateTime)} {i : Request × DateTime} {c : Comment}

theorem tableAfter_concat (is : List (Request × DateTime)) (i : Request × DateTime) :
    tableAfter (is ++ [i]) = (answer i.1 i.2 (tableAfter is)).2 := by
  rw [tableAfter, serve_concat]
  rfl

theorem savedAfter_concat : SavedAfter before (is ++ [i]) c ↔
    (before = is ∧ (∃ name message, i.1 = .addComment name message ∧
      c = newRow (tableAfter is).size name message i.2) ∧
      (answer i.1 i.2 (tableAfter is)).1 = .ok) ∨
    (SavedAfter before is c ∧ i.1 ≠ .remove c.id) := by
  constructor
  · rintro ⟨name, message, now, after, heq, hok, hc, hkeep⟩
    rcases List.eq_nil_or_concat after with rfl | ⟨after, i', rfl⟩
    · obtain ⟨rfl, hlast⟩ := List.append_inj' heq rfl
      obtain rfl : i = (.addComment name message, now) := by simpa using hlast
      exact .inl ⟨rfl, ⟨name, message, rfl, hc⟩, hok⟩
    · rw [List.concat_eq_append, ← List.cons_append, ← List.append_assoc] at heq
      obtain ⟨rfl, hlast⟩ := List.append_inj' heq rfl
      obtain rfl : i = i' := by simpa using hlast
      exact .inr ⟨⟨name, message, now, after, rfl, hok, hc, fun j hj => hkeep j (by simp [hj])⟩,
        hkeep i (by simp)⟩
  · rintro (⟨rfl, ⟨name, message, hi, hc⟩, hok⟩ | ⟨⟨name, message, now, after, rfl, hok, hc, hkeep⟩,
      hi⟩)
    · obtain ⟨r, now⟩ := i
      obtain rfl : r = _ := hi
      exact ⟨name, message, now, [], rfl, hok, hc, nofun⟩
    · refine ⟨name, message, now, after ++ [i], by simp, hok, hc, fun j hj => ?_⟩
      rcases List.mem_append.mp hj with hj | hj
      · exact hkeep j hj
      · rw [List.mem_singleton.mp hj]
        exact hi

/-- The table holds the comments that have been saved and not removed. -/
theorem mem_tableAfter : c ∈ tableAfter is ↔ ∃ before, SavedAfter before is c := by
  induction is using List.reverseRecOn generalizing c with
  | nil =>
    refine ⟨fun h => absurd h (KeyedTable.not_mem_empty c), ?_⟩
    rintro ⟨before, name, message, now, after, heq, -⟩
    simp at heq
  | append_singleton is i ih =>
    have hsplit : (∃ before, SavedAfter before (is ++ [i]) c) ↔
        ((∃ name message, i.1 = .addComment name message ∧
          c = newRow (tableAfter is).size name message i.2) ∧
          (answer i.1 i.2 (tableAfter is)).1 = .ok) ∨
        (c ∈ tableAfter is ∧ i.1 ≠ .remove c.id) := by
      simp only [savedAfter_concat, exists_or, exists_eq_left, exists_and_right, ← ih]
    rw [hsplit, tableAfter_concat]
    obtain ⟨r, now⟩ := i
    cases r with
    | addComment name message =>
      by_cases hk : .int ((tableAfter is).size + 1) ∈ (tableAfter is).keys
      · simp [answer_add_taken hk]
      · simp only [answer_add_new hk]
        rw [KeyedTable.mem_write_new hk]
        simp
    | remove key =>
      show c ∈ (tableAfter is).erase key ↔ _
      rw [KeyedTable.mem_erase]
      show c ∈ tableAfter is ∧ c.id ≠ key ↔ _
      simp [eq_comm]
    | dumpComments => simp [answer]

theorem SavedAfter.mem (h : SavedAfter before is c) : c ∈ tableAfter is :=
  mem_tableAfter.mpr ⟨before, h⟩

theorem SavedAfter.lt (h : SavedAfter before is c) : before.length < is.length := by
  obtain ⟨name, message, now, after, rfl, -⟩ := h
  simp

/-- A comment was there at all times since it was saved. -/
theorem SavedAfter.of_prefix {is' : List (Request × DateTime)} (h : SavedAfter before is c)
    (his' : is' <+: is) (hlt : before.length < is'.length) : SavedAfter before is' c := by
  obtain ⟨name, message, now, after, rfl, hok, hc, hkeep⟩ := h
  obtain ⟨rest, heq⟩ := his'
  rcases List.append_eq_append_iff.mp heq with ⟨more, rfl, -⟩ | ⟨after', rfl, hafter⟩
  · rw [List.length_append] at hlt
    omega
  · cases after' with
    | nil => simp at hlt
    | cons j after' =>
      obtain ⟨rfl, rfl⟩ := List.cons.inj hafter
      exact ⟨name, message, now, after', rfl, hok, hc, fun j hj => hkeep j (by simp [hj])⟩

theorem intKeys_tableAfter (is : List (Request × DateTime)) : IntKeys (tableAfter is) := by
  intro c hc
  obtain ⟨before, name, message, now, after, -, -, rfl, -⟩ := mem_tableAfter.mp hc
  exact ⟨_, rfl⟩

end Saves

/-- A new comment is shown below the older ones exactly if its id is the highest. -/
theorem chronological_iff (is : List (Request × DateTime)) :
    (∀ before, before <+: is → Chronological before (listing (tableAfter before))) ↔
      Always (advance Store.dbComment.ask) NewestHighest (KeyedTable.empty _) is := by
  have hrun (is : List (Request × DateTime)) :
      run (advance Store.dbComment.ask) (KeyedTable.empty _) is = some (tableAfter is) :=
    run_advance _ _ _
  rw [always_iff_forall_before]
  constructor
  · rintro h before ⟨r, now⟩ after T rfl hT name message hr hfree m hm
    obtain rfl : tableAfter before = T := Option.some.inj ((hrun before).symm.trans hT)
    obtain rfl : r = _ := hr
    obtain ⟨c, hc, hid⟩ := KeyedTable.mem_keys.mp hm
    obtain ⟨before₁, hsaved⟩ := mem_tableAfter.mp hc
    have hold : SavedAfter before₁ (before ++ [(.addComment name message, now)]) c :=
      savedAfter_concat.mpr (.inr ⟨hsaved, nofun⟩)
    have hnew : SavedAfter before (before ++ [(.addComment name message, now)])
        (newRow (tableAfter before).size name message now) := by
      refine savedAfter_concat.mpr (.inl ⟨rfl, ⟨name, message, rfl, rfl⟩, ?_⟩)
      exact congrArg Prod.fst (answer_add_new hfree)
    have hsub := h (before ++ [(.addComment name message, now)]) ⟨after, by simp⟩ _ _ _ _ hold hnew
      hsaved.lt
    obtain ⟨m', n, hm', hn, hlt⟩ :=
      (below_iff_sublist (intKeys_tableAfter _) hold.mem hnew.mem).mpr hsub
    rw [hid] at hm'
    cases hm'
    cases hn
    omega
  · intro h before hbefore c₁ c₂ before₁ before₂ h₁ h₂ hlt
    refine (below_iff_sublist (intKeys_tableAfter _) h₁.mem h₂.mem).mp ?_
    obtain ⟨name, message, now, after, rfl, hok, rfl, hkeep⟩ := h₂
    have hfree : .int ((tableAfter before₂).size + 1) ∉ (tableAfter before₂).keys := by
      intro hk
      rw [answer_add_taken hk] at hok
      cases hok
    have hthere : c₁ ∈ tableAfter before₂ := (h₁.of_prefix (List.prefix_append _ _) hlt).mem
    obtain ⟨m, hm⟩ := intKeys_tableAfter before₂ c₁ hthere
    have hmem : .int m ∈ (tableAfter before₂).keys := hm ▸ KeyedTable.key_mem_keys hthere
    obtain ⟨rest, rfl⟩ := hbefore
    have hle := h before₂ (.addComment name message, now) (after ++ rest) _ (by simp) (hrun before₂)
      name message rfl hfree m hmem
    have hne : m ≠ (tableAfter before₂).size + 1 := by
      rintro rfl
      exact hfree hmem
    exact ⟨m, _, hm, rfl, by omega⟩

end WebServerl.DbComment
