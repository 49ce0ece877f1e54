import WebServerl.Erlang.Mnesia

/-! A table of numbered rows as a list in the order of the numbers.  Whatever order a traversal of
the table finds the rows in, sorting them gives the same list; and a row that is erased is missing
from it, with the others where they were. -/

namespace Erlang.Mnesia

variable {ρ : Type} [Record ρ]

/-- The comparison of two rows by their keys. -/
abbrev keyLeq (r r' : ρ) : Bool := (Record.key r).leq (Record.key r')

/-- The key of the first row is a number below that of the second. -/
def Below (r r' : ρ) : Prop :=
  ∃ m n : Int, Record.key r = .int m ∧ Record.key r' = .int n ∧ m < n

/-- The keys are numbers. -/
def IntKeys (T : Table ρ) : Prop := ∀ r ∈ T, ∃ n : Int, Record.key r = .int n

theorem IntKeys.empty : IntKeys (KeyedTable.empty (Record.key : ρ → Term)) := fun r h =>
  absurd h (KeyedTable.not_mem_empty r)

/-- No row is found under a string. -/
theorem IntKeys.not_mem_keys {T : Table ρ} (h : IntKeys T) {t : Term} (ht : t.IsString) :
    t ∉ T.keys := by
  intro hmem
  obtain ⟨r, hr, hkey⟩ := KeyedTable.mem_keys.mp hmem
  obtain ⟨n, hn⟩ := h r hr
  apply ht.ne_int n
  rw [← hkey, hn]

/-- The rows of a table, sorted by their keys. -/
def listing [Ets] (T : Table ρ) : List ρ := Erlang.sort keyLeq (Ets.order T.rows)

theorem Below.leq {r r' : ρ} (h : Below r r') : keyLeq r r' = true ∧ keyLeq r' r = false := by
  obtain ⟨m, n, hm, hn, hlt⟩ := h
  rw [keyLeq, keyLeq, hm, hn, Term.leq_int, Term.leq_int]
  simp only [decide_eq_true_eq, decide_eq_false_iff_not]
  omega

theorem Below.asymm {r r' : ρ} (h : Below r r') : ¬ Below r' r := by
  intro h'
  have hleq := h'.leq.1
  rw [h.leq.2] at hleq
  cases hleq

/-- The number of a key. -/
def number (r : ρ) : Int :=
  match Record.key r with
  | .int n => n
  | _ => 0

theorem exists_ascending {T : Table ρ} (h : IntKeys T) :
    ∃ l, T.rows.Perm l ∧ l.Pairwise Below := by
  have hperm := List.perm_insertionSort (fun r r' : ρ => number r ≤ number r') T.rows
  have hsorted := List.pairwise_insertionSort (fun r r' : ρ => number r ≤ number r') T.rows
  have hne : (T.rows.insertionSort fun r r' => number r ≤ number r').Pairwise fun r r' =>
      Record.key r ≠ Record.key r' :=
    (hperm.pairwise_iff Ne.symm).mpr (List.pairwise_map.mp T.nodup)
  refine ⟨_, hperm.symm, (hsorted.and hne).imp_of_mem fun {r r'} hr hr' hrel => ?_⟩
  obtain ⟨m, hm⟩ := h r (hperm.mem_iff.mp hr)
  obtain ⟨n, hn⟩ := h r' (hperm.mem_iff.mp hr')
  have hle : m ≤ n := by simpa only [number, hm, hn] using hrel.1
  have hkeys : m ≠ n := fun heq => hrel.2 (by rw [hm, hn, heq])
  exact ⟨m, n, hm, hn, by omega⟩

variable [Ets]

/-- Every strictly ascending arrangement of the rows is the listing. -/
theorem listing_eq_of_perm {T : Table ρ} {l : List ρ} (h : T.rows.Perm l)
    (hasc : l.Pairwise Below) : listing T = l :=
  sort_eq_of_perm ((Ets.perm _).trans h) (hasc.imp Below.leq)

theorem listing_perm (T : Table ρ) : (listing T).Perm T.rows :=
  (List.perm_insertionSort _ _).trans (Ets.perm _)

theorem mem_listing {T : Table ρ} {r : ρ} : r ∈ listing T ↔ r ∈ T := (listing_perm T).mem_iff

/-- The listing of a table of numbered rows is strictly ascending. -/
theorem listing_ascending {T : Table ρ} (h : IntKeys T) : (listing T).Pairwise Below := by
  obtain ⟨l, hperm, hasc⟩ := exists_ascending h
  rw [listing_eq_of_perm hperm hasc]
  exact hasc

/-- Of two rows, the one with the lower number comes first. -/
theorem below_iff_sublist {T : Table ρ} (h : IntKeys T) {r r' : ρ} (hr : r ∈ T) (hr' : r' ∈ T) :
    Below r r' ↔ [r, r'].Sublist (listing T) := by
  have hasc := listing_ascending h
  constructor
  · intro hbelow
    obtain ⟨before, after, heq⟩ := List.append_of_mem (mem_listing.mpr hr)
    have hr'' : r' ∈ before ++ r :: after := heq ▸ mem_listing.mpr hr'
    rw [heq, List.pairwise_append] at hasc
    rcases List.mem_append.mp hr'' with hbefore | hafter
    · exact absurd hbelow (hasc.2.2 r' hbefore r List.mem_cons_self).asymm
    · rcases List.mem_cons.mp hafter with rfl | hafter
      · exact absurd hbelow hbelow.asymm
      · rw [heq]
        refine List.Sublist.trans ?_ (List.sublist_append_right _ _)
        exact (List.singleton_sublist.mpr hafter).cons_cons r
  · intro hsub
    exact List.rel_of_pairwise_cons (hasc.sublist hsub) List.mem_cons_self

/-- Erasing a row takes it out of the listing. -/
theorem listing_erase {T : Table ρ} (h : IntKeys T) (k : Term) :
    listing (T.erase k) = (listing T).filter fun r => Record.key r ≠ k :=
  listing_eq_of_perm ((listing_perm T).symm.filter _) ((listing_ascending h).filter _)

end Erlang.Mnesia
