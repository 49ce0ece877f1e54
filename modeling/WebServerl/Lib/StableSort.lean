import Mathlib.Data.List.Sort

/-! Stable sorting with a comparison that may tie elements.  An arrangement is stable when tied
elements keep their order, and a list has at most one arrangement that is stable and ascending.
What is said of the order of elements is said for total comparisons only, so that the same facts
also cover a comparison of any kind. -/

namespace StableSort

variable {α : Type} {le : α → α → Bool}

/-- Any two elements can be compared, in a way that is transitive. -/
structure Total (le : α → α → Bool) : Prop where
  total : ∀ a b, le a b = true ∨ le b a = true
  trans : ∀ {a b c}, le a b = true → le b c = true → le a c = true

theorem Total.flip (h : Total le) : Total (flip le) where
  total a b := h.total b a
  trans hab hbc := h.trans hbc hab

/-- Where the comparison fails, it holds the other way around. -/
theorem Total.of_not (h : Total le) {a b : α} (hab : ¬ le a b = true) : le b a = true :=
  (h.total a b).resolve_left hab

def tied (le : α → α → Bool) (a b : α) : Bool := le a b && le b a

theorem tied_iff {a b : α} : tied le a b = true ↔ le a b = true ∧ le b a = true :=
  Bool.and_eq_true_iff

theorem tied_flip (a : α) : tied (flip le) a = tied le a :=
  funext fun b => Bool.and_comm (le b a) (le a b)

/-- The second list holds the elements of the first, and tied ones in the same order. -/
structure Rearranges (le : α → α → Bool) (l l' : List α) : Prop where
  perm : l.Perm l'
  stable : Total le → ∀ a, l.filter (tied le a) = l'.filter (tied le a)

def Ascends (le : α → α → Bool) (l : List α) : Prop :=
  Total le → l.Pairwise fun a b => le a b = true

namespace Rearranges

variable {l l' l'' : List α}

theorem refl (l : List α) : Rearranges le l l := ⟨.refl l, fun _ _ => rfl⟩

theorem of_eq (h : l = l') : Rearranges le l l' := h ▸ refl l

theorem trans (h : Rearranges le l l') (h' : Rearranges le l' l'') : Rearranges le l l'' where
  perm := h.perm.trans h'.perm
  stable hle a := (h.stable hle a).trans (h'.stable hle a)

theorem append {k k' : List α} (h : Rearranges le l l') (h' : Rearranges le k k') :
    Rearranges le (l ++ k) (l' ++ k') where
  perm := h.perm.append h'.perm
  stable hle a := by rw [List.filter_append, List.filter_append, h.stable hle, h'.stable hle]

/-- A rearrangement of a part. -/
theorem within (h : Rearranges le l l') (before after : List α) :
    Rearranges le (before ++ l ++ after) (before ++ l' ++ after) :=
  ((refl before).append h).append (refl after)

/-- Two elements that are not tied may change places. -/
theorem swap {a b : α} (h : Total le → tied le a b = false) :
    Rearranges le [a, b] [b, a] where
  perm := .swap b a []
  stable hle c := by
    have hc : ¬ (tied le c a = true ∧ tied le c b = true) := by
      rintro ⟨hca, hcb⟩
      rw [tied_iff] at hca hcb
      have hab := h hle
      rw [tied, hle.trans hca.2 hcb.1, hle.trans hcb.2 hca.1] at hab
      cases hab
    cases hca : tied le c a <;> cases hcb : tied le c b <;> simp_all

/-- An element may move ahead of elements that it is not tied with. -/
theorem move {b : α} (h : Total le → ∀ a ∈ l, tied le a b = false) :
    Rearranges le (l ++ [b]) (b :: l) := by
  induction l with
  | nil => exact refl [b]
  | cons a l ih =>
    have hrest : Rearranges le (a :: (l ++ [b])) (a :: b :: l) :=
      (refl [a]).append (ih fun hle c hc => h hle c (List.mem_cons_of_mem a hc))
    exact hrest.trans ((swap fun hle => h hle a List.mem_cons_self).append (refl l))

theorem reverse (h : Rearranges (flip le) l l') : Rearranges le l.reverse l'.reverse where
  perm := (List.reverse_perm l).trans (h.perm.trans (List.reverse_perm l').symm)
  stable hle a := by
    have hstable := h.stable hle.flip a
    rw [tied_flip] at hstable
    rw [List.filter_reverse, List.filter_reverse, hstable]

end Rearranges

theorem Ascends.nil : Ascends le [] := fun _ => .nil

theorem Ascends.singleton (a : α) : Ascends le [a] := fun _ => List.pairwise_singleton _ a

theorem Ascends.reverse {l : List α} (h : Ascends (flip le) l) : Ascends le l.reverse :=
  fun hle => List.pairwise_reverse.mpr (h hle.flip)

/-! ### Merging -/

theorem Ascends.merge {l l' : List α} (h : Ascends le l) (h' : Ascends le l') :
    Ascends le (l.merge l' le) := by
  intro hle
  have htotal : ∀ a b, (le a b || le b a) = true := fun a b =>
    Bool.or_eq_true_iff.mpr (hle.total a b)
  exact @List.pairwise_merge α le (fun _ _ _ => hle.trans) htotal l l' (h hle) (h' hle)

/-- What is below the head of an ascending list is below all of it. -/
theorem not_le_of_mem (hle : Total le) {a b : α} {l : List α}
    (hl : (a :: l).Pairwise fun a b => le a b = true) (hab : ¬ le a b = true) {c : α}
    (hc : c ∈ a :: l) : ¬ le c b = true := by
  intro hcb
  rcases List.mem_cons.mp hc with rfl | hc
  · exact hab hcb
  · exact hab (hle.trans (List.rel_of_pairwise_cons hl hc) hcb)

/-- Merging keeps the tied elements in order, those of the first list before those of the second. -/
theorem filter_merge (hle : Total le) (c : α) {l l' : List α}
    (hl : l.Pairwise fun a b => le a b = true) (hl' : l'.Pairwise fun a b => le a b = true) :
    (l.merge l' le).filter (tied le c) = l.filter (tied le c) ++ l'.filter (tied le c) := by
  induction l generalizing l' with
  | nil => rw [List.nil_merge, List.filter_nil, List.nil_append]
  | cons a l ih =>
    induction l' with
    | nil => rw [List.merge_right, List.filter_nil, List.append_nil]
    | cons b l' ih' =>
      rw [List.cons_merge_cons]
      split
      · rw [List.filter_cons, ih hl.tail hl', List.filter_cons (x := a)]
        split <;> rfl
      · rename_i hab
        rw [List.filter_cons, ih' hl'.tail, List.filter_cons (x := b)]
        split
        · rename_i hcb
          -- the head of the second list is tied with `c`, so that none of the first is
          have hnone : (a :: l).filter (tied le c) = [] := by
            refine List.filter_eq_nil_iff.mpr fun d hd hcd => ?_
            rw [tied_iff] at hcb hcd
            exact not_le_of_mem hle hl hab hd (hle.trans hcd.2 hcb.1)
          rw [hnone, List.nil_append, List.nil_append]
        · rfl

theorem Rearranges.merge {l l' : List α} (h : Ascends le l) (h' : Ascends le l') :
    Rearranges le (l ++ l') (l.merge l' le) where
  perm := (List.merge_perm_append le).symm
  stable hle a := by rw [filter_merge hle a (h hle) (h' hle), List.filter_append]

/-! ### The stable sort -/

/-- A list has one stable ascending arrangement. -/
theorem Rearranges.eq_of_ascends (hle : Total le) {l l' : List α} (h : Rearranges le l l')
    (hl : Ascends le l) (hl' : Ascends le l') : l = l' := by
  have hrefl : ∀ a, tied le a a = true := fun a =>
    tied_iff.mpr ⟨(hle.total a a).elim id id, (hle.total a a).elim id id⟩
  have hstable := h.stable hle
  replace hl := hl hle
  replace hl' := hl' hle
  replace h := h.perm
  induction l generalizing l' with
  | nil => exact h.nil_eq
  | cons a l ih =>
    cases l' with
    | nil => exact absurd h.symm.nil_eq (List.cons_ne_nil a l).symm
    | cons b l' =>
      have hle_of_mem : ∀ {c d : α} {k : List α},
          (c :: k).Pairwise (fun a b => le a b = true) → d ∈ c :: k → le c d = true := by
        intro c d k hk hd
        rcases List.mem_cons.mp hd with rfl | hd
        · exact (tied_iff.mp (hrefl d)).1
        · exact List.rel_of_pairwise_cons hk hd
      have hab : tied le a b = true := by
        refine tied_iff.mpr ⟨hle_of_mem hl ?_, hle_of_mem hl' ?_⟩
        · exact h.mem_iff.mpr List.mem_cons_self
        · exact h.mem_iff.mp List.mem_cons_self
      have heads := hstable a
      rw [List.filter_cons_of_pos (hrefl a), List.filter_cons_of_pos hab, List.cons.injEq] at heads
      obtain ⟨rfl, -⟩ := heads
      refine congrArg (a :: ·) (ih (fun c => ?_) hl.tail hl'.tail h.cons_inv)
      have hc := hstable c
      rw [List.filter_cons, List.filter_cons] at hc
      split at hc
      · exact List.cons.inj hc |>.2
      · exact hc

theorem filter_orderedInsert (hle : Total le) (a c : α) {l : List α}
    (hl : l.Pairwise fun a b => le a b = true) :
    (l.orderedInsert (fun a b => le a b = true) a).filter (tied le c) =
      (a :: l).filter (tied le c) := by
  induction l with
  | nil => rfl
  | cons b l ih =>
    rw [List.orderedInsert_cons]
    split
    · rfl
    · rename_i hab
      have hswap : Rearranges le [b, a] [a, b] := .swap fun _ => by
        rw [tied, Bool.and_eq_false_iff]
        exact .inr (Bool.eq_false_iff.mpr hab)
      rw [List.filter_cons, ih hl.tail, ← List.filter_cons]
      exact (hswap.append (.refl l)).stable hle c

theorem ascends_insertionSort (l : List α) :
    Ascends le (l.insertionSort fun a b => le a b = true) := by
  intro hle
  have : Std.Total fun a b : α => le a b = true := ⟨hle.total⟩
  have : IsTrans α fun a b : α => le a b = true := ⟨fun _ _ _ => hle.trans⟩
  exact List.pairwise_insertionSort _ l

/-- The sort by insertion is stable. -/
theorem rearranges_insertionSort (l : List α) :
    Rearranges le l (l.insertionSort fun a b => le a b = true) where
  perm := (List.perm_insertionSort _ l).symm
  stable hle c := by
    induction l with
    | nil => rfl
    | cons a l ih =>
      rw [List.insertionSort_cons, filter_orderedInsert hle a c (ascends_insertionSort l hle),
        List.filter_cons, List.filter_cons, ih]

theorem eq_insertionSort (hle : Total le) {l l' : List α} (h : Rearranges le l l')
    (hl' : Ascends le l') : l' = l.insertionSort fun a b => le a b = true := by
  have hsort : Rearranges le l' (l.insertionSort fun a b => le a b = true) :=
    ⟨h.perm.symm.trans (rearranges_insertionSort l).perm, fun _ c =>
      (h.stable hle c).symm.trans ((rearranges_insertionSort l).stable hle c)⟩
  exact hsort.eq_of_ascends hle hl' (ascends_insertionSort l)

end StableSort
