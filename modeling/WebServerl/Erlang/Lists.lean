import WebServerl.Erlang.Term
import WebServerl.Lib.StableSort

/-! `lists:sort/2` as the site's release has it: a merge sort that first splits the list into runs,
ascending or descending ones, and then merges neighbouring runs in passes that turn them around.
A `none` is a call that no clause matches, or that has not returned within the fuel. -/

namespace Erlang.Lists

open StableSort

variable {α : Type}

/-- The atoms `asc` and `desc`. -/
inductive Order where
  | asc
  | desc

section Definitions

variable (fn : α → α → Bool)

mutual

def fmerge2_1 : List α → α → List α → List α → List α
  | h₁ :: t₁, h₂, t₂, m =>
    if fn h₁ h₂ then fmerge2_1 t₁ h₂ t₂ (h₁ :: m) else fmerge2_2 h₁ t₁ t₂ (h₂ :: m)
  | [], h₂, t₂, m => t₂.reverse ++ h₂ :: m
termination_by t₁ _ t₂ => t₁.length + t₂.length

def fmerge2_2 : α → List α → List α → List α → List α
  | h₁, t₁, h₂ :: t₂, m =>
    if fn h₁ h₂ then fmerge2_1 t₁ h₂ t₂ (h₁ :: m) else fmerge2_2 h₁ t₁ t₂ (h₂ :: m)
  | h₁, t₁, [], m => t₁.reverse ++ h₁ :: m
termination_by _ t₁ t₂ => t₁.length + t₂.length

end

mutual

def rfmerge2_1 : List α → α → List α → List α → List α
  | h₁ :: t₁, h₂, t₂, m =>
    if fn h₁ h₂ then rfmerge2_2 h₁ t₁ t₂ (h₂ :: m) else rfmerge2_1 t₁ h₂ t₂ (h₁ :: m)
  | [], h₂, t₂, m => t₂.reverse ++ h₂ :: m
termination_by t₁ _ t₂ => t₁.length + t₂.length

def rfmerge2_2 : α → List α → List α → List α → List α
  | h₁, t₁, h₂ :: t₂, m =>
    if fn h₁ h₂ then rfmerge2_2 h₁ t₁ t₂ (h₂ :: m) else rfmerge2_1 t₁ h₂ t₂ (h₁ :: m)
  | h₁, t₁, [], m => t₁.reverse ++ h₁ :: m
termination_by _ t₁ t₂ => t₁.length + t₂.length

end

mutual

def fmergel : Nat → List (List α) → List (List α) → Order → Option (List α)
  | 0, _, _, _ => none
  | fuel + 1, t₁ :: (h₂ :: t₂) :: l, acc, .asc =>
    fmergel fuel l (fmerge2_1 fn t₁ h₂ t₂ [] :: acc) .asc
  | fuel + 1, (h₂ :: t₂) :: t₁ :: l, acc, .desc =>
    fmergel fuel l (fmerge2_1 fn t₁ h₂ t₂ [] :: acc) .desc
  | _ + 1, [l], [], _ => some l
  | fuel + 1, [l], acc, o => rfmergel fuel (l.reverse :: acc) [] o
  | fuel + 1, [], acc, o => rfmergel fuel acc [] o
  | _ + 1, _, _, _ => none

def rfmergel : Nat → List (List α) → List (List α) → Order → Option (List α)
  | 0, _, _, _ => none
  | fuel + 1, (h₂ :: t₂) :: t₁ :: l, acc, .asc =>
    rfmergel fuel l (rfmerge2_1 fn t₁ h₂ t₂ [] :: acc) .asc
  | fuel + 1, t₁ :: (h₂ :: t₂) :: l, acc, .desc =>
    rfmergel fuel l (rfmerge2_1 fn t₁ h₂ t₂ [] :: acc) .desc
  | fuel + 1, [l], acc, o => fmergel fuel (l.reverse :: acc) [] o
  | fuel + 1, [], acc, o => fmergel fuel acc [] o
  | _ + 1, _, _, _ => none

end

mutual

def fsplit_1 (fuel : Nat) (y x : α) : List α → List α → List (List α) → Option (List α)
  | z :: l, r, rs =>
    if fn y z then fsplit_1 fuel z y l (x :: r) rs
    else if fn x z then fsplit_1 fuel y z l (x :: r) rs
    else if r.isEmpty then fsplit_1 fuel y x l [z] rs
    else fsplit_1_1 fuel y x l r rs z
  | [], r, rs => rfmergel fn fuel ((y :: x :: r) :: rs) [] .asc

def fsplit_1_1 (fuel : Nat) (y x : α) :
    List α → List α → List (List α) → α → Option (List α)
  | z :: l, r, rs, s =>
    if fn y z then fsplit_1_1 fuel z y l (x :: r) rs s
    else if fn x z then fsplit_1_1 fuel y z l (x :: r) rs s
    else if fn s z then fsplit_1 fuel z s l [] ((y :: x :: r) :: rs)
    else fsplit_1 fuel s z l [] ((y :: x :: r) :: rs)
  | [], r, rs, s => rfmergel fn fuel ([s] :: (y :: x :: r) :: rs) [] .asc

end

mutual

def fsplit_2 (fuel : Nat) (y x : α) : List α → List α → List (List α) → Option (List α)
  | z :: l, r, rs =>
    if fn y z then
      if fn x z then
        if r.isEmpty then fsplit_2 fuel y x l [z] rs
        else fsplit_2_1 fuel y x l r rs z
      else fsplit_2 fuel y z l (x :: r) rs
    else fsplit_2 fuel z y l (x :: r) rs
  | [], r, rs => fmergel fn fuel ((y :: x :: r) :: rs) [] .desc

def fsplit_2_1 (fuel : Nat) (y x : α) :
    List α → List α → List (List α) → α → Option (List α)
  | z :: l, r, rs, s =>
    if fn y z then
      if fn x z then
        if fn s z then fsplit_2 fuel s z l [] ((y :: x :: r) :: rs)
        else fsplit_2 fuel z s l [] ((y :: x :: r) :: rs)
      else fsplit_2_1 fuel y z l (x :: r) rs s
    else fsplit_2_1 fuel z y l (x :: r) rs s
  | [], r, rs, s => fmergel fn fuel ([s] :: (y :: x :: r) :: rs) [] .desc

end

/-- `lists:sort(Fun, L)`. -/
def sort : List α → Option (List α)
  | [] => some []
  | [x] => some [x]
  | x :: y :: t =>
    let fuel := 3 * (t.length + 2) + 1
    if fn x y then fsplit_1 fn fuel y x t [] [] else fsplit_2 fn fuel y x t [] []

end Definitions

variable {fn : α → α → Bool}

/-! ### Merging two runs -/

mutual

theorem fmerge2_1_eq (t₁ : List α) (h₂ : α) (t₂ m : List α) :
    fmerge2_1 fn t₁ h₂ t₂ m = (t₁.merge (h₂ :: t₂) fn).reverse ++ m := by
  cases t₁ with
  | nil => simp [fmerge2_1]
  | cons h₁ t₁ =>
    rw [fmerge2_1, List.cons_merge_cons]
    split
    · rw [fmerge2_1_eq t₁ h₂ t₂]
      simp
    · rw [fmerge2_2_eq h₁ t₁ t₂]
      simp
termination_by t₁.length + t₂.length

theorem fmerge2_2_eq (h₁ : α) (t₁ t₂ m : List α) :
    fmerge2_2 fn h₁ t₁ t₂ m = ((h₁ :: t₁).merge t₂ fn).reverse ++ m := by
  cases t₂ with
  | nil => simp [fmerge2_2]
  | cons h₂ t₂ =>
    rw [fmerge2_2, List.cons_merge_cons]
    split
    · rw [fmerge2_1_eq t₁ h₂ t₂]
      simp
    · rw [fmerge2_2_eq h₁ t₁ t₂]
      simp
termination_by t₁.length + t₂.length

end

mutual

theorem rfmerge2_1_eq (t₁ : List α) (h₂ : α) (t₂ m : List α) :
    rfmerge2_1 fn t₁ h₂ t₂ m = ((h₂ :: t₂).merge t₁ (flip fn)).reverse ++ m := by
  cases t₁ with
  | nil => simp [rfmerge2_1]
  | cons h₁ t₁ =>
    rw [rfmerge2_1, List.cons_merge_cons, flip]
    split
    · rw [rfmerge2_2_eq h₁ t₁ t₂]
      simp
    · rw [rfmerge2_1_eq t₁ h₂ t₂]
      simp
termination_by t₁.length + t₂.length

theorem rfmerge2_2_eq (h₁ : α) (t₁ t₂ m : List α) :
    rfmerge2_2 fn h₁ t₁ t₂ m = (t₂.merge (h₁ :: t₁) (flip fn)).reverse ++ m := by
  cases t₂ with
  | nil => simp [rfmerge2_2]
  | cons h₂ t₂ =>
    rw [rfmerge2_2, List.cons_merge_cons, flip]
    split
    · rw [rfmerge2_2_eq h₁ t₁ t₂]
      simp
    · rw [rfmerge2_1_eq t₁ h₂ t₂]
      simp
termination_by t₁.length + t₂.length

end

/-! ### Passes over the runs

In a pass, `up` are the ascending runs and `down` the descending ones: one of the two is what the
pass has still to merge, and the other what it has merged.  `whole` is the list that they stand
for. -/

def whole : Order → List (List α) → List (List α) → List α
  | .asc, up, down => down.flatten.reverse ++ up.flatten
  | .desc, up, down => up.reverse.flatten ++ (down.map List.reverse).flatten

/-- The runs of a pass, none of which is empty, stand for a rearrangement of `l`. -/
structure Runs (fn : α → α → Bool) (l : List α) (o : Order) (up down : List (List α)) : Prop where
  ascending : ∀ r ∈ up, Ascends fn r ∧ r ≠ []
  descending : ∀ r ∈ down, Ascends (flip fn) r ∧ r ≠ []
  stands : Rearranges fn l (whole o up down)

/-- The list was sorted. -/
def Sorts (fn : α → α → Bool) (l : List α) (r : Option (List α)) : Prop :=
  ∃ l', r = some l' ∧ Rearranges fn l l' ∧ Ascends fn l'

variable {l : List α} {o : Order} {up down : List (List α)} {t₁ t₂ : List α} {h₂ : α}

theorem fmerge2_1_merges (h₁ : Ascends fn t₁) (h : Ascends fn (h₂ :: t₂)) :
    Ascends (flip fn) (fmerge2_1 fn t₁ h₂ t₂ []) ∧ fmerge2_1 fn t₁ h₂ t₂ [] ≠ [] ∧
      Rearranges fn (t₁ ++ h₂ :: t₂) (fmerge2_1 fn t₁ h₂ t₂ []).reverse := by
  rw [fmerge2_1_eq, List.append_nil, List.reverse_reverse]
  refine ⟨Ascends.reverse (h₁.merge h), ?_, .merge h₁ h⟩
  intro hnil
  have hlength := congrArg List.length hnil
  simp at hlength

theorem rfmerge2_1_merges (h₁ : Ascends (flip fn) t₁) (h : Ascends (flip fn) (h₂ :: t₂)) :
    Ascends fn (rfmerge2_1 fn t₁ h₂ t₂ []) ∧ rfmerge2_1 fn t₁ h₂ t₂ [] ≠ [] ∧
      Rearranges fn (t₁.reverse ++ (h₂ :: t₂).reverse) (rfmerge2_1 fn t₁ h₂ t₂ []) := by
  rw [rfmerge2_1_eq, List.append_nil, ← List.reverse_append]
  refine ⟨(h.merge h₁).reverse, ?_, (Rearranges.merge h h₁).reverse⟩
  intro hnil
  have hlength := congrArg List.length hnil
  simp at hlength

namespace Runs

theorem merge_asc (h : Runs fn l .asc (t₁ :: (h₂ :: t₂) :: up) down) :
    Runs fn l .asc up (fmerge2_1 fn t₁ h₂ t₂ [] :: down) := by
  obtain ⟨hm, hne, hwhole⟩ := fmerge2_1_merges (h.ascending t₁ (by simp)).1
    (h.ascending (h₂ :: t₂) (by simp)).1
  refine ⟨fun r hr => h.ascending r (by simp [hr]), ?_, h.stands.trans ?_⟩
  · exact List.forall_mem_cons.mpr ⟨⟨hm, hne⟩, h.descending⟩
  · simpa [whole] using hwhole.within down.flatten.reverse up.flatten

theorem merge_desc (h : Runs fn l .desc ((h₂ :: t₂) :: t₁ :: up) down) :
    Runs fn l .desc up (fmerge2_1 fn t₁ h₂ t₂ [] :: down) := by
  obtain ⟨hm, hne, hwhole⟩ := fmerge2_1_merges (h.ascending t₁ (by simp)).1
    (h.ascending (h₂ :: t₂) (by simp)).1
  refine ⟨fun r hr => h.ascending r (by simp [hr]), ?_, h.stands.trans ?_⟩
  · exact List.forall_mem_cons.mpr ⟨⟨hm, hne⟩, h.descending⟩
  · simpa [whole] using hwhole.within up.reverse.flatten (down.map List.reverse).flatten

theorem rmerge_asc (h : Runs fn l .asc up ((h₂ :: t₂) :: t₁ :: down)) :
    Runs fn l .asc (rfmerge2_1 fn t₁ h₂ t₂ [] :: up) down := by
  obtain ⟨hm, hne, hwhole⟩ := rfmerge2_1_merges (h.descending t₁ (by simp)).1
    (h.descending (h₂ :: t₂) (by simp)).1
  refine ⟨?_, fun r hr => h.descending r (by simp [hr]), h.stands.trans ?_⟩
  · exact List.forall_mem_cons.mpr ⟨⟨hm, hne⟩, h.ascending⟩
  · simpa [whole] using hwhole.within down.flatten.reverse up.flatten

theorem rmerge_desc (h : Runs fn l .desc up (t₁ :: (h₂ :: t₂) :: down)) :
    Runs fn l .desc (rfmerge2_1 fn t₁ h₂ t₂ [] :: up) down := by
  obtain ⟨hm, hne, hwhole⟩ := rfmerge2_1_merges (h.descending t₁ (by simp)).1
    (h.descending (h₂ :: t₂) (by simp)).1
  refine ⟨?_, fun r hr => h.descending r (by simp [hr]), h.stands.trans ?_⟩
  · exact List.forall_mem_cons.mpr ⟨⟨hm, hne⟩, h.ascending⟩
  · simpa [whole] using hwhole.within up.reverse.flatten (down.map List.reverse).flatten

/-- The last run of a pass changes sides as it is. -/
theorem turn (h : Runs fn l o [t₁] down) : Runs fn l o [] (t₁.reverse :: down) := by
  obtain ⟨hasc, hne⟩ := h.ascending t₁ (by simp)
  refine ⟨nofun, ?_, h.stands.trans (.of_eq ?_)⟩
  · refine List.forall_mem_cons.mpr ⟨⟨Ascends.reverse hasc, ?_⟩, h.descending⟩
    simpa using hne
  · cases o <;> simp [whole]

theorem rturn (h : Runs fn l o up [t₁]) : Runs fn l o (t₁.reverse :: up) [] := by
  obtain ⟨hdesc, hne⟩ := h.descending t₁ (by simp)
  refine ⟨?_, nofun, h.stands.trans (.of_eq ?_)⟩
  · refine List.forall_mem_cons.mpr ⟨⟨hdesc.reverse, ?_⟩, h.ascending⟩
    simpa using hne
  · cases o <;> simp [whole]

/-- The last run of all is the list sorted. -/
theorem last (h : Runs fn l o [t₁] []) : Sorts fn l (some t₁) := by
  refine ⟨t₁, rfl, ?_, (h.ascending t₁ (by simp)).1⟩
  cases o <;> simpa [whole] using h.stands

end Runs

/-- With `n` of `total` runs still to merge in this pass, the passes end within the fuel. -/
def Enough (fuel n total : Nat) : Prop :=
  3 * total + 1 ≤ fuel ∨ 2 ≤ n ∧ 3 * total ≤ fuel

theorem fmergel_single (fuel : Nat) (t : List α) (o : Order) :
    fmergel fn (fuel + 1) [t] [] o = some t := by
  cases o <;> simp [fmergel]

theorem fmergel_turn (fuel : Nat) (t t' : List α) (down : List (List α)) (o : Order) :
    fmergel fn (fuel + 1) [t] (t' :: down) o =
      rfmergel fn fuel (t.reverse :: t' :: down) [] o := by
  cases o <;> simp [fmergel]

theorem fmergel_nil (fuel : Nat) (down : List (List α)) (o : Order) :
    fmergel fn (fuel + 1) [] down o = rfmergel fn fuel down [] o := by
  cases o <;> simp [fmergel]

theorem rfmergel_turn (fuel : Nat) (t : List α) (up : List (List α)) (o : Order) :
    rfmergel fn (fuel + 1) [t] up o = fmergel fn fuel (t.reverse :: up) [] o := by
  cases o <;> simp [rfmergel]

theorem rfmergel_nil (fuel : Nat) (up : List (List α)) (o : Order) :
    rfmergel fn (fuel + 1) [] up o = fmergel fn fuel up [] o := by
  cases o <;> simp [rfmergel]

/-- The passes sort: both kinds of passes at once, by induction on the fuel. -/
theorem passes_sort (fuel : Nat) :
    (∀ up down o, Enough fuel up.length (up.length + down.length) → up ++ down ≠ [] →
      Runs fn l o up down → Sorts fn l (fmergel fn fuel up down o)) ∧
    (∀ up down o, Enough fuel down.length (up.length + down.length) → up ++ down ≠ [] →
      Runs fn l o up down → Sorts fn l (rfmergel fn fuel down up o)) := by
  induction fuel with
  | zero =>
    constructor
    · rintro up down o (h | ⟨h, h'⟩)
      · omega
      · omega
    · rintro up down o (h | ⟨h, h'⟩)
      · omega
      · omega
  | succ fuel ih =>
    obtain ⟨ih, ihr⟩ := ih
    constructor
    · intro up down o hfuel hne h
      match up, down with
      | [], [] => exact absurd rfl hne
      | [], [t] =>
        obtain ⟨k, rfl⟩ : ∃ k, fuel = k + 2 := ⟨fuel - 2, by simp [Enough] at hfuel; omega⟩
        rw [fmergel_nil, rfmergel_turn, fmergel_single]
        exact h.rturn.last
      | [], t :: t' :: down =>
        rw [fmergel_nil]
        refine ihr [] _ o (.inr ?_) (by simp) h
        simp [Enough] at hfuel ⊢
        omega
      | [t], [] =>
        rw [fmergel_single]
        exact h.last
      | [t], t' :: down =>
        rw [fmergel_turn]
        refine ihr [] _ o (.inr ?_) (by simp) h.turn
        simp [Enough] at hfuel ⊢
        omega
      | t₁ :: t₂ :: up, down =>
        have hstep : ∀ m, Enough fuel up.length (up.length + (m :: down).length) := fun m => by
          simp [Enough] at hfuel ⊢
          omega
        cases o with
        | asc =>
          cases t₂ with
          | nil => exact absurd rfl (h.ascending [] (by simp)).2
          | cons h₂ t₂ =>
            rw [fmergel]
            exact ih _ _ _ (hstep _) (by simp) h.merge_asc
        | desc =>
          cases t₁ with
          | nil => exact absurd rfl (h.ascending [] (by simp)).2
          | cons h₂ t₁ =>
            rw [fmergel]
            exact ih _ _ _ (hstep _) (by simp) h.merge_desc
    · intro up down o hfuel hne h
      match down, up with
      | [], [] => exact absurd rfl hne
      | [], [t] =>
        obtain ⟨k, rfl⟩ : ∃ k, fuel = k + 1 := ⟨fuel - 1, by simp [Enough] at hfuel; omega⟩
        rw [rfmergel_nil, fmergel_single]
        exact h.last
      | [], t :: t' :: up =>
        rw [rfmergel_nil]
        refine ih _ [] o (.inr ?_) (by simp) h
        simp [Enough] at hfuel ⊢
        omega
      | [t], [] =>
        obtain ⟨k, rfl⟩ : ∃ k, fuel = k + 1 := ⟨fuel - 1, by simp [Enough] at hfuel; omega⟩
        rw [rfmergel_turn, fmergel_single]
        exact h.rturn.last
      | [t], t' :: up =>
        rw [rfmergel_turn]
        refine ih _ [] o (.inr ?_) (by simp) h.rturn
        simp [Enough] at hfuel ⊢
        omega
      | t₁ :: t₂ :: down, up =>
        have hstep : ∀ m, Enough fuel down.length ((m :: up).length + down.length) := fun m => by
          simp [Enough] at hfuel ⊢
          omega
        cases o with
        | asc =>
          cases t₁ with
          | nil => exact absurd rfl (h.descending [] (by simp)).2
          | cons h₂ t₁ =>
            rw [rfmergel]
            exact ihr _ _ _ (hstep _) (by simp) h.rmerge_asc
        | desc =>
          cases t₂ with
          | nil => exact absurd rfl (h.descending [] (by simp)).2
          | cons h₂ t₂ =>
            rw [rfmergel]
            exact ihr _ _ _ (hstep _) (by simp) h.rmerge_desc

/-! ### Splitting into runs

Both splits build runs in the same way, each with a comparison of its own.  An element that fits
neither end of the current run is held back, and begins the next one. -/

/-- The comparison by which a split puts elements into its runs. -/
def below (fn : α → α → Bool) : Order → α → α → Bool
  | .asc, a, b => fn a b
  | .desc, a, b => !fn a b

/-- A run as a split builds it, with its last element in front. -/
def Run (fn : α → α → Bool) : Order → List α → Prop
  | .asc, run => Ascends (flip fn) run
  | .desc, run => Ascends fn run

def orient : Order → List α → List α
  | .asc, run => run.reverse
  | .desc, run => run

/-- What the runs before the current one stand for. -/
def stack : Order → List (List α) → List α
  | .asc, rs => rs.flatten.reverse
  | .desc, rs => rs.reverse.flatten

theorem stack_cons (o : Order) (run : List α) (rs : List (List α)) :
    stack o (run :: rs) = stack o rs ++ orient o run := by
  cases o <;> simp [stack, orient]

theorem below_congr (hfn : Total fn) (o : Order) {a b c : α} (h : tied fn b c = true) :
    below fn o a b = below fn o a c := by
  rw [tied_iff] at h
  have hiff : fn a b = fn a c := by
    rw [Bool.eq_iff_iff]
    exact ⟨fun hab => hfn.trans hab h.1, fun hac => hfn.trans hac h.2⟩
  cases o <;> simp [below, hiff]

/-- What one of two compared elements is below and the other is not are not tied. -/
theorem not_tied_of_below (hfn : Total fn) {a b c : α} (hb : below fn o a b = true)
    (hc : below fn o a c = false) : tied fn c b = false := by
  by_contra htied
  rw [Bool.not_eq_false] at htied
  rw [below_congr hfn o htied, hb] at hc
  cases hc

/-- The first element of a run is above the others. -/
theorem Run.below_of_mem {a b z : α} {r : List α} (h : Run fn o (a :: r)) (hfn : Total fn)
    (hb : b ∈ r) (hz : below fn o a z = true) : below fn o b z = true := by
  cases o with
  | asc => exact hfn.trans (List.rel_of_pairwise_cons (h hfn.flip) hb) hz
  | desc =>
    have hab := List.rel_of_pairwise_cons (h hfn) hb
    simp only [below, Bool.not_eq_true'] at hz ⊢
    by_contra hbz
    rw [hfn.trans hab (Bool.not_eq_false _ ▸ hbz)] at hz
    cases hz

theorem Run.not_below_of_mem {a b z : α} {r : List α} (h : Run fn o (a :: r)) (hfn : Total fn)
    (hb : b ∈ r) (hz : below fn o b z = false) : below fn o a z = false := by
  by_contra haz
  rw [Bool.not_eq_false] at haz
  rw [h.below_of_mem hfn hb haz] at hz
  cases hz

theorem Run.tail {a : α} {r : List α} (h : Run fn o (a :: r)) : Run fn o r := by
  cases o with
  | asc => exact fun hfn => (h hfn).tail
  | desc => exact fun hfn => (h hfn).tail

theorem Run.singleton (o : Order) (a : α) : Run fn o [a] := by
  cases o with
  | asc => exact Ascends.singleton a
  | desc => exact Ascends.singleton a

/-- An element is put into a run where those before it are not below it, and those after it are. -/
theorem Run.insert {p q : List α} {z : α} (h : Run fn o (p ++ q))
    (hp : Total fn → ∀ a ∈ p, below fn o a z = false)
    (hq : Total fn → ∀ a ∈ q, below fn o a z = true) :
    Run fn o (p ++ z :: q) ∧
      Rearranges fn (orient o (p ++ q) ++ [z]) (orient o (p ++ z :: q)) := by
  cases o with
  | asc =>
    constructor
    · intro hflip
      have hfn : Total fn := hflip.flip
      obtain ⟨hpp, hqq, hpq⟩ := List.pairwise_append.mp (h hflip)
      refine List.pairwise_append.mpr ⟨hpp, List.pairwise_cons.mpr ⟨hq hfn, hqq⟩, ?_⟩
      intro a ha b hb
      rcases List.mem_cons.mp hb with rfl | hb
      · exact hfn.of_not (Bool.eq_false_iff.mp (hp hfn a ha))
      · exact hpq a ha b hb
    · have hmove : Rearranges fn (p.reverse ++ [z]) (z :: p.reverse) := .move fun hfn a ha => by
        rw [tied, Bool.and_eq_false_iff]
        exact .inl (hp hfn a (List.mem_reverse.mp ha))
      simpa [orient] using (Rearranges.refl q.reverse).append hmove
  | desc =>
    have hpz : Total fn → ∀ a ∈ p, fn a z = true := fun hfn a ha => by
      simpa [below] using hp hfn a ha
    have hqz : Total fn → ∀ a ∈ q, fn a z = false := fun hfn a ha => by
      simpa [below] using hq hfn a ha
    constructor
    · intro hfn
      obtain ⟨hpp, hqq, hpq⟩ := List.pairwise_append.mp (h hfn)
      have hzq : ∀ a ∈ q, fn z a = true := fun a ha =>
        hfn.of_not (Bool.eq_false_iff.mp (hqz hfn a ha))
      refine List.pairwise_append.mpr ⟨hpp, List.pairwise_cons.mpr ⟨hzq, hqq⟩, ?_⟩
      intro a ha b hb
      rcases List.mem_cons.mp hb with rfl | hb
      · exact hpz hfn a ha
      · exact hpq a ha b hb
    · have hmove : Rearranges fn (q ++ [z]) (z :: q) := .move fun hfn a ha => by
        rw [tied, Bool.and_eq_false_iff]
        exact .inl (hqz hfn a ha)
      simpa [orient] using (Rearranges.refl p).append hmove

/-- A split within the list `l`: the current run is `y :: x :: r`, the runs before it are `rs`,
`held` is the element held back, if there is one, and `rest` is still to be split. -/
structure Split (fn : α → α → Bool) (l : List α) (o : Order) (y x : α) (r : List α)
    (rs : List (List α)) (held rest : List α) : Prop where
  run : Run fn o (y :: x :: r)
  runs : ∀ run ∈ rs, Run fn o run ∧ run ≠ []
  above : Total fn → ∀ s ∈ held, below fn o x s = false
  stands : Rearranges fn l (stack o rs ++ orient o (y :: x :: r) ++ held ++ rest)

namespace Split

variable {y x z s : α} {r : List α} {rs : List (List α)} {held rest : List α}

/-- The next element goes into the current run. -/
theorem stands_insert {p q : List α}
    (h : Rearranges fn l (stack o rs ++ orient o (p ++ q) ++ held ++ z :: rest))
    (hput : Rearranges fn (orient o (p ++ q) ++ [z]) (orient o (p ++ z :: q)))
    (hheld : Total fn → ∀ s ∈ held, tied fn s z = false) :
    Rearranges fn l (stack o rs ++ orient o (p ++ z :: q) ++ held ++ rest) := by
  have hmove := (Rearranges.move hheld).within (stack o rs ++ orient o (p ++ q)) rest
  have hin := hput.within (stack o rs) (held ++ rest)
  simp only [List.append_assoc, List.cons_append, List.nil_append] at h hmove hin ⊢
  exact (h.trans hmove).trans hin

theorem above_head (h : Split fn l o y x r rs held rest) (hfn : Total fn) (hs : s ∈ held) :
    below fn o y s = false :=
  h.run.not_below_of_mem hfn List.mem_cons_self (h.above hfn s hs)

theorem push (h : Split fn l o y x r rs held (z :: rest)) (hz : below fn o y z = true) :
    Split fn l o z y (x :: r) rs held rest := by
  have hmem : Total fn → ∀ a ∈ y :: x :: r, below fn o a z = true := by
    intro hfn a ha
    rcases List.mem_cons.mp ha with rfl | ha
    · exact hz
    · exact h.run.below_of_mem hfn ha hz
  obtain ⟨hrun, hput⟩ := h.run.insert (p := []) (fun _ => nofun) hmem
  refine ⟨hrun, h.runs, fun hfn s hs => h.above_head hfn hs, ?_⟩
  refine stands_insert h.stands hput fun hfn s hs => ?_
  exact not_tied_of_below hfn hz (h.above_head hfn hs)

theorem second (h : Split fn l o y x r rs held (z :: rest)) (hyz : below fn o y z = false)
    (hxz : below fn o x z = true) : Split fn l o y z (x :: r) rs held rest := by
  have hmem : Total fn → ∀ a ∈ x :: r, below fn o a z = true := by
    intro hfn a ha
    rcases List.mem_cons.mp ha with rfl | ha
    · exact hxz
    · exact Run.below_of_mem (h.run.tail) hfn ha hxz
  obtain ⟨hrun, hput⟩ := h.run.insert (p := [y]) (fun _ => by simpa using hyz) hmem
  refine ⟨hrun, h.runs, fun hfn s hs => ?_, stands_insert h.stands hput fun hfn s hs => ?_⟩
  · exact hrun.tail.not_below_of_mem hfn List.mem_cons_self (h.above hfn s hs)
  · exact not_tied_of_below hfn hxz (h.above hfn s hs)

theorem third (h : Split fn l o y x [] rs [] (z :: rest)) (hyz : below fn o y z = false)
    (hxz : below fn o x z = false) : Split fn l o y x [z] rs [] rest := by
  obtain ⟨hrun, hput⟩ := h.run.insert (p := [y, x]) (q := []) (z := z)
    (fun _ => by simp [hyz, hxz]) (fun _ => nofun)
  exact ⟨hrun, h.runs, fun _ => nofun, stands_insert h.stands hput fun _ => nofun⟩

theorem hold (h : Split fn l o y x r rs [] (z :: rest)) (hxz : below fn o x z = false) :
    Split fn l o y x r rs [z] rest := by
  refine ⟨h.run, h.runs, fun _ => by simpa using hxz, ?_⟩
  simpa using h.stands

theorem runs_cons (h : Split fn l o y x r rs held rest) :
    ∀ run ∈ (y :: x :: r) :: rs, Run fn o run ∧ run ≠ [] :=
  List.forall_mem_cons.mpr ⟨⟨h.run, List.cons_ne_nil _ _⟩, h.runs⟩

/-- The element held back begins a run with the next one, which fits it in one of two ways. -/
theorem next (h : Split fn l o y x r rs [s] (z :: rest)) {a b : α}
    (hrun : Run fn o [a, b]) (hput : Rearranges fn (orient o [s] ++ [z]) (orient o [a, b])) :
    Split fn l o a b [] ((y :: x :: r) :: rs) [] rest := by
  refine ⟨hrun, h.runs_cons, fun _ => nofun, h.stands.trans ?_⟩
  have hin := hput.within (stack o rs ++ orient o (y :: x :: r)) rest
  have hs : orient o [s] = [s] := by cases o <;> rfl
  rw [hs] at hin
  simpa [stack_cons] using hin

theorem next_push (h : Split fn l o y x r rs [s] (z :: rest)) (hsz : below fn o s z = true) :
    Split fn l o z s [] ((y :: x :: r) :: rs) [] rest := by
  obtain ⟨hrun, hput⟩ := (Run.singleton o s).insert (p := []) (fun _ => nofun)
    fun _ => by simpa using hsz
  exact h.next hrun hput

theorem next_second (h : Split fn l o y x r rs [s] (z :: rest)) (hsz : below fn o s z = false) :
    Split fn l o s z [] ((y :: x :: r) :: rs) [] rest := by
  obtain ⟨hrun, hput⟩ := (Run.singleton o s).insert (p := [s]) (q := [])
    (fun _ => by simpa using hsz) fun _ => nofun
  exact h.next hrun hput

end Split

/-- The runs of the ascending split, once all elements are in one. -/
theorem rfmergel_sorts {rs : List (List α)} (hruns : ∀ run ∈ rs, Run fn .asc run ∧ run ≠ [])
    (hne : rs ≠ []) (hl : Rearranges fn l (stack .asc rs)) {fuel : Nat}
    (hfuel : 3 * rs.length + 1 ≤ fuel) : Sorts fn l (rfmergel fn fuel rs [] .asc) := by
  refine (passes_sort fuel).2 [] rs .asc (.inl ?_) (by simpa using hne) ⟨nofun, hruns, ?_⟩
  · simpa using hfuel
  · simpa [whole, stack] using hl

theorem fmergel_sorts {rs : List (List α)} (hruns : ∀ run ∈ rs, Run fn .desc run ∧ run ≠ [])
    (hne : rs ≠ []) (hl : Rearranges fn l (stack .desc rs)) {fuel : Nat}
    (hfuel : 3 * rs.length + 1 ≤ fuel) : Sorts fn l (fmergel fn fuel rs [] .desc) := by
  refine (passes_sort fuel).1 rs [] .desc (.inl ?_) (by simpa using hne) ⟨hruns, nofun, ?_⟩
  · simpa using hfuel
  · simpa [whole, stack] using hl

/-- The runs at the end of a split. -/
theorem Split.finish {y x : α} {r : List α} {rs : List (List α)}
    (h : Split fn l o y x r rs [] []) : Rearranges fn l (stack o ((y :: x :: r) :: rs)) := by
  simpa [stack_cons] using h.stands

theorem Split.finish_held {y x s : α} {r : List α} {rs : List (List α)}
    (h : Split fn l o y x r rs [s] []) :
    (∀ run ∈ [s] :: (y :: x :: r) :: rs, Run fn o run ∧ run ≠ []) ∧
      Rearranges fn l (stack o ([s] :: (y :: x :: r) :: rs)) := by
  have hs : orient o [s] = [s] := by cases o <;> rfl
  refine ⟨List.forall_mem_cons.mpr ⟨⟨.singleton o s, List.cons_ne_nil _ _⟩, h.runs_cons⟩, ?_⟩
  simpa [stack_cons, hs] using h.stands

/-- The ascending split sorts, with and without an element held back, by induction on the elements
that are still to be split. -/
theorem fsplit_1_sorts (fuel : Nat) (rest : List α) :
    (∀ y x r rs, 3 * (rs.length + rest.length + 2) + 1 ≤ fuel →
      Split fn l .asc y x r rs [] rest → Sorts fn l (fsplit_1 fn fuel y x rest r rs)) ∧
    (∀ y x r rs s, 3 * (rs.length + rest.length + 2) + 1 ≤ fuel →
      Split fn l .asc y x r rs [s] rest → Sorts fn l (fsplit_1_1 fn fuel y x rest r rs s)) := by
  induction rest with
  | nil =>
    constructor
    · intro y x r rs hfuel h
      rw [fsplit_1]
      refine rfmergel_sorts h.runs_cons (List.cons_ne_nil _ _) h.finish ?_
      simp at hfuel ⊢
      omega
    · intro y x r rs s hfuel h
      rw [fsplit_1_1]
      refine rfmergel_sorts h.finish_held.1 (List.cons_ne_nil _ _) h.finish_held.2 ?_
      simp at hfuel ⊢
      omega
  | cons z rest ih =>
    obtain ⟨ih, ih'⟩ := ih
    constructor
    · intro y x r rs hfuel h
      simp only [List.length_cons] at hfuel
      have hless : 3 * (rs.length + rest.length + 2) + 1 ≤ fuel := by omega
      rw [fsplit_1]
      split
      · rename_i hyz
        exact ih _ _ _ _ hless (h.push hyz)
      · rename_i hyz
        rw [Bool.not_eq_true] at hyz
        split
        · rename_i hxz
          exact ih _ _ _ _ hless (h.second hyz hxz)
        · rename_i hxz
          rw [Bool.not_eq_true] at hxz
          split
          · rename_i hr
            obtain rfl := List.isEmpty_iff.mp hr
            exact ih _ _ _ _ hless (h.third hyz hxz)
          · exact ih' _ _ _ _ _ hless (h.hold hxz)
    · intro y x r rs s hfuel h
      simp only [List.length_cons] at hfuel
      have hless : 3 * (rs.length + rest.length + 2) + 1 ≤ fuel := by omega
      have hnext : ∀ run : List α, 3 * ((run :: rs).length + rest.length + 2) + 1 ≤ fuel :=
        fun run => by simp only [List.length_cons]; omega
      rw [fsplit_1_1]
      split
      · rename_i hyz
        exact ih' _ _ _ _ _ hless (h.push hyz)
      · rename_i hyz
        rw [Bool.not_eq_true] at hyz
        split
        · rename_i hxz
          exact ih' _ _ _ _ _ hless (h.second hyz hxz)
        · split
          · rename_i hsz
            exact ih _ _ _ _ (hnext _) (h.next_push hsz)
          · rename_i hsz
            exact ih _ _ _ _ (hnext _) (h.next_second (Bool.not_eq_true _ ▸ hsz))

theorem below_desc_eq_true {a b : α} : below fn .desc a b = true ↔ ¬ fn a b = true := by
  simp [below]

theorem below_desc_eq_false {a b : α} : below fn .desc a b = false ↔ fn a b = true := by
  simp [below]

/-- The descending split, which puts an element into a run where the comparison fails. -/
theorem fsplit_2_sorts (fuel : Nat) (rest : List α) :
    (∀ y x r rs, 3 * (rs.length + rest.length + 2) + 1 ≤ fuel →
      Split fn l .desc y x r rs [] rest → Sorts fn l (fsplit_2 fn fuel y x rest r rs)) ∧
    (∀ y x r rs s, 3 * (rs.length + rest.length + 2) + 1 ≤ fuel →
      Split fn l .desc y x r rs [s] rest → Sorts fn l (fsplit_2_1 fn fuel y x rest r rs s)) := by
  induction rest with
  | nil =>
    constructor
    · intro y x r rs hfuel h
      rw [fsplit_2]
      refine fmergel_sorts h.runs_cons (List.cons_ne_nil _ _) h.finish ?_
      simp at hfuel ⊢
      omega
    · intro y x r rs s hfuel h
      rw [fsplit_2_1]
      refine fmergel_sorts h.finish_held.1 (List.cons_ne_nil _ _) h.finish_held.2 ?_
      simp at hfuel ⊢
      omega
  | cons z rest ih =>
    obtain ⟨ih, ih'⟩ := ih
    constructor
    · intro y x r rs hfuel h
      simp only [List.length_cons] at hfuel
      have hless : 3 * (rs.length + rest.length + 2) + 1 ≤ fuel := by omega
      rw [fsplit_2]
      split
      · rename_i hyz
        rw [← below_desc_eq_false] at hyz
        split
        · rename_i hxz
          rw [← below_desc_eq_false] at hxz
          split
          · rename_i hr
            obtain rfl := List.isEmpty_iff.mp hr
            exact ih _ _ _ _ hless (h.third hyz hxz)
          · exact ih' _ _ _ _ _ hless (h.hold hxz)
        · rename_i hxz
          exact ih _ _ _ _ hless (h.second hyz (below_desc_eq_true.mpr hxz))
      · rename_i hyz
        exact ih _ _ _ _ hless (h.push (below_desc_eq_true.mpr hyz))
    · intro y x r rs s hfuel h
      simp only [List.length_cons] at hfuel
      have hless : 3 * (rs.length + rest.length + 2) + 1 ≤ fuel := by omega
      have hnext : ∀ run : List α, 3 * ((run :: rs).length + rest.length + 2) + 1 ≤ fuel :=
        fun run => by simp only [List.length_cons]; omega
      rw [fsplit_2_1]
      split
      · rename_i hyz
        rw [← below_desc_eq_false] at hyz
        split
        · split
          · rename_i hsz
            exact ih _ _ _ _ (hnext _) (h.next_second (below_desc_eq_false.mpr hsz))
          · rename_i hsz
            exact ih _ _ _ _ (hnext _) (h.next_push (below_desc_eq_true.mpr hsz))
        · rename_i hxz
          exact ih' _ _ _ _ _ hless (h.second hyz (below_desc_eq_true.mpr hxz))
      · rename_i hyz
        exact ih' _ _ _ _ _ hless (h.push (below_desc_eq_true.mpr hyz))

/-- The first two elements begin a run, which is an ascending or a descending one. -/
theorem Split.start {x y : α} {t : List α} (hxy : below fn o x y = true) :
    Split fn (x :: y :: t) o y x [] [] [] t := by
  obtain ⟨hrun, hput⟩ := (Run.singleton o x).insert (p := []) (z := y) (fun _ => nofun)
    fun _ => by simpa using hxy
  refine ⟨hrun, nofun, fun _ => nofun, ?_⟩
  have hx : orient o [x] = [x] := by cases o <;> rfl
  have hstack : stack o ([] : List (List α)) = [] := by cases o <;> rfl
  have hin := hput.append (.refl t)
  rw [List.nil_append, hx] at hin
  simpa [hstack] using hin

/-- Whatever the comparison, `sort` returns; where it is total, it has sorted. -/
theorem sort_sorts (fn : α → α → Bool) (l : List α) : Sorts fn l (sort fn l) := by
  match l with
  | [] => exact ⟨[], rfl, .refl [], .nil⟩
  | [x] => exact ⟨[x], rfl, .refl [x], .singleton x⟩
  | x :: y :: t =>
    rw [sort]
    split
    · rename_i hxy
      exact (fsplit_1_sorts _ t).1 y x [] [] (by simp) (.start hxy)
    · rename_i hxy
      exact (fsplit_2_sorts _ t).1 y x [] [] (by simp) (.start (below_desc_eq_true.mpr hxy))

/-- With any comparison, `lists:sort/2` returns, and what it returns are the elements of the list.
With a total one, it is the stable sort of the list. -/
theorem sort_spec (fn : α → α → Bool) (l : List α) :
    ∃ l', sort fn l = some l' ∧ l.Perm l' ∧ (Total fn → l' = Erlang.sort fn l) := by
  obtain ⟨l', hsort, hl', hasc⟩ := sort_sorts fn l
  exact ⟨l', hsort, hl'.perm, fun hfn => eq_insertionSort hfn hl' hasc⟩

example : sort (fun a b : Nat × Nat => a.1 ≤ b.1) [(2, 0), (1, 1), (2, 2), (0, 3), (1, 4)] =
    some [(0, 3), (1, 1), (1, 4), (2, 0), (2, 2)] := by decide +kernel

end Erlang.Lists
