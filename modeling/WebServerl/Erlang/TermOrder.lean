import WebServerl.Erlang.Lists

/-! The order of all terms is total, so that `lists:sort/2` sorts by any part of the elements. -/

namespace Erlang.Term

theorem leq_total (a b : Term) : a.leq b = true ∨ b.leq a = true := by
  induction a generalizing b with
  | int m => cases b with
    | int n => simpa [leq] using le_total m n
    | _ => simp [leq, rank]
  | atom m => cases b with
    | atom n => simpa [leq] using String.le_total m n
    | _ => simp [leq, rank]
  | nil => cases b <;> simp [leq, rank]
  | cons a as iha ihas => cases b with
    | cons b bs =>
      by_cases hab : a = b
      · simpa [leq, hab] using ihas bs
      · simpa [leq, hab, Ne.symm hab] using iha b
    | _ => simp [leq, rank]
  | tuple as ih => cases b with
    | tuple bs =>
      rcases Nat.lt_trichotomy as.length bs.length with h | h | h
      · simp [leq, h.ne, h]
      · simpa [leq, h] using ih bs
      · simp [leq, h.ne, h.ne', h]
    | _ => simp [leq, rank]
  | binary m => cases b with
    | binary n => simpa [leq] using List.le_total m n
    | _ => simp [leq, rank]
  | other m => cases b with
    | other n => simpa [leq] using le_total m n
    | _ => simp [leq, rank]

theorem leq_antisymm {a b : Term} (h : a.leq b = true) (h' : b.leq a = true) : a = b := by
  induction a generalizing b with
  | int m => cases b with
    | int n => simp_all [leq]; omega
    | _ => simp_all [leq, rank]
  | atom m => cases b with
    | atom n => simp_all [leq]; exact String.le_antisymm h h'
    | _ => simp_all [leq, rank]
  | nil => cases b <;> simp_all [leq, rank]
  | cons a as iha ihas => cases b with
    | cons b bs =>
      by_cases hab : a = b
      · subst hab
        simp only [leq, if_true] at h h'
        rw [ihas h h']
      · simp only [leq, hab, Ne.symm hab, if_false] at h h'
        exact absurd (iha h h') hab
    | _ => simp_all [leq, rank]
  | tuple as ih => cases b with
    | tuple bs =>
      rcases Nat.lt_trichotomy as.length bs.length with hlt | heq | hlt
      · simp [leq, hlt.ne', hlt.not_gt] at h'
      · simp only [leq, heq, if_true] at h h'
        rw [ih h h']
      · simp [leq, hlt.ne', hlt.not_gt] at h
    | _ => simp_all [leq, rank]
  | binary m => cases b with
    | binary n => simp_all [leq]; exact List.le_antisymm h h'
    | _ => simp_all [leq, rank]
  | other m => cases b with
    | other n => simp_all [leq]; omega
    | _ => simp_all [leq, rank]

theorem rank_le_of_leq {a b : Term} (h : a.leq b = true) : a.rank ≤ b.rank := by
  cases a <;> cases b <;> first | exact Nat.le_refl _ | exact of_decide_eq_true h

theorem leq_of_rank_lt {a b : Term} (h : a.rank < b.rank) : a.leq b = true := by
  cases a <;> cases b <;> first
    | exact absurd h (Nat.lt_irrefl _)
    | exact decide_eq_true (Nat.le_of_lt h)

theorem length_le_of_leq {as bs : Term} (h : (tuple as).leq (tuple bs) = true) :
    as.length ≤ bs.length := by
  simp only [leq] at h
  split at h
  · omega
  · exact Nat.le_of_lt (of_decide_eq_true h)

/-- Terms of different types stand in the order of their types. -/
theorem leq_trans_of_rank {a b c : Term} (h : a.leq b = true) (h' : b.leq c = true)
    (hsame : a.rank = b.rank → b.rank = c.rank → a.leq c = true) : a.leq c = true := by
  have hab := rank_le_of_leq h
  have hbc := rank_le_of_leq h'
  rcases Nat.lt_or_ge a.rank c.rank with hlt | hge
  · exact leq_of_rank_lt hlt
  · apply hsame <;> omega

theorem leq_trans {a b c : Term} (h : a.leq b = true) (h' : b.leq c = true) :
    a.leq c = true := by
  induction a generalizing b c with
  | int m =>
    refine leq_trans_of_rank h h' fun hab hbc => ?_
    cases b with
    | int n => cases c with
      | int k =>
        simp only [leq, decide_eq_true_eq] at h h' ⊢
        exact le_trans h h'
      | _ => cases hbc
    | _ => cases hab
  | atom m =>
    refine leq_trans_of_rank h h' fun hab hbc => ?_
    cases b with
    | atom n => cases c with
      | atom k =>
        simp only [leq, decide_eq_true_eq] at h h' ⊢
        exact String.le_trans h h'
      | _ => cases hbc
    | _ => cases hab
  | nil =>
    refine leq_trans_of_rank h h' fun hab _ => ?_
    cases b with
    | nil => exact h'
    | _ => cases hab
  | cons a as iha ihas =>
    refine leq_trans_of_rank h h' fun hab hbc => ?_
    cases b with
    | cons b bs => cases c with
      | cons c cs =>
        simp only [leq] at h h' ⊢
        by_cases hab : a = b
        · subst hab
          by_cases hac : a = c
          · rw [if_pos rfl] at h
            rw [if_pos hac] at h' ⊢
            exact ihas h h'
          · rw [if_neg hac] at h' ⊢
            exact h'
        · rw [if_neg hab] at h
          by_cases hbc : b = c
          · subst hbc
            rw [if_neg hab]
            exact h
          · rw [if_neg hbc] at h'
            have hac : a ≠ c := by
              rintro rfl
              exact hab (leq_antisymm h h')
            rw [if_neg hac]
            exact iha h h'
      | _ => cases hbc
    | _ => cases hab
  | tuple as ih =>
    refine leq_trans_of_rank h h' fun hab hbc => ?_
    cases b with
    | tuple bs => cases c with
      | tuple cs =>
        have hlength : as.length ≤ bs.length := length_le_of_leq h
        have hlength' : bs.length ≤ cs.length := length_le_of_leq h'
        rcases Nat.lt_or_ge as.length cs.length with hlt | hge
        · simp only [leq, if_neg hlt.ne, hlt, decide_true]
        · have hab : as.length = bs.length := by omega
          have hbc : bs.length = cs.length := by omega
          simp only [leq, hab, hbc, if_true] at h h' ⊢
          exact ih h h'
      | _ => cases hbc
    | _ => cases hab
  | binary m =>
    refine leq_trans_of_rank h h' fun hab hbc => ?_
    cases b with
    | binary n => cases c with
      | binary k =>
        simp only [leq, decide_eq_true_eq] at h h' ⊢
        exact List.le_trans h h'
      | _ => cases hbc
    | _ => cases hab
  | other m =>
    refine leq_trans_of_rank h h' fun hab hbc => ?_
    cases b with
    | other n => cases c with
      | other k =>
        simp only [leq, decide_eq_true_eq] at h h' ⊢
        exact le_trans h h'
      | _ => cases hbc
    | _ => cases hab

/-- Elements are compared by a part of each. -/
theorem total_leq {α : Type} (part : α → Term) :
    StableSort.Total fun a b => (part a).leq (part b) where
  total a b := leq_total (part a) (part b)
  trans := leq_trans

end Erlang.Term
