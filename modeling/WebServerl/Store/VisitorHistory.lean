import WebServerl.Lib.KeyedHistory
import WebServerl.Store.Runs
import WebServerl.Store.VisitorsDb

/-! `visitors_db` as a timed history: whatever the table looks like, its three queries answer from
the inserts and removes before them, and from the clock. -/

namespace WebServerl.VisitorsDb

open Erlang Erlang.Mnesia Machine History

/-- What a request and its answer do to the visitors: an accepted `insert` enters a name with its
city and the time. -/
def effect : (Request × DateTime) × Option (Callback Visitor) → Effect Term (Term × DateTime)
  | ((.insertVisitor name city, now), some (.reply .ok)) => .store name (city, now)
  | ((.remove name, _), _) => .remove name
  | _ => .none

def entryRow (name : Term) (entry : Term × DateTime) : Visitor := newRow name entry.1 entry.2

/-- The latest accepted `insert` of the name had this city and was handled at the time `entered`,
and no `remove` of the name came after it. -/
abbrev Entered (name city : Term) (entered : DateTime) (hist : History Request Visitor) : Prop :=
  InForce effect name (city, entered) hist

/-- The answer is the list, or `none` when the list is empty. -/
def Lists {α : Type} (reply : List α → Reply Visitor) (out : Option (Callback Visitor))
    (l : List α) : Prop :=
  (l = [] ∧ out = some (.reply .none)) ∨ (l ≠ [] ∧ out = some (.reply (reply l)))

/-- What the history `before` a request makes of it, at the time `now`. -/
structure AnswersVisitors (before : History Request Visitor) (r : Request) (now : DateTime)
    (out : Option (Callback Visitor)) : Prop where
  insert_ok : ∀ name city, r = .insertVisitor name city →
    (out = some (.reply .ok) ↔ ¬ ∃ city entered, Entered name city entered before)
  insert_taken : ∀ name city, r = .insertVisitor name city →
    (out = some (.reply .alreadyInserted) ↔ ∃ city entered, Entered name city entered before)
  all_names : r = .allNames → ∃ l : List Term, Lists .names out l ∧ l.Nodup ∧
    ∀ name, name ∈ l ↔ ∃ city entered, Entered name city entered before
  today : r = .getTodayVisitors → ∃ l : List Term, Lists .names out l ∧ l.Nodup ∧
    ∀ name, name ∈ l ↔
      ∃ city entered, Entered name city entered before ∧ entered.date = now.date
  dump : r = .dumpVisitors → ∃ l : List Visitor, Lists .rows out l ∧
    (l.map Visitor.name).Nodup ∧
    ∀ v, v ∈ l ↔ ∃ name city entered, Entered name city entered before ∧
      v = newRow name city entered

theorem lists_orNone {α : Type} (reply : List α → Reply Visitor) (l : List α) :
    Lists reply (some (.reply (orNone reply l))) l := by
  cases l with
  | nil => exact .inl ⟨rfl, rfl⟩
  | cons a l => exact .inr ⟨nofun, rfl⟩

section Refinement

variable [Ets] {hist : History Request Visitor} {T : Table Visitor}

theorem computes : Computes .visitorsDb handleCall answer := fun _ _ hT => handleCall_apply hT

omit [Ets] in
theorem mem_keys_iff_entered (h : Represents effect entryRow hist T) {name : Term} :
    name ∈ T.keys ↔ ∃ city entered, Entered name city entered hist := by
  rw [h.mem_keys fun _ _ => rfl, Prod.exists]

omit [Ets] in
theorem mem_iff_entered (h : Represents effect entryRow hist T) {v : Visitor} :
    v ∈ T ↔ ∃ name city entered, Entered name city entered hist ∧
      v = newRow name city entered := by
  simp only [h v, Prod.exists, entryRow]

/-- The simulation step: every request keeps the table and the names entered together. -/
theorem represents_answer (h : Represents effect entryRow hist T) (i : Request × DateTime) :
    Represents effect entryRow (hist ++ [(i, some (.reply (answer i.1 i.2 T).1))])
      (answer i.1 i.2 T).2 := by
  obtain ⟨r, now⟩ := i
  cases r with
  | insertVisitor name city =>
    by_cases hk : name ∈ T.keys
    · rw [answer_insert_taken hk]
      exact h.concat_none rfl
    · rw [answer_insert_new hk]
      exact h.concat_store (fun _ _ => rfl) (v := (city, now)) rfl hk
  | remove name => exact h.concat_remove (fun _ _ => rfl) rfl
  | allNames => exact h.concat_none rfl
  | getTodayVisitors => exact h.concat_none rfl
  | dumpVisitors => exact h.concat_none rfl

theorem names_nodup (T : Table Visitor) : ((Ets.order T.rows).map Visitor.name).Nodup :=
  ((Ets.perm T.rows).map Visitor.name).nodup_iff.mpr T.nodup

theorem mem_order {v : Visitor} : v ∈ Ets.order T.rows ↔ v ∈ T := (Ets.perm _).mem_iff

theorem answersVisitors (h : Represents effect entryRow hist T) (r : Request) (now : DateTime) :
    AnswersVisitors hist r now (some (.reply (answer r now T).1)) where
  insert_ok := by
    rintro name city rfl
    rw [← mem_keys_iff_entered h, Option.some.injEq, Callback.reply.injEq]
    exact insertRow_ok_iff
  insert_taken := by
    rintro name city rfl
    rw [← mem_keys_iff_entered h, Option.some.injEq, Callback.reply.injEq]
    exact insertRow_refused_iff
  all_names := by
    rintro rfl
    refine ⟨_, lists_orNone _ _, names_nodup T, fun name => ?_⟩
    rw [← mem_keys_iff_entered h, KeyedTable.mem_keys, List.mem_map]
    simp only [mem_order]
    exact Iff.rfl
  today := by
    rintro rfl
    refine ⟨_, lists_orNone _ _, (names_nodup T).sublist (List.filter_sublist.map _),
      fun name => ?_⟩
    simp only [List.mem_map, List.mem_filter, mem_order, mem_iff_entered h, decide_eq_true_eq]
    constructor
    · rintro ⟨v, ⟨⟨name, city, entered, hin, rfl⟩, hdate⟩, rfl⟩
      exact ⟨city, entered, hin, hdate⟩
    · rintro ⟨city, entered, hin, hdate⟩
      exact ⟨newRow name city entered, ⟨⟨name, city, entered, hin, rfl⟩, hdate⟩, rfl⟩
  dump := by
    rintro rfl
    refine ⟨_, lists_orNone _ _, names_nodup T, fun v => ?_⟩
    rw [mem_order]
    exact mem_iff_entered h

end Refinement

/-! Ann comes on the first of May, again on the second, when she is refused, and once more after
she has been removed; then today's visitors are asked for. -/

def firstOfMay : DateTime := ⟨2018, 5, 1, 12, 0, 0⟩

def secondOfMay : DateTime := ⟨2018, 5, 2, 9, 30, 0⟩

def annAndBob : List (Request × DateTime) :=
  [(.insertVisitor (.str "Ann") (.str "Gorky"), firstOfMay),
    (.insertVisitor (.str "Bob") (.str "Gorky"), firstOfMay),
    (.insertVisitor (.str "Bob") (.str "Perm"), secondOfMay), (.remove (.str "Ann"), secondOfMay),
    (.insertVisitor (.str "Ann") (.str "Perm"), secondOfMay)]

end WebServerl.VisitorsDb
