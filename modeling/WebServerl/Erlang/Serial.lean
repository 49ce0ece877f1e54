import WebServerl.Erlang.Transactions
import Mathlib.Data.List.Nodup

/-! What a transaction means.  Its accesses act as if they read and wrote the tables themselves, one
after the other, and an inner transaction that is aborted leaves no trace; that no table is
written before the end cannot be told. -/

namespace Erlang.Mnesia

variable {Tab : Type} {Row : Tab → Type} [∀ t, Record (Row t)] [DecidableEq Tab]

/-- An access that takes effect at once. -/
def Access.activity [Ets] : (o : Access Row) → Activity Tab Row o.Res
  | .read t k => Mnesia.read t k
  | .write t r => Mnesia.write t r
  | .delete t k => Mnesia.delete t k
  | .matchObject t pat => Mnesia.matchObject t pat
  | .select t pat n => Mnesia.select t pat n

/-- What an access may do to the tables, in some order of traversal. -/
def Access.Acts (o : Access Row) (tables : Tables Tab Row)
    (out : Except Term (o.Res × Tables Tab Row)) : Prop :=
  ∃ ets : Ets, @Access.activity _ _ _ _ ets o tables = out

/-! ### The store -/

section Store

variable {store : Shadow Row} {t : Tab}

omit [∀ t, Record (Row t)] in
theorem Item.on_eq_some {i : Item Row} {c : Change (Row t) Term} :
    i.on t = some c ↔ i = ⟨t, c⟩ := by
  obtain ⟨t', c'⟩ := i
  by_cases ht : t' = t
  · subst ht
    simp [on]
  · have hne : (⟨t', c'⟩ : Item Row) ≠ ⟨t, c⟩ := fun h => ht (congrArg Sigma.fst h)
    simp [on, ht, hne]

/-- The changes to a table. -/
def Shadow.on (store : Shadow Row) (t : Tab) : List (Change (Row t) Term) :=
  store.rows.filterMap (Item.on t)

theorem Shadow.mem_on {c : Change (Row t) Term} : c ∈ store.on t ↔ ⟨t, c⟩ ∈ store := by
  rw [on, List.mem_filterMap]
  constructor
  · rintro ⟨i, hi, hon⟩
    rwa [Item.on_eq_some.mp hon] at hi
  · exact fun h => ⟨_, h, Item.on_eq_some.mpr rfl⟩

theorem Shadow.nodup_on (store : Shadow Row) (t : Tab) :
    ((store.on t).map (Change.key Record.key)).Nodup := by
  have heq : (store.on t).map (Change.key Record.key) =
      (store.rows.map Item.oid).filterMap fun oid => if oid.1 = t then some oid.2 else none := by
    rw [on, List.map_filterMap, List.filterMap_map]
    refine List.filterMap_congr fun i _ => ?_
    obtain ⟨t', c⟩ := i
    by_cases ht : t' = t
    · subst ht
      simp [Item.on, Item.oid]
    · simp [Item.on, Item.oid, ht]
  rw [heq]
  refine store.nodup.filterMap ?_
  rintro ⟨t₁, k₁⟩ ⟨t₂, k₂⟩ k h₁ h₂
  simp only [Option.mem_def, Option.ite_none_right_eq_some, Option.some.injEq] at h₁ h₂
  rw [h₁.1, h₁.2, h₂.1, h₂.2]

theorem Shadow.findOps_perm [Ets] (store : Shadow Row) (t : Tab) :
    (store.findOps t).Perm (store.on t) :=
  (Ets.perm store.rows).filterMap _

theorem Shadow.nodup_findOps [Ets] (store : Shadow Row) (t : Tab) :
    ((store.findOps t).map (Change.key Record.key)).Nodup :=
  ((store.findOps_perm t).map _).nodup_iff.mpr (store.nodup_on t)

omit [DecidableEq Tab] in
theorem Shadow.mem_copyEts [Ets] {i : Item Row} : i ∈ store.copyEts ↔ i ∈ store :=
  (Ets.perm store.rows).mem_iff

theorem Shadow.mem_on_write {c c' : Change (Row t) Term} :
    c' ∈ Shadow.on (store.write ⟨t, c⟩) t ↔
      c' = c ∨ (c' ∈ store.on t ∧ c'.key Record.key ≠ c.key Record.key) := by
  rw [mem_on, KeyedTable.mem_write, mem_on]
  simp [Item.oid]

theorem Shadow.mem_on_write_ne {t' : Tab} (h : t' ≠ t) {c : Change (Row t) Term}
    {c' : Change (Row t') Term} : c' ∈ Shadow.on (store.write ⟨t, c⟩) t' ↔ c' ∈ store.on t' := by
  rw [mem_on, KeyedTable.mem_write, mem_on]
  have hne : (⟨t', c'⟩ : Item Row) ≠ ⟨t, c⟩ := fun heq => h (congrArg Sigma.fst heq)
  simp [Item.oid, h, hne]

/-- A lookup finds the change to the key, if there is one. -/
theorem Shadow.lookup_cases (store : Shadow Row) (t : Tab) (k : Term) :
    (k ∉ (store.on t).map (Change.key Record.key) ∧ store.lookup t k = []) ∨
      ∃ c ∈ store.on t, c.key Record.key = k ∧ store.lookup t k = [c] := by
  rcases store.read_cases (t, k) with ⟨hk, hread⟩ | ⟨⟨t', c⟩, hmem, hoid, hread⟩
  · refine .inl ⟨fun h => hk ?_, by rw [lookup, hread, List.filterMap_nil]⟩
    obtain ⟨c, hc, rfl⟩ := List.mem_map.mp h
    exact KeyedTable.mem_keys.mpr ⟨⟨t, c⟩, mem_on.mp hc, rfl⟩
  · obtain ⟨rfl, rfl⟩ := Prod.mk.inj hoid
    refine .inr ⟨c, mem_on.mpr hmem, rfl, ?_⟩
    rw [lookup, hread]
    simp [Item.on]

end Store

/-! ### What the transaction sees -/

section Reads

variable {ρ : Type} [Record ρ]

section Exact

variable [Loose] {K : Set Term}

theorem deloid_eq (hK : Term.Exact K) {k : Term} (hk : k ∈ K) {l : List ρ}
    (hl : ∀ r ∈ l, Record.key r ∈ K) : deloid k l = l.filter fun r => Record.key r ≠ k := by
  induction l with
  | nil => rfl
  | cons h t ih =>
    obtain ⟨hh, ht⟩ := List.forall_mem_cons.mp hl
    by_cases heq : Record.key h = k
    · simp [deloid, heq, Term.looseEq_refl, ih ht]
    · have hloose : ¬ (Record.key h).looseEq k = true := fun hl => heq (hK _ hh _ hk hl)
      simp [deloid, heq, hloose, ih ht]

/-- `add_match/3` makes the changes. -/
theorem addMatch_eq (hK : Term.Exact K) {ops : List (Change ρ Term)}
    (hops : ∀ c ∈ ops, c.key Record.key ∈ K) {T : Table ρ} (hT : ∀ k ∈ T.keys, k ∈ K) :
    addMatch ops T.rows = (T.changes ops).rows := by
  induction ops generalizing T with
  | nil => rfl
  | cons c ops ih =>
    obtain ⟨hc, hrest⟩ := List.forall_mem_cons.mp hops
    have hrows : ∀ r ∈ T.rows, Record.key r ∈ K :=
      fun r hr => hT _ (KeyedTable.key_mem_keys (KeyedTable.mem_rows.mp hr))
    have hchange : ∀ k ∈ (T.change c).keys, k ∈ K := by
      intro k hk
      obtain ⟨r, hr, rfl⟩ := KeyedTable.mem_keys.mp hk
      rcases KeyedTable.mem_change.mp hr with rfl | ⟨hold, -⟩
      · exact hc
      · exact hT _ (KeyedTable.key_mem_keys hold)
    cases c with
    | write r =>
      rw [addMatch, deloid_eq hK (show Record.key r ∈ K from hc) hrows]
      exact ih hrest hchange
    | delete k =>
      rw [addMatch, deloid_eq hK (show k ∈ K from hc) hrows]
      exact ih hrest hchange

end Exact

/-- Some traversal of a table finds its rows in a given order. -/
theorem exists_ets {l l' : List ρ} (h : l.Perm l') : ∃ ets : Ets, @Ets.order ets ρ l' = l := by
  classical
  refine ⟨⟨fun {ρ'} m => if hm : ∃ e : ρ' = ρ, e ▸ m = l' then hm.1.symm ▸ l else m, ?_⟩, ?_⟩
  · intro ρ' m
    split
    · rename_i hm
      obtain ⟨rfl, rfl⟩ := hm
      exact h
    · exact .refl m
  · simp

omit [Record ρ] in
/-- What a list may hold where `p` holds, when it has the elements of `l`. -/
theorem exists_perm_filter {p : ρ → Bool} {l m : List ρ} (h : m.Perm (l.filter p)) :
    ∃ l' : List ρ, l'.Perm l ∧ l'.filter p = m := by
  have hm : ∀ r ∈ m, p r = true := fun r hr => (List.mem_filter.mp (h.mem_iff.mp hr)).2
  refine ⟨m ++ l.filter fun r => !p r, ?_, ?_⟩
  · exact (h.append_right _).trans (List.filter_append_perm p l)
  · rw [List.filter_append, List.filter_eq_self.mpr hm, List.filter_filter]
    simp

theorem filterMap_matchSpec (pat : List Pat) (n : Nat) (l : List ρ) :
    (l.filter (matchesRow pat)).filterMap (matchSpec pat n) = l.filterMap (matchSpec pat n) := by
  rw [List.filterMap_filter]
  refine List.filterMap_congr fun r _ => ?_
  cases hmatch : matchTuple pat (Record.elements r) [] with
  | none => simp [matchesRow, matchSpec, hmatch]
  | some binds => simp [matchesRow, hmatch]

end Reads

/-- The keys of the tables are among these. -/
def Within (K : Set Term) (tables : Tables Tab Row) : Prop :=
  ∀ t T, tables t = some T → ∀ k ∈ T.keys, k ∈ K

/-- The keys of the changes are among these. -/
def Shadow.Within (K : Set Term) (store : Shadow Row) : Prop := ∀ i ∈ store, i.oid.2 ∈ K

/-- A key that the access writes or deletes is among these. -/
def Access.Within (K : Set Term) (o : Access Row) : Prop := ∀ k, o.changed? = some k → k ∈ K

theorem Shadow.Within.write {K : Set Term} {store : Shadow Row} (h : store.Within K) {t : Tab}
    {c : Change (Row t) Term} (hc : c.key Record.key ∈ K) :
    Shadow.Within K (store.write ⟨t, c⟩) := by
  intro i hi
  rcases KeyedTable.mem_write.mp hi with rfl | ⟨hold, -⟩
  · exact hc
  · exact h i hold

/-- The tables, as a transaction with this store sees them. -/
def Views (tables : Tables Tab Row) (store : Shadow Row) (view : Tables Tab Row) : Prop :=
  ∀ t, (tables t = none ∧ view t = none ∧ store.on t = []) ∨
    ∃ T V, tables t = some T ∧ view t = some V ∧ ∀ r, r ∈ V ↔ T.Shows (store.on t) r

section Accesses

variable {tables view : Tables Tab Row} {store : Shadow Row} {t : Tab}

theorem Views.exists_table (h : Views tables store view) {T : Table (Row t)}
    (hT : tables t = some T) : ∃ V, view t = some V ∧ ∀ r, r ∈ V ↔ T.Shows (store.on t) r := by
  rcases h t with ⟨hnone, -⟩ | ⟨T', V, hT', hV, hshows⟩
  · rw [hT] at hnone
    cases hnone
  · rw [hT] at hT'
    cases hT'
    exact ⟨V, hV, hshows⟩

theorem Views.no_table (h : Views tables store view) (hT : tables t = none) : view t = none := by
  rcases h t with ⟨-, hnone, -⟩ | ⟨T', V, hT', -⟩
  · exact hnone
  · rw [hT] at hT'
    cases hT'

/-- A read finds what the transaction has written. -/
theorem read_corrected {T V : Table (Row t)} (hshows : ∀ r, r ∈ V ↔ T.Shows (store.on t) r)
    (k : Term) : addWritten (store.lookup t k) (T.read k) = V.read k := by
  rcases store.lookup_cases t k with ⟨hk, hlookup⟩ | ⟨c, hc, rfl, hlookup⟩
  · rw [hlookup, KeyedTable.read_unchanged hshows hk]
    rfl
  · rw [hlookup]
    cases c with
    | write r => exact (KeyedTable.read_written hshows hc).symm
    | delete k => exact (KeyedTable.read_deleted hshows (store.nodup_on t) hc).symm

/-- The rows that `add_match/3` finds among those that match. -/
theorem match_corrected [Ets] [Loose] {K : Set Term} (hK : Term.Exact K) {T V : Table (Row t)}
    (hT : ∀ k ∈ T.keys, k ∈ K) (hstore : store.Within K)
    (hshows : ∀ r, r ∈ V ↔ T.Shows (store.on t) r) (p : Row t → Bool) :
    ((addMatch (store.findOps t) ((Ets.order T.rows).filter p)).filter p).Perm
      (V.rows.filter p) := by
  have hnodup : ((Ets.order T.rows).map Record.key).Nodup :=
    ((Ets.perm T.rows).map _).nodup_iff.mpr T.nodup
  let T₁ : Table (Row t) := ⟨(Ets.order T.rows).filter p,
    hnodup.sublist (List.filter_sublist.map _)⟩
  have hmem₁ : ∀ r, r ∈ T₁ ↔ r ∈ T ∧ p r = true := by
    intro r
    rw [← KeyedTable.mem_rows, List.mem_filter, (Ets.perm T.rows).mem_iff, KeyedTable.mem_rows]
  have hops : ∀ c ∈ store.findOps t, c.key Record.key ∈ K :=
    fun c hc => hstore ⟨t, c⟩ (Shadow.mem_on.mp ((store.findOps_perm t).mem_iff.mp hc))
  have hT₁ : ∀ k ∈ T₁.keys, k ∈ K := by
    intro k hk
    obtain ⟨r, hr, rfl⟩ := KeyedTable.mem_keys.mp hk
    exact hT _ (KeyedTable.key_mem_keys ((hmem₁ r).mp hr).1)
  have heq : addMatch (store.findOps t) T₁.rows = (T₁.changes (store.findOps t)).rows :=
    addMatch_eq hK hops hT₁
  rw [heq]
  refine (List.perm_ext_iff_of_nodup ?_ ?_).mpr fun r => ?_
  · exact (T₁.changes (store.findOps t)).nodup_rows.filter _
  · exact V.nodup_rows.filter _
  · rw [List.mem_filter, List.mem_filter]
    refine and_congr_left fun hp => ?_
    rw [KeyedTable.mem_rows, KeyedTable.mem_changes (store.nodup_findOps t), KeyedTable.mem_rows,
      hshows, KeyedTable.Shows.congr fun c => (store.findOps_perm t).mem_iff]
    simp only [KeyedTable.Shows, hmem₁, hp, and_true]

theorem unchanged_perm [Ets] {T V : Table (Row t)} (hnil : store.findOps t = [])
    (hshows : ∀ r, r ∈ V ↔ T.Shows (store.on t) r) : T.rows.Perm V.rows := by
  have hon : store.on t = [] := by
    have hperm := store.findOps_perm t
    rw [hnil] at hperm
    exact hperm.nil_eq.symm
  refine KeyedTable.Same.perm fun r => ?_
  rw [hshows, hon]
  simp [KeyedTable.Shows]

/-- The tables that a transaction sees after a change of its own. -/
theorem Views.write (h : Views tables store view) {T V : Table (Row t)} (hT : tables t = some T)
    (hshows : ∀ r, r ∈ V ↔ T.Shows (store.on t) r) (c : Change (Row t) Term) :
    Views tables (store.write ⟨t, c⟩) (Function.update view t (some (V.change c))) := by
  intro t'
  by_cases ht : t' = t
  · subst ht
    refine .inr ⟨T, V.change c, hT, Function.update_self _ _ _, fun r => ?_⟩
    rw [KeyedTable.mem_change, hshows]
    exact (KeyedTable.shows_further fun c' => Shadow.mem_on_write).symm
  · rw [Function.update_of_ne ht]
    have hon : ∀ c', c' ∈ Shadow.on (store.write ⟨t, c⟩) t' ↔ c' ∈ store.on t' :=
      fun c' => Shadow.mem_on_write_ne ht
    rcases h t' with ⟨hnone, hview, hnil⟩ | ⟨T', V', hT', hV', hshows'⟩
    · refine .inl ⟨hnone, hview, List.eq_nil_iff_forall_not_mem.mpr fun c' hc' => ?_⟩
      rw [hon, hnil] at hc'
      cases hc'
    · refine .inr ⟨T', V', hT', hV', fun r => ?_⟩
      rw [hshows', KeyedTable.Shows.congr hon]

omit [DecidableEq Tab] in
theorem withExisting_ok {α : Type} {f : Table (Row t) → α} {a : α}
    (h : withExisting tables t f = .ok a) : ∃ T, tables t = some T ∧ f T = a := by
  unfold withExisting at h
  split at h
  · cases h
  · rename_i T hT
    cases h
    exact ⟨T, hT, rfl⟩

omit [DecidableEq Tab] in
theorem withExisting_error {α : Type} {f : Table (Row t) → α} {reason : Term}
    (h : withExisting tables t f = .error reason) :
    tables t = none ∧ reason = noExists (Row t) := by
  unfold withExisting at h
  split at h
  · rename_i hT
    cases h
    exact ⟨hT, rfl⟩
  · cases h

omit [DecidableEq Tab] in
theorem withTable_some {α : Type} {f : Table (Row t) → Tables Tab Row → α × Tables Tab Row}
    {T : Table (Row t)} (hT : tables t = some T) : withTable t f tables = .ok (f T tables) := by
  rw [withTable, hT]

omit [DecidableEq Tab] in
theorem withTable_none {α : Type} {f : Table (Row t) → Tables Tab Row → α × Tables Tab Row}
    (hT : tables t = none) : withTable t f tables = .error (noExists (Row t)) := by
  rw [withTable, hT]

variable [Loose]

/-- An access that fails fails on the tables themselves. -/
theorem exec_error [ets : Ets] {o : Access Row} {reason : Term}
    (h : o.exec tables store = .error reason) (hviews : Views tables store view) :
    o.Acts view (.error reason) := by
  refine ⟨ets, ?_⟩
  cases o with
  | read t k =>
    obtain ⟨hT, rfl⟩ := withExisting_error h
    rw [Access.activity, Mnesia.read, withTable_none (hviews.no_table hT)]
  | write t r =>
    obtain ⟨hT, rfl⟩ := withExisting_error h
    rw [Access.activity, Mnesia.write, withTable_none (hviews.no_table hT)]
  | delete t k =>
    obtain ⟨hT, rfl⟩ := withExisting_error h
    rw [Access.activity, Mnesia.delete, withTable_none (hviews.no_table hT)]
  | matchObject t pat =>
    obtain ⟨hT, rfl⟩ := withExisting_error h
    rw [Access.activity, Mnesia.matchObject, withTable_none (hviews.no_table hT)]
  | select t pat n =>
    obtain ⟨hT, rfl⟩ := withExisting_error h
    rw [Access.activity, Mnesia.select, withTable_none (hviews.no_table hT)]

theorem exec_within [Ets] {K : Set Term} {o : Access Row} (ho : o.Within K) {r : o.Res}
    {store' : Shadow Row} (h : o.exec tables store = .ok (r, store')) (hstore : store.Within K) :
    store'.Within K := by
  cases o with
  | read t k =>
    obtain ⟨T, hT, heq⟩ := withExisting_ok h
    obtain ⟨rfl, rfl⟩ := Prod.mk.inj heq
    exact hstore
  | write t r =>
    obtain ⟨T, hT, heq⟩ := withExisting_ok h
    obtain ⟨rfl, rfl⟩ := Prod.mk.inj heq
    exact hstore.write (ho _ rfl)
  | delete t k =>
    obtain ⟨T, hT, heq⟩ := withExisting_ok h
    obtain ⟨rfl, rfl⟩ := Prod.mk.inj heq
    exact hstore.write (ho _ rfl)
  | matchObject t pat =>
    obtain ⟨T, hT, heq⟩ := withExisting_ok h
    obtain ⟨rfl, rfl⟩ := Prod.mk.inj heq
    exact hstore
  | select t pat n =>
    obtain ⟨T, hT, heq⟩ := withExisting_ok h
    split at heq
    · obtain ⟨rfl, rfl⟩ := Prod.mk.inj heq
      exact hstore
    · obtain ⟨rfl, rfl⟩ := Prod.mk.inj heq
      exact hstore

/-- Any other access has one of the outcomes that it may have on the tables themselves. -/
theorem exec_ok [ets : Ets] {K : Set Term} (hK : Term.Exact K) (htables : Within K tables)
    {o : Access Row} {r : o.Res} {store' : Shadow Row} (h : o.exec tables store = .ok (r, store'))
    (hviews : Views tables store view) (hstore : store.Within K) :
    ∃ view', o.Acts view (.ok (r, view')) ∧ Views tables store' view' := by
  cases o with
  | read t k =>
    obtain ⟨T, hT, heq⟩ := withExisting_ok h
    obtain ⟨rfl, rfl⟩ := Prod.mk.inj heq
    obtain ⟨V, hV, hshows⟩ := hviews.exists_table hT
    refine ⟨view, ⟨ets, ?_⟩, hviews⟩
    rw [Access.activity, Mnesia.read, withTable_some hV, read_corrected hshows]
  | write t r =>
    obtain ⟨T, hT, heq⟩ := withExisting_ok h
    obtain ⟨rfl, rfl⟩ := Prod.mk.inj heq
    obtain ⟨V, hV, hshows⟩ := hviews.exists_table hT
    refine ⟨_, ⟨ets, ?_⟩, hviews.write hT hshows (.write r)⟩
    rw [Access.activity, Mnesia.write, withTable_some hV, KeyedTable.change]
  | delete t k =>
    obtain ⟨T, hT, heq⟩ := withExisting_ok h
    obtain ⟨rfl, rfl⟩ := Prod.mk.inj heq
    obtain ⟨V, hV, hshows⟩ := hviews.exists_table hT
    refine ⟨_, ⟨ets, ?_⟩, hviews.write hT hshows (.delete k)⟩
    rw [Access.activity, Mnesia.delete, withTable_some hV, KeyedTable.change]
  | matchObject t pat =>
    obtain ⟨T, hT, heq⟩ := withExisting_ok h
    obtain ⟨rfl, rfl⟩ := Prod.mk.inj heq
    obtain ⟨V, hV, hshows⟩ := hviews.exists_table hT
    obtain ⟨l, hl, hfilter⟩ := exists_perm_filter
      (match_corrected hK (htables t T hT) hstore hshows (matchesRow pat))
    obtain ⟨ets', hets⟩ := exists_ets hl
    refine ⟨view, ⟨ets', ?_⟩, hviews⟩
    rw [Access.activity, Mnesia.matchObject, withTable_some hV, hets, hfilter]
    rfl
  | select t pat n =>
    obtain ⟨T, hT, heq⟩ := withExisting_ok h
    obtain ⟨V, hV, hshows⟩ := hviews.exists_table hT
    obtain ⟨l, hl, hr, rfl⟩ : ∃ l : List (Row t), l.Perm V.rows ∧
        l.filterMap (matchSpec pat n) = r ∧ store = store' := by
      split at heq
      · rename_i hnil
        obtain ⟨rfl, rfl⟩ := Prod.mk.inj heq
        exact ⟨_, (Ets.perm T.rows).trans (unchanged_perm hnil hshows), rfl, rfl⟩
      · obtain ⟨rfl, rfl⟩ := Prod.mk.inj heq
        obtain ⟨l, hl, hfilter⟩ := exists_perm_filter
          (match_corrected hK (htables t T hT) hstore hshows (matchesRow pat))
        refine ⟨l, hl, ?_, rfl⟩
        rw [← filterMap_matchSpec pat n l, hfilter, filterMap_matchSpec]
    obtain ⟨ets', hets⟩ := exists_ets hl
    refine ⟨view, ⟨ets', ?_⟩, hviews⟩
    rw [Access.activity, Mnesia.select, withTable_some hV, hets, ← hr]
    rfl

end Accesses

/-! ### The transaction -/

section Transactions

variable {tables : Tables Tab Row}

theorem Views.congr {store store' : Shadow Row} {view : Tables Tab Row}
    (h : Views tables store view) (hstore : ∀ i, i ∈ store' ↔ i ∈ store) :
    Views tables store' view := by
  intro t
  have hon : ∀ c, c ∈ store'.on t ↔ c ∈ store.on t := by
    intro c
    rw [Shadow.mem_on, Shadow.mem_on, hstore]
  rcases h t with ⟨hnone, hview, hnil⟩ | ⟨T, V, hT, hV, hshows⟩
  · refine .inl ⟨hnone, hview, List.eq_nil_iff_forall_not_mem.mpr fun c hc => ?_⟩
    rw [hon, hnil] at hc
    cases hc
  · refine .inr ⟨T, V, hT, hV, fun r => ?_⟩
    rw [hshows, KeyedTable.Shows.congr hon]

/-- The stores keep what the transaction would have done to the tables. -/
theorem scopes_carryOut [Ets] [Loose] {K : Set Term} (hK : Term.Exact K)
    (htables : Within K tables) :
    Nested.CarriesOut (scopes tables) (Access.Within K) Access.Acts
      (fun ts view => Views tables ts.store view ∧ ts.store.Within K)
      (fun ts ts' => ts'.upStores = ts.upStores) where
  refl _ := rfl
  trans h h' := h'.trans h
  exec_ok {o ts view r ts'} ho hR h := by
    obtain ⟨hviews, hstore⟩ := hR
    cases hexec : o.exec tables ts.store with
    | error reason =>
      simp only [scopes, hexec] at h
      cases h
    | ok res =>
      obtain ⟨r', store⟩ := res
      simp only [scopes, hexec, Except.map] at h
      cases h
      obtain ⟨view', hacts, hviews'⟩ := exec_ok hK htables hexec hviews hstore
      exact ⟨view', hacts, ⟨hviews', exec_within ho hexec hstore⟩, rfl⟩
  exec_error {o ts view reason} _ hR h := by
    cases hexec : o.exec tables ts.store with
    | error reason' =>
      simp only [scopes, hexec, Except.map] at h
      cases h
      exact exec_error hexec hR.1
    | ok res =>
      simp only [scopes, hexec, Except.map] at h
      cases h
  enter {ts view} hR :=
    ⟨hR.1.congr fun i => Shadow.mem_copyEts, fun i hi => hR.2 i (Shadow.mem_copyEts.mp hi)⟩
  commit {ts ts' view} hbase hR := by
    have hups : ts'.upStores = ts.store :: ts.upStores := hbase
    have hcommit : ts'.commitNested = ⟨ts'.store, ts.upStores⟩ := by
      rw [TidStore.commitNested, hups]
    simp only [scopes, hcommit]
    exact ⟨hR, trivial⟩
  abort {ts ts' view} hR hbase := by
    have hups : ts'.upStores = ts.store :: ts.upStores := hbase
    have habort : ts'.returnAbort = ts := by
      rw [TidStore.returnAbort, hups]
    simp only [scopes, habort]
    exact ⟨hR, trivial⟩

/-- No table has gone since the store was written. -/
theorem arrange_ok [Ets] {store : Shadow Row} {view : Tables Tab Row}
    (hviews : Views tables store view) : arrange tables store = .ok (Ets.order store.rows) := by
  have hexists : ∀ i ∈ Ets.order store.rows, ∃ T, tables i.1 = some T := by
    intro i hi
    rcases hviews i.1 with ⟨-, -, hnil⟩ | ⟨T, -, hT, -⟩
    · have hmem : i.2 ∈ store.on i.1 := Shadow.mem_on.mpr ((Ets.perm store.rows).mem_iff.mp hi)
      rw [hnil] at hmem
      cases hmem
    · exact ⟨T, hT⟩
  rw [arrange]
  generalize Ets.order store.rows = items at hexists ⊢
  induction items with
  | nil => rfl
  | cons i items ih =>
    obtain ⟨T, hT⟩ := hexists i List.mem_cons_self
    rw [List.mapM_cons, withExisting, hT, ih fun i' hi' => hexists i' (List.mem_cons_of_mem _ hi')]
    rfl

theorem doUpdateOp_apply (tables : Tables Tab Row) (i : Item Row) (t : Tab) :
    doUpdateOp tables i t = (tables t).map fun T => T.changes (i.on t).toList := by
  obtain ⟨t', c⟩ := i
  by_cases ht : t' = t
  · subst ht
    cases hT : tables t' with
    | none => simp [doUpdateOp, hT]
    | some T => simp [doUpdateOp, hT, Item.on, KeyedTable.changes]
  · have hon : Item.on t (⟨t', c⟩ : Item Row) = none := dif_neg ht
    have hsame : doUpdateOp tables ⟨t', c⟩ t = tables t := by
      cases hT : tables t' with
      | none => simp [doUpdateOp, hT]
      | some T => simp [doUpdateOp, hT, Function.update_of_ne (Ne.symm ht)]
    rw [hsame, hon]
    cases tables t <;> rfl

/-- Each table gets the changes that are meant for it. -/
theorem doCommit_apply (tables : Tables Tab Row) (items : List (Item Row)) (t : Tab) :
    doCommit tables items t =
      (tables t).map fun T => T.changes (items.filterMap (Item.on t)) := by
  induction items generalizing tables with
  | nil =>
    show tables t = _
    cases tables t <;> rfl
  | cons i items ih =>
    have hrest : doCommit tables (i :: items) t = doCommit (doUpdateOp tables i) items t := rfl
    rw [hrest, ih, doUpdateOp_apply, Option.map_map]
    cases hon : i.on t with
    | none =>
      rw [List.filterMap_cons_none hon]
      rfl
    | some c =>
      rw [List.filterMap_cons_some hon]
      rfl

/-- The same tables exist, and have the same rows. -/
def SameTables (tables tables' : Tables Tab Row) : Prop :=
  ∀ t, (tables t = none ∧ tables' t = none) ∨
    ∃ T T', tables t = some T ∧ tables' t = some T' ∧ T.Same T'

/-- The commit leaves the tables as the transaction has seen them. -/
theorem doCommit_views [Ets] {store : Shadow Row} {view : Tables Tab Row}
    (hviews : Views tables store view) :
    SameTables (doCommit tables (Ets.order store.rows)) view := by
  intro t
  have happly := doCommit_apply tables (Ets.order store.rows) t
  rcases hviews t with ⟨hnone, hview, -⟩ | ⟨T, V, hT, hV, hshows⟩
  · rw [hnone] at happly
    exact .inl ⟨happly, hview⟩
  · rw [hT, Option.map_some] at happly
    refine .inr ⟨_, V, happly, hV, fun r => ?_⟩
    show r ∈ T.changes (store.findOps t) ↔ r ∈ V
    rw [KeyedTable.mem_changes (store.nodup_findOps t), hshows]
    exact KeyedTable.Shows.congr fun c => (store.findOps_perm t).mem_iff

theorem Views.empty (tables : Tables Tab Row) : Views tables (KeyedTable.empty _) tables := by
  intro t
  cases hT : tables t with
  | none => exact .inl ⟨rfl, rfl, rfl⟩
  | some T => exact .inr ⟨T, T, rfl, rfl, fun r => by simp [KeyedTable.Shows, Shadow.on,
      KeyedTable.empty]⟩

end Transactions

/-! An entry is written, and deleted in an inner transaction that is aborted. -/

structure Entry where
  key : Term
  value : Term
  deriving DecidableEq

instance : Record Entry := ⟨"entry", Entry.key, fun e => [e.value]⟩

/-- The table with one entry. -/
def oneEntry (key : Term) : Tables Unit fun _ => Entry :=
  fun _ => some ((KeyedTable.empty _).write ⟨key, .atom "old"⟩)

def rewritten : Tx (fun _ : Unit => Entry) (List Entry) :=
  .perform (.write () ⟨.int 1, .atom "new"⟩) fun _ =>
    .nested (.perform (.delete () (.int 1)) fun _ => (.abort .nil : Tx _ Unit)) fun _ =>
      .perform (.matchObject () [.any, .any, .any]) .done

section Example

attribute [local instance] Ets.asKept Loose.evenFloats

example : (executeOuter rewritten (.running (oneEntry (.other 2)))).1 =
    .atomic [⟨.int 1, .atom "new"⟩] := rfl

end Example

section One

variable {tables : Tables Tab Row}

theorem Shadow.findOps_empty [Ets] (t : Tab) :
    Shadow.findOps (KeyedTable.empty (Item.oid : Item Row → Tab × Term)) t = [] := by
  have hperm := Ets.perm (KeyedTable.empty (Item.oid : Item Row → Tab × Term)).rows
  rw [Shadow.findOps, hperm.eq_nil]
  rfl

theorem executeOuter_perform [Ets] [Loose] (o : Access Row) :
    executeOuter (.perform o .done) (.running tables) =
      match o.exec tables (KeyedTable.empty _) with
      | .error reason => (.aborted reason, .running tables)
      | .ok (a, store) =>
        match arrange tables store with
        | .error reason => (.aborted reason, .running tables)
        | .ok items => (.atomic a, .running (doCommit tables items)) := by
  cases hexec : o.exec tables (KeyedTable.empty _) with
  | error reason => simp [executeOuter, Nested.run, scopes, hexec, Except.map]
  | ok res =>
    cases harrange : arrange tables res.2 with
    | error reason => simp [executeOuter, Nested.run, scopes, hexec, Except.map, harrange]
    | ok items => simp [executeOuter, Nested.run, scopes, hexec, Except.map, harrange]

omit [DecidableEq Tab] in
theorem arrange_empty [Ets] : arrange tables (KeyedTable.empty _) = .ok [] := by
  have hnil := (Ets.perm (KeyedTable.empty (Item.oid : Item Row → Tab × Term)).rows).eq_nil
  rw [arrange, hnil]
  rfl

theorem arrange_change [Ets] {t : Tab} {T : Table (Row t)} (hT : tables t = some T)
    (c : Change (Row t) Term) :
    arrange tables ((KeyedTable.empty _).write ⟨t, c⟩) = .ok [⟨t, c⟩] := by
  have hone : Ets.order [(⟨t, c⟩ : Item Row)] = [⟨t, c⟩] := List.perm_singleton.mp (Ets.perm _)
  have hrows : ((KeyedTable.empty (Item.oid : Item Row → Tab × Term)).write ⟨t, c⟩).rows =
    [⟨t, c⟩] := rfl
  rw [arrange, hrows, hone, List.mapM_cons, withExisting, hT]
  rfl

/-- A transaction of one access is the access on the tables themselves. -/
theorem executeOuter_one [Ets] [Loose] (o : Access Row) :
    executeOuter (.perform o .done) (.running tables) =
      match o.activity tables with
      | .error reason => (.aborted reason, .running tables)
      | .ok (a, tables') => (.atomic a, .running tables') := by
  rw [executeOuter_perform]
  cases o with
  | read t k =>
    cases hT : tables t with
    | none => simp only [Access.exec, withExisting, Access.activity, Mnesia.read, withTable, hT]
    | some T =>
      simp only [Access.exec, withExisting, Access.activity, Mnesia.read, withTable, hT,
        arrange_empty]
      rfl
  | write t r =>
    cases hT : tables t with
    | none => simp only [Access.exec, withExisting, Access.activity, Mnesia.write, withTable, hT]
    | some T =>
      simp only [Access.exec, withExisting, Access.activity, Mnesia.write, withTable, hT,
        arrange_change hT]
      simp [doCommit, doUpdateOp, hT, KeyedTable.change]
  | delete t k =>
    cases hT : tables t with
    | none => simp only [Access.exec, withExisting, Access.activity, Mnesia.delete, withTable, hT]
    | some T =>
      simp only [Access.exec, withExisting, Access.activity, Mnesia.delete, withTable, hT,
        arrange_change hT]
      simp [doCommit, doUpdateOp, hT, KeyedTable.change]
  | matchObject t pat =>
    cases hT : tables t with
    | none =>
      simp only [Access.exec, withExisting, Access.activity, Mnesia.matchObject, withTable, hT]
    | some T =>
      simp only [Access.exec, withExisting, Access.activity, Mnesia.matchObject, withTable, hT,
        arrange_empty, Shadow.addWrittenMatch, Shadow.findOps_empty, addMatch, List.filter_filter,
        Bool.and_self]
      rfl
  | select t pat n =>
    cases hT : tables t with
    | none => simp only [Access.exec, withExisting, Access.activity, Mnesia.select, withTable, hT]
    | some T =>
      simp only [Access.exec, withExisting, Access.activity, Mnesia.select, withTable, hT,
        arrange_empty, Shadow.findOps_empty]
      rfl

/-- The transactions of one access, as all those of the stores are. -/
theorem transaction_implemented [Ets] [Loose] (o : Access Row) (db : Db Tab Row)
    {fates : List (Option Term)} (hf : Commits fates) :
    transaction o.activity ⟨db, fates⟩ =
      (some (executeOuter (.perform o .done) db).1,
        ⟨(executeOuter (.perform o .done) db).2, fates.tail⟩) := by
  cases db with
  | stopped =>
    match fates, hf with
    | [], _ => rfl
    | none :: rest, _ => rfl
  | running tables =>
    rw [executeOuter_one]
    cases hact : o.activity tables with
    | error reason =>
      match fates, hf with
      | [], _ => simp only [transaction, hact]
      | none :: rest, _ => simp only [transaction, hact, List.tail_cons]
    | ok res =>
      match fates, hf with
      | [], _ => simp only [transaction, hact]
      | none :: rest, _ => simp only [transaction, hact, List.tail_cons]

end One

end Erlang.Mnesia
