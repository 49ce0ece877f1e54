import WebServerl.Store.Family

/-! What a store's `ok` is worth when transactions may be aborted.  The existence check of an
insertion matches on `{atomic, _}` and crashes on an aborted read; the results of the write and of
the delete are not looked at. -/

namespace WebServerl

open Erlang Erlang.Mnesia

/-- A handler that replies `ok` has stored its row and removed its key, and any other end of it
leaves the table `T` as it was. -/
structure OkMeansDone (S : Store) (T : Table S.Row) (row? : Option S.Row) (key? : Option Term)
    (out : Option (Callback S.Row) × Env) : Prop where
  done : out.1 = some (.reply .ok) → ∃ T', out.2.db.table? S = some T' ∧
    (∀ row, row? = some row → row ∈ T') ∧ ∀ key, key? = some key → key ∉ T'.keys
  unchanged : out.1 ≠ some (.reply .ok) → out.2.db.table? S = some T

section Handlers

variable {S : Store} {db : Db} {T : Table S.Row}

theorem insertNew_aborted (db : Db) (row : S.Row) {reason : Term} {fates : List (Option Term)} :
    insertNew S row ⟨db, some reason :: fates⟩ = (none, ⟨db, fates⟩) :=
  Handler.bind_of_some (transaction_aborted _ _ _ _) _

/-- The read commits and finds nothing, the write is aborted, and the reply is `ok`. -/
theorem insertNew_write_aborted (hT : db.table? S = some T) {fates : List (Option Term)}
    (hf : Commits fates) (hf' : ¬ Commits fates.tail) {row : S.Row}
    (hk : Record.key row ∉ T.keys) :
    ∃ fates', insertNew S row ⟨db, fates⟩ = (some (.reply .ok), ⟨db, fates'⟩) := by
  obtain ⟨reason, rest, htail⟩ := exists_of_not_commits hf'
  refine ⟨rest, ?_⟩
  rw [insertNew, getRow, Handler.bind_of_some (transaction_read hT hf _),
    KeyedTable.read_eq_nil.mpr hk, htail]
  exact Handler.bind_of_some (transaction_aborted _ _ _ _) _

theorem insertNew_okMeansDone_iff (hT : db.table? S = some T) (row : S.Row)
    (fates : List (Option Term)) :
    OkMeansDone S T (some row) none (insertNew S row ⟨db, fates⟩) ↔
      (Record.key row ∉ T.keys → Commits fates → Commits fates.tail) := by
  by_cases hf : Commits fates
  · by_cases hk : Record.key row ∈ T.keys
    · rw [insertNew_taken hT hf hk]
      exact ⟨fun _ hnew => absurd hk hnew, fun _ => ⟨nofun, fun _ => hT⟩⟩
    · by_cases hf' : Commits fates.tail
      · rw [insertNew_new hT hf hf' hk]
        refine ⟨fun _ _ _ => hf', fun _ => ⟨fun _ => ?_, fun hne => absurd rfl hne⟩⟩
        refine ⟨T.write row, Db.table?_setTable_self hT _, ?_, nofun⟩
        rintro row' ⟨⟩
        exact KeyedTable.mem_write.mpr (.inl rfl)
      · obtain ⟨fates', hout⟩ := insertNew_write_aborted hT hf hf' hk
        rw [hout]
        constructor
        · intro h
          obtain ⟨T', hT', hrow, -⟩ := h.done rfl
          have heq : T = T' := Option.some.inj (hT.symm.trans hT')
          exact absurd (KeyedTable.key_mem_keys (heq ▸ hrow row rfl)) hk
        · intro h
          exact absurd (h hk hf) hf'
  · obtain ⟨reason, rest, rfl⟩ := exists_of_not_commits hf
    rw [insertNew_aborted]
    exact ⟨fun _ _ h => absurd h hf, fun _ => ⟨nofun, fun _ => hT⟩⟩

theorem removeKey_okMeansDone_iff (hT : db.table? S = some T) (key : Term)
    (fates : List (Option Term)) :
    OkMeansDone S T none (some key) (removeKey S key ⟨db, fates⟩) ↔
      (key ∈ T.keys → Commits fates) := by
  by_cases hf : Commits fates
  · rw [removeKey_apply hT hf]
    refine ⟨fun _ _ => hf, fun _ => ⟨fun _ => ?_, fun hne => absurd rfl hne⟩⟩
    refine ⟨T.erase key, Db.table?_setTable_self hT _, nofun, ?_⟩
    rintro key' ⟨⟩ hkey
    exact (KeyedTable.mem_keys_erase.mp hkey).2 rfl
  · obtain ⟨reason, rest, rfl⟩ := exists_of_not_commits hf
    have hout : removeKey S key ⟨db, some reason :: rest⟩ = (some (.reply .ok), ⟨db, rest⟩) :=
      Handler.bind_of_some (transaction_aborted _ _ _ _) _
    rw [hout]
    constructor
    · intro h hmem
      obtain ⟨T', hT', -, hkey⟩ := h.done rfl
      have heq : T = T' := Option.some.inj (hT.symm.trans hT')
      exact absurd (heq ▸ hmem) (hkey key rfl)
    · intro h
      refine ⟨fun _ => ⟨T, hT, nofun, ?_⟩, fun hne => absurd rfl hne⟩
      rintro key' ⟨⟩ hmem
      exact absurd (h hmem) hf

end Handlers

/-- For every table and every request, `ok` means done exactly if the write commits whenever the
existence check commits and finds no row, and the delete commits whenever the key is there. -/
theorem ok_means_done_iff [Crypto] [Ets] {S : Store} {db : Db} {T : Table S.Row}
    (hT : db.table? S = some T) (r : S.Request) (now : DateTime) (fates : List (Option Term)) :
    OkMeansDone S T (S.newRow? r now T) (S.removedKey? r)
        (S.handleCall (.request r) now ⟨db, fates⟩) ↔
      (∀ row, S.newRow? r now T = some row → Record.key row ∉ T.keys → Commits fates →
        Commits fates.tail) ∧
      ∀ key, S.removedKey? r = some key → key ∈ T.keys → Commits fates := by
  rcases S.handleCall_cases hT r now with
    ⟨row, hrow, hkey, hcall⟩ | ⟨key, hrow, hkey, hcall⟩ | ⟨hrow, hkey, hquery⟩
  · rw [hcall, hrow, hkey, insertNew_okMeansDone_iff hT]
    simp
  · rw [hcall, hrow, hkey, removeKey_okMeansDone_iff hT]
    simp
  · obtain ⟨hdb, hok⟩ := hquery ⟨db, fates⟩
    have hkept : (S.handleCall (.request r) now ⟨db, fates⟩).2.db.table? S = some T := by
      rw [hdb]
      exact hT
    rw [hrow, hkey]
    exact ⟨fun _ => ⟨nofun, nofun⟩, fun _ => ⟨fun h => absurd h hok, fun _ => hkept⟩⟩

/-! A comment is added to the empty table, and the transaction of the write is aborted. -/

def greeting : DbComment.Request := .addComment (.str "Ann") (.str "hello")

theorem ok_means_done_greeting :
    let _ := Crypto.sample
    let _ := Ets.asKept
    OkMeansDone .dbComment (KeyedTable.empty _)
      (some (DbComment.newRow 0 (.str "Ann") (.str "hello") .noon)) none
      (Store.dbComment.handleCall (.request greeting) .noon
        ⟨Db.stopped.start.createTable .dbComment, [none, none]⟩) := by
  intro _ _
  exact (ok_means_done_iff (S := .dbComment) rfl greeting .noon [none, none]).mpr
    ⟨fun _ _ _ _ => rfl, fun _ _ _ => rfl⟩

theorem ok_without_row :
    let _ := Crypto.sample
    let _ := Ets.asKept
    ¬ OkMeansDone .dbComment (KeyedTable.empty _)
      (some (DbComment.newRow 0 (.str "Ann") (.str "hello") .noon)) none
      (Store.dbComment.handleCall (.request greeting) .noon
        ⟨Db.stopped.start.createTable .dbComment, [none, some (.atom "no_disk_space")]⟩) := by
  intro _ _ h
  obtain ⟨T', hT', hrow, -⟩ := h.done rfl
  have hempty : KeyedTable.empty _ = T' := Option.some.inj hT'
  exact KeyedTable.not_mem_empty _ (hempty ▸ hrow _ rfl)

end WebServerl
