import WebServerl.Store.DbComment
import WebServerl.Store.Runs

/-! The ids of comments.  `add_comment` takes the number of rows plus one for the new id, which is
the id of a live row when an older comment has been removed in the meantime. -/

namespace WebServerl.DbComment

open Erlang Erlang.Mnesia Machine

def commentId (n : Nat) : Term := .int n

theorem commentId_injective : Function.Injective commentId := by
  intro m n h
  have hint := Term.int.inj h
  omega

section Runs

variable [Ets]

theorem computes : Computes .dbComment handleCall answer := fun _ _ hT => handleCall_apply hT

/-- An `add_comment` replies `ok` and adds one row, with its name and message and with an id that
was not in use. -/
def Lossless (db : Db) (i : Request × DateTime) : Prop :=
  ∀ name message, i.1 = .addComment name message →
    ∃ (T T' : Table Comment) (c : Comment), db.table? .dbComment = some T ∧
      (handle handleCall db i).1 = some (.reply .ok) ∧
      (handle handleCall db i).2.table? .dbComment = some T' ∧
      c.name = name ∧ c.message = message ∧ c.id ∉ T.keys ∧ ∀ r, r ∈ T' ↔ r = c ∨ r ∈ T

/-- An `add_comment` finds no row whose id is the number of rows plus one. -/
def NextIdUnused (db : Db) (i : Request × DateTime) : Prop :=
  ∀ name message, i.1 = .addComment name message →
    ∀ T, db.table? .dbComment = some T → .int (T.size + 1) ∉ T.keys

/-- `db_comment` keeps its table in every run. -/
theorem table_kept {db db' : Db} {T : Table Comment} (hT : db.table? .dbComment = some T)
    {is : List (Request × DateTime)} (hrun : run (advance (handle handleCall)) db is = some db') :
    ∃ T', db'.table? .dbComment = some T' := by
  obtain ⟨T', hT', -⟩ := computes.serve_induction (G := fun _ => True) (P := fun _ _ => True) hT
    trivial (fun _ _ _ _ _ => trivial) fun i (_ : i ∈ is) => trivial
  rw [run_advance, Option.some.injEq] at hrun
  exact ⟨T', hrun ▸ hT'⟩

theorem lossless_iff {db : Db} {T : Table Comment} (hT : db.table? .dbComment = some T)
    (i : Request × DateTime) : Lossless db i ↔ NextIdUnused db i := by
  obtain ⟨r, now⟩ := i
  constructor
  · intro h name message hr T₀ hT₀ hused
    obtain ⟨-, -, -, -, hok, -⟩ := h name message hr
    rw [hT, Option.some.injEq] at hT₀
    obtain rfl : r = _ := hr
    subst hT₀
    rw [computes.handle hT, answer_add_taken hused] at hok
    cases hok
  · intro h name message hr
    obtain rfl : r = _ := hr
    have hnew := h name message rfl T hT
    refine ⟨T, T.write (newRow T.size name message now), newRow T.size name message now, hT,
      ?_, ?_, rfl, rfl, hnew, fun c => KeyedTable.mem_write_new hnew⟩
    · rw [computes.handle hT, answer_add_new hnew]
    · rw [computes.handle hT, answer_add_new hnew]
      exact Db.table?_setTable_self hT _

/-- In a run from an empty table, every comment is stored exactly if none is added while the table
has a row under its number of rows plus one. -/
theorem comments_stored_iff {db : Db} (hT : db.table? .dbComment = some (KeyedTable.empty _))
    (is : List (Request × DateTime)) :
    Always (advance (handle handleCall)) Lossless db is ↔
      Always (advance (handle handleCall)) NextIdUnused db is := by
  refine always_congr (run_advance _ _ _) fun before db' i _ _ hrun _ => ?_
  obtain ⟨T', hT'⟩ := table_kept hT hrun
  exact lossless_iff hT' i

/-! As long as only the newest comment is ever removed, the ids are the numbers up to the size. -/

/-- A `remove` deletes the comment with the highest number, or none. -/
def RemovesNewest (db : Db) (i : Request × DateTime) : Prop :=
  ∀ key, i.1 = .remove key → ∀ T, db.table? .dbComment = some T →
    key = commentId T.size ∨ key ∉ T.keys

theorem answer_numbered {T : Table Comment} (h : T.Numbered commentId) (r : Request)
    (now : DateTime) (hr : ∀ key, r = .remove key → key = commentId T.size ∨ key ∉ T.keys) :
    (answer r now T).2.Numbered commentId := by
  cases r with
  | addComment name message =>
    rw [answer_add_new (h.next_not_mem commentId_injective)]
    exact h.write commentId_injective rfl
  | remove key =>
    rcases hr key rfl with rfl | hkey
    · exact h.erase_last commentId_injective
    · rw [answer, KeyedTable.erase_of_not_mem hkey]
      exact h
  | dumpComments => exact h

theorem nextIdUnused_of_removesNewest {db : Db}
    (hT : db.table? .dbComment = some (KeyedTable.empty _)) {is : List (Request × DateTime)}
    (h : Always (advance (handle handleCall)) RemovesNewest db is) :
    Always (advance (handle handleCall)) NextIdUnused db is := by
  refine always_iff_forall_before.mpr ?_
  rintro before i after db' rfl hrun name message - T hT'
  have hnum : ∃ T', db'.table? .dbComment = some T' ∧ T'.Numbered commentId := by
    refine run_induction (P := fun _ (db : Db) => ∃ T', db.table? .dbComment = some T' ∧
      T'.Numbered commentId) ⟨_, hT, .empty _⟩ (fun ls db₁ j db₂ _ hinv hj hstep => ?_) hrun
      (always_append.mp h).1
    obtain ⟨T₁, hT₁, hnum⟩ := hinv
    rw [advance, computes.handle hT₁, Option.some.injEq] at hstep
    subst hstep
    exact ⟨_, Db.table?_setTable_self hT₁ _,
      answer_numbered hnum _ _ fun key hkey => hj key hkey T₁ hT₁⟩
  obtain ⟨T', hT'', hnum⟩ := hnum
  rw [hT', Option.some.injEq] at hT''
  subst hT''
  exact hnum.next_not_mem commentId_injective

end Runs

/-! Two comments, the first of them removed, and a third: its id is that of the second. -/

def addTwo : List (Request × DateTime) :=
  [(.addComment (.str "Ann") (.str "hello"), .noon),
    (.addComment (.str "Bob") (.str "hi"), .noon)]

/-- When it is the second that is removed, the third has an id that is free. -/
theorem comments_stored_addTwo :
    let _ := Ets.asKept
    Always (advance (handle handleCall)) Lossless (Db.stopped.start.createTable .dbComment)
      (addTwo ++ [(.remove (.int 2), .noon),
        (.addComment (.str "Cid") (.str "hey"), .noon)]) := by
  intro _
  refine (comments_stored_iff rfl _).mpr (nextIdUnused_of_removesNewest rfl ?_)
  refine ⟨nofun, fun _ h₁ => ⟨nofun, fun _ h₂ => ⟨?_, fun _ _ => ⟨nofun, fun _ _ => trivial⟩⟩⟩⟩
  rintro key ⟨⟩ T hT
  cases h₁
  cases h₂
  cases hT
  exact .inl rfl

theorem comment_refused_after_remove :
    let _ := Ets.asKept
    ¬ ∀ is, Always (advance (handle handleCall)) Lossless
      (Db.stopped.start.createTable .dbComment) is := by
  intro _ h
  obtain ⟨-, -, -, -, hok, -⟩ := always_iff_forall_before.mp
    (h (addTwo ++ [(.remove (.int 1), .noon),
      (.addComment (.str "Cid") (.str "hey"), .noon)]))
    (addTwo ++ [(.remove (.int 1), .noon)]) _ [] _ rfl rfl _ _ rfl
  cases hok

end WebServerl.DbComment
