import WebServerl.Site.Deletes
import WebServerl.Site.Requests
import WebServerl.Site.Views
import WebServerl.Store.SavedComments

/-! The comments of the guestbook, as `body/0` shows them: each comment of the table once, in the
order of the ids, which need not be the order in which they were written. -/

namespace WebServerl

open Erlang Erlang.Mnesia Machine DbComment

section Model

variable [Crypto] [Ets] {ls : List Label} {w : World}

/-- The names in the forms that the guestbook has been sent are strings. -/
def NamesAreStrings (ls : List Label) : Prop :=
  ∀ p s q, .request p s (.post .guestbook .save q) ∈ ls → (q "name").IsString

omit [Crypto] [Ets] in
theorem NamesAreStrings.append {ls' : List Label} (h : NamesAreStrings ls)
    (h' : NamesAreStrings ls') : NamesAreStrings (ls ++ ls') := by
  intro p s q hmem
  rcases List.mem_append.mp hmem with hmem | hmem
  · exact h p s q hmem
  · exact h' p s q hmem

/-- The table of a run, as it follows from what `db_comment` has handled. -/
theorem comments_tableAfter (hrun : run World.step .init ls = some w)
    (hstop : ∀ S now, .stop S now ∉ ls) :
    w.site.table .dbComment = tableAfter (World.init.requests .dbComment ls) :=
  World.table_of_requests hrun hstop .dbComment

theorem comments_intKeys (hrun : run World.step .init ls = some w)
    (hstop : ∀ S now, .stop S now ∉ ls) : IntKeys (w.site.table .dbComment) := by
  rw [comments_tableAfter hrun hstop]
  exact intKeys_tableAfter _

theorem comments_strings (hrun : run World.step .init ls = some w)
    (hstop : ∀ S now, .stop S now ∉ ls) (hstr : NamesAreStrings ls) :
    ∀ row ∈ w.site.table .dbComment, row.name.IsString ∧ row.time.IsString := by
  intro row hrow
  rw [comments_tableAfter hrun hstop] at hrow
  obtain ⟨before, name, message, now, after, his, -, rfl, -⟩ := mem_tableAfter.mp hrow
  have hi : (.addComment name message, now) ∈ World.init.requests .dbComment ls := by
    rw [his]
    simp
  obtain ⟨p, s, job, hmem, hjob⟩ := World.performed hrun hi
  obtain ⟨q, rfl, rfl, -⟩ := Job.performs_addComment hjob
  exact ⟨hstr p s q hmem, Term.isString_str _⟩

/-- What a guestbook with such a table shows. -/
theorem shown_of_table {v : Site} {T : Table Comment}
    (hstr : ∀ row ∈ T, row.name.IsString ∧ row.time.IsString)
    (hup : v.node.server .dbComment ≠ .down) (hT : v.node.db.table? .dbComment = some T) (c : Ctx)
    (now : DateTime) : (v.eval c now Guestbook.body).1 =
      some (Guestbook.shown (v.user c.session) (listing T)) :=
  congrArg Prod.fst (Guestbook.eval_body hup hT hstr)

/-- What it shows after a delete event. -/
theorem shown_after_delete {v : Site} {T : Table Comment} (hint : IntKeys T)
    (hstr : ∀ row ∈ T, row.name.IsString ∧ row.time.IsString)
    (hup : v.node.server .dbComment ≠ .down) (hT : v.node.db.table? .dbComment = some T)
    {comment : Comment} (hmem : comment ∈ T) (c c' : Ctx) (now now' : DateTime) (q : Params) :
    ((v.eval c now (Guestbook.event (.delete comment.id) q)).2.eval c' now' Guestbook.body).1 =
      some (Guestbook.shown (v.user c'.session) ((listing T).filter (· ≠ comment))) := by
  have hlist : (listing T).filter (· ≠ comment) = listing (T.erase comment.id) := by
    rw [listing_erase hint]
    refine List.filter_congr fun row hrow => ?_
    have hiff : row = comment ↔ Record.key row = comment.id :=
      ⟨fun h => h ▸ rfl, KeyedTable.eq_of_key_eq (mem_listing.mp hrow) hmem⟩
    simp only [ne_eq, hiff]
  rw [Guestbook.event, Site.eval_call_some (Node.call_apply hup hT (.remove comment.id) now),
    hlist]
  refine shown_of_table (fun row hrow => hstr row (KeyedTable.mem_erase.mp hrow).1) ?_ ?_ c' now'
  · exact hup
  · exact Db.table?_setTable_self hT _

/-- Every table that a run can leave is shown as one list, the same to all sessions: its comments,
each once, in ascending order of their ids.  After the delete event of one of them the list is the
same without it. -/
theorem guestbook_shows_table (hrun : run World.step .init ls = some w)
    (hstop : ∀ S now, .stop S now ∉ ls) (hstr : NamesAreStrings ls) :
    ∃ comments : List Comment, comments.Perm (w.site.table .dbComment).rows ∧
      comments.Pairwise Below ∧
      ∀ v : Site, v.node.server .dbComment ≠ .down →
        v.node.db.table? .dbComment = some (w.site.table .dbComment) →
        (∀ c now, (v.eval c now Guestbook.body).1 =
          some (Guestbook.shown (v.user c.session) comments)) ∧
        ∀ comment ∈ comments, ∀ c c' now now' q,
          ((v.eval c now (Guestbook.event (.delete comment.id) q)).2.eval c' now'
            Guestbook.body).1 =
            some (Guestbook.shown (v.user c'.session) (comments.filter (· ≠ comment))) := by
  have hint := comments_intKeys hrun hstop
  have hstrings := comments_strings hrun hstop hstr
  refine ⟨listing (w.site.table .dbComment), listing_perm _, listing_ascending hint,
    fun v hup hT => ⟨shown_of_table hstrings hup hT, fun comment hmem c c' now now' q => ?_⟩⟩
  exact shown_after_delete hint hstrings hup hT (mem_listing.mp hmem) c c' now now' q

/-- The guestbook shows every session the comments in the order in which they were saved. -/
def ShowsChronologically (ls : List Label) (w : World) : Prop :=
  w.site.node.server .dbComment ≠ .down →
    (∀ c now, (w.site.eval c now Guestbook.body).1 =
      some (Guestbook.shown (w.site.user c.session) (listing (w.site.table .dbComment)))) ∧
    Chronological (World.init.requests .dbComment ls) (listing (w.site.table .dbComment))

/-- In every state of a run the comments are shown in the order in which they were saved, exactly
if every accepted save gets an id above those of the comments in the table. -/
theorem guestbook_chronological_iff (hrun : run World.step .init ls = some w)
    (hstop : ∀ S now, .stop S now ∉ ls) (hstr : NamesAreStrings ls) :
    (∀ before w', before <+: ls → run World.step .init before = some w' →
      ShowsChronologically before w') ↔
      Always (advance Store.dbComment.ask) NewestHighest (KeyedTable.empty _)
        (World.init.requests .dbComment ls) := by
  have hquiet {before : List Label} (h : before <+: ls) : ∀ S now, .stop S now ∉ before :=
    fun S now hmem => hstop S now (h.subset hmem)
  rw [← chronological_iff]
  constructor
  · rintro h is ⟨rest, his⟩
    rcases List.eq_nil_or_concat is with rfl | ⟨is, i, rfl⟩
    · intro c₁ c₂ before₁ before₂ h₁
      exact absurd h₁.lt (Nat.not_lt_zero _)
    · rw [List.concat_eq_append] at his ⊢
      rw [List.append_assoc, List.singleton_append] at his
      obtain ⟨before, l, after, w', rfl, hbefore, hhandled, rfl⟩ := observe_entry his.symm
      have hprefix : before ++ [l] <+: before ++ l :: after := ⟨after, by simp⟩
      rw [run_append, hbefore, Option.bind_some, run_cons, Option.bind_eq_some_iff] at hrun
      obtain ⟨w₂, hstep, -⟩ := hrun
      have hafter : run World.step .init (before ++ [l]) = some w₂ :=
        run_concat_some.mpr ⟨w', hbefore, hstep⟩
      have hreqs : World.init.requests .dbComment (before ++ [l]) =
          World.init.requests .dbComment before ++ [i] := by
        rw [World.requests, observe_concat hbefore hstep, hhandled]
        rfl
      have hready := World.ready hbefore fun S now hmem => hstop S now (by simp [hmem])
      obtain ⟨-, hchron⟩ := h _ w₂ hprefix hafter (World.handled_up hready hhandled hstep)
      rw [comments_tableAfter hafter (hquiet hprefix), hreqs] at hchron
      exact hchron
  · intro h before w' hbefore hrun' hup
    have htable := comments_tableAfter hrun' (hquiet hbefore)
    have hstrings := comments_strings hrun' (hquiet hbefore)
      fun p s q hmem => hstr p s q (hbefore.subset hmem)
    refine ⟨shown_of_table hstrings hup (Site.table_some (World.ready hrun' (hquiet hbefore)) hup),
      ?_⟩
    rw [htable]
    obtain ⟨after, rfl⟩ := hbefore
    refine h _ ⟨w'.requests .dbComment after, ?_⟩
    exact (observe_append hrun' after).symm

end Model

/-! Three comments are written, the admin deletes the first two of them, and a fourth is written: it
has the id 2 and is shown above the third. -/

def commentForm (name message : String) : Params := fun field =>
  if field = "name" then .str name else if field = "message" then .str message else .undefined

/-- Session 3 writes a comment. -/
def writesComment (p : Pid) (name message : String) : List Label :=
  [.request p 3 (.post .guestbook .save (commentForm name message)), .step p .noon, .respond p]

theorem namesAreStrings_writesComment (p : Pid) (name message : String) :
    NamesAreStrings (writesComment p name message) := by
  intro p' s q hmem
  simp only [writesComment, List.mem_cons, Label.request.injEq, Job.post.injEq, reduceCtorEq,
    true_and, List.not_mem_nil, or_false] at hmem
  obtain ⟨-, -, rfl⟩ := hmem
  exact Term.isString_str name

/-- Session 1 deletes a comment. -/
def deletesComment (p : Pid) (id : Int) : List Label :=
  [.request p 1 (.post .guestbook (.delete (.int id)) (commentForm "" "")), .step p .noon,
    .respond p]

def threeWritten : List Label :=
  [.request 3 3 (.load .guestbook), .step 3 .noon, .step 3 .noon, .respond 3] ++
    writesComment 4 "Ann" "hello" ++ writesComment 5 "Bob" "hi" ++ writesComment 6 "Cid" "hey"

def firstTwoDeleted : List Label :=
  [.request 7 1 (.load .guestbook), .step 7 .noon, .step 7 .noon, .step 7 .noon, .step 7 .noon,
    .step 7 .noon, .respond 7] ++ deletesComment 8 1 ++ deletesComment 9 2

def fourthWritten : List Label := writesComment 10 "Dan" "servus"

/-- The whole run. -/
def writtenAndDeleted : List Label :=
  loadHome ++ adminLogsIn ++ threeWritten ++ firstTwoDeleted ++ fourthWritten

theorem namesAreStrings_threeWritten : NamesAreStrings (loadHome ++ threeWritten) := by
  have hload : NamesAreStrings (loadHome ++
      [.request 3 3 (.load .guestbook), .step 3 .noon, .step 3 .noon, .respond 3]) := by
    simp [NamesAreStrings, loadHome]
  have h := ((hload.append (namesAreStrings_writesComment 4 "Ann" "hello")).append
    (namesAreStrings_writesComment 5 "Bob" "hi")).append
    (namesAreStrings_writesComment 6 "Cid" "hey")
  simpa only [threeWritten, List.append_assoc] using h

attribute [local instance] Crypto.sample Ets.asKept

theorem guestbook_shows_table_three :
    ∃ w ∈ run World.step .init (loadHome ++ threeWritten), ∃ comments : List Comment,
      comments.Pairwise Below ∧ comments.length = 3 ∧
      ∀ c now, (w.site.eval c now Guestbook.body).1 =
        some (Guestbook.shown (w.site.user c.session) comments) := by
  have hrun : ∃ w ∈ run World.step .init (loadHome ++ threeWritten),
      w.site.node.server .dbComment ≠ .down ∧ (w.site.table .dbComment).rows.length = 3 := by
    decide +kernel
  obtain ⟨w, hw, hup, hthree⟩ := hrun
  have hstop : ∀ S now, Label.stop S now ∉ loadHome ++ threeWritten := by
    simp [loadHome, threeWritten, writesComment]
  obtain ⟨comments, hperm, hasc, hshown⟩ :=
    guestbook_shows_table hw hstop namesAreStrings_threeWritten
  refine ⟨w, hw, comments, hasc, hperm.length_eq.trans hthree, ?_⟩
  exact (hshown w.site hup (Site.table_some (World.ready hw hstop) hup)).1

theorem guestbook_chronological_three :
    ∃ w ∈ run World.step .init (loadHome ++ threeWritten),
      ShowsChronologically (loadHome ++ threeWritten) w := by
  have hC : Always (advance Store.dbComment.ask) NewestHighest (KeyedTable.empty _)
      (World.init.requests .dbComment (loadHome ++ threeWritten)) := by
    refine ⟨nofun, fun T hT => ?_⟩
    cases hT
    refine ⟨fun _ _ _ _ m hm => absurd hm List.not_mem_nil, fun T hT => ?_⟩
    cases hT
    refine ⟨fun _ _ _ _ m hm => ?_, fun T hT => ?_⟩
    · have hm' : Term.int m ∈ [Term.int 1] := hm
      show m ≤ 2
      simp at hm'
      omega
    cases hT
    refine ⟨fun _ _ _ _ m hm => ?_, fun _ _ => trivial⟩
    have hm' : Term.int m ∈ [Term.int 2, Term.int 1] := hm
    show m ≤ 3
    simp at hm'
    omega
  have hstop : ∀ S now, Label.stop S now ∉ loadHome ++ threeWritten := by
    simp [loadHome, threeWritten, writesComment]
  obtain ⟨w, hw⟩ : ∃ w, run World.step .init (loadHome ++ threeWritten) = some w := ⟨_, rfl⟩
  have hall := (guestbook_chronological_iff hw hstop namesAreStrings_threeWritten).mpr hC
  exact ⟨w, hw, hall _ w (List.prefix_refl _) hw⟩

theorem newer_comment_above :
    ∃ w ∈ run World.step .init writtenAndDeleted,
      Always World.step browser.Meets .init writtenAndDeleted ∧
      ¬ ShowsChronologically writtenAndDeleted w := by
  have hrun : ∃ w ∈ run World.step .init writtenAndDeleted,
      w.site.node.server .dbComment ≠ .down ∧
        (listing (w.site.table .dbComment)).map Comment.id = [.int 2, .int 3] := by decide +kernel
  obtain ⟨w, hw, hup, hids⟩ := hrun
  refine ⟨w, hw, by decide +kernel, fun h => ?_⟩
  obtain ⟨-, hchron⟩ := h hup
  have hcid : SavedAfter [(.dumpComments, .noon), (.addComment (.str "Ann") (.str "hello"), .noon),
      (.addComment (.str "Bob") (.str "hi"), .noon)]
      (World.init.requests .dbComment writtenAndDeleted)
      ⟨.int 3, .str "Cid", .str "hey", .str "1.5.2018"⟩ :=
    ⟨.str "Cid", .str "hey", .noon, [(.dumpComments, .noon), (.remove (.int 1), .noon),
      (.remove (.int 2), .noon), (.addComment (.str "Dan") (.str "servus"), .noon)], rfl,
      by decide +kernel, by decide +kernel, by simp⟩
  have hdan : SavedAfter [(.dumpComments, .noon), (.addComment (.str "Ann") (.str "hello"), .noon),
      (.addComment (.str "Bob") (.str "hi"), .noon), (.addComment (.str "Cid") (.str "hey"), .noon),
      (.dumpComments, .noon), (.remove (.int 1), .noon), (.remove (.int 2), .noon)]
      (World.init.requests .dbComment writtenAndDeleted)
      ⟨.int 2, .str "Dan", .str "servus", .str "1.5.2018"⟩ :=
    ⟨.str "Dan", .str "servus", .noon, [], rfl, by decide +kernel, by decide +kernel, by simp⟩
  have hsub := (hchron _ _ _ _ hcid hdan (by simp)).map Comment.id
  rw [hids] at hsub
  exact absurd hsub (by decide)

end WebServerl
