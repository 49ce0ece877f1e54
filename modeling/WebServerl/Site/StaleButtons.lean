import WebServerl.Site.Deletes
import WebServerl.Site.Eval

/-! What a delete button deletes.  A page of the guestbook keeps the ids that it was rendered with,
and a later comment gets such an id again when the table has shrunk to one row less than the id. -/

namespace WebServerl

open Erlang Erlang.Mnesia Machine

section Model

variable [Crypto] [Ets]

/-- The event `{delete, Id}` of the guestbook takes the row out of the table. -/
def ButtonDeletes (w : Site) (id : Term) (row : Comment) : Prop :=
  ∃ c now q, row ∈ w.comments ∧
    row ∉ (w.eval c now (Guestbook.event (.delete id) q)).2.comments

/-- After the labels `ls`, the delete button of the comment would delete no comment but that one,
and it only if it has been in the table all along. -/
def DeletesOwn (w₁ : World) (comment : Comment) (ls : List Label) : Prop :=
  ∀ w, run World.step w₁ ls = some w → ∀ row, ButtonDeletes w.site comment.id row →
    row = comment ∧ ∀ before w', before <+: ls → run World.step w₁ before = some w' →
      comment ∈ w'.site.comments

def Op.addsComment : Op → Bool
  | .call .dbComment (.addComment _ _) => true
  | _ => false

/-- No `add_comment` is handled in a table that has one row less than `id`, and no row `id`. -/
def notReissued (id : Term) : Condition where
  operation _ o w := o.addsComment → w.node.server .dbComment ≠ .down →
    ∀ T ∈ w.node.db.table? .dbComment, id = .int (T.size + 1) → id ∈ T.keys
  stop _ _ := False

instance (id : Term) : (notReissued id).Checkable where
  request _ _ _ _ := .isTrue trivial
  operation _ _ w := inferInstanceAs (Decidable (_ → _ → ∀ T ∈ w.node.db.table? .dbComment, _))
  respond _ _ _ := .isTrue trivial
  close _ _ _ := .isTrue trivial
  stop _ _ := .isFalse fun h => h

section Event

variable {w : Site} {id : Term} {row : Comment}

theorem ButtonDeletes.id_eq (h : ButtonDeletes w id row) : row ∈ w.comments ∧ row.id = id := by
  obtain ⟨c, now, q, hrow, hgone⟩ := h
  refine ⟨hrow, ?_⟩
  obtain ⟨T, hT, hmem⟩ := Site.mem_comments.mp hrow
  rw [Guestbook.event] at hgone
  by_cases hdown : w.node.server .dbComment = .down
  · rw [Site.eval_call_none (Node.call_down hdown _ now)] at hgone
    exact absurd hrow hgone
  · rw [Site.eval_call_some (Node.call_apply hdown hT (.remove id) now)] at hgone
    by_contra hne
    refine hgone (Site.mem_comments.mpr ⟨_, Db.table?_setTable_self hT _, ?_⟩)
    exact KeyedTable.mem_erase.mpr ⟨hmem, hne⟩

theorem ButtonDeletes.of_id_eq (hup : w.node.server .dbComment ≠ .down) (hrow : row ∈ w.comments)
    (hid : row.id = id) : ButtonDeletes w id row := by
  obtain ⟨T, hT, hmem⟩ := Site.mem_comments.mp hrow
  refine ⟨⟨0, 0, .post .guestbook (.delete id) (fun _ => .undefined), 0⟩, .noon,
    fun _ => .undefined, hrow, ?_⟩
  rw [Guestbook.event, Site.eval_call_some (Node.call_apply hup hT (.remove id) .noon)]
  intro hmem'
  obtain ⟨T', hT', hrow'⟩ := Site.mem_comments.mp hmem'
  have herase : T' = T.erase id := Option.some.inj (hT'.symm.trans (Db.table?_setTable_self hT _))
  subst herase
  exact (KeyedTable.mem_erase.mp hrow').2 hid

/-- A delete button in what `body/0` returns is that of a comment in the table. -/
theorem Guestbook.button_of_body {c : Ctx} {now : DateTime} {b : Body}
    (hbody : (w.eval c now Guestbook.body).1 = some b) (hid : .delete id ∈ postbacksOf b.elements) :
    ∃ comment ∈ w.comments, comment.id = id := by
  rw [body] at hbody
  cases hs : w.node.server .dbComment with
  | down =>
    rw [Site.eval_call_none (Node.call_down hs _ now)] at hbody
    cases hbody
  | up link =>
    cases hT : w.node.db.table? .dbComment with
    | none =>
      rw [Site.eval_call_none (Node.call_missing hs hT .dumpComments now)] at hbody
      cases hbody
    | some T =>
      have hup : w.node.server .dbComment ≠ .down := by simp [hs]
      rw [Site.eval_call_some (Node.call_apply hup hT .dumpComments now)] at hbody
      have hreturns : Program.Returns
          (fun b : Body => ∀ id, .delete id ∈ postbacksOf b.elements →
            ∃ comment ∈ Ets.order T.rows, comment.id = id)
          (do
            let view ← view (Ets.order T.rows)
            return ⟨validators, view.flatten ++ form⟩) := by
        refine (returns_view _).bind fun ess hess id hid => ?_
        rw [postbacksOf_append, List.mem_append] at hid
        exact hess id (hid.resolve_right delete_not_mem_form)
      obtain ⟨comment, hcomment, heq⟩ := hreturns.of_eval hbody id hid
      rw [Site.comments_of_table hT]
      exact ⟨comment, (Ets.perm _).mem_iff.mp hcomment, heq⟩

end Event

section Step

variable {w w' : World} {l : Label} {id : Term} {T : Table Comment}

omit [Crypto] in
/-- A row that a request brings into the table is that of an `add_comment`, under a free id. -/
theorem DbComment.new_of_answer {r : DbComment.Request} {now : DateTime} {row : Comment}
    (hrow : row ∈ (DbComment.answer r now T).2) (hnew : row ∉ T) :
    (∃ name message, r = .addComment name message) ∧ row.id = .int (T.size + 1) ∧
      row.id ∉ T.keys := by
  cases r with
  | addComment name message =>
    by_cases hk : .int (T.size + 1) ∈ T.keys
    · rw [answer_add_taken hk] at hrow
      exact absurd hrow hnew
    · rw [answer_add_new hk] at hrow
      obtain rfl := ((KeyedTable.mem_write_new hk).mp hrow).resolve_right hnew
      exact ⟨⟨name, message, rfl⟩, rfl, hk⟩
  | remove key => exact absurd (KeyedTable.mem_erase.mp hrow).1 hnew
  | dumpComments => exact absurd hrow hnew

omit [Crypto] [Ets] in
theorem not_stop_of_meets (hl : (notReissued id).Meets w l) (S : Store) (now : DateTime) :
    l ≠ .stop S now := by
  rintro rfl
  exact hl

/-- Where the id is not reissued, no row enters the table under it. -/
theorem comments_back (hT : ∃ T, w.site.node.db.table? .dbComment = some T)
    (hl : (notReissued id).Meets w l) (hstep : w.step l = some w') {row : Comment}
    (hid : row.id = id) (hrow : row ∈ w'.site.comments) : row ∈ w.site.comments := by
  obtain ⟨T, hT⟩ := hT
  rw [Site.comments_of_table hT]
  rcases World.step_table hstep (not_stop_of_meets hl) hT with hsame |
    ⟨p, now, c, r, next, rfl, -, htask, hup, hans⟩
  · rwa [Site.comments_of_table hsame] at hrow
  · rw [Site.comments_of_table hans] at hrow
    by_contra hnew
    obtain ⟨⟨name, message, rfl⟩, hsize, hfree⟩ := DbComment.new_of_answer hrow hnew
    rw [hid] at hsize hfree
    exact hfree (hl c _ next htask rfl hup T hT hsize)

/-- Where the id is reissued, a new row enters under it. -/
theorem comments_enter (hT : w.site.node.db.table? .dbComment = some T)
    (hl : ¬ (notReissued id).Meets w l) (hstep : w.step l = some w')
    (hstop : ∀ S now, l ≠ .stop S now) :
    ∃ row ∈ w'.site.comments, row.id = id ∧ w'.site.node.server .dbComment ≠ .down ∧
      ∀ old ∈ w.site.comments, old.id ≠ id := by
  cases l with
  | step p now =>
    simp only [Condition.Meets, notReissued, not_forall] at hl
    obtain ⟨c, o, next, htask, hadds, hup, T', hT', hsize, hfree⟩ := hl
    obtain rfl : T = T' := Option.some.inj (hT.symm.trans hT')
    obtain ⟨name, message, rfl⟩ :
        ∃ name message, o = .call .dbComment (.addComment name message) := by
      unfold Op.addsComment at hadds
      split at hadds
      · exact ⟨_, _, rfl⟩
      · cases hadds
    obtain rfl := World.step_operation htask hstep
    have hnew : (DbComment.newRow T.size name message now).id ∉ T.keys := by
      rwa [hsize] at hfree
    have hnode : (w.site.exec c (.call .dbComment (.addComment name message)) now).2.node =
        { w.site.node with
          db := w.site.node.db.setTable .dbComment
            (DbComment.answer (.addComment name message) now T).2 } :=
      Site.exec_answered hup hT c
    rw [DbComment.answer_add_new hnew] at hnode
    refine ⟨DbComment.newRow T.size name message now, ?_, hsize.symm, ?_, fun old hold hid => ?_⟩
    · refine Site.mem_comments.mpr
        ⟨T.write (DbComment.newRow T.size name message now), ?_,
          KeyedTable.mem_write.mpr (.inl rfl)⟩
      rw [hnode]
      exact Db.table?_setTable_self hT _
    · rw [hnode]
      exact hup
    · rw [Site.comments_of_table hT] at hold
      exact hfree (hid ▸ KeyedTable.key_mem_keys hold)
  | stop S now => exact absurd rfl (hstop S now)
  | respond p => exact absurd (fun _ _ _ => trivial) hl
  | _ => exact absurd trivial hl

end Step

/-- A button of a rendered page is that of a comment; and after every step of what follows it
deletes nothing but that comment, exactly if the comment's id is not reissued. -/
theorem delete_button_iff {w₁ : World} {c : Ctx} {now : DateTime} {b : Body} {id : Term}
    (hbody : (w₁.site.eval c now Guestbook.body).1 = some b)
    (hbutton : .delete id ∈ postbacksOf b.elements) :
    ∃ comment ∈ w₁.site.comments, comment.id = id ∧ ∀ ls w₂, run World.step w₁ ls = some w₂ →
      (∀ S now, .stop S now ∉ ls) →
      ((∀ before, before <+: ls → DeletesOwn w₁ comment before) ↔
        Always World.step (notReissued id).Meets w₁ ls) := by
  obtain ⟨comment, hcomment, rfl⟩ := Guestbook.button_of_body hbody hbutton
  refine ⟨comment, hcomment, rfl, fun ls w₂ hrun hstop => ?_⟩
  have htable : ∃ T, w₁.site.node.db.table? .dbComment = some T := by
    obtain ⟨T, hT, -⟩ := Site.mem_comments.mp hcomment
    exact ⟨T, hT⟩
  constructor
  · intro hown
    refine always_iff_forall_before.mpr ?_
    rintro before l after w rfl hbefore
    by_contra hl
    have hl' : ∀ S now, l ≠ .stop S now := fun S now h => hstop S now (by simp [h])
    obtain ⟨w', hstep⟩ : ∃ w', w.step l = some w' := by
      rw [run_append, hbefore, Option.bind_some, run_cons, Option.bind_eq_some_iff] at hrun
      obtain ⟨w', hstep, -⟩ := hrun
      exact ⟨w', hstep⟩
    obtain ⟨T, hT⟩ : ∃ T, w.site.node.db.table? .dbComment = some T :=
      World.table_exists htable hbefore fun S now h => hstop S now (by simp [h])
    obtain ⟨row, hrow, hid, hup, hfree⟩ := comments_enter hT hl hstep hl'
    have hdeletes : ButtonDeletes w'.site comment.id row := .of_id_eq hup hrow hid
    obtain ⟨-, hall⟩ := hown (before ++ [l]) ⟨after, by simp⟩ w'
      (run_concat_some.mpr ⟨w, hbefore, hstep⟩) row hdeletes
    exact hfree comment (hall before w (List.prefix_append _ _) hbefore) rfl
  · intro h before hbefore w hw row hdeletes
    obtain ⟨hrow, hid⟩ := hdeletes.id_eq
    obtain ⟨after, rfl⟩ := hbefore
    have hall := held_all_along
      (I := fun w : World => ∃ T, w.site.node.db.table? .dbComment = some T)
      (Q := fun w => row ∈ w.site.comments) htable
      (fun w l w' hT hl hstep => World.step_table_exists hT hstep (not_stop_of_meets hl))
      (fun w l w' hT hl hstep => comments_back hT hl hstep hid) hw (always_append.mp h).1 hrow
    have heq : row = comment :=
      Site.eq_of_id_eq (hall [] w₁ (List.nil_prefix) rfl) hcomment hid
    exact ⟨heq, heq ▸ hall⟩

end Model

/-! Two comments, and a page with their buttons that Bob has loaded.  A third comment leaves the
buttons alone; when the second has been deleted before, the third gets its id. -/

def twoComments : List Label :=
  [.request 3 3 (.post .guestbook .save annsForm), .step 3 .noon, .respond 3,
    .request 4 3 (.post .guestbook .save annsForm), .step 4 .noon, .respond 4]

def bobsPage : Ctx := ⟨5, 1, .load .guestbook, 1⟩

def thirdComment : List Label :=
  [.request 7 3 (.post .guestbook .save annsForm), .step 7 .noon]

def secondDeleted : List Label :=
  [.request 6 2 (.post .guestbook (.delete (.int 2)) annsForm), .step 6 .noon]

attribute [local instance] Crypto.sample Ets.asKept

theorem delete_button_thirdComment :
    ∃ w₁ ∈ run World.step .init (loadHome ++ bobSignsUp ++ twoComments),
      ∃ comment ∈ w₁.site.comments, comment.id = .int 2 ∧
        DeletesOwn w₁ comment thirdComment := by
  have hrun : ∃ w₁ ∈ run World.step .init (loadHome ++ bobSignsUp ++ twoComments),
      (∃ b ∈ (w₁.site.eval bobsPage .noon Guestbook.body).1,
        .delete (.int 2) ∈ postbacksOf b.elements) ∧ (run World.step w₁ thirdComment).isSome ∧
        Always World.step (notReissued (.int 2)).Meets w₁ thirdComment := by decide +kernel
  obtain ⟨w₁, hw₁, ⟨b, hbody, hbutton⟩, hsome, hC⟩ := hrun
  obtain ⟨w₂, hw₂⟩ := Option.isSome_iff_exists.mp hsome
  obtain ⟨comment, hcomment, hid, h⟩ := delete_button_iff hbody hbutton
  have hown := (h thirdComment w₂ hw₂ (by simp [thirdComment])).mpr hC
  exact ⟨w₁, hw₁, comment, hcomment, hid, hown _ (List.prefix_refl _)⟩

theorem newer_comment_deleted :
    ∃ w₁ ∈ run World.step .init (loadHome ++ bobSignsUp ++ twoComments),
      (∃ b ∈ (w₁.site.eval bobsPage .noon Guestbook.body).1,
        .delete (.int 2) ∈ postbacksOf b.elements) ∧
      ∀ comment ∈ w₁.site.comments, comment.id = .int 2 →
        ¬ DeletesOwn w₁ comment (secondDeleted ++ thirdComment) := by
  have hrun : ∃ w₁ ∈ run World.step .init (loadHome ++ bobSignsUp ++ twoComments),
      (∃ b ∈ (w₁.site.eval bobsPage .noon Guestbook.body).1,
        .delete (.int 2) ∈ postbacksOf b.elements) ∧
      (∃ w ∈ run World.step w₁ secondDeleted, ∀ row ∈ w.site.comments, row.id ≠ .int 2) ∧
      ∃ w ∈ run World.step w₁ (secondDeleted ++ thirdComment),
        w.site.node.server .dbComment ≠ .down ∧ ∃ row ∈ w.site.comments, row.id = .int 2 := by
    decide +kernel
  obtain ⟨w₁, hw₁, hbutton, ⟨w, hw, hfree⟩, w', hw', hup, row, hrow, hid⟩ := hrun
  refine ⟨w₁, hw₁, hbutton, fun comment _ hcomment hown => ?_⟩
  have hdeletes : ButtonDeletes w'.site comment.id row :=
    .of_id_eq hup hrow (hid.trans hcomment.symm)
  obtain ⟨-, hall⟩ := hown w' hw' row hdeletes
  exact hfree comment (hall secondDeleted w (List.prefix_append _ _) hw) hcomment

end WebServerl
