import WebServerl.Site.Pages

/-! The delete buttons of the guestbook: where they can be, and whose ids they carry. -/

namespace WebServerl

open Erlang

variable {id : Term}

theorem delete_not_mem_header : .delete id ∉ postbacksOf header := by
  simp [header, dot, postbacksOf, Element.postbacks]

theorem delete_not_mem_footer : .delete id ∉ postbacksOf footer := by
  simp [footer, postbacksOf, Element.postbacks]

theorem delete_not_mem_form : .delete id ∉ postbacksOf Guestbook.form := by
  simp [Guestbook.form, postbacksOf, Element.postbacks]

/-- A page of the template has the buttons of its `admin_place/0` and of its `body/0`. -/
theorem delete_mem_template {admin : List Element} {body : Body} :
    .delete id ∈ Response.postbacks
      (.page { body with elements := admin ++ header ++ body.elements ++ footer }) ↔
      .delete id ∈ postbacksOf admin ∨ .delete id ∈ postbacksOf body.elements := by
  simp [Response.postbacks, postbacksOf_append, delete_not_mem_header, delete_not_mem_footer]

theorem returns_adminPlace :
    adminPlace.Returns fun es => ∀ id, .delete id ∉ postbacksOf es := by
  refine (Program.Returns.any user).bind fun u _ => ?_
  split
  · intro id
    simp [postbacksOf, Element.postbacks]
  · intro id
    simp [postbacksOf]

theorem returns_navigate (pb : Postback) :
    (navigate pb).Returns fun l => ∀ id, .delete id ∉ l.flatMap Action.postbacks := by
  cases pb with
  | logout =>
    intro _ id
    simp [Action.postbacks]
  | save | delete _ | login | done | doneOk | confirmOk => trivial
  | _ =>
    intro id
    simp [Action.postbacks]

namespace Guestbook

theorem returns_pretty (c : Comment) :
    (pretty c).Returns fun es => ∀ id, .delete id ∈ postbacksOf es → id = c.id := by
  refine (Program.Returns.any user).bind fun u _ => ?_
  split
  · refine (Program.Returns.any (headline c.name c.time)).bind fun head _ id => ?_
    simp [postbacksOf, Element.postbacks]
  · refine (Program.Returns.any (headline c.name c.time)).bind fun head _ id => ?_
    simp [postbacksOf, Element.postbacks]

/-- The buttons of the comments. -/
theorem returns_view (comments : List Comment) :
    (view comments).Returns fun ess =>
      ∀ id, .delete id ∈ postbacksOf ess.flatten → ∃ c ∈ comments, c.id = id := by
  have hlist : ∀ l : List Comment, (∀ c ∈ l, c ∈ comments) → (l.mapM pretty).Returns fun ess =>
      ∀ id, .delete id ∈ postbacksOf ess.flatten → ∃ c ∈ comments, c.id = id := by
    intro l hl
    have hgood : ∀ c ∈ l, (pretty c).Returns fun es =>
        ∀ id, .delete id ∈ postbacksOf es → ∃ c ∈ comments, c.id = id :=
      fun c hc => (returns_pretty c).mono fun es h id hid => ⟨c, hl c hc, (h id hid).symm⟩
    refine (Program.Returns.mapM hgood).mono fun ess h id hid => ?_
    obtain ⟨es, hes, hmem⟩ := (mem_postbacksOf_flatten ess).mp hid
    exact h es hes id hmem
  unfold view
  split
  · intro id
    simp [postbacksOf]
  · exact hlist _ fun c hc => hc
  · exact hlist _ fun c hc => (List.mem_insertionSort _).mp hc

theorem returns_event (pb : Postback) (q : Params) :
    (event pb q).Returns fun l => ∀ id, .delete id ∉ l.flatMap Action.postbacks := by
  by_cases hsave : pb = .save
  · subst hsave
    refine (Program.Returns.any (call .dbComment (.addComment (q "name") (q "message")))).bind
      fun _ _ id => ?_
    simp [Action.postbacks]
  · by_cases hdelete : ∃ id, pb = .delete id
    · obtain ⟨id, rfl⟩ := hdelete
      refine (Program.Returns.any (call .dbComment (.remove id))).bind fun _ _ id => ?_
      simp [Action.postbacks]
    · have heq : event pb q = navigate pb := by
        cases pb with
        | save => exact absurd rfl hsave
        | delete id => exact absurd ⟨id, rfl⟩ hdelete
        | _ => rfl
      rw [heq]
      exact returns_navigate pb

end Guestbook

end WebServerl
