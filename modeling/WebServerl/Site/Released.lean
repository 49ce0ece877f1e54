import WebServerl.Erlang.TermOrder
import WebServerl.Site.Pages

/-! The two pages that list rows, with the `lists:sort/2` of the site's release: they are the pages
that sort by insertion. -/

namespace WebServerl

open Erlang

/-- What `guestbook:body/0` and `contact:body/0` do with the rows that they were given. -/
def releasedView {ρ : Type} (pretty : ρ → Code (List Element)) (id : ρ → Term) (rows : List ρ) :
    Code (List (List Element)) :=
  match rows with
  | [] => return []
  | [row] => [row].mapM pretty
  | _ =>
    match Lists.sort (fun r₁ r₂ => (id r₁).leq (id r₂)) rows with
    | some sorted => sorted.mapM pretty
    | none => .crash

/-- `lists:sort/2` by a term of each row is the stable sort. -/
theorem lists_sort_eq {ρ : Type} (id : ρ → Term) (rows : List ρ) :
    Lists.sort (fun r₁ r₂ => (id r₁).leq (id r₂)) rows =
      some (Erlang.sort (fun r₁ r₂ => (id r₁).leq (id r₂)) rows) := by
  obtain ⟨sorted, hsort, -, heq⟩ := Lists.sort_spec (fun r₁ r₂ => (id r₁).leq (id r₂)) rows
  rw [hsort, heq (Term.total_leq id)]

/-- The pages show the rows that they are given in the same order with either sort. -/
theorem released_views :
    (∀ comments, releasedView Guestbook.pretty Comment.id comments = Guestbook.view comments) ∧
      ∀ messages, releasedView Contact.pretty Message.id messages = Contact.view messages := by
  constructor
  · intro comments
    match comments with
    | [] => rfl
    | [c] => rfl
    | c :: c' :: comments =>
      simp only [releasedView, lists_sort_eq, Guestbook.view]
  · intro messages
    match messages with
    | [] => rfl
    | [m] => rfl
    | m :: m' :: messages =>
      simp only [releasedView, lists_sort_eq, Contact.view]

end WebServerl
