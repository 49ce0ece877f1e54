import WebServerl.Site.World

/-! The code of a page run to its end with nothing in between. -/

namespace WebServerl

open Erlang Erlang.Mnesia

variable [Crypto] [Ets] {α β : Type} {c : Ctx} {now : DateTime} {w : Site}

/-- The result, or `none` for a crash, and the site after it. -/
def Site.eval (c : Ctx) (now : DateTime) (g : Code α) (w : Site) : Option α × Site :=
  g.eval (fun o w => w.exec c o now) w

@[simp] theorem Site.eval_pure (a : α) : w.eval c now (pure a) = (some a, w) := rfl

@[simp] theorem Site.eval_crash : w.eval c now (.crash : Code α) = (none, w) := rfl

@[simp] theorem Site.eval_user (f : Term → Code β) :
    w.eval c now (WebServerl.user >>= f) = w.eval c now (f (w.user c.session)) := rfl

theorem Site.eval_bind_some {g : Code α} {a : α} {w' : Site} (h : w.eval c now g = (some a, w'))
    (f : α → Code β) : w.eval c now (g >>= f) = w'.eval c now (f a) :=
  Program.eval_bind_some h f

/-- What the header shows the admin changes nothing. -/
theorem Site.eval_adminPlace : ∃ l, w.eval c now adminPlace = (some l, w) := by
  rw [adminPlace, Site.eval_user]
  split
  · exact ⟨_, rfl⟩
  · exact ⟨_, rfl⟩

/-- A page of the common layout does what its body does. -/
theorem Site.eval_template {body : Code Body} {b : Body} {w' : Site}
    (h : w.eval c now body = (some b, w')) : ∃ r, w.eval c now (template body) = (some r, w') := by
  obtain ⟨l, hadmin⟩ := Site.eval_adminPlace (c := c) (w := w)
  refine ⟨.page { b with elements := l ++ header ++ b.elements ++ footer }, ?_⟩
  rw [template, Site.eval_bind_some hadmin, Site.eval_bind_some h]
  rfl

section Calls

variable {S : Store} {r : S.Request} {n : Node}

theorem Site.eval_call_some {reply : Reply S.Row}
    (h : w.node.call S (.request r) now = (some reply, n)) (f : Reply S.Row → Code β) :
    w.eval c now (WebServerl.call S r >>= f) = Site.eval c now (f reply) { w with node := n } := by
  have hexec : w.exec c (.call S r) now = (some reply, { w with node := n }) := by
    simp only [exec, h]
  show Program.eval _ (Program.perform (Op.call S r) _) w = _
  rw [Program.eval_perform, hexec]
  rfl

theorem Site.eval_call_none (h : w.node.call S (.request r) now = (none, n))
    (f : Reply S.Row → Code β) :
    w.eval c now (WebServerl.call S r >>= f) = (none, { w with node := n }) := by
  have hexec : w.exec c (.call S r) now = (none, { w with node := n }) := by
    simp only [exec, h]
  show Program.eval _ (Program.perform (Op.call S r) _) w = _
  rw [Program.eval_perform, hexec]
  rfl

end Calls

end WebServerl
