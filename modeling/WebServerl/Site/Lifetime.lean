import WebServerl.Site.Contract
import WebServerl.Site.Uses

/-! How long the stores live.  `index:body/0` links them to the process of its request, and no
supervisor holds them: a store dies with that process when it ends with an error, and of any call
that finds Mnesia without its table. -/

namespace WebServerl

open Erlang Erlang.Mnesia Machine

/-- The store is up, or somebody has stopped it. -/
def UpOrStopped (σ : Past) (S : Store) : Prop :=
  σ.2.node.server S ≠ .down ∨ ∃ now, .stop S now ∈ σ.1

/-- The process `p` has come to the end of a load of the home page. -/
def HomeLoaded (w : World) (p : Pid) : Prop :=
  w.site.node.live p = true ∧ ∃ c r, w.task p = some (c, .done r) ∧ c.job = .load .index

/-- The store of a call that is not a `remove`. -/
def Op.called? : Op → Option Store
  | .call S r => if (S.removedKey? r).isSome then none else some S
  | _ => none

/-- No process ends with an error while a store is linked to it, and no call reaches a store whose
table is gone. -/
def keepsStores : Condition where
  operation _ o w := ∀ S ∈ o.called?, w.node.server S ≠ .down → (w.node.db.table? S).isSome
  close p normal w := normal = false → ∀ S, w.node.server S ≠ .up (some p)

instance : keepsStores.Checkable where
  request _ _ _ _ := .isTrue trivial
  operation _ o _ := inferInstanceAs (Decidable (∀ S ∈ o.called?, _ → _))
  respond _ _ _ := .isTrue trivial
  close _ _ _ := inferInstanceAs (Decidable (_ → ∀ _ : Store, _))
  stop _ _ := .isTrue trivial

/-- Nobody but `stop/0` takes a store down; and once the home page has been loaded by the process
`p`, every store has been started. -/
def lifetime (p : Pid) : Contract where
  condition := keepsStores
  inv _ := True
  le σ σ' := ∀ S, UpOrStopped σ S → UpOrStopped σ' S
  allowed _ _ _ := True
  post c _ σ := c.pid = p → c.job = .load .index → ∀ S, UpOrStopped σ S
  le_refl _ _ := id
  le_trans h h' S := h' S ∘ h S

theorem UpOrStopped.of_server {σ σ' : Past} {S : Store} (h : UpOrStopped σ S)
    (hserver : σ.2.node.server S ≠ .down → σ'.2.node.server S ≠ .down) (htr : σ.1 ⊆ σ'.1) :
    UpOrStopped σ' S := by
  rcases h with hup | ⟨now, hstop⟩
  · exact .inl (hserver hup)
  · exact .inr ⟨now, htr hstop⟩

theorem Node.exit_up {n : Node} {p : Pid} {normal : Bool} {S : Store}
    (hlink : normal = false → n.server S ≠ .up (some p)) (h : n.server S ≠ .down) :
    (n.exit p normal).server S ≠ .down := by
  by_cases hp : n.server S = .up (some p)
  · cases normal with
    | true => simp [Node.exit, hp]
    | false => exact absurd hp (hlink rfl)
  · simpa [Node.exit, hp] using h

theorem Node.start_up_of_up {n : Node} {S : Store} (S' : Store) (link : Option Pid)
    (h : n.server S ≠ .down) : (n.start S' link).2.server S ≠ .down := by
  by_cases hS : S = S'
  · subst hS
    obtain ⟨link', hlink⟩ := Status.exists_up h
    rw [start_up hlink]
    exact h
  · rw [(start_other hS link).1]
    exact h

theorem Node.start_self_up (n : Node) (S : Store) (link : Option Pid) :
    (n.start S link).2.server S ≠ .down := by
  cases hs : n.server S with
  | down =>
    rw [start_down hs]
    simp
  | up link' =>
    rw [start_up hs]
    simp [hs]

section Model

variable [Crypto] [Ets]

/-- A request leaves every server up, unless it finds its own without a table. -/
theorem Node.call_up {n : Node} {S S' : Store} {r : S'.Request} {now : DateTime}
    (htable : (S'.removedKey? r).isSome ∨ n.server S' = .down ∨ (n.db.table? S').isSome)
    (h : n.server S ≠ .down) : (n.call S' (.request r) now).2.server S ≠ .down := by
  rcases call_cases S' (.request r) now n with ⟨-, hcall⟩ | ⟨link, -, hc, -⟩ |
    ⟨link, r', T, -, -, -, hcall⟩ | ⟨link, r', hup, hc, hT, hcall⟩
  · rwa [hcall]
  · cases hc
  · rwa [hcall]
  · cases hc
    rcases htable with hrem | hdown | htable
    · rwa [hcall, if_pos hrem]
    · rw [hup] at hdown
      cases hdown
    · rw [hT] at htable
      cases htable

theorem Node.call_stop_up {n : Node} {S S' : Store} {now : DateTime} (hS : S ≠ S')
    (h : n.server S ≠ .down) : (n.call S' .stop now).2.server S ≠ .down := by
  cases hs : n.server S' with
  | down => rwa [call_down hs]
  | up link =>
    rw [call_stop hs]
    simpa [hS] using h

/-- An operation keeps the stores up. -/
theorem Site.exec_up {c : Ctx} {o : Op} {w : Site} (hC : keepsStores.operation c o w)
    (now : DateTime) {S : Store} (h : w.node.server S ≠ .down) :
    (w.exec c o now).2.node.server S ≠ .down := by
  cases o with
  | start S' => exact Node.start_up_of_up S' _ h
  | call S' r =>
    refine Node.call_up ?_ h
    by_cases hrem : (S'.removedKey? r).isSome
    · exact .inl hrem
    · by_cases hdown : w.node.server S' = .down
      · exact .inr (.inl hdown)
      · have hcalled : S' ∈ Op.called? (.call S' r) := by
          rw [Op.called?, if_neg hrem, Option.mem_def]
        exact .inr (.inr (hC S' hcalled hdown))
  | user => exact h
  | setUser u => exact h
  | logout => exact h

theorem lifetime_keeps_op (p : Pid) {c : Ctx} {o : Op} {σ : Past}
    (hC : keepsStores.operation c o σ.2) (now : DateTime) :
    (lifetime p).Keeps σ ((lifetime p).discipline.exec c o now σ).2 :=
  ⟨trivial, fun _ hS => hS.of_server (Site.exec_up hC now) (List.subset_append_left _ _)⟩

theorem lifetime_safe_of_uses {α : Type} {p : Pid} {c : Ctx} {g : Code α}
    {post : α → Past → Prop} (hg : g.Uses fun _ => True) (hpost : ∀ a σ, post a σ) (σ : Past) :
    g.Safe (lifetime p).discipline c post σ :=
  hg.safe (fun _ _ _ _ hC => ⟨trivial, lifetime_keeps_op p hC⟩) (fun a σ _ => hpost a σ) σ

theorem lifetime_safe_start {p : Pid} {c : Ctx} (S : Store) (σ : Past) :
    (start S).Safe (lifetime p).discipline c (fun _ σ => UpOrStopped σ S) σ := by
  intro σ' _ _ hC
  refine ⟨trivial, fun now => ?_⟩
  obtain ⟨hinv, hle⟩ := lifetime_keeps_op p hC now
  refine ⟨hinv, hle, fun σ'' hle' _ => hle' S (.inl ?_)⟩
  exact Node.start_self_up σ'.2.node S (some c.pid)

/-- `index:body/0` starts the four stores. -/
theorem lifetime_safe_body {p : Pid} {c : Ctx} (σ : Past) :
    Index.body.Safe (lifetime p).discipline c (fun _ σ => ∀ S, UpOrStopped σ S) σ := by
  refine (lifetime_safe_start .visitorsDb σ).bind fun _ σ₁ _ _ h₁ => ?_
  refine (lifetime_safe_start .dbLogin σ₁).bind fun _ σ₂ hle₂ _ h₂ => ?_
  have hcall : (call .dbLogin adminAccount).Safe (lifetime p).discipline c (fun _ _ => True) σ₂ :=
    lifetime_safe_of_uses (uses_call trivial) (fun _ _ => trivial) σ₂
  refine hcall.bind fun _ σ₃ hle₃ _ _ => ?_
  refine (lifetime_safe_start .dbMessage σ₃).bind fun _ σ₄ hle₄ _ h₄ => ?_
  refine (lifetime_safe_start .dbComment σ₄).bind fun _ σ₅ hle₅ _ h₅ => ?_
  intro σ₆ hle₆ _ S
  refine hle₆ S ?_
  cases S with
  | visitorsDb => exact hle₅ _ (hle₄ _ (hle₃ _ (hle₂ _ h₁)))
  | dbLogin => exact hle₅ _ (hle₄ _ (hle₃ _ h₂))
  | dbMessage => exact hle₅ _ h₄
  | dbComment => exact h₅

theorem lifetime_safe_index {p : Pid} {c : Ctx} (σ : Past) :
    Index.main.Safe (lifetime p).discipline c (fun _ σ => ∀ S, UpOrStopped σ S) σ := by
  have hadmin : adminPlace.Safe (lifetime p).discipline c (fun _ _ => True) σ :=
    lifetime_safe_of_uses (uses_adminPlace trivial) (fun _ _ => trivial) σ
  refine hadmin.bind fun admin σ₁ _ _ _ => (lifetime_safe_body σ₁).bind fun b σ₂ _ _ h => ?_
  exact fun σ₃ hle₃ _ S => hle₃ S (h S)

/-- The code of any other process keeps the stores up. -/
theorem lifetime_safe_other {p : Pid} {c : Ctx} {g : Code Response}
    (hg : c.job.code.Residual g) (hpost : c.pid ≠ p ∨ c.job ≠ .load .index) (σ : Past) :
    g.Safe (lifetime p).discipline c ((lifetime p).post c) σ := by
  refine lifetime_safe_of_uses ((c.job.code_uses.of_residual hg).mono fun _ _ => trivial) ?_ σ
  intro r σ hpid hjob
  rcases hpost with h | h
  · exact absurd hpid h
  · exact absurd hjob h

theorem lifetime_safe {p : Pid} {c : Ctx} (σ : Past) :
    c.job.code.Safe (lifetime p).discipline c ((lifetime p).post c) σ := by
  by_cases hjob : c.job = .load .index
  · rw [Job.code_index hjob]
    have hpost : ∀ r σ, (∀ S, UpOrStopped σ S) → (lifetime p).post c r σ := fun _ _ h _ _ => h
    exact (lifetime_safe_index σ).mono_post hpost
  · exact lifetime_safe_other .start (.inr hjob) σ

theorem lifetime_sound (p : Pid) : (lifetime p).Sound where
  request {tr w p' s job} _ _ := by
    refine ⟨⟨trivial, fun S hS => hS.of_server id (List.subset_append_left _ _)⟩, ?_⟩
    exact lifetime_safe (c := w.ctx p' s job) _
  respond {tr w c r} _ _ _ :=
    ⟨trivial, fun S hS => hS.of_server id (List.subset_append_left _ _)⟩
  close {tr w p' normal} _ hC :=
    ⟨trivial, fun S hS => hS.of_server (Node.exit_up fun h => hC h S)
      (List.subset_append_left _ _)⟩
  stop {tr w S' now} _ _ := by
    refine ⟨trivial, fun S hS => ?_⟩
    by_cases hSS : S = S'
    · subst hSS
      exact .inr ⟨now, by simp⟩
    · exact hS.of_server (Node.call_stop_up hSS) (List.subset_append_left _ _)

section Run

variable {ls₀ ls₁ ls₂ : List Label} {w₀ w₁ w₂ w₃ : World} {p : Pid} {s : Session} {c : Ctx}
  {r : Response}

theorem lifetime_holds (hrun₀ : run World.step .init ls₀ = some w₀)
    (hload : w₀.step (.request p s (.load .index)) = some w₁) :
    (lifetime p).Holds [] w₁ := by
  have hrun : run World.step .init (ls₀ ++ [.request p s (.load .index)]) = some w₁ :=
    run_concat_some.mpr ⟨w₀, hrun₀, hload⟩
  refine ⟨World.tagged hrun, trivial, fun p' c g hp => ?_⟩
  have htask : w₁.task p' = some (c, g) := by
    unfold World.running at hp
    split at hp
    · exact hp
    · cases hp
  by_cases hpp : p' = p
  · subst hpp
    have hnew : w₁.task p' = some (w₀.site.ctx p' s (.load .index), Index.main) := by
      rw [World.step_request hload]
      exact Function.update_self _ _ _
    rw [hnew, Option.some.injEq, Prod.mk.injEq] at htask
    obtain ⟨rfl, rfl⟩ := htask
    exact lifetime_safe (c := w₀.site.ctx p' s (.load .index)) _
  · have hpid : c.pid ≠ p := by rwa [World.tagged hrun p' c g htask]
    exact lifetime_safe_other (World.residual hrun htask) (.inl hpid) _

/-- At the end of a load of the home page, every store is up, or has been stopped since the page
was requested. -/
theorem lifetime_completed (hrun₀ : run World.step .init ls₀ = some w₀)
    (hload : w₀.step (.request p s (.load .index)) = some w₁)
    (hrun₁ : run World.step w₁ ls₁ = some w₂) (hdone : HomeLoaded w₂ p)
    (hC : Always World.step keepsStores.Meets w₁ ls₁) :
    (lifetime p).Holds ls₁ w₂ ∧ ∀ S, UpOrStopped (ls₁, w₂.site) S := by
  obtain ⟨hholds, -⟩ := (lifetime_holds hrun₀ hload).run (lifetime_sound p) hrun₁ hC
  obtain ⟨hlive, c, r, htask, hjob⟩ := hdone
  exact ⟨hholds, hholds.post_of_done hlive htask (hholds.tagged p c _ htask) hjob⟩

end Run

end Model

/-! The home page is loaded, and the process of its request ends, first normally and then with an
error. -/

def homeSteps : List Label := List.replicate 6 (.step 0 .noon)

attribute [local instance] Crypto.sample Ets.asKept

end WebServerl
