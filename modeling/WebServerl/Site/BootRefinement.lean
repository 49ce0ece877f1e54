import WebServerl.Site.Starts

/-! The site with its starts in parts refines the site whose starts are atomic, as long as nobody
stops a store while a server does its `init/1`. -/

namespace WebServerl

open Erlang Erlang.Mnesia Machine

/-! ### The tables of the two sites -/

/-- What one site has for a table and what the other has: the same, or nothing in the other where
the first has an empty table already. -/
def Near {ρ : Type} [Record ρ] (T T' : Option (Table ρ)) : Prop :=
  T = T' ∨ (T = some (KeyedTable.empty _) ∧ T' = none)

theorem Near.eq_getD {ρ : Type} [Record ρ] {T T' : Option (Table ρ)} (h : Near T T')
    (hT : T ≠ none) : T = some (T'.getD (KeyedTable.empty _)) := by
  rcases h with rfl | ⟨rfl, rfl⟩
  · cases T with
    | none => exact absurd rfl hT
    | some T => rfl
  · rfl

theorem Near.getD_eq {ρ : Type} [Record ρ] {T T' : Option (Table ρ)} (h : Near T T') :
    T.getD (KeyedTable.empty _) = T'.getD (KeyedTable.empty _) := by
  rcases h with rfl | ⟨rfl, rfl⟩
  · rfl
  · rfl

theorem Near.of_getD {ρ : Type} [Record ρ] (T : Option (Table ρ)) :
    Near (some (T.getD (KeyedTable.empty _))) T := by
  cases T with
  | none => exact .inr ⟨rfl, rfl⟩
  | some T => exact .inl rfl

theorem Db.start_running (db : Db) : db.start ≠ .stopped := by
  cases db with
  | stopped => exact nofun
  | running tables => exact nofun

theorem Db.start_of_running {db : Db} (h : db ≠ .stopped) : db.start = db := by
  cases db with
  | stopped => exact absurd rfl h
  | running tables => rfl

theorem Db.createTable_running {db : Db} (h : db ≠ .stopped) (S : Store) :
    db.createTable S ≠ .stopped := by
  cases db with
  | stopped => exact absurd rfl h
  | running tables =>
    simp only [Db.createTable]
    split
    · exact fun h => by cases h
    · exact fun h => by cases h

theorem Db.setTable_running {db : Db} (h : db ≠ .stopped) (S : Store) (T : Table S.Row) :
    db.setTable S T ≠ .stopped := by
  cases db with
  | stopped => exact absurd rfl h
  | running tables => exact nofun

namespace BootWorld

/-- The Mnesia of the site whose starts are atomic.  A store has its table from the registration of
its server on. -/
structure Stores (b : BootWorld) (db : Db) : Prop where
  near : ∀ S, Near (db.table? S) (b.site.node.db.table? S)
  ready : ∀ S, b.site.node.server S ≠ .down → b.booting S = none →
    db.table? S = b.site.node.db.table? S
  booting : ∀ S p i, b.booting S = some (p, i) → db.table? S ≠ none
  running : ∀ S p, b.booting S = some (p, .createTable) → b.site.node.db ≠ .stopped

namespace Stores

variable {b : BootWorld} {db : Db}

theorem init : BootWorld.init.Stores .stopped :=
  ⟨fun _ => .inl rfl, fun _ _ _ => rfl, nofun, nofun⟩

theorem settle (h : b.Stores db) {site : Site} (task : Pool Pid Op Op.Res Ctx Response) {db' : Db}
    (hdown : ∀ S, b.site.node.server S = .down → site.node.server S = .down)
    (htable : ∀ S, (b.booting S = none ∧ db'.table? S = site.node.db.table? S) ∨
      (db'.table? S = db.table? S ∧ site.node.db.table? S = b.site.node.db.table? S))
    (hrunning : ∀ S p i, b.booting S = some (p, i) → b.site.node.db ≠ .stopped →
      site.node.db ≠ .stopped) : (b.settle site task).Stores db' where
  near S := by
    rcases htable S with ⟨-, heq⟩ | ⟨heq, heq'⟩
    · exact .inl heq
    · have hnear := h.near S
      rwa [← heq, ← heq'] at hnear
  ready S hup hS := by
    simp only [BootWorld.settle] at hup hS ⊢
    rw [if_neg hup] at hS
    rcases htable S with ⟨-, heq⟩ | ⟨heq, heq'⟩
    · exact heq
    · rw [heq, heq']
      exact h.ready S (fun hdown' => hup (hdown S hdown')) hS
  booting S p i hS := by
    simp only [BootWorld.settle] at hS
    split at hS
    · cases hS
    · rcases htable S with ⟨hnone, -⟩ | ⟨heq, -⟩
      · rw [hS] at hnone
        cases hnone
      · rw [heq]
        exact h.booting S p i hS
  running S p hS := by
    simp only [BootWorld.settle] at hS
    split at hS
    · cases hS
    · exact hrunning S p _ hS (h.running S p hS)

theorem register (h : b.Stores db) (S : Store) (p : Pid)
    (starter : Pid → Option (Store × Stage)) : ({ b with
      site := b.site.register S p
      booting := Function.update b.booting S (some (p, .startMnesia))
      starter } : BootWorld).Stores (db.start.createTable S) where
  near S' := by
    by_cases hS : S' = S
    · subst hS
      rw [Db.table?_createTable_start, (h.near S').getD_eq]
      exact .of_getD _
    · rw [Db.table?_createTable_start_ne _ hS]
      exact h.near S'
  ready S' hup hS' := by
    by_cases hS : S' = S
    · simp [hS] at hS'
    · rw [Db.table?_createTable_start_ne _ hS]
      exact h.ready S' (by simpa [hS] using hup) (by simpa [hS] using hS')
  booting S' p' i hS' := by
    by_cases hS : S' = S
    · subst hS
      rw [Db.table?_createTable_start]
      exact nofun
    · rw [Db.table?_createTable_start_ne _ hS]
      exact h.booting S' p' i (by simpa [hS] using hS')
  running S' p' hS' := by
    by_cases hS : S' = S
    · simp [hS] at hS'
    · exact h.running S' p' (by simpa [hS] using hS')

theorem startMnesia (h : b.Stores db) {S : Store} {p : Pid}
    (hbooting : b.booting S = some (p, .startMnesia)) : ({ b with
      site := b.site.withDb b.site.node.db.start
      booting := Function.update b.booting S (some (p, .createTable)) } : BootWorld).Stores db where
  near S' := by
    rw [Site.withDb_db, Db.table?_start]
    exact h.near S'
  ready S' hup hS' := by
    by_cases hS : S' = S
    · simp [hS] at hS'
    · rw [Site.withDb_db, Db.table?_start]
      exact h.ready S' hup (by simpa [hS] using hS')
  booting S' p' i hS' := by
    by_cases hS : S' = S
    · subst hS
      exact h.booting S' p _ hbooting
    · exact h.booting S' p' i (by simpa [hS] using hS')
  running S' p' hS' := Db.start_running _

theorem createTable (h : b.Stores db) {S : Store} {p : Pid}
    (hbooting : b.booting S = some (p, .createTable))
    (starter : Pid → Option (Store × Stage)) : ({ b with
      site := b.site.withDb (b.site.node.db.createTable S)
      booting := Function.update b.booting S none
      starter } : BootWorld).Stores db := by
  have hrunning := h.running S p hbooting
  have hself : db.table? S = (b.site.node.db.createTable S).table? S := by
    rw [← Db.start_of_running hrunning, Db.table?_createTable_start]
    exact (h.near S).eq_getD (h.booting S p _ hbooting)
  have hother : ∀ S', S' ≠ S →
      (b.site.node.db.createTable S).table? S' = b.site.node.db.table? S' := by
    intro S' hS
    rw [← Db.start_of_running hrunning, Db.table?_createTable_start_ne _ hS, Db.table?_start]
  refine ⟨fun S' => ?_, fun S' hup hS' => ?_, fun S' p' i hS' => ?_, fun S' p' hS' => ?_⟩
  · by_cases hS : S' = S
    · subst hS
      exact .inl hself
    · rw [Site.withDb_db, hother S' hS]
      exact h.near S'
  · by_cases hS : S' = S
    · subst hS
      exact hself
    · rw [Site.withDb_db, hother S' hS]
      exact h.ready S' hup (by simpa [hS] using hS')
  · by_cases hS : S' = S
    · simp [hS] at hS'
    · exact h.booting S' p' i (by simpa [hS] using hS')
  · by_cases hS : S' = S
    · simp [hS] at hS'
    · exact Db.createTable_running hrunning S

end Stores

/-! ### The starts of the two sites -/

/-- What a process is at in a start, and what the site with atomic starts makes of it.  The start
is performed when its outcome is known. -/
inductive Follows : Option (Store × Stage) → Option (Ctx × Code Response) →
    Option (Ctx × Code Response) → Prop where
  | free (t : Option (Ctx × Code Response)) : Follows none t t
  | spawned (c : Ctx) (S : Store) (next : Bool → Code Response) :
      Follows (some (S, .spawned)) (some (c, .perform (.start S) next))
        (some (c, .perform (.start S) next))
  | registered (c : Ctx) (S : Store) (next : Bool → Code Response) :
      Follows (some (S, .registered)) (some (c, .perform (.start S) next)) (some (c, next true))
  | acked (c : Ctx) (S : Store) (next : Bool → Code Response) (started : Bool) :
      Follows (some (S, .acked started)) (some (c, .perform (.start S) next))
        (some (c, next started))

namespace Follows

variable {S : Store} {t t' : Option (Ctx × Code Response)}

theorem of_none (h : Follows none t t') : t' = t := by
  cases h
  rfl

theorem of_spawned (h : Follows (some (S, .spawned)) t t') :
    ∃ c next, t = some (c, .perform (.start S) next) ∧ t' = t := by
  cases h with
  | spawned c S next => exact ⟨c, next, rfl, rfl⟩

theorem of_registered (h : Follows (some (S, .registered)) t t') :
    ∃ c next, t = some (c, .perform (.start S) next) ∧ t' = some (c, next true) := by
  cases h with
  | registered c S next => exact ⟨c, next, rfl, rfl⟩

theorem of_acked {started : Bool} (h : Follows (some (S, .acked started)) t t') :
    ∃ c next, t = some (c, .perform (.start S) next) ∧ t' = some (c, next started) := by
  cases h with
  | acked c S next started => exact ⟨c, next, rfl, rfl⟩

end Follows

/-- The two sites differ in their Mnesias and in the processes that are in a start. -/
inductive Mirrors (b : BootWorld) : World → Prop where
  | intro {db : Db} {task : Pool Pid Op Op.Res Ctx Response} (hstores : b.Stores db)
    (htask : ∀ p, b.site.node.live p = true → Follows (b.starter p) (b.task p) (task p)) :
    Mirrors b ⟨b.site.withDb db, task⟩

theorem Mirrors.init : Mirrors .init .init := .intro .init fun _ _ => .free none

section Update

variable {b : BootWorld} {task : Pool Pid Op Op.Res Ctx Response}

/-- One process goes on, in one site or in both. -/
theorem follows_update
    (h : ∀ p, b.site.node.live p = true → Follows (b.starter p) (b.task p) (task p)) {p : Pid}
    {x : Option (Store × Stage)} {t t' : Option (Ctx × Code Response)} (hp : Follows x t t')
    {p' : Pid} (hlive : p' ≠ p → b.site.node.live p' = true) :
    Follows (Function.update b.starter p x p') (Function.update b.task p t p')
      (Function.update task p t' p') := by
  by_cases hpp : p' = p
  · subst hpp
    simpa using hp
  · simpa [hpp] using h p' (hlive hpp)

theorem follows_update_task
    (h : ∀ p, b.site.node.live p = true → Follows (b.starter p) (b.task p) (task p)) {p : Pid}
    {t t' : Option (Ctx × Code Response)} (hp : Follows (b.starter p) t t')
    {p' : Pid} (hlive : p' ≠ p → b.site.node.live p' = true) :
    Follows (b.starter p') (Function.update b.task p t p') (Function.update task p t' p') := by
  have hupdate := follows_update h hp hlive
  rwa [Function.update_eq_self] at hupdate

theorem follows_update_starter
    (h : ∀ p, b.site.node.live p = true → Follows (b.starter p) (b.task p) (task p)) {p : Pid}
    {x : Option (Store × Stage)} {t' : Option (Ctx × Code Response)}
    (hp : Follows x (b.task p) t') {p' : Pid} (hlive : p' ≠ p → b.site.node.live p' = true) :
    Follows (Function.update b.starter p x p') (b.task p') (Function.update task p t' p') := by
  have hupdate := follows_update h hp hlive
  rwa [Function.update_eq_self] at hupdate

/-- After a change of the site, the starts of the processes that are alive are as before. -/
theorem follows_settle {site : Site} {task' : Pool Pid Op Op.Res Ctx Response}
    (h : ∀ p, site.node.live p = true → Follows (b.starter p) (task' p) (task p)) (p : Pid)
    (hlive : (b.settle site task').site.node.live p = true) :
    Follows ((b.settle site task').starter p) (task' p) (task p) := by
  have hstarter : (b.settle site task').starter p = b.starter p := if_pos hlive
  rw [hstarter]
  exact h p hlive

end Update

end BootWorld

/-! ### The operations of the two sites -/

section Operations

variable [Crypto] [Ets]

/-- A call has the same result on another Mnesia that has the same table for the store, if the
server is up, and changes no other table; and it does not bring Mnesia down. -/
theorem Node.call_withDb {S : Store} {n : Node} {db : Db}
    (hT : n.server S ≠ .down → db.table? S = n.db.table? S) (r : S.Request) (now : DateTime) :
    (({ n with db } : Node).call S (.request r) now).1 = (n.call S (.request r) now).1 ∧
    ∃ db', (({ n with db } : Node).call S (.request r) now).2 =
        { (n.call S (.request r) now).2 with db := db' } ∧
      (∀ S', (S' = S ∧ db'.table? S' = (n.call S (.request r) now).2.db.table? S') ∨
        (db'.table? S' = db.table? S' ∧
          (n.call S (.request r) now).2.db.table? S' = n.db.table? S')) ∧
      (n.db ≠ .stopped → (n.call S (.request r) now).2.db ≠ .stopped) := by
  rcases call_cases S (.request r) now n with ⟨hdown, hcall⟩ | ⟨link, -, hc, -⟩ |
    ⟨link, r', T, hup, hc, htable, hcall⟩ | ⟨link, r', hup, hc, htable, hcall⟩
  · rw [hcall, call_down (n := { n with db }) hdown]
    exact ⟨rfl, db, rfl, fun S' => .inr ⟨rfl, rfl⟩, id⟩
  · cases hc
  · cases hc
    have hne : n.server S ≠ .down := by simp [hup]
    have htable' : db.table? S = some T := (hT hne).trans htable
    rw [hcall, call_apply (n := { n with db }) hne htable' r now]
    refine ⟨rfl, _, rfl, fun S' => ?_, fun h => Db.setTable_running h S _⟩
    by_cases hS : S' = S
    · subst hS
      refine .inl ⟨rfl, ?_⟩
      rw [Db.table?_setTable_self htable', Db.table?_setTable_self htable]
    · exact .inr ⟨Db.table?_setTable_ne _ hS _, Db.table?_setTable_ne _ hS _⟩
  · cases hc
    have hne : n.server S ≠ .down := by simp [hup]
    have htable' : db.table? S = none := (hT hne).trans htable
    rw [hcall, call_missing (n := { n with db }) hup htable' r now]
    split
    · exact ⟨rfl, db, rfl, fun S' => .inr ⟨rfl, rfl⟩, id⟩
    · refine ⟨rfl, db, ?_, fun S' => .inr ⟨rfl, ?_⟩, fun h => ?_⟩
      · cases link <;> rfl
      · rw [crashServer_db]
      · rwa [crashServer_db]

theorem Node.call_stop_withDb (S : Store) (n : Node) (db : Db) (now : DateTime) :
    ∃ db', (({ n with db } : Node).call S .stop now).2 =
        { (n.call S .stop now).2 with db := db' } ∧
      ∀ S', db'.table? S' = (n.call S .stop now).2.db.table? S' ∨
        (db'.table? S' = db.table? S' ∧ (n.call S .stop now).2.db.table? S' = n.db.table? S') := by
  cases hS : n.server S with
  | down =>
    rw [call_down hS, call_down (n := { n with db }) hS]
    exact ⟨db, rfl, fun S' => .inr ⟨rfl, rfl⟩⟩
  | up link =>
    rw [call_stop hS, call_stop (n := { n with db }) hS]
    exact ⟨.stopped, rfl, fun S' => .inl rfl⟩

/-- No call brings a server up. -/
theorem Node.call_keeps_down {n : Node} {S S' : Store} (h : n.server S' = .down)
    (c : Call S.Request) (now : DateTime) : (n.call S c now).2.server S' = .down := by
  have hupdate : Function.update n.server S .down S' = .down := by
    by_cases hS : S' = S
    · rw [hS, Function.update_self]
    · rw [Function.update_of_ne hS, h]
  rcases call_cases S c now n with ⟨-, hcall⟩ | ⟨link, -, -, hcall⟩ |
    ⟨link, r, T, -, -, -, hcall⟩ | ⟨link, r, -, -, -, hcall⟩
  · rwa [hcall]
  · rwa [hcall]
  · rwa [hcall]
  · rw [hcall]
    split
    · exact h
    · cases link with
      | none => exact hupdate
      | some p => exact exit_down hupdate p false

namespace BootWorld

variable {b : BootWorld} {db : Db}

/-- An operation has the same result in the two sites, and leaves their tables as they should be. -/
theorem Stores.exec (h : b.Stores db) {o : Op} (ho : b.performs o = true) (c : Ctx)
    (now : DateTime) :
    ((b.site.withDb db).exec c o now).1 = (b.site.exec c o now).1 ∧
    ∃ db', ((b.site.withDb db).exec c o now).2 = (b.site.exec c o now).2.withDb db' ∧
      ∀ task, (b.settle (b.site.exec c o now).2 task).Stores db' := by
  have hsame : ∀ site : Site, site.node = b.site.node → ∀ task, (b.settle site task).Stores db := by
    intro site hnode task
    refine h.settle task ?_ (fun S => .inr ⟨rfl, by rw [hnode]⟩) ?_
    · exact fun S hdown => by rw [hnode, hdown]
    · exact fun S p i _ hdb => by rwa [hnode]
  cases o with
  | start S => cases ho
  | call S r =>
    have hS : b.booting S = none := by simpa [performs] using ho
    obtain ⟨hres, db', hcall, htable, hrunning⟩ :=
      Node.call_withDb (n := b.site.node) (fun hup => h.ready S hup hS) r now
    refine ⟨hres, db', congrArg (fun node => { b.site with node }) hcall, fun task => ?_⟩
    refine h.settle task (fun S' hdown => Node.call_keeps_down hdown _ now) (fun S' => ?_)
      fun _ _ _ _ => hrunning
    rcases htable S' with ⟨rfl, heq⟩ | heq
    · exact .inl ⟨hS, heq⟩
    · exact .inr heq
  | user => exact ⟨rfl, db, rfl, hsame b.site rfl⟩
  | setUser u => exact ⟨rfl, db, rfl, hsame (b.site.setUser c.session u) rfl⟩
  | logout => exact ⟨rfl, db, rfl, hsame (b.site.setUser c.session .undefined) rfl⟩

theorem Stores.stop (h : b.Stores db) (hquiet : ∀ S, b.booting S = none) (S : Store)
    (now : DateTime) : ∃ db', (b.site.withDb db).stop S now = (b.site.stop S now).withDb db' ∧
      ∀ task, (b.settle (b.site.stop S now) task).Stores db' := by
  obtain ⟨db', hcall, htable⟩ := Node.call_stop_withDb S b.site.node db now
  refine ⟨db', congrArg (fun node => { b.site with node }) hcall, fun task => ?_⟩
  refine h.settle task (fun S' hdown => Node.call_keeps_down hdown _ now) (fun S' => ?_)
    fun S' p i hS' => ?_
  · exact (htable S').imp (fun heq => ⟨hquiet S', heq⟩) id
  · rw [hquiet S'] at hS'
    cases hS'

/-! ### The refinement -/

/-- The start that is next in the code of a process. -/
theorem start_goes (db : Db) {task : Pool Pid Op Op.Res Ctx Response} {p : Pid} {c : Ctx}
    {S : Store} {next : Bool → Code Response} (hlive : b.site.node.live p = true)
    (htask : task p = some (c, .perform (.start S) next)) :
    World.Goes ⟨b.site.withDb db, task⟩ []
      ⟨((b.site.withDb db).exec c (.start S) .noon).2, Function.update task p
        (some (c, next ((b.site.withDb db).exec c (.start S) .noon).1))⟩ := by
  refine World.Goes.of_step (l := .step p .noon) ?_
  simp only [World.step, Site.withDb_live, hlive, htask]

theorem Mirrors.step {w : World} (h : b.Mirrors w) (hb : b.Valid) {l : BootWorld.Label}
    {b' : BootWorld} (hstep : b.step l = some b') (hquiet : b.Quiet l) :
    ∃ w', w.Goes l.shown.toList w' ∧ b'.Mirrors w' := by
  obtain @⟨db, task, hstores, htask⟩ := h
  cases moves hstep with
  | @request p s job hlive =>
    have hstarter : b.starter p = none := by
      cases hp : b.starter p with
      | none => rfl
      | some x =>
        rw [(hb.starts p x.1 x.2 hp).1] at hlive
        cases hlive
    have hgoes : World.step ⟨b.site.withDb db, task⟩ (.request p s job) = some
        ⟨(b.site.enter p).withDb db,
          Function.update task p (some (b.site.ctx p s job, job.code))⟩ :=
      if_neg (by simp [hlive])
    refine ⟨_, .of_step hgoes, .intro ?_ ?_⟩
    · exact ⟨hstores.near, hstores.ready, hstores.booting, hstores.running⟩
    · intro p' hlive'
      refine follows_update_task htask (hstarter ▸ .free _) fun hne => ?_
      simpa [Site.enter, hne] using hlive'
  | @step p now c o next hlive hstarter hcode hperforms =>
    obtain ⟨hres, db', hexec, hstores'⟩ := hstores.exec hperforms c now
    have hfree := htask p hlive
    rw [hstarter, hcode] at hfree
    have hgoes : World.step ⟨b.site.withDb db, task⟩ (.step p now) = some
        ⟨(b.site.exec c o now).2.withDb db',
          Function.update task p (some (c, next (b.site.exec c o now).1))⟩ := by
      simp only [World.step, Site.withDb_live, hlive, hfree.of_none, hres, hexec]
    refine ⟨_, .of_step hgoes, .intro (hstores' _) (follows_settle fun p' hlive' => ?_)⟩
    exact follows_update_task htask (hstarter ▸ .free _) fun _ => Site.exec_live hlive'
  | @respond p c r hlive hstarter hcode =>
    have hfree := htask p hlive
    rw [hstarter, hcode] at hfree
    have hgoes : World.step ⟨b.site.withDb db, task⟩ (.respond p) = some
        ⟨(b.site.deliver c r).withDb db, Function.update task p none⟩ := by
      simp only [World.step, Site.withDb_live, hlive, hfree.of_none]
      rfl
    refine ⟨_, .of_step hgoes, .intro ?_ fun p' hlive' => ?_⟩
    · exact ⟨hstores.near, hstores.ready, hstores.booting, hstores.running⟩
    · exact follows_update_task htask (hstarter ▸ .free _) fun _ => hlive'
  | @close p normal hlive hwaits =>
    have hgoes : World.step ⟨b.site.withDb db, task⟩ (.close p normal) = some
        ⟨(b.site.exit p normal).withDb db, Function.update task p none⟩ := if_pos hlive
    refine ⟨_, .of_step hgoes, .intro ?_ (follows_settle fun p' hlive' => ?_)⟩
    · exact hstores.settle _ (fun S hdown => Node.exit_down hdown p normal)
        (fun S => .inr ⟨rfl, rfl⟩) fun _ _ _ _ => id
    · have hne : p' ≠ p := by
        rintro rfl
        simp [Site.exit, Node.exit] at hlive'
      rw [Function.update_of_ne hne, Function.update_of_ne hne]
      exact htask p' (Node.exit_live normal hlive')
  | stop S now hbooting =>
    obtain ⟨db', hstop, hstores'⟩ := hstores.stop hquiet S now
    have hgoes : World.step ⟨b.site.withDb db, task⟩ (.stop S now) = some
        ⟨(b.site.stop S now).withDb db', task⟩ := by
      simp only [World.step, hstop]
    refine ⟨_, .of_step hgoes, .intro (hstores' _) (follows_settle fun p' hlive' => ?_)⟩
    exact htask p' (Node.call_live hlive')
  | @found p c S next link hlive hstarter hcode hup =>
    have hfree := htask p hlive
    rw [hstarter, hcode] at hfree
    have hgoes := start_goes db hlive hfree.of_none
    have hexec : (b.site.withDb db).exec c (.start S) .noon = (false, b.site.withDb db) := by
      simp only [Site.exec, Node.start_up (n := (b.site.withDb db).node) hup]
    rw [hexec] at hgoes
    refine ⟨_, hgoes, .intro ⟨hstores.near, hstores.ready, hstores.booting, hstores.running⟩ ?_⟩
    exact fun p' hlive' => follows_update_task htask (hstarter ▸ .free _) fun _ => hlive'
  | @spawn p c S next hlive hstarter hcode hdown =>
    have hfree := htask p hlive
    rw [hstarter, hcode] at hfree
    refine ⟨_, .refl _, .intro ⟨hstores.near, hstores.ready, hstores.booting, hstores.running⟩ ?_⟩
    intro p' hlive'
    have hspawned : Follows (some (S, .spawned)) (b.task p) (task p) := by
      rw [hcode, hfree.of_none]
      exact .spawned c S next
    simpa using follows_update (p := p) htask hspawned fun _ => hlive'
  | @taken p S link hstarter hup =>
    have hlive := (hb.starts p S _ hstarter).1
    have hspawned := htask p hlive
    rw [hstarter] at hspawned
    obtain ⟨c, next, hcode, heq⟩ := hspawned.of_spawned
    have hgoes := start_goes db hlive (heq.trans hcode)
    have hexec : (b.site.withDb db).exec c (.start S) .noon = (false, b.site.withDb db) := by
      simp only [Site.exec, Node.start_up (n := (b.site.withDb db).node) hup]
    rw [hexec] at hgoes
    refine ⟨_, hgoes, .intro ⟨hstores.near, hstores.ready, hstores.booting, hstores.running⟩ ?_⟩
    exact fun p' hlive' =>
      follows_update_starter htask (hcode ▸ .acked c S next false) fun _ => hlive'
  | @register p S hstarter hdown =>
    have hlive := (hb.starts p S _ hstarter).1
    have hspawned := htask p hlive
    rw [hstarter] at hspawned
    obtain ⟨c, next, hcode, heq⟩ := hspawned.of_spawned
    have hgoes := start_goes db hlive (heq.trans hcode)
    have hexec : (b.site.withDb db).exec c (.start S) .noon =
        (true, (b.site.register S p).withDb (db.start.createTable S)) := by
      simp only [Site.exec, Node.start_down (n := (b.site.withDb db).node) hdown,
        hb.tagged p c _ hcode]
      rfl
    rw [hexec] at hgoes
    refine ⟨_, hgoes, .intro (hstores.register S p _) ?_⟩
    exact fun p' hlive' =>
      follows_update_starter htask (hcode ▸ .registered c S next) fun _ => hlive'
  | startMnesia hbooting => exact ⟨_, .refl _, .intro (hstores.startMnesia hbooting) htask⟩
  | @createTable S p hbooting =>
    have hstarter := (hb.booting S p _ hbooting).2
    have hregistered := htask p (hb.starts p S _ hstarter).1
    rw [hstarter] at hregistered
    obtain ⟨c, next, hcode, heq⟩ := hregistered.of_registered
    refine ⟨_, .refl _, .intro (hstores.createTable hbooting _) fun p' hlive' => ?_⟩
    have hacked : Follows (some (S, .acked true)) (b.task p) (task p) := by
      rw [hcode, heq]
      exact .acked c S next true
    simpa using follows_update (p := p) htask hacked fun _ => hlive'
  | @acked p S S' started c next hstarter hcode =>
    have hacked := htask p (hb.starts p S _ hstarter).1
    rw [hstarter, hcode] at hacked
    obtain ⟨c', next', hcode', heq⟩ := hacked.of_acked
    cases hcode'
    refine ⟨_, .refl _, .intro ⟨hstores.near, hstores.ready, hstores.booting, hstores.running⟩ ?_⟩
    intro p' hlive'
    have hfree : Follows none (some (c, next started)) (task p) := by
      rw [heq]
      exact .free _
    simpa using follows_update (p := p) htask hfree fun _ => hlive'

end BootWorld

variable {ls : List BootWorld.Label} {b : BootWorld}

/-- In a run in which nobody stops a store while a server does its `init/1`, however the starts
overlap, the site comes to what the site with atomic starts comes to with the same requests,
responses, ends of processes and stops of stores, in the same order. -/
theorem boot_refines_world (hrun : run BootWorld.step .init ls = some b)
    (hquiet : Always BootWorld.step BootWorld.Quiet .init ls) :
    ∃ ls' w, run World.step .init ls' = some w ∧
      ls'.filterMap Label.shown = ls.filterMap BootWorld.Label.shown ∧
      w.site = b.site.withDb w.site.node.db ∧
      (∀ S, b.site.node.server S ≠ .down → b.booting S = none →
        w.site.node.db.table? S = b.site.node.db.table? S) ∧
      ∀ p, b.site.node.live p = true → b.starter p = none → w.task p = b.task p := by
  have hmirrors : ∃ w, World.init.Goes (ls.filterMap BootWorld.Label.shown) w ∧ b.Mirrors w := by
    refine run_induction (P := fun ls b => ∃ w, World.init.Goes
      (ls.filterMap BootWorld.Label.shown) w ∧ b.Mirrors w) ⟨_, .refl _, .init⟩
      (fun ls b₁ l b₂ hrun₁ ih hl hstep => ?_) hrun hquiet
    obtain ⟨w₁, hgoes₁, h⟩ := ih
    obtain ⟨w₂, hgoes₂, h'⟩ := h.step (BootWorld.valid hrun₁) hstep hl
    refine ⟨w₂, ?_, h'⟩
    have hshown : (ls ++ [l]).filterMap BootWorld.Label.shown =
        ls.filterMap BootWorld.Label.shown ++ l.shown.toList := by
      cases hl : l.shown with
      | none => simp [hl]
      | some l' => simp [hl]
    rw [hshown]
    exact hgoes₁.trans hgoes₂
  obtain ⟨w, ⟨ls', hrun', hshown⟩, hw⟩ := hmirrors
  obtain @⟨db, task, hstores, htask⟩ := hw
  refine ⟨ls', _, hrun', hshown, rfl, hstores.ready, fun p hlive hstarter => ?_⟩
  have hfree := htask p hlive
  rw [hstarter] at hfree
  exact hfree.of_none

end Operations

attribute [local instance] Crypto.sample Ets.asKept

theorem boot_refines_world_home : ∃ b ∈ run BootWorld.step .init (bootHome ++ [.init .visitorsDb,
    .acked 1]), ∃ ls w, run World.step .init ls = some w ∧
      ls.filterMap Label.shown = [.request 0 0 (.load .index), .request 1 1 (.load .index)] ∧
      (w.site.node.db.table? .visitorsDb).isSome ∧ w.task 1 = b.task 1 := by
  have hbooted : ∃ b ∈ run BootWorld.step .init (bootHome ++ [.init .visitorsDb, .acked 1]),
      b.site.node.live 1 = true ∧ b.starter 1 = none ∧
      b.site.node.server .visitorsDb ≠ .down ∧ b.booting .visitorsDb = none ∧
      (b.site.node.db.table? .visitorsDb).isSome := by decide +kernel
  have hquiet : Always BootWorld.step BootWorld.Quiet .init
      (bootHome ++ [.init .visitorsDb, .acked 1]) := by decide +kernel
  obtain ⟨b, hrun, hlive, hstarter, hup, hready, htable⟩ := hbooted
  obtain ⟨ls, w, hw, hshown, -, htables, htask⟩ := boot_refines_world hrun hquiet
  exact ⟨b, hrun, ls, w, hw, hshown, by rwa [htables _ hup hready], htask 1 hlive hstarter⟩

end WebServerl
