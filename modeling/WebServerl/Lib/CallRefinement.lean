import WebServerl.Lib.CallRelation

/-! Calls by messages refine atomic calls: each step of the messages is matched by atomic calls that
show the same, and so is each run. -/

namespace Calls

open Machine

variable {Srv Pid Inp Env σ : Type} {Req Rep : Srv → Type} [DecidableEq Srv] [DecidableEq Pid]
  {Q : Service Srv Inp Env σ Req Rep} {n : Net Pid σ Req Rep} {a : Atomic Pid σ Req Rep} {p : Pid}
  {S : Srv}

omit [DecidableEq Srv] [DecidableEq Pid] in
/-- A caller's standing is kept as long as its call, its requests and its messages are. -/
theorem Stands.mono {n' : Net Pid σ Req Rep} {a' : Atomic Pid σ Req Rep} {c : Caller Req}
    (hp : Stands Q n a p c) (hcall : a'.call p = a.call p) (hdead : n'.dead = n.dead)
    (hstate : n'.state = n.state) (hfresh : n.fresh ≤ n'.fresh)
    (hmail : ∀ S, ∀ m ∈ n.mailbox S, m.sender = p → m ∈ n'.mailbox S)
    (hinbox : ∀ S ref o, (n.inbox p S).lookup ref = some o →
      (n'.inbox p S).lookup ref = some o) : Stands Q n' a' p c := by
  cases c with
  | idle => exact hcall.trans hp
  | noproc S => exact hcall.trans hp
  | found S r k =>
    simp only [Stands, hcall, hdead, hstate]
    exact hp
  | waiting S k ref =>
    refine ⟨Nat.lt_of_lt_of_le hp.1 hfresh, ?_⟩
    rcases hp.2 with ⟨m, hm, hsender, href⟩ | ⟨o, hlookup, hans⟩
    · exact .inl ⟨m, hmail S m hm hsender, hsender, href⟩
    · exact .inr ⟨o, hinbox S ref o hlookup, hcall.trans hans⟩

omit [DecidableEq Srv] in
theorem Net.waiting_of_setCaller {c : Caller Req} (hc : ∀ S k ref, c ≠ .waiting S k ref)
    {p' : Pid} {k ref : Nat} (h : (n.setCaller p c).caller p' = .waiting S k ref) :
    p' ≠ p ∧ n.caller p' = .waiting S k ref := by
  by_cases hpp : p' = p
  · subst hpp
    simp only [setCaller, Function.update_self] at h
    exact absurd h (hc S k ref)
  · exact ⟨hpp, by simpa [setCaller, hpp] using h⟩

omit [DecidableEq Srv] in
/-- A caller for which no mailbox has a request takes up something other than waiting. -/
theorem Refines.setCaller (h : Refines Q n a)
    (hfree : ∀ S, ∀ m ∈ n.mailbox S, Owned n a S m → m.sender ≠ p) {c : Caller Req}
    (hc : ∀ S k ref, c ≠ .waiting S k ref) {k : Option (Call Req Rep)}
    (hstands : Stands Q n (a.setCall p k) p c) :
    Refines Q (n.setCaller p c) (a.setCall p k) := by
  have hwaiting : ∀ {p' S k ref}, (n.setCaller p c).caller p' = .waiting S k ref →
      n.caller p' = .waiting S k ref := fun hp' => (Net.waiting_of_setCaller hc hp').2
  obtain ⟨ps, hps⟩ := h.busy
  refine ⟨h.state, fun p' => ?_, fun S m hm => ?_, h.nodup, ?_, h.inbox, h.late, p :: ps, ?_⟩
  · by_cases hpp : p' = p
    · subst hpp
      have hself : (n.setCaller p' c).caller p' = c := by simp [Net.setCaller]
      rw [hself]
      exact hstands.mono rfl rfl rfl (Nat.le_refl _) (fun _ _ hm _ => hm)
        fun _ _ _ ho => ho
    · have hother : (n.setCaller p c).caller p' = n.caller p' := by simp [Net.setCaller, hpp]
      rw [hother]
      exact (h.caller p').mono (by simp [Atomic.setCall, hpp]) rfl rfl (Nat.le_refl _)
        (fun _ _ hm _ => hm) fun _ _ _ ho => ho
  · obtain ⟨halive, hfresh, hm'⟩ := h.mail S m hm
    refine ⟨halive, hfresh, ?_⟩
    rcases hm' with howned | horphan
    · have hne := hfree S m hm howned
      refine .inl ⟨?_, ?_, howned.inbox, howned.late⟩
      · simpa [Net.setCaller, hne] using howned.caller
      · simpa [Atomic.setCall, hne] using howned.call
    · exact .inr ⟨horphan.late, fun p' S' k' hp' => horphan.caller p' S' k' (hwaiting hp')⟩
  · intro p₁ p₂ S₁ S₂ k₁ k₂ ref h₁ h₂
    exact h.distinct p₁ p₂ S₁ S₂ k₁ k₂ ref (hwaiting h₁) (hwaiting h₂)
  · intro p' hp'
    by_cases hpp : p' = p
    · simp [hpp]
    · exact List.mem_cons_of_mem p (hps p' (by simpa [Atomic.setCall, hpp] using hp'))

omit [DecidableEq Srv] [DecidableEq Pid] in
/-- Only a caller that waits has a request in a mailbox. -/
theorem not_owned (hp : ∀ S ref, n.caller p = .waiting S (n.dead S) ref →
      (n.inbox p S).lookup ref ≠ none) :
    ∀ S, ∀ m ∈ n.mailbox S, Owned n a S m → m.sender ≠ p := by
  rintro S m - howned rfl
  exact hp S m.ref howned.caller howned.inbox

omit [DecidableEq Srv] in
theorem Refines.lookup (h : Refines Q n a) {S : Srv} {r : Req S} (hp : n.caller p = .idle) :
    Matched Q (· = .invoke p S r) a (some (.invoked p S r)) (n.setCaller p
      (if Q.alive S n.state then .found S r (n.dead S) else .noproc S)) := by
  have hcall : a.call p = none := by
    have hstands := h.caller p
    rwa [hp] at hstands
  have hfree : ∀ S, ∀ m ∈ n.mailbox S, Owned n a S m → m.sender ≠ p :=
    not_owned fun S ref hw => by simp [hp] at hw
  have hinvoke : a.step Q (.invoke p S r : Atomic.Label Pid Inp Env Req) =
      some (a.setCall p (some (.pending S r))) := by
    simp [Atomic.step, hcall]
  cases halive : Q.alive S n.state with
  | true =>
    show Matched Q _ a _ (n.setCaller p (.found S r (n.dead S)))
    refine Matched.of_step (D := (· = .invoke p S r)) rfl hinvoke
      (h.setCaller (c := .found S r (n.dead S)) hfree (by simp) ?_)
    refine ⟨Nat.le_refl _, fun _ => ⟨halive, ?_⟩, fun hk => absurd rfl hk⟩
    simp [Atomic.setCall]
  | false =>
    -- the call is invoked and fails at once
    show Matched Q _ a _ (n.setCaller p (.noproc S))
    refine ⟨_, [p], .inr ⟨_, rfl, hinvoke, rfl⟩, ?_⟩
    have hdead : Q.alive S a.state = false := h.state ▸ halive
    have hfail : (a.setCall p (some (.pending S r))).failAll Q [p] =
        a.setCall p (some (.answered S none)) := by
      rw [Atomic.failAll_cons, Atomic.failAll_nil]
      simp [Atomic.setCall, fail, hdead]
    rw [hfail]
    exact h.setCaller hfree (by simp) (by simp [Stands, Atomic.setCall])

omit [DecidableEq Srv] in
theorem Refines.setIdle (h : Refines Q n a)
    (hfree : ∀ S, ∀ m ∈ n.mailbox S, Owned n a S m → m.sender ≠ p) :
    Refines Q (n.setCaller p .idle) (a.setCall p none) :=
  h.setCaller hfree (c := .idle) (by simp) (by simp [Stands, Atomic.setCall])

theorem Refines.flush (h : Refines Q n a) (hp : n.caller p = .idle) (S : Srv) (ref : Nat) :
    Refines Q (n.flush p S ref) a := by
  have hinbox : ∀ p', p' ≠ p → (n.flush p S ref).inbox p' = n.inbox p' := fun p' hpp => by
    simp [Net.flush, hpp]
  refine ⟨h.state, fun p' => ?_, fun S' m hm => ?_, h.nodup, h.distinct, fun p' S' m hm => ?_,
    h.late, h.busy⟩
  · have hstands := h.caller p'
    by_cases hpp : p' = p
    · subst hpp
      show Stands Q (n.flush p' S ref) a p' (n.caller p')
      rw [hp] at hstands ⊢
      exact hstands
    · exact hstands.mono rfl rfl rfl (Nat.le_refl _) (fun _ _ hm _ => hm)
        fun S' ref' o ho => by rwa [hinbox p' hpp]
  · obtain ⟨halive, hfresh, hm'⟩ := h.mail S' m hm
    refine ⟨halive, hfresh, ?_⟩
    rcases hm' with howned | horphan
    · have hne : m.sender ≠ p := by
        rintro rfl
        have hcaller := howned.caller
        rw [hp] at hcaller
        cases hcaller
      refine .inl ⟨howned.caller, howned.call, ?_, howned.late⟩
      rw [hinbox m.sender hne]
      exact howned.inbox
    · exact .inr ⟨horphan.late, horphan.caller⟩
  · refine h.inbox p' S' m ?_
    by_cases hpp : p' = p
    · subst hpp
      by_cases hS : S' = S
      · subst hS
        simp only [Net.flush, Function.update_self] at hm
        exact (List.mem_filter.mp hm).1
      · simpa [Net.flush, hS] using hm
    · rwa [hinbox p' hpp] at hm

omit [DecidableEq Srv] in
theorem Refines.noproc (h : Refines Q n a) (hp : n.caller p = .noproc S) :
    Matched Q (· = .finish p) a (some (.returned p S none))
      (n.setCaller p .idle) := by
  have hcall : a.call p = some (.answered S none) := by
    have hstands := h.caller p
    rwa [hp] at hstands
  have hfree : ∀ S, ∀ m ∈ n.mailbox S, Owned n a S m → m.sender ≠ p :=
    not_owned fun S ref hw => by simp [hp] at hw
  have hfinish : a.step Q (.finish p : Atomic.Label Pid Inp Env Req) =
      some (a.setCall p none) := by simp [Atomic.step, hcall]
  have hmatched := Matched.of_step (D := (· = .finish p)) rfl hfinish (h.setIdle hfree)
  simpa [Atomic.event, hcall] using hmatched

/-- A caller takes the first message about its call. -/
theorem Refines.receive (h : Refines Q n a) {k ref : Nat} {o : Option (Rep S)}
    (hp : n.caller p = .waiting S k ref) (ho : (n.inbox p S).lookup ref = some o) :
    Matched Q (· = .finish p) a (some (.returned p S o))
      ((n.setCaller p .idle).flush p S ref) := by
  have hcall : a.call p = some (.answered S o) := by
    have hstands := h.caller p
    rw [hp] at hstands
    rcases hstands.2 with ⟨m, hm, rfl, href⟩ | ⟨o', ho', hans⟩
    · have howned := h.owned_of_waiting hp hm href
      have hinbox := howned.inbox
      rw [href, ho] at hinbox
      cases hinbox
    · rw [ho] at ho'
      cases ho'
      exact hans
  have hfree : ∀ S, ∀ m ∈ n.mailbox S, Owned n a S m → m.sender ≠ p := by
    refine not_owned fun S' ref' hw => ?_
    rw [hp] at hw
    cases hw
    simp [ho]
  have hfinish : a.step Q (.finish p : Atomic.Label Pid Inp Env Req) =
      some (a.setCall p none) := by simp [Atomic.step, hcall]
  have hidle : (n.setCaller p .idle).caller p = .idle := by simp [Net.setCaller]
  have hmatched := Matched.of_step (D := (· = .finish p)) rfl hfinish
    ((h.setIdle hfree).flush hidle S ref)
  simpa [Atomic.event, hcall] using hmatched

omit [DecidableEq Srv] [DecidableEq Pid] in
theorem Refines.eq_of_ref_eq (h : Refines Q n a) {m m' : Envelope Pid Req S}
    (hm : m ∈ n.mailbox S) (hm' : m' ∈ n.mailbox S) (href : m.ref = m'.ref) : m = m' :=
  List.inj_on_of_nodup_map (h.nodup S) hm hm' href

omit [DecidableEq Srv] in
/-- The caller of a request in a mailbox gives up on it. -/
theorem Refines.abandon_owned (h : Refines Q n a) {m : Envelope Pid Req S}
    (hm : m ∈ n.mailbox S) (howned : Owned n a S m) :
    Matched Q (∃ keep, · = .abandon m.sender keep) a (some (.abandoned m.sender))
      (n.setCaller m.sender .idle) := by
  have hcall := howned.call
  have hlate := howned.late
  have hstep : a.step Q (.abandon m.sender (some m.ref) : Atomic.Label Pid Inp Env Req) =
    some { a.setCall m.sender none with
      late := Function.update a.late m.ref (some ⟨S, m.request⟩) } := by
    simp [Atomic.step, hcall, hlate]
  have hwaiting : ∀ {p S' k ref}, (n.setCaller m.sender .idle).caller p = .waiting S' k ref →
      p ≠ m.sender ∧ n.caller p = .waiting S' k ref := fun hp =>
    Net.waiting_of_setCaller (c := .idle) (by simp) hp
  have hcaller : ∀ p S' k, (n.setCaller m.sender .idle).caller p ≠ .waiting S' k m.ref :=
    fun p S' k hp => (hwaiting hp).1 (h.distinct _ _ _ _ _ _ _ (hwaiting hp).2 howned.caller)
  obtain ⟨ps, hps⟩ := h.busy
  refine Matched.of_step (D := (∃ keep, · = .abandon m.sender keep)) ⟨_, rfl⟩ hstep
    ⟨h.state, fun p => ?_, fun S' m' hm' => ?_, h.nodup, ?_, h.inbox, fun k hk => ?_, ps, ?_⟩
  · by_cases hpp : p = m.sender
    · subst hpp
      simp [Net.setCaller, Atomic.setCall, Stands]
    · have hother : (n.setCaller m.sender .idle).caller p = n.caller p := by
        simp [Net.setCaller, hpp]
      rw [hother]
      exact (h.caller p).mono (by simp [Atomic.setCall, hpp]) rfl rfl (Nat.le_refl _)
        (fun _ _ hm _ => hm) fun _ _ _ ho => ho
  · obtain ⟨halive, hfresh, hstands⟩ := h.mail S' m' hm'
    refine ⟨halive, hfresh, ?_⟩
    by_cases href : m'.ref = m.ref
    · -- the request is the one that was given up
      rcases hstands with howned' | horphan
      · have hcaller' := howned'.caller
        rw [href] at hcaller'
        have hsender := h.distinct _ _ _ _ _ _ _ hcaller' howned.caller
        rw [hsender, howned.caller] at hcaller'
        obtain ⟨rfl, -⟩ := Caller.waiting.inj hcaller'
        obtain rfl := h.eq_of_ref_eq hm' hm href
        exact .inr ⟨by simp, hcaller⟩
      · exact absurd howned.caller (href ▸ horphan.caller m.sender S (n.dead S))
    · rcases hstands with howned' | horphan
      · have hne : m'.sender ≠ m.sender := by
          intro hsender
          have hcaller' := howned'.caller
          rw [hsender, howned.caller] at hcaller'
          exact href (Caller.waiting.inj hcaller').2.2.symm
        refine .inl ⟨?_, ?_, howned'.inbox, ?_⟩
        · simpa [Net.setCaller, hne] using howned'.caller
        · simpa [Atomic.setCall, hne] using howned'.call
        · simpa [href] using howned'.late
      · refine .inr ⟨by simpa [href] using horphan.late, fun p S'' k hp => ?_⟩
        exact horphan.caller p S'' k (hwaiting hp).2
  · intro p p' S₁ S₂ k₁ k₂ ref hp hp'
    exact h.distinct p p' S₁ S₂ k₁ k₂ ref (hwaiting hp).2 (hwaiting hp').2
  · by_cases href : k = m.ref
    · subst href
      exact (h.mail S m hm).2.1
    · exact h.late k (by simpa [href] using hk)
  · intro p hp
    refine hps p fun hnone => hp ?_
    simp only [Atomic.setCall]
    by_cases hpp : p = m.sender
    · simp [hpp]
    · simpa [hpp] using hnone

omit [DecidableEq Srv] in
/-- A caller gives up.  The request that it may have in a mailbox is performed late, or never. -/
theorem Refines.abandon (h : Refines Q n a) (hp : n.caller p ≠ .idle) :
    Matched Q (∃ keep, · = .abandon p keep) a (some (.abandoned p))
      (n.setCaller p .idle) := by
  have hcall : a.call p ≠ none := by
    intro hnone
    have hstands := h.caller p
    cases hc : n.caller p with
    | idle => exact hp hc
    | noproc S => simp [hc, Stands, hnone] at hstands
    | found S r k =>
      rw [hc] at hstands
      obtain ⟨-, hcur, hold⟩ := hstands
      by_cases hk : k = n.dead S
      · simp [hnone] at hcur
        exact absurd hk hcur
      · simp [hnone, hk] at hold
    | waiting S k ref =>
      rw [hc] at hstands
      rcases hstands.2 with ⟨m, hm, rfl, href⟩ | ⟨o, -, hans⟩
      · simp [(h.owned_of_waiting hc hm href).call] at hnone
      · simp [hnone] at hans
  by_cases hfree : ∀ S, ∀ m ∈ n.mailbox S, Owned n a S m → m.sender ≠ p
  · have hstep : a.step Q (.abandon p none : Atomic.Label Pid Inp Env Req) =
        some (a.setCall p none) := by
      simp only [Atomic.step]
      split
      · contradiction
      · contradiction
      · rfl
    exact Matched.of_step (D := (∃ keep, · = .abandon p keep)) ⟨_, rfl⟩ hstep
      (h.setIdle hfree)
  · push Not at hfree
    obtain ⟨S, m, hm, howned, rfl⟩ := hfree
    exact h.abandon_owned hm howned

/-- A caller that has found a server begins to wait, under a fresh reference. -/
structure Begins (n n' : Net Pid σ Req Rep) (p : Pid) (S : Srv) (k : Nat) : Prop where
  found : ∃ r, n.caller p = .found S r k
  state : n'.state = n.state
  dead : n'.dead = n.dead
  fresh : n'.fresh = n.fresh + 1
  caller : n'.caller = Function.update n.caller p (.waiting S k n.fresh)
  inbox : ∀ p', p' ≠ p → n'.inbox p' = n.inbox p'

omit [DecidableEq Srv] in
theorem Begins.waiting {n' : Net Pid σ Req Rep} {k : Nat} (hn : Begins n n' p S k) {p' : Pid}
    {S' : Srv} {k' ref : Nat} (h : n'.caller p' = .waiting S' k' ref) :
    (p' = p ∧ ref = n.fresh) ∨ (p' ≠ p ∧ n.caller p' = .waiting S' k' ref) := by
  rw [hn.caller] at h
  by_cases hpp : p' = p
  · subst hpp
    rw [Function.update_self] at h
    cases h
    exact .inl ⟨rfl, rfl⟩
  · exact .inr ⟨hpp, by simpa [hpp] using h⟩

omit [DecidableEq Srv] in
/-- The requests that were in the mailboxes stand as they did. -/
theorem Refines.begin_mail (h : Refines Q n a) {n' : Net Pid σ Req Rep} {k : Nat}
    (hn : Begins n n' p S k) {S' : Srv} {m : Envelope Pid Req S'} (hm : m ∈ n.mailbox S') :
    Q.alive S' n'.state = true ∧ m.ref < n'.fresh ∧ (Owned n' a S' m ∨ Orphan n' a S' m) := by
  obtain ⟨halive, hfresh, hstands⟩ := h.mail S' m hm
  refine ⟨hn.state ▸ halive, by rw [hn.fresh]; omega, ?_⟩
  rcases hstands with howned | horphan
  · have hne : m.sender ≠ p := by
      rintro rfl
      obtain ⟨r, hfound⟩ := hn.found
      have hcaller := howned.caller
      rw [hfound] at hcaller
      cases hcaller
    refine .inl ⟨?_, howned.call, ?_, howned.late⟩
    · rw [hn.caller, hn.dead, Function.update_of_ne hne]
      exact howned.caller
    · rw [hn.inbox _ hne]
      exact howned.inbox
  · refine .inr ⟨horphan.late, fun p' S'' k' hp' => ?_⟩
    rcases hn.waiting hp' with ⟨-, href⟩ | ⟨-, hold⟩
    · omega
    · exact horphan.caller p' S'' k' hold

omit [DecidableEq Srv] in
theorem Refines.begin (h : Refines Q n a) {n' : Net Pid σ Req Rep} {k : Nat}
    (hn : Begins n n' p S k) (hstands : Stands Q n' a p (.waiting S k n.fresh))
    (hold : ∀ S, ∀ m ∈ n.mailbox S, m ∈ n'.mailbox S)
    (hmail : ∀ S, ∀ m ∈ n'.mailbox S, Q.alive S n'.state = true ∧ m.ref < n'.fresh ∧
      (Owned n' a S m ∨ Orphan n' a S m))
    (hnodup : ∀ S, ((n'.mailbox S).map Envelope.ref).Nodup)
    (hinbox : ∀ S, ∀ m ∈ n'.inbox p S, m.1 < n'.fresh) : Refines Q n' a where
  state := h.state.trans hn.state.symm
  caller p' := by
    rw [hn.caller]
    by_cases hpp : p' = p
    · subst hpp
      rwa [Function.update_self]
    · rw [Function.update_of_ne hpp]
      exact (h.caller p').mono rfl hn.dead hn.state (by rw [hn.fresh]; omega)
        (fun S m hm _ => hold S m hm) fun S ref o ho => by rwa [hn.inbox p' hpp]
  mail := hmail
  nodup := hnodup
  distinct p₁ p₂ S₁ S₂ k₁ k₂ ref h₁ h₂ := by
    have hless : ∀ p' S' k', n.caller p' = .waiting S' k' ref → ref < n.fresh := by
      intro p' S' k' hp'
      have hstands := h.caller p'
      rw [hp'] at hstands
      exact hstands.1
    rcases hn.waiting h₁ with ⟨rfl, href⟩ | ⟨-, hold₁⟩
    · rcases hn.waiting h₂ with ⟨rfl, -⟩ | ⟨-, hold₂⟩
      · rfl
      · have hlt := hless _ _ _ hold₂
        omega
    · rcases hn.waiting h₂ with ⟨rfl, href⟩ | ⟨-, hold₂⟩
      · have hlt := hless _ _ _ hold₁
        omega
      · exact h.distinct _ _ _ _ _ _ _ hold₁ hold₂
  inbox p' S' m hm := by
    by_cases hpp : p' = p
    · subst hpp
      exact hinbox S' m hm
    · rw [hn.inbox p' hpp] at hm
      have hlt := h.inbox p' S' m hm
      rw [hn.fresh]
      omega
  late k' hk' := by
    have hlt := h.late k' hk'
    rw [hn.fresh]
    omega
  busy := h.busy

omit [DecidableEq Srv] [DecidableEq Pid] in
theorem Refines.lookup_fresh (h : Refines Q n a) (p : Pid) (S : Srv) :
    (n.inbox p S).lookup n.fresh = none := by
  refine List.lookup_eq_none_iff.mpr fun m hm => ?_
  have hlt := h.inbox p S m hm
  simp
  omega

/-- A request is sent to the server that was found. -/
theorem Refines.send (h : Refines Q n a) {r : Req S} (hp : n.caller p = .found S r (n.dead S)) :
    Refines Q { n.setCaller p (.waiting S (n.dead S) n.fresh) with
      fresh := n.fresh + 1
      mailbox := Function.update n.mailbox S (n.mailbox S ++ [⟨p, n.fresh, r⟩]) } a := by
  have hstands := h.caller p
  rw [hp] at hstands
  obtain ⟨halive, hcall⟩ := hstands.2.1 rfl
  have hlookup := h.lookup_fresh p S
  have hlate : a.late n.fresh = none := by
    by_contra hne
    exact absurd (h.late _ hne) (Nat.lt_irrefl _)
  have hn : Begins n { n.setCaller p (.waiting S (n.dead S) n.fresh) with
      fresh := n.fresh + 1
      mailbox := Function.update n.mailbox S (n.mailbox S ++ [⟨p, n.fresh, r⟩]) } p S
      (n.dead S) := ⟨⟨r, hp⟩, rfl, rfl, rfl, rfl, fun _ _ => rfl⟩
  refine h.begin hn ⟨Nat.lt_succ_self _, .inl ⟨⟨p, n.fresh, r⟩, by simp, rfl, rfl⟩⟩ ?_ ?_ ?_ ?_
  · intro S' m hm
    by_cases hS : S' = S
    · subst hS
      simp [hm]
    · simpa [hS] using hm
  · intro S' m hm
    by_cases hS : S' = S
    · subst hS
      simp only [Function.update_self, List.mem_append, List.mem_singleton] at hm
      rcases hm with hm | rfl
      · exact h.begin_mail hn hm
      · refine ⟨halive, Nat.lt_succ_self _, .inl ⟨?_, hcall, hlookup, hlate⟩⟩
        simp [Net.setCaller]
    · exact h.begin_mail hn (by simpa [hS] using hm)
  · intro S'
    by_cases hS : S' = S
    · subst hS
      simp only [Function.update_self, List.map_append, List.map_cons, List.map_nil]
      refine List.nodup_append.mpr ⟨h.nodup S', List.nodup_singleton _, ?_⟩
      intro ref href ref' href'
      obtain ⟨m, hm, rfl⟩ := List.mem_map.mp href
      have hlt := (h.mail S' m hm).2.1
      rw [List.mem_singleton.mp href']
      omega
    · simpa [hS] using h.nodup S'
  · intro S' m hm
    exact Nat.lt_succ_of_lt (h.inbox p S' m hm)

/-- A request is sent to a server that has died since it was found. -/
theorem Refines.send_dead (h : Refines Q n a) {r : Req S} {k : Nat}
    (hp : n.caller p = .found S r k) (hk : k ≠ n.dead S) :
    Refines Q (Net.post p S (n.fresh, none)
      { n.setCaller p (.waiting S k n.fresh) with fresh := n.fresh + 1 }) a := by
  have hstands := h.caller p
  rw [hp] at hstands
  have hcall := hstands.2.2 hk
  have hlookup := h.lookup_fresh p S
  have hn : Begins n (Net.post p S (n.fresh, none)
      { n.setCaller p (.waiting S k n.fresh) with fresh := n.fresh + 1 }) p S k :=
    ⟨⟨r, hp⟩, rfl, rfl, rfl, rfl, fun p' hpp => by simp [Net.post, Net.setCaller, hpp]⟩
  refine h.begin hn ⟨Nat.lt_succ_self _, .inr ⟨none, ?_, hcall⟩⟩ (fun _ _ hm => hm)
    (fun S' m hm => h.begin_mail hn hm) h.nodup ?_
  · simp [Net.post, Net.setCaller, List.lookup_append, hlookup]
  · intro S' m hm
    show m.1 < n.fresh + 1
    by_cases hS : S' = S
    · subst hS
      simp only [Net.post, Net.setCaller, Function.update_self, List.mem_append,
        List.mem_singleton] at hm
      rcases hm with hm | rfl
      · exact Nat.lt_succ_of_lt (h.inbox p S' m hm)
      · exact Nat.lt_succ_self _
    · simp only [Net.post, Net.setCaller, Function.update_self, Function.update_of_ne hS] at hm
      exact Nat.lt_succ_of_lt (h.inbox p S' m hm)

/-- Anything else happens to the state. -/
theorem Refines.change (h : Refines Q n a) (e : Env) :
    Matched Q (· = .change e) a (some (.changed e))
      (n.settle Q (Q.change e n.state)) := by
  obtain ⟨ps, href⟩ := h.settle (Q.change e n.state)
    { a with state := Q.change e a.state } (congrArg (Q.change e) h.state) rfl fun _ => .inl rfl
  exact ⟨_, ps, .inr ⟨.change e, rfl, rfl, rfl⟩, href⟩

omit [DecidableEq Pid] in
/-- The other requests in the mailboxes, when the first of one mailbox is taken. -/
theorem Refines.mem_take (h : Refines Q n a) {m : Envelope Pid Req S}
    {rest : List (Envelope Pid Req S)} (hS : n.mailbox S = m :: rest) {S' : Srv}
    {m' : Envelope Pid Req S'} :
    m' ∈ (n.take S rest).mailbox S' ↔ m' ∈ n.mailbox S' ∧ (S' = S → m'.ref ≠ m.ref) := by
  have hnodup := h.nodup S
  rw [hS, List.map_cons, List.nodup_cons] at hnodup
  by_cases hSS : S' = S
  · subst hSS
    simp only [Net.take, Function.update_self, hS, List.mem_cons, forall_const]
    constructor
    · intro hm'
      exact ⟨.inr hm', fun href => hnodup.1 (href ▸ List.mem_map_of_mem hm')⟩
    · rintro ⟨rfl | hm', href⟩
      · exact absurd rfl href
      · exact hm'
  · simp [Net.take, hSS]

omit [DecidableEq Pid] in
theorem Refines.nodup_take (h : Refines Q n a) {m : Envelope Pid Req S}
    {rest : List (Envelope Pid Req S)} (hS : n.mailbox S = m :: rest) (S' : Srv) :
    (((n.take S rest).mailbox S').map Envelope.ref).Nodup := by
  by_cases hSS : S' = S
  · subst hSS
    have hnodup := h.nodup S'
    rw [hS, List.map_cons, List.nodup_cons] at hnodup
    simpa [Net.take] using hnodup.2
  · simpa [Net.take, hSS] using h.nodup S'

omit [DecidableEq Pid] in
/-- A request is taken that its caller has given up on. -/
theorem Refines.take_orphan (h : Refines Q n a) {m : Envelope Pid Req S}
    {rest : List (Envelope Pid Req S)} (hS : n.mailbox S = m :: rest) (hm : Orphan n a S m) :
    Refines Q (n.take S rest) { a with late := Function.update a.late m.ref none } where
  state := h.state
  caller p := by
    have hstands := h.caller p
    show Stands Q (n.take S rest) _ p (n.caller p)
    cases hc : n.caller p with
    | idle | noproc S' | found S' r k => rwa [hc] at hstands
    | waiting S' k ref =>
      rw [hc] at hstands
      refine ⟨hstands.1, hstands.2.imp ?_ id⟩
      rintro ⟨m', hm', hsender, rfl⟩
      refine ⟨m', (h.mem_take hS).mpr ⟨hm', fun _ href => ?_⟩, hsender, rfl⟩
      exact hm.caller p S' k (href ▸ hc)
  mail S' m' hm' := by
    obtain ⟨hm', hne⟩ := (h.mem_take hS).mp hm'
    obtain ⟨halive, hfresh, hstands⟩ := h.mail S' m' hm'
    have href : m'.ref ≠ m.ref := by
      intro href
      rcases hstands with howned | horphan
      · exact hm.caller _ _ _ (href ▸ howned.caller)
      · have hlate := horphan.late
        rw [href, hm.late] at hlate
        exact hne (congrArg Sigma.fst (Option.some.inj hlate)).symm href
    refine ⟨halive, hfresh, ?_⟩
    rcases hstands with howned | horphan
    · exact .inl ⟨howned.caller, howned.call, howned.inbox, by simpa [href] using howned.late⟩
    · exact .inr ⟨by simpa [href] using horphan.late, horphan.caller⟩
  nodup := h.nodup_take hS
  distinct := h.distinct
  inbox := h.inbox
  late k hk := by
    refine h.late k fun hnone => hk ?_
    by_cases href : k = m.ref
    · simp [href]
    · simpa [href] using hnone
  busy := h.busy

/-- The reply to a request that its caller has given up on is never read. -/
theorem Refines.post_stray (h : Refines Q n a) {ref : Nat}
    (hp : ∀ S' k, n.caller p ≠ .waiting S' k ref) (href : ref < n.fresh) (S : Srv)
    (o : Option (Rep S)) : Refines Q (n.post p S (ref, o)) a := by
  have hlookup : ∀ p' S' ref', (p' = p → ref' ≠ ref) →
      (((n.post p S (ref, o)).inbox p' S').lookup ref') = (n.inbox p' S').lookup ref' := by
    intro p' S' ref' hne
    by_cases hpp : p' = p
    · subst hpp
      by_cases hS : S' = S
      · subst hS
        have hbeq : (ref' == ref) = false := by simpa using hne rfl
        simp [Net.post, List.lookup_append, List.lookup_cons, hbeq]
      · simp [Net.post, hS]
    · simp [Net.post, hpp]
  have hwaiting : ∀ {p' S' k ref'}, n.caller p' = .waiting S' k ref' → p' = p → ref' ≠ ref := by
    rintro p' S' k ref' hc rfl rfl
    exact hp S' k hc
  refine ⟨h.state, fun p' => ?_, fun S' m hm => ?_, h.nodup, h.distinct, fun p' S' m hm => ?_,
    h.late, h.busy⟩
  · have hstands := h.caller p'
    show Stands Q (n.post p S (ref, o)) a p' (n.caller p')
    cases hc : n.caller p' with
    | idle | noproc S' | found S' r k => rwa [hc] at hstands
    | waiting S' k ref' =>
      rw [hc] at hstands
      refine ⟨hstands.1, hstands.2.imp id ?_⟩
      rintro ⟨o', ho', hans⟩
      exact ⟨o', (hlookup p' S' ref' (hwaiting hc)).trans ho', hans⟩
  · obtain ⟨halive, hfresh, hstands⟩ := h.mail S' m hm
    refine ⟨halive, hfresh, ?_⟩
    rcases hstands with howned | horphan
    · refine .inl ⟨howned.caller, howned.call, ?_, howned.late⟩
      exact (hlookup _ S' _ (hwaiting howned.caller)).trans howned.inbox
    · exact .inr ⟨horphan.late, horphan.caller⟩
  · show m.1 < n.fresh
    by_cases hpp : p' = p
    · subst hpp
      by_cases hS : S' = S
      · subst hS
        simp only [Net.post, Function.update_self, List.mem_append, List.mem_singleton] at hm
        rcases hm with hm | rfl
        · exact h.inbox p' S' m hm
        · exact href
      · exact h.inbox p' S' m (by simpa [Net.post, hS] using hm)
    · exact h.inbox p' S' m (by simpa [Net.post, hpp] using hm)

/-- A request is taken, and its caller is sent the reply. -/
theorem Refines.take_owned (h : Refines Q n a) {m : Envelope Pid Req S}
    {rest : List (Envelope Pid Req S)} (hS : n.mailbox S = m :: rest) (hm : Owned n a S m)
    (o : Rep S) : Refines Q ((n.take S rest).post m.sender S (m.ref, some o))
      (a.setCall m.sender (some (.answered S (some o)))) := by
  have hmem : m ∈ n.mailbox S := by simp [hS]
  have hself : ((n.take S rest).post m.sender S (m.ref, some o)).inbox m.sender S =
      n.inbox m.sender S ++ [(m.ref, some o)] := by simp [Net.post, Net.take]
  have hother : ∀ p, p ≠ m.sender →
      ((n.take S rest).post m.sender S (m.ref, some o)).inbox p = n.inbox p := by
    intro p hp
    simp [Net.post, Net.take, hp]
  have hsender : ∀ {S'} {m' : Envelope Pid Req S'}, m' ∈ (n.take S rest).mailbox S' →
      Owned n a S' m' → m'.sender ≠ m.sender := by
    intro S' m' hm' howned hsender
    have hcaller := howned.caller
    rw [hsender, hm.caller] at hcaller
    obtain ⟨rfl, -, href⟩ := Caller.waiting.inj hcaller
    exact ((h.mem_take hS).mp hm').2 rfl href.symm
  obtain ⟨ps, hps⟩ := h.busy
  refine ⟨h.state, fun p => ?_, fun S' m' hm' => ?_, h.nodup_take hS, h.distinct,
    fun p S' m' hm' => ?_, h.late, m.sender :: ps, fun p hp => ?_⟩
  · show Stands Q _ _ p (n.caller p)
    by_cases hp : p = m.sender
    · subst hp
      rw [hm.caller]
      refine ⟨(h.mail S m hmem).2.1, .inr ⟨some o, ?_, by simp [Atomic.setCall]⟩⟩
      rw [hself, List.lookup_append, hm.inbox]
      simp
    · refine (h.caller p).mono (by simp [Atomic.setCall, hp]) rfl rfl (Nat.le_refl _)
        (fun S' m' hm' hp' => (h.mem_take hS).mpr ⟨hm', ?_⟩) fun S' ref o' ho' => ?_
      · rintro rfl href
        exact hp (hp' ▸ congrArg Envelope.sender (h.eq_of_ref_eq hm' hmem href))
      · rwa [hother p hp]
  · have hold := (h.mem_take hS).mp hm'
    obtain ⟨halive, hfresh, hstands⟩ := h.mail S' m' hold.1
    refine ⟨halive, hfresh, ?_⟩
    rcases hstands with howned | horphan
    · have hne := hsender hm' howned
      refine .inl ⟨howned.caller, ?_, ?_, howned.late⟩
      · simpa [Atomic.setCall, hne] using howned.call
      · rw [hother _ hne]
        exact howned.inbox
    · exact .inr ⟨horphan.late, horphan.caller⟩
  · show m'.1 < n.fresh
    by_cases hp : p = m.sender
    · subst hp
      by_cases hSS : S' = S
      · subst hSS
        rw [hself, List.mem_append, List.mem_singleton] at hm'
        rcases hm' with hm' | rfl
        · exact h.inbox _ S' m' hm'
        · exact (h.mail S' m hmem).2.1
      · exact h.inbox _ S' m' (by simpa [Net.post, Net.take, hSS] using hm')
    · rw [hother p hp] at hm'
      exact h.inbox p S' m' hm'
  · by_cases hpp : p = m.sender
    · simp [hpp]
    · exact List.mem_cons_of_mem _ (hps p (by simpa [Atomic.setCall, hpp] using hp))

omit [DecidableEq Pid] in
/-- A server that dies loses its mailbox with or without the request that it was handling. -/
theorem Net.settle_take {s' : σ} (hdied : died Q n.state s' S = true)
    (rest : List (Envelope Pid Req S)) : (n.take S rest).settle Q s' = n.settle Q s' := by
  have hmailbox : ((n.take S rest).settle Q s').mailbox = (n.settle Q s').mailbox := by
    funext S'
    by_cases hS : S' = S
    · subst hS
      simp [settle, take, hdied]
    · simp [settle, take, hS]
  simp only [settle, take] at hmailbox ⊢
  rw [hmailbox]
  rfl

/-- A server handles the first request in its mailbox: at this moment the request is performed. -/
theorem Refines.handle (h : Refines Q n a) {m : Envelope Pid Req S}
    {rest : List (Envelope Pid Req S)} (hS : n.mailbox S = m :: rest) {i : Inp}
    {n' : Net Pid σ Req Rep} (hstep : n.step Q (.handle S i) = some n') :
    Matched Q (n.moves (.handle S i)) a none n' := by
  have hmem : m ∈ n.mailbox S := by simp [hS]
  obtain ⟨halive, hfresh, hstands⟩ := h.mail S m hmem
  have hdied := Q.serve_none (S := S) (s := n.state) (r := m.request) (i := i)
  rcases hserve : Q.serve S m.request i n.state with ⟨o, s'⟩
  simp only [hserve] at hdied
  rcases hstands with howned | horphan
  · have hperform : a.step Q (.perform m.sender i) = some { a.setCall m.sender
        (some (.answered S o)) with state := s' } := by
      simp [Atomic.step, howned.call, h.state, hserve]
    have hmoves : n.moves (.handle S i) (.perform m.sender i : Atomic.Label Pid Inp Env Req) :=
      ⟨m, rest, hS, .inl ⟨rfl, howned.caller⟩⟩
    cases o with
    | some o =>
      simp only [Net.step, hS, hserve, Option.some.injEq] at hstep
      subst hstep
      obtain ⟨ps, href⟩ := (h.take_owned hS howned o).settle s'
        { a.setCall m.sender (some (.answered S (some o))) with state := s' } rfl rfl
        fun _ => .inl rfl
      exact ⟨_, ps, .inr ⟨_, hmoves, hperform, rfl⟩, href⟩
    | none =>
      simp only [Net.step, hS, hserve, Option.some.injEq] at hstep
      have hdied : Net.died Q n.state s' S = true := by simp [Net.died, halive, hdied]
      rw [← hstep, Net.settle_take hdied]
      obtain ⟨ps, href⟩ := h.settle s'
        { a.setCall m.sender (some (.answered S none)) with state := s' } rfl rfl fun p => by
          by_cases hp : p = m.sender
          · subst hp
            exact .inr ⟨S, m.request, hdied, howned.call, by simp [Atomic.setCall]⟩
          · exact .inl (by simp [Atomic.setCall, hp])
      exact ⟨_, ps, .inr ⟨_, hmoves, hperform, rfl⟩, href⟩
  · have hlate : a.step Q (.late m.ref i) = some { a with
        state := s', late := Function.update a.late m.ref none } := by
      simp [Atomic.step, horphan.late, h.state, hserve]
    have hmoves : n.moves (.handle S i) (.late m.ref i : Atomic.Label Pid Inp Env Req) :=
      ⟨m, rest, hS, .inr ⟨rfl, horphan.caller⟩⟩
    have htake := h.take_orphan hS horphan
    cases o with
    | some o =>
      simp only [Net.step, hS, hserve, Option.some.injEq] at hstep
      subst hstep
      have hpost := htake.post_stray (fun S' k => horphan.caller m.sender S' k) hfresh S (some o)
      obtain ⟨ps, href⟩ := hpost.settle s'
        { a with state := s', late := Function.update a.late m.ref none } rfl rfl
        fun _ => .inl rfl
      exact ⟨_, ps, .inr ⟨_, hmoves, hlate, rfl⟩, href⟩
    | none =>
      simp only [Net.step, hS, hserve, Option.some.injEq] at hstep
      subst hstep
      obtain ⟨ps, href⟩ := htake.settle s'
        { a with state := s', late := Function.update a.late m.ref none } rfl rfl
        fun _ => .inl rfl
      exact ⟨_, ps, .inr ⟨_, hmoves, hlate, rfl⟩, href⟩

theorem Refines.step (h : Refines Q n a) {l : Net.Label Pid Inp Env Req}
    {n' : Net Pid σ Req Rep} (hstep : n.step Q l = some n') :
    Matched Q (n.moves l) a (n.event l) n' := by
  cases l with
  | lookup p S r =>
    simp only [Net.step] at hstep
    split at hstep
    · rename_i hp
      cases hstep
      exact h.lookup hp
    · cases hstep
  | send p =>
    simp only [Net.step] at hstep
    split at hstep
    · rename_i S r k hp
      split at hstep
      · rename_i hk
        subst hk
        cases hstep
        exact .of_refines (fun _ hk => hk) (h.send hp)
      · rename_i hk
        cases hstep
        exact .of_refines (fun _ hk => hk) (h.send_dead hp hk)
    · cases hstep
  | handle S i =>
    cases hS : n.mailbox S with
    | nil => simp [Net.step, hS] at hstep
    | cons m rest => exact h.handle hS hstep
  | receive p =>
    simp only [Net.step] at hstep
    split at hstep
    · rename_i S hp
      cases hstep
      show Matched Q (· = .finish p) a _ _
      simpa only [Net.event, hp] using h.noproc hp
    · rename_i S k ref hp
      split at hstep
      · rename_i o ho
        cases hstep
        show Matched Q (· = .finish p) a _ _
        simpa only [Net.event, hp, ho, Option.map_some] using h.receive hp ho
      · cases hstep
    · cases hstep
  | abandon p =>
    simp only [Net.step] at hstep
    split at hstep
    · cases hstep
    · rename_i hp
      cases hstep
      exact h.abandon hp
  | change e =>
    cases hstep
    exact h.change e

/-- Every run of calls by messages shows what a run of atomic calls shows, and ends in the state in
which that ends. -/
theorem Net.run_refines [Inhabited Inp] {s : σ} {ls : List (Label Pid Inp Env Req)}
    {n : Net Pid σ Req Rep} (hrun : run (step Q) (init s) ls = some n) :
    ∃ ks a, run (Atomic.step Q) (.init s) ks = some a ∧
      observe (Atomic.step Q) Atomic.event (.init s) ks = observe (step Q) event (init s) ls ∧
      Refines Q n a :=
  Machine.run_refines (R := Refines Q) (.init s) (fun _ _ _ _ h _ hstep => (h.step hstep).run)
    hrun (always_true _ _)

/-- A server with a request in its mailbox can handle it. -/
theorem Net.handle_some {m : Envelope Pid Req S} {rest : List (Envelope Pid Req S)}
    (hS : n.mailbox S = m :: rest) (i : Inp) : ∃ n', n.step Q (.handle S i) = some n' ∧
      n'.caller = n.caller ∧ (n'.mailbox S).length ≤ rest.length := by
  have hlength : ∀ (n₁ : Net Pid σ Req Rep) s', n₁.mailbox S = rest →
      ((n₁.settle Q s').mailbox S).length ≤ rest.length := by
    intro n₁ s' hn₁
    simp only [settle]
    split
    · exact Nat.zero_le _
    · exact Nat.le_of_eq (congrArg List.length hn₁)
  rcases hserve : Q.serve S m.request i n.state with ⟨o, s'⟩
  cases o with
  | some o =>
    refine ⟨((n.take S rest).post m.sender S (m.ref, some o)).settle Q s', ?_, rfl, ?_⟩
    · simp only [step, hS, hserve]
    · exact hlength _ s' (by simp [post, take])
  | none =>
    refine ⟨(n.take S rest).settle Q s', ?_, rfl, ?_⟩
    · simp only [step, hS, hserve]
    · exact hlength _ s' (by simp [take])

/-- No answer is lost: by the time its server has handled as many requests as are in the mailbox,
a caller that waits has an answer to read. -/
theorem Refines.answered {k ref : Nat} (is : List Inp) (h : Refines Q n a)
    (hp : n.caller p = .waiting S k ref) (hbound : (n.mailbox S).length ≤ is.length) :
    ∃ used, used <+: is ∧ ∃ n', run (Net.step Q) n (used.map (.handle S)) = some n' ∧
      n'.caller p = .waiting S k ref ∧ ∃ o, (n'.inbox p S).lookup ref = some o := by
  have hstands := h.caller p
  rw [hp] at hstands
  induction is generalizing n a with
  | nil =>
    rcases hstands.2 with ⟨m, hm, -⟩ | ⟨o, ho, -⟩
    · simp [List.eq_nil_of_length_eq_zero (Nat.le_zero.mp hbound)] at hm
    · exact ⟨[], List.nil_prefix, n, rfl, hp, o, ho⟩
  | cons i is ih =>
    rcases hstands.2 with ⟨m, hm, -⟩ | ⟨o, ho, -⟩
    · cases hS : n.mailbox S with
      | nil => simp [hS] at hm
      | cons m' rest =>
        obtain ⟨n₁, hstep, hcaller, hlength⟩ := Net.handle_some (Q := Q) hS i
        obtain ⟨a₁, ps, -, h₁⟩ := h.step hstep
        have hp₁ : n₁.caller p = .waiting S k ref := by rw [hcaller, hp]
        have hbound₁ : (n₁.mailbox S).length ≤ is.length := by
          rw [hS, List.length_cons, List.length_cons] at hbound
          omega
        have hstands₁ := h₁.caller p
        rw [hp₁] at hstands₁
        obtain ⟨used, hused, n', hrun, hn'⟩ := ih h₁ hp₁ hbound₁ hstands₁
        refine ⟨i :: used, List.prefix_cons_inj i |>.mpr hused, n', ?_, hn'⟩
        rw [List.map_cons, run_cons, hstep, Option.bind_some, hrun]
    · exact ⟨[], List.nil_prefix, n, rfl, hp, o, ho⟩

/-! Whatever happens between them, each request that a server handles brings the requests behind it
one place forward: new ones go to the end of the mailbox. -/

/-- The request `ref` has been sent, and it is one of the first `j` in the mailbox of `S` if it is
there at all. -/
structure Net.Within (n : Net Pid σ Req Rep) (S : Srv) (ref j : Nat) : Prop where
  sent : ref < n.fresh
  behind : ∀ m ∈ (n.mailbox S).drop j, m.ref ≠ ref

/-- What a step leaves of a mailbox, with what it may put at its end. -/
theorem Net.step_mailbox {l : Net.Label Pid Inp Env Req} {n' : Net Pid σ Req Rep}
    (hstep : n.step Q l = some n') (S : Srv) : n.fresh ≤ n'.fresh ∧
    (n'.mailbox S = [] ∨ ∃ new, (∀ m ∈ new, m.ref = n.fresh) ∧
      n'.mailbox S = (n.mailbox S).drop (if l.handles S then 1 else 0) ++ new) := by
  have hsettle : ∀ (n₁ : Net Pid σ Req Rep) s', (n₁.settle Q s').mailbox S = [] ∨
      (n₁.settle Q s').mailbox S = n₁.mailbox S := by
    intro n₁ s'
    simp only [settle]
    split
    · exact .inl rfl
    · exact .inr rfl
  cases l with
  | lookup p S' r =>
    simp only [step] at hstep
    split at hstep
    · cases hstep
      exact ⟨Nat.le_refl _, .inr ⟨[], by simp, by simp [setCaller, Label.handles]⟩⟩
    · cases hstep
  | send p =>
    simp only [step] at hstep
    split at hstep
    · rename_i S' r k hp
      split at hstep
      · cases hstep
        refine ⟨Nat.le_succ _, .inr ?_⟩
        by_cases hS : S = S'
        · subst hS
          exact ⟨[⟨p, n.fresh, r⟩], by simp, by simp [Label.handles]⟩
        · exact ⟨[], by simp, by simp [Label.handles, hS]⟩
      · cases hstep
        exact ⟨Nat.le_succ _, .inr ⟨[], by simp, by simp [post, setCaller, Label.handles]⟩⟩
    · cases hstep
  | handle S' i =>
    cases hS' : n.mailbox S' with
    | nil => simp [step, hS'] at hstep
    | cons m rest =>
      have hleft : n'.fresh = n.fresh ∧
          (n'.mailbox S = [] ∨ n'.mailbox S = (n.take S' rest).mailbox S) := by
        simp only [step, hS'] at hstep
        split at hstep
        · cases hstep
          exact ⟨rfl, hsettle _ _⟩
        · cases hstep
          exact ⟨rfl, hsettle _ _⟩
      refine ⟨Nat.le_of_eq hleft.1.symm, hleft.2.imp id fun hmail => ⟨[], by simp, ?_⟩⟩
      rw [hmail]
      by_cases hS : S = S'
      · subst hS
        simp [take, Label.handles, hS']
      · simp [take, Label.handles, hS, Ne.symm hS]
  | receive p =>
    simp only [step] at hstep
    split at hstep
    · cases hstep
      exact ⟨Nat.le_refl _, .inr ⟨[], by simp, by simp [setCaller, Label.handles]⟩⟩
    · split at hstep
      · cases hstep
        exact ⟨Nat.le_refl _, .inr ⟨[], by simp, by simp [flush, setCaller, Label.handles]⟩⟩
      · cases hstep
    · cases hstep
  | abandon p =>
    simp only [step] at hstep
    split at hstep
    · cases hstep
    · cases hstep
      exact ⟨Nat.le_refl _, .inr ⟨[], by simp, by simp [setCaller, Label.handles]⟩⟩
  | change e =>
    cases hstep
    refine ⟨Nat.le_refl _, (hsettle n _).imp id fun hmail => ⟨[], by simp, ?_⟩⟩
    simpa [Label.handles] using hmail

theorem Net.Within.step {ref j : Nat} (h : n.Within S ref j) {l : Net.Label Pid Inp Env Req}
    {n' : Net Pid σ Req Rep} (hstep : n.step Q l = some n') :
    n'.Within S ref (j - if l.handles S then 1 else 0) := by
  obtain ⟨hfresh, hmail⟩ := Net.step_mailbox hstep S
  refine ⟨Nat.lt_of_lt_of_le h.sent hfresh, fun m hm => ?_⟩
  rcases hmail with hnil | ⟨new, hnew, hmail⟩
  · simp [hnil] at hm
  · rw [hmail, List.drop_append, List.mem_append, List.drop_drop] at hm
    rcases hm with hm | hm
    · exact h.behind m (List.drop_subset_drop_left _ (by omega) hm)
    · have href := hnew m (List.mem_of_mem_drop hm)
      have hsent := h.sent
      omega

omit [DecidableEq Srv] [DecidableEq Pid] in
/-- A caller whose request is not in the mailbox any more has an answer to read. -/
theorem Refines.answered_of_within {k ref : Nat} (h : Refines Q n a)
    (hp : n.caller p = .waiting S k ref) (hn : n.Within S ref 0) :
    ∃ o, (n.inbox p S).lookup ref = some o := by
  have hstands := h.caller p
  rw [hp] at hstands
  rcases hstands.2 with ⟨m, hm, -, href⟩ | ⟨o, ho, -⟩
  · exact absurd href (hn.behind m hm)
  · exact ⟨o, ho⟩

end Calls
