import WebServerl.Lib.KeyedHistory
import WebServerl.Store.DbLogin
import WebServerl.Store.Runs

/-! `db_login` as an account map: its answers follow from the requests before them, whatever the
table looks like. -/

namespace WebServerl.DbLogin

open Erlang Erlang.Mnesia Machine History

section Refinement

variable [Crypto]

theorem computes : Computes .dbLogin handleCall answer := fun _ _ hT => handleCall_apply hT

/-- An accepted `create_account` of the user name with the password. -/
def Accepted (username password : Term) (e : (Request × DateTime) × Option (Callback Login)) :
    Prop :=
  e.1.1 = .createAccount username password ∧ e.2 = some (.reply .ok)

/-- Neither an accepted `create_account` nor a `remove` of the user name. -/
def Keeps (username : Term) (e : (Request × DateTime) × Option (Callback Login)) : Prop :=
  (∀ password, ¬ Accepted username password e) ∧ e.1.1 ≠ .remove username

/-- The most recent accepted `create_account` of the user name had this password, and no `remove`
came after it. -/
def InForce (username password : Term) : History Request Login → Prop :=
  Since (Accepted username password) (Keeps username)

/-- The rows of the table are the accounts in force, with their passwords hashed. -/
structure Represents (used : Set Term) (hist : History Request Login) (T : Table Login) : Prop where
  mem_iff : ∀ row, row ∈ T ↔ ∃ password, InForce row.username password hist ∧
    Crypto.hash password = row.password
  password_used : ∀ username password, InForce username password hist → password ∈ used

/-- The passwords in a request. -/
def passwords : Request → List Term
  | .createAccount _ password => [password]
  | .attemptLogin _ password => [password]
  | .remove _ => []

/-- What a request and its answer do to the accounts. -/
def effect : (Request × DateTime) × Option (Callback Login) → Effect Term Term
  | ((.createAccount username password, _), some (.reply .ok)) => .store username password
  | ((.remove username, _), _) => .remove username
  | _ => .none

omit [Crypto] in
theorem accepted_iff {username password : Term}
    {e : (Request × DateTime) × Option (Callback Login)} :
    Accepted username password e ↔ effect e = .store username password := by
  obtain ⟨⟨r, now⟩, out⟩ := e
  constructor
  · rintro ⟨rfl, rfl⟩
    rfl
  · intro h
    unfold effect at h
    split at h
    · rename_i heq
      cases heq
      cases h
      exact ⟨rfl, rfl⟩
    · cases h
    · cases h

omit [Crypto] in
theorem removes_iff {username : Term} {e : (Request × DateTime) × Option (Callback Login)} :
    e.1.1 = .remove username ↔ effect e = .remove username := by
  obtain ⟨⟨r, now⟩, out⟩ := e
  constructor
  · rintro rfl
    rfl
  · intro h
    unfold effect at h
    split at h
    · cases h
    · rename_i heq
      cases heq
      cases h
      rfl
    · cases h

omit [Crypto] in
theorem inForce_iff {username password : Term} {hist : History Request Login} :
    InForce username password hist ↔ History.InForce effect username password hist := by
  have hkeeps : Keeps username = Spares effect username := by
    funext e
    simp only [Keeps, Spares, accepted_iff, Ne, removes_iff]
  have haccepted : Accepted username password = fun e => effect e = .store username password :=
    funext fun e => propext accepted_iff
  rw [InForce, History.InForce, hkeeps, haccepted]

theorem represents_iff {used : Set Term} {hist : History Request Login} {T : Table Login} :
    Represents used hist T ↔ History.Represents effect newRow hist T ∧
      ∀ username password, History.InForce effect username password hist → password ∈ used := by
  have hrow {row : Login} : (∃ password, InForce row.username password hist ∧
      Crypto.hash password = row.password) ↔
      ∃ k v, History.InForce effect k v hist ∧ row = newRow k v := by
    simp only [inForce_iff]
    constructor
    · rintro ⟨password, hin, hhash⟩
      refine ⟨row.username, password, hin, ?_⟩
      rw [newRow, hhash]
    · rintro ⟨k, v, hin, rfl⟩
      exact ⟨v, hin, rfl⟩
  constructor
  · rintro ⟨hmem, hused⟩
    exact ⟨fun row => (hmem row).trans hrow, fun k v hin => hused k v (inForce_iff.mpr hin)⟩
  · rintro ⟨hmem, hused⟩
    exact ⟨fun row => (hmem row).trans hrow.symm, fun k v hin => hused k v (inForce_iff.mp hin)⟩

theorem Represents.empty (used : Set Term) : Represents used [] (KeyedTable.empty _) :=
  represents_iff.mpr ⟨.empty, fun _ _ h => absurd h not_since_nil⟩

theorem Represents.mem_keys {used : Set Term} {hist : History Request Login} {T : Table Login}
    (h : Represents used hist T) {username : Term} :
    username ∈ T.keys ↔ ∃ password, InForce username password hist := by
  simp only [inForce_iff]
  exact (represents_iff.mp h).1.mem_keys fun _ _ => rfl

omit [Crypto] in
/-- Only a password of the request comes into force. -/
theorem mem_passwords_of_store {i : Request × DateTime} {out : Option (Callback Login)}
    {username password : Term} (h : effect (i, out) = .store username password) :
    password ∈ passwords i.1 := by
  obtain ⟨hr, -⟩ := accepted_iff.mpr h
  rw [hr]
  exact List.mem_singleton_self password

/-- The simulation step: every request keeps the table and the accounts in force together. -/
theorem Represents.answer {used : Set Term} {hist : History Request Login} {T : Table Login}
    (h : Represents used hist T) (i : Request × DateTime)
    (hused : ∀ password ∈ passwords i.1, password ∈ used) :
    Represents used (hist ++ [(i, some (.reply (DbLogin.answer i.1 i.2 T).1))])
      (DbLogin.answer i.1 i.2 T).2 := by
  obtain ⟨hrep, hold⟩ := represents_iff.mp h
  refine represents_iff.mpr ⟨?_, fun username password hin => ?_⟩
  · obtain ⟨r, now⟩ := i
    cases r with
    | createAccount username password =>
      by_cases hk : username ∈ T.keys
      · rw [answer_create_taken hk]
        exact hrep.concat_none rfl
      · rw [answer_create_new hk]
        exact hrep.concat_store (fun _ _ => rfl) rfl hk
    | remove key => exact hrep.concat_remove (fun _ _ => rfl) rfl
    | attemptLogin username password => exact hrep.concat_none rfl
  · rcases inForce_concat_cases hin with hstore | hin
    · exact hused password (mem_passwords_of_store hstore)
    · exact hold username password hin

/-- What the history `before` a request makes of it. -/
structure AnswersAccounts (before : History Request Login) (r : Request)
    (out : Option (Callback Login)) : Prop where
  create_ok : ∀ username password, r = .createAccount username password →
    (out = some (.reply .ok) ↔ ¬ ∃ p, InForce username p before)
  create_taken : ∀ username password, r = .createAccount username password →
    (out = some (.reply .alreadyInserted) ↔ ∃ p, InForce username p before)
  attempt : ∀ username password, r = .attemptLogin username password →
    ∃ b, out = some (.reply (.bool b)) ∧ (b = true ↔ InForce username password before)

theorem Represents.answersAccounts {used : Set Term} {hist : History Request Login}
    {T : Table Login} (h : Represents used hist T) (hinj : Set.InjOn Crypto.hash used)
    (r : Request) (now : DateTime) (hused : ∀ password ∈ passwords r, password ∈ used) :
    AnswersAccounts hist r (some (.reply (DbLogin.answer r now T).1)) := by
  constructor
  · rintro username password rfl
    rw [← h.mem_keys, Option.some.injEq, Callback.reply.injEq]
    exact insertRow_ok_iff
  · rintro username password rfl
    rw [← h.mem_keys, Option.some.injEq, Callback.reply.injEq]
    exact insertRow_refused_iff
  · rintro username password rfl
    refine ⟨_, rfl, ?_⟩
    rw [decide_eq_true_eq, KeyedTable.mem_rows, h.mem_iff]
    constructor
    · rintro ⟨p, hin, hp⟩
      have hpass : p = password :=
        hinj (h.password_used _ _ hin) (hused _ (by simp [passwords])) hp
      exact hpass ▸ hin
    · exact fun hin => ⟨password, hin, rfl⟩

end Refinement

/-! Ann registers, leaves, registers again with another password, and tries the first one. -/

def rejoin : List (Request × DateTime) :=
  [(.createAccount (.str "Ann") (.str "admin"), .noon), (.remove (.str "Ann"), .noon),
    (.createAccount (.str "Ann") (.str "secret"), .noon)]

def oldPassword : Request × DateTime :=
  (.attemptLogin (.str "Ann") (.str "admin"), .noon)

end WebServerl.DbLogin
