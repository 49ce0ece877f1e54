import WebServerl.Lib.KeyedTable
import Mathlib.Data.List.Perm.Basic
import Mathlib.Data.List.Perm.Subperm

/-! Changes to a keyed table that are put off: at most one for each key, a row to be written or a
key to be deleted.  A reader who knows them sees the table as it will be. -/

namespace KeyedTable

variable {ρ κ : Type} {key : ρ → κ}

/-- The tables have the same rows. -/
def Same (t t' : KeyedTable key) : Prop := ∀ r, r ∈ t ↔ r ∈ t'

theorem nodup_rows (t : KeyedTable key) : t.rows.Nodup := List.Nodup.of_map key t.nodup

theorem Same.perm {t t' : KeyedTable key} (h : t.Same t') : t.rows.Perm t'.rows :=
  (List.perm_ext_iff_of_nodup t.nodup_rows t'.nodup_rows).mpr h

end KeyedTable

/-- A row to be written, or a key to be deleted. -/
inductive Change (ρ κ : Type) where
  | write (r : ρ)
  | delete (k : κ)

namespace Change

variable {ρ κ : Type}

def key (key : ρ → κ) : Change ρ κ → κ
  | .write r => key r
  | .delete k => k

end Change

namespace KeyedTable

variable {ρ κ : Type} {key : ρ → κ} [DecidableEq κ]

/-- The table after a change. -/
def change (t : KeyedTable key) : Change ρ κ → KeyedTable key
  | .write r => t.write r
  | .delete k => t.erase k

theorem mem_change {t : KeyedTable key} {c : Change ρ κ} {r : ρ} :
    r ∈ t.change c ↔ c = .write r ∨ (r ∈ t ∧ key r ≠ c.key key) := by
  cases c with
  | write r' =>
    rw [change, mem_write, Change.write.injEq, eq_comm]
    rfl
  | delete k =>
    rw [change, mem_erase]
    exact ⟨.inr, fun h => h.resolve_left nofun⟩

/-- The table after the changes, one after the other. -/
def changes (t : KeyedTable key) (cs : List (Change ρ κ)) : KeyedTable key := cs.foldl change t

/-- What a reader who knows the changes sees of the table. -/
def Shows (t : KeyedTable key) (cs : List (Change ρ κ)) (r : ρ) : Prop :=
  .write r ∈ cs ∨ (r ∈ t ∧ key r ∉ cs.map (Change.key key))

/-- As there is only one change for each key, their order does not matter. -/
theorem mem_changes {t : KeyedTable key} {cs : List (Change ρ κ)}
    (hcs : (cs.map (Change.key key)).Nodup) {r : ρ} : r ∈ t.changes cs ↔ t.Shows cs r := by
  induction cs generalizing t with
  | nil => simp [changes, Shows]
  | cons c cs ih =>
    rw [List.map_cons, List.nodup_cons] at hcs
    have hfirst : r ∈ t.changes (c :: cs) ↔ r ∈ (t.change c).changes cs := Iff.rfl
    rw [hfirst, ih hcs.2]
    simp only [Shows, mem_change, List.mem_cons, List.map_cons, not_or]
    constructor
    · rintro (hw | ⟨rfl | ⟨hr, hne⟩, hnot⟩)
      · exact .inl (.inr hw)
      · exact .inl (.inl rfl)
      · exact .inr ⟨hr, hne, hnot⟩
    · rintro ((rfl | hw) | ⟨hr, hne, hnot⟩)
      · exact .inr ⟨.inl rfl, hcs.1⟩
      · exact .inl hw
      · exact .inr ⟨.inr ⟨hr, hne⟩, hnot⟩

omit [DecidableEq κ] in
theorem Shows.congr {t : KeyedTable key} {cs cs' : List (Change ρ κ)}
    (h : ∀ c, c ∈ cs ↔ c ∈ cs') {r : ρ} : t.Shows cs r ↔ t.Shows cs' r := by
  have hkeys : key r ∈ cs.map (Change.key key) ↔ key r ∈ cs'.map (Change.key key) := by
    rw [List.mem_map, List.mem_map]
    exact exists_congr fun c => and_congr_left fun _ => h c
  rw [Shows, Shows, h, hkeys]

section Reader

variable {t v : KeyedTable key} {cs cs' : List (Change ρ κ)}

omit [DecidableEq κ] in
/-- A further change, in place of the one for its key. -/
theorem shows_further {c : Change ρ κ}
    (h : ∀ c', c' ∈ cs' ↔ c' = c ∨ (c' ∈ cs ∧ c'.key key ≠ c.key key)) {r : ρ} :
    t.Shows cs' r ↔ c = .write r ∨ (t.Shows cs r ∧ key r ≠ c.key key) := by
  have hkeys : ∀ k, k ∈ cs'.map (Change.key key) ↔
      k = c.key key ∨ k ∈ cs.map (Change.key key) := by
    intro k
    constructor
    · intro hk
      obtain ⟨c', hc', rfl⟩ := List.mem_map.mp hk
      rcases (h c').mp hc' with rfl | ⟨hmem, -⟩
      · exact .inl rfl
      · exact .inr (List.mem_map_of_mem hmem)
    · intro hk
      by_cases heq : k = c.key key
      · rw [heq]
        exact List.mem_map_of_mem ((h c).mpr (.inl rfl))
      · obtain ⟨c', hc', rfl⟩ := List.mem_map.mp (hk.resolve_left heq)
        exact List.mem_map_of_mem ((h c').mpr (.inr ⟨hc', heq⟩))
  rw [Shows, Shows, hkeys, h]
  constructor
  · rintro ((hc | ⟨hw, hne⟩) | ⟨hr, hnot⟩)
    · exact .inl hc.symm
    · exact .inr ⟨.inl hw, hne⟩
    · exact .inr ⟨.inr ⟨hr, fun hk => hnot (.inr hk)⟩, fun hk => hnot (.inl hk)⟩
  · rintro (rfl | ⟨hw | ⟨hr, hnot⟩, hne⟩)
    · exact .inl (.inl rfl)
    · exact .inl (.inr ⟨hw, hne⟩)
    · exact .inr ⟨hr, fun hk => hk.elim hne hnot⟩

omit [DecidableEq κ] in
theorem change_eq_of_key (hcs : (cs.map (Change.key key)).Nodup) {c c' : Change ρ κ} (hc : c ∈ cs)
    (hc' : c' ∈ cs) (hk : c.key key = c'.key key) : c = c' :=
  List.inj_on_of_nodup_map hcs hc hc' hk

variable (hv : ∀ r, r ∈ v ↔ t.Shows cs r)

include hv

theorem read_unchanged {k : κ} (hk : k ∉ cs.map (Change.key key)) : v.read k = t.read k := by
  have hiff : ∀ r, key r = k → (r ∈ v ↔ r ∈ t) := by
    rintro r rfl
    rw [hv]
    constructor
    · rintro (hw | ⟨hr, -⟩)
      · exact absurd (List.mem_map_of_mem hw) hk
      · exact hr
    · exact fun hr => .inr ⟨hr, hk⟩
  rcases t.read_cases k with ⟨hnot, hread⟩ | ⟨r, hr, hkey, hread⟩
  · rw [hread, read_eq_nil]
    intro hmem
    obtain ⟨r, hr, hkey⟩ := mem_keys.mp hmem
    exact hnot (mem_keys.mpr ⟨r, (hiff r hkey).mp hr, hkey⟩)
  · rw [hread, ← hkey]
    exact read_eq_singleton ((hiff r hkey).mpr hr)

theorem read_written {r : ρ} (hr : .write r ∈ cs) : v.read (key r) = [r] :=
  read_eq_singleton ((hv r).mpr (.inl hr))

theorem read_deleted (hcs : (cs.map (Change.key key)).Nodup) {k : κ} (hk : .delete k ∈ cs) :
    v.read k = [] := by
  rw [read_eq_nil]
  intro hmem
  obtain ⟨r, hr, rfl⟩ := mem_keys.mp hmem
  rcases (hv r).mp hr with hw | ⟨-, hnot⟩
  · have heq : (.write r : Change ρ κ) = .delete (key r) := change_eq_of_key hcs hw hk rfl
    cases heq
  · exact hnot (List.mem_map_of_mem hk)

end Reader

end KeyedTable
