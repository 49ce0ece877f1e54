import Mathlib.Data.List.Nodup
import Mathlib.Data.List.Basic

/-! Tables of rows in which no two rows share a key, for any type of rows and any key function.
A write replaces the row of its key, as in a store of type `set`. -/

/-- A list of rows whose keys are pairwise different. -/
structure KeyedTable {ρ κ : Type} (key : ρ → κ) where
  rows : List ρ
  nodup : (rows.map key).Nodup

namespace KeyedTable

variable {ρ κ : Type} {key : ρ → κ}

instance : Membership ρ (KeyedTable key) := ⟨fun t r => r ∈ t.rows⟩

def empty (key : ρ → κ) : KeyedTable key := ⟨[], List.nodup_nil⟩

def keys (t : KeyedTable key) : List κ := t.rows.map key

def size (t : KeyedTable key) : Nat := t.rows.length

theorem mem_rows {t : KeyedTable key} {r : ρ} : r ∈ t.rows ↔ r ∈ t := Iff.rfl

@[simp] theorem not_mem_empty (r : ρ) : r ∉ empty key := List.not_mem_nil

@[simp] theorem keys_empty : (empty key).keys = [] := rfl

@[simp] theorem length_keys (t : KeyedTable key) : t.keys.length = t.size := List.length_map _

theorem mem_keys {t : KeyedTable key} {k : κ} : k ∈ t.keys ↔ ∃ r ∈ t, key r = k := List.mem_map

theorem key_mem_keys {t : KeyedTable key} {r : ρ} (h : r ∈ t) : key r ∈ t.keys :=
  mem_keys.mpr ⟨r, h, rfl⟩

theorem eq_of_key_eq {t : KeyedTable key} {r r' : ρ} (h : r ∈ t) (h' : r' ∈ t)
    (hk : key r = key r') : r = r' :=
  List.inj_on_of_nodup_map t.nodup h h' hk

/-- The keys of the table are those of the numbers from 1 to its size. -/
def Numbered (id : Nat → κ) (t : KeyedTable key) : Prop :=
  ∀ k, k ∈ t.keys ↔ ∃ n, n < t.size ∧ k = id (n + 1)

theorem Numbered.empty (id : Nat → κ) : (empty key).Numbered id := by
  intro k
  simp [size, KeyedTable.empty, keys]

variable {id : Nat → κ}

theorem Numbered.next_not_mem {t : KeyedTable key} (h : t.Numbered id)
    (hid : Function.Injective id) : id (t.size + 1) ∉ t.keys := by
  intro hk
  obtain ⟨n, hn, heq⟩ := (h _).mp hk
  have := hid heq
  omega

variable [DecidableEq κ]

def read (t : KeyedTable key) (k : κ) : List ρ := t.rows.filter fun r => key r = k

def erase (t : KeyedTable key) (k : κ) : KeyedTable key where
  rows := t.rows.filter fun r => key r ≠ k
  nodup := t.nodup.sublist (List.filter_sublist.map key)

/-- The table in which `r` is the row of its key. -/
def write (t : KeyedTable key) (r : ρ) : KeyedTable key where
  rows := r :: (t.erase (key r)).rows
  nodup := by
    rw [List.map_cons, List.nodup_cons]
    refine ⟨fun h => ?_, (t.erase (key r)).nodup⟩
    obtain ⟨r', hr', hk⟩ := List.mem_map.mp h
    simp [erase, hk] at hr'

@[simp] theorem mem_erase {t : KeyedTable key} {k : κ} {r : ρ} :
    r ∈ t.erase k ↔ r ∈ t ∧ key r ≠ k := by
  simp [← mem_rows, erase]

@[simp] theorem mem_write {t : KeyedTable key} {r r' : ρ} :
    r' ∈ t.write r ↔ r' = r ∨ (r' ∈ t ∧ key r' ≠ key r) := by
  rw [← mem_rows, write, List.mem_cons, mem_rows, mem_erase]

@[simp] theorem mem_read {t : KeyedTable key} {k : κ} {r : ρ} :
    r ∈ t.read k ↔ r ∈ t ∧ key r = k := by
  simp [read, mem_rows]

theorem read_eq_nil {t : KeyedTable key} {k : κ} : t.read k = [] ↔ k ∉ t.keys := by
  simp [List.eq_nil_iff_forall_not_mem, mem_keys]

theorem read_eq_singleton {t : KeyedTable key} {r : ρ} (h : r ∈ t) : t.read (key r) = [r] := by
  have hnd : (t.read (key r)).Nodup := (List.Nodup.of_map _ t.nodup).filter _
  have hall : ∀ r' ∈ t.read (key r), r' = r := fun r' hr' =>
    eq_of_key_eq (mem_read.mp hr').1 h (mem_read.mp hr').2
  match hread : t.read (key r) with
  | [] => exact absurd (key_mem_keys h) (read_eq_nil.mp hread)
  | [r'] => rw [hall r' (by simp [hread])]
  | r₁ :: r₂ :: rest =>
    rw [hread, List.nodup_cons] at hnd
    refine absurd (List.mem_cons.mpr (.inl ?_)) hnd.1
    rw [hall r₁ (by simp [hread]), hall r₂ (by simp [hread])]

theorem read_cases (t : KeyedTable key) (k : κ) :
    (k ∉ t.keys ∧ t.read k = []) ∨ ∃ r ∈ t, key r = k ∧ t.read k = [r] := by
  by_cases h : k ∈ t.keys
  · obtain ⟨r, hr, rfl⟩ := mem_keys.mp h
    exact .inr ⟨r, hr, rfl, read_eq_singleton hr⟩
  · exact .inl ⟨h, read_eq_nil.mpr h⟩

/-- Writing a row under a key that is not in use adds it and changes no other row. -/
theorem mem_write_new {t : KeyedTable key} {r r' : ρ} (h : key r ∉ t.keys) :
    r' ∈ t.write r ↔ r' = r ∨ r' ∈ t := by
  rw [mem_write]
  refine or_congr_right ⟨And.left, fun hr' => ⟨hr', fun hk => h ?_⟩⟩
  rw [← hk]
  exact key_mem_keys hr'

theorem mem_keys_write {t : KeyedTable key} {r : ρ} {k : κ} :
    k ∈ (t.write r).keys ↔ k = key r ∨ k ∈ t.keys := by
  constructor
  · intro h
    obtain ⟨r', hr', rfl⟩ := mem_keys.mp h
    rcases mem_write.mp hr' with rfl | ⟨hr', -⟩
    · exact .inl rfl
    · exact .inr (key_mem_keys hr')
  · rintro (rfl | h)
    · exact key_mem_keys (mem_write.mpr (.inl rfl))
    · obtain ⟨r', hr', rfl⟩ := mem_keys.mp h
      by_cases hk : key r' = key r
      · rw [hk]
        exact key_mem_keys (mem_write.mpr (.inl rfl))
      · exact key_mem_keys (mem_write.mpr (.inr ⟨hr', hk⟩))

theorem mem_keys_erase {t : KeyedTable key} {k k' : κ} :
    k' ∈ (t.erase k).keys ↔ k' ∈ t.keys ∧ k' ≠ k := by
  constructor
  · intro h
    obtain ⟨r, hr, rfl⟩ := mem_keys.mp h
    exact ⟨key_mem_keys (mem_erase.mp hr).1, (mem_erase.mp hr).2⟩
  · rintro ⟨h, hne⟩
    obtain ⟨r, hr, rfl⟩ := mem_keys.mp h
    exact key_mem_keys (mem_erase.mpr ⟨hr, hne⟩)

theorem erase_of_not_mem {t : KeyedTable key} {k : κ} (h : k ∉ t.keys) : t.erase k = t := by
  obtain ⟨rows, hnd⟩ := t
  simp only [erase, mk.injEq, List.filter_eq_self]
  intro r hr
  have hk : key r ≠ k := fun hk => h (hk ▸ key_mem_keys (t := ⟨rows, hnd⟩) hr)
  simpa using hk

theorem rows_write_new {t : KeyedTable key} {r : ρ} (h : key r ∉ t.keys) :
    (t.write r).rows = r :: t.rows := by
  show r :: (t.erase (key r)).rows = r :: t.rows
  rw [erase_of_not_mem h]

theorem size_write_new {t : KeyedTable key} {r : ρ} (h : key r ∉ t.keys) :
    (t.write r).size = t.size + 1 := by
  rw [size, rows_write_new h, List.length_cons, size]

theorem size_erase_of_mem {t : KeyedTable key} {k : κ} (h : k ∈ t.keys) :
    (t.erase k).size + 1 = t.size := by
  obtain ⟨r, hr, rfl⟩ := mem_keys.mp h
  have hone : (t.rows.filter fun r' => key r' = key r).length = 1 :=
    congrArg List.length (read_eq_singleton hr)
  have hsum := List.length_eq_length_filter_add (l := t.rows) fun r' => decide (key r' = key r)
  have hrest : (t.erase (key r)).size =
      (t.rows.filter fun r' => !decide (key r' = key r)).length := by
    simp [size, erase]
  simp only [size] at hrest ⊢
  omega

theorem Numbered.write {t : KeyedTable key} (h : t.Numbered id) (hid : Function.Injective id)
    {r : ρ} (hr : key r = id (t.size + 1)) : (t.write r).Numbered id := by
  have hnew : key r ∉ t.keys := hr ▸ h.next_not_mem hid
  intro k
  rw [mem_keys_write, h, size_write_new hnew, hr]
  constructor
  · rintro (rfl | ⟨n, hn, rfl⟩)
    · exact ⟨t.size, by omega, rfl⟩
    · exact ⟨n, by omega, rfl⟩
  · rintro ⟨n, hn, rfl⟩
    rcases Nat.lt_or_ge n t.size with hlt | hge
    · exact .inr ⟨n, hlt, rfl⟩
    · obtain rfl : n = t.size := by omega
      exact .inl rfl

theorem Numbered.erase_last {t : KeyedTable key} (h : t.Numbered id)
    (hid : Function.Injective id) : (t.erase (id t.size)).Numbered id := by
  by_cases hmem : id t.size ∈ t.keys
  · have hsize := size_erase_of_mem hmem
    intro k
    rw [mem_keys_erase, h]
    constructor
    · rintro ⟨⟨n, hn, rfl⟩, hne⟩
      have : n + 1 ≠ t.size := fun heq => hne (by rw [heq])
      exact ⟨n, by omega, rfl⟩
    · rintro ⟨n, hn, rfl⟩
      refine ⟨⟨n, by omega, rfl⟩, fun heq => ?_⟩
      have := hid heq
      omega
  · rw [erase_of_not_mem hmem]
    exact h

end KeyedTable
