import WebServerl.Erlang.Listing
import WebServerl.Lib.Machine
import WebServerl.Store.Family

/-! `db_message` as long as nothing is removed: the messages have the numbers from 1 on as ids, in
the order in which they were saved. -/

namespace WebServerl.DbMessage

open Erlang Erlang.Mnesia Machine

/-- What a visitor wrote, and when it was saved. -/
structure Saved where
  name : Term
  mail : Term
  text : Term
  now : DateTime

def saved? (i : Request × DateTime) : Option Saved :=
  match i.1 with
  | .addMessage name email message => some ⟨name, email, message, i.2⟩
  | _ => none

def saves (is : List (Request × DateTime)) : List Saved := is.filterMap saved?

/-- The rows of the messages saved, under the numbers from 1 on. -/
def numbered (l : List Saved) : List Message :=
  l.mapIdx fun n s => newRow n s.name s.mail s.text s.now

theorem length_numbered (l : List Saved) : (numbered l).length = l.length := List.length_mapIdx

theorem mem_numbered {l : List Saved} {m : Message} :
    m ∈ numbered l ↔ ∃ n s, l[n]? = some s ∧ m = newRow n s.name s.mail s.text s.now := by
  rw [numbered, List.mem_mapIdx]
  constructor
  · rintro ⟨n, hn, rfl⟩
    exact ⟨n, l[n], List.getElem?_eq_getElem hn, rfl⟩
  · rintro ⟨n, s, hs, rfl⟩
    obtain ⟨hn, rfl⟩ := List.getElem?_eq_some_iff.mp hs
    exact ⟨n, hn, rfl⟩

/-- The numbers ascend in the order of the list. -/
theorem numbered_ascending (l : List Saved) : (numbered l).Pairwise Below := by
  refine List.pairwise_iff_getElem.mpr fun i j hi hj hij => ?_
  simp only [numbered, List.getElem_mapIdx]
  exact ⟨i + 1, j + 1, rfl, rfl, by omega⟩

section Table

variable {T : Table Message} {l : List Saved}

/-- The ids of the rows are the numbers from 1 to the number of messages. -/
theorem mem_keys_numbered (h : T.rows.Perm (numbered l)) {key : Term} :
    key ∈ T.keys ↔ ∃ n, n < l.length ∧ key = .int (n + 1) := by
  rw [KeyedTable.mem_keys]
  constructor
  · rintro ⟨m, hm, rfl⟩
    obtain ⟨n, s, hs, rfl⟩ := mem_numbered.mp (h.mem_iff.mp hm)
    exact ⟨n, (List.getElem?_eq_some_iff.mp hs).1, rfl⟩
  · rintro ⟨n, hn, rfl⟩
    refine ⟨newRow n l[n].name l[n].mail l[n].text l[n].now, h.mem_iff.mpr ?_, rfl⟩
    exact mem_numbered.mpr ⟨n, l[n], List.getElem?_eq_getElem hn, rfl⟩

theorem next_id_free (h : T.rows.Perm (numbered l)) : .int (T.size + 1) ∉ T.keys := by
  have hsize : T.size = l.length := h.length_eq.trans (length_numbered l)
  intro hmem
  obtain ⟨n, hn, hid⟩ := (mem_keys_numbered h).mp hmem
  have hint := Term.int.inj hid
  omega

variable [Ets] {name email message : Term} {now : DateTime}

theorem answer_add_next (h : T.rows.Perm (numbered l)) :
    answer (.addMessage name email message) now T =
      (.ok, T.write (newRow T.size name email message now)) := insertRow_new (next_id_free h)

/-- A request that removes nothing carries the numbering on. -/
theorem answer_numbered (h : T.rows.Perm (numbered l)) (i : Request × DateTime)
    (hi : ∀ key, i.1 ≠ .remove key) :
    (answer i.1 i.2 T).2.rows.Perm (numbered (l ++ (saved? i).toList)) := by
  obtain ⟨r, now⟩ := i
  cases r with
  | addMessage name email message =>
    have hsize : T.size = l.length := h.length_eq.trans (length_numbered l)
    show (answer (.addMessage name email message) now T).2.rows.Perm _
    rw [answer_add_next h, KeyedTable.rows_write_new (next_id_free h), hsize]
    refine (h.cons _).trans ?_
    show List.Perm _ (numbered (l ++ [⟨name, email, message, now⟩]))
    rw [numbered, numbered, List.mapIdx_concat]
    exact (List.perm_append_singleton _ _).symm
  | remove key => exact absurd rfl (hi key)
  | dumpMessages =>
    show T.rows.Perm (numbered (l ++ []))
    rw [List.append_nil]
    exact h

end Table

variable [Crypto] [Ets]

/-- In a run without a `remove`, the rows are the messages saved, numbered in their order. -/
theorem rows_of_saves {is : List (Request × DateTime)} (hno : ∀ i ∈ is, ∀ key, i.1 ≠ .remove key) :
    (serve Store.dbMessage.ask (KeyedTable.empty _) is).2.rows.Perm (numbered (saves is)) := by
  induction is using List.reverseRecOn with
  | nil => exact .refl _
  | append_singleton is i ih =>
    have hrows := ih fun j hj => hno j (List.mem_append_left _ hj)
    rw [serve_concat, saves, List.filterMap_append]
    show (answer i.1 i.2 _).2.rows.Perm (numbered (saves is ++ [i].filterMap saved?))
    have hlast : [i].filterMap saved? = (saved? i).toList := by
      cases hs : saved? i <;> simp [hs]
    rw [hlast]
    exact answer_numbered hrows i (hno i (by simp))

end WebServerl.DbMessage
