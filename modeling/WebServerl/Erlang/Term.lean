import Mathlib.Data.List.Sort

/-! Erlang terms, as far as the site uses them: strings are lists of character codes, and a tuple
is built from the list of its elements. -/

namespace Erlang

/-- A term.  `tuple l` is `list_to_tuple(l)`, and `other` stands for the terms of which the site
only uses whether two are the same: floats, maps, references, ports, pids and funs. -/
inductive Term where
  | int (n : Int)
  | atom (name : String)
  | nil
  | cons (head tail : Term)
  | tuple (elements : Term)
  | binary (bytes : List UInt8)
  | other (tag : Nat)
  deriving DecidableEq

/-- Where `==` differs from `=:=`, which is Lean's `=`: a float is equal to the integer of its
value, and maps are equal when their values are. -/
class Loose where
  int : Int → Nat → Bool
  other : Nat → Nat → Bool
  refl : ∀ tag, other tag tag = true

/-- The tag `2 * m` stands for the float of the integer `m`, and no two tags are equal. -/
@[reducible] def Loose.evenFloats : Loose where
  int m tag := decide (m * 2 = tag)
  other tag tag' := decide (tag = tag')
  refl _ := decide_eq_true rfl

namespace Term

/-- `==`. -/
def looseEq [Loose] : Term → Term → Bool
  | .int m, .other tag => Loose.int m tag
  | .other tag, .int n => Loose.int n tag
  | .other tag, .other tag' => Loose.other tag tag'
  | .cons a as, .cons b bs => a.looseEq b && as.looseEq bs
  | .tuple as, .tuple bs => as.looseEq bs
  | a, b => a = b

/-- On these terms, `==` is `=:=`. -/
def Exact [Loose] (K : Set Term) : Prop := ∀ a ∈ K, ∀ b ∈ K, a.looseEq b = true → a = b

/-- Nothing that `other` stands for occurs in the term. -/
def plain : Term → Bool
  | .other _ => false
  | .cons a as => a.plain && as.plain
  | .tuple as => as.plain
  | _ => true

def undefined : Term := .atom "undefined"

def ofList (l : List Term) : Term := l.foldr .cons .nil

def str (s : String) : Term := ofList (s.toList.map fun c => .int c.toNat)

def tup (l : List Term) : Term := .tuple (ofList l)

/-- `++`, which fails when its left argument is not a proper list. -/
def append? : Term → Term → Option Term
  | .nil, y => some y
  | .cons head tail, y => (tail.append? y).map (.cons head)
  | _, _ => none

def integerToList (n : Nat) : String := toString n

/-- The place of a term's type in the order of all terms.  The types behind `other` have no one
place of their own and stand where references do. -/
def rank : Term → Nat
  | .int _ => 0
  | .atom _ => 1
  | .other _ => 2
  | .tuple _ => 3
  | .nil => 4
  | .cons _ _ => 5
  | .binary _ => 6

def length : Term → Nat
  | .cons _ tail => tail.length + 1
  | _ => 0

/-- `=<` on terms. -/
def leq : Term → Term → Bool
  | .int m, .int n => m ≤ n
  | .atom a, .atom b => a ≤ b
  | .other m, .other n => m ≤ n
  | .binary a, .binary b => a ≤ b
  | .cons a as, .cons b bs => if a = b then as.leq bs else a.leq b
  | .tuple as, .tuple bs =>
    if as.length = bs.length then as.leq bs else as.length < bs.length
  | a, b => a.rank ≤ b.rank

theorem looseEq_refl [Loose] (a : Term) : a.looseEq a = true := by
  induction a with
  | other tag => exact Loose.refl tag
  | cons a as iha ihas => rw [looseEq, iha, ihas, Bool.and_self]
  | tuple as ih => rw [looseEq, ih]
  | _ => exact decide_eq_true rfl

theorem eq_of_looseEq [Loose] {a b : Term} (ha : a.plain = true) (hb : b.plain = true)
    (h : a.looseEq b = true) : a = b := by
  induction a generalizing b with
  | other tag => cases ha
  | cons a as iha ihas =>
    cases b with
    | cons b bs =>
      simp only [plain, looseEq, Bool.and_eq_true] at ha hb h
      rw [iha ha.1 hb.1 h.1, ihas ha.2 hb.2 h.2]
    | _ => exact of_decide_eq_true h
  | tuple as ih =>
    cases b with
    | tuple bs =>
      rw [looseEq] at h
      rw [ih (b := bs) ha hb h]
    | _ => exact of_decide_eq_true h
  | int m =>
    cases b with
    | other tag => cases hb
    | _ => exact of_decide_eq_true h
  | _ => exact of_decide_eq_true h

theorem exact_plain [Loose] : Exact {a : Term | a.plain = true} :=
  fun _ ha _ hb => eq_of_looseEq ha hb

theorem append?_ofList (l l' : List Term) :
    (ofList l).append? (ofList l') = some (ofList (l ++ l')) := by
  induction l with
  | nil => rfl
  | cons a l ih =>
    simp only [ofList, List.foldr_cons, List.cons_append, append?] at ih ⊢
    rw [ih, Option.map_some]

/-- A list of character codes. -/
def IsString (t : Term) : Prop := ∃ codes : List Nat, t = ofList (codes.map fun n : Nat => .int n)

/-- The elements of a list. -/
def elements : Term → List Term
  | .cons head tail => head :: tail.elements
  | _ => []

theorem isString_str (s : String) : (str s).IsString := by
  refine ⟨s.toList.map Char.toNat, ?_⟩
  rw [str, List.map_map]
  rfl

theorem elements_ofList (l : List Term) : (ofList l).elements = l := by
  induction l with
  | nil => rfl
  | cons a l ih =>
    show a :: (ofList l).elements = a :: l
    rw [ih]

theorem IsString.ne_int {t : Term} (h : t.IsString) (n : Int) : t ≠ .int n := by
  obtain ⟨codes, rfl⟩ := h
  cases codes <;> nofun

theorem leq_int (m n : Int) : (Term.int m).leq (.int n) = decide (m ≤ n) := rfl

end Term

/-- A reading of the clock: a date `{Year, Month, Day}` and a time `{Hour, Minute, Second}`. -/
structure DateTime where
  year : Nat
  month : Nat
  day : Nat
  hour : Nat
  minute : Nat
  second : Nat
  deriving DecidableEq

namespace DateTime

def date (now : DateTime) : Term := .tup [.int now.year, .int now.month, .int now.day]

def time (now : DateTime) : Term := .tup [.int now.hour, .int now.minute, .int now.second]

def dateString (now : DateTime) : Term :=
  .str (".".intercalate [Term.integerToList now.day, Term.integerToList now.month,
    Term.integerToList now.year])

/-- A reading of the clock for the runs on fixed inputs. -/
def noon : DateTime := ⟨2018, 5, 1, 12, 0, 0⟩

end DateTime

def sort {α : Type} (le : α → α → Bool) (l : List α) : List α :=
  l.insertionSort fun a b => le a b = true

theorem orderedInsert_between {α : Type} {r : α → α → Prop} [DecidableRel r] {a : α}
    {before after : List α} (hbefore : ∀ b ∈ before, ¬ r a b) (hafter : ∀ b ∈ after, r a b) :
    (before ++ after).orderedInsert r a = before ++ a :: after := by
  induction before with
  | nil =>
    cases after with
    | nil => rfl
    | cons b after => exact List.orderedInsert_cons_of_le r _ (hafter b List.mem_cons_self)
  | cons b before ih =>
    rw [List.cons_append, List.orderedInsert_of_not_le r _ (hbefore b List.mem_cons_self),
      ih fun b' hb' => hbefore b' (List.mem_cons_of_mem _ hb'), List.cons_append]

/-- A list has one strictly ascending arrangement, and `sort` finds it. -/
theorem sort_eq_of_perm {α : Type} {le : α → α → Bool} {l l' : List α} (h : l.Perm l')
    (hasc : l'.Pairwise fun a b => le a b = true ∧ le b a = false) : sort le l = l' := by
  induction l generalizing l' with
  | nil => exact h.nil_eq
  | cons a l ih =>
    obtain ⟨before, after, rfl⟩ := List.append_of_mem (h.mem_iff.mp List.mem_cons_self)
    rw [List.pairwise_append, List.pairwise_cons] at hasc
    obtain ⟨hbefore, ⟨hafter, hrest⟩, hcross⟩ := hasc
    have hperm : l.Perm (before ++ after) := (h.trans List.perm_middle).cons_inv
    have hsort : sort le l = before ++ after := by
      refine ih hperm (List.pairwise_append.mpr ⟨hbefore, hrest, fun b hb b' hb' => ?_⟩)
      exact hcross b hb b' (List.mem_cons_of_mem _ hb')
    show (sort le l).orderedInsert (fun a b => le a b = true) a = before ++ a :: after
    rw [hsort]
    refine orderedInsert_between (fun b hb => ?_) fun b hb => (hafter b hb).1
    rw [(hcross b hb a List.mem_cons_self).2]
    exact Bool.false_ne_true

end Erlang
