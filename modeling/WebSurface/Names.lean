import WebSurface.Text
set_option autoImplicit false

/-!
Collections that are looked up by name, and the name that was probably meant.

A `Keyed` holds values in the order in which their keys were first added, at most one for each key,
and a `NameSet` names in ascending order of their code points, which is also the order of their
UTF-8 bytes.
-/

namespace WebSurface

structure Keyed {α : Type} (key : α → Text) where
  list : List α
  distinct : (list.map key).Nodup
  deriving DecidableEq, Repr

namespace Keyed

variable {α : Type} {key : α → Text}

def empty : Keyed key := ⟨[], List.nodup_nil⟩

instance : Inhabited (Keyed key) := ⟨empty⟩

def size (m : Keyed key) : Nat := m.list.length

def isEmpty (m : Keyed key) : Bool := m.list.isEmpty

def keys (m : Keyed key) : List Text := m.list.map key

def find? (m : Keyed key) (k : Text) : Option α := m.list.find? (key · == k)

def contains (m : Keyed key) (k : Text) : Bool := m.keys.elem k

/-- The list with `a` in the place of the value with its key, or at the end. -/
def place (key : α → Text) (a : α) : List α → List α
  | [] => [a]
  | b :: bs => if key b = key a then a :: bs else b :: place key a bs

theorem map_key_place (a : α) (l : List α) :
    (place key a l).map key = if key a ∈ l.map key then l.map key else l.map key ++ [key a] := by
  induction l with
  | nil => simp [place]
  | cons b bs ih =>
    by_cases h : key b = key a
    · simp [place, h]
    · have h' : ¬ key a = key b := fun e => h e.symm
      by_cases hm : key a ∈ bs.map key
      · simp only [place, if_neg h, List.map_cons, ih, hm, if_true, List.mem_cons, or_true]
      · simp only [place, if_neg h, List.map_cons, ih, hm, if_false, List.mem_cons, h', or_self,
          List.cons_append]

/-- Adds a value. One with the same key gives it its place. -/
def put (m : Keyed key) (a : α) : Keyed key where
  list := place key a m.list
  distinct := by
    rw [map_key_place]
    split
    · exact m.distinct
    · rename_i h
      refine List.nodup_append.2
        ⟨m.distinct, List.nodup_cons.2 ⟨List.not_mem_nil, List.nodup_nil⟩, ?_⟩
      intro x hx y hy e
      rw [List.mem_singleton] at hy
      exact h (hy ▸ e ▸ hx)

theorem keys_put (m : Keyed key) (a : α) :
    (m.put a).keys = if key a ∈ m.keys then m.keys else m.keys ++ [key a] :=
  map_key_place a m.list

theorem find?_place (a : α) (l : List α) (k : Text) :
    (place key a l).find? (key · == k) =
      if k = key a then some a else l.find? (key · == k) := by
  induction l with
  | nil =>
    by_cases h : k = key a
    · simp [place, h]
    · simp [place, h, Ne.symm h]
  | cons b bs ih =>
    by_cases hb : key b = key a
    · by_cases h : k = key a
      · simp [place, hb, h]
      · simp [place, hb, h, Ne.symm h]
    · by_cases h : k = key a
      · subst h
        simp [place, hb, ih]
      · by_cases hk : key b = k
        · simp [place, h, hk]
        · simp [place, hb, h, hk, ih]

/-- A value that was put is found under its key, and no other look-up changes. -/
theorem find?_put (m : Keyed key) (a : α) (k : Text) :
    (m.put a).find? k = if k = key a then some a else m.find? k :=
  find?_place a m.list k

def putNew (m : Keyed key) (a : α) : Keyed key := if m.contains (key a) then m else m.put a

def edit (m : Keyed key) (k : Text) (f : α → α) (keeps : ∀ a, key (f a) = key a) : Keyed key where
  list := m.list.map fun a => if key a = k then f a else a
  distinct := by
    have : (key ∘ fun a => if key a = k then f a else a) = key := by
      funext a
      simp only [Function.comp_apply]
      split
      · exact keeps a
      · rfl
    rw [List.map_map, this]
    exact m.distinct

def keep (m : Keyed key) (p : α → Bool) : Keyed key where
  list := m.list.filter p
  distinct := (List.filter_sublist.map key).nodup m.distinct

def ofList (l : List α) : Keyed key := l.foldl put empty

end Keyed

/-- A table from names to values, in the order in which the names were first added. -/
abbrev NameTable (α : Type) := Keyed (Prod.fst : Text × α → Text)

namespace NameTable

variable {α : Type}

def get? (m : NameTable α) (name : Text) : Option α := (m.find? name).map Prod.snd

def values (m : NameTable α) : List α := m.list.map Prod.snd

def update (m : NameTable α) (name : Text) (f : α → α) : NameTable α :=
  m.edit name (fun (n, a) => (n, f a)) fun _ => rfl

theorem get?_put (m : NameTable α) (name : Text) (a : α) (k : Text) :
    get? (m.put (name, a)) k = if k = name then some a else get? m k := by
  simp only [get?, Keyed.find?_put]
  split <;> rfl

end NameTable

structure NameSet where
  list : List Text
  ascending : list.Pairwise (· < ·)
  deriving DecidableEq, Repr

namespace NameSet

def empty : NameSet := ⟨[], .nil⟩

instance : Inhabited NameSet := ⟨empty⟩

def contains (s : NameSet) (name : Text) : Bool := s.list.elem name

def place (name : Text) : List Text → List Text
  | [] => [name]
  | n :: ns =>
    if name < n then name :: n :: ns
    else if name = n then n :: ns
    else n :: place name ns

@[simp] theorem mem_place {name n : Text} {l : List Text} :
    n ∈ place name l ↔ n = name ∨ n ∈ l := by
  fun_induction place name l <;> simp_all
  grind

theorem lt_trichotomy (a b : Text) : a < b ∨ a = b ∨ b < a := by
  rcases Decidable.em (a < b) with h | h
  · exact .inl h
  · rcases Decidable.em (b < a) with h' | h'
    · exact .inr (.inr h')
    · exact .inr (.inl (List.le_antisymm (List.not_lt.1 h') (List.not_lt.1 h)))

theorem pairwise_place (name : Text) {l : List Text} (h : l.Pairwise (· < ·)) :
    (place name l).Pairwise (· < ·) := by
  fun_induction place name l with
  | case1 => simp
  | case2 n ns hlt =>
    refine List.pairwise_cons.2 ⟨fun m hm => ?_, h⟩
    rcases List.mem_cons.1 hm with rfl | hm
    · exact hlt
    · exact List.lt_trans hlt ((List.pairwise_cons.1 h).1 m hm)
  | case3 => exact h
  | case4 n ns hlt hne ih =>
    obtain ⟨hn, hns⟩ := List.pairwise_cons.1 h
    refine List.pairwise_cons.2 ⟨fun m hm => ?_, ih hns⟩
    rcases mem_place.1 hm with rfl | hm
    · rcases lt_trichotomy m n with h' | h' | h'
      · exact absurd h' hlt
      · exact absurd h' hne
      · exact h'
    · exact hn m hm

def insert (s : NameSet) (name : Text) : NameSet :=
  ⟨place name s.list, pairwise_place name s.ascending⟩

@[simp] theorem mem_insert {s : NameSet} {name n : Text} :
    n ∈ (s.insert name).list ↔ n = name ∨ n ∈ s.list := mem_place

def erase (s : NameSet) (name : Text) : NameSet where
  list := s.list.filter (· != name)
  ascending := s.ascending.sublist List.filter_sublist

@[simp] theorem mem_erase {s : NameSet} {name n : Text} :
    n ∈ (s.erase name).list ↔ n ∈ s.list ∧ n ≠ name := by
  simp [erase, List.mem_filter]

def ofList (names : List Text) : NameSet := names.foldl insert empty

end NameSet

namespace Suggestion

/-- The next row of distances. `left` is the entry before; the row above begins with the entry
diagonally before. -/
def rowFrom (c : Char) (left : Nat) : Text → List Nat → List Nat
  | d :: ds, diagonal :: above :: row =>
    let here := min (min (above + 1) (left + 1)) (diagonal + if c = d then 0 else 1)
    here :: rowFrom c here ds (above :: row)
  | _, _ => []

/-- The distances between the initial parts of `b` and one more character of the other text, given
those without it. -/
def nextRow (b : Text) (row : List Nat) (c : Char) : List Nat :=
  let first := row.headD 0 + 1
  first :: rowFrom c first b row

def distance (a b : Text) : Nat :=
  (a.foldl (nextRow b) (List.range (b.length + 1))).getLastD 0

/-- The distance up to which a candidate is near: a third of the length of the name, but at least
one and at most three. -/
def tolerance (name : Text) : Nat := max 1 (min 3 (name.length / 3))

def near? (name candidate : Text) : Option (Nat × Text) :=
  let d := distance name.asciiLower candidate.asciiLower
  if d ≤ tolerance name then some (d, candidate) else none

/-- The nearer of two candidates, the first if they are equally near. -/
def nearer (best : Option (Nat × Text)) (c : Nat × Text) : Option (Nat × Text) :=
  match best with
  | some b => if b.1 ≤ c.1 then some b else some c
  | none => some c

def nearest? (name : Text) (candidates : List Text) : Option Text :=
  ((candidates.filterMap (near? name)).foldl nearer none).map Prod.snd

end Suggestion

end WebSurface
