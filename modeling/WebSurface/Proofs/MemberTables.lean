import Mathlib.Data.Set.Card
import WebSurface.Declaration
import WebSurface.Proofs.NameTable
set_option autoImplicit false

/-!
Tables of members through any sequence of steps.

A member is kept under its name, in which the case of ASCII letters does not matter. It may be
inserted, changed in a way that keeps its name, and left out. `Members.hear` says what a step means
for one name alone, and `Members.LastAdded` at which step a name was last newly added.
`Members.run_laws` says that these decide everything that can be seen of a table.
-/

namespace WebSurface

namespace Text

theorem toNat_toLower (c : Char) :
    c.toLower.toNat = if 65 ≤ c.toNat ∧ c.toNat ≤ 90 then c.toNat + 32 else c.toNat := by
  have bounds : c.val ≥ 'A'.val ∧ c.val ≤ 'Z'.val ↔ 65 ≤ c.toNat ∧ c.toNat ≤ 90 := Iff.rfl
  unfold Char.toLower
  by_cases h : c.val ≥ 'A'.val ∧ c.val ≤ 'Z'.val
  · have sum : (c.val + ('a'.val - 'A'.val)).toNat = (c.toNat + 32) % 2 ^ 32 := UInt32.toNat_add _ _
    have range := bounds.1 h
    rw [dif_pos h, if_pos range]
    exact sum.trans (by omega)
  · rw [dif_neg h, if_neg (mt bounds.2 h)]

theorem toNat_toUpper (c : Char) :
    c.toUpper.toNat = if 97 ≤ c.toNat ∧ c.toNat ≤ 122 then c.toNat - 32 else c.toNat := by
  have bounds : 'a'.val ≤ c.val ∧ c.val ≤ 'z'.val ↔ 97 ≤ c.toNat ∧ c.toNat ≤ 122 := Iff.rfl
  unfold Char.toUpper
  by_cases h : 'a'.val ≤ c.val ∧ c.val ≤ 'z'.val
  · have sum : (c.val + ('A'.val - 'a'.val)).toNat = (c.toNat + (2 ^ 32 - 32)) % 2 ^ 32 :=
      UInt32.toNat_add _ _
    have range := bounds.1 h
    rw [dif_pos h, if_pos range]
    exact sum.trans (by omega)
  · rw [dif_neg h, if_neg (mt bounds.2 h)]

/-- The second text is the first with some of its ASCII letters in another case. -/
def Recases : Text → Text → Prop :=
  List.Forall₂ fun c d => d = c ∨ d = c.toLower ∨ d = c.toUpper

theorem recases_iff {s t : Text} : Recases s t ↔ s.asciiLower = t.asciiLower := by
  have letter (c d : Char) :
      (d = c ∨ d = c.toLower ∨ d = c.toUpper) ↔ c.toLower = d.toLower := by
    simp only [← Char.toNat_inj, toNat_toLower, toNat_toUpper]
    split <;> split <;> split <;> omega
  simp only [Recases, letter]
  induction s generalizing t with
  | nil => cases t <;> simp [asciiLower]
  | cons c s ih => cases t <;> simp_all [asciiLower]

instance (s t : Text) : Decidable (Recases s t) := decidable_of_iff _ recases_iff.symm

end Text

abbrev Members {α : Type} (name : α → Text) := Keyed fun a => (name a).asciiLower

example : Members Property.name = Keyed Property.key := rfl

example : Members Method.name = Keyed Method.key := rfl

namespace Members

open Text

variable {α : Type} {name : α → Text}

def get? (m : Members name) (n : Text) : Option α := m.find? n.asciiLower

def has (m : Members name) (n : Text) : Bool := m.contains n.asciiLower

def insert (m : Members name) (a : α) : Option α × Members name := (m.get? (name a), m.put a)

def change (m : Members name) (n : Text) (f : α → α) (keeps : ∀ a, name (f a) = name a) :
    Option α × Members name :=
  (m.get? n, m.edit n.asciiLower f fun a => congrArg asciiLower (keeps a))

inductive Step (name : α → Text) where
  | insert (a : α)
  | change (n : Text) (f : α → α) (keeps : ∀ a, name (f a) = name a)
  | retain (p : α → Bool)

def act (m : Members name) : Step name → Members name
  | .insert a => (m.insert a).2
  | .change n f keeps => (m.change n f keeps).2
  | .retain p => m.keep p

def run (steps : List (Step name)) : Members name := steps.foldl act .empty

/-- What a step means for the member with name `n`. -/
def hear (n : Text) (v : Option α) : Step name → Option α
  | .insert a => if Recases (name a) n then some a else v
  | .change k f _ => if Recases k n then v.map f else v
  | .retain p => v.filter p

theorem run_snoc (steps : List (Step name)) (s : Step name) :
    run (steps ++ [s]) = (run steps).act s := by
  rw [run, List.foldl_append]
  rfl

theorem get?_congr {m : Members name} {n n' : Text} (h : Recases n n') : m.get? n = m.get? n' := by
  rw [get?, get?, recases_iff.1 h]

theorem get?_eq_some_iff {m : Members name} {n : Text} {a : α} :
    m.get? n = some a ↔ a ∈ m.list ∧ Recases (name a) n := by
  rw [get?, Keyed.find?_eq_some_iff, recases_iff]

theorem get?_eq_none_iff {m : Members name} {n : Text} :
    m.get? n = none ↔ ∀ a ∈ m.list, ¬Recases (name a) n := by
  rw [Option.eq_none_iff_forall_ne_some]
  simp only [ne_eq, get?_eq_some_iff, not_and]

theorem has_iff {m : Members name} {n : Text} : m.has n ↔ ∃ a ∈ m.list, Recases (name a) n := by
  simp only [has, Keyed.contains_iff, recases_iff]

/-- A step does to each name what it means for that name, and no more. -/
theorem get?_act (m : Members name) (s : Step name) (n : Text) :
    (m.act s).get? n = hear n (m.get? n) s := by
  cases s with
  | insert a => simp only [act, insert, get?, hear, Keyed.find?_put, recases_iff, eq_comm]
  | change k f keeps => simp only [act, change, get?, hear, Keyed.find?_edit, recases_iff, eq_comm]
  | retain p => exact Keyed.find?_keep

theorem get?_run (steps : List (Step name)) (n : Text) :
    (run steps).get? n = steps.foldl (hear n) none := by
  induction steps using List.reverseRecOn with
  | nil => rfl
  | append_singleton steps s ih => rw [run_snoc, get?_act, ih, List.foldl_concat]

/-! ### The order of members -/

/-- Step `t` newly adds a member with name `n`, and there has been one ever since. -/
structure LastAdded (steps : List (Step name)) (n : Text) (t : Nat) : Prop where
  inserted : ∃ a, steps[t]? = some (.insert a) ∧ Recases (name a) n
  absent : (run (steps.take t)).get? n = none
  present : ∀ u, t < u → u ≤ steps.length → ((run (steps.take u)).get? n).isSome

section Order

variable {steps : List (Step name)} {s : Step name} {n n' : Text} {t : Nat}

theorem LastAdded.lt (h : LastAdded steps n t) : t < steps.length := by
  obtain ⟨a, ha, -⟩ := h.inserted
  exact (List.getElem?_eq_some_iff.1 ha).1

theorem LastAdded.recase (h : LastAdded steps n t) (hn : Recases n n') : LastAdded steps n' t where
  inserted := by
    obtain ⟨a, ha, like⟩ := h.inserted
    exact ⟨a, ha, recases_iff.2 ((recases_iff.1 like).trans (recases_iff.1 hn))⟩
  absent := get?_congr hn ▸ h.absent
  present u ht hu := get?_congr hn ▸ h.present u ht hu

theorem LastAdded.snoc (h : LastAdded steps n t) (now : ((run (steps ++ [s])).get? n).isSome) :
    LastAdded (steps ++ [s]) n t where
  inserted := by
    rw [List.getElem?_append_left h.lt]
    exact h.inserted
  absent := by
    rw [List.take_append_of_le_length (Nat.le_of_lt h.lt)]
    exact h.absent
  present u ht hu := by
    rcases Nat.lt_or_ge steps.length u with last | before
    · rwa [List.take_of_length_le (by simpa using last)]
    · rw [List.take_append_of_le_length before]
      exact h.present u ht before

theorem lastAdded_insert {a : α} (absent : (run steps).get? (name a) = none) :
    LastAdded (steps ++ [.insert a]) (name a) steps.length where
  inserted := ⟨a, by simp, recases_iff.2 rfl⟩
  absent := by rwa [List.take_left]
  present u ht _ := by
    have now : (run (steps ++ [.insert a])).get? (name a) = some a := by
      rw [run_snoc, get?_act, hear, if_pos (recases_iff.2 rfl)]
    rw [List.take_of_length_le (by simpa using ht), now]
    rfl

def Precedes (steps : List (Step name)) (n n' : Text) : Prop :=
  ∃ t u, t < u ∧ LastAdded steps n t ∧ LastAdded steps n' u

/-- Each member was added at some step, and they stand in the order of these steps. -/
structure Ordered (steps : List (Step name)) : Prop where
  added : ∀ a ∈ (run steps).list, ∃ t, LastAdded steps (name a) t
  sorted : (run steps).list.Pairwise fun a b => Precedes steps (name a) (name b)

theorem isSome_get?_of_mem {m : Members name} {a : α} (h : a ∈ m.list) :
    (m.get? (name a)).isSome := by
  rw [get?_eq_some_iff.2 ⟨h, recases_iff.2 rfl⟩]
  rfl

theorem Ordered.rewrite (h : Ordered steps) {p : α → Bool} {f : α → α}
    (names : ∀ a, Recases (name a) (name (f a)))
    (list : (run (steps ++ [s])).list = ((run steps).list.filter p).map f) :
    Ordered (steps ++ [s]) := by
  have kept {a : α} (ha : a ∈ (run steps).list.filter p) {t : Nat}
      (ht : LastAdded steps (name a) t) : LastAdded (steps ++ [s]) (name (f a)) t := by
    have now : f a ∈ (run (steps ++ [s])).list := list ▸ List.mem_map_of_mem ha
    exact (ht.recase (names a)).snoc (isSome_get?_of_mem now)
  refine ⟨fun b hb => ?_, ?_⟩
  · rw [list] at hb
    obtain ⟨a, ha, rfl⟩ := List.mem_map.1 hb
    obtain ⟨t, ht⟩ := h.added a (List.mem_filter.1 ha).1
    exact ⟨t, kept ha ht⟩
  · rw [list, List.pairwise_map]
    refine (h.sorted.filter p).imp_of_mem ?_
    rintro a b ha hb ⟨t, u, earlier, ht, hu⟩
    exact ⟨t, u, earlier, kept ha ht, kept hb hu⟩

theorem Ordered.append (h : Ordered steps) {a : α} (absent : (run steps).get? (name a) = none)
    (list : (run (steps ++ [.insert a])).list = (run steps).list ++ [a]) :
    Ordered (steps ++ [.insert a]) := by
  have new := lastAdded_insert absent
  have kept {b : α} (hb : b ∈ (run steps).list) {t : Nat} (ht : LastAdded steps (name b) t) :
      LastAdded (steps ++ [.insert a]) (name b) t :=
    ht.snoc (isSome_get?_of_mem (list ▸ List.mem_append_left [a] hb))
  refine ⟨?_, ?_⟩
  · rw [list]
    refine List.forall_mem_append.2 ⟨fun b hb => ?_, List.forall_mem_singleton.2 ⟨_, new⟩⟩
    obtain ⟨t, ht⟩ := h.added b hb
    exact ⟨t, kept hb ht⟩
  · rw [list, List.pairwise_append]
    refine ⟨h.sorted.imp_of_mem ?_, List.pairwise_singleton _ _, fun b hb c hc => ?_⟩
    · rintro b c hb hc ⟨t, u, earlier, ht, hu⟩
      exact ⟨t, u, earlier, kept hb ht, kept hc hu⟩
    · obtain ⟨t, ht⟩ := h.added b hb
      rw [List.mem_singleton.1 hc]
      exact ⟨t, _, ht.lt, kept hb ht, new⟩

theorem list_put_of_present {m : Members name} {a : α} (h : (m.get? (name a)).isSome) :
    (m.put a).list = m.list.map fun b => if Recases (name b) (name a) then a else b := by
  obtain ⟨b, hb⟩ := Option.isSome_iff_exists.1 h
  obtain ⟨hb, like⟩ := get?_eq_some_iff.1 hb
  simp only [recases_iff]
  exact Keyed.place_of_mem m.distinct (recases_iff.1 like ▸ List.mem_map_of_mem hb)

theorem list_put_of_absent {m : Members name} {a : α} (h : m.get? (name a) = none) :
    (m.put a).list = m.list ++ [a] := by
  refine Keyed.place_of_not_mem fun taken => ?_
  obtain ⟨b, hb, like⟩ := List.mem_map.1 taken
  exact get?_eq_none_iff.1 h b hb (recases_iff.2 like)

theorem ordered_run (steps : List (Step name)) : Ordered steps := by
  induction steps using List.reverseRecOn with
  | nil => exact ⟨fun a ha => absurd ha List.not_mem_nil, .nil⟩
  | append_singleton steps s ih =>
    have list : (run (steps ++ [s])).list = ((run steps).act s).list := by rw [run_snoc]
    cases s with
    | insert a =>
      cases ha : (run steps).get? (name a) with
      | none => exact ih.append ha (list.trans (list_put_of_absent ha))
      | some b =>
        refine ih.rewrite (p := fun _ => true)
          (f := fun b => if Recases (name b) (name a) then a else b) (fun b => ?_) ?_
        · split
          · assumption
          · exact recases_iff.2 rfl
        · rw [List.filter_true]
          exact list.trans (list_put_of_present (by rw [ha]; rfl))
    | change n f keeps =>
      refine ih.rewrite (p := fun _ => true)
        (f := fun a => if (name a).asciiLower = n.asciiLower then f a else a) (fun a => ?_) ?_
      · split
        · rw [keeps]
          exact recases_iff.2 rfl
        · exact recases_iff.2 rfl
      · rw [List.filter_true]
        exact list
    | retain p =>
      refine ih.rewrite (p := p) (f := id) (fun a => recases_iff.2 rfl) ?_
      rw [List.map_id]
      exact list

end Order

/-- Members have different names. Each is found under every casing of its name and nothing else is,
and what is found is what the steps mean for that name. The members stand in the order in which
their names were last newly added. An inserted member replaces the one that is given back, and there
are as many members as names that are present. -/
theorem run_laws (steps : List (Step name)) :
    (run steps).list.Pairwise (fun a b => ¬Recases (name a) (name b)) ∧
      (∀ n a, (run steps).get? n = some a ↔ a ∈ (run steps).list ∧ Recases (name a) n) ∧
      (∀ n, (run steps).has n ↔ ∃ a ∈ (run steps).list, Recases (name a) n) ∧
      (∀ n f keeps, ((run steps).change n f keeps).1 = (run steps).get? n ∧
        ((run steps).change n f keeps).2.list =
          (run steps).list.map fun a => if Recases (name a) n then f a else a) ∧
      (∀ n, (run steps).get? n = steps.foldl (hear n) none) ∧
      (run steps).list.Pairwise (fun a b => ∃ t u, t < u ∧
        LastAdded steps (name a) t ∧ LastAdded steps (name b) u) ∧
      (∀ a, ((run steps).insert a).1 = (run steps).get? (name a) ∧
        ((run steps).insert a).2.list = if ((run steps).insert a).1.isSome then
          (run steps).list.map fun b => if Recases (name b) (name a) then a else b
        else (run steps).list ++ [a]) ∧
      (run steps).size = {k | ∃ n, n.asciiLower = k ∧ ((run steps).get? n).isSome}.ncard := by
  refine ⟨?_, fun n a => get?_eq_some_iff, fun n => has_iff, fun n f keeps => ⟨rfl, ?_⟩,
    get?_run steps, (ordered_run steps).sorted, fun a => ⟨rfl, ?_⟩, ?_⟩
  · have distinct := (run steps).distinct
    rw [List.Nodup, List.pairwise_map] at distinct
    exact distinct.imp fun other same => other (recases_iff.1 same)
  · simp only [recases_iff]
    rfl
  · unfold insert
    cases ha : (run steps).get? (name a) with
    | none => exact list_put_of_absent ha
    | some b => exact list_put_of_present (by rw [ha]; rfl)
  · -- The keys of the table are the names that are present, each in lower case and once.
    have names : {k | ∃ n, n.asciiLower = k ∧ ((run steps).get? n).isSome} =
        ((run steps).keys.toFinset : Set Text) := by
      ext k
      simp only [Set.mem_ofPred_eq, List.coe_toFinset, Keyed.keys, List.mem_map]
      constructor
      · rintro ⟨n, rfl, found⟩
        obtain ⟨a, ha⟩ := Option.isSome_iff_exists.1 found
        obtain ⟨ha, like⟩ := get?_eq_some_iff.1 ha
        exact ⟨a, ha, recases_iff.1 like⟩
      · rintro ⟨a, ha, rfl⟩
        exact ⟨name a, rfl, isSome_get?_of_mem ha⟩
    have distinct : (run steps).keys.Nodup := (run steps).distinct
    rw [names, Set.ncard_coe_finset, List.toFinset_card_of_nodup distinct, Keyed.keys,
      List.length_map, Keyed.size]

/-- A name that is inserted in another case keeps its place, and one that was left out loses it. -/
example :
    let p (name type : String) (isNullable : Bool) : Property :=
      ⟨name.toList, type.toList, isNullable, false⟩
    (run [.insert (p "timeout" "number" false), .insert (p "age" "number" true),
      .insert (p "Timeout" "string" true)] : Members Property.name).list =
        [p "Timeout" "string" true, p "age" "number" true] ∧
      (run [.insert (p "a" "A" false), .insert (p "b" "B" true), .retain Property.isNullable,
        .insert (p "A" "C" true)] : Members Property.name).list =
          [p "b" "B" true, p "A" "C" true] := by
  decide

end Members

end WebSurface
