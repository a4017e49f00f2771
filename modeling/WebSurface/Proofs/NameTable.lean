import Mathlib.Data.List.Basic
import Mathlib.Data.List.Induction
import WebSurface.Names
set_option autoImplicit false

namespace WebSurface

namespace Keyed

variable {α : Type} {key : α → Text} {m : Keyed key} {a : α}

theorem place_of_not_mem {l : List α} (h : key a ∉ l.map key) : place key a l = l ++ [a] := by
  induction l with
  | nil => rfl
  | cons b l ih =>
    rw [List.map_cons, List.mem_cons, not_or] at h
    rw [place, if_neg (Ne.symm h.1), ih h.2, List.cons_append]

theorem place_of_mem {l : List α} (distinct : (l.map key).Nodup) (h : key a ∈ l.map key) :
    place key a l = l.map fun b => if key b = key a then a else b := by
  induction l with
  | nil => cases h
  | cons b l ih =>
    obtain ⟨new, distinct⟩ := List.nodup_cons.1 distinct
    by_cases hb : key b = key a
    · have others : l.map (fun c => if key c = key a then a else c) = l := by
        refine (List.map_congr_left fun c hc => if_neg fun e => new ?_).trans (List.map_id _)
        exact hb ▸ e ▸ List.mem_map_of_mem hc
      rw [place, if_pos hb, List.map_cons, if_pos hb, others]
    · rw [place, if_neg hb, List.map_cons, if_neg hb,
        ih distinct ((List.mem_cons.1 h).resolve_left (Ne.symm hb))]

theorem keys_putNew (m : Keyed key) (a : α) :
    (m.putNew a).keys = if key a ∈ m.keys then m.keys else m.keys ++ [key a] := by
  unfold putNew contains
  by_cases h : key a ∈ m.keys
  · simp [h]
  · simp [h, keys_put]

theorem find?_eq_some_iff {k : Text} : m.find? k = some a ↔ a ∈ m.list ∧ key a = k := by
  constructor
  · intro h
    exact ⟨List.mem_of_find?_eq_some h, by simpa using List.find?_some h⟩
  · rintro ⟨h, rfl⟩
    have distinct := m.distinct
    unfold find?
    generalize m.list = l at h distinct
    induction l with
    | nil => cases h
    | cons b l ih =>
      rw [List.map_cons, List.nodup_cons] at distinct
      rcases List.mem_cons.1 h with rfl | h
      · simp
      · have other : key b ≠ key a := fun e => distinct.1 (e ▸ List.mem_map_of_mem h)
        simpa [other] using ih h distinct.2

theorem keys_edit (m : Keyed key) (k : Text) (f : α → α) (keeps : ∀ a, key (f a) = key a) :
    (m.edit k f keeps).keys = m.keys := by
  rw [keys, edit, List.map_map]
  refine List.map_congr_left fun a _ => ?_
  rw [Function.comp_apply]
  split
  · exact keeps a
  · rfl

theorem find?_edit {k k' : Text} {f : α → α} {keeps : ∀ a, key (f a) = key a} :
    (m.edit k f keeps).find? k' = if k' = k then (m.find? k').map f else m.find? k' := by
  have same : ((key · == k') ∘ fun a => if key a = k then f a else a) = (key · == k') := by
    funext a
    simp only [Function.comp_apply]
    split
    · rw [keeps]
    · rfl
  have list : (m.edit k f keeps).list = m.list.map fun a => if key a = k then f a else a := rfl
  rw [find?, find?, list, List.find?_map, same]
  cases hf : m.list.find? (key · == k') with
  | none => simp
  | some a =>
    have ha : key a = k' := by simpa using List.find?_some hf
    subst ha
    rw [Option.map_some]
    split <;> rfl

theorem find?_keep {k : Text} {p : α → Bool} : (m.keep p).find? k = (m.find? k).filter p := by
  refine Option.ext fun a => ?_
  rw [find?_eq_some_iff, Option.filter_eq_some_iff, find?_eq_some_iff]
  rw [keep, List.mem_filter]
  exact and_right_comm

theorem contains_iff {k : Text} : m.contains k ↔ ∃ a ∈ m.list, key a = k := by
  simp [contains, keys]

/-- The values of a list, of those with the same key the last in the place of the first. -/
structure LastWins (m : Keyed key) (l : List α) : Prop where
  keys_eq : m.keys = (l.map key).eraseDups
  find?_eq (k : Text) : m.find? k = l.reverse.find? (key · == k)

theorem lastWins_put {m : Keyed key} {l : List α} (h : m.LastWins l) (a : α) :
    (m.put a).LastWins (l ++ [a]) where
  keys_eq := by
    have rest (ks : List Text) (k : Text) :
        ([k].removeAll ks).eraseDups = if k ∈ ks then [] else [k] := by
      by_cases hk : k ∈ ks <;> simp [List.removeAll, hk, List.eraseDups_cons]
    rw [keys_put, h.keys_eq, List.map_append, List.map_singleton, List.eraseDups_append, rest]
    simp only [List.mem_eraseDups]
    split
    · rw [List.append_nil]
    · rfl
  find?_eq k := by
    rw [find?_put, h.find?_eq, List.reverse_append, List.reverse_singleton, List.singleton_append,
      List.find?_cons]
    by_cases hk : k = key a
    · simp [hk]
    · have other : (key a == k) = false := beq_false_of_ne (Ne.symm hk)
      rw [if_neg hk, other]

theorem lastWins_ofList (l : List α) : (ofList l : Keyed key).LastWins l := by
  induction l using List.reverseRecOn with
  | nil => exact ⟨rfl, fun _ => rfl⟩
  | append_singleton l a ih =>
    rw [ofList, List.foldl_concat]
    exact lastWins_put ih a

end Keyed

namespace NameTable

variable {α : Type} {m : NameTable α} {name k : Text} {a : α}

theorem values_put (h : name ∉ m.keys) : values (m.put (name, a)) = m.values ++ [a] := by
  have list : (m.put (name, a)).list = m.list ++ [(name, a)] := Keyed.place_of_not_mem h
  rw [values, list, List.map_append]
  rfl

theorem get?_eq_some_iff : m.get? name = some a ↔ (name, a) ∈ m.list := by
  rw [get?, Option.map_eq_some_iff]
  constructor
  · rintro ⟨p, hp, rfl⟩
    obtain ⟨h, rfl⟩ := Keyed.find?_eq_some_iff.1 hp
    exact h
  · exact fun h => ⟨(name, a), Keyed.find?_eq_some_iff.2 ⟨h, rfl⟩, rfl⟩

theorem mem_keys_iff : name ∈ m.keys ↔ ∃ a, m.get? name = some a := by
  simp only [Keyed.keys, List.mem_map, get?_eq_some_iff]
  constructor
  · rintro ⟨⟨n, a⟩, h, rfl⟩
    exact ⟨a, h⟩
  · rintro ⟨a, h⟩
    exact ⟨(name, a), h, rfl⟩

theorem get?_eq_none_iff : m.get? name = none ↔ name ∉ m.keys := by
  rw [mem_keys_iff, Option.eq_none_iff_forall_ne_some]
  simp

theorem mem_values_iff : a ∈ m.values ↔ ∃ name, m.get? name = some a := by
  simp only [values, List.mem_map, get?_eq_some_iff]
  constructor
  · rintro ⟨⟨n, b⟩, h, rfl⟩
    exact ⟨n, h⟩
  · rintro ⟨n, h⟩
    exact ⟨(n, a), h, rfl⟩

@[simp] theorem get?_empty : get? (.empty : NameTable α) name = none := rfl

theorem get?_singleton :
    get? (.ofList [(name, a)] : NameTable α) k = if k = name then some a else none := by
  simp only [Keyed.ofList, List.foldl_cons, List.foldl_nil, get?_put, get?_empty]

theorem get?_ofList (l : List (Text × α)) :
    get? (.ofList l : NameTable α) k = (l.reverse.find? (·.1 == k)).map Prod.snd := by
  rw [get?, (Keyed.lastWins_ofList l).find?_eq]

theorem get?_putNew :
    get? (m.putNew (name, a)) k = if k = name then some ((m.get? name).getD a) else m.get? k := by
  unfold Keyed.putNew Keyed.contains
  simp only [List.elem_eq_mem, decide_eq_true_eq]
  by_cases h : name ∈ m.keys
  · obtain ⟨b, hb⟩ := mem_keys_iff.1 h
    rw [if_pos h, hb]
    split
    · rename_i hk
      rw [hk, hb]
      rfl
    · rfl
  · rw [if_neg h, get?_put, get?_eq_none_iff.2 h]
    rfl

theorem keys_update (m : NameTable α) (name : Text) (f : α → α) :
    (m.update name f).keys = m.keys := by
  rw [update, Keyed.keys_edit]

theorem get?_update (f : α → α) :
    get? (m.update name f) k = if k = name then (m.get? k).map f else m.get? k := by
  rw [get?, update, Keyed.find?_edit]
  split
  · rw [get?, Option.map_map, Option.map_map]
    rfl
  · rfl

end NameTable

end WebSurface
