import WebSurface.Proofs.ReturnTypes
import WebSurface.Proofs.Settled
set_option autoImplicit false

namespace WebSurface

open TypeText

/-- The text is what is left of a written type without its nullish members. -/
def TypeText.IsBare (t : Text) : Prop := ∃ written, (splitNullish written).1 = t

theorem TypeText.isBare_fst (written : Text) : IsBare (splitNullish written).1 := ⟨written, rfl⟩

theorem TypeText.IsBare.admits_eq {t : Text} (h : IsBare t) : admitsNullish t = false := by
  obtain ⟨written, rfl⟩ := h
  rw [← splitNullish_snd, splitNullish_fst_snd]

theorem Parameter.isBare_of_ofText? {t : Text} {p : Parameter} (h : ofText? t = some p) :
    IsBare p.type := by
  simp only [ofText?, Option.ite_none_left_eq_some, Option.some.injEq] at h
  have type := congrArg Parameter.type h.2
  dsimp only at type
  rw [← type]
  exact isBare_fst _

theorem Signature.isBare_of_ofText? {t : Text} {s : Signature} (h : ofText? t = some s) :
    ∀ type ∈ s.parameters.map Parameter.type ++ [s.returnType], IsBare type := by
  rw [ofText?_eq] at h
  obtain ⟨⟨parameters, returnType⟩, -, rfl⟩ := Option.map_eq_some_iff.1 h
  dsimp only [ofTexts]
  refine List.forall_mem_append.2
    ⟨List.forall_mem_map.2 fun p hp => ?_, List.forall_mem_singleton.2 (isBare_fst returnType)⟩
  obtain ⟨written, -, read⟩ := List.mem_filterMap.1 hp
  exact Parameter.isBare_of_ofText? read

namespace Member

def types : Member → List Text
  | .property p => [p.type]
  | .method m => m.types
  | .call c => c.types

theorem isBare_of_ofText {t : Text} {m : Member} (h : ofText t = .ok m) :
    ∀ type ∈ m.types, IsBare type := by
  cases isRead_of_ofText h with
  | property _ annotation =>
    simp only [types, List.forall_mem_singleton]
    exact isBare_fst annotation
  | method _ hs => exact Signature.isBare_of_ofText? hs
  | call hs => exact Signature.isBare_of_ofText? hs

end Member

namespace Interface

theorem mem_memberTypes_add {i : Interface} {m : Member} {t : Text}
    (h : t ∈ (i.add m).memberTypes) : t ∈ i.memberTypes ∨ t ∈ m.types := by
  simp only [memberTypes, List.mem_append, List.mem_map, List.mem_flatMap, Option.mem_toList] at h ⊢
  cases m with
  | property p =>
    rcases h with (⟨q, hq, rfl⟩ | h) | h
    · rcases Keyed.mem_place hq with rfl | hq
      · exact .inr (List.mem_singleton_self _)
      · exact .inl (.inl (.inl ⟨q, hq, rfl⟩))
    · exact .inl (.inl (.inr h))
    · exact .inl (.inr h)
  | method m =>
    rcases h with (h | ⟨n, hn, ht⟩) | h
    · exact .inl (.inl (.inl h))
    · rcases Keyed.mem_place hn with rfl | hn
      · exact .inr ht
      · exact .inl (.inl (.inr ⟨n, hn, ht⟩))
    · exact .inl (.inr h)
  | call c =>
    rcases h with h | ⟨d, hd, ht⟩
    · exact .inl (.inl h)
    · obtain rfl := Option.some.inj hd
      exact .inr ht

theorem forall_memberTypes {P : Text → Prop} (n : Nat) {r : Reading} (ss : List Segment)
    (start : ∀ t ∈ r.interface.memberTypes, P t)
    (read : ∀ s ∈ ss, ∀ m, Member.ofText s.text = .ok m → ∀ t ∈ m.types, P t) :
    ∀ t ∈ (ss.foldl (Reading.member n) r).interface.memberTypes, P t := by
  induction ss generalizing r with
  | nil => exact start
  | cons s ss ih =>
    obtain ⟨hs, hss⟩ := List.forall_mem_cons.1 read
    refine ih (fun t ht => ?_) hss
    cases hm : Member.ofText s.text with
    | error reason =>
      rw [Reading.member, hm] at ht
      exact start t ht
    | ok m =>
      rw [Reading.member, hm] at ht
      exact (mem_memberTypes_add ht).elim (start t) (hs m hm t)

theorem isBare_of_mem_memberTypes {raw : Text} {i : Interface} (h : ofText raw = .ok i) {t : Text}
    (ht : t ∈ i.memberTypes) : IsBare t := by
  obtain ⟨r, hr, rfl⟩ := exists_read h
  obtain ⟨head, n, body, -, -, -, -, rfl⟩ := exists_of_read hr
  refine forall_memberTypes (n + 1) (Member.split body) (fun t ht => ?_)
    (fun s _ m hm => Member.isBare_of_ofText hm) t ht
  cases ht

/-- No type of an interface that can be read has a nullish member beside another one: whether a
member may be `null` or `undefined` is told by its flag alone. -/
theorem bare_memberTypes {raw : Text} {i : Interface} (h : ofText raw = .ok i) :
    ∀ t ∈ i.memberTypes, (splitNullish t).2 = false ∧
      ((∃ m ∈ unionMembers t, isNullish m) → ∀ m ∈ unionMembers t, isNullish m) := by
  intro t ht
  have bare := (isBare_of_mem_memberTypes h ht).admits_eq
  refine ⟨(splitNullish_snd t).trans bare, fun ⟨m, hm, hnull⟩ n hn => ?_⟩
  rcases Bool.and_eq_false_iff.1 bare with none | all
  · exact absurd hnull (List.any_eq_false.1 none m hm)
  · simpa using List.any_eq_false.1 all n hn

/-- Members with bars too many, with nullish members only and with a bracket that is not closed. -/
theorem bare_memberTypes_malformed :
    let raw := ("interface A \x7b a: | null | string | | undefined;" ++
      " b(c: null | undefined |): || null | [A | null\n ").toList
    let c : Parameter := ⟨['c'], "null | undefined".toList, false, false⟩
    let i : Interface := ⟨['A'], [], .ofList [⟨['a'], "string".toList, true, false⟩],
      .ofList [⟨['b'], [c], "[A | null".toList, true, none⟩], none⟩
    ofText raw = .ok i ∧
      i.memberTypes = ["string".toList, "null | undefined".toList, "[A | null".toList] ∧
      ∀ t ∈ i.memberTypes, (splitNullish t).2 = false := by
  intro raw c i
  have read : ofText raw = .ok i := by decide +kernel
  exact ⟨read, rfl, fun t ht => (bare_memberTypes read t ht).1⟩

end Interface

end WebSurface
