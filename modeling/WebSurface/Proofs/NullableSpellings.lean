import WebSurface.Proofs.WrittenMember
import WebSurface.Proofs.WrittenUnion
set_option autoImplicit false

namespace WebSurface

namespace Written

/-- The ways to write that a value of type `t` may be missing: a question mark, a union `u` of it
with nullish members, or both. -/
def spellings (t u : Text) : List (Bool × Text) := [(true, t), (false, u), (true, u)]

theorem admits_of_mem_spellings {t u : Text} (hu : TypeText.admitsNullish u) {s : Bool × Text}
    (hs : s ∈ spellings t u) : (s.1 || TypeText.admitsNullish s.2) = true := by
  simp only [spellings, List.mem_cons, List.not_mem_nil, or_false] at hs
  rcases hs with rfl | rfl | rfl
  · rfl
  · exact hu
  · rfl

theorem eq_of_mem_spellings {t u : Text} {s : Bool × Text} (hs : s ∈ spellings t u) :
    s.2 = t ∨ s.2 = u := by
  simp only [spellings, List.mem_cons, List.not_mem_nil, or_false] at hs
  rcases hs with rfl | rfl | rfl
  · exact .inl rfl
  · exact .inr rfl
  · exact .inr rfl

/-- All ways to write that a value may be missing are read alike, by members and by parameters, and
as the type that a method returns. -/
theorem nullable_spellings {name t u : Text} {ms : List Text} (hn : Head.IsName name)
    (ht : TypeText.IsWritten t) (full : TypeText.IsFull t)
    (proper : ∃ m ∈ TypeText.unionMembers t, TypeText.isNullish m = false)
    (inserted : TypeText.Inserted (TypeText.unionMembers t) ms)
    (more : (TypeText.unionMembers t).length < ms.length) (laid : TypeText.LaidOut ms u) :
    (∀ s ∈ spellings t u, ∀ isReadonly,
      WebSurface.Member.ofText (Member.property isReadonly name s.1 s.2).text =
        .ok (.property ⟨name, (TypeText.splitNullish t).1, true, isReadonly⟩)) ∧
    (name ≠ "this".toList → ∀ s ∈ spellings t u, ∀ (before after : List Parameter)
      (isVariadic : Bool), (∀ p ∈ before ++ after, p.Valid) →
      WebSurface.Parameter.listOfText (Text.join [',', ' ']
          ((before ++ ⟨isVariadic, name, s.1, some s.2⟩ :: after).map Parameter.text)) =
        before.map Parameter.meaning ++
          ⟨name, (TypeText.splitNullish t).1, true, isVariadic⟩ :: after.map Parameter.meaning) ∧
    ∀ (method : Text) (isOptional : Bool) (h : Heading), Head.IsName method →
      (method = "new".toList → isOptional) → h.Valid →
      WebSurface.Member.ofText (method ++ (mark isOptional ++ (h.text ++ ascription (some u)))) =
        .ok (.method ⟨method, WebSurface.Parameter.listOfText h.parameters,
          (TypeText.splitNullish t).1, true, none⟩) := by
  obtain ⟨hu, hublank, admits, same⟩ :=
    TypeText.splitNullish_inserted ht full proper inserted more laid
  have htblank : t.blank = false := by
    obtain ⟨m, hm, -⟩ := proper
    exact TypeText.blank_of_mem_unionMembers hm
  have written : ∀ s ∈ spellings t u, TypeText.IsWritten s.2 ∧ s.2.blank = false ∧
      (TypeText.splitNullish s.2).1 = (TypeText.splitNullish t).1 := fun s hs => by
    rcases eq_of_mem_spellings hs with h | h
    · rw [h]
      exact ⟨ht, htblank, rfl⟩
    · rw [h]
      exact ⟨hu, hublank, same⟩
  refine ⟨fun s hs isReadonly => ?_, fun hthis s hs before after isVariadic valid => ?_,
    fun method isOptional h hmethod hnew hh => ?_⟩
  · obtain ⟨hw, hb, hsplit⟩ := written s hs
    rw [Member.ofText_property hn hw hb, hsplit, admits_of_mem_spellings admits hs]
  · obtain ⟨hw, -, hsplit⟩ := written s hs
    obtain ⟨hbefore, hafter⟩ := List.forall_mem_append.1 valid
    have here : Parameter.Valid ⟨isVariadic, name, s.1, some s.2⟩ :=
      ⟨hn, hthis, fun x hx => Option.some.inj hx ▸ hw⟩
    have meaning : Parameter.meaning ⟨isVariadic, name, s.1, some s.2⟩ =
        ⟨name, (TypeText.splitNullish t).1, true, isVariadic⟩ := by
      rw [← hsplit, ← admits_of_mem_spellings admits hs]
      rfl
    rw [Parameter.listOfText_join (List.forall_mem_append.2
      ⟨hbefore, List.forall_mem_cons.2 ⟨here, hafter⟩⟩), List.map_append, List.map_cons, meaning]
  · have returned : h.meaning (some u) = ⟨WebSurface.Parameter.listOfText h.parameters,
        (TypeText.splitNullish t).1, true⟩ := by
      rw [← same, ← admits]
      rfl
    rw [Member.ofText_method hmethod hnew hh fun x hx => Option.some.inj hx ▸ ⟨hu, hublank⟩,
      returned]

/-- Members that are unions, functions and strings with bars in them are kept together. -/
theorem nullable_spellings_nested :
    let t : Text := "Map<string | null, () => void>[]| \"a | b\"".toList
    let u : Text := "null|Map<string | null, () => void>[]\n| undefined|\"a | b\" |null".toList
    let read : Text := "Map<string | null, () => void>[] | \"a | b\"".toList
    (TypeText.IsWritten t ∧ TypeText.IsFull t ∧ TypeText.isNullish "\"a | b\"".toList = false) ∧
    WebSurface.Member.ofText ("readonly readonly?: ".toList ++ t) =
      .ok (.property ⟨"readonly".toList, read, true, true⟩) ∧
    WebSurface.Member.ofText ("readonly readonly: ".toList ++ u) =
      .ok (.property ⟨"readonly".toList, read, true, true⟩) ∧
    WebSurface.Parameter.listOfText ("x?: X, ...readonly?: ".toList ++ u) =
      [⟨['x'], ['X'], true, false⟩, ⟨"readonly".toList, read, true, true⟩] ∧
    WebSurface.Member.ofText ("new?<K>([a, b]: K): ".toList ++ u) =
      .ok (.method ⟨"new".toList, [⟨"[a, b]".toList, ['K'], false, false⟩], read, true, none⟩) := by
  intro t u read
  let map : Text := "Map<string | null, () => void>[]".toList
  let string : Text := "\"a | b\"".toList
  have name : Head.IsName "readonly".toList := by decide +kernel
  have written : TypeText.IsWritten t := by decide +kernel
  have full : TypeText.IsFull t := by decide +kernel
  have members : TypeText.unionMembers t = [map, string] := by decide +kernel
  have proper : TypeText.isNullish string = false := by decide +kernel
  have split : (TypeText.splitNullish t).1 = read := by decide +kernel
  have inserted : TypeText.Inserted [map, string]
      ["null".toList, map, "undefined".toList, string, "null".toList] :=
    .insert rfl (.keep (.insert rfl (.keep (.insert rfl .nil))))
  have none : ∀ c ∈ ([] : Text), Lexeme.isSeparator c := List.forall_mem_nil _
  have space : ∀ c ∈ [' '], Lexeme.isSeparator c := List.forall_mem_singleton.2 rfl
  have line : ∀ c ∈ ['\n'], Lexeme.isSeparator c := List.forall_mem_singleton.2 rfl
  have laid : TypeText.LaidOut ["null".toList, map, "undefined".toList, string, "null".toList] u :=
    .bar none none (.bar none line (.bar space none (.bar none space (.last none none))))
  have valid : ∀ p ∈ [(⟨false, ['x'], true, some ['X']⟩ : Parameter)] ++ [], p.Valid := by
    decide +kernel
  rw [← members] at inserted
  obtain ⟨property, parameter, method⟩ := nullable_spellings name written full
    ⟨string, by rw [members]; simp, proper⟩ inserted (by rw [members]; decide) laid
  rw [split] at property parameter method
  refine ⟨⟨written, full, proper⟩, property (true, t) (by simp [spellings]) true,
    property (false, u) (by simp [spellings]) true, ?_, ?_⟩
  · exact parameter (by decide) (true, u) (by simp [spellings])
      [⟨false, ['x'], true, some ['X']⟩] [] true valid
  · exact method "new".toList true ⟨some ['K'], "[a, b]: K".toList⟩ (by decide +kernel)
      (fun _ => rfl) (by decide +kernel)

end Written

end WebSurface
