import WebSurface.Corpus.Index
import WebSurface.Proofs.NameTable
import WebSurface.Proofs.Naming
import WebSurface.Proofs.Statements
set_option autoImplicit false

/-!
Declarations are read under the names under which their texts are filed.

The index writes over the comments of a whole corpus, cuts it into statements and reads their heads.
Where strings close on the line on which they open, a statement has no comments left to write over
(`Declarations.quiet_statement`), so the head that is read again later is the one that was filed
(`Index.reads_as_filed`).
-/

namespace WebSurface

/-- The head of the statement declares this name. -/
def Text.declares (statement : Text) (kind : DeclarationKind) (name : Text) : Bool :=
  (Head.ofText? statement).any fun h => h.kind == kind && h.name == name

theorem Text.declares_iff {statement name : Text} {kind : DeclarationKind} :
    statement.declares kind name ↔
      ∃ h, Head.ofText? statement = some h ∧ h.kind = kind ∧ h.name = name := by
  simp [declares, Option.any_eq_true]

theorem NameSet.mem_foldl_insert {names : List Text} {s : NameSet} {name : Text} :
    name ∈ (names.foldl insert s).list ↔ name ∈ s.list ∨ name ∈ names := by
  induction names generalizing s with
  | nil => simp
  | cons n ns ih =>
    rw [List.foldl_cons, ih, mem_insert, List.mem_cons, or_comm (a := name = n), or_assoc]

theorem NameSet.mem_ofList {names : List Text} {name : Text} :
    name ∈ (ofList names).list ↔ name ∈ names := by
  rw [ofList, mem_foldl_insert]
  simp [empty]

namespace Declarations

def table (d : Declarations) : DeclarationKind → NameTable Text
  | .interface => d.interfaces
  | .alias => d.aliases

theorem get?_table_add (d : Declarations) (statement : Text) (kind : DeclarationKind)
    (name : Text) :
    ((d.add statement).table kind).get? name =
      ((d.table kind).get? name).or
        (if statement.declares kind name then some statement else none) := by
  have filed (m : NameTable Text) (n : Text) : NameTable.get? (m.putNew (n, statement)) name =
      (m.get? name).or (if n = name then some statement else none) := by
    rw [NameTable.get?_putNew]
    by_cases h : name = n
    · subst h
      cases m.get? name <;> simp
    · rw [if_neg h, if_neg (Ne.symm h), Option.or_none]
  unfold add Text.declares
  cases hh : Head.ofText? statement with
  | none => simp
  | some h =>
    obtain ⟨kind', n, bases, stop⟩ := h
    cases kind' <;> cases kind <;> simp [table, filed]

/-- A name leads to the first statement that declares it. -/
theorem get?_foldl_add (statements : List Text) (d : Declarations) (kind : DeclarationKind)
    (name : Text) :
    ((statements.foldl add d).table kind).get? name =
      ((d.table kind).get? name).or (statements.find? (·.declares kind name)) := by
  induction statements generalizing d with
  | nil => simp
  | cons s ss ih =>
    rw [List.foldl_cons, ih, get?_table_add, Option.or_assoc, List.find?_cons]
    cases s.declares kind name <;> simp

theorem get?_foldl_add_empty (statements : List Text) (kind : DeclarationKind) (name : Text) :
    ((statements.foldl add empty).table kind).get? name =
      statements.find? (·.declares kind name) := by
  rw [get?_foldl_add]
  cases kind <;> rfl

theorem mem_interfaceNames {d : Declarations} {name : Text} :
    name ∈ d.interfaceNames ↔ ∃ raw, d.interface? name = some raw := by
  rw [interfaceNames, NameSet.mem_ofList, NameTable.mem_keys_iff]
  rfl

theorem mem_aliasNames {d : Declarations} {name : Text} :
    name ∈ d.aliasNames ↔ ∃ raw, d.alias? name = some raw := by
  rw [aliasNames, NameSet.mem_ofList, NameTable.mem_keys_iff]
  rfl

end Declarations

theorem Head.stop_eq_of_ofText? {t : Text} {h : Head} (ht : ofText? t = some h) :
    h.stop = Text.bytes (cut t).1 := by
  simp only [ofText?] at ht
  split at ht
  · cases ht
  · split at ht
    · obtain ⟨kind, -, ht⟩ := Option.bind_eq_some_iff.1 ht
      obtain ⟨name, -, ht⟩ := Option.bind_eq_some_iff.1 ht
      cases kind with
      | interface =>
        obtain ⟨bases, -, ht⟩ := Option.bind_eq_some_iff.1 ht
        exact Option.some.inj ht ▸ rfl
      | «alias» => exact Option.some.inj ht ▸ rfl
    · cases ht

theorem Head.stop_of_ofText? {t : Text} {h : Head} (ht : ofText? t = some h) :
    t.after h.stop = (cut t).2 := by
  conv => lhs; rw [← cut_append t, stop_eq_of_ofText? ht, Text.after_bytes]

/-- The text has no comments to write over and no white space around it. -/
structure Text.Bare (t : Text) : Prop where
  quiet : t.Quiet
  trimmed : t.trim = t

namespace Text.Bare

variable {raw : Text} {h : Head}

theorem trimStart_eq (hr : raw.Bare) : raw.trimStart = raw := by
  conv => lhs; rw [← hr.trimmed, trimStart_trim]
  exact hr.trimmed

theorem ofText_interface (hr : raw.Bare) (hh : Head.ofText? raw = some h)
    (hk : h.kind = .interface) :
    if (Head.cut raw).2.head? = some '{' then
      ∃ i, Interface.ofText raw = .ok i ∧ i.name = h.name
    else Interface.ofText raw = .error (.missingBody h.name) := by
  have rest := Head.stop_of_ofText? hh
  obtain ⟨kind, name, bases, stop⟩ := h
  obtain rfl : kind = .interface := hk
  have whole := CommentMode.blank_quiet hr.quiet
  rw [Interface.ofText, Interface.read, whole, hr.trimStart_eq]
  simp only [hh, rest]
  split
  · rename_i hbrace
    rw [if_pos (Text.startsWith_singleton.2 hbrace)]
    exact ⟨_, rfl, Interface.name_foldl_member _ _ _⟩
  · rename_i hbrace
    rw [if_neg (mt Text.startsWith_singleton.1 hbrace)]
    rfl

theorem ofText_alias (hr : raw.Bare) (hh : Head.ofText? raw = some h) (hk : h.kind = .alias) :
    if (Head.cut raw).2.head? = some '=' then
      ∃ a, Alias.ofText raw = .ok a ∧ a.name = h.name
    else ∃ found, Alias.ofText raw = .error (.notAlias found) := by
  have rest := Head.stop_of_ofText? hh
  obtain ⟨kind, name, bases, stop⟩ := h
  obtain rfl : kind = .alias := hk
  have whole := CommentMode.blank_quiet hr.quiet
  rw [Alias.ofText, whole, hr.trimmed]
  simp only [hh, rest]
  split
  · rename_i hequals
    obtain ⟨body, hbody⟩ := List.head?_eq_some_iff.1 hequals
    rw [Text.strip?_eq_some_iff.2 hbody]
    exact ⟨_, rfl, rfl⟩
  · rename_i hequals
    have none : Text.strip? ['='] (Head.cut raw).2 = none := by
      refine Option.eq_none_iff_forall_ne_some.2 fun body hbody => hequals ?_
      rw [Text.strip?_eq_some_iff.1 hbody]
      rfl
    rw [none]
    exact ⟨_, rfl⟩

end Text.Bare

namespace Declarations

/-- The statements of a corpus are bare once its comments are written over. -/
theorem bare_of_mem_statements {corpus : Text} (h : corpus.LiteralsOnLine) {raw : Text}
    (hr : raw ∈ (splitStatements corpus.blankComments).map Segment.text) : raw.Bare := by
  rw [Statement.text_splitStatements, tidy, List.mem_filter, List.mem_map] at hr
  obtain ⟨⟨p, hp, rfl⟩, -⟩ := hr
  exact ⟨(Statement.quiet_of_mem_cuts (Text.quiet_blankComments h) hp).trim, Text.trim_trim p⟩

/-- What a name leads to is a bare statement that declares it. -/
theorem bare_of_get?_ofText {corpus : Text} (h : corpus.LiteralsOnLine) (kind : DeclarationKind)
    {name raw : Text} (hr : ((ofText corpus).table kind).get? name = some raw) :
    raw.Bare ∧ ∃ head, Head.ofText? raw = some head ∧ head.kind = kind ∧ head.name = name := by
  rw [ofText, get?_foldl_add_empty] at hr
  have declares : raw.declares kind name := by simpa using List.find?_some hr
  exact ⟨bare_of_mem_statements h (List.mem_of_find?_eq_some hr), Text.declares_iff.1 declares⟩

end Declarations

/-- The text under a name is read as a declaration of this name: as an interface, unless it has no
body, and as an alias exactly if an equals sign ends its head. -/
theorem Index.reads_as_filed (key : Text) {corpus : Text} (h : corpus.LiteralsOnLine) :
    (∀ name ∈ (build key corpus).declarations.interfaceNames,
      ∃ raw, (build key corpus).declarations.interface? name = some raw ∧
        if (Head.cut raw).2.head? = some '{' then
          ∃ i, Interface.ofText raw = .ok i ∧ i.name = name
        else Interface.ofText raw = .error (.missingBody name)) ∧
    ∀ name ∈ (build key corpus).declarations.aliasNames,
      ∃ raw, (build key corpus).declarations.alias? name = some raw ∧
        if (Head.cut raw).2.head? = some '=' then
          ∃ a, Alias.ofText raw = .ok a ∧ a.name = name
        else ∃ found, Alias.ofText raw = .error (.notAlias found) := by
  constructor
  · intro name hname
    obtain ⟨raw, hraw⟩ := Declarations.mem_interfaceNames.1 hname
    obtain ⟨bare, head, hh, hk, rfl⟩ :=
      Declarations.bare_of_get?_ofText h .interface hraw
    exact ⟨raw, hraw, bare.ofText_interface hh hk⟩
  · intro name hname
    obtain ⟨raw, hraw⟩ := Declarations.mem_aliasNames.1 hname
    obtain ⟨bare, head, hh, hk, rfl⟩ :=
      Declarations.bare_of_get?_ofText h .alias hraw
    exact ⟨raw, hraw, bare.ofText_alias hh hk⟩

/-- Braces and semicolons in comments and strings, and an alias without a type. -/
theorem Index.reads_as_filed_marks :
    let corpus : Text :=
      "/* \x7d */ interface A \x7b s: '\x7d' \x7d // ;\ntype B = 'x;'; type D".toList
    let a := "interface A \x7b s: '\x7d' \x7d".toList
    let i : Interface := ⟨['A'], [], .ofList [⟨['s'], "'\x7d'".toList, false, false⟩], .empty, none⟩
    let d := "type D".toList
    let index := build [] corpus
    corpus.LiteralsOnLine ∧
      index.declarations.interface? ['A'] = some a ∧ Interface.ofText a = .ok i ∧ i.name = ['A'] ∧
      index.declarations.alias? ['D'] = some d ∧ Alias.ofText d = .error (.notAlias d) := by
  intro corpus a i d index
  have onLine : corpus.LiteralsOnLine := by decide +kernel
  obtain ⟨fileA, readA, fileD, readD⟩ : index.declarations.interface? ['A'] = some a ∧
      Interface.ofText a = .ok i ∧ index.declarations.alias? ['D'] = some d ∧
      Alias.ofText d = .error (.notAlias d) := by
    decide +kernel
  obtain ⟨interfaces, aliases⟩ := reads_as_filed [] onLine
  obtain ⟨rawA, rawA_eq, read⟩ := interfaces ['A'] (by decide +kernel)
  obtain rfl := Option.some.inj (rawA_eq.symm.trans fileA)
  rw [if_pos (by decide +kernel)] at read
  obtain ⟨j, hj, name⟩ := read
  obtain rfl := Except.ok.inj (hj.symm.trans readA)
  obtain ⟨rawD, rawD_eq, refused⟩ := aliases ['D'] (by decide +kernel)
  obtain rfl := Option.some.inj (rawD_eq.symm.trans fileD)
  rw [if_neg (by decide +kernel)] at refused
  obtain ⟨found, hfound⟩ := refused
  obtain rfl := DeclarationFault.notAlias.inj (Except.error.inj (hfound.symm.trans readD))
  exact ⟨onLine, fileA, hj, name, fileD, hfound⟩

end WebSurface
