import WebSurface.Proofs.ClosedSurface
import WebSurface.Proofs.PureSurface
import WebSurface.Proofs.ReadMembers
set_option autoImplicit false

/-!
From the return type of a signature to its target.

A call signature and a method with the same texts of parameters and return type are read by the same
rules (`Signature.ofText?_eq`), but only of a method it is kept that `null` or `undefined` may be
returned. `Surface.returnTypes_of_assemble` says which targets a surface has for both, and when they
are the same.
-/

namespace WebSurface

namespace TypeTable

theorem nullable_eq_self_iff {target : Text} :
    nullable target = target ↔ target = "void".toList ∨ Text.endsWith ['?'] target := by
  unfold nullable
  split
  · rename_i h
    simpa using h
  · rename_i h
    simpa using h

theorem targetWith_eq_target_iff {table : TypeTable} {t : Text} {isNullable : Bool} :
    table.target t = table.targetWith t isNullable ↔
      (isNullable → table.target t = "void".toList ∨ Text.endsWith ['?'] (table.target t)) := by
  cases isNullable with
  | false => simp [targetWith, nullableIf]
  | true =>
    rw [← nullable_eq_self_iff]
    simp [targetWith, nullableIf, eq_comm]

end TypeTable

namespace Signature

open TypeText (splitNullish)

def inParentheses? (t : Text) : Option (Text × Text) :=
  if Text.startsWith ['('] t then do
    let (inner, rest) ← group? t
    let type ← returnText? rest
    return (inner, type)
  else none

def texts? (t : Text) : Option (Text × Text) :=
  if Text.startsWith ['<'] t then (group? t).bind fun (_, rest) => inParentheses? rest.trimStart
  else inParentheses? t

def ofTexts (parameters returnType : Text) : Signature :=
  ⟨Parameter.listOfText parameters, (splitNullish returnType).1, (splitNullish returnType).2⟩

theorem ofParenthesis?_eq (t : Text) :
    ofParenthesis? t = (inParentheses? t).map fun (p, r) => ofTexts p r := by
  unfold ofParenthesis? inParentheses?
  split
  · cases group? t with
    | none => rfl
    | some g => cases h : returnText? g.2 <;> simp [h, ofTexts]
  · rfl

theorem ofText?_eq (t : Text) : ofText? t = (texts? t).map fun (p, r) => ofTexts p r := by
  unfold ofText? texts?
  split
  · cases group? t with
    | none => rfl
    | some g => exact ofParenthesis?_eq _
  · exact ofParenthesis?_eq t

end Signature

namespace Member

/-- The texts of the parameters and of the return type of the signature in a chunk, which begins
with the first token that can open one. -/
def signature? (t : Text) : Option (Text × Text) :=
  match Token.tokenize t with
  | .error _ => none
  | .ok tokens =>
    (tokens.find? fun k => opensSignature k.kind).bind fun k =>
      Signature.texts? (t.after k.span.start)

/-- The member says what the signature says. Of a call signature it is lost whether the return type
is nullable. -/
def Bears (s : Signature) : Member → Prop
  | .property _ => False
  | .method m => m = ⟨m.name, s.parameters, s.returnType, s.returnIsNullable, none⟩
  | .call c => c = ⟨s.parameters, s.returnType⟩

theorem Bears.call_returnType {s : Signature} {c : Call} (h : (call c).Bears s) :
    c.returnType = s.returnType :=
  congrArg Call.returnType h

theorem Bears.method_return {s : Signature} {m : Method} (h : (method m).Bears s) :
    m.returnType = s.returnType ∧ m.returnIsNullable = s.returnIsNullable :=
  ⟨congrArg Method.returnType h, congrArg Method.returnIsNullable h⟩

/-- What is read from these tokens of the text is a property or bears the first signature. -/
def FromSignature (t : Text) (tokens : List Token) (m : Member) : Prop :=
  m.property?.isSome ∨ ∃ mark s, (tokens.find? fun k => opensSignature k.kind) = some mark ∧
    Signature.ofText? (t.after mark.span.start) = some s ∧ m.Bears s

theorem FromSignature.cons {t : Text} {k : Token} {tokens : List Token} {m : Member}
    (hk : opensSignature k.kind = false) (h : FromSignature t tokens m) :
    FromSignature t (k :: tokens) m := by
  rcases h with h | ⟨mark, s, hm, hs, bears⟩
  · exact .inl h
  · exact .inr ⟨mark, s, by simp [hk, hm], hs, bears⟩

theorem fromSignature_ofName {t name : Text} {isReadonly : Bool} {tokens : List Token} {m : Member}
    (h : ofName t isReadonly name tokens = .ok m) : FromSignature t tokens m := by
  have read (mark : Token) (rest : List Token)
      (hr : (if firstIs (· == .sign .question) tokens then tokens.tail else tokens) =
        mark :: rest) : FromSignature t (mark :: rest) m := by
    simp only [ofName, hr] at h
    split at h
    · rename_i opens
      split at h
      · rename_i s hs
        rw [← Except.ok.inj h]
        exact .inr ⟨mark, s, by simp [opens], hs, rfl⟩
      · cases h
    · split at h
      · split at h
        · cases h
        · rw [← Except.ok.inj h]
          exact .inl rfl
      · cases h
  cases tokens with
  | nil => cases h
  | cons k tokens =>
    cases hk : k.kind == .sign .question with
    | false =>
      exact read k tokens (by simp [firstIs, hk])
    | true =>
      cases tokens with
      | nil =>
        simp [ofName, firstIs, hk] at h
      | cons mark rest =>
        refine .cons ?_ (read mark rest (by simp [firstIs, hk]))
        rw [beq_iff_eq.1 hk]
        rfl

theorem fromSignature_ofTokens {t : Text} {isReadonly : Bool} {tokens : List Token} {m : Member}
    (h : ofTokens t isReadonly tokens = .ok m) : FromSignature t tokens m := by
  cases tokens with
  | nil => cases h
  | cons first rest =>
    rw [ofTokens] at h
    split at h
    · cases h
    · rename_i hk
      exact .cons (by rw [hk]; rfl) (fromSignature_ofName h)
    · rename_i hk
      split at h
      · cases h
      · split at h
        · cases h
        · exact .cons (by rw [hk]; rfl) (fromSignature_ofName h)
    · split at h
      · rename_i opens
        split at h
        · rename_i s hs
          rw [← Except.ok.inj h]
          exact .inr ⟨first, s, by simp [opens], hs, rfl⟩
        · cases h
      · cases h

theorem bears_of_ofText {t : Text} {m : Member} (h : ofText t = .ok m) (hm : m.property? = none) :
    ∃ p r, signature? t = some (p, r) ∧ m.Bears (.ofTexts p r) := by
  have found {tokens : List Token} (ht : Token.tokenize t = .ok tokens)
      (from' : FromSignature t tokens m) :
      ∃ p r, signature? t = some (p, r) ∧ m.Bears (.ofTexts p r) := by
    rcases from' with hp | ⟨mark, s, hk, hs, bears⟩
    · rw [hm] at hp
      cases hp
    · rw [Signature.ofText?_eq] at hs
      obtain ⟨⟨p, r⟩, texts, rfl⟩ := Option.map_eq_some_iff.1 hs
      exact ⟨p, r, by simp [signature?, ht, hk, texts], bears⟩
  unfold ofText at h
  split at h
  · cases h
  · rename_i tokens ht
    refine found ht ?_
    split at h
    · rename_i hr
      cases tokens with
      | nil => cases hr
      | cons k tokens =>
        refine .cons ?_ (fromSignature_ofTokens h)
        have word : k.isWord "readonly" := (Bool.and_eq_true_iff.1 hr).1
        rw [beq_iff_eq.1 word]
        rfl
    · exact fromSignature_ofTokens h

def lastTexts? (p : Member → Bool) (body : Text) : Option (Text × Text) :=
  ((split body).reverse.find? fun s => (ofText s.text).toOption.any p).bind fun s =>
    signature? s.text

def callTexts? (body : Text) : Option (Text × Text) := lastTexts? (fun m => m.call?.isSome) body

def methodTexts? (name body : Text) : Option (Text × Text) :=
  lastTexts? (fun m => m.method?.any fun m => m.key == name.asciiLower) body

theorem find?_filterMap_ofChunks {β : Type} (f : Member → Option β) (p : β → Bool)
    (ss : List Segment) : ((ofChunks ss).filterMap f).reverse.find? p =
      (ss.reverse.find? fun s => (ofText s.text).toOption.any fun m => (f m).any p).bind fun s =>
        (ofText s.text).toOption.bind f := by
  rw [ofChunks, List.filterMap_filterMap, ← List.filterMap_reverse, List.find?_filterMap]
  simp only [Option.any_bind]
  rfl

/-- The last member of a kind that has signatures bears the texts of the last chunk of the kind. -/
theorem lastTexts?_of_find? {β : Type} {f : Member → Option β} (p : β → Bool)
    (hf : ∀ m, (f m).isSome → m.property? = none) (body : Text) :
    (((ofChunks (split body)).filterMap f).reverse.find? p = none ∧
        lastTexts? (fun m => (f m).any p) body = none) ∨
      ∃ m b texts, ((ofChunks (split body)).filterMap f).reverse.find? p = some b ∧
        f m = some b ∧ lastTexts? (fun m => (f m).any p) body = some texts ∧
        m.Bears (.ofTexts texts.1 texts.2) := by
  rw [find?_filterMap_ofChunks, lastTexts?]
  cases h : (split body).reverse.find? fun s =>
      (ofText s.text).toOption.any fun m => (f m).any p with
  | none => exact .inl ⟨rfl, rfl⟩
  | some s =>
    have read := List.find?_some h
    cases hm : ofText s.text with
    | error reason =>
      rw [hm] at read
      cases read
    | ok m =>
      rw [hm] at read
      obtain ⟨b, hb, -⟩ := (Option.any_eq_true p (f m)).1 read
      obtain ⟨params, type, texts, bears⟩ := bears_of_ofText hm (hf m (by rw [hb]; rfl))
      have found : (ofText s.text).toOption.bind f = some b := by rw [hm]; exact hb
      exact .inr ⟨m, b, (params, type), found, hb, texts, bears⟩

end Member

/-- The signatures of an interface are those of the last chunks in the body of its text. -/
theorem Interface.exists_of_ofText {raw : Text} {i : Interface} (h : ofText raw = .ok i) :
    ∃ n body, Encloses raw.blankComments n body ∧
      i.methods.LastWins ((Member.ofChunks (Member.split body)).filterMap Member.method?) ∧
      i.call = ((Member.ofChunks (Member.split body)).filterMap Member.call?).getLast? := by
  obtain ⟨r, hr, rfl⟩ := exists_read h
  obtain ⟨head, n, body, -, -, -, enclosed, rfl⟩ := exists_of_read hr
  rw [foldl_member, foldl_add]
  exact ⟨n, body, enclosed, Keyed.lastWins_ofList _, Option.or_none⟩

theorem Member.call_returnType {body : Text} {call : Option Call}
    (h : call = ((ofChunks (split body)).filterMap call?).getLast?) :
    call.map Call.returnType =
      (callTexts? body).map fun texts => (TypeText.splitNullish texts.2).1 := by
  have last : call = ((ofChunks (split body)).filterMap call?).reverse.find? fun _ => true := by
    rw [h, List.getLast?_eq_head?_reverse]
    cases ((ofChunks (split body)).filterMap call?).reverse <;> rfl
  have kind (m : Member) (hm : m.call?.isSome) : m.property? = none := by
    cases m <;> simp_all [call?, property?]
  have texts : callTexts? body = lastTexts? (fun m => m.call?.any fun _ => true) body := by
    simp only [callTexts?, Option.any_true]
  rw [last, texts]
  rcases lastTexts?_of_find? (fun _ => true) kind body with
    ⟨none, texts⟩ | ⟨m, c, texts, found, hm, last, bears⟩
  · rw [none, texts]
    rfl
  · cases m with
    | property p => cases hm
    | method m => cases hm
    | call c' =>
      obtain rfl := Option.some.inj hm
      rw [found, last, Option.map_some, Option.map_some, bears.call_returnType]
      simp only [Signature.ofTexts]

theorem Member.method_return {body : Text} {methods : Keyed Method.key}
    (h : methods.LastWins ((ofChunks (split body)).filterMap method?)) {m : Method}
    (hm : m ∈ methods.list) : ∃ texts, methodTexts? m.name body = some texts ∧
      m.returnType = (TypeText.splitNullish texts.2).1 ∧
        m.returnIsNullable = (TypeText.splitNullish texts.2).2 := by
  have last := h.find?_eq m.key
  rw [Keyed.find?_eq_some_iff.2 ⟨hm, rfl⟩] at last
  have kind (m : Member) (hm : m.method?.isSome) : m.property? = none := by
    cases m <;> simp_all [method?, property?]
  rcases lastTexts?_of_find? (fun n => n.key == m.key) kind body with
    ⟨none, -⟩ | ⟨m', n, texts, found, hm', last', bears⟩
  · rw [none] at last
    cases last
  · cases m' with
    | property p => cases hm'
    | call c => cases hm'
    | method m' =>
      obtain rfl := Option.some.inj hm'
      rw [found] at last
      obtain rfl := Option.some.inj last
      obtain ⟨type, isNullable⟩ := bears.method_return
      simp only [Signature.ofTexts] at type isNullable
      exact ⟨texts, last', type, isNullable⟩

namespace Surface

open TypeText (splitNullish)

/-- The target of a callback is that of the return type of its call signature without `null` and
`undefined`, and the target of a method is nullable where its return type was. So the two differ for
the same texts, unless there is nothing to tell or a target that is never nullable twice. -/
theorem returnTypes_of_assemble {corpus : Text} {table : TypeTable} {r : Request} {s : Surface}
    (h : assemble (.ofText corpus) table r = .ok s) {i : Interface} (hi : i ∈ s.interfaces) :
    ∃ raw n body, (Declarations.ofText corpus).interface? i.name = some raw ∧
      WebSurface.Interface.Encloses raw.blankComments n body ∧
      (i.callback.map Callback.returnType =
        (Member.callTexts? body).map fun texts => table.target (splitNullish texts.2).1) ∧
      (∀ m ∈ i.methods, some m.returnType = (Member.methodTexts? m.name body).map fun texts =>
        table.targetWith (splitNullish texts.2).1 (splitNullish texts.2).2) ∧
      ∀ c, i.callback = some c → ∀ m ∈ i.methods,
        Member.callTexts? body = Member.methodTexts? m.name body →
          ∃ texts, Member.callTexts? body = some texts ∧
            (c.returnType = m.returnType ↔
              ((splitNullish texts.2).2 → c.returnType = "void".toList ∨
                Text.endsWith ['?'] c.returnType)) := by
  have hd := Declarations.named_ofText corpus
  obtain ⟨g, completed, rfl⟩ := exists_of_assemble hd h
  obtain ⟨k, hk, rfl⟩ := List.mem_map.1 hi
  obtain ⟨name, hk⟩ := NameTable.mem_values_iff.1 hk
  obtain ⟨j, ⟨raw, hr, hj⟩, within⟩ := completed.interface_within hk
  have named : k.name = name := within.name_eq.trans (hd.interface_name hr hj)
  obtain ⟨n, body, enclosed, methods, call⟩ := WebSurface.Interface.exists_of_ofText hj
  -- What was read of the interface is kept by classification, but for its annotations.
  have calls : (ofInterface table g k).callback.map Callback.returnType =
      (Member.callTexts? body).map fun texts => table.target (splitNullish texts.2).1 := by
    have bare := Member.call_returnType call
    rw [← within.call_eq] at bare
    have target := congrArg (Option.map table.target) bare
    rw [Option.map_map, Option.map_map] at target
    rw [ofInterface, Option.map_map]
    exact target
  have returns (m : Method) (hm : m ∈ (ofInterface table g k).methods) :
      some m.returnType = (Member.methodTexts? m.name body).map fun texts =>
        table.targetWith (splitNullish texts.2).1 (splitNullish texts.2).2 := by
    obtain ⟨m', hm', rfl⟩ := List.mem_map.1 hm
    obtain ⟨m'', hm'', bare⟩ := within.methods_sub m' hm'
    obtain ⟨texts, last, type, isNullable⟩ := Member.method_return methods hm''
    simp only [Method.bare, WebSurface.Method.mk.injEq] at bare
    obtain ⟨name, -, type', isNullable', -⟩ := bare
    have texts' : Member.methodTexts? (ofMethod table g m').name body = some texts := by
      rw [← last, ← name]
      rfl
    rw [texts', Option.map_some, ← type, ← isNullable, ← type', ← isNullable']
    rfl
  refine ⟨raw, n, body, by rw [← hr]; exact congrArg _ named, enclosed, calls, returns, ?_⟩
  -- Both types are read from the same text now, and only one of them is marked.
  intro c hc m hm same
  have called := calls
  rw [hc] at called
  obtain ⟨texts, htexts, target⟩ := Option.map_eq_some_iff.1 called.symm
  have returned := returns m hm
  rw [← same, htexts] at returned
  refine ⟨texts, htexts, ?_⟩
  rw [Option.some.inj returned, ← target]
  exact TypeTable.targetWith_eq_target_iff

/-- A callback and a method that may return `null`, where the target tells nothing of it. -/
theorem returnTypes_of_assemble_void :
    let corpus : Text := "interface A \x7b (): void | null; m(): void | null; \x7d".toList
    let body := " (): void | null; m(): void | null; ".toList
    let c : Callback := ⟨[], "void".toList⟩
    let m : Method := ⟨['m'], [], "void".toList, "void".toList, some (.direct ['m'])⟩
    let s : Surface :=
      ⟨['A'], "window.a".toList, [⟨['A'], none, true, [], [m], some c⟩], [], []⟩
    assemble (.ofText corpus) (.ofEntries []) (.ofType ['A']) = .ok s ∧
      WebSurface.Interface.Encloses corpus.blankComments 12 body ∧
      Member.callTexts? body = some ([], "void | null".toList) ∧
      Member.methodTexts? ['m'] body = some ([], "void | null".toList) ∧
      splitNullish "void | null".toList = ("void".toList, true) ∧
      c.returnType = TypeTable.target (.ofEntries []) "void".toList ∧
      m.returnType = TypeTable.targetWith (.ofEntries []) "void".toList true := by
  intro corpus body c m s
  have whole : assemble (.ofText corpus) (.ofEntries []) (.ofType ['A']) = .ok s :=
    assemble_of_steps 0 (by decide +kernel)
  obtain ⟨raw, n, body', found, enclosed, calls, methods, -⟩ :=
    returnTypes_of_assemble whole (.head _)
  obtain ⟨filed, size, brace, inside, call, method, split⟩ :
      (Declarations.ofText corpus).interface? ['A'] = some corpus ∧
      Text.bytes corpus.blankComments = 50 ∧
      (∀ n < 50, corpus.blankComments.slice? ⟨n, n + 1⟩ = some ['{'] → n = 12) ∧
      corpus.blankComments.slice? ⟨13, (matchingClose corpus.blankComments 12).getD
        (Text.bytes corpus.blankComments)⟩ = some body ∧
      Member.callTexts? body = some ([], "void | null".toList) ∧
      Member.methodTexts? ['m'] body = some ([], "void | null".toList) ∧
      splitNullish "void | null".toList = ("void".toList, true) := by
    decide +kernel
  obtain rfl := Option.some.inj (filed.symm.trans found)
  have place : n = 12 := by
    obtain ⟨a, b, cut, start, stop⟩ := Text.slice?_eq_some_iff.1 enclosed.brace
    rw [cut, Text.bytes_append, Text.bytes_append, ← stop] at size
    exact brace n (Nat.lt_of_succ_le (size ▸ Nat.le_add_right _ _)) enclosed.brace
  rw [place] at enclosed
  obtain rfl := Option.some.inj (inside.symm.trans enclosed.body_eq)
  have returned := methods m (.head _)
  rw [call] at calls
  rw [method] at returned
  have called : c.returnType = TypeTable.target _ (splitNullish "void | null".toList).1 :=
    Option.some.inj calls
  have returned : m.returnType = TypeTable.targetWith _ (splitNullish "void | null".toList).1 _ :=
    Option.some.inj returned
  rw [split] at called returned
  exact ⟨whole, enclosed, call, method, split, called, returned⟩

/-- The same texts of parameters and return type, and two targets. -/
theorem not_returnTypes_eq :
    let corpus : Text := "interface A \x7b (): A | null; m(): A | null; \x7d".toList
    let body := " (): A | null; m(): A | null; ".toList
    let c : Callback := ⟨[], ['A']⟩
    let m : Method := ⟨['m'], [], ['A'], "A?".toList, some (.direct ['m'])⟩
    let s : Surface :=
      ⟨['A'], "window.a".toList, [⟨['A'], none, true, [], [m], some c⟩], [], []⟩
    assemble (.ofText corpus) (.ofEntries []) (.ofType ['A']) = .ok s ∧
      (Declarations.ofText corpus).interface? ['A'] = some corpus ∧
      WebSurface.Interface.Encloses corpus.blankComments 12 body ∧
      Member.callTexts? body = some ([], "A | null".toList) ∧
      Member.methodTexts? ['m'] body = some ([], "A | null".toList) ∧
      c.returnType ≠ m.returnType := by
  intro corpus body c m s
  refine ⟨assemble_of_steps 2 (by decide +kernel), ?_, ⟨?_, ?_⟩, ?_, ?_, ?_⟩
  all_goals decide +kernel

end Surface

end WebSurface
