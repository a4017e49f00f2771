import WebSurface.Proofs.ByteTokens
import WebSurface.Proofs.ByteTypes
import WebSurface.Proofs.MemberRuns
import WebSurface.Proofs.TokenSpans
set_option autoImplicit false

namespace WebSurface.Checked

open Text (utf8 bytes lead trail)

/-! ### Parameters and signatures -/

/-- The name of a parameter and its annotation, trimmed; without an annotation the type is `any`. -/
def annotated? (t : Text) : Option (Text × Text) := do
  match ← findTopLevel? ':'.toUInt8 t with
  | some colon => do
    let before ← upTo? t colon
    let annotation ← from? t (colon + 1)
    return (before.trim, annotation.trim)
  | none => return (t.trim, "any".toList)

def parameter? (t : Text) : Option (Option Parameter) := do
  let (isVariadic, t) := match Text.strip? "...".toList t with
    | some rest => (true, rest.trimStart)
    | none => (false, t)
  let (before, annotation) ← annotated? t
  let (name, isOptional) := match Text.stripEnd? ['?'] before with
    | some name => (name.trimEnd, true)
    | none => (before, false)
  if name.isEmpty || name == "this".toList then return none
  else do
    let (type, isNullish) ← splitNullish? annotation
    return some ⟨name, type, isOptional || isNullish, isVariadic⟩

def parameters? (t : Text) : Option (List Parameter) := do
  let segments ← splitTopLevel? ','.toUInt8 t
  let parameters ← segments.mapM fun s => parameter? s.text
  return parameters.filterMap id

def parenthesis? (t : Text) (n : Nat) : Option (Option Signature) :=
  if (utf8 t)[n]? == some '('.toUInt8 then do
    match ← matchingClose? t n with
    | none => return none
    | some close => do
      let inner ← t.slice? ⟨n + 1, close⟩
      let parameters ← parameters? inner
      let rest ← from? t (close + 1)
      match Signature.returnText? rest with
      | none => return none
      | some text => do
        let (type, isNullish) ← splitNullish? text
        return some ⟨parameters, type, isNullish⟩
  else some none

def signature? (t : Text) (n : Nat) : Option (Option Signature) :=
  if (utf8 t)[n]? == some '<'.toUInt8 then do
    match ← matchingClose? t n with
    | none => return none
    | some close => do
      let rest ← from? t (close + 1)
      let leading ← minus? (bytes rest) (bytes rest.trimStart)
      parenthesis? t (close + 1 + leading)
  else parenthesis? t n

/-! ### Members -/

def kindAt (p : TokenKind → Bool) (tokens : List Token) (i : Nat) : Bool :=
  tokens[i]?.any fun k => p k.kind

def named? (t : Text) (tokens : List Token) (isReadonly : Bool) (name : Text) (next : Nat) :
    Option (Except SkipReason Member) := do
  let mark ← tokens[next]?
  let isOptional := mark.kind == .sign .question
  let mark ← tokens[if isOptional then next + 1 else next]?
  if Member.opensSignature mark.kind then
    match ← signature? t mark.span.start with
    | some s => return .ok (.method ⟨name, s.parameters, s.returnType, s.returnIsNullable, none⟩)
    | none => return .error .unrecognized
  else if mark.kind == .sign .colon then do
    let annotation ← from? t mark.span.stop
    if annotation.trim.isEmpty then return .error .unrecognized
    else do
      let (type, isNullish) ← splitNullish? annotation.trim
      return .ok (.property ⟨name, type, isOptional || isNullish, isReadonly⟩)
  else return .error .unrecognized

def memberAt? (t : Text) (tokens : List Token) (i : Nat) : Option (Except SkipReason Member) := do
  let first ← tokens[i]?
  match first.kind with
  | .sign (.opening .square) => return .error .indexSignature
  | .literal _ raw => named? t tokens (0 < i) raw (i + 1)
  | .name word =>
    if word == "new".toList && kindAt Member.opensSignature tokens (i + 1) then
      return .error .constructSignature
    else if (word == "get".toList || word == "set".toList) &&
        kindAt Member.startsName tokens (i + 1) then
      return .error .accessor
    else named? t tokens (0 < i) word (i + 1)
  | kind =>
    if Member.opensSignature kind then
      match ← signature? t first.span.start with
      | some s => return .ok (.call ⟨s.parameters, s.returnType⟩)
      | none => return .error .unrecognized
    else return .error .unrecognized

def member? (t : Text) : Option (Except SkipReason Member) := do
  match ← tokenize? t with
  | .error faults => return .error (.lexing faults)
  | .ok tokens => do
    let first ← tokens[0]?
    memberAt? t tokens
      (if first.isWord "readonly" && kindAt Member.startsName tokens 1 then 1 else 0)

/-! ### Bodies -/

def pushChunks? (body : Text) (start stop : Nat) (members : List Segment) :
    Option (List Segment) := do
  let run ← body.slice? ⟨start, stop⟩
  let statements ← splitTopLevel? ';'.toUInt8 run
  let chunks ← statements.mapM fun s => do
    let parts ← splitTopLevel? ','.toUInt8 s.text
    return parts.map (·.shift (start + s.start))
  return members ++ chunks.flatten

/-- Reads lines that start at offset `n`; `pending` is where a run starts that is not complete. -/
def linesFrom? (body : Text) (n : Nat) (pending : Option Nat) (members : List Segment) :
    List Text → Option (List Segment)
  | [] =>
    match pending with
    | some start => pushChunks? body start (bytes body) members
    | none => some members
  | line :: rest =>
    let stop := n + line.bytes
    if pending.isNone && line.blank then linesFrom? body stop none members rest
    else do
      let start := pending.getD n
      let run ← body.slice? ⟨start, stop⟩
      let depth ← depthAfter? run
      if 0 < depth || Member.continuationMarks.any (fun m => Text.endsWith m run.trimEnd) ||
          rest.head?.elim false Member.continues then
        linesFrom? body stop (some start) members rest
      else do
        let members ← pushChunks? body start stop members
        linesFrom? body stop none members rest

def splitMembers? (body : Text) : Option (List Segment) := linesFrom? body 0 none [] body.lines

/-! ### What is read of signatures -/

theorem annotated?_eq (t : Text) : annotated? t = some (match breakTopLevel (· == ':') t with
    | (before, _ :: annotation) => (before.trim, Text.trim annotation)
    | (before, []) => (before.trim, "any".toList)) := by
  have whole := Nesting.breakAt_append (· == ':') .outside t
  have colon := Nesting.breakAt_snd (· == ':') .outside t
  rw [annotated?, findTopLevel?_eq (by decide), findTopLevel, breakTopLevel]
  generalize Nesting.outside.breakAt (· == ':') t = parts at whole colon ⊢
  obtain ⟨a, b⟩ := parts
  obtain rfl : a ++ b = t := whole
  rcases colon with h | ⟨c, r, h, hc⟩
  · obtain rfl : b = [] := h
    simp
  · obtain rfl : b = c :: r := h
    obtain rfl := beq_iff_eq.1 hc
    have rest := from?_bytes (a ++ [':']) r
    rw [List.append_assoc, Text.bytes_append] at rest
    simp only [Option.bind_eq_bind, Option.bind_some, List.isEmpty_cons, Bool.false_eq_true,
      if_false, upTo?_bytes]
    exact congrArg (Option.bind · _) rest

theorem parameter?_eq (t : Text) : parameter? t = some (Parameter.ofText? t) := by
  simp only [parameter?, Parameter.ofText?, annotated?_eq, splitNullish?_eq, Option.bind_eq_bind,
    Option.bind_some]
  exact (apply_ite some _ none _).symm

@[simp] theorem parameters?_eq (t : Text) : parameters? t = some (Parameter.listOfText t) := by
  rw [parameters?, splitTopLevel?_eq (by decide)]
  simp only [Option.bind_eq_bind, Option.bind_some]
  rw [mapM_eq_some fun s _ => parameter?_eq s.text, Parameter.listOfText, partsTopLevel,
    List.filterMap_map, Option.bind_some, List.filterMap_map]
  rfl

/-- What a bracket at the end of `p` encloses and what follows it are cut out at boundaries. -/
theorem slice?_group {r inner rest : Text} (p : Text) (h : group? r = some (inner, rest)) :
    (p ++ r).slice? ⟨bytes p + 1, bytes p + 1 + bytes inner⟩ = some inner ∧
      ∃ q, p ++ r = q ++ rest ∧ bytes q = bytes p + 1 + bytes inner + 1 := by
  obtain ⟨o, c, ho, hc, rfl⟩ := exists_of_group? h
  have opening := Text.utf8Size_ascii (onlyAscii_isOpener o ho)
  have closing := Text.utf8Size_ascii (onlyAscii_isCloser c hc)
  constructor
  · exact Text.slice?_eq_some_iff.2 ⟨p ++ [o], c :: rest, by simp, by simp [opening],
      by simp [opening]⟩
  · exact ⟨p ++ o :: (inner ++ [c]), by simp, by simp [opening, closing]; omega⟩

theorem getElem?_utf8_beq (p r : Text) {d : Char} (hd : d.toNat < 128) :
    ((utf8 (p ++ r))[bytes p]? == some d.toUInt8) = Text.startsWith [d] r := by
  cases r with
  | nil =>
    have done : (utf8 (p ++ []))[bytes p]? = none := List.getElem?_eq_none (by simp)
    rw [done]
    rfl
  | cons c r =>
    rw [Text.getElem?_utf8, Option.some_beq_some, Text.lead_beq hd, Text.startsWith_cons,
      Text.startsWith_nil, Bool.and_true]

theorem parenthesis?_eq (p r : Text) :
    parenthesis? (p ++ r) (bytes p) = some (Signature.ofParenthesis? r) := by
  rw [parenthesis?, matchingClose?_eq, matchingClose_append, Signature.ofParenthesis?,
    getElem?_utf8_beq p r (by decide)]
  split
  · cases hg : group? r with
    | none => rfl
    | some found =>
      obtain ⟨inner, rest⟩ := found
      obtain ⟨slice, q, hq, size⟩ := slice?_group p hg
      have after : from? (p ++ r) (bytes p + 1 + bytes inner + 1) = some rest := by
        rw [hq, ← size, from?_bytes]
      simp only [Option.bind_eq_bind, Option.bind_some, Option.map_some, slice, after,
        parameters?_eq, splitNullish?_eq]
      cases Signature.returnText? rest <;> rfl
  · rfl

theorem bytes_trimStart (t : Text) :
    bytes (t.takeWhile Text.isBlank) + bytes t.trimStart = bytes t := by
  rw [Text.trimStart, ← Text.bytes_append, List.takeWhile_append_dropWhile]

theorem signature?_eq (p r : Text) :
    signature? (p ++ r) (bytes p) = some (Signature.ofText? r) := by
  rw [signature?, matchingClose?_eq, matchingClose_append, Signature.ofText?,
    getElem?_utf8_beq p r (by decide), parenthesis?_eq]
  split
  · cases hg : group? r with
    | none => rfl
    | some found =>
      obtain ⟨inner, rest⟩ := found
      obtain ⟨-, q, hq, size⟩ := slice?_group p hg
      have blank := bytes_trimStart rest
      have split : rest.takeWhile Text.isBlank ++ rest.trimStart = rest :=
        List.takeWhile_append_dropWhile
      have next : bytes q + (bytes rest - bytes rest.trimStart) =
          bytes (q ++ rest.takeWhile Text.isBlank) := by
        rw [Text.bytes_append]
        omega
      have after := parenthesis?_eq (q ++ rest.takeWhile Text.isBlank) rest.trimStart
      rw [List.append_assoc, split, ← next] at after
      simp only [Option.bind_eq_bind, Option.bind_some, Option.map_some, ← size, hq, from?_bytes,
        minus?_of_le (show bytes rest.trimStart ≤ bytes rest by omega), after]
  · rfl

/-! ### What is read of members -/

theorem lossless_of_tokenize {t : Text} {tokens : List Token}
    (h : Token.tokenize t = .ok tokens) : Token.Lossless t tokens := by
  have plain := Token.exists_tokenize_iff.1 ⟨tokens, h⟩
  rw [Token.tokenize_eq_ok plain] at h
  cases h
  exact Token.lossless_of_ok plain

theorem drop_of_getElem? {α : Type} {l : List α} {i : Nat} {a : α} (h : l[i]? = some a) :
    l.drop i = a :: l.drop (i + 1) := by
  obtain ⟨hi, rfl⟩ := List.getElem?_eq_some_iff.1 h
  exact List.drop_eq_getElem_cons hi

theorem kindAt_eq (p : TokenKind → Bool) (tokens : List Token) (i : Nat) :
    kindAt p tokens i = Member.firstIs p (tokens.drop i) := by
  rw [kindAt, Member.firstIs, List.head?_drop]
  cases tokens[i]? <;> rfl

section Tokens

variable {t : Text} {tokens : List Token} (lossless : Token.Lossless t tokens)

include lossless

theorem exists_next {i : Nat} {k : Token} (hk : tokens[i]? = some k) (hne : k.kind ≠ .eof) :
    ∃ l, tokens[i + 1]? = some l := by
  by_cases h : i + 1 < tokens.length
  · exact ⟨_, List.getElem?_eq_getElem h⟩
  · obtain ⟨hi, -⟩ := List.getElem?_eq_some_iff.1 hk
    have last := lossless.last
    rw [List.getLast?_eq_getElem?, show tokens.length - 1 = i by omega, hk] at last
    rw [Option.some.inj last] at hne
    exact absurd rfl hne

theorem signature?_start {k : Token} (hk : k ∈ tokens) :
    signature? t k.span.start = some (Signature.ofText? (t.after k.span.start)) := by
  obtain ⟨a, b, ht, hstart, -⟩ := Text.slice?_eq_some_iff.1 (lossless.slice k hk)
  rw [hstart, ht, List.append_assoc, Text.after_bytes, signature?_eq]

theorem from?_stop {k : Token} (hk : k ∈ tokens) :
    from? t k.span.stop = some (t.after k.span.stop) := by
  obtain ⟨a, b, ht, -, hstop⟩ := Text.slice?_eq_some_iff.1 (lossless.slice k hk)
  rw [hstop, ht, ← Text.bytes_append, Text.after_bytes, from?_bytes]

theorem named?_eq (isReadonly : Bool) (name : Text) {next : Nat} {k : Token}
    (hk : tokens[next]? = some k) : named? t tokens isReadonly name next =
      some (Member.ofName t isReadonly name (tokens.drop next)) := by
  have first : Member.firstIs (· == .sign .question) (tokens.drop next) =
      (k.kind == .sign .question) := by rw [drop_of_getElem? hk]; rfl
  obtain ⟨i, hi, mark, hmark⟩ : ∃ i, (if k.kind == .sign .question then next + 1 else next) = i ∧
      ∃ mark, tokens[i]? = some mark := by
    refine ⟨_, rfl, ?_⟩
    split
    · rename_i h
      exact exists_next lossless hk (by rw [beq_iff_eq.1 h]; decide)
    · exact ⟨k, hk⟩
  have rest : (if k.kind == .sign .question then (tokens.drop next).tail else tokens.drop next) =
      mark :: tokens.drop (i + 1) := by
    rw [← drop_of_getElem? hmark, ← hi]
    split <;> simp
  have mem := List.mem_of_getElem? hmark
  rw [named?, hk]
  simp only [Option.bind_eq_bind, Option.bind_some, hi, hmark, signature?_start lossless mem,
    from?_stop lossless mem, splitNullish?_eq, Member.ofName, first, rest]
  split
  · cases Signature.ofText? (t.after mark.span.start) <;> rfl
  · split
    · exact (apply_ite some _ _ _).symm
    · rfl

theorem memberAt?_eq (i : Nat) {k : Token} (hk : tokens[i]? = some k) :
    memberAt? t tokens i = some (Member.ofTokens t (0 < i) (tokens.drop i)) := by
  have mem := List.mem_of_getElem? hk
  rw [memberAt?, hk, drop_of_getElem? hk]
  simp only [Option.bind_eq_bind, Option.bind_some, kindAt_eq, signature?_start lossless mem,
    Member.ofTokens]
  obtain ⟨kind, span⟩ := k
  cases kind with
  | literal quote raw =>
    obtain ⟨l, hl⟩ := exists_next lossless hk (by simp)
    exact named?_eq lossless _ raw hl
  | name word =>
    obtain ⟨l, hl⟩ := exists_next lossless hk (by simp)
    simp only [named?_eq lossless _ word hl]
    split
    · rfl
    · split <;> rfl
  | sign s =>
    cases s with
    | opening bracket =>
      cases bracket with
      | square => rfl
      | _ => cases Signature.ofText? (t.after span.start) <;> rfl
    | _ => rfl
  | number text => rfl
  | eof => rfl

end Tokens

@[simp] theorem member?_eq (t : Text) : member? t = some (Member.ofText t) := by
  rw [member?, tokenize?_eq, Member.ofText]
  cases h : Token.tokenize t with
  | error faults => rfl
  | ok tokens =>
    have lossless := lossless_of_tokenize h
    obtain ⟨k, ks, rfl⟩ : ∃ k ks, tokens = k :: ks := by
      cases tokens with
      | nil => cases lossless.last
      | cons k ks => exact ⟨k, ks, rfl⟩
    simp only [Option.bind_eq_bind, Option.bind_some, List.getElem?_cons_zero, kindAt_eq]
    by_cases modifier : k.isWord "readonly" && Member.firstIs Member.startsName ks
    · have second : ∃ l, (k :: ks)[1]? = some l := by
        rw [Bool.and_eq_true] at modifier
        cases ks with
        | nil => exact absurd modifier.2 Bool.false_ne_true
        | cons l ls => exact ⟨l, rfl⟩
      obtain ⟨l, hl⟩ := second
      refine (congrArg (memberAt? t (k :: ks)) (if_pos modifier)).trans ?_
      rw [memberAt?_eq lossless 1 hl]
      exact congrArg some (if_pos modifier).symm
    · refine (congrArg (memberAt? t (k :: ks)) (if_neg modifier)).trans ?_
      rw [memberAt?_eq lossless 0 rfl]
      exact congrArg some (if_neg modifier).symm

/-! ### How a body is cut -/

theorem pushChunks?_eq (a run r : Text) (members : List Segment) :
    pushChunks? (a ++ run ++ r) (bytes a) (bytes (a ++ run)) members =
      some (members ++ Member.chunks ⟨bytes a, run⟩) := by
  have comma : ','.toNat < 128 := by decide
  have semicolon : ';'.toNat < 128 := by decide
  rw [pushChunks?, slice?_between]
  simp only [Option.bind_eq_bind, Option.bind_some, splitTopLevel?_eq semicolon,
    splitTopLevel?_eq comma, Option.pure_def, mapM_eq_some fun _ _ => rfl]
  rw [← List.flatMap_def]
  rfl

theorem linesFrom?_cons {a p line : Text} {pending : Option Nat} {rest : List Text}
    (unskipped : (pending.isNone && line.blank) = false)
    (start : pending.getD (bytes (a ++ p)) = bytes a) (members : List Segment) :
    linesFrom? (a ++ p ++ (line ++ rest.flatten)) (bytes (a ++ p)) pending members (line :: rest) =
      if Member.isUnfinished (p ++ line) || rest.head?.elim false Member.continues then
        linesFrom? (a ++ (p ++ line) ++ rest.flatten) (bytes (a ++ (p ++ line))) (some (bytes a))
          members rest
      else
        linesFrom? (a ++ (p ++ line) ++ rest.flatten) (bytes (a ++ (p ++ line))) none
          (members ++ Member.chunks ⟨bytes a, p ++ line⟩) rest := by
  have text : a ++ p ++ (line ++ rest.flatten) = a ++ (p ++ line) ++ rest.flatten := by simp
  have stop : bytes (a ++ p) + bytes line = bytes (a ++ (p ++ line)) := by
    rw [← Text.bytes_append, List.append_assoc]
  rw [linesFrom?, unskipped, if_neg Bool.false_ne_true, text, start, stop]
  simp only [slice?_between, pushChunks?_eq, depthAfter?_eq, Option.bind_eq_bind, Option.bind_some]
  rfl

theorem linesFrom?_eq (a : Text) (pending : Option Text) (members : List Segment)
    (lines : List Text) :
    linesFrom? (a ++ pending.getD [] ++ lines.flatten) (bytes (a ++ pending.getD []))
        (pending.map fun _ => bytes a) members lines =
      some (members ++ (Member.runsFrom (bytes (a ++ pending.getD []))
        (pending.map (⟨bytes a, ·⟩)) lines).flatMap Member.chunks) := by
  -- What stands before the run that is open is `a`; a blank line joins it when no run is open.
  induction lines generalizing a pending members with
  | nil =>
    cases pending with
    | none => simp [linesFrom?, Member.runsFrom]
    | some p =>
      have push := pushChunks?_eq a p [] members
      simp [linesFrom?, Member.runsFrom] at push ⊢
      exact push
  | cons line rest ih =>
    have stop : bytes (a ++ pending.getD []) + line.bytes =
        bytes (a ++ (pending.getD [] ++ line)) := by rw [← Text.bytes_append, List.append_assoc]
    have run : Member.runOf (bytes (a ++ pending.getD [])) (pending.map (⟨bytes a, ·⟩)) line =
        ⟨bytes a, pending.getD [] ++ line⟩ := by cases pending <;> simp [Member.runOf]
    have start : (pending.map fun _ => bytes a).getD (bytes (a ++ pending.getD [])) = bytes a := by
      cases pending <;> simp
    rw [List.flatten_cons, Member.runsFrom_cons, stop, run, Option.isNone_map]
    cases skipped : pending.isNone && line.blank with
    | true =>
      rw [Bool.and_eq_true, Option.isNone_iff_eq_none] at skipped
      obtain ⟨rfl, hblank⟩ := skipped
      have rest := ih (a ++ line) none members
      simp only [Option.getD_none, List.append_nil, List.nil_append, Option.map_none] at rest ⊢
      rw [linesFrom?, hblank, ← List.append_assoc, ← Text.bytes_append]
      exact rest
    | false =>
      rw [linesFrom?_cons (by rwa [Option.isNone_map]) start]
      simp only [Bool.false_eq_true, if_false]
      split
      · exact ih a (some (pending.getD [] ++ line)) members
      · have rest := ih (a ++ (pending.getD [] ++ line)) none
          (members ++ Member.chunks ⟨bytes a, pending.getD [] ++ line⟩)
        simp only [Option.getD_none, List.append_nil, Option.map_none] at rest
        rw [rest, List.flatMap_cons, List.append_assoc]

@[simp] theorem splitMembers?_eq (body : Text) :
    splitMembers? body = some (Member.split body) := by
  have lines := linesFrom?_eq [] none [] body.lines
  simpa [splitMembers?, Member.split] using lines

end WebSurface.Checked
