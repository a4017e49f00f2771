import WebSurface.Proofs.ByteComments
import WebSurface.Proofs.ByteMembers
import WebSurface.Proofs.Filing
set_option autoImplicit false

namespace WebSurface.Checked

open Text (utf8 bytes lead trail)
open TypeTable (target?)

/-! ### Heads -/

def earlier (m n : Option Nat) : Option Nat := m.merge min n

/-- The index of the token after the type parameters, if the token at index `i` begins some; there
is none when they are not closed. -/
def skipTypeParameters? (head : Text) (tokens : List Token) (i : Nat) : Option (Option Nat) :=
  match tokens[i]?.filter (·.kind == .sign (.opening .angle)) with
  | none => some (some i)
  | some opening => do
    match ← matchingClose? head opening.span.start with
    | none => return none
    | some close => do
      let last ← minus? tokens.length 1
      return some ((tokens.findIdx? (close < ·.span.start)).getD last)

def basesAt? (head : Text) (tokens : List Token) (i : Nat) : Option (List Text) :=
  match tokens[i]?.filter (·.isWord "extends") with
  | none => some []
  | some word => do
    let rest ← from? head word.span.stop
    let segments ← splitTopLevel? ','.toUInt8 rest
    return (segments.map fun s => Head.baseName s.text).filter (!·.isEmpty)

def bases? (head : Text) (tokens : List Token) (i : Nat) : Option (Option (List Text)) := do
  match ← skipTypeParameters? head tokens i with
  | none => return none
  | some next => do
    let bases ← basesAt? head tokens next
    return some bases

def head? (t : Text) : Option (Option Head) := do
  let brace ← findTopLevel? '{'.toUInt8 t
  let equals ← findTopLevel? '='.toUInt8 t
  let stop := (earlier brace equals).getD (bytes t)
  let head ← upTo? t stop
  match ← tokenize? head with
  | .error _ => return none
  | .ok tokens =>
    let i := tokens.findIdx fun k => !Head.isModifier k
    match tokens[i]?.bind Head.kind?, tokens[i + 1]?.bind (·.kind.name?) with
    | some .interface, some name => do
      match ← bases? head tokens (i + 2) with
      | some bases => return some ⟨.interface, name, bases, stop⟩
      | none => return none
    | some .alias, some name => return some ⟨.alias, name, [], stop⟩
    | _, _ => return none

/-! ### Aliases -/

def value? (member : Text) : Option (Option Text) := do
  match ← tokenize? member with
  | .ok [⟨.literal _ raw, _⟩, ⟨.eof, _⟩] => return some raw
  | _ => return none

/-- The values of string literals, unless one of the texts is none. -/
def values? : List Segment → Option (Option (List Text))
  | [] => some (some [])
  | s :: rest => do
    match ← value? s.text with
    | none => return none
    | some raw =>
      let values ← values? rest
      return values.map (raw :: ·)

def aliasBody? (t : Text) : Option AliasBody := do
  let type := Text.trim (Text.dropEndWhile (· == ';') t.trim)
  let members ← splitTopLevel? '|'.toUInt8 (type.dropWhile (· == '|'))
  match ← values? members with
  | some (value :: values) => return .literals (value :: values)
  | _ => do
    let normalized ← normalize? type
    return .type normalized

def alias? (raw : Text) : Option (Except DeclarationFault Alias) := do
  let whole ← blankComments? raw
  let text := whole.trim
  match ← head? text with
  | some ⟨.alias, name, _, stop⟩ => do
    let rest ← from? text stop
    match Text.strip? ['='] rest.trimStart with
    | some body => do
      let body ← aliasBody? body
      return .ok ⟨name, body⟩
    | none => return .error (.notAlias text.firstLine)
  | _ => return .error (.notAlias text.firstLine)

/-! ### Interfaces -/

def readMember? (n : Nat) (r : Interface.Reading) (s : Segment) : Option Interface.Reading := do
  match ← member? s.text with
  | .ok m => return { r with interface := r.interface.add m }
  | .error reason =>
    return { r with skipped := r.skipped ++ [⟨s.span.shift n, s.text, reason⟩] }

def interface? (raw : Text) : Option (Except DeclarationFault Interface.Reading) := do
  let whole ← blankComments? raw
  let leading ← minus? (bytes whole) (bytes whole.trimStart)
  let text ← from? whole leading
  match ← head? text with
  | some ⟨.interface, name, bases, stop⟩ =>
    if (utf8 text)[stop]? == some '{'.toUInt8 then do
      let close ← matchingClose? text stop
      let body ← text.slice? ⟨stop + 1, close.getD (bytes text)⟩
      let members ← splitMembers? body
      let reading ← members.foldlM (readMember? (leading + stop + 1))
        ⟨⟨name, bases, .empty, .empty, none⟩, []⟩
      return .ok reading
    else return .error (.missingBody name)
  | _ => return .error (.missingHeader text.firstLine)

/-! ### Where a head ends -/

def find (p : Char → Bool) (s : Nesting) (t : Text) : Option Nat :=
  if (s.breakAt p t).2.isEmpty then none else some (bytes (s.breakAt p t).1)

theorem find_cons (p : Char → Bool) (s : Nesting) (c : Char) (r : Text) :
    find p s (c :: r) =
      if s.topLevel && p c then some 0 else (find p (s.step c) r).map (c.utf8Size + ·) := by
  simp only [find, Nesting.breakAt]
  split
  · rfl
  · split <;> rfl

/-- What is found first is found by looking for either. -/
theorem earlier_find (p q : Char → Bool) (s : Nesting) (t : Text) :
    earlier (find p s t) (find q s t) = find (fun c => p c || q c) s t := by
  induction t generalizing s with
  | nil => rfl
  | cons c r ih =>
    rw [find_cons, find_cons, find_cons, ← ih]
    cases s.topLevel <;> cases p c <;> cases q c <;> cases find p (s.step c) r <;>
      cases find q (s.step c) r <;> simp [earlier, Option.merge, Nat.add_min_add_left]

theorem earlier_eq (t : Text) :
    (earlier (findTopLevel '{' t) (findTopLevel '=' t)).getD (bytes t) = bytes (Head.cut t).1 := by
  have first := earlier_find (· == '{') (· == '=') .outside t
  have whole := Head.cut_append t
  refine (congrArg (Option.getD · (bytes t)) first).trans ?_
  change (if (Head.cut t).2.isEmpty then none else some (bytes (Head.cut t).1)).getD (bytes t) = _
  cases h : (Head.cut t).2 with
  | nil =>
    rw [h, List.append_nil] at whole
    exact congrArg bytes whole.symm
  | cons c r => rfl

/-! ### What is read of heads -/

theorem matchingClose_bounds {t : Text} {n close : Nat} (h : matchingClose t n = some close) :
    n < close ∧ close < bytes t := by
  obtain ⟨⟨a, b⟩, hbind, rfl⟩ := Option.map_eq_some_iff.1 h
  obtain ⟨⟨p, r⟩, hsplit, hgroup⟩ := Option.bind_eq_some_iff.1 hbind
  obtain ⟨rfl, rfl⟩ := Text.splitAt?_eq_some_iff.1 hsplit
  obtain ⟨o, c, ho, -, hr⟩ := exists_of_group? hgroup
  obtain rfl : r = o :: (a ++ c :: b) := hr
  have opening := Text.utf8Size_ascii (onlyAscii_isOpener o ho)
  have closing := c.utf8Size_pos
  simp only [Text.bytes_append, Text.bytes_cons, opening]
  omega

/-- The first token after a bracket is looked for among all tokens: none before it is one. -/
theorem dropWhile_start {head : Text} {tokens : List Token}
    (lossless : Token.Lossless head tokens) {i : Nat} {k : Token} (hk : tokens[i]? = some k)
    {close : Nat} (hclose : k.span.start < close) :
    tokens.dropWhile (·.span.start ≤ close) =
      (tokens.drop (i + 1)).dropWhile (·.span.start ≤ close) := by
  have split : tokens.take i ++ k :: tokens.drop (i + 1) = tokens := by
    rw [← drop_of_getElem? hk, List.take_append_drop]
  have ordered := lossless.ordered
  rw [← split, List.pairwise_append] at ordered
  conv => lhs; rw [← split, List.append_cons]
  refine List.dropWhile_append_of_pos fun l hl => decide_eq_true ?_
  rcases List.mem_append.1 hl with hl | hl
  · have before := ordered.2.2 l hl k List.mem_cons_self
    obtain ⟨_, _, -, hstart, hstop⟩ :=
      Text.slice?_eq_some_iff.1 (lossless.slice l (List.mem_of_mem_take hl))
    omega
  · rw [List.mem_singleton.1 hl]
    exact Nat.le_of_lt hclose

theorem skipTypeParameters?_eq {head : Text} {tokens : List Token}
    (lossless : Token.Lossless head tokens) (i : Nat) :
    ∃ next, skipTypeParameters? head tokens i = some next ∧
      next.map (tokens.drop ·) = Head.skipTypeParameters? head (tokens.drop i) := by
  rw [skipTypeParameters?]
  cases hk : tokens[i]? with
  | none =>
    have done := List.drop_eq_nil_of_le (List.getElem?_eq_none_iff.1 hk)
    exact ⟨some i, rfl, by rw [Option.map_some, done]; rfl⟩
  | some k =>
    have rest := drop_of_getElem? hk
    rw [Option.filter_some, rest, Head.skipTypeParameters?]
    cases angle : k.kind == .sign (.opening .angle) with
    | false => exact ⟨some i, rfl, congrArg some rest⟩
    | true =>
      simp only [if_true, matchingClose?_eq, Option.bind_eq_bind, Option.bind_some]
      cases hclose : matchingClose head k.span.start with
      | none => exact ⟨none, rfl, rfl⟩
      | some close =>
        obtain ⟨after, before⟩ := matchingClose_bounds hclose
        have eof := List.mem_of_getLast? lossless.last
        have last := minus?_of_le (List.length_pos_of_mem eof)
        -- The end of the text is a token after the bracket.
        cases hfind : tokens.findIdx? (close < ·.span.start) with
        | none =>
          have none_after := List.findIdx?_eq_none_iff.1 hfind _ eof
          exact absurd before (of_decide_eq_false none_after)
        | some next =>
          refine ⟨some next, by simp only [last, hfind]; rfl, ?_⟩
          rw [Option.map_some, Option.map_some, ← dropWhile_start lossless hk after,
            List.dropWhile_eq_drop_findIdx_not, ← (List.findIdx?_eq_some_iff_findIdx_eq.1 hfind).2]
          simp only [← decide_not, Nat.not_le]

theorem basesAt?_eq {head : Text} {tokens : List Token} (lossless : Token.Lossless head tokens)
    (i : Nat) : basesAt? head tokens i = some (match tokens.drop i with
      | t :: _ => if t.isWord "extends" then Head.basesOf (head.after t.span.stop) else []
      | [] => []) := by
  rw [basesAt?]
  cases hk : tokens[i]? with
  | none =>
    rw [List.drop_eq_nil_of_le (List.getElem?_eq_none_iff.1 hk)]
    rfl
  | some k =>
    rw [drop_of_getElem? hk, Option.filter_some]
    cases word : k.isWord "extends" with
    | false => simp [word]
    | true =>
      simp only [word, if_true, from?_stop lossless (List.mem_of_getElem? hk),
        splitTopLevel?_eq (show ','.toNat < 128 by decide), Option.bind_eq_bind, Option.bind_some,
        Head.basesOf, partsTopLevel, List.map_map]
      rfl

theorem bases?_eq {head : Text} {tokens : List Token} (lossless : Token.Lossless head tokens)
    (i : Nat) : bases? head tokens i = some (Head.bases? head (tokens.drop i)) := by
  obtain ⟨next, hnext, hskip⟩ := skipTypeParameters?_eq lossless i
  rw [bases?, hnext, Head.bases?, ← hskip]
  cases next with
  | none => rfl
  | some next =>
    simp only [Option.bind_eq_bind, Option.bind_some, basesAt?_eq lossless, Option.map_some]
    rfl

@[simp] theorem head?_eq (t : Text) : head? t = some (Head.ofText? t) := by
  have cut : upTo? t (bytes (Head.cut t).1) = some (Head.cut t).1 :=
    (congrArg (upTo? · _) (Head.cut_append t).symm).trans (upTo?_bytes _ _)
  rw [head?, findTopLevel?_eq (by decide), findTopLevel?_eq (by decide)]
  simp only [Option.bind_eq_bind, Option.bind_some, earlier_eq, cut, tokenize?_eq, Head.ofText?]
  cases h : Token.tokenize (Head.cut t).1 with
  | error faults => rfl
  | ok tokens =>
    have lossless := lossless_of_tokenize h
    simp only [bases?_eq lossless]
    rw [List.dropWhile_eq_drop_findIdx_not]
    generalize tokens.findIdx (fun k => !Head.isModifier k) = i
    cases hword : tokens[i]? with
    | none =>
      rw [List.drop_eq_nil_of_le (List.getElem?_eq_none_iff.1 hword)]
      rfl
    | some word =>
      rw [drop_of_getElem? hword]
      cases hname : tokens[i + 1]? with
      | none =>
        rw [List.drop_eq_nil_of_le (List.getElem?_eq_none_iff.1 hname)]
        simp
      | some named =>
        rw [drop_of_getElem? hname]
        simp only [Option.bind_some]
        cases Head.kind? word with
        | none => rfl
        | some kind =>
          cases named.kind.name? with
          | none => cases kind <;> rfl
          | some name =>
            cases kind with
            | «alias» => rfl
            | interface => cases hbases : Head.bases? (Head.cut t).1 (tokens.drop (i + 2)) <;> rfl

/-! ### What is read of aliases -/

theorem stop_of_head {t : Text} {h : Head} (ht : Head.ofText? t = some h) :
    ∃ a b, t = a ++ b ∧ h.stop = bytes a ∧ t.after h.stop = b ∧ Text.trimStart b = b := by
  refine ⟨(Head.cut t).1, (Head.cut t).2, (Head.cut_append t).symm, Head.stop_eq_of_ofText? ht,
    Head.stop_of_ofText? ht, ?_⟩
  rcases Nesting.breakAt_snd (fun c => c == '{' || c == '=') .outside t with h | ⟨c, r, h, hc⟩
  · exact (congrArg Text.trimStart h).trans h.symm
  · have solid : Text.isBlank c = false := by
      rw [Bool.or_eq_true, beq_iff_eq, beq_iff_eq] at hc
      rcases hc with rfl | rfl <;> rfl
    exact (congrArg Text.trimStart h).trans ((Text.trimStart_cons solid r).trans h.symm)

theorem value?_eq (member : Text) : value? member = some (match Token.tokenize member with
    | .ok [⟨.literal _ raw, _⟩, ⟨.eof, _⟩] => some raw
    | _ => none) := by
  rw [value?, tokenize?_eq]
  simp only [Option.bind_eq_bind, Option.bind_some]
  split <;> rfl

theorem values?_eq {value : Text → Option Text} (h : ∀ t, value? t = some (value t))
    (segments : List Segment) :
    values? segments = some ((segments.map Segment.text).mapM value) := by
  induction segments with
  | nil => rfl
  | cons s rest ih =>
    rw [values?, h, ih, List.map_cons, List.mapM_cons]
    cases value s.text with
    | none => rfl
    | some raw =>
      cases (rest.map Segment.text).mapM value <;> rfl

theorem aliasBody?_eq (t : Text) : aliasBody? t = some (Alias.bodyOf t) := by
  have bar : '|'.toNat < 128 := by decide
  simp only [aliasBody?, splitTopLevel?_eq bar, Option.bind_eq_bind, Option.bind_some,
    values?_eq value?_eq, normalize?_eq, Alias.bodyOf, Alias.literals?, partsTopLevel]
  rcases List.mapM _ (List.map Segment.text _) with _ | _ | ⟨value, values⟩ <;> rfl

@[simp] theorem alias?_eq (raw : Text) : alias? raw = some (Alias.ofText raw) := by
  rw [alias?, blankComments?_eq]
  simp only [Option.bind_eq_bind, Option.bind_some, head?_eq, Alias.ofText]
  cases hh : Head.ofText? raw.blankComments.trim with
  | none => rfl
  | some h =>
    obtain ⟨a, b, ht, hstop, hafter, htrim⟩ := stop_of_head hh
    obtain ⟨kind, name, bases, stop⟩ := h
    cases kind with
    | interface => rfl
    | «alias» =>
      have rest : from? raw.blankComments.trim stop = some b := by
        rw [ht, show stop = bytes a from hstop, from?_bytes]
      simp only [rest, Option.bind_some, htrim, hafter]
      cases Text.strip? ['='] b with
      | none => rfl
      | some body =>
        simp only [aliasBody?_eq]
        rfl

/-! ### What is read of interfaces -/

theorem readMember?_eq (n : Nat) : readMember? n = fun r s => pure (r.member n s) := by
  funext r s
  rw [readMember?, member?_eq, Interface.Reading.member]
  cases Member.ofText s.text <;> rfl

theorem slice?_body {a b : Text} (h : Text.startsWith ['{'] b) :
    (a ++ b).slice? ⟨bytes a + 1, (matchingClose (a ++ b) (bytes a)).getD (bytes (a ++ b))⟩ =
      some (Interface.bodyOf b) := by
  rw [matchingClose_append, Interface.bodyOf]
  cases hg : group? b with
  | some group => exact (slice?_group a hg).1
  | none =>
    obtain ⟨r, hr⟩ := Option.isSome_iff_exists.1 h
    obtain rfl := Text.strip?_eq_some_iff.1 hr
    have brace : '{'.utf8Size = 1 := rfl
    exact Text.slice?_eq_some_iff.2 ⟨a ++ ['{'], [], by simp, by simp [brace],
      by simp [brace, Nat.add_assoc]⟩

theorem from?_trimStart (t : Text) :
    from? t (bytes t - bytes t.trimStart) = some t.trimStart := by
  have split : t.takeWhile Text.isBlank ++ t.trimStart = t := List.takeWhile_append_dropWhile
  have rest := from?_bytes (t.takeWhile Text.isBlank) t.trimStart
  have leading : bytes t - bytes t.trimStart = bytes (t.takeWhile Text.isBlank) := by
    have := bytes_trimStart t
    omega
  rw [leading]
  rwa [split] at rest

@[simp] theorem interface?_eq (raw : Text) : interface? raw = some (Interface.read raw) := by
  rw [interface?, blankComments?_eq]
  generalize hwhole : raw.blankComments = whole
  have leading := minus?_of_le (Nat.le.intro ((Nat.add_comm _ _).trans (bytes_trimStart whole)))
  simp only [Option.bind_eq_bind, Option.bind_some, leading, from?_trimStart, head?_eq,
    Interface.read, hwhole]
  generalize whole.trimStart = text
  cases hh : Head.ofText? text with
  | none => rfl
  | some h =>
    obtain ⟨a, b, rfl, hstop, hafter, -⟩ := stop_of_head hh
    obtain ⟨kind, name, bases, stop⟩ := h
    obtain rfl : stop = bytes a := hstop
    cases kind with
    | «alias» => rfl
    | interface =>
      simp only [getElem?_utf8_beq a b (show '{'.toNat < 128 by decide), Text.after_bytes]
      split
      · rename_i h
        simp only [matchingClose?_eq, Option.bind_some, slice?_body h, splitMembers?_eq,
          readMember?_eq, List.foldlM_pure]
        rfl
      · rfl

/-! ### Every access is in range -/

/-- No access of any reader is out of range or inside a character, on any text whatever: each has
the result that its counterpart on characters has. -/
theorem accesses_in_range (t needle : Text) (d : Char) (hd : d.toNat < 128) (n : Nat)
    (m : TypeTable) :
    tokenize? t = some (Token.tokenize t) ∧
    blankComments? t = some t.blankComments ∧
    splitTopLevel? d.toUInt8 t = some (splitTopLevel d t) ∧
    splitStatements? t = some (splitStatements t) ∧
    containsTopLevel? needle t = some (containsTopLevel needle t) ∧
    matchingClose? t n = some (matchingClose t n) ∧
    splitMembers? t = some (Member.split t) ∧
    member? t = some (Member.ofText t) ∧
    parameters? t = some (Parameter.listOfText t) ∧
    head? t = some (Head.ofText? t) ∧
    alias? t = some (Alias.ofText t) ∧
    interface? t = some (Interface.read t) ∧
    arrayElement? t = some (TypeText.arrayElement? t) ∧
    genericArguments? t = some (TypeText.genericArguments? t) ∧
    isFunctionType? t = some (TypeText.isFunctionType t) ∧
    target? m t = some (m.target t) :=
  ⟨tokenize?_eq t, blankComments?_eq t, splitTopLevel?_eq hd t, splitStatements?_eq t,
    containsTopLevel?_eq needle t, matchingClose?_eq t n, splitMembers?_eq t, member?_eq t,
    parameters?_eq t, head?_eq t, alias?_eq t, interface?_eq t, arrayElement?_eq t,
    genericArguments?_eq t, isFunctionType?_eq t, target?_eq m t⟩

/-- A string in which an escape stops inside a character, and a comment that is not closed. -/
theorem accesses_in_range_escape :
    '|'.toNat < 128 ∧
    tokenize? "'\\é'|/*ü".toList = some (.error [⟨.unterminatedComment, ⟨6, 10⟩, ⟨1, 7⟩⟩]) ∧
    blankComments? "'\\é'|/*ü".toList = some "'\\é'|    ".toList ∧
    splitTopLevel? '|'.toUInt8 "'\\é'|/*ü".toList =
      some [⟨0, "'\\é'".toList⟩, ⟨6, "/*ü".toList⟩] :=
  have ⟨tokens, blanked, pieces, _⟩ :=
    accesses_in_range "'\\é'|/*ü".toList [] '|' (by decide) 0 .standard
  ⟨by decide, tokens.trans (by decide +kernel), blanked.trans (by decide +kernel),
    pieces.trans (by decide +kernel)⟩

end WebSurface.Checked
