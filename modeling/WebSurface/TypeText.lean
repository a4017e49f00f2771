import WebSurface.Token
set_option autoImplicit false

namespace WebSurface

namespace TypeText

/-- The members of the union that the text is at top level. -/
def unionMembers (t : Text) : List Text := partsTopLevel '|' t

def union (ms : List Text) : Text := Text.join " | ".toList ms

/-- The text with single spaces, and a union without a leading bar and with a space on both sides
of each bar. -/
def normalize (t : Text) : Text :=
  let bare := Text.trim ((Text.collapse t).dropWhile (· == '|'))
  match unionMembers bare with
  | a :: b :: ms => union (a :: b :: ms)
  | _ => bare

def isNullish (t : Text) : Bool := t == "null".toList || t == "undefined".toList

/-- The type without its nullish members, and whether it had any. A type of nullish members only
is left as it is. -/
def splitNullish (t : Text) : Text × Bool :=
  let whole := normalize t
  let members := unionMembers whole
  let proper := members.filter (!isNullish ·)
  if proper.isEmpty || !members.any isNullish then (whole, false) else (union proper, true)

/-- The number of members of the union, one for any other type. -/
def unionWidth (t : Text) : Nat := max 1 (unionMembers t).length

def enclosed? (t : Text) : Option Text :=
  match group? t with
  | some (inner, []) => some inner
  | _ => none

def stripParens (t : Text) : Text :=
  let t := Text.trim t
  if Text.startsWith ['('] t then ((enclosed? t).map Text.trim).getD t else t

def arrayElement? (t : Text) : Option Text :=
  let t := Text.trim t
  match Text.stripEnd? "[]".toList t with
  | some element =>
    let element := Text.trimEnd element
    if element.isEmpty || depthAfter element != 0 then none else some (stripParens element)
  | none =>
    let argument? (name : String) : Option Text :=
      (Text.strip? name.toList t).bind fun r =>
        if Text.startsWith ['<'] r then (enclosed? r).map Text.trim else none
    (argument? "Array").or (argument? "ReadonlyArray")

def isGenericNameChar (c : Char) : Bool := c.isAlphanum || c == '_' || c == '$' || c == '.'

def genericArguments? (t : Text) : Option (Text × List Text) :=
  let t := Text.trim t
  let name := Text.trim (t.takeWhile (· != '<'))
  if name.isEmpty || !name.all isGenericNameChar then none
  else
    match (enclosed? (t.dropWhile (· != '<'))).map (partsTopLevel ',') with
    | none | some [] => none
    | some arguments => some (name, arguments)

/-- The text is a function or constructor type, in parentheses or not. -/
def isFunctionType (t : Text) : Bool :=
  let t := stripParens t
  containsTopLevel "=>".toList t || Text.startsWith "new (".toList t ||
    Text.startsWith "new(".toList t

def keywords : List Text :=
  ["null", "undefined", "void", "any", "unknown", "never", "object", "typeof", "keyof", "readonly",
    "infer", "extends", "is", "asserts", "true", "false", "new", "this", "unique", "symbol"].map
      String.toList

/-- The tokens that follow make the name before them a label. -/
def isLabelMark : List TokenKind → Bool
  | .sign .colon :: _ => true
  | .sign .question :: .sign .colon :: _ => true
  | _ => false

/-- The names among the tokens that are no keywords, no labels and no later parts of a qualified
name; the first argument tells whether a dot came before. -/
def namesAfter (dot : Bool) : List TokenKind → List Text
  | [] => []
  | .name n :: ks =>
    let rest := namesAfter false ks
    if keywords.elem n || dot || isLabelMark ks then rest else n :: rest
  | k :: ks => namesAfter (k == .sign .dot) ks

/-- The names that a type refers to, each once, in the order of their first occurrence. A text
that has no tokens refers to nothing. -/
def references (t : Text) : List Text :=
  match Token.tokenize t with
  | .ok tokens => (namesAfter false (tokens.map Token.kind)).eraseDups
  | .error _ => []

/-- The number of characters that are not white space. -/
def solid (t : Text) : Nat := t.countP fun c => !Text.isBlank c

@[simp] theorem solid_nil : solid [] = 0 := rfl

@[simp] theorem solid_append (a b : Text) : solid (a ++ b) = solid a + solid b := by simp [solid]

theorem solid_cons (c : Char) (r : Text) :
    solid (c :: r) = solid r + if Text.isBlank c then 0 else 1 := by
  cases h : Text.isBlank c <;> simp [solid, h]

@[simp] theorem solid_reverse (t : Text) : solid t.reverse = solid t := by simp [solid]

@[simp] theorem solid_trimStart (t : Text) : solid (Text.trimStart t) = solid t := by
  induction t with
  | nil => rfl
  | cons c r ih =>
    cases h : Text.isBlank c
    · simp [Text.trimStart, h]
    · simpa [Text.trimStart, List.dropWhile_cons, h, solid_cons] using ih

@[simp] theorem solid_trimEnd (t : Text) : solid (Text.trimEnd t) = solid t := by
  simpa [Text.trimEnd, Text.dropEndWhile, Text.trimStart] using solid_trimStart t.reverse

@[simp] theorem solid_trim (t : Text) : solid (Text.trim t) = solid t := by simp [Text.trim]

@[simp] theorem solid_squeeze (t : Text) : solid (Text.squeeze t) = solid t := by
  fun_induction Text.squeeze t <;> simp_all [solid_cons]; decide

@[simp] theorem solid_collapse (t : Text) : solid (Text.collapse t) = solid t := by
  simp [Text.collapse]

theorem solid_dropWhile_le (p : Char → Bool) (t : Text) : solid (t.dropWhile p) ≤ solid t :=
  (List.dropWhile_sublist p).countP_le

/-- The solid characters of some texts, and one for each of them. -/
def weight : List Text → Nat
  | [] => 0
  | p :: ps => solid p + 1 + weight ps

@[simp] theorem weight_nil : weight [] = 0 := rfl

@[simp] theorem weight_cons (p : Text) (ps : List Text) :
    weight (p :: ps) = solid p + 1 + weight ps := rfl

theorem weight_sublist {ps qs : List Text} (h : ps.Sublist qs) : weight ps ≤ weight qs := by
  induction h with
  | slnil => exact Nat.le_refl _
  | cons q _ ih => rw [weight_cons]; omega
  | cons_cons q _ ih => rw [weight_cons, weight_cons]; omega

theorem solid_lt_weight {p : Text} {ps : List Text} (h : p ∈ ps) : solid p < weight ps := by
  have := weight_sublist (List.singleton_sublist.2 h)
  rw [weight_cons, weight_nil] at this
  omega

/-- Cutting at a solid delimiter loses the delimiters and nothing else. -/
theorem weight_pieces (d : Char) (hd : Text.isBlank d = false) (s : Nesting) (n : Nat) (t : Text) :
    solid ((atTopLevel d).piecesFrom s n t).1.text +
      weight (((atTopLevel d).piecesFrom s n t).2.map Segment.text) = solid t := by
  induction t generalizing s n with
  | nil => rfl
  | cons c r ih =>
    have h := ih (s.step c) (n + c.utf8Size)
    by_cases hc : (s.topLevel && c == d) = true
    · have hcd : c = d := by simpa using (Bool.and_eq_true_iff.1 hc).2
      subst hcd
      simp only [atTopLevel, Cutter.piecesFrom, hc, if_true] at h ⊢
      simp only [List.map_cons, weight_cons, solid_nil, solid_cons, hd] at h ⊢
      simp only [Bool.false_eq_true, if_false]
      omega
    · simp only [Bool.not_eq_true] at hc
      simp only [atTopLevel, Cutter.piecesFrom, hc, Bool.false_eq_true, if_false] at h ⊢
      simp only [solid_cons]
      omega

theorem weight_trimmed (ps : List Segment) :
    weight ((ps.filterMap Segment.trim?).map Segment.text) ≤ weight (ps.map Segment.text) := by
  induction ps with
  | nil => exact Nat.le_refl _
  | cons p ps ih =>
    by_cases hp : p.trim.text = []
    · rw [List.filterMap_cons_none (by simp [Segment.trim?, hp]), List.map_cons, weight_cons]
      omega
    · rw [List.filterMap_cons_some (b := p.trim) (by simp [Segment.trim?, hp])]
      have : solid p.trim.text = solid p.text := by simp [Segment.trim]
      simp only [List.map_cons, weight_cons]
      omega

/-- The solid characters of the parts and one for each delimiter between two of them. -/
theorem weight_parts (d : Char) (hd : Text.isBlank d = false) (t : Text) :
    weight (partsTopLevel d t) ≤ solid t + 1 := by
  have h := weight_pieces d hd .outside 0 t
  have := weight_trimmed ((atTopLevel d).pieces t)
  simp only [partsTopLevel, splitTopLevel, Cutter.segments]
  simp only [Cutter.pieces, atTopLevel, List.map_cons, weight_cons] at this h ⊢
  omega

theorem solid_le_of_mem_parts {d : Char} (hd : Text.isBlank d = false) {t p : Text}
    (h : p ∈ partsTopLevel d t) : solid p ≤ solid t :=
  Nat.le_of_lt_succ (Nat.lt_of_lt_of_le (solid_lt_weight h) (weight_parts d hd t))

theorem solid_union (m : Text) (ms : List Text) :
    solid (union (m :: ms)) + 1 = weight (m :: ms) := by
  induction ms generalizing m with
  | nil => simp [union, Text.join]
  | cons n ns ih =>
    have bar : solid " | ".toList = 1 := by decide
    have h := ih n
    simp only [union, Text.join, solid_append, bar, weight_cons] at h ⊢
    omega

/-- A union of members of a type is no larger than the type. -/
theorem solid_union_filter_le (p : Text → Bool) (t : Text) :
    solid (union ((unionMembers t).filter p)) ≤ solid t := by
  have total := weight_parts '|' (by decide) t
  have part := weight_sublist (List.filter_sublist (p := p) (l := unionMembers t))
  cases h : (unionMembers t).filter p with
  | nil => simp [union, Text.join]
  | cons m ms =>
    rw [h] at part
    have := solid_union m ms
    unfold unionMembers at part
    omega

theorem solid_normalize_le_bare (t : Text) :
    solid (normalize t) ≤ solid ((Text.collapse t).dropWhile (· == '|')) := by
  simp only [normalize]
  split
  · rename_i h
    rw [← h]
    have := solid_union_filter_le (fun _ => true)
      (Text.trim ((Text.collapse t).dropWhile (· == '|')))
    rwa [List.filter_eq_self.2 (by simp), solid_trim] at this
  · simp

theorem solid_normalize_le (t : Text) : solid (normalize t) ≤ solid t :=
  Nat.le_trans (solid_normalize_le_bare t)
    (Nat.le_trans (solid_dropWhile_le _ _) (by simp))

theorem solid_splitNullish_le (t : Text) : solid (splitNullish t).1 ≤ solid t := by
  have whole := solid_normalize_le t
  have part := solid_union_filter_le (!isNullish ·) (normalize t)
  unfold splitNullish
  dsimp only
  split
  · exact whole
  · dsimp only; exact Nat.le_trans part whole

theorem solid_enclosed?_lt {t inner : Text} (h : enclosed? t = some inner) :
    solid inner < solid t := by
  unfold enclosed? at h
  split at h
  · rename_i hg
    obtain ⟨o, c, ho, rfl⟩ := eq_of_group? hg
    have := isBlank_of_isOpener ho
    simp only [Option.some.injEq] at h
    subst h
    simp only [solid_cons, solid_append, this]
    exact Nat.lt_of_lt_of_le (Nat.lt_add_one _) (by simp +arith)
  · simp at h

theorem solid_stripParens_le (t : Text) : solid (stripParens t) ≤ solid t := by
  simp only [stripParens]
  split
  · cases h : enclosed? (Text.trim t) with
    | none => simp
    | some inner =>
      have := solid_enclosed?_lt h
      simp at this ⊢
      omega
  · simp

theorem solid_arrayElement?_lt {t element : Text} (h : arrayElement? t = some element) :
    solid element < solid t := by
  have argument {name : String}
      (h : ((Text.strip? name.toList (Text.trim t)).bind fun r =>
        if Text.startsWith ['<'] r then (enclosed? r).map Text.trim else none) = some element) :
      solid element < solid t := by
    obtain ⟨r, hr, h⟩ := Option.bind_eq_some_iff.1 h
    have ht := congrArg solid (Text.strip?_eq_some_iff.1 hr)
    split at h
    · obtain ⟨inner, hi, rfl⟩ := Option.map_eq_some_iff.1 h
      have := solid_enclosed?_lt hi
      simp at ht ⊢
      omega
    · simp at h
  simp only [arrayElement?] at h
  split at h
  · rename_i e he
    split at h
    · simp at h
    · have ht := congrArg solid (Text.stripEnd?_eq_some_iff.1 he)
      have brackets : solid "[]".toList = 2 := by decide
      simp only [solid_trim, solid_append, brackets] at ht
      simp only [Option.some.injEq] at h
      subst h
      have := solid_stripParens_le (Text.trimEnd e)
      simp at this
      omega
  · rcases Option.or_eq_some_iff.1 h with h | ⟨_, h⟩
    · exact argument h
    · exact argument h

theorem solid_genericArguments?_lt {t name : Text} {arguments : List Text}
    (h : genericArguments? t = some (name, arguments)) {a : Text} (ha : a ∈ arguments) :
    solid a < solid t := by
  simp only [genericArguments?] at h
  split at h
  · simp at h
  · split at h
    · simp at h
    · simp at h
    · rename_i he
      simp only [Option.some.injEq, Prod.mk.injEq] at h
      obtain ⟨-, rfl⟩ := h
      obtain ⟨inner, hi, rfl⟩ := Option.map_eq_some_iff.1 he
      have h1 := solid_le_of_mem_parts (by decide) ha
      have h2 := solid_enclosed?_lt hi
      have h3 := solid_dropWhile_le (· != '<') (Text.trim t)
      simp at h3
      omega

end TypeText

end WebSurface
