import WebSurface.Proofs.NormalForm
import WebSurface.Proofs.WrittenMember
set_option autoImplicit false

namespace WebSurface

namespace Nesting

variable {s : Nesting}

theorem run_deeper {t : Text} (h : s.opened t) : s.deeper.run t = (s.run t).deeper := by
  induction t generalizing s with
  | nil => rfl
  | cons c t ih =>
    rw [opened_cons] at h
    rw [run_cons, run_cons, step_deeper h.1, ih h.2]

theorem opened_deeper {t : Text} (h : s.opened t) : s.deeper.opened t := by
  induction t generalizing s with
  | nil => rfl
  | cons c t ih =>
    rw [opened_cons] at h ⊢
    rw [step_deeper h.1]
    exact ⟨fun _ => Nat.succ_pos _, ih h.2⟩

theorem topLevel_deeper : s.deeper.topLevel = false := rfl

theorem breakAt_deeper {t : Text} (h : s.opened t) (p : Char → Bool) :
    s.deeper.breakAt p t = (t, []) := by
  induction t generalizing s with
  | nil => rfl
  | cons c t ih =>
    rw [opened_cons] at h
    rw [breakAt, topLevel_deeper, Bool.false_and, if_neg Bool.false_ne_true, step_deeper h.1,
      ih h.2]

theorem breakAt_literal (p : Char → Bool) {q : Char} {raw : Text} (h : IsRaw q raw)
    (n : Nat) : ((⟨n, .literal q false⟩ : Nesting).breakAt p (raw ++ [q])).2 = [] := by
  have inside (escaped : Bool) (c : Char) (r : Text) :
      ((⟨n, .literal q escaped⟩ : Nesting).breakAt p (c :: r)).2 =
        (((⟨n, .literal q escaped⟩ : Nesting).step c).breakAt p r).2 := by
    simp [breakAt, topLevel, inCode]
  induction h with
  | nil => exact inside false q []
  | escape _ ih =>
    rw [List.cons_append, List.cons_append, inside]
    exact (inside true _ _).trans ih
  | char hc hne _ ih => rw [List.cons_append, inside, step_raw hc hne, ih]

theorem opened_of_closing? {t a b : Text} (h : s.deeper.closing? t = some (a, b)) :
    s.opened a ∧ (s.run a).topLevel := by
  induction t generalizing s a with
  | nil => cases h
  | cons c t ih =>
    obtain ⟨depth, mode⟩ := s
    rw [closing?] at h
    split at h
    · rename_i hc
      obtain ⟨rfl, -⟩ := Prod.mk.inj (Option.some.inj h)
      rw [Bool.and_eq_true, decide_eq_true_eq] at hc
      obtain rfl : depth = 0 := by simpa [deeper] using hc.1
      refine ⟨rfl, ?_⟩
      cases mode with
      | code b => rfl
      | literal q escaped =>
        have depth := Agree.depth_step_literal 1 q escaped c
        rw [deeper, topLevel, depth] at hc
        cases hc.2
    · rename_i hc
      obtain ⟨⟨x, y⟩, hxy, he⟩ := Option.map_eq_some_iff.1 h
      obtain ⟨rfl, rfl⟩ := Prod.mk.inj he
      -- At depth 0 the bracket would have been the one that closes.
      have counted : closes ⟨depth, mode⟩ c → 0 < depth := fun hcloses => by
        refine Nat.pos_of_ne_zero fun hdepth => hc ?_
        cases mode with
        | literal q escaped => cases hcloses
        | code b =>
          rw [hdepth] at hcloses
          rw [hdepth]
          simpa [deeper] using topLevel_step_deeper (s := ⟨0, .code b⟩) rfl hcloses
      rw [step_deeper counted] at hxy
      obtain ⟨opened, closed⟩ := ih hxy
      exact ⟨opened_cons.2 ⟨counted, opened⟩, closed⟩

theorem depth_run_blank {s : Nesting} (hs : ∀ q ∈ s.literal?, isQuote q.1) {w : Text}
    (hw : w.blank) : (s.run w).depth = s.depth := by
  induction w generalizing s with
  | nil => rfl
  | cons c w ih =>
    rw [Text.blank_cons, Bool.and_eq_true] at hw
    rw [run_cons, ih (isQuote_step hs c) hw.2, step_blank hs hw.1]
    obtain ⟨depth, mode⟩ := s
    cases mode <;> rfl

theorem outside_step_opener {o : Char} (ho : isOpener o) : outside.step o = outside.deeper := by
  rcases eq_of_isOpener ho with rfl | rfl | rfl | rfl <;> rfl

end Nesting

theorem depthAfter_trimEnd (t : Text) : depthAfter t.trimEnd = depthAfter t := by
  obtain ⟨w, hw, ht⟩ := Text.exists_trimEnd t
  conv => rhs; rw [ht, depthAfter, Nesting.run_append,
    Nesting.depth_run_blank (Nesting.isQuote_run_outside _) hw]
  rfl

theorem depthAfter_of_closed {t : Text} (h : (Nesting.outside.run t).topLevel) :
    depthAfter t = 0 := by
  obtain ⟨b, hb⟩ := Nesting.topLevel_iff.1 h
  rw [depthAfter, hb]

theorem beq_eq_false_of {p : Char → Bool} {d : Char} (hd : p d = false) (c : Char) (hc : p c) :
    (c == d) = false := by
  rw [beq_eq_false_iff_ne]
  rintro rfl
  rw [hd] at hc
  cases hc

/-- No character with property `p` stands at top level. -/
def Text.Undivided (p : Char → Bool) (t : Text) : Prop := (Nesting.outside.breakAt p t).2 = []

instance (p : Char → Bool) (t : Text) : Decidable (t.Undivided p) :=
  inferInstanceAs (Decidable (_ = _))

namespace Text.Undivided

variable {p : Char → Bool} {t : Text}

theorem parts_eq (h : Undivided p t) (trimmed : t.trim = t) (hne : t ≠ []) : parts p t = [t] := by
  rw [parts, Nesting.cuts_of_breakAt h, tidy_cons, trimmed, if_neg]
  · rfl
  · rwa [← Text.trim_eq_nil_iff, trimmed]

theorem head (h : Undivided p t) : ∀ c ∈ t.head?, p c = false := by
  cases t with
  | nil => simp
  | cons c r =>
    intro d hd
    obtain rfl : c = d := by simpa using hd
    rw [Undivided, Nesting.breakAt] at h
    split at h
    · cases h
    · rename_i hc
      simpa [Nesting.topLevel, Nesting.outside, Nesting.inCode] using hc

theorem of_forall (h : ∀ c ∈ t, p c = false) : Undivided p t := by
  rw [Undivided, Nesting.breakAt_eq_self h]

theorem append_iff {a b : Text} : Undivided p (a ++ b) ↔
    Undivided p a ∧ ((Nesting.outside.run a).breakAt p b).2 = [] :=
  Nesting.breakAt_append_eq_nil_iff p .outside a b

theorem append {a b : Text} (ha : Undivided p a) (hb : ∀ c ∈ b, p c = false) :
    Undivided p (a ++ b) :=
  append_iff.2 ⟨ha, by rw [Nesting.breakAt_eq_self hb]⟩

theorem plain_append {a b : Text} (ha : ∀ c ∈ a, isPlain c ∧ p c = false) (hb : Undivided p b) :
    Undivided p (a ++ b) := by
  refine append_iff.2 ⟨of_forall fun c hc => (ha c hc).2, ?_⟩
  rw [Nesting.run_plain_outside fun c hc => (ha c hc).1]
  exact hb

theorem of_trim (hblank : ∀ c, Text.isBlank c → p c = false) (h : t.trim.Undivided p) :
    t.Undivided p := by
  obtain ⟨v, w, hv, hw, ht⟩ := Text.exists_trim t
  rw [ht, List.append_assoc]
  refine .plain_append (fun c hc => ?_) (h.append fun c hc => ?_)
  · have := Text.isBlank_of_mem hv hc
    exact ⟨isPlain_of_isBlank this, hblank c this⟩
  · exact hblank c (Text.isBlank_of_mem hw hc)

/-- What stands between brackets does not stand at top level, and neither does the last of them. -/
theorem enclosed {o c : Char} (ho : isOpener o) (hp : p o = false) {a : Text}
    (ha : Nesting.outside.opened a) : Undivided p (o :: (a ++ [c])) := by
  rw [Undivided, Nesting.breakAt, hp, Bool.and_false, if_neg Bool.false_ne_true,
    Nesting.outside_step_opener ho, Nesting.breakAt_append_eq_nil_iff, Nesting.breakAt_deeper ha,
    Nesting.run_deeper ha, Nesting.breakAt, Nesting.topLevel_deeper, Bool.false_and,
    if_neg Bool.false_ne_true]
  exact ⟨rfl, rfl⟩

end Text.Undivided

theorem Text.Balanced.enclosed {o c : Char} (ho : isOpener o) {a : Text} (ha : a.Balanced)
    (hc : (Nesting.outside.run a).closes c) : Text.Balanced (o :: (a ++ [c])) where
  opened := by
    have first : Nesting.outside.closes o → 0 < Nesting.outside.depth := by
      rcases eq_of_isOpener ho with rfl | rfl | rfl | rfl <;> decide
    refine Nesting.opened_cons.2 ⟨first, ?_⟩
    rw [Nesting.outside_step_opener ho, Nesting.opened_append, Nesting.opened_deeper ha.opened,
      Nesting.run_deeper ha.opened]
    exact Nesting.opened_cons.2 ⟨fun _ => Nat.succ_pos _, rfl⟩
  closed := by
    rw [Nesting.run_cons, Nesting.outside_step_opener ho, Nesting.run_append,
      Nesting.run_deeper ha.opened]
    exact Nesting.topLevel_step_deeper ha.closed hc

/-- Brackets around a text that closes its own are found to enclose it, whatever follows. -/
theorem group?_eq {o c : Char} (ho : isOpener o) {a : Text} (ha : a.Balanced)
    (hc : (Nesting.outside.run a).closes c) (r : Text) :
    group? (o :: (a ++ c :: r)) = some (a, r) := by
  rw [group?, if_pos ho, Nesting.outside_step_opener ho]
  exact Nesting.closing?_opened ha.opened ha.closed hc r

theorem Text.Balanced.brackets {a : Text} (ha : a.Balanced) : (a ++ "[]".toList).Balanced :=
  ha.append (by decide)

namespace TypeText

theorem length_unionMembers_le {t : Text} (h : t.Undivided (· == '|')) :
    (unionMembers t).length ≤ 1 := by
  rw [unionMembers_eq, parts, Nesting.cuts_of_breakAt h]
  exact (List.length_filter_le _ _).trans (by simp)

theorem splitNullish_of_few {t : Text} (h : (unionMembers t).length ≤ 1) :
    splitNullish t = (normalize t, false) := by
  refine splitNullish_of_not_admitsNullish ?_
  rw [admitsNullish]
  rcases hms : unionMembers t with _ | ⟨m, _ | ⟨b, ms⟩⟩
  · rfl
  · cases hm : isNullish m <;> simp [hm]
  · rw [hms] at h; simp at h

/-- A collapsed type that is no union is its own normal form. -/
theorem splitNullish_alone {t : Text} (collapsed : t.collapse = t)
    (undivided : t.Undivided (· == '|')) (hne : t ≠ []) :
    normalize t = t ∧ splitNullish t = (t, false) := by
  have trimmed : t.trim = t := by rw [← collapsed, Text.trim_collapse]
  have bare : t.dropWhile (· == '|') = t := by
    obtain ⟨c, r, rfl⟩ := List.exists_cons_of_ne_nil hne
    exact List.dropWhile_cons_of_neg (by rw [undivided.head c rfl]; exact Bool.false_ne_true)
  have few := length_unionMembers_le undivided
  have whole : normalize t = t := by rw [normalize_alone few, collapsed, bare, trimmed]
  rw [splitNullish_of_few few, whole]
  exact ⟨rfl, rfl⟩

theorem exists_of_enclosed? {t a : Text} (h : enclosed? t = some a) :
    ∃ o c, isOpener o ∧ t = o :: (a ++ [c]) ∧ a.Balanced := by
  have group := group?_of_enclosed? h
  obtain ⟨o, c, ho, rfl⟩ := eq_of_group? group
  rw [List.cons_append, group?, if_pos ho, Nesting.outside_step_opener ho] at group
  obtain ⟨opened, closed⟩ := Nesting.opened_of_closing? group
  exact ⟨o, c, ho, rfl, opened, closed⟩

theorem enclosed?_eq {o c : Char} (ho : isOpener o) {a : Text} (ha : a.Balanced)
    (hc : (Nesting.outside.run a).closes c) : enclosed? (o :: (a ++ [c])) = some a := by
  rw [enclosed?, group?_eq ho ha hc]

theorem undivided_of_enclosed? {p : Char → Bool} (hp : ∀ c, isOpener c → p c = false) {t a : Text}
    (h : enclosed? t = some a) : t.Undivided p := by
  obtain ⟨o, c, ho, rfl, balanced⟩ := exists_of_enclosed? h
  exact .enclosed ho (hp o ho) balanced.opened

theorem balanced_stripParens {t : Text} (h : t.Balanced) : (stripParens t).Balanced := by
  rw [stripParens]
  split
  · cases he : enclosed? t.trim with
    | none => exact Text.balanced_trim.2 h
    | some a =>
      obtain ⟨-, -, -, -, balanced⟩ := exists_of_enclosed? he
      exact Text.balanced_trim.2 balanced
  · exact Text.balanced_trim.2 h

@[simp] theorem stripParens_trimEnd (t : Text) : stripParens t.trimEnd = stripParens t := by
  rw [stripParens, stripParens, Text.trim_trimEnd]

theorem stripParens_of_noParen {t : Text} (h : t.trim.head? ≠ some '(') :
    stripParens t = t.trim := by
  rw [stripParens, if_neg (mt Text.startsWith_singleton.1 h)]

/-- A text with a character at top level, other than in its first place, is in no parentheses. -/
theorem stripParens_of_divided {p : Char → Bool} (hp : ∀ c, isOpener c → p c = false) {t : Text}
    (h : ¬t.trim.Undivided p) : stripParens t = t.trim := by
  have none : enclosed? t.trim = none := by
    rw [Option.eq_none_iff_forall_ne_some]
    exact fun a ha => h (undivided_of_enclosed? hp ha)
  rw [stripParens, none]
  exact ite_self _

def arrayNames : List Text := ["Array".toList, "ReadonlyArray".toList]

theorem isPlain_of_isGenericNameChar {c : Char} (h : isGenericNameChar c) : isPlain c :=
  isPlain_of (by decide) h

theorem isGenericNameChar_of_mem_arrayNames {name : Text} (h : name ∈ arrayNames) :
    ∀ c ∈ name, isGenericNameChar c := by
  have all : ∀ name ∈ arrayNames, ∀ c ∈ name, isGenericNameChar c := by decide
  exact all name h

theorem ne_nil_of_mem_arrayNames {name : Text} (h : name ∈ arrayNames) : name ≠ [] := by
  rintro rfl
  exact absurd h (by decide)

theorem isGenericNameChar_or_isBlank {x name : Text} (hx : x.trim = name)
    (named : name.all isGenericNameChar) {c : Char} (hc : c ∈ x) :
    isGenericNameChar c ∨ Text.isBlank c := by
  obtain ⟨v, w, hv, hw, ht⟩ := Text.exists_trim x
  rw [ht, hx] at hc
  rcases List.mem_append.1 hc with hc | hc
  · rcases List.mem_append.1 hc with hc | hc
    · exact .inr (Text.isBlank_of_mem hv hc)
    · exact .inl (List.all_eq_true.1 named c hc)
  · exact .inr (Text.isBlank_of_mem hw hc)

/-- The two ways to write an array: with brackets after it, and in angle brackets. -/
theorem arrayElement?_eq_some {t element : Text} (h : arrayElement? t = some element) :
    (∃ x, t.trim = x ++ "[]".toList ∧ x.blank = false ∧ depthAfter x = 0 ∧
      element = stripParens x) ∨
    ∃ name ∈ arrayNames, ∃ r inner, t.trim = name ++ '<' :: r ∧
      enclosed? ('<' :: r) = some inner ∧ element = inner.trim := by
  have argument {name : String} (hname : name.toList ∈ arrayNames)
      (h : ((Text.strip? name.toList t.trim).bind fun r =>
        if Text.startsWith ['<'] r then (enclosed? r).map Text.trim else none) = some element) :
      ∃ name ∈ arrayNames, ∃ r inner, t.trim = name ++ '<' :: r ∧
        enclosed? ('<' :: r) = some inner ∧ element = inner.trim := by
    obtain ⟨r, hr, h⟩ := Option.bind_eq_some_iff.1 h
    split at h
    · rename_i hstart
      obtain ⟨s, rfl⟩ : ∃ s, r = '<' :: s := by
        cases r with
        | nil => cases hstart
        | cons c s => exact ⟨s, by rw [← (by simpa using hstart : c = '<')]⟩
      obtain ⟨inner, hi, rfl⟩ := Option.map_eq_some_iff.1 h
      exact ⟨name.toList, hname, s, inner, Text.strip?_eq_some_iff.1 hr, hi, rfl⟩
    · cases h
  simp only [arrayElement?] at h
  split at h
  · rename_i x hx
    left
    split at h
    · cases h
    · rename_i hcond
      simp only [Bool.or_eq_true, List.isEmpty_iff, bne_iff_ne, ne_eq, not_or, not_not] at hcond
      refine ⟨x, Text.stripEnd?_eq_some_iff.1 hx, ?_, ?_, ?_⟩
      · exact Bool.eq_false_iff.2 (mt Text.trimEnd_eq_nil_iff.2 hcond.1)
      · rw [← depthAfter_trimEnd, hcond.2]
      · rw [← Option.some.inj h, stripParens_trimEnd]
  · right
    rcases Option.or_eq_some_iff.1 h with h | ⟨-, h⟩
    · exact argument (by simp [arrayNames]) h
    · exact argument (by simp [arrayNames]) h

theorem arrayElement?_brackets {t x : Text} (ht : t.trim = x ++ "[]".toList)
    (hx : x.blank = false) (hdepth : depthAfter x = 0) :
    arrayElement? t = some (stripParens x) := by
  have solid : x.trimEnd.isEmpty = false := by
    rw [List.isEmpty_eq_false_iff, ne_eq, Text.trimEnd_eq_nil_iff, hx]
    exact Bool.false_ne_true
  simp only [arrayElement?, Text.stripEnd?_eq_some_iff.2 ht, solid, depthAfter_trimEnd, hdepth]
  rw [stripParens_trimEnd]
  rfl

theorem arrayElement?_arrayNames {t name r inner : Text} (h : name ∈ arrayNames)
    (ht : t.trim = name ++ '<' :: r) (hr : enclosed? ('<' :: r) = some inner)
    (ends : t.trim.getLast? ≠ some ']') : arrayElement? t = some inner.trim := by
  have noBrackets : Text.stripEnd? "[]".toList t.trim = none := by
    rw [Option.eq_none_iff_forall_ne_some]
    intro x hx
    rw [Text.stripEnd?_eq_some_iff.1 hx] at ends
    simp at ends
  have start : Text.startsWith ['<'] ('<' :: r) := by simp
  rw [ht] at noBrackets
  simp only [arrayElement?, ht, noBrackets]
  simp only [arrayNames, List.mem_cons, List.not_mem_nil, or_false] at h
  rcases h with rfl | rfl
  · rw [Text.strip?_eq_some_iff.2 rfl, Option.bind_some, if_pos start, hr]
    rfl
  · have other : Text.strip? "Array".toList ("ReadonlyArray".toList ++ '<' :: r) = none := by
      rw [Option.eq_none_iff_forall_ne_some]
      intro x hx
      have first := congrArg List.head? (Text.strip?_eq_some_iff.1 hx)
      exact absurd first (by simp)
    rw [other, Text.strip?_eq_some_iff.2 rfl, Option.bind_none, Option.none_or, Option.bind_some,
      if_pos start, hr]
    rfl

theorem genericArguments?_eq_some {t name : Text} {arguments : List Text}
    (h : genericArguments? t = some (name, arguments)) :
    ∃ x r inner, t.trim = x ++ '<' :: r ∧ x.trim = name ∧ name ≠ [] ∧
      name.all isGenericNameChar ∧ enclosed? ('<' :: r) = some inner ∧
      arguments = partsTopLevel ',' inner ∧ arguments ≠ [] := by
  simp only [genericArguments?] at h
  split at h
  · cases h
  · rename_i hname
    simp only [Bool.or_eq_true, List.isEmpty_iff, Bool.not_eq_true', not_or,
      Bool.not_eq_false] at hname
    split at h
    · cases h
    · cases h
    · rename_i found hne hfound
      obtain ⟨rfl, rfl⟩ := Prod.mk.inj (Option.some.inj h)
      obtain ⟨inner, hinner, rfl⟩ := Option.map_eq_some_iff.1 hfound
      obtain ⟨o, c, -, ht, -⟩ := exists_of_enclosed? hinner
      have first := List.head?_dropWhile_not (· != '<') t.trim
      rw [ht] at first
      obtain rfl : o = '<' := by simpa using first
      rw [ht] at hinner
      refine ⟨_, _, inner, ?_, rfl, hname.1, hname.2, hinner, rfl, hne⟩
      rw [← ht]
      exact List.takeWhile_append_dropWhile.symm

theorem genericArguments?_name {t name : Text} {arguments : List Text}
    (h : genericArguments? t = some (name, arguments)) :
    name ≠ [] ∧ ∀ c ∈ name, isGenericNameChar c := by
  obtain ⟨-, -, -, -, -, hne, named, -⟩ := genericArguments?_eq_some h
  exact ⟨hne, List.all_eq_true.1 named⟩

theorem undivided_of_genericArguments? {p : Char → Bool} (hp : ∀ c, isOpener c → p c = false)
    (hname : ∀ c, isGenericNameChar c → p c = false) (hblank : ∀ c, Text.isBlank c → p c = false)
    {t : Text} (h : (genericArguments? t).isSome) : t.trim.Undivided p := by
  obtain ⟨⟨name, arguments⟩, h⟩ := Option.isSome_iff_exists.1 h
  obtain ⟨x, r, inner, ht, hx, -, named, hr, -, -⟩ := genericArguments?_eq_some h
  rw [ht]
  refine .plain_append (fun c hc => ?_) (undivided_of_enclosed? hp hr)
  rcases isGenericNameChar_or_isBlank hx named hc with hc | hc
  · exact ⟨isPlain_of_isGenericNameChar hc, hname c hc⟩
  · exact ⟨isPlain_of_isBlank hc, hblank c hc⟩

theorem undivided_of_arrayNames {p : Char → Bool} (hp : ∀ c, isOpener c → p c = false)
    (hname : ∀ c, isGenericNameChar c → p c = false) {name r inner : Text}
    (h : name ∈ arrayNames) (hr : enclosed? r = some inner) : (name ++ r).Undivided p := by
  refine .plain_append (fun c hc => ?_) (undivided_of_enclosed? hp hr)
  have named := isGenericNameChar_of_mem_arrayNames h c hc
  exact ⟨isPlain_of_isGenericNameChar named, hname c named⟩

end TypeText

end WebSurface
