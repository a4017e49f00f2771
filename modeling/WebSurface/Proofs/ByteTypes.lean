import WebSurface.Proofs.ByteCuts
import WebSurface.Proofs.Targets
set_option autoImplicit false

namespace WebSurface

namespace Checked

open Text (utf8 bytes lead trail)
open TypeText (enclosed?)

/-- The bracket at offset `n` is closed by the last byte of the text. -/
def closesLast? (t : Text) (n : Nat) : Option Bool := do
  let close ← matchingClose? t n
  let last ← minus? (bytes t) 1
  return close == some last

def between? (t : Text) (start : Nat) : Option Text := do
  let last ← minus? (bytes t) 1
  let inner ← t.slice? ⟨start, last⟩
  return inner.trim

def normalize? (t : Text) : Option Text := do
  let bare := Text.trim (t.collapse.dropWhile (· == '|'))
  let members ← splitTopLevel? '|'.toUInt8 bare
  return if members.length ≤ 1 then bare else TypeText.union (members.map Segment.text)

def splitNullish? (t : Text) : Option (Text × Bool) := do
  let whole ← normalize? t
  let members ← splitTopLevel? '|'.toUInt8 whole
  let (nullish, proper) := (members.map Segment.text).partition TypeText.isNullish
  return if nullish.isEmpty || proper.isEmpty then (whole, false) else (TypeText.union proper, true)

def unionWidth? (t : Text) : Option Nat := do
  let members ← splitTopLevel? '|'.toUInt8 t
  return max members.length 1

def stripParens? (t : Text) : Option Text := do
  let t := t.trim
  if Text.startsWith ['('] t then
    if ← closesLast? t 0 then between? t 1 else return t
  else return t

/-- The type that a wrapper such as `Array<` stands around. -/
def wrapped? (wrapper t : Text) : Option (Option Text) :=
  match Text.strip? wrapper t with
  | none => some none
  | some rest => do
    let opening ← minus? (bytes wrapper) 1
    if ← closesLast? t opening then
      let element ← between? rest 0
      return some element
    else return none

def arrayElement? (t : Text) : Option (Option Text) :=
  let t := t.trim
  match Text.stripEnd? "[]".toList t with
  | some element => do
    let element := element.trimEnd
    if element.isEmpty then return none
    let depth ← depthAfter? element
    if depth == 0 then
      let bare ← stripParens? element
      return some bare
    else return none
  | none => do
    match ← wrapped? "Array<".toList t with
    | some element => return some element
    | none => wrapped? "ReadonlyArray<".toList t

def find? (d : Char) (t : Text) : Option Nat :=
  if (t.dropWhile (· != d)).isEmpty then none else some (bytes (t.takeWhile (· != d)))

def genericArguments? (t : Text) : Option (Option (Text × List Text)) :=
  let t := t.trim
  match find? '<' t with
  | none => some none
  | some opening => do
    let before ← upTo? t opening
    let name := before.trim
    if name.isEmpty || !name.all TypeText.isGenericNameChar then return none
    if ← closesLast? t opening then
      let last ← minus? (bytes t) 1
      let inner ← t.slice? ⟨opening + 1, last⟩
      let arguments ← splitTopLevel? ','.toUInt8 inner
      return if arguments.isEmpty then none else some (name, arguments.map Segment.text)
    else return none

def isFunctionType? (t : Text) : Option Bool := do
  let t ← stripParens? t
  let arrow ← containsTopLevel? "=>".toList t
  return arrow || Text.startsWith "new (".toList t || Text.startsWith "new(".toList t

end Checked

open Checked in
def TypeTable.target? (m : TypeTable) (t : Text) : Option Text := do
  let normalized ← normalize? t
  match m.lookup? normalized with
  | some target => return target
  | none => do
    let (bare, isNullable) ← splitNullish? normalized
    match if isNullable then m.lookup? bare else none with
    | some target => return TypeTable.nullable target
    | none => do
      match ← arrayElement? bare with
      | some element => do
        let mapped ← m |>.target? element
        return TypeTable.nullableIf isNullable (mapped ++ "[]".toList)
      | none => do
        match ← genericArguments? bare with
        | some (name, arguments) => do
          let mapped ← arguments.mapM (m |>.target? ·)
          return TypeTable.nullableIf isNullable
            (name ++ "<".toList ++ Text.join ", ".toList mapped ++ ">".toList)
        | none => do
          let _ ← unionWidth? bare
          return t.trim
partial_fixpoint

namespace Checked

open Text (utf8 bytes lead trail)
open TypeText (enclosed?)
open TypeTable (target?)

/-! ### What encloses a type -/

theorem isCloser_of_closing {s : Nesting} {c : Char} (hs : s.depth = 1)
    (h : (s.step c).topLevel) : isCloser c := by
  obtain ⟨depth, mode⟩ := s
  obtain rfl : depth = 1 := hs
  cases hc : isCloser c with
  | true => rfl
  | false =>
    -- Every other character leaves a bracket open.
    have deeper : 1 ≤ (Nesting.step ⟨1, mode⟩ c).depth := by
      cases mode with
      | code afterEquals =>
        simp only [Nesting.step, Nesting.depthWith, hc]
        grind
      | literal q escaped =>
        cases escaped <;> simp only [Nesting.step] <;> grind
    rw [Nesting.topLevel, Bool.and_eq_true, beq_iff_eq] at h
    omega

theorem exists_closer {s : Nesting} {t a b : Text} (h : s.closing? t = some (a, b)) :
    ∃ c, isCloser c ∧ t = a ++ c :: b := by
  fun_induction Nesting.closing? s t generalizing a with
  | case1 => cases h
  | case2 s c r hc =>
    obtain ⟨rfl, rfl⟩ := Prod.mk.inj (Option.some.inj h)
    rw [Bool.and_eq_true, decide_eq_true_eq] at hc
    exact ⟨c, isCloser_of_closing hc.1 hc.2, rfl⟩
  | case3 s c r _ ih =>
    obtain ⟨⟨x, y⟩, hxy, he⟩ := Option.map_eq_some_iff.1 h
    obtain ⟨rfl, rfl⟩ := Prod.mk.inj he
    obtain ⟨d, hd, rfl⟩ := ih hxy
    exact ⟨d, hd, rfl⟩

theorem exists_of_group? {t a b : Text} (h : group? t = some (a, b)) :
    ∃ o c, isOpener o ∧ isCloser c ∧ t = o :: (a ++ c :: b) := by
  cases t with
  | nil => cases h
  | cons o r =>
    rw [group?, Option.ite_none_right_eq_some] at h
    obtain ⟨c, hc, rfl⟩ := exists_closer h.2
    exact ⟨o, c, h.1, hc, rfl⟩

theorem exists_of_enclosed? {o : Char} {r inner : Text} (h : enclosed? (o :: r) = some inner) :
    ∃ c, isCloser c ∧ r = inner ++ [c] := by
  unfold enclosed? at h
  split at h
  · rename_i hg
    cases h
    obtain ⟨_, c, -, hc, hr⟩ := exists_of_group? hg
    exact ⟨c, hc, (List.cons.inj hr).2⟩
  · cases h

section Enclosed

variable {o : Char} (ho : isOpener o) (p : Text) {r : Text}

include ho

theorem closesLast?_eq :
    closesLast? (p ++ o :: r) (bytes p) = some (enclosed? (o :: r)).isSome := by
  have opening := Text.utf8Size_ascii (onlyAscii_isOpener o ho)
  have nonempty : 1 ≤ bytes (p ++ o :: r) := by
    simp [opening]
    omega
  rw [closesLast?, matchingClose?_eq, matchingClose_append, minus?_of_le nonempty, enclosed?]
  cases hg : group? (o :: r) with
  | none => rfl
  | some found =>
    obtain ⟨a, b⟩ := found
    obtain ⟨_, c, -, hc, hr⟩ := exists_of_group? hg
    obtain rfl := (List.cons.inj hr).2
    have closing := Text.utf8Size_ascii (onlyAscii_isCloser c hc)
    cases b with
    | nil => simp [opening, closing]; omega
    | cons d b =>
      have := d.utf8Size_pos
      simp [opening, closing]
      omega

theorem slice?_enclosed {inner : Text} (h : enclosed? (o :: r) = some inner) :
    (p ++ o :: r).slice? ⟨bytes p + 1, bytes (p ++ o :: r) - 1⟩ = some inner := by
  obtain ⟨c, hc, rfl⟩ := exists_of_enclosed? h
  have opening := Text.utf8Size_ascii (onlyAscii_isOpener o ho)
  have closing := Text.utf8Size_ascii (onlyAscii_isCloser c hc)
  refine Text.slice?_eq_some_iff.2 ⟨p ++ [o], [c], by simp, by simp [opening], ?_⟩
  simp [opening, closing]
  omega

end Enclosed

@[simp] theorem normalize?_eq (t : Text) : normalize? t = some (TypeText.normalize t) := by
  rw [normalize?, splitTopLevel?_eq (by decide)]
  simp only [Option.bind_eq_bind, Option.bind_some, TypeText.normalize, TypeText.unionMembers,
    partsTopLevel]
  rcases splitTopLevel '|' (Text.trim (t.collapse.dropWhile (· == '|'))) with _ | ⟨a, _ | ⟨b, ms⟩⟩
  · rfl
  · rfl
  · rfl

@[simp] theorem splitNullish?_eq (t : Text) :
    splitNullish? t = some (TypeText.splitNullish t) := by
  have none_nullish (ms : List Text) :
      (ms.filter TypeText.isNullish).isEmpty = !ms.any TypeText.isNullish := by
    rw [Bool.eq_iff_iff]
    simp
  rw [splitNullish?, normalize?_eq]
  simp only [Option.bind_eq_bind, Option.bind_some, Option.pure_def,
    splitTopLevel?_eq (show '|'.toNat < 128 by decide), List.partition_eq_filter_filter,
    none_nullish, Bool.or_comm, TypeText.splitNullish, TypeText.unionMembers, partsTopLevel]
  rfl

@[simp] theorem unionWidth?_eq (t : Text) : unionWidth? t = some (TypeText.unionWidth t) := by
  rw [unionWidth?, splitTopLevel?_eq (by decide), TypeText.unionWidth, TypeText.unionMembers,
    partsTopLevel, List.length_map, Nat.max_comm]
  rfl

theorem between?_of_slice? {t m : Text} {n : Nat} (ht : 1 ≤ bytes t)
    (h : t.slice? ⟨n, bytes t - 1⟩ = some m) : between? t n = some m.trim := by
  rw [between?, minus?_of_le ht]
  exact congrArg (Option.bind · _) h

@[simp] theorem stripParens?_eq (t : Text) : stripParens? t = some (TypeText.stripParens t) := by
  have open_paren : isOpener '(' := rfl
  simp only [stripParens?, TypeText.stripParens]
  split
  · rename_i h
    obtain ⟨r, hr⟩ := Option.isSome_iff_exists.1 h
    rw [Text.strip?_eq_some_iff, List.singleton_append] at hr
    have closes := closesLast?_eq open_paren [] (r := r)
    rw [hr]
    rw [List.nil_append, Text.bytes_nil] at closes
    simp only [closes, Option.bind_eq_bind, Option.bind_some]
    cases he : enclosed? ('(' :: r) with
    | none => rfl
    | some inner =>
      exact between?_of_slice? (Nat.le_add_right 1 _) (slice?_enclosed open_paren [] he)
  · rfl

theorem wrapped?_eq (name t : Text) : wrapped? (name ++ ['<']) t =
    some ((Text.strip? name t).bind fun r =>
      if Text.startsWith ['<'] r then (enclosed? r).map Text.trim else none) := by
  have open_angle : isOpener '<' := rfl
  rw [wrapped?]
  -- One reader takes off the name with the bracket, the other one looks at the bracket after it.
  cases hr : Text.strip? (name ++ ['<']) t with
  | none =>
    cases ht : Text.strip? name t with
    | none => rfl
    | some r =>
      have closed : Text.startsWith ['<'] r = false := by
        rw [Bool.eq_false_iff]
        intro h
        obtain ⟨s, hs⟩ := Option.isSome_iff_exists.1 h
        rw [Text.strip?_eq_some_iff] at hs ht
        have whole : Text.strip? (name ++ ['<']) t = some s :=
          Text.strip?_eq_some_iff.2 (by rw [ht, hs, List.append_assoc])
        rw [whole] at hr
        cases hr
      rw [Option.bind_some, closed]
      rfl
  | some r =>
    rw [Text.strip?_eq_some_iff, List.append_assoc, List.singleton_append] at hr
    have rest : Text.strip? name t = some ('<' :: r) := Text.strip?_eq_some_iff.2 hr
    have starts : Text.startsWith ['<'] ('<' :: r) := rfl
    have last : minus? (bytes (name ++ ['<'])) 1 = some (bytes name) := by
      rw [Text.bytes_append]
      exact minus?_of_le (Nat.le_add_left 1 _)
    have closes := closesLast?_eq open_angle name (r := r)
    rw [rest, Option.bind_some, if_pos starts]
    rw [← hr] at closes
    simp only [last, closes, Option.bind_eq_bind, Option.bind_some]
    cases he : enclosed? ('<' :: r) with
    | none => rfl
    | some inner =>
      obtain ⟨c, hc, rfl⟩ := exists_of_enclosed? he
      have closing := Text.utf8Size_ascii (onlyAscii_isCloser c hc)
      have size : bytes (inner ++ [c]) = bytes inner + 1 := by simp [closing]
      have slice : (inner ++ [c]).slice? ⟨0, bytes (inner ++ [c]) - 1⟩ = some inner :=
        Text.slice?_eq_some_iff.2 ⟨[], [c], rfl, rfl, by simp [size]⟩
      simp [between?_of_slice? (by omega) slice]

@[simp] theorem arrayElement?_eq (t : Text) :
    arrayElement? t = some (TypeText.arrayElement? t) := by
  simp only [arrayElement?, TypeText.arrayElement?]
  cases Text.stripEnd? "[]".toList t.trim with
  | none =>
    have array := wrapped?_eq "Array".toList t.trim
    have readonly := wrapped?_eq "ReadonlyArray".toList t.trim
    simp only [show "Array<".toList = "Array".toList ++ ['<'] from rfl, array,
      show "ReadonlyArray<".toList = "ReadonlyArray".toList ++ ['<'] from rfl, readonly,
      Option.bind_eq_bind, Option.bind_some]
    split
    · rename_i h
      rw [h]
      rfl
    · rename_i h
      rw [h]
      rfl
  | some element =>
    by_cases he : element.trimEnd.isEmpty
    · simp [he]
    · by_cases hd : depthAfter element.trimEnd = 0 <;> simp [he, hd]

@[simp] theorem genericArguments?_eq (t : Text) :
    genericArguments? t = some (TypeText.genericArguments? t) := by
  have open_angle : isOpener '<' := rfl
  simp only [genericArguments?, TypeText.genericArguments?]
  generalize t.trim = t
  have split := List.takeWhile_append_dropWhile (p := (· != '<')) (l := t)
  cases hr : t.dropWhile (· != '<') with
  | nil =>
    have unenclosed : enclosed? [] = none := rfl
    rw [find?, hr, unenclosed]
    exact congrArg some (ite_self none).symm
  | cons c r =>
    obtain rfl : c = '<' := by
      have := List.head?_dropWhile_not (· != '<') t
      rw [hr] at this
      simpa using this
    have found : find? '<' t = some (bytes (t.takeWhile (· != '<'))) := by rw [find?, hr]; rfl
    rw [hr] at split
    obtain ⟨p, hp⟩ : ∃ p : Text, t.takeWhile (· != '<') = p := ⟨_, rfl⟩
    rw [hp] at split found ⊢
    subst split
    have nonempty : 1 ≤ bytes (p ++ '<' :: r) := by
      rw [Text.bytes_append]
      exact Nat.le_add_left_of_le (Nat.le_add_right 1 _)
    simp only [found, Option.bind_eq_bind, upTo?_bytes, Option.bind_some,
      closesLast?_eq open_angle, minus?_of_le nonempty]
    split
    · rfl
    · cases he : enclosed? ('<' :: r) with
      | none => rfl
      | some inner =>
        simp only [Option.isSome_some, if_true, slice?_enclosed open_angle p he, Option.bind_some,
          splitTopLevel?_eq (show ','.toNat < 128 by decide), Option.map_some, partsTopLevel]
        cases splitTopLevel ',' inner <;> rfl

@[simp] theorem isFunctionType?_eq (t : Text) :
    isFunctionType? t = some (TypeText.isFunctionType t) := by
  simp [isFunctionType?, TypeText.isFunctionType]

theorem mapM_eq_some {α β : Type} {f : α → Option β} {g : α → β} {as : List α}
    (h : ∀ a ∈ as, f a = some (g a)) : as.mapM f = some (as.map g) := by
  induction as with
  | nil => rfl
  | cons a as ih =>
    obtain ⟨ha, has⟩ := List.forall_mem_cons.1 h
    rw [List.mapM_cons, ha, ih has]
    rfl

/-- A type is mapped by slices of it only, and this ends. -/
@[simp] theorem target?_eq (m : TypeTable) (t : Text) : target? m t = some (m.target t) := by
  -- Each part has fewer characters that are not blank, although it may be laid out anew.
  induction h : TypeText.solid t using Nat.strongRecOn generalizing t with
  | ind n ih =>
    subst h
    have part {u : Text} (hu : TypeText.solid u < TypeText.solid (TypeTable.proper t).1) :
        target? m u = some (m.target u) :=
      ih _ (Nat.lt_of_lt_of_le hu (TypeTable.solid_proper_le t)) u rfl
    rw [target?, TypeTable.target_eq, TypeTable.shape, TypeTable.entry?]
    simp only [normalize?_eq, splitNullish?_eq, Option.bind_eq_bind, Option.bind_some]
    rw [← TypeTable.proper]
    cases m.lookup? (TypeText.normalize t) with
    | some target => rfl
    | none =>
      have again : ((if (TypeTable.proper t).2 then (m.lookup? (TypeTable.proper t).1).map
            TypeTable.nullable else none) : Option Text) =
          (if (TypeTable.proper t).2 then m.lookup? (TypeTable.proper t).1 else none).map
            TypeTable.nullable := by
        split <;> rfl
      rw [Option.none_or, again]
      cases if (TypeTable.proper t).2 then m.lookup? (TypeTable.proper t).1 else none with
      | some target => rfl
      | none =>
        simp only [arrayElement?_eq, genericArguments?_eq, unionWidth?_eq, Option.bind_some,
          Option.map_none]
        cases ha : TypeText.arrayElement? (TypeTable.proper t).1 with
        | some element =>
          simp only [part (TypeText.solid_arrayElement?_lt ha)]
          rfl
        | none =>
          cases hg : TypeText.genericArguments? (TypeTable.proper t).1 with
          | none => rfl
          | some generic =>
            obtain ⟨name, arguments⟩ := generic
            have mapped : arguments.mapM (target? m) = some (arguments.map m.target) :=
              mapM_eq_some fun a ha => part (TypeText.solid_genericArguments?_lt hg ha)
            simp only [mapped]
            rfl

end Checked

end WebSurface
