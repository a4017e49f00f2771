import WebSurface.Proofs.ByteDeclarations
import WebSurface.Proofs.Pieces
set_option autoImplicit false

namespace WebSurface

namespace Member

def property? : Member → Option Property
  | .property p => some p
  | _ => none

def method? : Member → Option Method
  | .method m => some m
  | _ => none

def call? : Member → Option Call
  | .call c => some c
  | _ => none

def ofChunks (ss : List Segment) : List Member :=
  ss.filterMap fun s => (ofText s.text).toOption

end Member

namespace Interface

open Text (bytes)

/-- The report of a chunk of a body that starts at byte `n`, unless the chunk is a member. -/
def skipped? (n : Nat) (s : Segment) : Option Skipped :=
  match Member.ofText s.text with
  | .ok _ => none
  | .error reason => some ⟨s.span.shift n, s.text, reason⟩

theorem foldl_member (n : Nat) (r : Reading) (ss : List Segment) :
    ss.foldl (Reading.member n) r =
      ⟨(Member.ofChunks ss).foldl add r.interface, r.skipped ++ ss.filterMap (skipped? n)⟩ := by
  induction ss generalizing r with
  | nil => simp [Member.ofChunks]
  | cons s ss ih =>
    rw [List.foldl_cons, ih]
    cases h : Member.ofText s.text with
    | ok m => simp [Reading.member, Member.ofChunks, skipped?, h, Except.toOption]
    | error reason => simp [Reading.member, Member.ofChunks, skipped?, h, Except.toOption]

theorem foldl_add (i : Interface) (ms : List Member) :
    ms.foldl add i =
      ⟨i.name, i.bases, (ms.filterMap Member.property?).foldl Keyed.put i.properties,
        (ms.filterMap Member.method?).foldl Keyed.put i.methods,
        (ms.filterMap Member.call?).getLast?.or i.call⟩ := by
  induction ms generalizing i with
  | nil => rfl
  | cons m ms ih =>
    rw [List.foldl_cons, ih]
    cases m with
    | property p => rfl
    | method m => rfl
    | call c =>
      have last : (c :: ms.filterMap Member.call?).getLast?.or i.call =
          (ms.filterMap Member.call?).getLast?.or (some c) := by
        rw [List.getLast?_cons]
        cases (ms.filterMap Member.call?).getLast? <;> rfl
      exact congrArg _ last.symm

/-- In `text`, a brace opens at byte `n` and encloses `body`; if it is not closed, the body goes on
to the end. -/
structure Encloses (text : Text) (n : Nat) (body : Text) : Prop where
  brace : text.slice? ⟨n, n + 1⟩ = some ['{']
  body_eq : text.slice? ⟨n + 1, (matchingClose text n).getD (bytes text)⟩ = some body

theorem encloses_bodyOf {a b : Text} (h : Text.startsWith ['{'] b) :
    Encloses (a ++ b) (bytes a) (bodyOf b) where
  brace := by
    obtain ⟨inner, hb⟩ := Option.isSome_iff_exists.1 h
    obtain rfl := Text.strip?_eq_some_iff.1 hb
    exact Text.slice?_eq_some_iff.2 ⟨a, inner, by simp, rfl, rfl⟩
  body_eq := Checked.slice?_body h

/-- A text that can be read has a head and a body, the chunks of which are read one by one. -/
theorem exists_of_read {raw : Text} {r : Reading} (h : read raw = .ok r) :
    ∃ head n body, Head.ofText? raw.blankComments.trimStart = some head ∧
      head.kind = .interface ∧
      n = bytes raw.blankComments - bytes raw.blankComments.trimStart + head.stop ∧
      Encloses raw.blankComments n body ∧
      r = (Member.split body).foldl (Reading.member (n + 1))
        ⟨⟨head.name, head.bases, .empty, .empty, none⟩, []⟩ := by
  obtain ⟨v, -, whole⟩ := Text.exists_trimStart raw.blankComments
  have lead : bytes raw.blankComments - bytes raw.blankComments.trimStart = bytes v := by
    have size := congrArg bytes whole
    rw [Text.bytes_append] at size
    omega
  unfold read at h
  simp only at h
  split at h
  · rename_i name bases stop hh
    obtain ⟨a, b, text, hstop, rest, -⟩ := Checked.stop_of_head hh
    obtain rfl : stop = bytes a := hstop
    rw [rest, lead] at h
    split at h
    · rename_i brace
      refine ⟨_, bytes v + bytes a, bodyOf b, hh, rfl, by rw [lead], ?_, (Except.ok.inj h).symm⟩
      have enclosed := encloses_bodyOf (a := v ++ a) brace
      rwa [Text.bytes_append, List.append_assoc, ← text, ← whole] at enclosed
    · cases h
  · cases h

structure Located (raw : Text) (reports : List Skipped) : Prop where
  increasing : reports.Pairwise fun x y => x.span.stop ≤ y.span.start
  nonempty {x : Skipped} (h : x ∈ reports) : x.span.start < x.span.stop
  in_range {x : Skipped} (h : x ∈ reports) : x.span.stop ≤ bytes raw
  boundaries {x : Skipped} (h : x ∈ reports) : (raw.slice? x.span).isSome
  text_eq {x : Skipped} (h : x ∈ reports) : raw.blankComments.slice? x.span = some x.text

theorem skipped?_eq_some_iff {n : Nat} {s : Segment} {x : Skipped} :
    skipped? n s = some x ↔
      ∃ reason, Member.ofText s.text = .error reason ∧ x = ⟨s.span.shift n, s.text, reason⟩ := by
  unfold skipped?
  cases Member.ofText s.text with
  | ok m => simp
  | error reason => simp [eq_comm]

/-- A chunk of the body is found in the whole text by the place that is reported. -/
theorem located_skipped {raw body : Text} {n : Nat} (h : Encloses raw.blankComments n body) :
    Located raw ((Member.split body).filterMap (skipped? (n + 1))) := by
  have within := Member.within_split body
  obtain ⟨before, after, whole, start, -⟩ := Text.slice?_eq_some_iff.1 h.body_eq
  -- Places within the body are moved by what stands before it, the bracket included.
  have place {x : Skipped} (hx : x ∈ (Member.split body).filterMap (skipped? (n + 1))) :
      ∃ s ∈ Member.split body, x.text = s.text ∧ ∃ a b,
        raw.blankComments = a ++ s.text ++ b ∧ x.span = ⟨bytes a, bytes a + bytes s.text⟩ := by
    obtain ⟨s, hs, hx⟩ := List.mem_filterMap.1 hx
    obtain ⟨reason, -, rfl⟩ := skipped?_eq_some_iff.1 hx
    obtain ⟨a, b, hbody, ha⟩ := within.exists_of_mem hs
    refine ⟨s, hs, rfl, before ++ a, b ++ after, by rw [whole, hbody]; simp, ?_⟩
    simp only [Segment.span, Segment.stop, Span.shift, ha, Text.bytes_append, ← start]
    congr 1 <;> omega
  refine ⟨?_, fun hx => ?_, fun hx => ?_, fun hx => ?_, fun hx => ?_⟩
  · refine within.pairwise.1.filterMap _ fun s s' hs x hx x' hx' => ?_
    obtain ⟨reason, -, rfl⟩ := skipped?_eq_some_iff.1 hx
    obtain ⟨reason', -, rfl⟩ := skipped?_eq_some_iff.1 hx'
    exact Nat.add_le_add_right hs (n + 1)
  · obtain ⟨s, hs, -, a, b, -, span⟩ := place hx
    rw [span]
    exact Nat.lt_add_of_pos_right (Text.bytes_pos (Member.solid_of_mem_split hs).ne_nil)
  · obtain ⟨s, -, -, a, b, cut, span⟩ := place hx
    have size := congrArg bytes cut
    rw [Text.bytes_blankComments, Text.bytes_append] at size
    rw [span, size, Text.bytes_append]
    exact Nat.le_add_right _ _
  · obtain ⟨s, hs, -, a, b, cut, span⟩ := place hx
    rw [span]
    exact (Member.solid_of_mem_split hs).isSome_slice? cut
  · obtain ⟨s, -, text, a, b, cut, span⟩ := place hx
    rw [text]
    exact Text.slice?_eq_some_iff.2 ⟨a, b, cut, by rw [span], by rw [span]⟩

/-- Of a text that can be read, each chunk of the body is accounted for: one that is no member is
reported where it stands, and of the others the last one of each name is kept in the place of the
first, as is the last call signature. -/
theorem read_accounts {raw : Text} {r : Reading} (h : read raw = .ok r) :
    ∃ head n body, Head.ofText? raw.blankComments.trimStart = some head ∧
      head.kind = .interface ∧
      n = bytes raw.blankComments - bytes raw.blankComments.trimStart + head.stop ∧
      Encloses raw.blankComments n body ∧
      r.skipped = (Member.split body).filterMap (skipped? (n + 1)) ∧
      Located raw r.skipped ∧
      r.interface.properties.LastWins
        ((Member.ofChunks (Member.split body)).filterMap Member.property?) ∧
      r.interface.methods.LastWins
        ((Member.ofChunks (Member.split body)).filterMap Member.method?) ∧
      r.interface.call =
        ((Member.ofChunks (Member.split body)).filterMap Member.call?).getLast? := by
  obtain ⟨head, n, body, hh, kind, hn, enclosed, rfl⟩ := exists_of_read h
  rw [foldl_member, foldl_add, List.nil_append]
  exact ⟨head, n, body, hh, kind, hn, enclosed, rfl, located_skipped enclosed,
    Keyed.lastWins_ofList _, Keyed.lastWins_ofList _, Option.or_none⟩

/-- A comment with a character of two bytes stands before the chunks that are left out, and names
are repeated in another case. -/
theorem read_accounts_repeated :
    let raw : Text := ("/* é */ interface A \x7b a: B /* é */; [k: string]: any, b: C;" ++
      " new (): A\n A?: C \x7d").toList
    let body :=
      " a: B         ; [k: string]: any, b: C; new (): A\n A?: C ".toList
    let reports : List Skipped := [⟨⟨38, 54⟩, "[k: string]: any".toList, .indexSignature⟩,
      ⟨⟨62, 71⟩, "new (): A".toList, .constructSignature⟩]
    let a : Property := ⟨['a'], ['B'], false, false⟩
    let a' : Property := ⟨['A'], ['C'], true, false⟩
    let b : Property := ⟨['b'], ['C'], false, false⟩
    let i : Interface := ⟨['A'], [], .ofList [a', b], .empty, none⟩
    Encloses raw.blankComments 21 body ∧ read raw = .ok ⟨i, reports⟩ ∧ Located raw reports ∧
      i.properties.LastWins [a, b, a'] := by
  intro raw body reports a a' b i
  obtain ⟨encloses, found, started, place, members⟩ :
      (raw.blankComments.slice? ⟨21, 22⟩ = some ['{'] ∧
        raw.blankComments.slice? ⟨22, (matchingClose raw.blankComments 21).getD
          (bytes raw.blankComments)⟩ = some body) ∧
      read raw = .ok ⟨i, reports⟩ ∧
      Head.ofText? raw.blankComments.trimStart = some ⟨.interface, ['A'], [], 12⟩ ∧
      bytes raw.blankComments - bytes raw.blankComments.trimStart + 12 = 21 ∧
      (Member.ofChunks (Member.split body)).filterMap Member.property? = [a, b, a'] := by
    decide +kernel
  obtain ⟨_, _, body', hh, -, rfl, enclosed, -, located, properties, -⟩ := read_accounts found
  obtain rfl := Option.some.inj (started.symm.trans hh)
  rw [place] at enclosed
  obtain rfl := Option.some.inj (encloses.2.symm.trans enclosed.body_eq)
  exact ⟨enclosed, found, located, members ▸ properties⟩

end Interface

end WebSurface
