import WebSurface.Proofs.Gaps
import WebSurface.Proofs.Statements
import WebSurface.Proofs.Unions
set_option autoImplicit false

/-!
A text cut into pieces is a partition of the text that cutting does not change.

The pieces that any rule cuts from a text stand in it one after another, and only white space and
what the rule drops stands between them (`Cutter.partition_segments`). A delimiter that opens
nothing leaves the scan at top level, where it goes on as it began. So a piece is not cut again, and
the pieces, joined by the delimiter, are cut at the same places (`splitTopLevel_stable`). The same
holds of statements (`splitStatements_stable`), but that a semicolon behind a block ends an empty
statement, which is left out.
-/

namespace WebSurface

open Text (bytes isBlank)

namespace Segment

/-- The segments are pieces of the text, in their order and without white space around them, and
between them are only characters with property `gap`. -/
structure Partition (gap : Char → Bool) (t : Text) (ss : List Segment) : Prop where
  ne_nil : ∀ s ∈ ss, s.text ≠ []
  trimmed : ∀ s ∈ ss, s.text.trim = s.text
  slice : ∀ s ∈ ss, t.slice? s.span = some s.text
  ordered : ss.Pairwise fun x y => x.start < y.start ∧ x.stop ≤ y.start
  covers : ∀ n < bytes t, (∀ s ∈ ss, ¬(s.start ≤ n ∧ n < s.stop)) →
    ∃ a c b, t = a ++ c :: b ∧ bytes a ≤ n ∧ n < bytes a + c.utf8Size ∧ gap c

variable {t : Text} {ss : List Segment}

theorem Solid.start_lt_stop {s : Segment} (h : s.Solid) : s.start < s.stop :=
  Nat.lt_add_of_pos_right (Nat.pos_of_ne_zero fun hb => h.ne_nil ((Text.bytes_eq_zero s.text).1 hb))

theorem Within.slice? (h : Within 0 t ss) {s : Segment} (hs : s ∈ ss) :
    t.slice? s.span = some s.text := by
  obtain ⟨a, b, whole, start⟩ := h.exists_of_mem hs
  rw [Nat.zero_add] at start
  exact Text.slice?_eq_some_iff.2 ⟨a, b, whole, start, by rw [span, stop, start]⟩

theorem Within.partition (h : Within 0 t ss) (solid : ∀ s ∈ ss, s.Solid) {gap : Char → Bool}
    (kept : Keeps (!gap ·) t ss) : Partition gap t ss where
  ne_nil s hs := (solid s hs).ne_nil
  trimmed s hs := Text.trim_eq_self (solid s hs).head (solid s hs).last
  slice _ hs := h.slice? hs
  ordered := h.pairwise.1.imp_of_mem fun hx _ before =>
    ⟨Nat.lt_of_lt_of_le (solid _ hx).start_lt_stop before, before⟩
  covers n hn outside := by
    obtain ⟨a, c, b, whole, first, last⟩ := Text.exists_at hn
    refine ⟨a, c, b, whole, first, last, ?_⟩
    by_contra noGap
    obtain ⟨s, hs, start, stop⟩ := h.exists_of_keeps kept whole (by simp [noGap])
    exact outside s hs ⟨by omega, by omega⟩

theorem Within.eq_whole (h : Within 0 t ss) (hss : ss.map text = [t]) : ss = [⟨0, t⟩] := by
  obtain ⟨s, rfl, hs⟩ := List.map_eq_singleton_iff.1 hss
  obtain ⟨a, b, whole, start⟩ := h.exists_of_mem (List.mem_singleton_self s)
  have size := congrArg List.length whole
  rw [hs, List.length_append, List.length_append] at size
  obtain rfl : a = [] := List.length_eq_zero_iff.1 (by omega)
  obtain ⟨n, x⟩ := s
  obtain rfl : x = t := hs
  obtain rfl : n = 0 := start
  rfl

end Segment

open Segment (Partition)

/-- What a rule that drops only characters with property `p` leaves between the pieces. -/
theorem Cutter.partition_segments {σ : Type} {k : Cutter σ} {p : Char → Bool}
    (drops : ∀ s c, (k.next s c).2 = .drop → p c) (t : Text) :
    Partition (fun c => isBlank c || p c) t (k.segments t) :=
  (k.within_segments t).partition (fun _ => k.solid_of_mem_segments)
    (keeps_segments (fun s c hc => by simp [drops s c hc]) (fun c hc => by simp [hc]) t)

theorem partition_splitTopLevel (d : Char) (t : Text) :
    Partition (fun c => isBlank c || c == d) t (splitTopLevel d t) := by
  refine Cutter.partition_segments (fun s c hc => ?_) t
  simp only [atTopLevel] at hc
  split at hc
  · rename_i h
    exact (Bool.and_eq_true_iff.1 h).2
  · cases hc

/-- Cutting a text at a character that opens nothing is a partition of the text. Its pieces are cut
no further, and they are the pieces of the text that they are joined to, with or without white space
around the delimiter. -/
theorem splitTopLevel_stable {d : Char} (hd : opensNothing d) (t : Text) :
    Partition (fun c => isBlank c || c == d) t (splitTopLevel d t) ∧
    (∀ s ∈ splitTopLevel d t, splitTopLevel d s.text = [⟨0, s.text⟩]) ∧
    ∀ v w : Text, v.blank → w.blank →
      partsTopLevel d (Text.join (v ++ d :: w) (partsTopLevel d t)) = partsTopLevel d t := by
  have opens : ∀ c, c == d → opensNothing c := opensNothing_of_beq hd
  refine ⟨partition_splitTopLevel d t, fun s hs => ?_, fun v w hv hw => ?_⟩
  · have part : s.text ∈ partsTopLevel d t := List.mem_map_of_mem hs
    rw [partsTopLevel_eq] at part
    have whole : partsTopLevel d s.text = [s.text] := by
      rw [partsTopLevel_eq, parts_of_mem_parts opens part]
    exact (within_splitTopLevel d s.text).eq_whole whole
  · rw [partsTopLevel_eq, partsTopLevel_eq]
    exact parts_join_parts opens hv hw (beq_self_eq_true d) t

/-- A bracket that closes nothing, arrows, an em space and a string that stays open. The `>` of an
arrow that is cut at its equals sign is no bracket that closes one. -/
theorem splitTopLevel_stable_marks :
    let t := "]a<b=>c>=>d ==\u2003'e = ".toList
    opensNothing '=' ∧
      splitTopLevel '=' t = [⟨0, "]a<b=>c>".toList⟩, ⟨9, ">d".toList⟩, ⟨17, "'e =".toList⟩] ∧
      partsTopLevel '=' (Text.join " = ".toList (partsTopLevel '=' t)) = partsTopLevel '=' t :=
  ⟨by decide, by decide +kernel,
    (splitTopLevel_stable (d := '=') (by decide) _).2.2 [' '] [' '] rfl rfl⟩

namespace Statement

theorem keeps_blank_append {w : Text} (hw : Text.blank w) (t : Text) :
    keeps .outside false (w ++ t) = keeps .outside false t := by
  obtain ⟨keep, equals⟩ := keeps_blank Nesting.topLevel_outside false hw
  rw [keeps_append, keep, equals, Nesting.run_blank hw, Bool.true_and, Bool.or_false]

theorem meets_blank_append {w : Text} (hw : Text.blank w) (t : Text) :
    Nesting.outside.meets ['='] (w ++ t) = Nesting.outside.meets ['='] t := by
  rw [meets_equals_append, (keeps_blank Nesting.topLevel_outside false hw).2, Nesting.run_blank hw,
    Bool.false_or]

theorem keeps_trim {t : Text} (h : keeps .outside false t) : keeps .outside false t.trim := by
  obtain ⟨v, w, hv, -, ht⟩ := Text.exists_trim t
  rw [ht, List.append_assoc, keeps_blank_append hv, keeps_append, Bool.and_eq_true] at h
  exact h.1

namespace Ended

variable {m : Text}

theorem trim (h : Ended m) : Ended m.trim := by
  cases h with
  | semicolon hm htop => exact .semicolon (keeps_trim hm) (Nesting.topLevel_run_trim htop)
  | @block a hm ha hend =>
    subst hm
    obtain ⟨v, hv, e⟩ := Text.exists_trimStart a
    have text : (a ++ ['}']).trim = a.trimStart ++ ['}'] := by
      rw [Text.trim, Text.trimStart_append_solid (by decide),
        Text.trimEnd_append_solid (by decide)]
    rw [e, keeps_blank_append hv] at ha
    rw [e, Nesting.run_append, Nesting.run_blank hv, meets_blank_append hv] at hend
    exact .block text ha hend

theorem tidy_cuts (h : Ended m) : tidy (cuts .outside false m) = tidy [m] := by
  cases h with
  | semicolon hm _ => rw [cuts_eq_singleton hm]
  | @block a hm ha hend =>
    rw [hm, cuts_block ha hend, tidy_cons, tidy_cons _ []]
    rfl

/-- With a semicolon after it, it is one statement, and the scan goes on as it began. -/
theorem tidy_cuts_append (h : Ended m) {w : Text} (hw : Text.blank w) (r : Text) :
    tidy (cuts .outside false (m ++ (w ++ ';' :: r))) = tidy (m :: cuts .outside false r) := by
  cases h with
  | semicolon hm htop =>
    have keep : keeps .outside false (m ++ w) := by
      rw [keeps_append, hm, (keeps_blank htop _ hw).1]
      rfl
    have top : (Nesting.outside.run (m ++ w)).topLevel := by
      rw [Nesting.run_append]
      exact Nesting.topLevel_run_plain (isPlain_of_blank hw) htop
    rw [← List.append_assoc, cuts_semicolon keep top]
    exact tidy_congr (Text.trim_append_right hw m) _
  | @block a hm ha hend =>
    have empty : cuts .outside false (w ++ ';' :: r) = w :: cuts .outside false r :=
      cuts_semicolon (keeps_blank Nesting.topLevel_outside false hw).1
        (by rw [Nesting.run_blank hw]; rfl) r
    have block := cuts_block ha hend (w ++ ';' :: r)
    rw [hm, List.append_assoc, List.cons_append, List.nil_append, block, empty, tidy_cons,
      tidy_cons w, if_pos hw, tidy_cons (a ++ ['}'])]

end Ended

/-- All statements but the last have ended, and the last goes on to the end of its text. -/
inductive AllEnded : List Text → Prop
  | last {t : Text} : keeps .outside false t → AllEnded [t]
  | cons {t : Text} {ts : List Text} : Ended t → AllEnded ts → AllEnded (t :: ts)

theorem allEnded_cuts (t : Text) : AllEnded (cuts .outside false t) := by
  induction hn : t.length using Nat.strongRecOn generalizing t with
  | ind n ih =>
    cases first .outside false t with
    | whole ht =>
      rw [cuts_eq_singleton ht]
      exact .last ht
    | @semicolon a r ht ha htop =>
      rw [ht, cuts_semicolon ha htop]
      exact .cons (.semicolon ha htop) (ih r.length (by simp [← hn, ht]; omega) r rfl)
    | @block a r ht ha hend =>
      rw [ht, cuts_block ha hend]
      exact .cons (.block rfl ha hend) (ih r.length (by simp [← hn, ht]; omega) r rfl)

/-- The statements, with semicolons between them, are the statements. -/
theorem tidy_cuts_join {v w : Text} (hv : Text.blank v) (hw : Text.blank w) {ts : List Text}
    (h : AllEnded ts) :
    tidy (cuts .outside false (Text.join (v ++ ';' :: w) (tidy ts))) = tidy ts := by
  induction h with
  | @last t ht =>
    rw [tidy_cons]
    split
    · rfl
    · rename_i hb
      exact (congrArg tidy (cuts_eq_singleton (keeps_trim ht))).trans (tidy_trim hb [])
  | @cons t ts ht _ ih =>
    rw [tidy_cons]
    split
    · exact ih
    · rename_i hb
      -- Nothing follows, or a semicolon: that is where the rest is cut as a text of its own.
      cases hts : tidy ts with
      | nil => exact ht.trim.tidy_cuts.trans (tidy_trim hb [])
      | cons u us =>
        have assoc : Text.join (v ++ ';' :: w) (t.trim :: u :: us) =
            t.trim ++ (v ++ ';' :: (w ++ Text.join (v ++ ';' :: w) (u :: us))) := by
          simp [Text.join]
        rw [assoc, ht.trim.tidy_cuts_append hv, tidy_trim hb, tidy_cuts_blank hw, ← hts, ih]

theorem partition_splitStatements (t : Text) :
    Segment.Partition (fun c => isBlank c || c == ';') t (splitStatements t) := by
  refine Cutter.partition_segments (fun (s, assigned) c hc => ?_) t
  rw [next_eq] at hc
  split at hc
  · rename_i h
    exact (Bool.and_eq_true_iff.1 h).2
  · split at hc <;> cases hc

end Statement

/-- Cutting a text into its statements is a partition of the text, and the statements are those of
the text that they are joined to, with or without white space around the semicolons. -/
theorem splitStatements_stable (t : Text) :
    Segment.Partition (fun c => isBlank c || c == ';') t (splitStatements t) ∧
    ∀ v w : Text, v.blank → w.blank →
      (splitStatements (Text.join (v ++ ';' :: w) ((splitStatements t).map Segment.text))).map
        Segment.text = (splitStatements t).map Segment.text := by
  refine ⟨Statement.partition_splitStatements t, fun v w hv hw => ?_⟩
  rw [Statement.text_splitStatements, Statement.text_splitStatements]
  exact Statement.tidy_cuts_join hv hw (Statement.allEnded_cuts t)

/-- A brace in a string, brackets that close nothing, an arrow, an alias that ends with a brace, and
a last statement whose bracket stays open. -/
theorem splitStatements_stable_marks :
    let t :=
      "interface A \x7b a: '\x7d' \x7d]x=>y;;\u2003type T = \x7b b: C \x7d\n;)\x7df(;\x7d".toList
    let ts := ["interface A \x7b a: '\x7d' \x7d".toList, "]x=>y".toList,
      "type T = \x7b b: C \x7d".toList, ")\x7d".toList, "f(;\x7d".toList]
    (splitStatements t).map Segment.text = ts ∧
      (splitStatements (Text.join "; ".toList ts)).map Segment.text = ts := by
  intro t ts
  have cut : (splitStatements t).map Segment.text = ts := by decide +kernel
  exact ⟨cut, cut ▸ (splitStatements_stable t).2 [] [' '] rfl rfl⟩

end WebSurface
