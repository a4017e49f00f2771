import WebSurface.Declaration.Member
import WebSurface.Proofs.TopLevel
import WebSurface.TypeText
set_option autoImplicit false

namespace WebSurface

namespace Text

@[simp] theorem startsWith_nil (t : Text) : startsWith [] t = true := by
  cases t <;> rfl

@[simp] theorem startsWith_cons_nil (d : Char) (p : Text) : startsWith (d :: p) [] = false := rfl

@[simp] theorem startsWith_cons (d c : Char) (p r : Text) :
    startsWith (d :: p) (c :: r) = (c == d && startsWith p r) := by
  unfold startsWith
  rw [strip?]
  by_cases h : c = d
  · simp [h]
  · simp [h, Ne.symm h]

theorem endsWith_eq (s t : Text) : endsWith s t = startsWith s.reverse t.reverse := by
  simp [endsWith, stripEnd?, startsWith]

theorem exists_lines (c : Char) (r : Text) : ∃ l ls, lines (c :: r) = (c :: l) :: ls := by
  rw [lines]
  split
  · exact ⟨[], lines r, rfl⟩
  · cases lines r with
    | nil => exact ⟨[], [], rfl⟩
    | cons l ls => exact ⟨l, ls, rfl⟩

end Text

namespace Member

open TypeText (solid)

def isSeparator (c : Char) : Bool := c == ';' || c == ','

theorem isPlain_of_isSeparator (c : Char) (h : isSeparator c) : isPlain c := by
  simp only [isSeparator, Bool.or_eq_true, beq_iff_eq] at h
  rcases h with rfl | rfl <;> decide

theorem isBlank_of_isSeparator (c : Char) (h : isSeparator c) : Text.isBlank c = false := by
  simp only [isSeparator, Bool.or_eq_true, beq_iff_eq] at h
  rcases h with rfl | rfl <;> decide

theorem ne_newline_of_solid {c : Char} (hc : Text.isBlank c = false) : c ≠ '\n' := by
  rintro rfl
  cases hc

theorem text_chunks (run : Segment) :
    (chunks run).map Segment.text = parts isSeparator run.text := by
  have comma (part : Segment) :
      (partsTopLevel ',' part.text) = parts (· == ',') part.text := partsTopLevel_eq ',' part.text
  have texts : (chunks run).map Segment.text =
      (partsTopLevel ';' run.text).flatMap (partsTopLevel ',') := by
    simp only [chunks, partsTopLevel, List.map_flatMap, List.map_map, List.flatMap_map]
    rfl
  rw [texts, partsTopLevel_eq]
  simp only [funext (partsTopLevel_eq ',')]
  exact flatMap_parts (opensNothing_of_beq (by decide)) _ run.text

def startsWithMark (t : Text) : Bool := continuationMarks.any fun m => Text.startsWith m t

def endsWithMark (t : Text) : Bool := continuationMarks.any fun m => Text.endsWith m t

theorem startsWithMark_cons (c : Char) (r : Text) :
    startsWithMark (c :: r) =
      (c == '|' || c == '&' || c == ':' || (c == '=' && r.head? == some '>')) := by
  cases r <;> simp [startsWithMark, continuationMarks, Bool.or_assoc]

theorem endsWithMark_append_singleton (r : Text) (c : Char) :
    endsWithMark (r ++ [c]) =
      (c == '|' || c == '&' || c == ':' || (c == '>' && r.getLast? == some '=')) := by
  obtain ⟨s, rfl⟩ : ∃ s : Text, r = s.reverse := ⟨r.reverse, by simp⟩
  cases s <;> simp [endsWithMark, continuationMarks, Text.endsWith_eq, Bool.or_assoc]

/-- What stands before makes no difference, unless an arrow is cut in two. -/
theorem endsWithMark_append {x z : Text} (hx : x.getLast? ≠ some '=') (hz : z ≠ []) :
    endsWithMark (x ++ z) = endsWithMark z := by
  rcases List.eq_nil_or_concat z with rfl | ⟨r, c, rfl⟩
  · exact absurd rfl hz
  · rw [List.concat_eq_append, ← List.append_assoc, endsWithMark_append_singleton,
      endsWithMark_append_singleton]
    rcases List.eq_nil_or_concat r with rfl | ⟨r, d, rfl⟩
    · simp [hx]
    · simp

theorem isUnfinished_eq (t : Text) :
    isUnfinished t = (decide (0 < (Nesting.outside.run t).depth) || endsWithMark t.trimEnd) := rfl

/-- The first line of the text goes on with a type of the line before. -/
def goesOn (t : Text) : Bool := t.lines.head?.elim false continues

@[simp] theorem goesOn_nil : goesOn [] = false := rfl

@[simp] theorem goesOn_newline (r : Text) : goesOn ('\n' :: r) = false := rfl

theorem goesOn_blank {c : Char} (hc : Text.isBlank c) (hn : c ≠ '\n') (r : Text) :
    goesOn (c :: r) = goesOn r := by
  unfold goesOn
  rw [Text.lines, if_neg hn]
  cases Text.lines r with
  | nil => simp [continues, Text.trimStart, hc, continuationMarks]
  | cons l ls => simp [continues, Text.trimStart, hc]

theorem goesOn_solid {c : Char} (hc : Text.isBlank c = false) (r : Text) :
    goesOn (c :: r) = startsWithMark (c :: r) := by
  have hn := ne_newline_of_solid hc
  have line (l : Text) : continues (c :: l) = startsWithMark (c :: l) := by
    rw [continues, Text.trimStart_cons hc]
    rfl
  unfold goesOn
  rw [Text.lines, if_neg hn]
  cases r with
  | nil => simp [Text.lines, line]
  | cons d s =>
    obtain ⟨l, ls, h⟩ := Text.exists_lines d s
    simp [h, line, startsWithMark_cons]

/-- Only the first character after the text could still complete an arrow. -/
theorem goesOn_append {t r : Text} (ht : t.blank = false) (hr : r.head? ≠ some '>') :
    goesOn (t ++ r) = goesOn t := by
  induction t with
  | nil => cases ht
  | cons c s ih =>
    by_cases hn : c = '\n'
    · subst hn
      rfl
    cases hc : Text.isBlank c with
    | true =>
      have hs : Text.blank s = false := by simpa [hc] using ht
      rw [List.cons_append, goesOn_blank hc hn, goesOn_blank hc hn, ih hs]
    | false =>
      rw [List.cons_append, goesOn_solid hc, goesOn_solid hc, startsWithMark_cons,
        startsWithMark_cons]
      cases s with
      | nil => simp [hr]
      | cons d s => rfl

/-- The runs of a text that goes on after what has been `read` of a run. -/
def runs (read : Text) : Text → List Text
  | [] => if read.blank then [] else [read]
  | c :: r =>
    if c ≠ '\n' then runs (read ++ [c]) r
    else if (read ++ [c]).blank then runs [] r
    else if isUnfinished (read ++ [c]) || goesOn r then runs (read ++ [c]) r
    else (read ++ [c]) :: runs [] r

theorem runs_cons {c : Char} (hc : c ≠ '\n') (read r : Text) :
    runs read (c :: r) = runs (read ++ [c]) r := by
  rw [runs, if_pos hc]

theorem runs_newline (read r : Text) :
    runs read ('\n' :: r) =
      if (read ++ ['\n']).blank then runs [] r
      else if isUnfinished (read ++ ['\n']) || goesOn r then runs (read ++ ['\n']) r
      else (read ++ ['\n']) :: runs [] r := by
  rw [runs, if_neg (by simp)]

def pendingText (pending : Option Segment) : Text := pending.elim [] Segment.text

def withLine (line : Text) : List Text → List Text
  | [] => if line.isEmpty then [] else [line]
  | l :: ls => (line ++ l) :: ls

theorem withLine_nil (ls : List Text) : withLine [] ls = ls := by
  cases ls <;> rfl

theorem withLine_lines {c : Char} (hc : c ≠ '\n') (line r : Text) :
    withLine line (Text.lines (c :: r)) = withLine (line ++ [c]) (Text.lines r) := by
  rw [Text.lines, if_neg hc]
  cases Text.lines r <;> simp [withLine]

def runOf (n : Nat) (pending : Option Segment) (line : Text) : Segment :=
  match pending with
  | some s => { s with text := s.text ++ line }
  | none => ⟨n, line⟩

theorem text_runOf (n : Nat) (pending : Option Segment) (line : Text) :
    (runOf n pending line).text = pendingText pending ++ line := by
  cases pending <;> rfl

theorem runsFrom_cons (n : Nat) (pending : Option Segment) (line : Text) (rest : List Text) :
    runsFrom n pending (line :: rest) =
      if pending.isNone && line.blank then runsFrom (n + line.bytes) none rest
      else if isUnfinished (runOf n pending line).text || rest.head?.elim false continues then
        runsFrom (n + line.bytes) (some (runOf n pending line)) rest
      else runOf n pending line :: runsFrom (n + line.bytes) none rest := rfl

theorem isNone_and_blank {pending : Option Segment} (hp : ∀ s ∈ pending, s.text.blank = false)
    (line : Text) : (pending.isNone && line.blank) = (pendingText pending ++ line).blank := by
  cases pending with
  | none => simp [pendingText]
  | some s => simp [pendingText, hp s rfl]

/-- Reading line by line and reading character by character give the same runs. -/
theorem text_runsFrom (n : Nat) {pending : Option Segment}
    (hp : ∀ s ∈ pending, s.text.blank = false) (line t : Text) :
    (runsFrom n pending (withLine line t.lines)).map Segment.text =
      runs (pendingText pending ++ line) t := by
  -- The line that is open is kept apart from the run that it may belong to.
  induction t generalizing n pending line with
  | nil =>
    rw [runs, ← isNone_and_blank hp]
    cases line with
    | nil =>
      cases pending with
      | none => rfl
      | some s => simp [Text.lines, withLine, runsFrom, pendingText]
    | cons c l =>
      simp only [Text.lines, withLine, List.isEmpty_cons, Bool.false_eq_true, if_false,
        runsFrom_cons]
      split
      · rfl
      · split <;> simp [runsFrom, text_runOf]
  | cons c r ih =>
    by_cases hc : c = '\n'
    · subst hc
      have next (m : Nat) : (runsFrom m none (Text.lines r)).map Segment.text = runs [] r := by
        have fresh : ∀ s ∈ (none : Option Segment), s.text.blank = false := by simp
        simpa [withLine_nil, pendingText] using ih m fresh []
      have rest : (Text.lines r).head?.elim false continues = goesOn r := rfl
      rw [Text.lines, if_pos rfl, withLine, runsFrom_cons, isNone_and_blank hp, text_runOf, rest,
        runs_newline, List.append_assoc]
      split
      · exact next _
      · rename_i hblank
        split
        · have hrun : ∀ s ∈ some (runOf n pending (line ++ ['\n'])), s.text.blank = false := by
            intro s hs
            rw [← Option.mem_some.1 hs, text_runOf]
            simpa using hblank
          have := ih (n + Text.bytes (line ++ ['\n'])) hrun []
          simpa [withLine_nil, pendingText, text_runOf] using this
        · rw [List.map_cons, next, text_runOf]
    · rw [withLine_lines hc, ih n hp, runs_cons hc, List.append_assoc]

/-- The members in the runs of a text that goes on after what has been `read` of a run. -/
def pieces (read t : Text) : List Text := (runs read t).flatMap (parts isSeparator)

theorem text_split (body : Text) : (split body).map Segment.text = pieces [] body := by
  have fresh : ∀ s ∈ (none : Option Segment), s.text.blank = false := by simp
  have hr := text_runsFrom 0 fresh [] body
  rw [withLine_nil] at hr
  rw [pieces, show ([] : Text) = pendingText none ++ [] from rfl, ← hr, split, List.map_flatMap,
    List.flatMap_map]
  exact congrArg (fun f => List.flatMap f _) (funext text_chunks)

theorem depth_step_newline (s : Nesting) : (s.step '\n').depth = s.depth := by
  obtain ⟨depth, mode⟩ := s
  cases mode with
  | code b => rfl
  | literal q escaped =>
    cases escaped with
    | true => rfl
    | false =>
      simp only [Nesting.step]
      split
      · rfl
      · split <;> rfl

theorem isUnfinished_newline (read : Text) : isUnfinished (read ++ ['\n']) = isUnfinished read := by
  have hb : Text.blank ['\n'] := by decide
  rw [isUnfinished_eq, isUnfinished_eq, Nesting.run_append, Nesting.run_cons, Nesting.run_nil,
    depth_step_newline, Text.trimEnd_append hb]

theorem pieces_nil (read : Text) : pieces read [] = parts isSeparator read := by
  rw [pieces, runs]
  split
  · rename_i h
    rw [parts_blank h]
    rfl
  · simp

theorem pieces_cons {c : Char} (hc : c ≠ '\n') (read r : Text) :
    pieces read (c :: r) = pieces (read ++ [c]) r := by
  rw [pieces, runs_cons hc, pieces]

theorem pieces_newline (read r : Text) :
    pieces read ('\n' :: r) =
      if read.blank then pieces [] r
      else if isUnfinished read || goesOn r then pieces (read ++ ['\n']) r
      else parts isSeparator read ++ pieces [] r := by
  have hb : Text.blank ['\n'] := by decide
  have same : (read ++ ['\n']).blank = read.blank := by rw [Text.blank_append, hb, Bool.and_true]
  rw [pieces, runs_newline, isUnfinished_newline, same]
  split
  · rfl
  · split
    · rfl
    · rw [List.flatMap_cons, parts_append_right hb]
      rfl

theorem getLast?_ne_of_blank {w : Text} (hw : w.blank) : w.getLast? ≠ some '=' := by
  intro h
  have hc := Text.isBlank_of_mem hw (List.mem_of_getLast? h)
  revert hc
  decide

theorem trimEnd_ne_nil {t : Text} (h : t.blank = false) : t.trimEnd ≠ [] := by
  intro hn
  rw [Text.trimEnd_eq_nil_iff.1 hn] at h
  cases h

theorem isUnfinished_blank_append {w read : Text} (hw : w.blank) (hr : read.blank = false) :
    isUnfinished (w ++ read) = isUnfinished read := by
  rw [isUnfinished_eq, isUnfinished_eq, Nesting.run_append, Nesting.run_blank hw,
    Text.trimEnd_append_of_not_blank w hr, endsWithMark_append (getLast?_ne_of_blank hw)
      (trimEnd_ne_nil hr)]

theorem pieces_blank {w : Text} (hw : w.blank) (read t : Text) :
    pieces (w ++ read) t = pieces read t := by
  induction t generalizing read with
  | nil =>
    rw [pieces_nil, pieces_nil, parts_append_left hw]
  | cons c r ih =>
    by_cases hc : c = '\n'
    · subst hc
      rw [pieces_newline, pieces_newline, Text.blank_append, hw, Bool.true_and]
      cases hr : read.blank with
      | true => rfl
      | false =>
        rw [isUnfinished_blank_append hw hr, parts_append_left hw,
          List.append_assoc, ih]
    · rw [pieces_cons hc, pieces_cons hc, List.append_assoc, ih]

theorem run_separator {y : Text} (hy : (Nesting.outside.run y).topLevel) {c : Char}
    (hc : isSeparator c) : Nesting.outside.run (y ++ [c]) = .outside := by
  rw [Nesting.run_append, Nesting.run_cons, Nesting.run_nil,
    Nesting.step_plain hy (isPlain_of_isSeparator c hc)]

theorem isUnfinished_separator {y : Text} (hy : (Nesting.outside.run y).topLevel) {c : Char}
    (hc : isSeparator c) (read : Text) :
    isUnfinished (y ++ [c] ++ read) = (!read.blank && isUnfinished read) := by
  have hlast : (y ++ [c]).getLast? ≠ some '=' := by
    rw [List.getLast?_append, List.getLast?_singleton]
    rintro ⟨⟩
    cases hc
  have hsolid : Text.blank (y ++ [c]) = false := by
    simp [isBlank_of_isSeparator c hc]
  rw [isUnfinished_eq, isUnfinished_eq, Nesting.run_append, run_separator hy hc]
  cases hr : read.blank with
  | true =>
    have hend := Text.trimEnd_append_solid (isBlank_of_isSeparator c hc) y
    have hmark : endsWithMark (y ++ [c]) = false := by
      simp only [isSeparator, Bool.or_eq_true, beq_iff_eq] at hc
      rw [endsWithMark_append_singleton]
      rcases hc with rfl | rfl <;> rfl
    rw [Nesting.run_blank hr, Text.trimEnd_append hr, hend, hmark]
    rfl
  | false =>
    rw [Text.trimEnd_append_of_not_blank _ hr, endsWithMark_append hlast (trimEnd_ne_nil hr)]
    rfl

theorem pieces_separator {y : Text} (hy : (Nesting.outside.run y).topLevel) {c : Char}
    (hc : isSeparator c) (read t : Text) :
    pieces (y ++ [c] ++ read) t = parts isSeparator y ++ pieces read t := by
  have cut (u : Text) : parts isSeparator (y ++ [c] ++ u) =
      parts isSeparator y ++ parts isSeparator u := by
    rw [List.append_assoc, List.singleton_append]
    exact parts_append (fun c hc => opensNothing_of_isPlain (isPlain_of_isSeparator c hc)) hy hc u
  -- What stands before the separator is closed, so it is cut off wherever the piece ends.
  induction t generalizing read with
  | nil => rw [pieces_nil, pieces_nil, cut]
  | cons d r ih =>
    by_cases hd : d = '\n'
    · subst hd
      have hsolid : Text.blank (y ++ [c] ++ read) = false := by
        simp [isBlank_of_isSeparator c hc]
      rw [pieces_newline, pieces_newline, hsolid, isUnfinished_separator hy hc, cut]
      cases hr : read.blank with
      | true =>
        have hblank : Text.blank (read ++ ['\n']) := by
          rw [Text.blank_append, hr]
          rfl
        have hrest : pieces (read ++ ['\n']) r = pieces [] r := by
          simpa using pieces_blank hblank [] r
        simp only [Bool.not_true, Bool.false_and, Bool.false_or, Bool.false_eq_true, if_false,
          if_true]
        split
        · rw [List.append_assoc, ih, hrest]
        · rw [parts_blank hr, List.append_nil]
      | false =>
        simp only [Bool.not_false, Bool.true_and, Bool.false_eq_true, if_false]
        split
        · rw [List.append_assoc, ih]
        · rw [List.append_assoc]
    · rw [pieces_cons hd, pieces_cons hd, List.append_assoc, ih]

theorem sublist_of_mem_cuts {p : Char → Bool} {s : Nesting} {t a : Text} (h : a ∈ s.cuts p t) :
    a.Sublist t := by
  induction t generalizing s a with
  | nil =>
    rw [Nesting.cuts, List.mem_singleton] at h
    subst h
    exact .slnil
  | cons c r ih =>
    rw [Nesting.cuts] at h
    split at h
    · rcases List.mem_cons.1 h with rfl | h
      · exact List.nil_sublist _
      · exact (ih h).cons c
    · obtain ⟨b, bs, hb⟩ := Nesting.exists_cuts p (s.step c) r
      rw [hb, List.modifyHead_cons] at h
      rcases List.mem_cons.1 h with rfl | h
      · exact (ih (hb ▸ List.mem_cons_self)).cons_cons c
      · exact (ih (hb ▸ List.mem_cons_of_mem b h)).cons c

theorem exists_of_mem_parts {p : Char → Bool} {t m : Text} (h : m ∈ parts p t) :
    ∃ a : Text, a.Sublist t ∧ m = a.trim ∧ m ≠ [] := by
  simp only [parts, tidy, List.mem_filter, List.mem_map, Bool.not_eq_true',
    List.isEmpty_eq_false_iff] at h
  obtain ⟨⟨a, ha, rfl⟩, hne⟩ := h
  exact ⟨a, sublist_of_mem_cuts ha, rfl, hne⟩

theorem solid_le_of_mem_parts {p : Char → Bool} {t m : Text} (h : m ∈ parts p t) :
    solid m ≤ solid t := by
  obtain ⟨a, ha, rfl, -⟩ := exists_of_mem_parts h
  rw [TypeText.solid_trim]
  exact ha.countP_le

theorem solid_le_of_mem_pieces {read t m : Text} (h : m ∈ pieces read t) :
    solid m ≤ solid read + solid t := by
  induction t generalizing read with
  | nil =>
    rw [pieces_nil] at h
    simpa using solid_le_of_mem_parts h
  | cons c r ih =>
    have hr : solid r ≤ solid (c :: r) := by
      rw [TypeText.solid_cons]
      omega
    by_cases hc : c = '\n'
    · subst hc
      have hn : solid (read ++ ['\n']) = solid read := by
        rw [TypeText.solid_append]
        rfl
      rw [pieces_newline] at h
      split at h
      · have := ih h
        rw [TypeText.solid_nil] at this
        omega
      · split at h
        · have := ih h
          omega
        · rcases List.mem_append.1 h with h | h
          · have := solid_le_of_mem_parts h
            omega
          · have := ih h
            rw [TypeText.solid_nil] at this
            omega
    · rw [pieces_cons hc] at h
      have := ih h
      rw [TypeText.solid_append, TypeText.solid_cons, TypeText.solid_nil] at this
      rw [TypeText.solid_cons]
      omega

theorem solid_pos {t : Text} (h : t.blank = false) : 0 < solid t := by
  obtain ⟨c, hc, hb⟩ := List.all_eq_false.1 h
  exact List.countP_pos_iff.2 ⟨c, hc, by simpa using hb⟩

/-- While a member is read that is not cut when it stands alone, no run ends. -/
theorem pieces_append {read t r : Text} (hread : read.blank = false)
    (ht : ∀ c, t.getLast? = some c → Text.isBlank c = false) (whole : read ++ t ∈ pieces read t)
    (hr : r.head? ≠ some '>') : pieces read (t ++ r) = pieces (read ++ t) r := by
  induction t generalizing read with
  | nil => rw [List.nil_append, List.append_nil]
  | cons c s ih =>
    have hs : ∀ d, s.getLast? = some d → Text.isBlank d = false := fun d hd =>
      ht d (by rw [List.getLast?_cons, hd]; rfl)
    have assoc : read ++ [c] ++ s = read ++ c :: s := by simp
    have hread' : Text.blank (read ++ [c]) = false := by
      rw [Text.blank_append, hread, Bool.false_and]
    by_cases hc : c = '\n'
    · subst hc
      have hs' : Text.blank s = false := by
        cases hb : Text.blank s with
        | false => rfl
        | true =>
          obtain ⟨d, hd⟩ := Option.isSome_iff_exists.1
            (List.getLast?_isSome.2 (List.cons_ne_nil '\n' s))
          have hall : Text.blank ('\n' :: s) := hb
          have := Text.isBlank_of_mem hall (List.mem_of_getLast? hd)
          rw [ht d hd] at this
          cases this
      rw [List.cons_append, pieces_newline, hread, goesOn_append hs' hr]
      rw [pieces_newline, hread] at whole
      simp only [Bool.false_eq_true, if_false] at whole ⊢
      split at whole
      · rename_i h
        rw [if_pos h, ih hread' hs (assoc ▸ whole), assoc]
      · -- The member would be larger than either of its two parts.
        have size : solid (read ++ '\n' :: s) = solid read + solid s := by
          rw [TypeText.solid_append, TypeText.solid_cons]
          rfl
        have hpos := solid_pos hread
        have hpos' := solid_pos hs'
        rcases List.mem_append.1 whole with h | h
        · have := solid_le_of_mem_parts h
          omega
        · have := solid_le_of_mem_pieces h
          rw [TypeText.solid_nil] at this
          omega
    · rw [List.cons_append, pieces_cons hc, ih hread' hs, assoc]
      rw [assoc]
      rwa [pieces_cons hc] at whole

theorem isBlank_ends_of_mem_pieces {read t m : Text} (h : m ∈ pieces read t) :
    m ≠ [] ∧ (∀ c, m.head? = some c → Text.isBlank c = false) ∧
      ∀ c, m.getLast? = some c → Text.isBlank c = false := by
  obtain ⟨run, -, hrun⟩ := List.mem_flatMap.1 h
  obtain ⟨a, -, rfl, hne⟩ := exists_of_mem_parts hrun
  exact ⟨hne, Text.isBlank_ends_trim⟩

theorem pieces_whole {m r : Text} (whole : pieces [] m = [m]) (hr : r.head? ≠ some '>') :
    pieces [] (m ++ r) = pieces m r := by
  have hmem : m ∈ pieces [] m := whole ▸ List.mem_cons_self
  obtain ⟨hne, hhead, hlast⟩ := isBlank_ends_of_mem_pieces hmem
  cases m with
  | nil => exact absurd rfl hne
  | cons c t =>
    have hc := hhead c rfl
    have hn := ne_newline_of_solid hc
    rw [pieces_cons hn, List.nil_append] at hmem
    rw [List.cons_append, pieces_cons hn, List.nil_append]
    have ht : ∀ d, t.getLast? = some d → Text.isBlank d = false := fun d hd =>
      hlast d (by rw [List.getLast?_cons, hd]; rfl)
    exact pieces_append (by simp [hc]) ht hmem hr

theorem parts_whole {m : Text} (whole : pieces [] m = [m]) : parts isSeparator m = [m] := by
  have h := pieces_whole whole (r := []) (by simp)
  rwa [List.append_nil, whole, pieces_nil, eq_comm] at h

end Member

end WebSurface
