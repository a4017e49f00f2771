import WebSurface.Proofs.Quiet
set_option autoImplicit false

namespace WebSurface

namespace Cutter

variable {σ : Type} (k : Cutter σ)

def cuts (s : σ) : Text → List Text
  | [] => [[]]
  | c :: r =>
    match (k.next s c).2 with
    | .keep => (cuts (k.next s c).1 r).modifyHead (c :: ·)
    | .drop => [] :: cuts (k.next s c).1 r
    | .close => [c] :: cuts (k.next s c).1 r

theorem text_piecesFrom (s : σ) (n : Nat) (t : Text) :
    (k.piecesFrom s n t).1.text :: (k.piecesFrom s n t).2.map Segment.text = k.cuts s t := by
  induction t generalizing s n with
  | nil => rfl
  | cons c r ih =>
    have h := ih (k.next s c).1 (n + c.utf8Size)
    rw [cuts, ← h]
    simp only [piecesFrom]
    cases (k.next s c).2 <;> rfl

theorem text_segments (t : Text) :
    (k.segments t).map Segment.text = tidy (k.cuts k.start t) := by
  rw [segments, map_text_trim?, ← k.text_piecesFrom k.start 0 t]
  rfl

theorem exists_cuts (s : σ) (t : Text) : ∃ a as, k.cuts s t = a :: as :=
  ⟨_, _, (k.text_piecesFrom s 0 t).symm⟩

end Cutter

namespace Statement

/-- The texts between the ends of statements, read in this state; the flag tells that an equals sign
at top level came before. -/
def cuts (s : Nesting) (assigned : Bool) (t : Text) : List Text := atStatements.cuts (s, assigned) t

/-- The next character ends a statement that it belongs to. -/
def ends (s : Nesting) (assigned : Bool) (c : Char) : Bool :=
  !assigned && c == '}' && (s.step c).topLevel

theorem step_brace {s : Nesting} (h : (s.step '}').topLevel) : s.step '}' = .outside := by
  have noEquals : (s.step '}').mode ≠ .code true := by
    obtain ⟨depth, mode⟩ := s
    cases mode with
    | code b => simp [Nesting.step, isQuote]
    | literal q escaped =>
      cases escaped with
      | true => simp [Nesting.step]
      | false =>
        have hback : '}' ≠ '\\' := by decide
        simp only [Nesting.step, hback, if_false]
        split <;> simp
  obtain ⟨b, hb⟩ := Nesting.topLevel_iff.1 h
  cases b with
  | false => exact hb
  | true => exact absurd (congrArg Nesting.mode hb) noEquals

theorem next_eq (s : Nesting) (assigned : Bool) (c : Char) :
    atStatements.next (s, assigned) c =
      if s.topLevel && c == ';' then (atStatements.start, .drop)
      else if ends s assigned c then (atStatements.start, .close)
      else ((s.step c, assigned || (s.topLevel && c == '=')), .keep) := by
  simp only [atStatements]
  by_cases hsemi : s.topLevel && c == ';'
  · rw [if_pos hsemi, if_pos hsemi]
    rw [Bool.and_eq_true, beq_iff_eq] at hsemi
    rw [hsemi.2, Nesting.step_plain hsemi.1 (by decide)]
  rw [if_neg hsemi, if_neg hsemi]
  by_cases heq : s.topLevel && c == '='
  · have : ends s assigned c = false := by
      rw [Bool.and_eq_true, beq_iff_eq] at heq
      simp [ends, heq.2]
    simp [heq, this]
  rw [if_neg heq]
  by_cases hend : ends s assigned c
  · have closes := hend
    simp only [ends, Bool.and_eq_true, Bool.not_eq_true', beq_iff_eq] at hend
    rw [if_pos closes, if_pos (by simpa [ends] using closes), hend.1.2,
      step_brace (hend.1.2 ▸ hend.2), hend.1.1]
  · rw [if_neg hend, if_neg (by simpa [ends] using hend)]
    simp [heq]

theorem cuts_cons (s : Nesting) (assigned : Bool) (c : Char) (r : Text) :
    cuts s assigned (c :: r) =
      if s.topLevel && c == ';' then [] :: cuts .outside false r
      else if ends s assigned c then [c] :: cuts .outside false r
      else (cuts (s.step c) (assigned || (s.topLevel && c == '=')) r).modifyHead (c :: ·) := by
  rw [cuts, Cutter.cuts, next_eq]
  cases s.topLevel && c == ';' with
  | true => rfl
  | false => cases ends s assigned c <;> rfl

theorem exists_cuts (s : Nesting) (assigned : Bool) (t : Text) :
    ∃ a as, cuts s assigned t = a :: as := Cutter.exists_cuts _ _ _

def keeps (s : Nesting) (assigned : Bool) : Text → Bool
  | [] => true
  | c :: r =>
    !(s.topLevel && c == ';') && !ends s assigned c &&
      keeps (s.step c) (assigned || (s.topLevel && c == '=')) r

theorem meets_equals_cons (s : Nesting) (c : Char) (r : Text) :
    s.meets ['='] (c :: r) = ((s.topLevel && c == '=') || (s.step c).meets ['='] r) := by
  rw [Nesting.meets]
  by_cases h : c = '='
  · simp [Text.startsWith, Text.strip?, h]
  · simp [Text.startsWith, Text.strip?, h, Ne.symm h]

theorem meets_equals_append (s : Nesting) (x y : Text) :
    s.meets ['='] (x ++ y) = (s.meets ['='] x || (s.run x).meets ['='] y) := by
  induction x generalizing s with
  | nil => rfl
  | cons c x ih =>
    rw [List.cons_append, meets_equals_cons, meets_equals_cons, ih, Nesting.run_cons,
      Bool.or_assoc]

theorem keeps_append (s : Nesting) (assigned : Bool) (x y : Text) :
    keeps s assigned (x ++ y) =
      (keeps s assigned x && keeps (s.run x) (assigned || s.meets ['='] x) y) := by
  induction x generalizing s assigned with
  | nil => simp [keeps, Nesting.meets]
  | cons c x ih =>
    simp only [List.cons_append, keeps, ih, meets_equals_cons, Nesting.run_cons, Bool.and_assoc,
      Bool.or_assoc]

/-- Where no statement ends, the scan reads on; what it knows then are the brackets that are open
and whether an equals sign came before. -/
theorem cuts_append {s : Nesting} {assigned : Bool} {x : Text} (h : keeps s assigned x) (y : Text) :
    cuts s assigned (x ++ y) =
      (cuts (s.run x) (assigned || s.meets ['='] x) y).modifyHead (x ++ ·) := by
  induction x generalizing s assigned with
  | nil =>
    obtain ⟨a, as, ha⟩ := exists_cuts s assigned y
    simp [Nesting.meets, ha]
  | cons c x ih =>
    simp only [keeps, Bool.and_eq_true, Bool.not_eq_true'] at h
    obtain ⟨⟨hsemi, hend⟩, hx⟩ := h
    rw [List.cons_append, cuts_cons, hsemi, hend, ih hx, meets_equals_cons, Nesting.run_cons,
      Bool.or_assoc, if_neg Bool.false_ne_true, if_neg Bool.false_ne_true,
      List.modifyHead_modifyHead]
    rfl

theorem cuts_eq_singleton {s : Nesting} {assigned : Bool} {t : Text} (h : keeps s assigned t) :
    cuts s assigned t = [t] := by
  have := cuts_append h []
  simpa [cuts, Cutter.cuts] using this

theorem cuts_semicolon {s : Nesting} {assigned : Bool} {a : Text} (h : keeps s assigned a)
    (htop : (s.run a).topLevel) (r : Text) :
    cuts s assigned (a ++ ';' :: r) = a :: cuts .outside false r := by
  rw [cuts_append h, cuts_cons, if_pos (by simp [htop])]
  simp

theorem cuts_block {s : Nesting} {assigned : Bool} {a : Text} (h : keeps s assigned a)
    (hend : ends (s.run a) (assigned || s.meets ['='] a) '}') (r : Text) :
    cuts s assigned (a ++ '}' :: r) = (a ++ ['}']) :: cuts .outside false r := by
  rw [cuts_append h, cuts_cons, if_neg (by simp), if_pos hend]
  rfl

theorem keeps_blank {s : Nesting} (hs : s.topLevel) (assigned : Bool) {w : Text}
    (hw : Text.blank w) : keeps s assigned w ∧ s.meets ['='] w = false := by
  induction w generalizing s with
  | nil => exact ⟨rfl, rfl⟩
  | cons c w ih =>
    rw [Text.blank_cons, Bool.and_eq_true] at hw
    have ne {d : Char} (hd : Text.isBlank d = false) : (c == d) = false := by
      rw [beq_eq_false_iff_ne]
      rintro rfl
      rw [hw.1] at hd
      cases hd
    have step := Nesting.step_plain hs (isPlain_of_isBlank hw.1)
    have semi := ne (d := ';') (by decide)
    have brace := ne (d := '}') (by decide)
    have equals := ne (d := '=') (by decide)
    simpa [keeps, ends, meets_equals_cons, step, semi, brace, equals] using
      ih Nesting.topLevel_outside hw.2

theorem tidy_cuts_blank {w : Text} (hw : Text.blank w) (t : Text) :
    tidy (cuts .outside false (w ++ t)) = tidy (cuts .outside false t) := by
  obtain ⟨keep, equals⟩ := keeps_blank Nesting.topLevel_outside false hw
  obtain ⟨a, as, ha⟩ := exists_cuts .outside false t
  rw [cuts_append keep, equals, Nesting.run_blank hw, Bool.or_false, ha]
  exact tidy_congr (Text.trim_append_left hw a) as

/-- A statement ends with the text, whatever follows it: at the semicolon that comes next, or with
the brace of its block. -/
inductive Ended (m : Text) : Prop
  | semicolon : keeps .outside false m → (Nesting.outside.run m).topLevel → Ended m
  | block {a : Text} : m = a ++ ['}'] → keeps .outside false a →
      ends (Nesting.outside.run a) (Nesting.outside.meets ['='] a) '}' → Ended m

inductive First (s : Nesting) (assigned : Bool) (t : Text) : Prop
  | whole : keeps s assigned t → First s assigned t
  | semicolon {a r : Text} : t = a ++ ';' :: r → keeps s assigned a → (s.run a).topLevel →
      First s assigned t
  | block {a r : Text} : t = a ++ '}' :: r → keeps s assigned a →
      ends (s.run a) (assigned || s.meets ['='] a) '}' → First s assigned t

theorem first (s : Nesting) (assigned : Bool) (t : Text) : First s assigned t := by
  induction t generalizing s assigned with
  | nil => exact .whole rfl
  | cons c r ih =>
    cases hsemi : s.topLevel && c == ';' with
    | true =>
      rw [Bool.and_eq_true, beq_iff_eq] at hsemi
      exact .semicolon (a := []) (congrArg (· :: r) hsemi.2) rfl hsemi.1
    | false =>
      cases hend : ends s assigned c with
      | true =>
        have hc : c = '}' := by
          simp only [ends, Bool.and_eq_true, beq_iff_eq] at hend
          exact hend.1.2
        subst hc
        exact .block (a := []) rfl rfl (by simpa [Nesting.meets] using hend)
      | false =>
        have keep {x : Text} (hx : keeps (s.step c) (assigned || (s.topLevel && c == '=')) x) :
            keeps s assigned (c :: x) := by simp [keeps, hsemi, hend, hx]
        cases ih (s.step c) (assigned || (s.topLevel && c == '=')) with
        | whole h => exact .whole (keep h)
        | @semicolon a u hr ha htop => exact .semicolon (congrArg (c :: ·) hr) (keep ha) htop
        | @block a u hr ha hends =>
          refine .block (congrArg (c :: ·) hr) (keep ha) ?_
          rwa [Nesting.run_cons, meets_equals_cons, ← Bool.or_assoc]

theorem exists_of_mem_cuts {s : Nesting} {assigned : Bool} {t p : Text}
    (h : p ∈ cuts s assigned t) : ∃ x y : Text, t = x ++ (p ++ y) ∧
      (x ≠ [] → (s.run x).topLevel) ∧ (y ≠ [] → (s.run (x ++ p)).topLevel) := by
  induction hn : t.length using Nat.strongRecOn generalizing s assigned t with
  | ind n ih =>
    -- Before a piece of the rest stands what the rest has there, and the statement cut off.
    have later {a r : Text} {c : Char} (ht : t = a ++ c :: r)
        (hout : (s.run a).step c = .outside) (hp : p ∈ cuts .outside false r) :
        ∃ x y : Text, t = x ++ (p ++ y) ∧ (x ≠ [] → (s.run x).topLevel) ∧
          (y ≠ [] → (s.run (x ++ p)).topLevel) := by
      subst ht
      obtain ⟨x, y, rfl, hx, hy⟩ := ih r.length (by simp [← hn]; omega) hp rfl
      refine ⟨a ++ c :: x, y, by simp, fun _ => ?_, fun hne => ?_⟩
      · rw [Nesting.run_append, Nesting.run_cons, hout]
        cases x with
        | nil => rfl
        | cons d x => exact hx (List.cons_ne_nil d x)
      · rw [List.append_assoc, List.cons_append, Nesting.run_append, Nesting.run_cons, hout]
        exact hy hne
    cases first s assigned t with
    | whole ht =>
      rw [cuts_eq_singleton ht, List.mem_singleton] at h
      exact ⟨[], [], by simp [h], fun hne => absurd rfl hne, fun hne => absurd rfl hne⟩
    | @semicolon a r ht ha htop =>
      rw [ht, cuts_semicolon ha htop] at h
      rcases List.mem_cons.1 h with rfl | h
      · exact ⟨[], ';' :: r, ht, fun hne => absurd rfl hne, fun _ => htop⟩
      · exact later ht (Nesting.step_plain htop (by decide)) h
    | @block a r ht ha hend =>
      have htop : ((s.run a).step '}').topLevel := by
        rw [ends, Bool.and_eq_true] at hend
        exact hend.2
      rw [ht, cuts_block ha hend] at h
      rcases List.mem_cons.1 h with rfl | h
      · refine ⟨[], r, by simp [ht], fun hne => absurd rfl hne, fun _ => ?_⟩
        rw [List.nil_append, Nesting.run_append]
        exact htop
      · exact later ht (step_brace htop) h

theorem quiet_of_mem_cuts {assigned : Bool} {t p : Text} (ht : t.Quiet)
    (h : p ∈ cuts .outside assigned t) : p.Quiet := by
  obtain ⟨hquiet, hcode⟩ := ht
  obtain ⟨x, y, rfl, hx, hy⟩ := exists_of_mem_cuts h
  have start : (Nesting.outside.run x).inCode := by
    cases x with
    | nil => rfl
    | cons c x => exact Nesting.inCode_of_topLevel (hx (List.cons_ne_nil c x))
  have stop : (Nesting.outside.run (x ++ p)).inCode := by
    cases y with
    | nil => rwa [List.append_nil] at hcode
    | cons c y => exact Nesting.inCode_of_topLevel (hy (List.cons_ne_nil c y))
  rw [Nesting.run_append] at stop
  exact .of_inCode start (Nesting.quiet_append (Nesting.quiet_append hquiet).2).1 stop

theorem length_le_of_mem_cuts {s : Nesting} {assigned : Bool} {t p : Text}
    (h : p ∈ cuts s assigned t) : p.length ≤ t.length := by
  obtain ⟨x, y, rfl, -, -⟩ := exists_of_mem_cuts h
  simp only [List.length_append]
  omega

theorem text_splitStatements (t : Text) :
    (splitStatements t).map Segment.text = tidy (cuts .outside false t) :=
  Cutter.text_segments _ t

end Statement

end WebSurface
