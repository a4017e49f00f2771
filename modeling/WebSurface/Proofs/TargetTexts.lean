import WebSurface.Proofs.BalancedTypes
import WebSurface.Proofs.MappedParts
set_option autoImplicit false

namespace WebSurface

/-- The text closes no bracket that it does not open, and no string is open at its end. -/
@[mk_iff]
structure Text.Contained (t : Text) : Prop where
  opened : Nesting.outside.opened t
  inCode : (Nesting.outside.run t).inCode

instance (t : Text) : Decidable t.Contained := decidable_of_iff' _ (Text.contained_iff t)

namespace Nesting

theorem exists_of_inCode {s : Nesting} (h : s.inCode) : ∃ n b, s = ⟨n, .code b⟩ := by
  obtain ⟨depth, mode⟩ := s
  cases mode with
  | code b => exact ⟨depth, b, rfl⟩
  | literal => cases h

/-- Inside some brackets a text is read as it is outside of them. -/
theorem run_within {t : Text} (h : outside.opened t) (n : Nat) :
    (⟨n, .code false⟩ : Nesting).opened t ∧
      (⟨n, .code false⟩ : Nesting).run t = ⟨(outside.run t).depth + n, (outside.run t).mode⟩ := by
  induction n with
  | zero => exact ⟨h, rfl⟩
  | succ n ih =>
    obtain ⟨opened, run⟩ := ih
    refine ⟨opened_deeper opened, ?_⟩
    rw [show (⟨n + 1, .code false⟩ : Nesting) = deeper ⟨n, .code false⟩ from rfl,
      run_deeper opened, run]
    rfl

end Nesting

namespace Text.Contained

variable {a b : Text}

theorem of_balanced (h : a.Balanced) : a.Contained :=
  ⟨h.opened, Nesting.inCode_of_topLevel h.closed⟩

theorem plain_append {x : Text} (hx : ∀ c ∈ x, isPlain c) (ha : a.Contained) :
    Contained (x ++ a) := by
  rw [contained_iff, Nesting.opened_append, Nesting.run_append, Nesting.run_plain_outside hx,
    Nesting.opened_plain hx]
  exact ⟨ha.opened, ha.inCode⟩

theorem append_cons {c : Char} (hc : isPlain c) (ha : a.Contained) (hb : b.Contained) :
    Contained (a ++ c :: b) := by
  obtain ⟨n, f, hrun⟩ := Nesting.exists_of_inCode ha.inCode
  obtain ⟨opened, run⟩ := Nesting.run_within hb.opened n
  rw [contained_iff, Nesting.opened_append, ha.opened, Bool.true_and, Nesting.run_append, hrun,
    Nesting.opened, Nesting.closes_plain hc, Nesting.run_cons, Nesting.step_code n f hc, opened,
    run]
  exact ⟨rfl, hb.inCode⟩

theorem join {sep : Text} (plain : ∀ c ∈ sep, isPlain c) (hne : sep ≠ []) {ts : List Text}
    (h : ∀ t ∈ ts, t.Contained) : Contained (Text.join sep ts) := by
  obtain ⟨c, sep, rfl⟩ := List.exists_cons_of_ne_nil hne
  obtain ⟨hc, hsep⟩ := List.forall_mem_cons.1 plain
  refine Text.join_induction (of_balanced .nil) (fun t u ht hu => ?_) h
  rw [List.append_assoc]
  exact append_cons hc ht (plain_append hsep hu)

theorem angles (ha : a.Contained) : Contained ('<' :: (a ++ ['>'])) := by
  obtain ⟨n, f, hrun⟩ := Nesting.exists_of_inCode ha.inCode
  have first : Nesting.outside.step '<' = Nesting.outside.deeper := rfl
  rw [contained_iff, Nesting.opened, Nesting.run_cons, first, Nesting.opened_append,
    Nesting.run_append, Nesting.opened_deeper ha.opened, Nesting.run_deeper ha.opened, hrun]
  cases f <;> exact ⟨rfl, rfl⟩

theorem brackets (ha : a.Contained) : Contained (a ++ "[]".toList) := by
  obtain ⟨n, f, hrun⟩ := Nesting.exists_of_inCode ha.inCode
  rw [contained_iff, Nesting.opened_append, Nesting.run_append, ha.opened, hrun]
  cases f <;> exact ⟨rfl, rfl⟩

end Text.Contained

namespace TypeText

/-- A name, and what may follow one in brackets or as a mark, in one piece. -/
@[mk_iff]
structure Named (t : Text) : Prop where
  trimmed : t.trim = t
  named : t.takeWhile isGenericNameChar ≠ []
  next : ∀ c ∈ (t.dropWhile isGenericNameChar).head?, c ∈ ['<', '[', '?']
  noBar : t.Undivided (· == '|')
  noEquals : t.Undivided (· == '=')

instance (t : Text) : Decidable (Named t) :=
  haveI := Option.decidableForallMem (p := (· ∈ ['<', '[', '?']))
    (t.dropWhile isGenericNameChar).head?
  decidable_of_iff' _ (named_iff t)

namespace Named

variable {t : Text} (h : Named t)

include h

theorem unionWidth_eq : unionWidth t = 1 :=
  Nat.max_eq_left (length_unionMembers_le h.noBar)

theorem isFunctionType_eq : isFunctionType t = false := by
  have chars : ∀ c ∈ t.takeWhile isGenericNameChar, isGenericNameChar c := fun c hc =>
    List.all_eq_true.1 List.all_takeWhile c hc
  have noParen : t.trim.head? ≠ some '(' := by
    rw [h.trimmed]
    intro hparen
    obtain ⟨r, rfl⟩ := List.head?_eq_some_iff.1 hparen
    exact h.named (List.takeWhile_cons_of_neg (by decide))
  have split := List.takeWhile_append_dropWhile (p := isGenericNameChar) (l := t)
  rw [TypeText.isFunctionType_eq, stripParens_of_noParen noParen, h.trimmed, ← split]
  refine isBareFunction_named (fun c hc => .inl (chars c hc)) h.next ?_
  rw [split]
  exact h.noEquals

theorem append {w : Text} (hw : ∀ c ∈ w, c ∈ ['[', ']', '?']) (next : ∀ c ∈ w.head?, c ≠ ']') :
    Named (t ++ w) := by
  have marks : ∀ c ∈ ['[', ']', '?'], Text.isBlank c = false ∧ (c == '|') = false ∧
      (c == '=') = false ∧ (c ≠ ']' → isGenericNameChar c = false ∧ c ∈ ['<', '[', '?']) := by
    decide
  have chars : ∀ c ∈ t.takeWhile isGenericNameChar, isGenericNameChar c := fun c hc =>
    List.all_eq_true.1 List.all_takeWhile c hc
  have split : t ++ w =
      t.takeWhile isGenericNameChar ++ (t.dropWhile isGenericNameChar ++ w) := by
    rw [← List.append_assoc, List.takeWhile_append_dropWhile]
  refine ⟨?_, ?_, ?_, h.noBar.append fun c hc => (marks c (hw c hc)).2.1,
    h.noEquals.append fun c hc => (marks c (hw c hc)).2.2.1⟩
  · by_cases hne : w = []
    · rw [hne, List.append_nil, h.trimmed]
    · have solid : w.trim = w :=
        Text.trim_eq_self (fun c hc => (marks c (hw c (List.mem_of_mem_head? hc))).1)
          fun c hc => (marks c (hw c (List.mem_of_mem_getLast? hc))).1
      have named : t ≠ [] := by
        rintro rfl
        exact h.named rfl
      have whole := Text.trim_between h.trimmed solid named hne []
      rwa [List.append_nil] at whole
  · rw [split, List.takeWhile_append_of_pos chars]
    exact List.append_ne_nil_of_left_ne_nil h.named _
  · rw [split, List.dropWhile_append_of_pos chars]
    have after := List.head?_dropWhile_not isGenericNameChar t
    cases hy : t.dropWhile isGenericNameChar with
    | nil =>
      cases w with
      | nil => simp
      | cons c w =>
        obtain ⟨other, mem⟩ := (marks c (hw c List.mem_cons_self)).2.2.2 (next c rfl)
        rw [List.nil_append, List.dropWhile_cons_of_neg (by rw [other]; exact Bool.false_ne_true)]
        intro d hd
        obtain rfl : c = d := by simpa using hd
        exact mem
    | cons c y =>
      have next := h.next
      rw [hy] at after next
      have other : isGenericNameChar c = false := by simpa using after
      rw [List.cons_append, List.dropWhile_cons_of_neg (by rw [other]; exact Bool.false_ne_true)]
      exact next

end Named

theorem named_applied {name : Text} (hne : name ≠ []) (named : ∀ c ∈ name, isGenericNameChar c)
    {as : List Text} (has : ∀ a ∈ as, a.Contained) : Named (applied name as) where
  trimmed := trim_applied hne named
  named := by
    rw [applied, List.takeWhile_append_of_pos named]
    exact List.append_ne_nil_of_left_ne_nil hne _
  next := by
    rw [applied, List.dropWhile_append_of_pos named]
    simp [show isGenericNameChar '<' = false by decide]
  noBar := undivided_applied named (Text.Contained.join (by decide) (by decide) has).opened
    (by decide) (by decide)
  noEquals := undivided_applied named (Text.Contained.join (by decide) (by decide) has).opened
    (by decide) (by decide)

end TypeText

namespace TypeTable

open TypeText

theorem nullable_eq (target : Text) :
    nullable target = target ∨ nullable target = target ++ ['?'] := by
  rw [nullable]
  split
  · exact .inl rfl
  · exact .inr rfl

theorem contained_nullableIf {r : Text} (h : r.Contained) (b : Bool) :
    (nullableIf b r).Contained := by
  cases b with
  | false => exact h
  | true =>
    rcases nullable_eq r with hr | hr <;> rw [nullableIf, if_pos rfl, hr]
    · exact h
    · exact h.append_cons (by decide) (.of_balanced .nil)

theorem entry?_of_shape {m : TypeTable} {t r : Text} (h : m.shape t = .entry r) :
    m.entry? t = some r := by
  unfold shape at h
  split at h <;> simp_all

/-- What a type with an entry is mapped to is the target of a primitive type, made nullable. -/
theorem exists_of_entry {t r : Text} (h : standard.entry? t = some r) :
    ∃ e ∈ primitives, ∃ b c, r = nullableIf b (nullableIf c e.2) := by
  rw [entry?_eq] at h
  rcases Option.or_eq_some_iff.1 h with h | ⟨-, h⟩
  · obtain ⟨e, he, -, -, c, -, rfl⟩ := primitive_of_lookup? h
    exact ⟨e, he, false, c, rfl⟩
  · split at h
    · obtain ⟨v, hv, rfl⟩ := Option.map_eq_some_iff.1 h
      obtain ⟨e, he, -, -, c, -, rfl⟩ := primitive_of_lookup? hv
      exact ⟨e, he, true, c, rfl⟩
    · cases h

theorem contained_applied {name : Text} (named : ∀ c ∈ name, isGenericNameChar c) {as : List Text}
    (h : ∀ a ∈ as, a.Contained) : (applied name as).Contained :=
  .plain_append (isPlain_name named) (.angles (.join (by decide) (by decide) h))

theorem contained_target {t : Text} (h : t.Balanced) : (standard.target t).Contained := by
  induction hn : solid t using Nat.strongRecOn generalizing t with
  | ind n ih =>
    rw [target_eq]
    cases hs : standard.shape t with
    | entry r =>
      obtain ⟨e, he, b, c, rfl⟩ := exists_of_entry (entry?_of_shape hs)
      have all : ∀ e ∈ primitives, e.2.Contained := by decide +kernel
      exact contained_nullableIf (contained_nullableIf (all e he) c) b
    | array element =>
      have he := arrayElement?_of_shape hs
      have shorter := Nat.lt_of_lt_of_le (solid_arrayElement?_lt he) (solid_proper_le t)
      have inner := ih _ (hn ▸ shorter) (balanced_arrayElement? (balanced_proper h) he) rfl
      exact contained_nullableIf inner.brackets _
    | generic name arguments =>
      have hg := genericArguments?_of_shape hs
      refine contained_nullableIf ?_ _
      rw [← applied_eq]
      refine contained_applied (genericArguments?_name hg).2 (List.forall_mem_map.2 fun a ha => ?_)
      have shorter := Nat.lt_of_lt_of_le (solid_genericArguments?_lt hg ha) (solid_proper_le t)
      exact ih _ (hn ▸ shorter) (balanced_genericArguments? hg ha) rfl
    | reference => exact .of_balanced (Text.balanced_trim.2 h)

theorem named_nullableIf {r : Text} (h : Named r) (b : Bool) : Named (nullableIf b r) := by
  cases b with
  | false => exact h
  | true =>
    rcases nullable_eq r with hr | hr <;> rw [nullableIf, if_pos rfl, hr]
    · exact h
    · exact h.append (by decide) (by simp)

theorem named_target {t : Text} (array : ∀ e, standard.shape t ≠ .array e)
    (reference : standard.shape t ≠ .reference) : Named (standard.target t) := by
  rw [target_eq]
  cases hs : standard.shape t with
  | entry r =>
    obtain ⟨e, he, b, c, rfl⟩ := exists_of_entry (entry?_of_shape hs)
    have all : ∀ e ∈ primitives, Named e.2 := by decide +kernel
    exact named_nullableIf (named_nullableIf (all e he) c) b
  | array element => exact absurd hs (array element)
  | generic name arguments =>
    have hg := genericArguments?_of_shape hs
    refine named_nullableIf ?_ _
    rw [← applied_eq]
    exact named_applied (genericArguments?_name hg).1 (genericArguments?_name hg).2
      (List.forall_mem_map.2 fun a ha => contained_target (balanced_genericArguments? hg ha))
  | reference => exact absurd hs reference

end TypeTable

end WebSurface
