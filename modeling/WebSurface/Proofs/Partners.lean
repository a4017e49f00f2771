import WebSurface.Proofs.MappedParts
set_option autoImplicit false

/-!
Brackets and the ones that close them.

`Text.Paired` is the grammar of texts in which every opening bracket is closed by the one of its own
kind. The `>` of an arrow and what stands in a string are no brackets there. The scan knows nothing
of kinds and only counts, but what it counts in such a text comes out even
(`Text.Paired.balanced`). So it finds the partner of a bracket, whatever stands before the bracket
and after its partner (`matchingClose_partner`).
-/

namespace WebSurface

def partner : Char → Char
  | '(' => ')'
  | '[' => ']'
  | '{' => '}'
  | '<' => '>'
  | c => c

theorem isCloser_partner {o : Char} (ho : isOpener o) : isCloser (partner o) := by
  rcases eq_of_isOpener ho with rfl | rfl | rfl | rfl <;> rfl

/-- Behind the text a closing bracket is one: a `>` behind an equals sign belongs to an arrow. -/
def Text.ClosedBy (t : Text) (c : Char) : Prop := c = '>' → t.getLast? ≠ some '='

instance (t : Text) (c : Char) : Decidable (t.ClosedBy c) :=
  inferInstanceAs (Decidable (_ → _))

/-- Texts in which every opening bracket has a partner of its own kind, and there are no other
closing brackets. -/
inductive Text.Paired : Text → Prop
  | nil : Paired []
  | char {c : Char} : isOpener c = false → isCloser c = false → isQuote c = false → Paired [c]
  | arrow : Paired ['=', '>']
  | literal {q : Char} {raw : Text} : isQuote q → IsRaw q raw → Paired (q :: (raw ++ [q]))
  | group {o : Char} {t : Text} : isOpener o → Paired t → t.ClosedBy (partner o) →
      Paired (o :: (t ++ [partner o]))
  | append {t u : Text} : Paired t → Paired u → Paired (t ++ u)

namespace Nesting

theorem opened_literal {q : Char} {raw : Text} (h : IsRaw q raw) (n : Nat) :
    (⟨n, .literal q false⟩ : Nesting).opened (raw ++ [q]) := by
  induction h with
  | nil => rfl
  | escape _ ih => exact ih
  | char hc hne _ ih =>
    rw [List.cons_append, opened_cons, step_raw hc hne]
    exact ⟨fun h => (by cases h), ih⟩

end Nesting

namespace Text.Balanced

variable {t : Text}

theorem char {c : Char} (ho : isOpener c = false) (hc : isCloser c = false)
    (hq : isQuote c = false) : Text.Balanced [c] where
  opened := Nesting.opened_cons.2 ⟨fun h => by simp [Nesting.closes, Nesting.outside, hc] at h, rfl⟩
  closed := by
    have opens : opensNothing c := by simp [opensNothing, ho, hq]
    exact Nesting.topLevel_step Nesting.topLevel_outside opens

theorem literal {q : Char} (hq : isQuote q) {raw : Text} (hraw : IsRaw q raw) :
    Text.Balanced (q :: (raw ++ [q])) where
  opened := by
    have first : Nesting.outside.closes q = false := by
      rcases Text.eq_of_isQuote hq with rfl | rfl | rfl <;> rfl
    rw [Nesting.opened_cons, first, Nesting.outside, Nesting.step_quote hq]
    exact ⟨fun h => (by cases h), Nesting.opened_literal hraw 0⟩
  closed := by
    rw [Nesting.run_cons, Nesting.outside, Nesting.step_quote hq, Nesting.run_literal hq hraw]
    rfl

theorem closes_partner (ht : t.Balanced) {o : Char} (ho : isOpener o)
    (hc : t.ClosedBy (partner o)) : (Nesting.outside.run t).closes (partner o) := by
  have closer := isCloser_partner ho
  by_cases angle : partner o = '>'
  · exact Nesting.closes_of_noEquals ht.closed (hc angle) closer
  · exact Nesting.closes_of_isCloser ht.closed closer angle

end Text.Balanced

/-- To count is enough where every bracket has its partner. -/
theorem Text.Paired.balanced {t : Text} (h : t.Paired) : t.Balanced := by
  induction h with
  | nil => exact .nil
  | char ho hc hq => exact .char ho hc hq
  | arrow => decide
  | literal hq hraw => exact .literal hq hraw
  | group ho _ hc ih => exact ih.enclosed ho (ih.closes_partner ho hc)
  | append _ _ ht hu => exact ht.append hu

/-- The bracket that closes an opening one is its partner, whatever stands before the one and after
the other. Up to the partner one bracket is open, and with it none. -/
theorem matchingClose_partner {o : Char} (ho : isOpener o) {t : Text} (ht : t.Paired)
    (hc : t.ClosedBy (partner o)) (p q : Text) :
    matchingClose (p ++ o :: (t ++ partner o :: q)) (Text.bytes p) =
      some (Text.bytes p + 1 + Text.bytes t) ∧
    depthAfter (o :: t) = 1 ∧ depthAfter (o :: (t ++ [partner o])) = 0 := by
  have balanced := ht.balanced
  have closes := balanced.closes_partner ho hc
  refine ⟨?_, ?_, ?_⟩
  · rw [matchingClose_append, group?_eq ho balanced closes]
    rfl
  · rw [depthAfter, Nesting.run_cons, Nesting.outside_step_opener ho,
      Nesting.run_deeper balanced.opened]
    exact congrArg (· + 1) (depthAfter_of_closed balanced.closed)
  · exact depthAfter_of_closed (balanced.enclosed ho closes).closed

/-- An arrow and a string with a bracket and a quote in it stand in angle brackets, behind an open
string and an equals sign. -/
theorem matchingClose_partner_arrow :
    let t : Text := "[\"\\\">\"]=>é".toList
    isOpener '<' ∧ t.Paired ∧ t.ClosedBy '>' ∧
      matchingClose ("`=".toList ++ '<' :: (t ++ '>' :: ">)".toList)) 2 = some 14 ∧
      depthAfter ('<' :: t) = 1 ∧ depthAfter ('<' :: (t ++ ['>'])) = 0 := by
  intro t
  have opener : isOpener '<' := rfl
  have raw : IsRaw '"' "\\\">".toList := .escape (.char (by decide) (by decide) .nil)
  have list : Text.Paired "[\"\\\">\"]".toList :=
    .group (o := '[') rfl (.literal rfl raw) (fun h => (by cases h))
  have paired : t.Paired := (list.append .arrow).append (.char rfl rfl rfl)
  have closed : t.ClosedBy '>' := by decide
  exact ⟨opener, paired, closed,
    matchingClose_partner opener paired closed "`=".toList ">)".toList⟩

end WebSurface
