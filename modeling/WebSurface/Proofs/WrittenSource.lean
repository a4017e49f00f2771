import WebSurface.Corpus.Registry
import WebSurface.Proofs.Blank
set_option autoImplicit false

/-!
Sources that are read, written and read again.

A path is written without the word `file:`, which only the reader knows. `Source.Bare` says of which
paths nothing is lost by that; any other path can be had from a text with that word in front only
(`Source.ofText?_eq_file_iff`), and so its written form is read as something else
(`Source.ofText?_toText`).
-/

namespace WebSurface.Source

open Text

variable {t p : Text}

/-- What is left of a text is a path, with the word `file:` in front or without. -/
structure NamesPath (t : Text) : Prop where
  ne_nil : t ≠ []
  not_embedded : t.asciiLower ≠ "embedded".toList
  not_http : startsWith "http://".toList t = false
  not_https : startsWith "https://".toList t = false

/-- The path is read as itself when it is written alone. -/
structure Bare (p : Text) : Prop extends NamesPath p where
  trimmed : p.trim = p
  not_file : startsWith "file:".toList p = false

theorem ofText?_eq_file_iff_strip : ofText? t = some (.file p) ↔
    NamesPath t.trim ∧ (strip? "file:".toList t.trim).getD t.trim = p := by
  unfold ofText?
  constructor
  · intro h
    dsimp only at h
    split at h
    · cases h
    rename_i ne_nil
    split at h
    · cases h
    rename_i not_embedded
    split at h
    · cases h
    rename_i not_url
    rw [Bool.or_eq_true, not_or, Bool.not_eq_true, Bool.not_eq_true] at not_url
    refine ⟨⟨?_, ?_, not_url.1, not_url.2⟩, Source.file.inj (Option.some.inj h)⟩
    · exact fun e => ne_nil (List.isEmpty_iff.2 e)
    · exact fun e => not_embedded (beq_iff_eq.2 e)
  · rintro ⟨path, rfl⟩
    dsimp only
    rw [if_neg (mt List.isEmpty_iff.1 path.ne_nil), if_neg (mt beq_iff_eq.1 path.not_embedded),
      path.not_http, path.not_https, Bool.or_self, if_neg Bool.false_ne_true]

theorem namesPath_file (p : Text) : NamesPath ("file:".toList ++ p) where
  ne_nil := List.cons_ne_nil _ _
  not_embedded h := absurd (List.cons.inj h).1 (by decide)
  not_http := rfl
  not_https := rfl

theorem ofText?_eq_file_iff : ofText? t = some (.file p) ↔
    t.trim = "file:".toList ++ p ∨ t.trim = p ∧ Bare p := by
  rw [ofText?_eq_file_iff_strip]
  constructor
  · rintro ⟨path, rfl⟩
    cases h : strip? "file:".toList t.trim with
    | some p => exact .inl (strip?_eq_some_iff.1 h)
    | none =>
      have plain : startsWith "file:".toList t.trim = false := by rw [startsWith, h]; rfl
      exact .inr ⟨rfl, path, trim_trim t, plain⟩
  · rintro (h | ⟨rfl, bare⟩)
    · rw [h, strip?_eq_some_iff.2 rfl]
      exact ⟨namesPath_file p, rfl⟩
    · have absent : strip? "file:".toList t.trim = none := by
        simpa only [startsWith, Option.isSome_eq_false_iff, Option.isNone_iff_eq_none]
          using bare.not_file
      rw [absent]
      exact ⟨bare.toNamesPath, rfl⟩

/-- A path is read as itself exactly if it is bare. -/
theorem ofText?_path_iff : ofText? p = some (.file p) ↔ Bare p := by
  rw [ofText?_eq_file_iff]
  constructor
  · rintro (h | ⟨-, bare⟩)
    · have short := length_trim_le p
      rw [h, List.length_append] at short
      exact absurd short (by simp)
    · exact bare
  · exact fun bare => .inr ⟨bare.trimmed, bare⟩

theorem ofText?_of_url {a : Text} (h : ofText? t = some (.url a)) :
    ofText? a = some (.url a) := by
  have whole : t.trim = a := by
    unfold ofText? at h
    dsimp only at h
    split at h
    · cases h
    split at h
    · cases h
    split at h
    · exact Source.url.inj (Option.some.inj h)
    · cases h
  have again : ofText? t.trim = ofText? t := by
    unfold ofText?
    rw [trim_trim]
  rw [← whole, again, h, whole]

/-- A source that was read is read again from what is written for it, unless it is a path that is
read as something else when it stands alone. Such a path was read from a text with `file:` in front,
and no text without that word is read as the path. -/
theorem ofText?_toText {s : Source} (h : ofText? t = some s) :
    (ofText? s.toText = some s ↔ ∀ p, s = .file p → Bare p) ∧
      ∀ p, s = .file p → ¬Bare p →
        ∀ u, ofText? u = some s ↔ u.trim = "file:".toList ++ p := by
  constructor
  · cases s with
    | embedded => exact iff_of_true (by decide) fun p e => by cases e
    | url a => exact iff_of_true (ofText?_of_url h) fun p e => by cases e
    | file p =>
      refine ofText?_path_iff.trans ⟨fun bare q e => ?_, fun bare => bare p rfl⟩
      exact Source.file.inj e ▸ bare
  · rintro p rfl notBare u
    exact ofText?_eq_file_iff.trans (or_iff_left fun bare => notBare bare.2)

/-- A path that has a word in it like an address, but further on. -/
theorem ofText?_toText_path :
    ofText? " file:a/http://b ".toList = some (.file "a/http://b".toList) ∧
      (Source.file "a/http://b".toList).toText = "a/http://b".toList ∧
      ofText? "a/http://b".toList = some (.file "a/http://b".toList) := by
  have read : ofText? " file:a/http://b ".toList = some (.file "a/http://b".toList) := by decide
  refine ⟨read, rfl, (ofText?_toText read).1.2 ?_⟩
  rintro p e
  rw [← Source.file.inj e]
  exact ofText?_path_iff.1 (by decide)

/-- The path `embedded` is written as the word for the corpus that comes with the program. -/
theorem not_ofText?_toText :
    ofText? "file:embedded".toList = some (.file "embedded".toList) ∧
      ofText? (Source.file "embedded".toList).toText = some .embedded ∧
      ofText? "file:".toList = some (.file []) ∧ ofText? (Source.file []).toText = none ∧
      ¬∀ t s, ofText? t = some s → ofText? s.toText = some s := by
  have read : ofText? "file:".toList = some (.file []) := by decide
  refine ⟨by decide, by decide, read, by decide, fun all => ?_⟩
  exact absurd (all _ _ read) (by decide)

end WebSurface.Source
