import WebSurface.Proofs.Classification
set_option autoImplicit false

/-!
Methods that are listed as pure, in any spelling.

An entry is put in lower case as a whole, and `Owner.method` is compared with it after its two names
were put in lower case on their own. A dot is looked past where it is asked whether a capital sigma
ends a word, so that the two ways differ if a sigma stands at the dot and letters stand on both of
its sides (`Text.sigmaMeets`). `TypeGraph.classify_ofNames` says what comes of that.
-/

namespace WebSurface

namespace Text

/-- The first character of the text that is not looked past is a cased letter; if there is none, the
answer is that for what follows the text. -/
def near (t : Text) (beyond : Bool) : Bool :=
  (t.find? (!isCaseIgnorable ·)).elim beyond isCased

/-- Lower case of a text with or without a cased letter before it, and with or without one after
it. -/
def lowerIn (before after : Bool) : Text → Text
  | [] => []
  | c :: r =>
    (if c = '\u03A3' then [if before && !near r after then '\u03C2' else '\u03C3']
    else lowerChar c) ++ lowerIn (near [c] before) after r

variable {t u : Text} {c : Char} {before after : Bool}

theorem meetsCased_eq (t : Text) : meetsCased t = near t false := by
  induction t with
  | nil => rfl
  | cons c t ih =>
    cases hc : isCaseIgnorable c with
    | true => simpa [meetsCased, near, hc] using ih
    | false => simp [meetsCased, near, hc]

@[simp] theorem near_nil (beyond : Bool) : near [] beyond = beyond := rfl

theorem near_append (t u : Text) (beyond : Bool) :
    near (t ++ u) beyond = near t (near u beyond) := by
  rw [near, near, near, List.find?_append]
  cases t.find? (!isCaseIgnorable ·) <;> rfl

theorem near_ignorable (hc : isCaseIgnorable c) (t : Text) (beyond : Bool) :
    near (c :: t) beyond = near t beyond := by
  simp [near, hc]

theorem near_solid (hc : isCaseIgnorable c = false) (t : Text) (beyond : Bool) :
    near (c :: t) beyond = isCased c := by
  simp [near, hc]

theorem lowerAfter_eq (before t : Text) :
    lowerAfter before t = lowerIn (meetsCased before) false t := by
  induction t generalizing before with
  | nil => rfl
  | cons c t ih =>
    have next : meetsCased (c :: before) = near [c] (meetsCased before) := by
      rw [meetsCased_eq, meetsCased_eq, ← near_append, List.singleton_append]
    rw [lowerAfter, ih, next, lowerIn, ← meetsCased_eq t]

theorem lower_eq (t : Text) : lower t = lowerIn false false t := lowerAfter_eq [] t

theorem lowerIn_append (before after : Bool) (t u : Text) : lowerIn before after (t ++ u) =
    lowerIn before (near u after) t ++ lowerIn (near t.reverse before) after u := by
  induction t generalizing before with
  | nil => rfl
  | cons c t ih =>
    rw [List.cons_append, lowerIn, ih, lowerIn, List.append_assoc, near_append, List.reverse_cons,
      near_append]

theorem length_lowerIn (before after : Bool) (t : Text) :
    (lowerIn before after t).length = (lower t).length := by
  have same (b a b' a' : Bool) : (lowerIn b a t).length = (lowerIn b' a' t).length := by
    induction t generalizing b b' with
    | nil => rfl
    | cons c t ih =>
      rw [lowerIn, lowerIn, List.length_append, List.length_append, ih]
      split <;> rfl
  rw [lower_eq]
  exact same _ _ _ _

def sigmaEnds (t : Text) : Bool :=
  match t.reverse.dropWhile isCaseIgnorable with
  | [] => false
  | c :: r => c == '\u03A3' && meetsCased r

def sigmaBegins (t : Text) : Bool :=
  match t.dropWhile isCaseIgnorable with
  | [] => false
  | c :: r => c == '\u03A3' && !meetsCased r

theorem not_isCaseIgnorable {c : Char} (hc : c ∈ "ASxΣ".toList) : isCaseIgnorable c = false := by
  have plain : ∀ c ∈ "ASxΣ".toList, "'.:^\x60".toList.contains c = false := by decide
  have outside : ∀ n ∈ "ASxΣ".toList.map Char.toNat,
      (caseIgnorableRanges.toList.any fun r => r.1 ≤ n && n ≤ r.2) = false := by
    show ∀ n ∈ [65, 83, 120, 931], _
    decide +kernel
  rw [isCaseIgnorable, inRanges, ← Array.any_toList, plain c hc,
    outside c.toNat (List.mem_map_of_mem hc)]
  rfl

theorem lowerIn_singleton_ignorable (hc : isCaseIgnorable c) :
    lowerIn before after [c] = lowerChar c := by
  have other : c ≠ '\u03A3' := by
    rintro rfl
    rw [not_isCaseIgnorable (by decide)] at hc
    cases hc
  simp [lowerIn, other]

theorem sigmaEnds_concat (t : Text) (c : Char) : sigmaEnds (t ++ [c]) =
    if isCaseIgnorable c then sigmaEnds t else c == '\u03A3' && meetsCased t.reverse := by
  cases hc : isCaseIgnorable c <;> simp [sigmaEnds, hc]

theorem sigmaBegins_cons (c : Char) (t : Text) : sigmaBegins (c :: t) =
    if isCaseIgnorable c then sigmaBegins t else c == '\u03A3' && !meetsCased t := by
  cases hc : isCaseIgnorable c <;> simp [sigmaBegins, hc]

/-- What follows a text matters for a sigma at its end, if for anything. -/
theorem lowerIn_after_eq_iff (t : Text) :
    lowerIn false true t = lowerIn false false t ↔ sigmaEnds t = false := by
  induction t using List.reverseRecOn with
  | nil => simp [lowerIn, sigmaEnds]
  | append_singleton t c ih =>
    rw [lowerIn_append, lowerIn_append, sigmaEnds_concat]
    cases hc : isCaseIgnorable c with
    | true =>
      rw [near_ignorable hc, near_ignorable hc, lowerIn_singleton_ignorable hc,
        lowerIn_singleton_ignorable hc, List.append_left_inj]
      exact ih
    | false =>
      rw [near_solid hc, near_solid hc, List.append_right_inj]
      by_cases sigma : c = '\u03A3'
      · cases before : near t.reverse false <;> simp [lowerIn, sigma, meetsCased_eq, before]
      · simp [lowerIn, sigma]

theorem lowerIn_before_eq_iff (t : Text) :
    lowerIn true false t = lowerIn false false t ↔ sigmaBegins t = false := by
  induction t with
  | nil => simp [lowerIn, sigmaBegins]
  | cons c t ih =>
    rw [sigmaBegins_cons, ← List.singleton_append, lowerIn_append, lowerIn_append,
      List.reverse_singleton]
    cases hc : isCaseIgnorable c with
    | true =>
      rw [near_ignorable hc, near_ignorable hc, lowerIn_singleton_ignorable hc,
        lowerIn_singleton_ignorable hc, List.append_right_inj]
      exact ih
    | false =>
      rw [near_solid hc, near_solid hc, List.append_left_inj]
      by_cases sigma : c = '\u03A3'
      · cases after : near t false <;> simp [lowerIn, sigma, meetsCased_eq, after]
      · simp [lowerIn, sigma]

/-- A capital sigma stands at the dot between the texts, and letters stand on both of its sides,
one of them beyond the dot. -/
def sigmaMeets (t u : Text) : Bool :=
  sigmaEnds t && meetsCased u || sigmaBegins u && meetsCased t.reverse

theorem isCaseIgnorable_dot : isCaseIgnorable '.' := rfl

theorem sigmaMeets_latin : sigmaMeets ['A', 'S'] ['x'] = false := by
  have ends : sigmaEnds (['A'] ++ ['S']) = false := by
    rw [sigmaEnds_concat, not_isCaseIgnorable (by decide)]
    rfl
  have begins : sigmaBegins ['x'] = false := by
    rw [sigmaBegins_cons, not_isCaseIgnorable (by decide)]
    rfl
  rw [sigmaMeets, begins, show ['A', 'S'] = ['A'] ++ ['S'] from rfl, ends]
  rfl

theorem sigmaMeets_greek : sigmaMeets ['A', '\u03A3'] ['x'] := by
  have letter {c : Char} (hc : c ∈ "ASxΣ".toList) : meetsCased [c] = isCased c := by
    rw [meetsCased_eq, near_solid (not_isCaseIgnorable hc)]
  have ends : sigmaEnds (['A'] ++ ['\u03A3']) = true := by
    rw [sigmaEnds_concat, not_isCaseIgnorable (by decide), List.reverse_singleton,
      letter (by decide)]
    rfl
  rw [sigmaMeets, letter (by decide), show ['A', '\u03A3'] = ['A'] ++ ['\u03A3'] from rfl, ends]
  rfl

theorem lowerChar_final : lowerChar '\u03C2' = ['\u03C2'] := by
  have code : Char.toNat '\u03C2' = 962 := rfl
  rw [lowerChar, code]
  decide +kernel

theorem lower_greek : lower ['A', '\u03A3'] = ['a', '\u03C2'] := by
  have letter : meetsCased ['A'] = true := by
    rw [meetsCased_eq, near_solid (not_isCaseIgnorable (by decide))]
    rfl
  rw [lower, lowerAfter, lowerAfter, letter]
  rfl

theorem lower_final : lower ['a', '\u03C2', '.', 'x'] = ['a', '\u03C2', '.', 'x'] := by
  rw [lower, lowerAfter, lowerAfter, if_neg (by decide), if_neg (by decide), lowerChar_final]
  rfl

theorem lower_qualified (t u : Text) : lower (t ++ '.' :: u) =
    lowerIn false (meetsCased u) t ++ '.' :: lowerIn (meetsCased t.reverse) false u := by
  have dot (before after : Bool) : lowerIn before after ['.'] = ['.'] :=
    lowerIn_singleton_ignorable isCaseIgnorable_dot
  rw [lower_eq, lowerIn_append, near_ignorable isCaseIgnorable_dot, ← meetsCased_eq,
    ← meetsCased_eq, ← List.singleton_append (l := u), lowerIn_append, dot, List.reverse_singleton,
    near_ignorable isCaseIgnorable_dot, near_nil]
  rfl

/-- A qualified name and its two parts have the same lower case unless a sigma meets letters. -/
theorem lower_qualified_eq_iff (t u : Text) :
    lower (t ++ '.' :: u) = lower t ++ '.' :: lower u ↔ sigmaMeets t u = false := by
  have first : lowerIn false (meetsCased u) t = lower t ↔
      (sigmaEnds t && meetsCased u) = false := by
    rw [lower_eq]
    cases meetsCased u with
    | false => simp
    | true => rw [lowerIn_after_eq_iff, Bool.and_true]
  have second : lowerIn (meetsCased t.reverse) false u = lower u ↔
      (sigmaBegins u && meetsCased t.reverse) = false := by
    rw [lower_eq]
    cases meetsCased t.reverse with
    | false => simp
    | true => rw [lowerIn_before_eq_iff, Bool.and_true]
  rw [lower_qualified, sigmaMeets, Bool.or_eq_false_iff, ← first, ← second]
  constructor
  · intro h
    obtain ⟨hl, hr⟩ := List.append_inj h (length_lowerIn false _ t)
    exact ⟨hl, (List.cons.inj hr).2⟩
  · rintro ⟨hl, hr⟩
    rw [hl, hr]

theorem length_lower_qualified (t u : Text) :
    (lower (t ++ '.' :: u)).length = (lower t).length + (lower u).length + 1 := by
  rw [lower_qualified, List.length_append, List.length_cons, length_lowerIn, length_lowerIn]
  rfl

end Text

namespace Bridging

variable {space : Option Text} {names : List Text} {owner method : Text}

theorem isListed_ofNames : (ofNames space names).isListed owner method ↔
    ∃ e ∈ names, e.lower = method.lower ∨ e.lower = owner.lower ++ '.' :: method.lower := by
  simp only [isListed, ofNames, Bool.or_eq_true, List.elem_iff, List.mem_map, List.append_assoc,
    List.singleton_append, ← exists_or, ← and_or_left]

theorem isListed_iff_of_apart (apart : Text.sigmaMeets owner method = false) :
    (ofNames space names).isListed owner method ↔
      ∃ e ∈ names, e.lower = method.lower ∨ e.lower = (owner ++ '.' :: method).lower := by
  rw [isListed_ofNames, (Text.lower_qualified_eq_iff owner method).2 apart]

theorem isListed_qualified_iff : (ofNames space [owner ++ '.' :: method]).isListed owner method ↔
    Text.sigmaMeets owner method = false := by
  have longer : (owner ++ '.' :: method).lower ≠ method.lower := fun same => by
    have length := congrArg List.length same
    rw [Text.length_lower_qualified] at length
    omega
  rw [isListed_ofNames, ← Text.lower_qualified_eq_iff]
  simp [longer]

end Bridging

namespace TypeGraph

theorem classify_unlisted {d : Declarations} {space : Option Text} {names : List Text}
    {owner : Text} {m : Method} {g : TypeGraph}
    (h : ¬(Bridging.ofNames space names).isListed owner m.name) :
    classify d (.ofNames space names) owner m g = classify d (.ofNames space []) owner m g := by
  have empty : ¬(Bridging.ofNames space []).isListed owner m.name := by
    simp [Bridging.isListed_ofNames]
  rw [classify, classify, if_neg h, if_neg empty]
  rfl

/-- An entry in the spelling of the declaration takes effect, be it the name of the method or its
qualified name, and entries that differ from both have none, unless a capital sigma meets letters at
the dot: then the qualified name is not found, and another one would be. -/
theorem classify_ofNames (d : Declarations) (space : Option Text) (names : List Text) (owner : Text)
    (m : Method) (g : TypeGraph) :
    let classified (names : List Text) := classify d (.ofNames space names) owner m g
    (m.name ∈ names → classified names = (.direct m.name, g)) ∧
    (Text.sigmaMeets owner m.name = false →
      (owner ++ '.' :: m.name ∈ names → classified names = (.direct m.name, g)) ∧
      ((∀ e ∈ names, e.lower ≠ m.name.lower ∧ e.lower ≠ (owner ++ '.' :: m.name).lower) →
        classified names = classified [])) ∧
    (Text.sigmaMeets owner m.name →
      classified [owner ++ '.' :: m.name] = classified [] ∧
      ∀ e ∈ names, e.lower = owner.lower ++ '.' :: m.name.lower →
        e.lower ≠ (owner ++ '.' :: m.name).lower ∧ classified names = (.direct m.name, g)) := by
  intro classified
  have listed {names : List Text} (h : (Bridging.ofNames space names).isListed owner m.name) :
      classified names = (.direct m.name, g) := classify_listed h
  refine ⟨fun h => listed ?_, fun apart => ⟨fun h => listed ?_, fun h => classify_unlisted ?_⟩,
    fun meets => ⟨classify_unlisted ?_, fun e he glued => ⟨fun same => ?_, listed ?_⟩⟩⟩
  · exact Bridging.isListed_ofNames.2 ⟨_, h, .inl rfl⟩
  · exact (Bridging.isListed_iff_of_apart apart).2 ⟨_, h, .inr rfl⟩
  · rintro found
    obtain ⟨e, he, same | same⟩ := (Bridging.isListed_iff_of_apart apart).1 found
    · exact (h e he).1 same
    · exact (h e he).2 same
  · rw [Bridging.isListed_qualified_iff, meets]
    simp
  · have apart := (Text.lower_qualified_eq_iff owner m.name).1 (same.symm.trans glued)
    rw [meets] at apart
    cases apart
  · exact Bridging.isListed_ofNames.2 ⟨e, he, .inr glued⟩

/-- An owner without a sigma and one that ends in one. -/
theorem classify_ofNames_sigma :
    let p : Parameter := ⟨['f'], "() => void".toList, false, false⟩
    let m : Method := ⟨['x'], [p], "void".toList, false, none⟩
    let g : TypeGraph := .ofRoot ⟨"AΣ".toList, [], .empty, .ofList [m], none⟩
    let classified (owner : String) (names : List String) :=
      classify (.ofText []) (.ofNames none (names.map String.toList)) owner.toList m g
    classified "AS" ["AS.x"] = (.direct ['x'], g) ∧
      classified "AS" ["as", "A.x"] = classified "AS" [] ∧
      classified "AΣ" ["AΣ.x"] = classified "AΣ" [] := by
  intro p m g classified
  have rule (owner : String) (names : List String) :=
    classify_ofNames (.ofText []) none (names.map String.toList) owner.toList m g
  refine ⟨((rule "AS" _).2.1 Text.sigmaMeets_latin).1 (List.mem_singleton_self _),
    ((rule "AS" _).2.1 Text.sigmaMeets_latin).2 (by decide),
    ((rule "AΣ" []).2.2 Text.sigmaMeets_greek).1⟩

/-- The sigma is a final one in `AΣ` and none in `AΣ.x`, so that the method is not found under its
own qualified name, but under one that is spelled in another way. -/
theorem not_classify_ofNames :
    let p : Parameter := ⟨['f'], "() => void".toList, false, false⟩
    let m : Method := ⟨['x'], [p], "void".toList, false, none⟩
    let g : TypeGraph := .ofRoot ⟨"AΣ".toList, [], .empty, .ofList [m], none⟩
    let classified (names : List Text) :=
      classify (.ofText []) (.ofNames none names) "AΣ".toList m g
    (classified ["AΣ.x".toList]).1.isPure = false ∧
      Text.lower "aς.x".toList ≠ m.name.lower ∧
      Text.lower "aς.x".toList ≠ Text.lower "AΣ.x".toList ∧
      (classified ["aς.x".toList]).1.isPure ∧ (classified []).1.isPure = false := by
  intro p m g classified
  have bridged : (classified []).1.isPure = false := by decide +kernel
  have meets : Text.sigmaMeets "AΣ".toList m.name := Text.sigmaMeets_greek
  have unlisted : ¬(Bridging.ofNames none ["AΣ".toList ++ '.' :: m.name]).isListed
      "AΣ".toList m.name := by
    rw [Bridging.isListed_qualified_iff, meets]
    simp
  have glued : Text.lower "aς.x".toList = Text.lower "AΣ".toList ++ '.' :: m.name.lower := by
    rw [show Text.lower "AΣ".toList = _ from Text.lower_greek]
    exact Text.lower_final
  have listed : (Bridging.ofNames none ["aς.x".toList]).isListed "AΣ".toList m.name :=
    Bridging.isListed_ofNames.2 ⟨_, List.mem_singleton_self _, .inr glued⟩
  refine ⟨?_, ?_, fun same => ?_, ?_, bridged⟩
  · rw [show classified ["AΣ.x".toList] = classified [] from classify_unlisted unlisted]
    exact bridged
  · rw [show Text.lower "aς.x".toList = _ from Text.lower_final]
    exact fun same => absurd (congrArg List.length same) (by decide)
  · have apart := (Text.lower_qualified_eq_iff "AΣ".toList m.name).1 (same.symm.trans glued)
    rw [meets] at apart
    cases apart
  · rw [show classified ["aς.x".toList] = (.direct m.name, g) from classify_listed listed]
    rfl

end TypeGraph

end WebSurface
