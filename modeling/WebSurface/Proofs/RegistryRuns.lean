import WebSurface.Corpus.Registry
import WebSurface.Proofs.NameTable
set_option autoImplicit false

/-!
Runs of a registry.

A run is a sequence of calls on a registry that is empty at first. Whatever the loader answers, it
is called for a key until it succeeds and never again, and what a run says of one key is what its
calls for this key say by themselves (`Registry.lawful_play`).
-/

namespace WebSurface.Registry

structure Call where
  source : Source
  orEmpty : Bool
  deriving DecidableEq, Repr

inductive Reply where
  | result (result : Except Unavailable Index)
  | resultOrEmpty (index : Index) (fault? : Option Unavailable)

/-- The index that was asked for, not one in its place. -/
def Reply.index? : Reply → Option Index
  | .result (.ok index) => some index
  | .resultOrEmpty index none => some index
  | _ => none

def Reply.fault? : Reply → Option Unavailable
  | .result (.error u) => some u
  | .resultOrEmpty _ fault? => fault?
  | _ => none

/-- A call of a run: how the loader was called meanwhile, and what the call returned. -/
structure Event where
  call : Call
  asked : List (Source × Except LoadFault Text)
  reply : Reply

namespace Event

def key (e : Event) : Text := e.call.source.key

def fails (e : Event) : Bool := e.reply.fault?.isSome

end Event

section Run

variable {m : Type → Type} [Monad m] (fetch : Source → m (Except LoadFault Text))

/-- A loader whose calls are written down with their answers. -/
def noted (source : Source) :
    StateT (List (Source × Except LoadFault Text)) m (Except LoadFault Text) := do
  let answer ← fetch source
  modify (· ++ [(source, answer)])
  return answer

namespace Call

def reply (c : Call) (r : Registry) : m (Reply × Registry) :=
  if c.orEmpty then do
    let ((index, fault?), r) ← r.loadOrEmpty fetch c.source
    return (.resultOrEmpty index fault?, r)
  else do
    let (result, r) ← r.load fetch c.source
    return (.result result, r)

def perform (c : Call) (r : Registry) : m (Event × Registry) := do
  let ((reply, r), asked) ← (c.reply (noted fetch) r).run []
  return (⟨c, asked, reply⟩, r)

end Call

def play : List Call → Registry → m (List Event × Registry)
  | [], r => return ([], r)
  | c :: cs, r => do
    let (e, r) ← c.perform fetch r
    let (es, r) ← play cs r
    return (e :: es, r)

end Run

/-- What happens in a run and the registry after it. At each call the loader may answer anything. -/
inductive Run : List Event → Registry → Prop
  | start : Run [] .empty
  | call {es : List Event} {r r' : Registry} {c : Call} {answer : Except LoadFault Text}
      {e : Event} :
      Run es r → c.perform (m := Id) (fun _ => answer) r = (e, r') → Run (es ++ [e]) r'

namespace Call

def found (c : Call) (index : Index) : Reply :=
  if c.orEmpty then .resultOrEmpty index none else .result (.ok index)

def missing (c : Call) (u : Unavailable) : Reply :=
  if c.orEmpty then .resultOrEmpty (.empty c.source.key) (some u) else .result (.error u)

def told (c : Call) : Except LoadFault Text → Reply
  | .ok corpus => c.found (.build c.source.key corpus)
  | .error reason => c.missing ⟨c.source.key, reason⟩

variable {m : Type → Type} [Monad m] [LawfulMonad m] {c : Call} {r : Registry}

theorem perform_loaded (fetch : Source → m (Except LoadFault Text)) {index : Index}
    (h : r.loaded.get? c.source.key = some index) :
    c.perform fetch r = pure (⟨c, [], c.found index⟩, r) := by
  obtain ⟨source, orEmpty⟩ := c
  cases orEmpty <;> simp [perform, reply, load, loadOrEmpty, h, found]

theorem perform_absent (fetch : Source → m (Except LoadFault Text))
    (h : r.loaded.get? c.source.key = none) :
    c.perform fetch r = do
      let answer ← fetch c.source
      return (⟨c, [(c.source, answer)], c.told answer⟩, (r.record c.source.key answer).2) := by
  have asked : (r.load (noted fetch) c.source).run [] = do
      let answer ← fetch c.source
      return (r.record c.source.key answer, [(c.source, answer)]) := by
    simp [load, h, noted]
  obtain ⟨source, orEmpty⟩ := c
  cases orEmpty with
  | false =>
    simp only [perform, reply, Bool.false_eq_true, if_false, StateT.run_bind, asked, bind_assoc,
      pure_bind, StateT.run_pure]
    refine bind_congr fun answer => ?_
    cases answer <;> rfl
  | true =>
    simp only [perform, reply, loadOrEmpty, if_true, StateT.run_bind, asked, bind_assoc, pure_bind]
    refine bind_congr fun answer => ?_
    cases answer <;> simp only [record, StateT.run_pure, pure_bind, told, found, missing, if_true]

end Call

inductive Step (r : Registry) : Event → Registry → Prop
  | finds {c : Call} {index : Index} : r.loaded.get? c.source.key = some index →
      Step r ⟨c, [], c.found index⟩ r
  | loads {c : Call} {corpus : Text} : r.loaded.get? c.source.key = none →
      Step r ⟨c, [(c.source, .ok corpus)], c.found (.build c.source.key corpus)⟩
        ⟨r.loaded.put (c.source.key, .build c.source.key corpus),
          r.fetches.put (c.source.key, r.fetchCount c.source.key + 1)⟩
  | fails {c : Call} {reason : LoadFault} : r.loaded.get? c.source.key = none →
      Step r ⟨c, [(c.source, .error reason)], c.missing ⟨c.source.key, reason⟩⟩
        { r with fetches := r.fetches.put (c.source.key, r.fetchCount c.source.key + 1) }

theorem step_iff {r r' : Registry} {e : Event} : Step r e r' ↔
    ∃ c answer, Call.perform (m := Id) (fun _ => answer) c r = (e, r') := by
  constructor
  · intro h
    cases h with
    | finds h => exact ⟨_, .ok [], Call.perform_loaded _ h⟩
    | loads h => exact ⟨_, .ok _, Call.perform_absent _ h⟩
    | fails h => exact ⟨_, .error _, Call.perform_absent _ h⟩
  · rintro ⟨c, answer, h⟩
    cases hr : r.loaded.get? c.source.key with
    | some index =>
      have performed := Call.perform_loaded (m := Id) (fun _ => answer) hr
      obtain ⟨rfl, rfl⟩ := Prod.mk.inj (performed.symm.trans h)
      exact .finds hr
    | none =>
      have performed := Call.perform_absent (m := Id) (fun _ => answer) hr
      obtain ⟨rfl, rfl⟩ := Prod.mk.inj (performed.symm.trans h)
      cases answer with
      | ok corpus => exact .loads hr
      | error reason => exact .fails hr

@[simp] theorem Call.index?_found (c : Call) (index : Index) :
    (c.found index).index? = some index := by
  unfold found
  split <;> rfl

@[simp] theorem Call.index?_missing (c : Call) (u : Unavailable) : (c.missing u).index? = none := by
  unfold missing
  split <;> rfl

@[simp] theorem Call.fault?_found (c : Call) (index : Index) : (c.found index).fault? = none := by
  unfold found
  split <;> rfl

@[simp] theorem Call.fault?_missing (c : Call) (u : Unavailable) :
    (c.missing u).fault? = some u := by
  unfold missing
  split <;> rfl

theorem isLoaded_eq (r : Registry) (k : Text) : r.isLoaded k = (r.loaded.get? k).isSome := by
  rw [Bool.eq_iff_iff, Option.isSome_iff_exists, ← NameTable.mem_keys_iff, isLoaded, Keyed.contains]
  simp

namespace Step

variable {r r' : Registry} {e : Event} (h : Step r e r')

include h

theorem get?_loaded (k : Text) :
    r'.loaded.get? k = if k = e.key then e.reply.index? else r.loaded.get? k := by
  cases h with
  | finds hr =>
    split
    · rename_i hk
      rw [hk, Event.key, hr, Call.index?_found]
    · rfl
  | loads hr => rw [NameTable.get?_put, Call.index?_found]; rfl
  | fails hr =>
    split
    · rename_i hk
      rw [hk, Event.key, hr, Call.index?_missing]
    · rfl

theorem fetchCount_eq (k : Text) :
    r'.fetchCount k = r.fetchCount k + e.asked.countP (·.1.key == k) := by
  have put (key : Text) :
      (NameTable.get? (r.fetches.put (key, r.fetchCount key + 1)) k).getD 0 =
        r.fetchCount k + if key = k then 1 else 0 := by
    rw [NameTable.get?_put]
    split
    · rename_i hk
      rw [if_pos hk.symm, hk]
      rfl
    · rename_i hk
      rw [if_neg (Ne.symm hk)]
      rfl
  cases h with
  | finds => rfl
  | loads => simpa [fetchCount, List.countP_singleton] using put _
  | fails => simpa [fetchCount, List.countP_singleton] using put _

theorem reply_of_loaded {index : Index} (hr : r.loaded.get? e.key = some index) :
    e.reply = e.call.found index ∧ e.asked = [] := by
  cases h with
  | finds hr' =>
    rw [Option.some.inj (hr'.symm.trans hr)]
    exact ⟨rfl, rfl⟩
  | loads hr' => cases hr'.symm.trans hr
  | fails hr' => cases hr'.symm.trans hr

theorem reply_of_absent (hr : r.loaded.get? e.key = none) :
    ∃ answer, e.asked = [(e.call.source, answer)] ∧ e.reply = e.call.told answer := by
  cases h with
  | finds hr' => cases hr'.symm.trans hr
  | loads => exact ⟨_, rfl, rfl⟩
  | fails => exact ⟨_, rfl, rfl⟩

theorem reply_of_fails (hf : e.fails) : r.loaded.get? e.key = none ∧
    ∃ reason, e.asked = [(e.call.source, .error reason)] ∧
      e.reply = e.call.missing ⟨e.key, reason⟩ := by
  cases h with
  | finds => simp [Event.fails] at hf
  | loads => simp [Event.fails] at hf
  | fails hr => exact ⟨hr, _, rfl, rfl⟩

/-- On another registry that says the same of the key the call does the same. -/
theorem again {s : Registry} (hl : s.loaded.get? e.key = r.loaded.get? e.key) :
    ∃ s', Step s e s' := by
  cases h with
  | finds hr => exact ⟨_, .finds (hl.trans hr)⟩
  | loads hr => exact ⟨_, .loads (hl.trans hr)⟩
  | fails hr => exact ⟨_, .fails (hl.trans hr)⟩

theorem key_of_mem_asked {q : Source × Except LoadFault Text} (hq : q ∈ e.asked) :
    q.1.key = e.key := by
  cases h with
  | finds => cases hq
  | loads => rw [List.mem_singleton.1 hq]; rfl
  | fails => rw [List.mem_singleton.1 hq]; rfl

theorem countP_asked (k : Text) :
    e.asked.countP (·.1.key == k) = if e.key = k then e.asked.length else 0 := by
  split
  · rename_i hk
    refine List.countP_eq_length.2 fun q hq => ?_
    rw [key_of_mem_asked h hq, hk, beq_self_eq_true]
  · rename_i hk
    refine List.countP_eq_zero.2 fun q hq => ?_
    rwa [key_of_mem_asked h hq, beq_iff_eq]

theorem fetchCount_add (k : Text) :
    r'.fetchCount k + (r.isLoaded k).toNat =
      r.fetchCount k + (e.key == k && e.fails).toNat + (r'.isLoaded k).toNat := by
  have index := h.get?_loaded k
  rw [h.fetchCount_eq, h.countP_asked, isLoaded_eq, isLoaded_eq, index]
  by_cases hk : e.key = k
  · subst hk
    cases h with
    | finds hr => simp [Event.key, Event.fails, hr]
    | loads hr => simp [Event.key, Event.fails, hr]
    | fails hr => simp [Event.key, Event.fails, hr]
  · simp [hk, Ne.symm hk]

theorem isSome_index? : e.reply.index?.isSome = !e.fails := by
  cases h <;> simp [Event.fails]

theorem found_of_index? {index : Index} (hi : e.reply.index? = some index) :
    e.reply = e.call.found index := by
  cases h with
  | fails => simp at hi
  | _ =>
    rw [Call.index?_found] at hi
    rw [Option.some.inj hi]

end Step

namespace Run

variable {es : List Event} {r r' : Registry} {e : Event}

theorem snoc (h : Run es r) (he : Step r e r') : Run (es ++ [e]) r' := by
  obtain ⟨c, answer, hc⟩ := step_iff.1 he
  exact .call h hc

/-- What holds at first and is kept by each call holds after each run. -/
@[elab_as_elim]
theorem induct {motive : (es : List Event) → (r : Registry) → Run es r → Prop}
    (start : motive [] .empty .start)
    (step : ∀ es r e r' (h : Run es r) (he : Step r e r'), motive es r h →
      motive (es ++ [e]) r' (h.snoc he)) {es : List Event} {r : Registry} (h : Run es r) :
    motive es r h := by
  induction h with
  | start => exact start
  | call hr hc ih => exact step _ _ _ _ hr (step_iff.2 ⟨_, _, hc⟩) ih

/-- An index is kept exactly if a call for its key has returned it. -/
theorem get?_loaded (h : Run es r) {k : Text} {index : Index} :
    r.loaded.get? k = some index ↔ ∃ e ∈ es, e.key = k ∧ e.reply.index? = some index := by
  induction h using induct with
  | start => simp [Registry.empty]
  | step es r e r' _ he ih =>
    simp only [he.get?_loaded, List.mem_append, List.mem_singleton, or_and_right, exists_or,
      exists_eq_left]
    by_cases hk : k = e.key
    · rw [if_pos hk, ← ih, hk]
      refine ⟨fun hi => .inr ⟨rfl, hi⟩, ?_⟩
      rintro (hr | ⟨-, hi⟩)
      · rw [(he.reply_of_loaded hr).1, Call.index?_found]
      · exact hi
    · rw [if_neg hk, ih]
      exact ⟨.inl, fun h => h.resolve_right fun h => hk h.1.symm⟩

theorem exists_step (h : Run es r) (he : e ∈ es) : ∃ r r', Step r e r' := by
  induction h using induct with
  | start => cases he
  | step es r d r' _ hd ih =>
    rcases List.mem_append.1 he with he | he
    · exact ih he
    · exact List.mem_singleton.1 he ▸ ⟨r, r', hd⟩

theorem get?_loaded_eq_none (h : Run es r) {k : Text} :
    r.loaded.get? k = none ↔ ∀ e ∈ es, e.key = k → e.fails := by
  rw [Option.eq_none_iff_forall_ne_some]
  constructor
  · intro hr e he hk
    obtain ⟨s, s', hs⟩ := h.exists_step he
    have some := hs.isSome_index?
    cases hf : e.fails with
    | true => rfl
    | false =>
      rw [hf, Bool.not_false, Option.isSome_iff_exists] at some
      obtain ⟨index, hi⟩ := some
      exact absurd (h.get?_loaded.2 ⟨e, he, hk, hi⟩) (hr index)
  · intro hall index hr
    obtain ⟨e, he, hk, hi⟩ := h.get?_loaded.1 hr
    obtain ⟨s, s', hs⟩ := h.exists_step he
    have some := hs.isSome_index?
    rw [hi, hall e he hk] at some
    cases some

theorem isLoaded_iff (h : Run es r) {k : Text} :
    r.isLoaded k ↔ ∃ e ∈ es, e.key = k ∧ e.fails = false := by
  rw [isLoaded_eq, Option.isSome_iff_ne_none, ne_eq, h.get?_loaded_eq_none]
  simp

theorem fetchCount_asked (h : Run es r) (k : Text) :
    r.fetchCount k = (es.flatMap Event.asked).countP (·.1.key == k) := by
  induction h using induct with
  | start => rfl
  | step es r e r' _ he ih => simp [he.fetchCount_eq, ih]

theorem fetchCount_fails (h : Run es r) (k : Text) :
    r.fetchCount k = es.countP (fun e => e.key == k && e.fails) + (r.isLoaded k).toNat := by
  induction h using induct with
  | start => rfl
  | step es r e r' _ he ih =>
    have add := he.fetchCount_add k
    have failed : [e].countP (fun e => e.key == k && e.fails) = (e.key == k && e.fails).toNat := by
      cases hf : (e.key == k && e.fails) <;> simp [hf]
    rw [List.countP_append, failed]
    omega

/-- A call after one that did not fail returns the same index, and the loader is not called. -/
theorem kept (h : Run es r) : es.Pairwise fun d e => e.key = d.key → d.fails = false →
    ∃ index, d.reply = d.call.found index ∧ e.reply = e.call.found index ∧ e.asked = [] := by
  induction h using induct with
  | start => exact .nil
  | step es r e r' hr he ih =>
    refine List.pairwise_append.2 ⟨ih, List.pairwise_singleton _ _, fun d hd e' he' hk hf => ?_⟩
    obtain rfl := List.mem_singleton.1 he'
    obtain ⟨s, s', hs⟩ := hr.exists_step hd
    have some := hs.isSome_index?
    rw [hf, Bool.not_false, Option.isSome_iff_exists] at some
    obtain ⟨index, hi⟩ := some
    have loaded := hr.get?_loaded.2 ⟨d, hd, hk.symm, hi⟩
    exact ⟨index, hs.found_of_index? hi, he.reply_of_loaded loaded⟩

/-- As long as the calls for a key fail the next one calls the loader. -/
theorem retried (h : Run es r) {before : List Event} (hb : before ++ [e] <+: es)
    (hf : ∀ d ∈ before, d.key = e.key → d.fails) :
    ∃ answer, e.asked = [(e.call.source, answer)] ∧ e.reply = e.call.told answer := by
  induction h using induct with
  | start => simp at hb
  | step es r d r' hr hd ih =>
    rcases List.prefix_concat_iff.1 hb with hb | hb
    · obtain ⟨rfl, hde⟩ := List.append_inj' hb rfl
      obtain rfl := List.singleton_inj.1 hde
      exact hd.reply_of_absent (hr.get?_loaded_eq_none.2 hf)
    · exact ih hb

theorem failed (h : Run es r) (he : e ∈ es) (hf : e.fails) : ∃ reason,
    e.asked = [(e.call.source, .error reason)] ∧ e.reply = e.call.missing ⟨e.key, reason⟩ := by
  obtain ⟨s, s', hs⟩ := h.exists_step he
  exact (hs.reply_of_fails hf).2

theorem unloaded (h : Run es r) (he : e ∈ es.getLast?) (hf : e.fails) :
    r.isLoaded e.key = false := by
  induction h using induct with
  | start => cases he
  | step es r d r' hr hd _ =>
    rw [List.getLast?_concat, Option.mem_some] at he
    subst he
    obtain ⟨-, reason, -, missing⟩ := hd.reply_of_fails hf
    rw [isLoaded_eq, hd.get?_loaded, if_pos rfl, missing, Call.index?_missing]
    rfl

/-- What a registry says of a key are the calls for this key. -/
theorem alone (h : Run es r) (k : Text) : ∃ r', Run (es.filter (·.key == k)) r' ∧
    r'.fetchCount k = r.fetchCount k ∧ r'.loaded.get? k = r.loaded.get? k := by
  induction h using induct with
  | start => exact ⟨.empty, .start, rfl, rfl⟩
  | step es r e r' _ he ih =>
    obtain ⟨s, hs, count, index⟩ := ih
    by_cases hk : e.key = k
    · obtain ⟨s', hs'⟩ := he.again (s := s) (by rw [hk, index])
      refine ⟨s', ?_, ?_, ?_⟩
      · simpa [hk] using hs.snoc hs'
      · rw [hs'.fetchCount_eq, he.fetchCount_eq, count]
      · rw [hs'.get?_loaded, he.get?_loaded, index]
    · refine ⟨s, ?_, ?_, ?_⟩
      · simpa [hk] using hs
      · rw [he.fetchCount_eq, he.countP_asked, if_neg hk, count, Nat.add_zero]
      · rw [he.get?_loaded, if_neg (Ne.symm hk), index]

end Run

/-- What every run from the empty registry obeys. -/
structure Lawful (es : List Event) (r : Registry) : Prop where
  asked : ∀ k, r.fetchCount k = (es.flatMap Event.asked).countP (·.1.key == k)
  failures : ∀ k,
    r.fetchCount k = es.countP (fun e => e.key == k && e.fails) + if r.isLoaded k then 1 else 0
  loaded : ∀ k, r.isLoaded k ↔ ∃ e ∈ es, e.key = k ∧ e.fails = false
  /-- After the first success the loader is not called, and the index is the same. -/
  kept : es.Pairwise fun d e => e.key = d.key → d.fails = false →
    ∃ index, d.reply = d.call.found index ∧ e.reply = e.call.found index ∧ e.asked = []
  /-- Before the first success each call calls the loader, once. -/
  retried : ∀ before e, before ++ [e] <+: es → (∀ d ∈ before, d.key = e.key → d.fails) →
    ∃ answer, e.asked = [(e.call.source, answer)] ∧ e.reply = e.call.told answer
  failed : ∀ e ∈ es, e.fails → ∃ reason,
    e.asked = [(e.call.source, .error reason)] ∧ e.reply = e.call.missing ⟨e.key, reason⟩
  unloaded : ∀ e ∈ es.getLast?, e.fails → r.isLoaded e.key = false
  /-- The calls for one key, with the same answers of the loader, make a run that is the same. -/
  alone : ∀ k, ∃ r', Run (es.filter (·.key == k)) r' ∧
    r'.fetchCount k = r.fetchCount k ∧ r'.loaded.get? k = r.loaded.get? k

theorem Run.lawful {es : List Event} {r : Registry} (h : Run es r) : Lawful es r where
  asked := h.fetchCount_asked
  failures k := by
    rw [h.fetchCount_fails]
    cases r.isLoaded k <;> rfl
  loaded _ := h.isLoaded_iff
  kept := h.kept
  retried _ _ := h.retried
  failed _ := h.failed
  unloaded _ := h.unloaded
  alone := h.alone

section Play

variable {σ : Type} (fetch : Source → StateM σ (Except LoadFault Text))

theorem exists_perform (c : Call) (r : Registry) (s : σ) : ∃ e r' s', e.call = c ∧
    (c.perform fetch r).run s = ((e, r'), s') ∧ Step r e r' := by
  cases hr : r.loaded.get? c.source.key with
  | some index =>
    rw [Call.perform_loaded fetch hr]
    exact ⟨_, _, _, rfl, rfl, .finds hr⟩
  | none =>
    rw [Call.perform_absent fetch hr]
    cases hanswer : (fetch c.source).run s with
    | mk answer s' =>
      refine ⟨⟨c, [(c.source, answer)], c.told answer⟩, (r.record c.source.key answer).2, s', rfl,
        ?_, ?_⟩
      · rw [StateT.run_bind, hanswer]
        rfl
      · cases answer with
        | ok corpus => exact .loads hr
        | error reason => exact .fails hr

theorem run_play {es : List Event} {r : Registry} (h : Run es r) (calls : List Call) (s : σ) :
    ∃ es' r' s', (play fetch calls r).run s = ((es', r'), s') ∧ es'.map Event.call = calls ∧
      Run (es ++ es') r' := by
  induction calls generalizing es r s with
  | nil => exact ⟨[], r, s, rfl, rfl, by simpa using h⟩
  | cons c cs ih =>
    obtain ⟨e, r₁, s₁, hcall, hperform, he⟩ := exists_perform fetch c r s
    obtain ⟨es', r₂, s₂, hplay, hcalls, hrun⟩ := ih (h.snoc he) s₁
    have played : (play fetch (c :: cs) r).run s =
        ((e :: ((play fetch cs r₁).run s₁).1.1, ((play fetch cs r₁).run s₁).1.2),
          ((play fetch cs r₁).run s₁).2) := by
      rw [play, StateT.run_bind, hperform]
      rfl
    refine ⟨e :: es', r₂, s₂, ?_, ?_, by simpa using hrun⟩
    · rw [played, hplay]
    · rw [List.map_cons, hcall, hcalls]

/-- Whatever the loader does, all calls are answered, and they make a run that obeys the laws. -/
theorem lawful_play (calls : List Call) (s : σ) :
    let ((events, registry), _) := (play fetch calls .empty).run s
    events.map Event.call = calls ∧ Lawful events registry := by
  obtain ⟨es, r, s', hplay, hcalls, hrun⟩ := run_play fetch .start calls s
  rw [hplay]
  exact ⟨hcalls, hrun.lawful⟩

end Play

end WebSurface.Registry
