import WebSurface.Proofs.GraphRuns
set_option autoImplicit false

/-!
What the classification of an interface leaves behind.

The methods of the interface are classified one after another, and each verdict is noted before the
next method is looked at. `TypeGraph.Judged` says what is true in between, and so each method of the
interface bears its own verdict in the end, and no other method any
(`TypeGraph.classified_classifyInterface`).
-/

namespace WebSurface

def Declarations.verdict (d : Declarations) (b : Bridging) (owner : Text) (m : Method) :
    Invocation :=
  if b.isListed owner m.name then .direct m.name
  else TypeGraph.invocation b owner m.name ((m.parameters.filter fun p =>
    decide (d.CallbackShaped TypeGraph.aliasDepth p.type)).map Parameter.name)

theorem Interface.Like.bare_eq {i j : Interface} (h : i.Like j) {m n : Method}
    (hm : m ∈ i.methods.list) (hn : n ∈ j.methods.list) (key : m.key = n.key) :
    m.bare = n.bare := by
  have hb : m.bare ∈ j.methods.list.map Method.bare := h.methods_eq ▸ List.mem_map_of_mem hm
  obtain ⟨n', hn', hb⟩ := List.mem_map.1 hb
  have same : n'.bare.key = m.bare.key := congrArg Method.key hb
  have key' : n'.key = n.key := same.trans key
  have found := Keyed.find?_eq_some_iff.2 ⟨hn', key'⟩
  rw [Keyed.find?_eq_some_iff.2 ⟨hn, rfl⟩] at found
  rw [← hb, Option.some.inj found]

namespace TypeGraph

open Declarations

variable {d : Declarations} {b : Bridging} {owner : Text} {g : TypeGraph}

theorem classify_verdict (hd : d.Named) (hg : Faithful d g) (m : Method) :
    (classify d b owner m g).1 = d.verdict b owner m := by
  cases hm : b.isListed owner m.name with
  | true => rw [classify_listed hm, verdict, if_pos hm]
  | false => rw [classify_eq hd hg hm, verdict, hm]; rfl

/-- Of the methods of the owner those with the given keys bear their verdict, and no method of
another interface has been classified. -/
structure Judged (d : Declarations) (b : Bridging) (owner : Text) (start : Interface)
    (keys : List Text) (g : TypeGraph) : Prop where
  faithful : Faithful d g
  found : ∃ i, g.interface? owner = some i ∧ i.Like start ∧
    ∀ m ∈ i.methods.list, m.key ∈ keys → m.invocation = some (d.verdict b owner m)
  others {name : Text} {i : Interface} (hn : name ≠ owner) (h : g.interface? name = some i) :
    i.Unclassified

variable {start : Interface} {keys : List Text}

theorem interface?_setInvocation_owner (g : TypeGraph) (owner method : Text) (v : Invocation)
    (name : Text) : (g.setInvocation owner method v).interface? name =
      if name = owner then (g.interface? name).map fun i =>
        { i with methods :=
          i.methods.edit method.asciiLower (fun m => { m with invocation := some v }) fun _ => rfl }
      else g.interface? name :=
  NameTable.get?_update _

theorem Judged.classify (hd : d.Named) (h : Judged d b owner start keys g) {m : Method}
    (hm : m ∈ start.methods.list) : Judged d b owner start (m.key :: keys)
      ((classify d b owner m g).2.setInvocation owner m.name (classify d b owner m g).1) where
  faithful := (h.faithful.classify hd b owner m).setInvocation owner m.name _
  found := by
    obtain ⟨i, hi, like, judged⟩ := h.found
    have kept := (Joins.classify hd h.faithful b owner m).kept hi
    rw [classify_verdict hd h.faithful, interface?_setInvocation_owner, if_pos rfl, kept]
    refine ⟨_, rfl, (Interface.Like.edit i _ _).trans like, fun n hn done => ?_⟩
    obtain ⟨n', hn', rfl⟩ := List.mem_map.1 hn
    split
    · rename_i key
      -- What is noted is the verdict on the method as it was found, which has the same signature.
      have bare := like.bare_eq hn' hm key
      have same : d.verdict b owner n'.bare = d.verdict b owner m.bare := by rw [bare]
      exact congrArg some same.symm
    · rename_i key
      rw [if_neg key] at done
      exact judged n' hn' ((List.mem_cons.1 done).resolve_left key)
  others {name i} hn hi := by
    rw [interface?_setInvocation_owner, if_neg hn] at hi
    rcases (Joins.classify hd h.faithful b owner m).new hi with hi | hi
    · exact h.others hn hi
    · intro n hn
      rw [(Interface.members_of_isCallback hi).2] at hn
      cases hn

theorem Judged.classifyMethods (hd : d.Named) {ms : List Method}
    (hms : ∀ m ∈ ms, m ∈ start.methods.list) (h : Judged d b owner start keys g) :
    Judged d b owner start ((ms.map Method.key).reverse ++ keys)
      (classifyMethods d b owner ms g).2 := by
  induction ms generalizing g keys with
  | nil => exact h
  | cons m ms ih =>
    obtain ⟨hm, hms⟩ := List.forall_mem_cons.1 hms
    rw [List.map_cons, List.reverse_cons, List.append_assoc]
    exact ih hms (h.classify hd hm)

/-- The methods of the owner bear their verdicts, and no other method has been classified. -/
structure Classified (d : Declarations) (b : Bridging) (owner : Text) (g : TypeGraph) : Prop where
  owned {i : Interface} (h : g.interface? owner = some i) :
    ∀ m ∈ i.methods.list, m.invocation = some (d.verdict b owner m)
  others {name : Text} {i : Interface} (hn : name ≠ owner) (h : g.interface? name = some i) :
    i.Unclassified

theorem classified_classifyInterface (hd : d.Named) {table : TypeTable} {followBases : Bool}
    {root : Text} (exact : Exact d table followBases root g) (b : Bridging) (owner : Text) :
    Classified d b owner (classifyInterface d b owner g).2 := by
  unfold classifyInterface
  split
  · rename_i start hs
    have before : Judged d b owner start [] g :=
      ⟨exact.faithful, ⟨start, hs, .refl start, fun _ _ hk => absurd hk List.not_mem_nil⟩,
        fun _ => exact.unclassified⟩
    have after := before.classifyMethods hd fun m hm => hm
    refine ⟨fun {i} hi m hm => ?_, after.others⟩
    obtain ⟨i', hi', like, judged⟩ := after.found
    obtain rfl := Option.some.inj (hi.symm.trans hi')
    refine judged m hm (List.mem_append_left _ (List.mem_reverse.2 ?_))
    have hb : m.bare ∈ start.methods.list.map Method.bare :=
      like.methods_eq ▸ List.mem_map_of_mem hm
    obtain ⟨n, hn, hb⟩ := List.mem_map.1 hb
    have key : n.bare.key = m.bare.key := congrArg Method.key hb
    exact List.mem_map.2 ⟨n, hn, key⟩
  · rename_i missing
    refine ⟨fun hi => ?_, fun _ => exact.unclassified⟩
    rw [missing] at hi
    cases hi

end TypeGraph

end WebSurface
