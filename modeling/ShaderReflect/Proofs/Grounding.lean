import ShaderReflect.Proofs.Reflection
import ShaderReflect.Proofs.Walk
import ShaderReflect.Report.EntryPoint

/-!
# The types of a reflection are well founded

References lead from a type to earlier ones (`Reflection.Grounded`), so whatever follows them comes
to an end: writing types out, and walking over their parts.

* `Reflection.refersTo_wellFounded`: there is no endless chain of references.
* `Report.expands_placeJson`, `Report.eq_placeJson`: the one way to write types out by recursion is
  the report in one pass.
* `Config.reflect_wellFounded`: all of this of every reflection.

Specification, 3 and 4.6 (the arena, bottom-up, without recursion over types). A declared struct may
come back to itself through a device address. Its description does not, as a device address is
described without its pointee; so the order of the arena needs no exception for such types.
-/

namespace ShaderReflect

/-- The type at a place refers to another place. -/
def Reflection.RefersTo (r : Reflection) (i k : TypeIdx) : Prop :=
  ∃ desc, r.types[k]? = some desc ∧ i ∈ desc.refs

theorem Reflection.refersTo_wellFounded {r : Reflection} (hr : ShaderReflect.Grounded r.types) :
    WellFounded r.RefersTo :=
  Subrelation.wf (fun ⟨desc, hk, hi⟩ => hr _ desc hk _ hi) Nat.lt_wfRel.wf

namespace Report

/-- A way of writing types out that follows references. -/
def Expands (types : List (TypeDesc TypeIdx)) (expand : TypeIdx → Json) : Prop :=
  ∀ (k : TypeIdx) desc, types[k]? = some desc → expand k = typeJson desc expand

theorem typeJson_congr (desc : TypeDesc TypeIdx) (f g : TypeIdx → Json)
    (h : ∀ i ∈ desc.refs, f i = g i) : typeJson desc f = typeJson desc g := by
  cases desc with
  | struct name members =>
    have hm : members.map (fun m => memberJson (m.map f)) =
        members.map fun m => memberJson (m.map g) :=
      List.map_congr_left fun m hm => by
        rw [MemberDesc.map_congr (h m.type (List.mem_map_of_mem (f := MemberDesc.type) hm))]
    simp only [typeJson, hm]
  | vector e n | matrix e n | array e n stride | runtimeArray e stride | pointer storage e
    | combinedImageSampler e => simp only [typeJson, h e List.mem_cons_self]
  | _ => rfl

/-- The report in one pass follows references. -/
theorem expands_placeJson {types : List (TypeDesc TypeIdx)} (h : Grounded types) :
    Expands types (placeJson (typesJson types)) := fun _ _ hk =>
  unfolded_eq typeJson_congr h hk

/-- Following references leads to the report in one pass. The induction is along references. -/
theorem eq_placeJson {types : List (TypeDesc TypeIdx)} (h : Grounded types)
    {expand : TypeIdx → Json} (he : Expands types expand) {k : TypeIdx} (hk : k < types.length) :
    expand k = placeJson (typesJson types) k := by
  induction k using Nat.strong_induction_on with
  | h k ih =>
    have hdesc := List.getElem?_eq_getElem hk
    rw [he k _ hdesc, expands_placeJson h k _ hdesc]
    refine typeJson_congr _ _ _ fun i hi => ?_
    have hlt := h k _ hdesc i hi
    exact ih i hlt (Nat.lt_trans hlt hk)

end Report

/-- **The types of a reflection are well founded.** References lead to earlier types; putting types
into the arena only appends; and writing types out and walking over their parts come to an end and
stay among the types. -/
theorem Config.reflect_wellFounded {c : Config} {r : Reflection} (h : c.reflect.result = .ok r) :
    r.Grounded ∧
    (∀ (s : Source) (a b : Arena) id i, s.materialize a id = .ok (i, b) → a.Extends b) ∧
    (∀ (a b : Arena) uniqueNames key size i,
      a.intern uniqueNames key size = (i, b) → a.Extends b) ∧
    WellFounded r.RefersTo ∧
    Report.Expands r.types (Report.placeJson (Report.typesJson r.types)) ∧
    (∀ expand, Report.Expands r.types expand → ∀ k < r.types.length,
      expand k = Report.placeJson (Report.typesJson r.types) k) ∧
    ∀ i, (∃ n, ∀ m, n ≤ m →
        Walk.take r m (Walk.start i) = Walk.take r n (Walk.start i)) ∧
      ∀ n routes, Walk.take r n (Walk.start i) = .ok routes →
        ∀ route ∈ routes, route.type < r.types.length := by
  have hr := c.grounded_of_reflect h
  refine ⟨hr, fun s a b id i => Source.extends_materialize,
    fun a b u key size i => Arena.extends_intern, Reflection.refersTo_wellFounded hr.types,
    Report.expands_placeJson hr.types, fun expand he k => Report.eq_placeJson hr.types he,
    fun i => ⟨⟨Walk.left r (Walk.start i), fun m hm => ?_⟩, fun n routes => ?_⟩⟩
  · exact Walk.take_eq_of_left_le hr.types (Nat.le_refl _) hm
  · exact Walk.type_lt_of_mem_take hr.types

set_option maxRecDepth 100000 in
/-- The types of the small binary, with an image that is combined with its sampler. -/
theorem sample_wellFounded : ∃ r, (sampleConfig 1).reflect.result = .ok r ∧ r.types.length = 7 ∧
    r.Grounded := by
  have hok : (match (sampleConfig 1).reflect.result with
    | .ok r => r.types.length == 7
    | .error _ => false) = true := by decide +kernel
  cases hr : (sampleConfig 1).reflect.result with
  | ok r =>
    rw [hr] at hok
    exact ⟨r, rfl, of_decide_eq_true hok, (Config.reflect_wellFounded hr).1⟩
  | error e =>
    rw [hr] at hok
    cases hok

end ShaderReflect
