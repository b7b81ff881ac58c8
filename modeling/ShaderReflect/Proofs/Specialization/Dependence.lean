import ShaderReflect.Proofs.Specialization.Recursion

/-!
# Overrides reach what depends on them

A constant depends on those that it refers to, and on all that these depend on. Its value comes from
the bytes that it and the constants it depends on are given. So two lists of overrides that agree on
these give it the same value, whatever else they say.

* `Graph.DependsOn`: what a constant depends on.
* `Specialization.value?_congr`: lists that agree on what a constant depends on.
* `Specialization.apply_depends`: both, and that an override for an ID that no constant has changes
  nothing.

Specification, 4.3. A constant refers to its constituents, or to those operands that are IDs: the
indices of a composite extract are not, although they may be the numbers of constants. References
that are not backwards count as well, though no value comes of them.
-/

namespace ShaderReflect

namespace Graph

/-- A constant refers to another one. -/
def RefersTo (g : Graph) (id x : Ident) : Prop :=
  ∃ c, g.constants.get? id = some c ∧ x ∈ c.kind.references

/-- A constant is another one, or depends on it through a chain of references. -/
def DependsOn (g : Graph) : Ident → Ident → Prop := Relation.ReflTransGen g.RefersTo

/-- Constants that refer only to each other depend only on each other. -/
theorem DependsOn.mem {g : Graph} {ids : List Ident} {id x : Ident} (h : g.DependsOn id x)
    (hid : id ∈ ids)
    (hclosed : ∀ y ∈ ids, ∀ c, g.constants.get? y = some c → ∀ z ∈ c.kind.references, z ∈ ids) :
    x ∈ ids := by
  induction h with
  | refl => exact hid
  | tail _ hrefers ih =>
    obtain ⟨c, hc, hz⟩ := hrefers
    exact hclosed _ ih c hc _ hz

end Graph

namespace Specialization

variable {g : Graph} {list list' : List Override} {s s' : Specialization}

/-- **The value of a constant** is the same for two lists of overrides that agree on what it depends
on. -/
theorem value?_congr (h : (apply g list).result = .ok s) (h' : (apply g list').result = .ok s')
    (id : Ident) (hgiven : ∀ x, g.DependsOn id x → g.givenTo? list x = g.givenTo? list' x) :
    s.value? id = s'.value? id := by
  -- The induction is on the number of constants before this one, as references are followed only
  -- to these.
  induction hn : g.place id using Nat.strong_induction_on generalizing id with
  | _ n ih =>
    rw [value?_eq h, value?_eq h']
    refine Graph.valueFrom_congr (hgiven id .refl) fun c hc x hx => ?_
    unfold valueBefore
    by_cases hplace : g.place x < g.place id
    · rw [if_pos hplace, if_pos hplace]
      exact ih (g.place x) (hn ▸ hplace) x (fun y hy => hgiven y (.head ⟨c, hc, hx⟩ hy)) rfl
    · rw [if_neg hplace, if_neg hplace]

/-- **Overrides reach only what depends on them.** Two accepted lists give a constant the same
value, or none, if they give the same bytes to each constant that it depends on. One more override
for an ID that no constant has is accepted if it has bytes and the list has no other one for the ID,
and then nothing about the result is different. -/
theorem apply_depends (g : Graph) :
    (∀ list list' s s', (apply g list).result = .ok s → (apply g list').result = .ok s' →
      ∀ id, (∀ x, g.DependsOn id x → g.givenTo? list x = g.givenTo? list' x) →
        s.value? id = s'.value? id) ∧
    ∀ before o after, o.specId ∉ g.specIds.map Prod.snd →
      ∀ s, (apply g (before ++ o :: after)).result = .ok s ↔
        o.bytes ≠ [] ∧ o.specId ∉ (before ++ after).map (·.specId) ∧
          (apply g (before ++ after)).result = .ok s := by
  constructor
  · intro list list' s s' h h' id hgiven
    exact value?_congr h h' id hgiven
  · intro before o after habsent s
    constructor
    · intro h
      have hproper := proper_of_apply h
      obtain ⟨hbytes, hid, -⟩ := Overrides.proper_insert_iff.mp hproper
      rw [result_apply_insert hproper habsent] at h
      exact ⟨hbytes, hid, h⟩
    · rintro ⟨hbytes, hid, h⟩
      have hproper := Overrides.proper_insert_iff.mpr ⟨hbytes, hid, proper_of_apply h⟩
      rw [result_apply_insert hproper habsent]
      exact h

/-- A product and the constants that it depends on. -/
def sampleFactors : List Ident := [7, 6, 3, 5, 4]

set_option maxRecDepth 100000 in
/-- A product does not depend on a constant that is no factor of it, nor on IDs of no constant. -/
theorem sample_apply_depends : ∃ g s s', Graph.ofWords (sampleProducts 9) = .ok g ∧
    (apply g [⟨9, [3]⟩]).result = .ok s ∧
    (apply g [⟨9, [3]⟩, ⟨5, [2]⟩]).result = .ok s' ∧
    s.scalar? 8 = some (.int 5 true 26) ∧ s'.scalar? 8 = some (.int 5 true 20) ∧
    s.value? 7 = s'.value? 7 ∧
    (apply g [⟨9, [3]⟩, ⟨6, [1]⟩, ⟨5, [2]⟩]).result = .ok s' := by
  obtain ⟨g, hg, hfacts⟩ := exists_eq_ok_of_any (x := Graph.ofWords (sampleProducts 9))
    (p := fun g => g.specIds = [(3, 9), (9, 5)] ∧
      (sampleFactors.all fun y => (g.constants.get? y).all fun c =>
        c.kind.references.all fun z => sampleFactors.contains z) ∧
      (sampleFactors.all fun x =>
        g.givenTo? [⟨9, [3]⟩] x = g.givenTo? [⟨9, [3]⟩, ⟨5, [2]⟩] x) ∧
      (apply g [⟨9, [3]⟩]).result.toOption.any
        (fun s => s.scalar? 8 = some (.int 5 true 26)) ∧
      (apply g [⟨9, [3]⟩, ⟨5, [2]⟩]).result.toOption.any
        (fun s => s.scalar? 8 = some (.int 5 true 20))) (by decide +kernel)
  obtain ⟨hspecIds, hclosed, hgiven, hrun, hrun'⟩ := of_decide_eq_true hfacts
  obtain ⟨s, hs, hvalue⟩ := exists_eq_ok_of_any hrun
  obtain ⟨s', hs', hvalue'⟩ := exists_eq_ok_of_any hrun'
  refine ⟨g, s, s', hg, hs, hs', of_decide_eq_true hvalue, of_decide_eq_true hvalue', ?_, ?_⟩
  · have hfactors : ∀ x, g.DependsOn 7 x → x ∈ sampleFactors := by
      intro x hx
      refine hx.mem (List.mem_cons_self) fun y hy c hc => ?_
      simpa [hc] using List.all_eq_true.mp hclosed y hy
    refine (apply_depends g).1 _ _ s s' hs hs' 7 fun x hx => ?_
    simpa using List.all_eq_true.mp hgiven x (hfactors x hx)
  · refine ((apply_depends g).2 [⟨9, [3]⟩] ⟨6, [1]⟩ [⟨5, [2]⟩] ?_ s').mpr ⟨?_, ?_, hs'⟩
    · simp [hspecIds]
    · simp
    · simp

end Specialization

end ShaderReflect
