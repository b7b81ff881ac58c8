import Mathlib.Data.Set.Function
import ShaderReflect.Proofs.UniqueNames

/-!
# Types are interned canonically

Two declared types share a place in the arena exactly if they are the same type written out: the
place of a type stands for its tree (`Holds.tree_injOn`). The induction is along references, which
point backwards: two descriptions with the same tree refer to places with the same trees, which are
the same places, so the descriptions are equal, and no description is interned twice.

* `TypeDesc.eq_of_map_eq`: a description can be told from what it looks like with references written
  out, if references can.
* `Source.nodup_types`: no two reported types are equal, whether or not structs are given names.
* `Config.reflect_canonical`: both of a reflection.

Specification, 3 and 4.6. Trees have the names of members that the descriptions have, but of structs
those that are declared: the name that a struct is given is made after it has been found to be new
(`ArenaEntry.key`). So two structs of one tree share a place, and two reported structs differ in
name.
-/

namespace ShaderReflect

/-! ## References that can be told apart -/

/-- Descriptions that look the same are the same if their references can be told apart. -/
theorem TypeDesc.eq_of_map_eq {τ σ : Type} [Nonempty τ] {f : τ → σ} {places : Set τ}
    (hf : places.InjOn f) {desc desc' : TypeDesc τ} (hd : ∀ i ∈ desc.refs, i ∈ places)
    (hd' : ∀ i ∈ desc'.refs, i ∈ places) (h : desc.map f = desc'.map f) : desc = desc' := by
  have hback : ∀ d : TypeDesc τ, (∀ i ∈ d.refs, i ∈ places) →
      (d.map f).map (Function.invFunOn f places) = d := by
    intro d hrefs
    have hid : d.map (Function.invFunOn f places ∘ f) = d.map id :=
      map_congr fun i hi => hf.leftInvOn_invFunOn (hrefs i hi)
    rw [map_map, hid, map_id]
  rw [← hback desc hd, h, hback desc' hd']

namespace Source

variable {s : Source} {a : Arena} {i : TypeIdx}

/-- **A place stands for its tree**: different places of an arena without repetitions hold different
types. -/
theorem Holds.tree_injOn (h : s.Holds a) (hk : a.keys.Nodup) :
    Set.InjOn a.tree {i | i < a.entries.length} := by
  have hbelow : ∀ n ≤ a.entries.length, Set.InjOn a.tree {i | i < n} := by
    intro n
    induction n with
    | zero => exact fun _ i hi => absurd hi (Nat.not_lt_zero _)
    | succ n ih =>
      intro hn i hi j hj heq
      have hinj := ih (Nat.le_of_succ_le hn)
      have hilt := Nat.lt_of_lt_of_le hi hn
      have hjlt := Nat.lt_of_lt_of_le hj hn
      have hget := List.getElem?_eq_getElem hilt
      have hget' := List.getElem?_eq_getElem hjlt
      rw [h.tree_eq hget, h.tree_eq hget', TypeTree.node.injEq] at heq
      have hkey : ∀ k (hlt : k < a.entries.length), a.keys[k]? = some a.entries[k].key := by
        intro k hlt
        rw [Arena.keys, List.getElem?_map, List.getElem?_eq_getElem hlt, Option.map_some]
      have hsame : a.entries[i].key = a.entries[j].key := by
        refine TypeDesc.eq_of_map_eq hinj (fun k hk => ?_) (fun k hk => ?_) heq
        · exact Nat.lt_of_lt_of_le (h.grounded i _ (hkey i hilt) k hk) (Nat.le_of_lt_succ hi)
        · exact Nat.lt_of_lt_of_le (h.grounded j _ (hkey j hjlt) k hk) (Nat.le_of_lt_succ hj)
      have hlength : i < a.keys.length := by
        rw [Arena.keys, List.length_map]
        exact hilt
      refine (List.getElem?_inj hlength hk).mp ?_
      rw [hkey i hilt, hkey j hjlt, hsame]
  exact hbelow _ (Nat.le_refl _)

/-- Declared types share a place exactly if they are the same type written out. -/
theorem Holds.place_eq_iff (h : s.Holds a) (hk : a.keys.Nodup) {x y : Ident} {i j : TypeIdx}
    (hx : a.places.get? x = some i) (hy : a.places.get? y = some j) :
    ∃ t u, s.tree x = .ok t ∧ s.tree y = .ok u ∧ (i = j ↔ t = u) := by
  obtain ⟨hi, ht⟩ := h.placed x i hx
  obtain ⟨hj, hu⟩ := h.placed y j hy
  refine ⟨_, _, ht, hu, ?_, h.tree_injOn hk hi hj⟩
  rintro rfl
  rfl

/-! ## Reported types -/

/-- No two reported types are equal if no two structs have the same name: what is not a struct is
reported as it is interned. -/
theorem nodup_types (hf : ∀ e ∈ a.entries, e.Faithful s.uniqueNames) (hk : a.keys.Nodup)
    (hs : (structNames a.types).Nodup) : a.types.Nodup := by
  refine List.nodup_iff_sublist.mpr fun desc htwice => ?_
  cases hname : desc.structName? with
  | some name =>
    have h := htwice.filterMap TypeDesc.structName?
    simp only [List.filterMap_cons, hname, List.filterMap_nil] at h
    exact List.nodup_iff_sublist.mp hs name h
  | none =>
    obtain ⟨es, hsub, hes⟩ := List.sublist_map_iff.mp htwice
    have hkeys : es.map (·.key) = [desc, desc] := by
      rw [hes]
      refine List.map_congr_left fun e he => ?_
      rcases hf e (hsub.subset he) with hd | ⟨-, n, n', ms, -, hd⟩
      · exact hd.symm
      · have hdesc : e.desc ∈ [desc, desc] := hes ▸ List.mem_map_of_mem he
        have hstruct : desc = .struct n' ms := by simpa [hd, eq_comm] using hdesc
        rw [hstruct] at hname
        cases hname
    have h := hsub.map (·.key)
    rw [hkeys] at h
    exact List.nodup_iff_sublist.mp hk desc h

end Source

/-! ## Reflections -/

namespace Config

/-- **Types are interned canonically.** No two types of a reflection are equal, with or without
names for structs. Declared types that are put into the arena share a place exactly if they are the
same type written out by recursion. -/
theorem reflect_canonical {c : Config} {r : Reflection} (h : c.reflect.result = .ok r) :
    r.types.Nodup ∧ ∃ s p, c.MadeOf s p r ∧
      ∀ x y i j, p.arena.places.get? x = some i → p.arena.places.get? y = some j →
        ∃ t u, s.tree x = .ok t ∧ s.tree y = .ok u ∧ (i = j ↔ t = u) := by
  obtain ⟨s, p, hr⟩ := exists_madeOf h
  have hkeys := Source.nodup_keys (steps_entryPoints hr.run) List.nodup_nil
  have htypes : p.arena.types.Nodup := by
    cases hu : s.uniqueNames with
    | false =>
      rw [hr.holds.types_eq hu]
      exact hkeys
    | true =>
      have hnames := (named_entryPoints hu hr.run).1.structs
      exact Source.nodup_types hr.holds.faithful hkeys hnames.distinct
  refine ⟨?_, s, p, hr, fun x y i j => hr.holds.place_eq_iff hkeys⟩
  rw [hr.result]
  exact htypes

/-- The places of declared types at the end of a reflection. -/
def places (c : Config) : Except Stop (Table Ident TypeIdx) := do
  let s ← c.source (← c.words)
  return (← (c.entryPoints s).result).arena.places

theorem MadeOf.places_eq {c : Config} {s : Source} {p : Progress} {r : Reflection}
    (h : c.MadeOf s p r) : c.places = .ok p.arena.places := by
  obtain ⟨words, hwords, hs⟩ := h.source
  rw [places, hwords, liftM_fault_ok, ok_bind, hs, ok_bind, h.run]
  rfl

set_option maxRecDepth 100000 in
/-- The types of the two blocks of push constants are declared twice but are alike: they share a
place. The type of the uniform block, which has names, has a place of its own. -/
theorem sample_reflect_canonical : ∃ r s p,
    (sampleNamesConfig false).reflect.result = .ok r ∧ r.types.Nodup ∧ r.types.length = 3 ∧
    (sampleNamesConfig false).MadeOf s p r ∧ s.tree 6 = s.tree 7 ∧ s.tree 6 ≠ s.tree 9 := by
  obtain ⟨r, hr, hlength⟩ := exists_eq_ok_of_any (x := (sampleNamesConfig false).reflect.result)
    (p := fun r => r.types.length = 3) (by decide +kernel)
  obtain ⟨places, hplaces, hget⟩ := exists_eq_ok_of_any (x := (sampleNamesConfig false).places)
    (p := fun t => t.get? 6 = some 1 ∧ t.get? 7 = some 1 ∧ t.get? 9 = some 2) (by decide +kernel)
  obtain ⟨hnodup, s, p, hmade, htrees⟩ := reflect_canonical hr
  rw [hmade.places_eq, Except.ok.injEq] at hplaces
  subst hplaces
  obtain ⟨h6, h7, h9⟩ := of_decide_eq_true hget
  obtain ⟨t, u, ht, hu, hsame⟩ := htrees 6 7 1 1 h6 h7
  obtain ⟨t', v, ht', hv, hdiffer⟩ := htrees 6 9 1 2 h6 h9
  refine ⟨r, s, p, hr, hnodup, of_decide_eq_true hlength, hmade, ?_, ?_⟩
  · rw [ht, hu, hsame.mp rfl]
  · rw [ht', hv]
    exact fun heq => absurd (hdiffer.mpr (Except.ok.inj heq)) (by decide)

end Config

end ShaderReflect
