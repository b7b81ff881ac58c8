import ShaderReflect.Proofs.Reflection

/-!
# Reflections with types written out

Two reflections are compared once their types are written out, so that it does not matter where
their types stand. Without an arena, `Config.trees` says what such a reflection comes to.

* `Config.map_reflect`: what can be told of a reflection once its types are written out, `trees`
  tells as well, and fails as the reflection does.
* `Config.map_expanded_reflect`: without names for structs, a reflection is `trees`.
* `Config.exists_trees`: two ways of describing a binary are compared entry point by entry point.

`Config.trees` is a definition for proofs and not for running: types that occur often are written
out as often. What it fails with is compared as well, so that of two settings that fail, both fail
alike.
-/

namespace ShaderReflect

/-- The entry points of a reflection, with types written out. -/
def Reflection.expanded (r : Reflection) : List (EntryPoint TypeTree) :=
  r.entryPoints.map (·.map r.tree)

namespace Config

variable {c : Config} {s : Source} {p : Progress} {r : Reflection}

/-- What is said about the entry points of a binary, with types written out. -/
def entryTrees (c : Config) (s : Source) : Except Stop (List (EntryPoint TypeTree)) :=
  s.graph.annotations.entryPoints.mapM (c.entryTree s)

/-- A reflection with types written out: its header and its entry points. -/
def trees (c : Config) : Except Stop (Header × List (EntryPoint TypeTree)) := do
  let words ← c.words
  let s ← c.source words
  let entryPoints ← c.entryTrees s
  return (s.graph.header, entryPoints)

/-- **A reflection ends as `trees` does**, and what is told of it is what is told of `trees`, if
that is so for its entry points with types written out. -/
theorem map_reflect {α : Type} {f : Reflection → α} {g : Header × List (EntryPoint TypeTree) → α}
    (h : ∀ s p r, c.MadeOf s p r → f r = g (s.graph.header, Progress.view.tree p)) :
    f <$> c.reflect.result = g <$> c.trees := by
  rw [result_reflect]
  unfold trees
  cases hwords : c.words with
  | error e => rfl
  | ok words =>
    simp only [liftM_fault_ok, ok_bind]
    cases hs : c.source words with
    | error e => rfl
    | ok s =>
      simp only [ok_bind]
      have hrun := realizes_addEntryPoints (c := c) (source_ordered hs)
        s.graph.annotations.entryPoints
      rw [← result_entryPoints] at hrun
      rcases hrun.cases with ⟨p, hp, ht, -, -⟩ | ⟨e, hp, ht⟩
      · rw [entryTrees, ht, hp]
        exact congrArg Except.ok (h s p _ ⟨⟨words, hwords, hs⟩, hp, rfl⟩)
      · rw [entryTrees, ht, hp]
        rfl

/-- **Without names for structs, a reflection is `trees`** once its types are written out. -/
theorem map_expanded_reflect (hu : c.uniqueNames = false) :
    (fun r => (r.header, r.expanded)) <$> c.reflect.result = c.trees := by
  refine (map_reflect (g := id) fun s p r hr => ?_).trans (id_map _)
  have hkeys : p.arena.types = p.arena.keys := hr.holds.types_eq (hr.uniqueNames_eq.trans hu)
  rw [hr.result]
  show (s.graph.header, p.entryPoints.map (·.map (TypeTree.ofDescs p.arena.types))) = _
  rw [hkeys]
  rfl

/-- If every entry point that can be described one way can be described in another way, entry point
by entry point, the whole binary can. -/
theorem exists_trees (c c' : Config) (hwords : c'.words = c.words)
    (hsource : ∀ words, c'.source words = c.source words)
    {R : Source → EntryPointDecl → EntryPoint TypeTree → EntryPoint TypeTree → Prop}
    (h : ∀ words s, c.source words = .ok s → ∀ e ∈ s.graph.annotations.entryPoints, ∀ x,
      c.entryTree s e = .ok x → ∃ y, c'.entryTree s e = .ok y ∧ R s e x y)
    {header : Header} {xs : List (EntryPoint TypeTree)} (hxs : c.trees = .ok (header, xs)) :
    ∃ ys, c'.trees = .ok (header, ys) ∧ ys.length = xs.length ∧
      ∀ (k : Nat) x, xs[k]? = some x → ∃ words s e y, c.words = .ok words ∧ c.source words = .ok s ∧
        s.graph.annotations.entryPoints[k]? = some e ∧ ys[k]? = some y ∧ R s e x y := by
  obtain ⟨words, hw, hxs⟩ := bind_eq_ok_iff.mp hxs
  obtain ⟨s, hs, hxs⟩ := bind_eq_ok_iff.mp hxs
  obtain ⟨xs', hxs, heq⟩ := bind_eq_ok_iff.mp hxs
  cases heq
  have heach : ∀ e ∈ s.graph.annotations.entryPoints, ∃ y, c'.entryTree s e = .ok y := by
    intro e he
    obtain ⟨x, hx⟩ := exists_mapM_eq_ok_iff.mp ⟨_, hxs⟩ e he
    obtain ⟨y, hy, -⟩ := h words s hs e he x hx
    exact ⟨y, hy⟩
  obtain ⟨ys, hys⟩ := exists_mapM_eq_ok_iff.mpr heach
  have hlength := (mapM_eq_ok_iff.mp hxs).length_eq
  have hlength' := (mapM_eq_ok_iff.mp hys).length_eq
  refine ⟨ys, ?_, hlength'.symm.trans hlength, fun k x hx => ?_⟩
  · unfold trees
    rw [hwords, hw, ok_bind, hsource, hs, ok_bind, entryTrees, hys]
    rfl
  · obtain ⟨e, he, hx⟩ := exists_of_mapM_eq_ok hxs hx
    obtain ⟨y, hy, hyk⟩ := getElem?_eq_some_of_forall₂ (mapM_eq_ok_iff.mp hys).flip he
    obtain ⟨y', hy', hR⟩ := h words s hs e (List.mem_of_getElem? he) x hx
    rw [hyk, Except.ok.injEq] at hy'
    exact ⟨words, s, e, y, liftM_fault_eq_ok_iff.mp hw, hs, he, hy, hy' ▸ hR⟩

end Config

end ShaderReflect
