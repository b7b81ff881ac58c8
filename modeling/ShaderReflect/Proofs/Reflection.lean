import ShaderReflect.Proofs.Stage.Trees
import ShaderReflect.Reflection

/-!
# Reflections

What a reflection says about an entry point is what is said about it with types written out
(`Config.entryTree`), whichever entry points come before it.

* `Config.result_reflect`: the steps of a reflection. `Config.MadeOf` names what they end with.
* `Config.realizes_addEntryPoints`: entry points, described one after the other on one arena, are
  those that `entryTree` gives for each.
* `Reflection.Grounded`: types refer backwards, and entry points refer to types.

`MadeOf` gives later modules the graph, the constants and the arena that a reflection comes from;
what is proved of reflections starts from it. It speaks about the default orders of visits, which is
no loss for reflections that succeed (`Proofs/Visits`).
-/

namespace ShaderReflect

/-! ## The steps of a reflection -/

theorem Graph.result_load (words : List Word) :
    (Graph.load words).result = (liftM (Graph.ofWords words) : Except Stop Graph) := by
  unfold load
  simp only [Traced.result_bind, Traced.result_liftM_fault, Traced.result_note]
  cases ofWords words with
  | ok g => rfl
  | error e => rfl

/-- The types of a graph that has been built are in order. -/
theorem Graph.orders_of_ofWords {words : List Word} {g : Graph} (h : Graph.ofWords words = .ok g) :
    TypeOrder.Orders g.types g.typeOrder := by
  obtain ⟨⟨header, body⟩, -, h⟩ := bind_eq_ok_iff.mp h
  obtain ⟨d, -, h⟩ := bind_eq_ok_iff.mp h
  obtain ⟨u, -, h⟩ := bind_eq_ok_iff.mp h
  obtain ⟨order, horder, h⟩ := bind_eq_ok_iff.mp h
  cases h
  exact TypeOrder.orders_sort horder

namespace Config

variable {c : Config} {s : Source} {r : Reflection}

/-- What the entry points of a binary are described from. -/
def source (c : Config) (words : List Word) : Except Stop Source := do
  let graph ← Graph.ofWords words
  let specialization ← (Specialization.apply graph c.overrides).result
  return { graph, specialization, uniqueNames := c.uniqueNames }

theorem words_eq_ok_iff {words : List Word} :
    c.words = .ok words ↔ c.binary = some words ∧ words ≠ [] := by
  unfold Config.words
  split
  · rename_i h
    simp [h]
  · rename_i h
    simp only [h, Option.some.injEq]
    constructor
    · intro h'
      cases h'
    · rintro ⟨rfl, h'⟩
      exact absurd rfl h'
  · rename_i ws hne h
    simp only [h, Option.some.injEq, Except.ok.injEq]
    constructor
    · rintro rfl
      exact ⟨rfl, hne⟩
    · exact And.left

/-- A source holds the graph, and the values that its constants have under the overrides. -/
theorem source_eq_ok_iff {words : List Word} : c.source words = .ok s ↔ ∃ g σ,
    Graph.ofWords words = .ok g ∧ (Specialization.apply g c.overrides).result = .ok σ ∧
    s = { graph := g, specialization := σ, uniqueNames := c.uniqueNames } := by
  unfold source
  simp only [bind_eq_ok_iff, liftM_fault_eq_ok_iff, pure_eq_ok, Except.ok.injEq]
  constructor
  · rintro ⟨g, hg, σ, hσ, rfl⟩
    exact ⟨g, σ, hg, hσ, rfl⟩
  · rintro ⟨g, σ, hg, hσ, rfl⟩
    exact ⟨g, hg, σ, hσ, rfl⟩

theorem ofWords_of_source {words : List Word} (h : c.source words = .ok s) :
    Graph.ofWords words = .ok s.graph := by
  obtain ⟨g, σ, hg, -, rfl⟩ := source_eq_ok_iff.mp h
  exact hg

theorem source_ordered {words : List Word} (h : c.source words = .ok s) : s.Ordered :=
  Graph.orders_of_ofWords (ofWords_of_source h)

theorem source_uniqueNames {words : List Word} (h : c.source words = .ok s) :
    s.uniqueNames = c.uniqueNames := by
  obtain ⟨g, σ, -, -, rfl⟩ := source_eq_ok_iff.mp h
  rfl

theorem result_reflect (c : Config) : c.reflect.result = (do
    let words ← c.words
    let s ← c.source words
    let p ← (c.entryPoints s).result
    return { header := s.graph.header, types := p.arena.types, entryPoints := p.entryPoints }) := by
  unfold reflect source
  simp only [Traced.result_bind, Traced.result_liftM_fault, Graph.result_load, Traced.result_note,
    Traced.result_pure, bind_assoc, pure_bind, ok_bind]
  rfl

/-! ## Entry points -/

/-- Pairing images with samplers, if that is asked for. -/
def pairing (c : Config) (g : Graph) (reach : Reach) : Pairing :=
  if c.combineSamplers then Pairing.combine g reach else {}

/-- What is said about an entry point of a graph, with types written out. -/
def entryTree (c : Config) (s : Source) (e : EntryPointDecl) :
    Except Stop (EntryPoint TypeTree) := do
  let reach ← Reach.analyze s.graph e c.allResources
  s.assembleTree e reach (c.pairing s.graph reach)

/-- The entry points so far. -/
def Progress.view : View Progress (List (EntryPoint TypeTree)) where
  toReferring := Referring.entryPoint.list.comap (·.entryPoints)
  arena p := p.arena

theorem result_trace_reach (g : Graph) (e : EntryPointDecl) (all : Bool) :
    (Reach.trace g e all).result = (liftM (Reach.analyze g e all) : Except Stop Reach) := by
  unfold Reach.trace
  simp only [Traced.result_bind, Traced.result_liftM_fault, Traced.result_note]
  cases Reach.analyze g e all with
  | ok reach => rfl
  | error e => rfl

theorem result_trace_pairing (g : Graph) (reach : Reach) :
    (Pairing.trace g reach).result = .ok (Pairing.combine g reach) := by
  unfold Pairing.trace
  simp only [Traced.result_bind, Traced.result_forM_note, ok_bind, Traced.result_note,
    Traced.result_pure]

theorem result_addEntryPoint (p : Progress) (e : EntryPointDecl) :
    (c.addEntryPoint s p e).result = (do
      let reach ← Reach.analyze s.graph e c.allResources
      let (entryPoint, arena) ← (s.assemble e reach (c.pairing s.graph reach) p.arena).result
      return { arena, entryPoints := p.entryPoints ++ [entryPoint] }) := by
  unfold addEntryPoint pairing
  simp only [Traced.result_bind, result_trace_reach]
  congr 1
  funext reach
  split <;>
    simp only [Traced.result_bind, result_trace_pairing, Traced.result_pure, ok_bind, pure_eq_ok]

theorem realizes_addEntryPoint (hs : s.Ordered) {p : Progress} (hp : Progress.view.Sound s p)
    (e : EntryPointDecl) :
    Realizes Progress.view s p.arena (c.addEntryPoint s p e).result
      ((Progress.view.tree p ++ [·]) <$> c.entryTree s e) := by
  rw [result_addEntryPoint]
  unfold entryTree
  rw [map_bind]
  refine .bind_fault fun reach _ => ?_
  refine (Source.realizes_assemble hs hp.holds e reach).map fun ⟨x, b⟩ hx hext =>
    ⟨⟨hx.holds, fun i hi => ?_⟩, rfl, ?_⟩
  · obtain ⟨y, hy, hi⟩ := List.mem_flatMap.mp hi
    rcases List.mem_append.mp hy with hy | hy
    · exact hp.lt_length hext (List.mem_flatMap.mpr ⟨y, hy, hi⟩)
    · rw [List.mem_singleton.mp hy] at hi
      exact hx.inside i hi
  · rw [hp.tree_eq hext]
    exact List.map_append

/-- **Each entry point of a list is described as if there were no others.** -/
theorem realizes_addEntryPoints (hs : s.Ordered) (decls : List EntryPointDecl) :
    Realizes Progress.view s {} (decls.foldlM (fun p e => (c.addEntryPoint s p e).result) {})
      (decls.mapM (c.entryTree s)) := by
  have h := Realizes.foldlM decls (c.entryTree s) (fun ts t => ts ++ [t]) (r := ({} : Progress))
    (fun e _ _ hp => realizes_addEntryPoint hs hp e)
    ⟨s.holds_empty, fun i hi => absurd hi List.not_mem_nil⟩
  simp only [List.foldl_append_eq_append, ← List.flatMap_def, List.flatMap_singleton'] at h
  have hid : (fun ts => Progress.view.tree {} ++ ts) = id := rfl
  rwa [hid, id_map] at h

theorem result_entryPoints (c : Config) (s : Source) : (c.entryPoints s).result =
    s.graph.annotations.entryPoints.foldlM (fun p e => (c.addEntryPoint s p e).result) {} :=
  Traced.result_foldlM _ _ _

/-- What a reflection is made of: what its entry points are described from, and the entry points
with the arena at the end. -/
structure MadeOf (c : Config) (s : Source) (p : Progress) (r : Reflection) : Prop where
  source : ∃ words, c.words = .ok words ∧ c.source words = .ok s
  run : (c.entryPoints s).result = .ok p
  result : r = { header := s.graph.header, types := p.arena.types, entryPoints := p.entryPoints }

theorem exists_madeOf (h : c.reflect.result = .ok r) : ∃ s p, c.MadeOf s p r := by
  rw [result_reflect] at h
  obtain ⟨words, hwords, h⟩ := bind_eq_ok_iff.mp h
  obtain ⟨s, hs, h⟩ := bind_eq_ok_iff.mp h
  obtain ⟨p, hp, h⟩ := bind_eq_ok_iff.mp h
  cases h
  exact ⟨s, p, ⟨words, liftM_fault_eq_ok_iff.mp hwords, hs⟩, hp, rfl⟩

namespace MadeOf

variable {p : Progress}

/-- The binary that is reflected has the graph that entry points are described from. -/
theorem source_and_ofWords (h : c.MadeOf s p r) {words : List Word} (hwords : c.words = .ok words) :
    c.source words = .ok s ∧ Graph.ofWords words = .ok s.graph := by
  obtain ⟨words', hwords', hs⟩ := h.source
  rw [hwords, Except.ok.injEq] at hwords'
  subst hwords'
  exact ⟨hs, ofWords_of_source hs⟩

theorem uniqueNames_eq (h : c.MadeOf s p r) : s.uniqueNames = c.uniqueNames := by
  obtain ⟨words, -, hs⟩ := h.source
  exact source_uniqueNames hs

/-- The entry points refer to types in the arena, which keeps what it has to, and are those that are
described one by one. -/
theorem sound_and_trees (h : c.MadeOf s p r) : Progress.view.Sound s p ∧
    s.graph.annotations.entryPoints.mapM (c.entryTree s) = .ok (Progress.view.tree p) := by
  obtain ⟨words, -, hs⟩ := h.source
  have hp := h.run
  rw [result_entryPoints] at hp
  rcases (realizes_addEntryPoints (c := c) (source_ordered hs) _).cases with
    ⟨q, hq, htrees, hsound, -⟩ | ⟨e, he, -⟩
  · rw [hp] at hq
    cases hq
    exact ⟨hsound, htrees⟩
  · rw [hp] at he
    cases he

theorem holds (h : c.MadeOf s p r) : s.Holds p.arena := h.sound_and_trees.1.holds

/-- The entry point at a place is that of the declaration at the same place, whatever the others
are. -/
theorem exists_entryTree (h : c.MadeOf s p r) {k : Nat} {x : EntryPoint TypeIdx}
    (hx : r.entryPoints[k]? = some x) : ∃ e, s.graph.annotations.entryPoints[k]? = some e ∧
      c.entryTree s e = .ok (x.map p.arena.tree) := by
  rw [h.result] at hx
  have htree : (Progress.view.tree p)[k]? = some (x.map p.arena.tree) := by
    show (p.entryPoints.map _)[k]? = _
    rw [List.getElem?_map, hx]
    rfl
  exact exists_of_mapM_eq_ok h.sound_and_trees.2 htree

/-- The entry points of a reflection are assembled from what they reach. -/
theorem exists_assembleTree (h : c.MadeOf s p r) {x : EntryPoint TypeIdx}
    (hx : x ∈ r.entryPoints) : ∃ e ∈ s.graph.annotations.entryPoints, ∃ reach pairing,
      s.assembleTree e reach pairing = .ok (x.map p.arena.tree) := by
  obtain ⟨k, hk⟩ := List.mem_iff_getElem?.mp hx
  obtain ⟨e, he, htree⟩ := h.exists_entryTree hk
  obtain ⟨reach, -, htree⟩ := bind_eq_ok_iff.mp htree
  exact ⟨e, List.mem_of_getElem? he, reach, _, htree⟩

end MadeOf

/-- What a reflection that has a result is made of. -/
theorem exists_progress (h : c.reflect.result = .ok r) :
    ∃ words s p, c.words = .ok words ∧ c.source words = .ok s ∧ Progress.view.Sound s p ∧
      s.graph.annotations.entryPoints.mapM (c.entryTree s) = .ok (Progress.view.tree p) ∧
      r = { header := s.graph.header, types := p.arena.types, entryPoints := p.entryPoints } := by
  obtain ⟨s, p, hr⟩ := exists_madeOf h
  obtain ⟨words, hwords, hs⟩ := hr.source
  obtain ⟨hsound, htrees⟩ := hr.sound_and_trees
  exact ⟨words, s, p, hwords, hs, hsound, htrees, hr.result⟩

end Config

/-! ## References of a reflection -/

/-- Types refer backwards, and entry points refer to types. -/
structure Reflection.Grounded (r : Reflection) : Prop where
  types : ShaderReflect.Grounded r.types
  entryPoints : ∀ e ∈ r.entryPoints, ∀ i ∈ e.refs, i < r.types.length

/-- The type at a place of a reflection, written out. -/
def Reflection.tree (r : Reflection) : TypeIdx → TypeTree := TypeTree.ofDescs r.types

theorem ArenaEntry.Faithful.refs_eq {u : Bool} {e : ArenaEntry} (h : e.Faithful u) :
    e.desc.refs = e.key.refs := by
  rcases h with h | ⟨-, name, name', ms, hk, hd⟩
  · rw [h]
  · rw [hk, hd]
    rfl

/-- The reported types refer backwards, as the types by which places are found do. -/
theorem Source.Holds.grounded_types {s : Source} {a : Arena} (h : s.Holds a) :
    Grounded a.types := by
  intro k desc hk i hi
  rw [Arena.types, List.getElem?_map] at hk
  obtain ⟨e, he, rfl⟩ := Option.map_eq_some_iff.mp hk
  rw [(h.faithful e (List.mem_of_getElem? he)).refs_eq] at hi
  exact h.grounded k e.key (by rw [Arena.keys, List.getElem?_map, he, Option.map_some]) i hi

/-- Without names for structs, the reported types are those by which places are found. -/
theorem Source.Holds.types_eq {s : Source} {a : Arena} (h : s.Holds a)
    (hu : s.uniqueNames = false) : a.types = a.keys := by
  refine List.map_congr_left fun e he => ?_
  rcases h.faithful e he with h | ⟨hu', -⟩
  · exact h
  · rw [hu] at hu'
    cases hu'

theorem Config.grounded_of_reflect {c : Config} {r : Reflection} (h : c.reflect.result = .ok r) :
    r.Grounded := by
  obtain ⟨words, s, p, -, -, hp, -, rfl⟩ := c.exists_progress h
  refine ⟨hp.holds.grounded_types, fun e he i hi => ?_⟩
  show i < (p.arena.entries.map _).length
  rw [List.length_map]
  exact hp.inside i (List.mem_flatMap.mpr ⟨e, he, hi⟩)

/-! ## A small binary -/

/-- The instructions of a binary with two fragment shaders. The first one samples an image, the
second one reads the image and a uniform block whose array has a length that can be overridden.
`sampled` is what the image type says about sampling. -/
def sampleBody (sampled : Word) : List Instruction := [
  ⟨15, [4, 1, 0x61]⟩, ⟨15, [4, 2, 0x62]⟩,
  ⟨71, [11, 33, 1]⟩, ⟨71, [12, 33, 2]⟩, ⟨71, [15, 1, 0]⟩, ⟨71, [16, 1, 1]⟩, ⟨71, [17, 6, 4]⟩,
  ⟨72, [18, 0, 35, 0]⟩,
  ⟨19, [3]⟩, ⟨33, [4, 3]⟩, ⟨22, [5, 32]⟩, ⟨25, [6, 5, 1, 0, 0, 0, sampled, 0]⟩, ⟨26, [7]⟩,
  ⟨27, [8, 6]⟩, ⟨32, [9, 0, 6]⟩, ⟨32, [10, 0, 7]⟩, ⟨59, [9, 11, 0]⟩, ⟨59, [10, 12, 0]⟩,
  ⟨20, [13]⟩, ⟨21, [14, 32, 0]⟩, ⟨48, [13, 15]⟩, ⟨50, [14, 16, 4]⟩, ⟨28, [17, 5, 16]⟩,
  ⟨30, [18, 17]⟩, ⟨32, [19, 2, 18]⟩, ⟨59, [19, 20, 2]⟩,
  ⟨54, [3, 1, 0, 4]⟩, ⟨61, [6, 21, 11]⟩, ⟨61, [7, 22, 12]⟩, ⟨86, [8, 23, 21, 22]⟩, ⟨56, []⟩,
  ⟨54, [3, 2, 0, 4]⟩, ⟨61, [6, 24, 11]⟩, ⟨61, [18, 25, 20]⟩, ⟨56, []⟩]

/-- The binary with these instructions. -/
def sampleWords (sampled : Word) : List Word :=
  [magicNumber, 0x10300, 0, 64, 0] ++ (sampleBody sampled).flatMap Instruction.words

/-- The reflection of the binary that pairs images with samplers. -/
def sampleConfig (sampled : Word) : Config where
  binary := some (sampleWords sampled)
  combineSamplers := true

end ShaderReflect
