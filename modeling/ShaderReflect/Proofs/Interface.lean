import ShaderReflect.Proofs.ArrayLengths
import ShaderReflect.Proofs.Layout.Refinement
import ShaderReflect.Proofs.Stage.Reachability
import ShaderReflect.Proofs.Stage.Trees

/-!
# The interface of a stage is exact

An entry point may declare variables of its interface in any order, more than once, and among
variables that are neither inputs nor outputs. The inputs and outputs that are reported are those
among them that have a location (`Graph.Locates`), once each and in order, with what is declared
about them (`Source.Located`).

* `Source.passes_of_interfaceTrees`: what one variable adds to the inputs, or to the outputs.
* `Source.map_id_side`: what all variables add.
* `Source.exists_items_interface`: the inputs and outputs of an entry point are what its variables
  add, put in order.
* `Config.reflect_interface`: whole reflections.

Specification, 4.4 (interface variables) and 4.6 (inputs and outputs). The location has to have a
parameter: a decoration without one counts as none. A variable without a component has component
zero, so two variables may share location and component, and their IDs put them in order.
-/

namespace ShaderReflect

/-! ## Variables with a location -/

/-- A decoration has a first parameter. -/
theorem Annotations.decorationWord?_eq_some_iff {as : Annotations} {id : Ident}
    {member : Option Word} {kind w : Word} : as.decorationWord? id member kind = some w ↔
      ∃ rest, as.decoration? id member kind = some (w :: rest) := by
  unfold Annotations.decorationWord?
  rw [Option.bind_eq_some_iff]
  constructor
  · rintro ⟨ws, hws, hw⟩
    obtain ⟨rest, rfl⟩ := List.head?_eq_some_iff.mp hw
    exact ⟨rest, hws⟩
  · rintro ⟨rest, hrest⟩
    exact ⟨w :: rest, hrest, rfl⟩

/-- The interface of a stage is made up of inputs and outputs. -/
theorem StorageClass.isInterface_iff {storage : StorageClass} :
    storage.isInterface = true ↔ storage = .input ∨ storage = .output := by
  cases storage <;> simp [StorageClass.isInterface]

namespace Graph

variable {g : Graph} {storage : StorageClass} {id : Ident}

/-- A variable of a storage class has a location: there is a decoration for it that has a
parameter. -/
def Locates (g : Graph) (storage : StorageClass) (id : Ident) : Prop :=
  ∃ var location rest, g.globals.get? id = some var ∧ var.storage = storage ∧
    g.annotations.decoration? id none Decoration.location = some (location :: rest)

/-- Whether a variable of a storage class has a location. -/
def isLocated (g : Graph) (storage : StorageClass) (id : Ident) : Bool :=
  (g.globals.get? id).any (·.storage = storage) &&
    (g.annotations.decorationWord? id none Decoration.location).isSome

theorem isLocated_iff : g.isLocated storage id = true ↔ g.Locates storage id := by
  unfold isLocated Locates
  rw [Bool.and_eq_true, Option.any_eq_true, Option.isSome_iff_exists]
  simp only [Annotations.decorationWord?_eq_some_iff, decide_eq_true_eq]
  constructor
  · rintro ⟨⟨var, hvar, hstorage⟩, location, rest, hlocation⟩
    exact ⟨var, location, rest, hvar, hstorage, hlocation⟩
  · rintro ⟨var, location, rest, hvar, hstorage, hlocation⟩
    exact ⟨⟨var, hvar, hstorage⟩, location, rest, hlocation⟩

end Graph

namespace Source

variable {s : Source} {storage : StorageClass} {id : Ident} {ids : List Ident}
  {item : List (InterfaceVar TypeTree) × List (InterfaceVar TypeTree)}
  {items : List (List (InterfaceVar TypeTree) × List (InterfaceVar TypeTree))}

/-- What is reported about a variable is what is declared about it: its location, its component,
which is 0 if none is declared, and the type that it points to. -/
structure Located (s : Source) (storage : StorageClass) {τ : Type} (tree : τ → TypeTree)
    (v : InterfaceVar τ) : Prop where
  location : ∃ rest,
    s.graph.annotations.decoration? v.id none Decoration.location = some (v.location :: rest)
  component : v.component =
    (s.graph.annotations.decorationWord? v.id none Decoration.component).getD 0
  type : ∃ var pointer pointee, s.graph.globals.get? v.id = some var ∧ var.storage = storage ∧
    s.graph.types.get? var.type = some (.pointer pointer pointee) ∧
    s.Spells pointee (tree v.type)

/-- What is reported about a variable can refer to types in another way. -/
theorem Located.of_eq {τ σ : Type} {tree : τ → TypeTree} {tree' : σ → TypeTree}
    {v : InterfaceVar τ} {v' : InterfaceVar σ} (h : s.Located storage tree v)
    (horder : v'.order = v.order) (htype : tree' v'.type = tree v.type) :
    s.Located storage tree' v' := by
  simp only [InterfaceVar.order, Prod.mk.injEq] at horder
  obtain ⟨hlocation, hcomponent, hid⟩ := horder
  obtain ⟨location, component, type⟩ := h
  rw [← hlocation, ← hid] at location
  rw [← hcomponent, ← hid] at component
  rw [← htype, ← hid] at type
  exact ⟨location, component, type⟩

/-! ## One variable -/

/-- The first or the second of two lists: that of inputs, or that of outputs. -/
def side {α : Type} (storage : StorageClass) (both : List α × List α) : List α :=
  if storage = .input then both.1 else both.2

theorem side_joinBoth {α : Type} (storage : StorageClass) (both : List (List α × List α)) :
    side storage (joinBoth both) = both.flatMap (side storage) := by
  unfold side joinBoth
  by_cases h : storage = .input
  · simp only [h, if_true]
  · simp only [h, if_false]

theorem side_map {α β : Type} (storage : StorageClass) (f : α → β) (both : List α × List α) :
    side storage (both.map (List.map f) (List.map f)) = (side storage both).map f :=
  (apply_ite (List.map f) _ _ _).symm

/-- What a variable adds to the inputs, or to the outputs: nothing if it is not one or has no
location, and otherwise what is declared about it. -/
inductive Passes (s : Source) (storage : StorageClass) (id : Ident) :
    List (InterfaceVar TypeTree) → Prop
  | absent (h : s.graph.isLocated storage id = false) : s.Passes storage id []
  | present {v : InterfaceVar TypeTree} (h : s.graph.isLocated storage id = true) (hid : v.id = id)
    (hv : s.Located storage (fun t => t) v) : s.Passes storage id [v]

/-- A variable with a location adds what is declared about it, on its own side. -/
theorem exists_located_of_interfaceTrees (hs : s.Ordered) {var : Variable} {location : Word}
    (hvar : s.graph.globals.get? id = some var)
    (hlocation : s.graph.annotations.decorationWord? id none Decoration.location = some location)
    (h : s.interfaceTrees id = .ok item) : ∃ v : InterfaceVar TypeTree, v.id = id ∧
      s.Located var.storage (fun t => t) v ∧
      item = if var.storage = .input then ([v], []) else ([], [v]) := by
  obtain ⟨var', hvar', h⟩ := bind_eq_ok_iff.mp h
  have hvar' := Graph.globalVar_eq_ok_iff.mp (liftM_fault_eq_ok_iff.mp hvar')
  obtain rfl : var = var' := Option.some.inj (hvar.symm.trans hvar')
  rw [hlocation] at h
  obtain ⟨pointee, hpointee, h⟩ := bind_eq_ok_iff.mp h
  obtain ⟨t, ht, h⟩ := bind_eq_ok_iff.mp h
  obtain ⟨pointer, hpointer⟩ := Graph.pointee_eq_ok (liftM_fault_eq_ok_iff.mp hpointee)
  cases h
  refine ⟨_, ?_, ?_, rfl⟩
  · rfl
  · exact ⟨Annotations.decorationWord?_eq_some_iff.mp hlocation, rfl,
      var, pointer, pointee, hvar, rfl, hpointer, spells_of_tree hs ht⟩

/-- **What one variable adds**, if it is an input or an output. -/
theorem passes_of_interfaceTrees (hs : s.Ordered) (hside : storage.isInterface = true)
    (hid : Reach.isInterface s.graph id = true) (h : s.interfaceTrees id = .ok item) :
    s.Passes storage id (side storage item) := by
  obtain ⟨var, hvar, hvarSide⟩ := (Option.any_eq_true _ _).mp hid
  cases hlocation : s.graph.annotations.decorationWord? id none Decoration.location with
  | none =>
    have hitem : item = ([], []) := by
      obtain ⟨_, -, h⟩ := bind_eq_ok_iff.mp h
      rw [hlocation] at h
      cases h
      rfl
    have hnone : side storage item = [] := by simp [hitem, side]
    rw [hnone]
    exact .absent (by simp [Graph.isLocated, hlocation])
  | some location =>
    obtain ⟨v, hv, hlocated, hitem⟩ := exists_located_of_interfaceTrees hs hvar hlocation h
    by_cases hstorage : var.storage = storage
    · -- The variable is on its own side.
      subst hstorage
      have hone : side var.storage item = [v] := by
        rw [hitem, side]
        split <;> rfl
      rw [hone]
      exact .present (by simp [Graph.isLocated, hvar, hlocation]) hv hlocated
    · -- The variable is on the other side.
      have hnone : side storage item = [] := by
        rw [hitem, side]
        rcases StorageClass.isInterface_iff.mp hside with rfl | rfl
        · simp [hstorage]
        · simp [(StorageClass.isInterface_iff.mp hvarSide).resolve_right hstorage]
      rw [hnone]
      exact .absent (by simp [Graph.isLocated, hvar, hstorage])

/-! ## All variables -/

/-- What each of some inputs and outputs adds. -/
theorem passes_of_mapM (hs : s.Ordered) (hside : storage.isInterface = true)
    (hids : ∀ id ∈ ids, Reach.isInterface s.graph id = true)
    (hitems : ids.mapM s.interfaceTrees = .ok items) :
    List.Forall₂ (fun id item => s.Passes storage id (side storage item)) ids items := by
  refine ((List.forall₂_and_left _ _).mpr ⟨hids, mapM_eq_ok_iff.mp hitems⟩).imp ?_
  rintro id item ⟨hid, hitem⟩
  exact passes_of_interfaceTrees hs hside hid hitem

/-- **What all variables add** is one item for each input, or output, that has a location, in their
order. -/
theorem map_id_side
    (h : List.Forall₂ (fun id item => s.Passes storage id (side storage item)) ids items) :
    (side storage (joinBoth items)).map (·.id) = ids.filter (s.graph.isLocated storage) := by
  rw [side_joinBoth]
  induction h with
  | nil => rfl
  | @cons id item ids items hitem _ ih =>
    rw [List.flatMap_cons, List.map_append, ih]
    generalize side storage item = added at hitem
    cases hitem with
    | absent h => rw [List.filter_cons_of_neg (by simp [h])]; rfl
    | present h hid => rw [List.filter_cons_of_pos h, List.map_singleton, hid]; rfl

/-- Each item is what is declared about its variable. -/
theorem located_of_mem_side
    (h : List.Forall₂ (fun id item => s.Passes storage id (side storage item)) ids items)
    {v : InterfaceVar TypeTree} (hv : v ∈ side storage (joinBoth items)) :
    s.Located storage (fun t => t) v := by
  rw [side_joinBoth] at hv
  obtain ⟨item, hitem, hv⟩ := List.mem_flatMap.mp hv
  obtain ⟨k, hk⟩ := List.getElem?_of_mem hitem
  obtain ⟨id, -, hpasses⟩ := getElem?_eq_some_of_forall₂ h hk
  generalize side storage item = added at hpasses hv
  cases hpasses with
  | absent => cases hv
  | present _ _ hlocated =>
    obtain rfl := List.mem_singleton.mp hv
    exact hlocated

/-! ## One side of an entry point -/

/-- The inputs, or the outputs, are exact: there is one for each declared variable of the storage
class that has a location, it is what is declared about the variable, and all are in strictly
ascending order of location, component and ID. -/
structure SideExact (s : Source) (storage : StorageClass) (tree : TypeIdx → TypeTree)
    (declared : List Ident) (vs : List (InterfaceVar TypeIdx)) : Prop where
  declared : ∀ id, id ∈ vs.map (·.id) ↔ id ∈ declared ∧ s.graph.Locates storage id
  once : (vs.map (·.id)).Nodup
  located : ∀ v ∈ vs, s.Located storage tree v
  order : vs.Pairwise fun v v' => Before v.order v'.order

/-- **One side of an entry point is exact**, if it is what the declared inputs and outputs add, put
in order. -/
theorem sideExact_of_items (hs : s.Ordered) (hside : storage.isInterface = true)
    {declared : List Ident} {tree : TypeIdx → TypeTree} {vs : List (InterfaceVar TypeIdx)}
    (hitems : (declared.filter (Reach.isInterface s.graph)).eraseDups.mapM s.interfaceTrees =
      .ok items)
    (hvs : vs.map (fun v => (v.order, tree v.type)) =
      (sortByOrder InterfaceVar.order (side storage (joinBoth items))).map
        fun v => (v.order, v.type)) : s.SideExact storage tree declared vs := by
  have hpasses : List.Forall₂ (fun id item => s.Passes storage id (side storage item)) _ items :=
    passes_of_mapM hs hside (fun _ hid => (List.mem_filter.mp (List.mem_eraseDups.mp hid)).2) hitems
  have hids := map_id_side hpasses
  have horders : vs.map InterfaceVar.order =
      (sortByOrder InterfaceVar.order (side storage (joinBoth items))).map InterfaceVar.order := by
    have h := congrArg (List.map Prod.fst) hvs
    rwa [List.map_map, List.map_map] at h
  have hperm : (vs.map (·.id)).Perm ((side storage (joinBoth items)).map (·.id)) := by
    have h := (perm_of_map_order horders).map (·.2.2)
    rwa [List.map_map, List.map_map] at h
  have hnodup : ((side storage (joinBoth items)).map (·.id)).Nodup := by
    rw [hids]
    exact (Reach.nodup_eraseDups _).filter _
  constructor
  · intro id
    rw [hperm.mem_iff, hids, List.mem_filter, List.mem_eraseDups, List.mem_filter,
      Graph.isLocated_iff]
    constructor
    · rintro ⟨⟨hid, -⟩, hlocated⟩
      exact ⟨hid, hlocated⟩
    · rintro ⟨hid, hlocated⟩
      refine ⟨⟨hid, ?_⟩, hlocated⟩
      obtain ⟨var, -, -, hvar, rfl, -⟩ := hlocated
      simpa [Reach.isInterface, hvar] using hside
  · exact hperm.nodup_iff.mpr hnodup
  · intro v hv
    have hface := hvs ▸
      List.mem_map_of_mem (f := fun v : InterfaceVar TypeIdx => (v.order, tree v.type)) hv
    obtain ⟨v', hv', heq⟩ := List.mem_map.mp hface
    simp only [Prod.mk.injEq] at heq
    exact (located_of_mem_side hpasses (mem_sortByOrder.mp hv')).of_eq heq.1.symm heq.2.symm
  · refine pairwise_of_map_order horders (.of_map (fun t => t.2.2) ?_)
    rwa [List.map_map]

/-! ## Entry points -/

/-- **The inputs and outputs of an entry point** are what its variables add, put in order and, apart
from this, changed in nothing but names. -/
theorem exists_items_interface {e : EntryPointDecl} {reach : Reach} {pairing : Pairing}
    {x : EntryPoint TypeTree} (h : s.assembleTree e reach pairing = .ok x) : ∃ items,
    reach.interface.mapM s.interfaceTrees = .ok items ∧ x.interface = e.interface ∧
    ∀ storage, (side storage (x.inputs, x.outputs)).map (fun v => (v.order, v.type)) =
      (sortByOrder InterfaceVar.order (side storage (joinBoth items))).map
        fun v => (v.order, v.type) := by
  obtain ⟨resources, -, h⟩ := bind_eq_ok_iff.mp h
  obtain ⟨interface, hinterface, h⟩ := bind_eq_ok_iff.mp h
  obtain ⟨items, hitems, rfl⟩ := map_eq_ok_iff.mp hinterface
  obtain ⟨constants, -, h⟩ := bind_eq_ok_iff.mp h
  obtain ⟨size, -, h⟩ := bind_eq_ok_iff.mp h
  refine ⟨items, hitems, ?_⟩
  cases h
  split
  · refine ⟨rfl, fun storage => ?_⟩
    unfold side
    split <;> exact EntryPoint.map_nameItems _ fun _ _ => rfl
  · refine ⟨rfl, fun storage => ?_⟩
    unfold side
    split <;> rfl

end Source

/-! ## Reflections -/

/-- The types of a reflection are those of an arena. They are reported as they are found in it, but
for the names of structs if names are asked for. -/
structure Arena.Reports (a : Arena) (c : Config) (r : Reflection) : Prop where
  types : r.types = a.types
  faithful : ∀ e ∈ a.entries, e.Faithful c.uniqueNames
  tree : c.uniqueNames = false → r.tree = a.tree

namespace Config

variable {c : Config} {r : Reflection} {s : Source} {p : Progress}

theorem MadeOf.reports (h : c.MadeOf s p r) : p.arena.Reports c r where
  types := by rw [h.result]
  faithful := h.uniqueNames_eq ▸ h.holds.faithful
  tree hu := by
    funext i
    rw [h.result, Reflection.tree, h.holds.types_eq (h.uniqueNames_eq.trans hu)]
    rfl

/-- **The interface of a stage is exact.** The inputs of an entry point are the variables of its
interface that are inputs and have a location, once each, whatever else its interface lists and how
often; and so are the outputs. Each has the location, the component and the type that are declared,
and both lists are in strictly ascending order of location, component and ID. -/
theorem reflect_interface (h : c.reflect.result = .ok r) {k : Nat} {x : EntryPoint TypeIdx}
    (hx : r.entryPoints[k]? = some x) : ∃ (words : List Word) (s : Source) (e : EntryPointDecl)
      (a : Arena), c.words = .ok words ∧ c.source words = .ok s ∧
      s.graph.annotations.entryPoints[k]? = some e ∧ a.Reports c r ∧ x.interface = e.interface ∧
      s.SideExact .input a.tree e.interface x.inputs ∧
      s.SideExact .output a.tree e.interface x.outputs := by
  obtain ⟨s, p, hr⟩ := exists_madeOf h
  obtain ⟨words, hwords, hs⟩ := hr.source
  obtain ⟨e, he, htree⟩ := hr.exists_entryTree hx
  obtain ⟨reach, hreach, htree⟩ := bind_eq_ok_iff.mp htree
  obtain ⟨items, hitems, hinterface, hsides⟩ := Source.exists_items_interface htree
  have hg := closed_of_source hs
  obtain ⟨-, -, hfound⟩ := Reach.parts_of_analyze hg (hg.entryPoints e (List.mem_of_getElem? he))
    (liftM_fault_eq_ok_iff.mp hreach)
  obtain ⟨-, hfound⟩ := Reach.interfaceOf_eq_ok_iff.mp hfound
  rw [hfound] at hitems
  have hexact : ∀ storage : StorageClass, storage.isInterface = true →
      s.SideExact storage p.arena.tree e.interface
        (Source.side storage (x.inputs, x.outputs)) := by
    intro storage hside
    refine Source.sideExact_of_items (source_ordered hs) hside hitems ?_
    rw [← hsides storage]
    show _ = (Source.side storage
      (Prod.map (List.map (·.map p.arena.tree)) (List.map _) (x.inputs, x.outputs))).map _
    rw [Source.side_map, List.map_map]
    rfl
  exact ⟨words, s, e, p.arena, hwords, hs, he, hr.reports, hinterface, hexact .input rfl,
    hexact .output rfl⟩

/-- The instructions of a binary with a fragment shader whose interface lists four inputs with
locations, one of them twice, a built-in, an output, and a uniform that has a location too. -/
def sampleInterfaceBody : List Instruction := [
  ⟨15, [4, 2, 0x61, 21, 20, 25, 22, 21, 23, 24, 26]⟩,
  ⟨71, [20, 30, 1]⟩, ⟨71, [21, 30, 0]⟩, ⟨71, [21, 31, 1]⟩, ⟨71, [22, 30, 0]⟩, ⟨71, [23, 11, 15]⟩,
  ⟨71, [24, 30, 0]⟩, ⟨71, [25, 30, 3]⟩, ⟨71, [26, 30, 0]⟩,
  ⟨19, [3]⟩, ⟨33, [4, 3]⟩, ⟨22, [5, 32]⟩, ⟨23, [6, 5, 4]⟩, ⟨32, [7, 1, 6]⟩, ⟨32, [8, 3, 6]⟩,
  ⟨32, [9, 0, 6]⟩, ⟨59, [7, 20, 1]⟩, ⟨59, [7, 21, 1]⟩, ⟨59, [7, 22, 1]⟩, ⟨59, [7, 23, 1]⟩,
  ⟨59, [8, 24, 3]⟩, ⟨59, [9, 25, 0]⟩, ⟨59, [7, 26, 1]⟩, ⟨54, [3, 2, 0, 4]⟩, ⟨56, []⟩]

/-- The words of the binary with this shader. -/
def sampleInterfaceWords : List Word :=
  [magicNumber, 0x10300, 0, 64, 0] ++ sampleInterfaceBody.flatMap Instruction.words

set_option maxRecDepth 100000 in
/-- There are four inputs, two of them at the same location and component, and one output. -/
theorem sample_reflect_interface : ∃ (c : Config) (r : Reflection) (x : EntryPoint TypeIdx)
    (s : Source) (a : Arena), c.binary = some sampleInterfaceWords ∧ c.reflect.result = .ok r ∧
    r.entryPoints[0]? = some x ∧ x.interface = [21, 20, 25, 22, 21, 23, 24, 26] ∧
    (∀ id, id ∈ x.inputs.map (·.id) ↔ id ∈ [21, 20, 22, 21, 26]) ∧
    (∀ id, id ∈ x.outputs.map (·.id) ↔ id ∈ [24]) ∧ a.Reports c r ∧
    s.SideExact .input a.tree x.interface x.inputs ∧
    s.SideExact .output a.tree x.interface x.outputs := by
  obtain ⟨g, hg, hlocated⟩ := exists_eq_ok_of_any (x := Graph.ofWords sampleInterfaceWords)
    (p := fun g =>
      [21, 20, 25, 22, 21, 23, 24, 26].filter (g.isLocated .input) = [21, 20, 22, 21, 26] ∧
      [21, 20, 25, 22, 21, 23, 24, 26].filter (g.isLocated .output) = [24])
    (by decide +kernel)
  obtain ⟨hinputs, houtputs⟩ := of_decide_eq_true hlocated
  let c : Config := { binary := some sampleInterfaceWords }
  obtain ⟨r, hr, hx⟩ := exists_eq_ok_of_any (x := c.reflect.result)
    (p := fun r => r.entryPoints[0]?.any fun x => x.interface = [21, 20, 25, 22, 21, 23, 24, 26])
    (by decide +kernel)
  obtain ⟨x, hx, hdeclared⟩ := (Option.any_eq_true _ _).mp hx
  have hdeclared := of_decide_eq_true hdeclared
  obtain ⟨words, s, e, a, hwords, hs, -, hreports, hinterface, hin, hout⟩ := reflect_interface hr hx
  obtain ⟨g', σ, hg', -, rfl⟩ := source_eq_ok_iff.mp hs
  cases hwords
  obtain rfl := Except.ok.inj (hg.symm.trans hg')
  rw [← hinterface] at hin hout
  refine ⟨c, r, x, _, a, rfl, hr, hx, hdeclared, fun id => ?_, fun id => ?_, hreports, hin, hout⟩
  · rw [hin.declared, ← Graph.isLocated_iff, hdeclared, ← List.mem_filter, hinputs]
  · rw [hout.declared, ← Graph.isLocated_iff, hdeclared, ← List.mem_filter, houtputs]

end Config

end ShaderReflect
