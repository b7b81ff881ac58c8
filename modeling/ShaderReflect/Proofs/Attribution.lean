import ShaderReflect.Proofs.Closed
import ShaderReflect.Proofs.Stage.Combining

/-!
# Attributing every resource only adds resources

An entry point is described with the resources that it reaches exactly as it is described with all
resources of the binary, except that what belongs to the others is left out (`EntryPoint.restrict`).
Whatever can be described with all of them can be described with some: in a closed graph, what is
reached is declared, so the analysis cannot fail on it.

* `Reach.analyze_of_closed`: what an entry point reaches is part of what there is.
* `Source.assembleTree_restrict`: an entry point with some of the resources.
* `Config.reflect_allResources`: whole reflections.

Specification, 4.4 (`ref_all_rscs`). The two reflections put types into their arenas in different
orders, and not the same types, so they are compared once types are written out. Neither combines
images with samplers nor makes names unique: with more resources there are more pairs, so that an
image may be combined in one and not in the other, and more names, so that a name may be taken.
-/

namespace ShaderReflect

/-! ## What is reached -/

/-- A set is what another one keeps of it, if that one holds more. -/
theorem IdSet.ids_eq_filter {s t : IdSet} (h : ∀ a ∈ s, a ∈ t) :
    s.ids = t.ids.filter (· ∈ s) := by
  refine eq_of_ascending s.ascending (t.ascending.filter _) fun a => ?_
  rw [List.mem_filter, decide_eq_true_eq]
  exact ⟨fun ha => ⟨h a ha, ha⟩, And.right⟩

/-- A run that keeps the items which pass a test. -/
theorem filterM_eq_ok {ε α : Type} {f : α → Except ε Bool} {p : α → Bool} {xs : List α}
    (h : ∀ x ∈ xs, f x = .ok (p x)) : xs.filterM f = .ok (xs.filter p) := by
  have haux : ∀ acc, xs.filterAuxM f acc = .ok ((xs.filter p).reverse ++ acc) := by
    induction xs with
    | nil => exact fun acc => rfl
    | cons x xs ih =>
      rw [List.forall_mem_cons] at h
      intro acc
      rw [List.filterAuxM, h.1, ok_bind, ih h.2, List.filter_cons]
      cases p x <;> simp
  rw [List.filterM, haux, ok_bind, List.append_nil, List.reverse_reverse, pure_eq_ok]

namespace Reach

variable {g : Graph} {e : EntryPointDecl} {ids : List Ident} {id : Ident}

/-- A set of functions that contains what its members call contains what they reach. -/
theorem mem_keys_of_mem_closure {functions : Table Ident FunctionBody} {unvisited : List Ident}
    {reached : IdSet}
    (h : ∀ id ∈ functions.keys, ∀ callee ∈ calleesOf functions id, callee ∈ functions.keys)
    (hreached : ∀ id ∈ reached, id ∈ functions.keys) :
    ∀ id ∈ closure functions unvisited reached, id ∈ functions.keys := by
  fun_induction closure functions unvisited reached with
  | case1 => exact hreached
  | case2 unvisited reached id hfind ih =>
    have hid : id ∈ reached := by simpa using List.find?_some hfind
    refine ih fun x hx => ?_
    rcases IdSet.mem_insertAll.mp hx with hx | hx
    · exact h id (hreached id hid) x hx
    · exact hreached x hx

/-- The functions that are reached in a closed graph have bodies. -/
theorem mem_keys_of_mem_functionsFrom (hg : g.Closed) (he : e.function ∈ g.functions.keys) :
    ∀ id ∈ functionsFrom g e.function, id ∈ g.functions.keys := by
  refine mem_keys_of_mem_closure (fun id _ callee hcallee => ?_) fun id hid => ?_
  · unfold calleesOf at hcallee
    split at hcallee
    · rename_i body hbody
      exact hg.callees id body hbody callee hcallee
    · cases hcallee
  · rcases IdSet.mem_insert.mp hid with rfl | hid
    · exact he
    · exact absurd hid IdSet.not_mem_empty

/-- A variable is a resource. -/
def isResource (g : Graph) (id : Ident) : Bool := (g.globals.get? id).any (·.storage.isResource)

theorem resourcesAmong_eq_ok (h : ∀ id ∈ ids, id ∈ g.globals.keys) :
    resourcesAmong g ids = .ok (ids.filter (isResource g)) := by
  refine filterM_eq_ok fun id hid => ?_
  obtain ⟨v, hv⟩ := Option.isSome_iff_exists.mp (Table.mem_keys_iff.mp (h id hid))
  rw [Graph.globalVar_eq_ok_iff.mpr hv, ok_bind, isResource, hv]
  rfl

/-- What the functions of a closed graph touch are declared variables. -/
theorem resourcesOf_eq_ok (hg : g.Closed) (hid : id ∈ g.functions.keys) :
    ∃ rs, resourcesOf g id = .ok rs ∧ ∀ v ∈ rs, v ∈ g.globals.keys ∧ isResource g v = true := by
  obtain ⟨body, hbody⟩ := Option.isSome_iff_exists.mp (Table.mem_keys_iff.mp hid)
  refine ⟨body.accessed.ids.filter (isResource g), ?_, fun v hv => ?_⟩
  · unfold resourcesOf
    rw [hbody]
    exact resourcesAmong_eq_ok (hg.accessed id body hbody)
  · rw [List.mem_filter] at hv
    exact ⟨hg.accessed id body hbody v hv.1, hv.2⟩

/-- **What an entry point reaches is part of what there is.** In a closed graph, all of it is
found. -/
theorem analyze_of_closed (hg : g.Closed) (he : e.function ∈ g.functions.keys) {all : Reach}
    (h : analyze g e true = .ok all) : ∃ reach, analyze g e false = .ok reach ∧
      (∀ v ∈ reach.resources, v ∈ all.resources) ∧ reach.interface = all.interface := by
  unfold analyze at h ⊢
  simp only [if_true, Bool.false_eq_true, if_false] at h ⊢
  rw [resourcesAmong_eq_ok fun _ hid => hid, ok_bind] at h
  obtain ⟨interface, hinterface, h⟩ := bind_eq_ok_iff.mp h
  cases h
  have hfunctions := mem_keys_of_mem_functionsFrom hg he
  obtain ⟨rss, hrss⟩ := exists_mapM_eq_ok_iff.mpr fun id hid =>
    (resourcesOf_eq_ok hg (hfunctions id hid)).imp fun _ => And.left
  rw [hrss, map_ok, ok_bind, hinterface, ok_bind, pure_eq_ok]
  refine ⟨_, rfl, fun v hv => ?_, rfl⟩
  obtain ⟨rs, hrs, hv⟩ := List.mem_flatten.mp (IdSet.mem_ofList.mp hv)
  obtain ⟨id, hid, hrs⟩ := (mem_iff_of_mapM_eq_ok hrss).mp hrs
  obtain ⟨rs', hrs', hmem⟩ := resourcesOf_eq_ok hg (hfunctions id hid)
  rw [hrs, Except.ok.injEq] at hrs'
  subst hrs'
  exact IdSet.mem_ofList.mpr (List.mem_filter.mpr (hmem v hv))

end Reach

/-! ## Some of the resources -/

/-- An entry point that some of the resources are attributed to. -/
def EntryPoint.restrict {τ : Type} (p : Ident → Bool) (x : EntryPoint τ) : EntryPoint τ :=
  { x with
    resources := x.resources.filter p
    descriptors := x.descriptors.filter fun d => p d.id
    pushConstants := x.pushConstants.filter fun b => p b.id }

/-- An entry point says the same as another one, about fewer resources. -/
structure EntryPoint.Narrows {τ : Type} (y x : EntryPoint τ) : Prop where
  resources : y.resources.Sublist x.resources
  descriptors : y.descriptors.Sublist x.descriptors
  pushConstants : y.pushConstants.Sublist x.pushConstants
  rest : y = { x with
    resources := y.resources
    descriptors := y.descriptors
    pushConstants := y.pushConstants }

theorem EntryPoint.narrows_restrict {τ : Type} (p : Ident → Bool) (x : EntryPoint τ) :
    (x.restrict p).Narrows x where
  resources := List.filter_sublist
  descriptors := List.filter_sublist
  pushConstants := List.filter_sublist
  rest := rfl

namespace Source

variable {s : Source} {pairing : Pairing} {id : Ident} {p : Ident → Bool}

/-- A block of push constants has the ID of its variable, a struct type that is written out, and
the size of that. -/
theorem pushConstantTree_eq_ok {v : Variable} {b : PushConstant TypeTree}
    (h : s.pushConstantTree id v = .ok b) : b.id = id ∧ b.size = b.type.size? ∧
      b.type.members?.isSome ∧ ∃ pointee, s.tree pointee = .ok b.type := by
  obtain ⟨pointee, -, h⟩ := bind_eq_ok_iff.mp h
  obtain ⟨type, htype, h⟩ := bind_eq_ok_iff.mp h
  split at h
  · rename_i members hmembers
    cases h
    exact ⟨rfl, rfl, Option.isSome_iff_exists.mpr ⟨members, hmembers⟩, pointee, htype⟩
  · cases h

/-- The blocks that a variable adds are described as such. -/
theorem exists_pushConstantTree_of_mem
    {item : List (Descriptor TypeTree) × List (PushConstant TypeTree)}
    (h : s.resourceTrees pairing id = .ok item) {b : PushConstant TypeTree} (hb : b ∈ item.2) :
    ∃ v, s.pushConstantTree id v = .ok b := by
  obtain ⟨v, -, h⟩ := bind_eq_ok_iff.mp h
  split at h
  · obtain ⟨block, hblock, h⟩ := bind_eq_ok_iff.mp h
    cases h
    obtain rfl := List.mem_singleton.mp hb
    exact ⟨v, hblock⟩
  · obtain ⟨d?, -, h⟩ := bind_eq_ok_iff.mp h
    cases h
    cases hb

theorem id_of_mem_pushConstantTrees
    {item : List (Descriptor TypeTree) × List (PushConstant TypeTree)}
    (h : s.resourceTrees pairing id = .ok item) {b : PushConstant TypeTree} (hb : b ∈ item.2) :
    b.id = id := by
  obtain ⟨v, hb⟩ := exists_pushConstantTree_of_mem h hb
  exact (pushConstantTree_eq_ok hb).1

/-- Items that belong to a variable all pass a test of their IDs, or none of them does. -/
theorem filter_of_forall_id {α : Type} {xs : List α} {f : α → Ident} (h : ∀ x ∈ xs, f x = id) :
    xs.filter (fun x => p (f x)) = if p id then xs else [] := by
  split
  · rename_i hp
    exact List.filter_eq_self.mpr fun x hx => by rw [h x hx, hp]
  · rename_i hp
    exact List.filter_eq_nil_iff.mpr fun x hx => by rw [h x hx]; exact hp

/-- **Some of the resource variables** add what they add among all, and in the same order. -/
theorem mapM_resourceTrees_filter {ids : List Ident}
    {items : List (List (Descriptor TypeTree) × List (PushConstant TypeTree))}
    (h : ids.mapM (s.resourceTrees pairing) = .ok items) :
    ∃ items', (ids.filter p).mapM (s.resourceTrees pairing) = .ok items' ∧
      joinBoth items' = ((joinBoth items).1.filter fun d => p d.id,
        (joinBoth items).2.filter fun b => p b.id) := by
  simp only [mapM_eq_ok_iff] at h ⊢
  induction h with
  | nil => exact ⟨[], .nil, rfl⟩
  | @cons id item ids items hitem _ ih =>
    obtain ⟨items', hitems', hjoin⟩ := ih
    have hfst := filter_of_forall_id (p := p) fun d hd => id_of_mem_resourceTrees hitem hd
    have hsnd := filter_of_forall_id (p := p) fun b hb => id_of_mem_pushConstantTrees hitem hb
    simp only [joinBoth, Prod.mk.injEq] at hjoin
    simp only [List.filter_cons, joinBoth, List.flatMap_cons, List.filter_append, hfst, hsnd,
      ← hjoin.1, ← hjoin.2]
    cases p id with
    | true => exact ⟨item :: items', .cons hitem hitems', rfl⟩
    | false => exact ⟨items', hitems', rfl⟩

/-- **An entry point with some of the resources** is the one with all of them, restricted. -/
theorem assembleTree_restrict (hu : s.uniqueNames = false) {e : EntryPointDecl} {reach all : Reach}
    {x : EntryPoint TypeTree} (h : s.assembleTree e all pairing = .ok x)
    (hresources : ∀ v ∈ reach.resources, v ∈ all.resources)
    (hinterface : reach.interface = all.interface) :
    s.assembleTree e reach pairing = .ok (x.restrict (· ∈ reach.resources)) := by
  obtain ⟨items, hitems, hdescriptors, hblocks, hreplace⟩ := assembleTree_replace hu h
  obtain ⟨items', hitems', hjoin⟩ := mapM_resourceTrees_filter (p := (· ∈ reach.resources)) hitems
  rw [← IdSet.ids_eq_filter hresources] at hitems'
  rw [hreplace reach pairing items' hinterface hitems', hjoin, EntryPoint.restrict,
    resources_assembleTree h, ← IdSet.ids_eq_filter hresources, hdescriptors, hblocks,
    filter_sortByOrder]

end Source

/-! ## Reflections -/

namespace Config

variable {c : Config} {s : Source} {r : Reflection}

/-- Without pairing, an entry point that can be described with all resources can be described with
those that it reaches. -/
theorem entryTree_allResources (hu : s.uniqueNames = false) (hc : c.combineSamplers = false)
    (hg : s.graph.Closed) {e : EntryPointDecl} (he : e.function ∈ s.graph.functions.keys)
    {x : EntryPoint TypeTree} (h : { c with allResources := true }.entryTree s e = .ok x) :
    ∃ reach, Reach.analyze s.graph e false = .ok reach ∧
      (x.restrict (· ∈ reach.resources)).resources = reach.resources.ids ∧
      { c with allResources := false }.entryTree s e =
        .ok (x.restrict (· ∈ reach.resources)) := by
  obtain ⟨all, hall, hx⟩ := bind_eq_ok_iff.mp h
  obtain ⟨reach, hreach, hresources, hinterface⟩ :=
    Reach.analyze_of_closed hg he (liftM_fault_eq_ok_iff.mp hall)
  have hpairing : ∀ b r, { c with allResources := b }.pairing s.graph r = {} := fun b r => by
    unfold pairing
    rw [if_neg (by rw [hc]; exact Bool.false_ne_true)]
  rw [hpairing] at hx
  have hy := Source.assembleTree_restrict hu hx hresources hinterface
  refine ⟨reach, hreach, Source.resources_assembleTree hy, ?_⟩
  unfold entryTree
  rw [hreach, liftM_fault_ok, ok_bind, hpairing]
  exact hy

/-- **Attributing every resource only adds resources.** A binary that can be reflected with all
resources attributed to each entry point can be reflected with those that each one reaches. The
entry points are then the same once types are written out, apart from the resources, descriptors and
push constant blocks of variables that are not reached, which are left out. -/
theorem reflect_allResources (hu : c.uniqueNames = false) (hc : c.combineSamplers = false)
    (hr : { c with allResources := true }.reflect.result = .ok r) :
    ∃ r', { c with allResources := false }.reflect.result = .ok r' ∧ r'.header = r.header ∧
      r'.entryPoints.length = r.entryPoints.length ∧
      ∀ k x, r.expanded[k]? = some x → ∃ s reach y,
        { c with allResources := false }.Reaches k s reach ∧ r'.expanded[k]? = some y ∧
        y.Narrows x ∧ y = x.restrict (· ∈ reach.resources) ∧ y.resources = reach.resources.ids := by
  have hall : { c with allResources := true }.trees = .ok (r.header, r.expanded) := by
    rw [← map_expanded_reflect (c := { c with allResources := true }) hu, hr]
    rfl
  let R (s : Source) (e : EntryPointDecl) (x y : EntryPoint TypeTree) : Prop :=
    ∃ reach, Reach.analyze s.graph e false = .ok reach ∧
      y = x.restrict (· ∈ reach.resources) ∧ y.resources = reach.resources.ids
  have heach : ∀ words s, c.source words = .ok s → ∀ e ∈ s.graph.annotations.entryPoints, ∀ x,
      { c with allResources := true }.entryTree s e = .ok x →
      ∃ y, { c with allResources := false }.entryTree s e = .ok y ∧ R s e x y := by
    intro words s hs e he x hx
    have hclosed := closed_of_source hs
    obtain ⟨reach, hreach, hids, hy⟩ := entryTree_allResources ((source_uniqueNames hs).trans hu) hc
      hclosed (hclosed.entryPoints e he) hx
    exact ⟨_, hy, reach, hreach, rfl, hids⟩
  obtain ⟨ys, hys, hlength, hentries⟩ := exists_trees { c with allResources := true }
    { c with allResources := false } rfl (fun _ => rfl) heach hall
  rw [← map_expanded_reflect (c := { c with allResources := false }) hu] at hys
  obtain ⟨r', hr', heq⟩ := map_eq_ok_iff.mp hys
  obtain ⟨hheader, rfl⟩ := Prod.mk.inj heq
  refine ⟨r', hr', hheader, ?_, fun k x hx => ?_⟩
  · simpa only [Reflection.expanded, List.length_map] using hlength
  · obtain ⟨words, s, e, y, hwords, hs, he, hy, reach, hreach, rfl, hids⟩ := hentries k x hx
    exact ⟨s, reach, _, ⟨words, e, hwords, hs, he, hreach⟩, hy, x.narrows_restrict _, rfl, hids⟩

/-- The reflection of the small binary without pairing. -/
def sampleAttribution : Config := { sampleConfig 1 with combineSamplers := false }

set_option maxRecDepth 100000 in
/-- Each entry point of the small binary reaches two of its three resources. -/
theorem sample_reflect_allResources :
    sampleAttribution.uniqueNames = false ∧ sampleAttribution.combineSamplers = false ∧ ∃ r r',
    { sampleAttribution with allResources := true }.reflect.result = .ok r ∧
    { sampleAttribution with allResources := false }.reflect.result = .ok r' ∧
    r'.header = r.header ∧ r'.entryPoints.length = r.entryPoints.length ∧
    r.entryPoints.map (·.resources) = [[11, 12, 20], [11, 12, 20]] ∧
    r'.entryPoints.map (·.resources) = [[11, 12], [11, 20]] ∧
    ∀ k x, r.expanded[k]? = some x → ∃ s reach y,
      { sampleAttribution with allResources := false }.Reaches k s reach ∧
      r'.expanded[k]? = some y ∧ y.Narrows x ∧ y = x.restrict (· ∈ reach.resources) ∧
      y.resources = reach.resources.ids := by
  obtain ⟨r, hr, hall⟩ := exists_eq_ok_of_any
    (x := { sampleAttribution with allResources := true }.reflect.result)
    (p := fun r => r.entryPoints.map (·.resources) = [[11, 12, 20], [11, 12, 20]])
    (by decide +kernel)
  obtain ⟨r', hr', hheader, hlength, hentries⟩ :=
    reflect_allResources (c := sampleAttribution) rfl rfl hr
  obtain ⟨r'', hr'', hsome⟩ := exists_eq_ok_of_any
    (x := { sampleAttribution with allResources := false }.reflect.result)
    (p := fun r => r.entryPoints.map (·.resources) = [[11, 12], [11, 20]]) (by decide +kernel)
  obtain rfl : r'' = r' := Except.ok.inj (hr''.symm.trans hr')
  exact ⟨rfl, rfl, r, r'', hr, hr', hheader, hlength, of_decide_eq_true hall,
    of_decide_eq_true hsome, hentries⟩

end Config

end ShaderReflect
