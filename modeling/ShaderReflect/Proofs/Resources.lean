import ShaderReflect.Proofs.ArrayLengths
import ShaderReflect.Proofs.Attribution

/-!
# Every resource is reported once, in order

A resource variable of an entry point adds one block of push constants, one descriptor or nothing to
what is said about the entry point (`Source.Adds`), and which of these it is can be told from its
storage, from its type without array dimensions (`Graph.Unwraps`) and from the samplers that are
removed. So nothing is lost or reported twice, whatever the variables are.

* `Source.adds_of_resourceTrees`: what one variable adds.
* `Source.map_id_blocks`, `Source.sublist_descriptors`: what all variables add.
* `Source.reportsOnce_of_adds`: the resources of an entry point, put in order.
* `Config.reflect_reportsOnce`: whole reflections.

Specification, 4.4 to 4.6. Variables of other types, such as a resource that is a plain number, are
in the list of resources and have no descriptor; the reflection notes a warning for each. Dimensions
are the lengths of the arrays that are taken off, outermost first; an array of unknown length is
only taken off outside of all others.
-/

namespace ShaderReflect

/-- Whether something of a type is bound through a descriptor. -/
def TypeDecl.isBound : TypeDecl → Bool
  | .struct _ _ _ | .image _ _ | .sampler | .sampledImage _ | .accelStruct => true
  | _ => false

/-- There is a kind of descriptor exactly for what is bound through one. -/
theorem isSome_descriptorKind? {g : Graph} {id : Ident} {storage : StorageClass}
    {isCombined : Bool} {decl : TypeDecl} {kind? : Option DescriptorKind}
    (h : descriptorKind? g id storage isCombined decl = .ok kind?) :
    kind?.isSome = decl.isBound := by
  cases decl with
  | struct name members isBufferBlock =>
    unfold descriptorKind? at h
    dsimp only at h
    split at h <;> (cases h; rfl)
  | image unit form =>
    obtain ⟨kind, -, rfl⟩ := map_eq_ok_iff.mp h
    rfl
  | sampledImage image =>
    obtain ⟨decl, -, h⟩ := bind_eq_ok_iff.mp h
    split at h <;> (cases h; rfl)
  | _ =>
    cases h
    rfl

/-! ## Types without array dimensions -/

namespace Graph

variable {g : Graph} {id : Ident}

/-- A variable is a block of push constants. -/
def isPushConstant (g : Graph) (id : Ident) : Bool :=
  (g.globals.get? id).any (·.storage = .pushConstant)

/-- The type that a variable points to is `core` once its dimensions are taken off: first one
without a length, if there is one, and then all that have one. The latter are given by the constants
of their lengths, outermost first. -/
def Unwraps (g : Graph) (id : Ident) (isUnbounded : Bool) (lengths : List Ident)
    (core : TypeDecl) : Prop :=
  ∃ v storage pointee inner type, g.globals.get? id = some v ∧
    g.types.get? v.type = some (.pointer storage pointee) ∧ g.Opens pointee isUnbounded inner ∧
    g.Nests inner lengths type ∧ g.types.get? type = some core

theorem Opens.unique {b b' : Bool} {inner inner' : Ident} (h : g.Opens id b inner)
    (h' : g.Opens id b' inner') : b = b' ∧ inner = inner' := by
  cases h with
  | sized hid =>
    cases h' with
    | sized => exact ⟨rfl, rfl⟩
    | unsized hid' => exact absurd hid' (hid _ _)
  | unsized hid =>
    cases h' with
    | sized hid' => exact absurd hid (hid' _ _)
    | unsized hid' =>
      rw [hid] at hid'
      cases hid'
      exact ⟨rfl, rfl⟩

theorem Nests.unique {lengths lengths' : List Ident} {type type' : Ident}
    (h : g.Nests id lengths type) (h' : g.Nests id lengths' type') :
    lengths = lengths' ∧ type = type' := by
  induction h generalizing lengths' type' with
  | core hid =>
    cases h' with
    | core => exact ⟨rfl, rfl⟩
    | array hid' => exact absurd hid' (hid _ _ _)
  | array hid _ ih =>
    cases h' with
    | core hid' => exact absurd hid (hid' _ _ _)
    | array hid' hn' =>
      rw [hid] at hid'
      cases hid'
      obtain ⟨rfl, rfl⟩ := ih hn'
      exact ⟨rfl, rfl⟩

/-- **The dimensions can be taken off in one way only.** -/
theorem Unwraps.unique {b b' : Bool} {lengths lengths' : List Ident} {core core' : TypeDecl}
    (h : g.Unwraps id b lengths core) (h' : g.Unwraps id b' lengths' core') :
    b = b' ∧ lengths = lengths' ∧ core = core' := by
  obtain ⟨v, storage, pointee, inner, type, hv, hpointer, hopens, hnests, hcore⟩ := h
  obtain ⟨v', storage', pointee', inner', type', hv', hpointer', hopens', hnests', hcore'⟩ := h'
  obtain rfl : v = v' := Option.some.inj (hv.symm.trans hv')
  rw [hpointer] at hpointer'
  cases hpointer'
  obtain ⟨rfl, rfl⟩ := hopens.unique hopens'
  obtain ⟨rfl, rfl⟩ := hnests.unique hnests'
  exact ⟨rfl, rfl, Option.some.inj (hcore.symm.trans hcore')⟩

end Graph

/-! ## One variable -/

namespace Source

variable {s : Source} {pairing : Pairing} {id : Ident} {ids : List Ident}
  {items : List (List (Descriptor TypeTree) × List (PushConstant TypeTree))}

/-- What a resource variable adds to the descriptors and to the push constant blocks: a block, or
nothing because it is a removed sampler, or nothing because its type is not bound through
descriptors, or a descriptor. -/
inductive Adds (s : Source) (pairing : Pairing) (id : Ident) :
    List (Descriptor TypeTree) × List (PushConstant TypeTree) → Prop
  | block {b : PushConstant TypeTree} (hstorage : s.graph.isPushConstant id = true)
    (hid : b.id = id) : s.Adds pairing id ([], [b])
  | removed (hstorage : s.graph.isPushConstant id = false) (hremoved : id ∈ pairing.removed) :
    s.Adds pairing id ([], [])
  | unbound {isUnbounded : Bool} {lengths : List Ident} {core : TypeDecl}
    (hstorage : s.graph.isPushConstant id = false)
    (hcore : s.graph.Unwraps id isUnbounded lengths core) (hbound : core.isBound = false) :
    s.Adds pairing id ([], [])
  | descriptor {d : Descriptor TypeTree} {lengths : List Ident} {core : TypeDecl}
    (hstorage : s.graph.isPushConstant id = false) (hremoved : id ∉ pairing.removed)
    (hcore : s.graph.Unwraps id d.isUnbounded lengths core) (hbound : core.isBound = true)
    (hid : d.id = id) (hdims : List.Forall₂ s.specialization.HasLength lengths d.dims) :
    s.Adds pairing id ([d], [])

theorem adds_of_descriptorTree (hs : s.Ordered) (hg : s.graph.Closed) {v : Variable}
    (hv : s.graph.globals.get? id = some v) (hstorage : s.graph.isPushConstant id = false)
    {d? : Option (Descriptor TypeTree)} (h : s.descriptorTree pairing id v = .ok d?) :
    s.Adds pairing id (d?.toList, []) := by
  unfold descriptorTree at h
  split at h
  · rename_i hremoved
    cases h
    exact .removed hstorage hremoved
  · rename_i hremoved
    obtain ⟨pointee, hpointee, h⟩ := bind_eq_ok_iff.mp h
    obtain ⟨u, hu, h⟩ := bind_eq_ok_iff.mp h
    obtain ⟨decl, hdecl, h⟩ := bind_eq_ok_iff.mp h
    obtain ⟨kind?, hkind, h⟩ := bind_eq_ok_iff.mp h
    rw [liftM_fault_eq_ok_iff] at hpointee hu hdecl hkind
    obtain ⟨storage, hpointer⟩ := Graph.pointee_eq_ok hpointee
    obtain ⟨inner, lengths, hopens, hnests, hdims⟩ := opens_and_nests_of_unwrap hs hg hu
    have hcore : s.graph.Unwraps id u.isUnbounded lengths decl :=
      ⟨v, storage, pointee, inner, u.type, hv, hpointer, hopens, hnests,
        Graph.type_eq_ok_iff.mp hdecl⟩
    have hbound := isSome_descriptorKind? hkind
    cases kind? with
    | none =>
      cases h
      exact .unbound hstorage hcore hbound.symm
    | some kind =>
      obtain ⟨image, -, h⟩ := bind_eq_ok_iff.mp h
      cases h
      exact .descriptor hstorage hremoved hcore hbound.symm rfl hdims

/-- **What one variable adds.** -/
theorem adds_of_resourceTrees (hs : s.Ordered) (hg : s.graph.Closed)
    {item : List (Descriptor TypeTree) × List (PushConstant TypeTree)}
    (h : s.resourceTrees pairing id = .ok item) : s.Adds pairing id item := by
  have hblock := fun b hb => id_of_mem_pushConstantTrees h (b := b) hb
  obtain ⟨v, hv, h⟩ := bind_eq_ok_iff.mp h
  have hv := Graph.globalVar_eq_ok_iff.mp (liftM_fault_eq_ok_iff.mp hv)
  split at h
  · rename_i hstorage
    obtain ⟨b, -, h⟩ := bind_eq_ok_iff.mp h
    cases h
    exact .block (by simp [Graph.isPushConstant, hv, hstorage])
      (hblock b (List.mem_singleton_self b))
  · rename_i hstorage
    obtain ⟨d?, hd?, h⟩ := bind_eq_ok_iff.mp h
    cases h
    exact adds_of_descriptorTree hs hg hv (by simp [Graph.isPushConstant, hv, hstorage]) hd?

/-! ## All variables -/

/-- The blocks are those of the variables that are blocks of push constants, in order. -/
theorem map_id_blocks (h : List.Forall₂ (s.Adds pairing) ids items) :
    (joinBoth items).2.map (·.id) = ids.filter s.graph.isPushConstant := by
  induction h with
  | nil => rfl
  | @cons id item ids items hitem _ ih =>
    have hhead : item.2.map (·.id) = if s.graph.isPushConstant id = true then [id] else [] := by
      cases hitem with
      | block hstorage hid => simp [hstorage, hid]
      | removed hstorage | unbound hstorage | descriptor hstorage => simp [hstorage]
    simp only [joinBoth] at ih ⊢
    rw [List.flatMap_cons, List.map_append, ih, hhead, List.filter_cons]
    split <;> rfl

/-- The descriptors are those of some of the variables, in order. -/
theorem sublist_descriptors (h : List.Forall₂ (s.Adds pairing) ids items) :
    ((joinBoth items).1.map (·.id)).Sublist ids := by
  induction h with
  | nil => exact .slnil
  | @cons id item ids items hitem _ ih =>
    have hhead : item.1.map (·.id) = [id] ∨ item.1 = [] := by
      cases hitem with
      | descriptor _ _ _ _ hid => exact .inl (by simp [hid])
      | block | removed | unbound => exact .inr rfl
    simp only [joinBoth] at ih ⊢
    rw [List.flatMap_cons, List.map_append]
    rcases hhead with hhead | hhead
    · rw [hhead]
      exact ih.cons_cons id
    · rw [hhead]
      exact ih.cons id

/-- **Which variables have a descriptor.** -/
theorem mem_descriptors_iff (hs : s.Ordered) (hg : s.graph.Closed)
    (hitems : ids.mapM (s.resourceTrees pairing) = .ok items) :
    id ∈ (joinBoth items).1.map (·.id) ↔
      id ∈ ids ∧ s.graph.isPushConstant id = false ∧ id ∉ pairing.removed ∧
      ∃ isUnbounded lengths core,
        s.graph.Unwraps id isUnbounded lengths core ∧ core.isBound = true := by
  simp only [joinBoth, List.mem_map, List.mem_flatMap, mem_iff_of_mapM_eq_ok hitems]
  constructor
  · rintro ⟨d, ⟨item, ⟨id', hid', hitem⟩, hd⟩, rfl⟩
    cases adds_of_resourceTrees hs hg hitem with
    | descriptor hstorage hremoved hcore hbound hid hdims =>
      obtain rfl := List.mem_singleton.mp hd
      obtain rfl := hid
      exact ⟨hid', hstorage, hremoved, _, _, _, hcore, hbound⟩
    | block | removed | unbound => exact absurd hd List.not_mem_nil
  · rintro ⟨hid, hstorage, hremoved, isUnbounded, lengths, core, hcore, hbound⟩
    obtain ⟨item, hitem⟩ := exists_mapM_eq_ok_iff.mp ⟨items, hitems⟩ id hid
    cases adds_of_resourceTrees hs hg hitem with
    | block hstorage' => simp [hstorage] at hstorage'
    | removed _ hremoved' => exact absurd hremoved' hremoved
    | unbound _ hcore' hbound' =>
      obtain ⟨-, -, rfl⟩ := hcore.unique hcore'
      simp [hbound] at hbound'
    | @descriptor d _ _ _ _ _ _ hid' =>
      exact ⟨d, ⟨_, ⟨id, hid, hitem⟩, List.mem_singleton_self d⟩, hid'⟩

/-- The dimensions of a descriptor are taken off the type of its variable. -/
theorem dims_of_mem_descriptors (hs : s.Ordered) (hg : s.graph.Closed)
    (hitems : ids.mapM (s.resourceTrees pairing) = .ok items) {d : Descriptor TypeTree}
    (hd : d ∈ (joinBoth items).1) : ∃ lengths core,
      s.graph.Unwraps d.id d.isUnbounded lengths core ∧
      List.Forall₂ s.specialization.HasLength lengths d.dims := by
  obtain ⟨item, hitem, hd⟩ := List.mem_flatMap.mp hd
  obtain ⟨id, -, hitem⟩ := (mem_iff_of_mapM_eq_ok hitems).mp hitem
  cases adds_of_resourceTrees hs hg hitem with
  | descriptor _ _ hcore _ hid hdims =>
    obtain rfl := List.mem_singleton.mp hd
    obtain rfl := hid
    exact ⟨_, _, hcore, hdims⟩
  | block | removed | unbound => exact absurd hd List.not_mem_nil

/-- The resource variables of an entry point are reported once each, and in order. -/
structure ReportsOnce (s : Source) (pairing : Pairing) {τ : Type} (x : EntryPoint τ) : Prop where
  ascending : x.resources.Pairwise (· < ·)
  /-- There is one block for each variable that is a block of push constants. -/
  blocks : x.pushConstants.map (·.id) = x.resources.filter s.graph.isPushConstant
  /-- There is a descriptor for each other variable that is not a removed sampler and whose type,
  without array dimensions, is bound through descriptors. -/
  bound : ∀ id, id ∈ x.descriptors.map (·.id) ↔
    id ∈ x.resources ∧ s.graph.isPushConstant id = false ∧ id ∉ pairing.removed ∧
    ∃ isUnbounded lengths core, s.graph.Unwraps id isUnbounded lengths core ∧ core.isBound = true
  /-- No variable has two descriptors. -/
  once : (x.descriptors.map (·.id)).Nodup
  /-- A descriptor has the dimensions that are taken off the type of its variable. -/
  dims : ∀ d ∈ x.descriptors, ∃ lengths core,
    s.graph.Unwraps d.id d.isUnbounded lengths core ∧
    List.Forall₂ s.specialization.HasLength lengths d.dims
  order : x.descriptors.Pairwise fun d d' => Before d.order d'.order

/-- **The resources of an entry point** are reported once each, if they are what its variables add,
put in order. -/
theorem reportsOnce_of_items (hs : s.Ordered) (hg : s.graph.Closed) {τ : Type} {x : EntryPoint τ}
    (hascending : x.resources.Pairwise (· < ·))
    (hitems : x.resources.mapM (s.resourceTrees pairing) = .ok items)
    (hblocks : x.pushConstants.map (·.id) = (joinBoth items).2.map (·.id))
    (hdescriptors : x.descriptors.map (fun d => (d.order, d.isUnbounded, d.dims)) =
      (sortByOrder Descriptor.order (joinBoth items).1).map
        fun d => (d.order, d.isUnbounded, d.dims)) : s.ReportsOnce pairing x := by
  have hadds : List.Forall₂ (s.Adds pairing) x.resources items :=
    (mapM_eq_ok_iff.mp hitems).imp fun _ _ => adds_of_resourceTrees hs hg
  have horders : x.descriptors.map Descriptor.order =
      (sortByOrder Descriptor.order (joinBoth items).1).map Descriptor.order := by
    have h := congrArg (List.map Prod.fst) hdescriptors
    rwa [List.map_map, List.map_map] at h
  have hperm : (x.descriptors.map (·.id)).Perm ((joinBoth items).1.map (·.id)) := by
    have h := (perm_of_map_order horders).map (·.2.2)
    rwa [List.map_map, List.map_map] at h
  have hnodup : ((joinBoth items).1.map (·.id)).Nodup :=
    (sublist_descriptors hadds).nodup (hascending.imp fun h => UInt32.ne_of_lt h)
  have hdims : ∀ d ∈ x.descriptors, ∃ lengths core,
      s.graph.Unwraps d.id d.isUnbounded lengths core ∧
      List.Forall₂ s.specialization.HasLength lengths d.dims := by
    intro d hd
    have hface := hdescriptors ▸
      List.mem_map_of_mem (f := fun d : Descriptor τ => (d.order, d.isUnbounded, d.dims)) hd
    obtain ⟨d', hmem, heq⟩ := List.mem_map.mp hface
    obtain ⟨lengths, core, hcore, hdims⟩ :=
      dims_of_mem_descriptors hs hg hitems (mem_sortByOrder.mp hmem)
    simp only [Descriptor.order, Prod.mk.injEq] at heq
    obtain ⟨⟨-, -, hid⟩, hunbounded, hsame⟩ := heq
    exact ⟨lengths, core, hid ▸ hunbounded ▸ hcore, hsame ▸ hdims⟩
  exact {
    ascending := hascending
    blocks := by rw [hblocks, map_id_blocks hadds]
    bound := fun id => by rw [hperm.mem_iff, mem_descriptors_iff hs hg hitems]
    once := hperm.nodup_iff.mpr hnodup
    dims := hdims
    order := pairwise_of_map_order horders (.of_map (fun t => t.2.2) (by rwa [List.map_map])) }

end Source

/-! ## Reflections -/

namespace Config

variable {c : Config} {r : Reflection}

/-- **Every resource is reported once, in order.** The resource variables of an entry point are
those that it reaches, in ascending order. Each of them that is a block of push constants has one
block. Each other one has one descriptor, with the dimensions that are taken off its type, if it is
not a removed sampler and if what is left of its type is bound through descriptors. There are no
other blocks and descriptors, and the descriptors are in strictly ascending order of set, binding
and ID. -/
theorem reflect_reportsOnce (h : c.reflect.result = .ok r) {k : Nat} {x : EntryPoint TypeIdx}
    (hx : r.entryPoints[k]? = some x) : ∃ s reach, c.Reaches k s reach ∧
      x.resources = reach.resources.ids ∧ s.ReportsOnce (c.pairing s.graph reach) x := by
  obtain ⟨s, p, hr⟩ := exists_madeOf h
  obtain ⟨words, hwords, hs⟩ := hr.source
  obtain ⟨e, he, htree⟩ := hr.exists_entryTree hx
  obtain ⟨reach, hreach, htree⟩ := bind_eq_ok_iff.mp htree
  obtain ⟨items, hitems, hresources, hdescriptors, hblocks⟩ :=
    Source.exists_items_assembleTree htree
  have hresources : x.resources = reach.resources.ids := hresources
  refine ⟨s, reach, ⟨words, e, hwords, hs, he, liftM_fault_eq_ok_iff.mp hreach⟩, hresources, ?_⟩
  rw [← hresources] at hitems
  refine Source.reportsOnce_of_items (source_ordered hs) (closed_of_source hs) ?_ hitems ?_ ?_
  · rw [hresources]
    exact reach.resources.ascending
  · -- Types are written out in what is known of the blocks, which does not matter for their IDs.
    rw [← hblocks _ _ fun _ _ => rfl, EntryPoint.map, List.map_map]
    rfl
  · rw [← hdescriptors _ _ fun _ _ => rfl, EntryPoint.map, List.map_map]
    rfl

/-- The instructions of a binary with three resources: a runtime array of arrays of four storage
buffers, a block of push constants, and a number that is not bound through descriptors. -/
def sampleResourceBody : List Instruction := [
  ⟨15, [5, 2, 0x61]⟩,
  ⟨71, [9, 2]⟩, ⟨72, [9, 0, 35, 0]⟩, ⟨71, [20, 34, 1]⟩, ⟨71, [20, 33, 0]⟩,
  ⟨19, [3]⟩, ⟨33, [4, 3]⟩, ⟨22, [5, 32]⟩, ⟨21, [6, 32, 0]⟩, ⟨43, [6, 7, 4]⟩, ⟨30, [9, 5]⟩,
  ⟨28, [10, 9, 7]⟩, ⟨29, [11, 10]⟩, ⟨32, [12, 12, 11]⟩, ⟨32, [15, 9, 9]⟩, ⟨32, [16, 0, 5]⟩,
  ⟨59, [12, 20, 12]⟩, ⟨59, [15, 22, 9]⟩, ⟨59, [16, 23, 0]⟩, ⟨54, [3, 2, 0, 4]⟩, ⟨56, []⟩]

/-- The reflection of the binary with three resources, all of which are attributed to its entry
point. -/
def sampleResources : Config where
  binary :=
    some ([magicNumber, 0x10300, 0, 64, 0] ++ sampleResourceBody.flatMap Instruction.words)
  allResources := true

set_option maxRecDepth 100000 in
/-- Two of the three resources are reported, the buffers with their one known dimension. -/
theorem sample_reflect_reportsOnce : ∃ r x s reach, sampleResources.reflect.result = .ok r ∧
    r.entryPoints[0]? = some x ∧ x.resources = [20, 22, 23] ∧
    x.pushConstants.map (·.id) = [22] ∧
    x.descriptors.map (fun d => (d.order, d.isUnbounded, d.dims)) = [((1, 0, 20), true, [4])] ∧
    sampleResources.Reaches 0 s reach ∧ x.resources = reach.resources.ids ∧
    s.ReportsOnce (sampleResources.pairing s.graph reach) x := by
  obtain ⟨r, hr, hx⟩ := exists_eq_ok_of_any (x := sampleResources.reflect.result)
    (p := fun r => r.entryPoints[0]?.any fun x => x.resources = [20, 22, 23] ∧
      x.pushConstants.map (·.id) = [22] ∧
      x.descriptors.map (fun d => (d.order, d.isUnbounded, d.dims)) = [((1, 0, 20), true, [4])])
    (by decide +kernel)
  obtain ⟨x, hx, hfacts⟩ := (Option.any_eq_true _ _).mp hx
  obtain ⟨hresources, hblocks, hdescriptors⟩ := of_decide_eq_true hfacts
  obtain ⟨s, reach, hreach, hids, honce⟩ := reflect_reportsOnce hr hx
  exact ⟨r, x, s, reach, hr, hx, hresources, hblocks, hdescriptors, hreach, hids, honce⟩

end Config

end ShaderReflect
