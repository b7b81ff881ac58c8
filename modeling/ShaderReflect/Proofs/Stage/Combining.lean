import ShaderReflect.Proofs.Expansion
import ShaderReflect.Proofs.Stage.Combination

/-!
# Combining only merges images with samplers

An entry point is described with images and samplers combined exactly as it is without, except that
the descriptors of removed samplers are left out, and that sampled images which the pairing combines
are reported together with a sampler (`EntryPoint.combine`). Whatever can be described without
combining can be described with it: a removed sampler is looked at less, nothing is looked at more.

* `Source.descriptorTree_combine`, `Source.resourceTrees_combine`: one variable.
* `Source.assembleTree_combine`: an entry point. Leaving out descriptors and putting them in order
  go together (`filter_sortByOrder`).
* `Config.reflect_combineSamplers`: whole reflections.

Specification, 4.5. The setting for names is off: a removed descriptor leaves its name to others.
The arenas of the two reflections differ, by the types of combined images at least, and so do the
places of all types that come after these.
-/

namespace ShaderReflect

/-! ## What combining does -/

/-- A sampled image that the pairing combines, reported together with a sampler. -/
def Descriptor.combine (p : Pairing) (d : Descriptor TypeTree) : Descriptor TypeTree :=
  if d.kind = .sampledImage ∧ p.isCombined d.id then
    { d with
      kind := .combinedImageSampler
      isCombined := true
      type := .node (.combinedImageSampler d.type) }
  else d

/-- Descriptors without those of removed samplers, and with images that are combined. -/
def Pairing.combineAll (p : Pairing) (ds : List (Descriptor TypeTree)) :
    List (Descriptor TypeTree) :=
  (ds.filter (·.id ∉ p.removed)).map (·.combine p)

/-- An entry point whose images and samplers are combined. -/
def EntryPoint.combine (p : Pairing) (e : EntryPoint TypeTree) : EntryPoint TypeTree :=
  { e with descriptors := p.combineAll e.descriptors }

theorem Descriptor.order_combine (p : Pairing) (d : Descriptor TypeTree) :
    (d.combine p).order = d.order := by
  unfold combine
  split <;> rfl

namespace Pairing

variable (p : Pairing)

theorem combineAll_flatMap {α : Type} (xs : List α) (f : α → List (Descriptor TypeTree)) :
    p.combineAll (xs.flatMap f) = xs.flatMap fun x => p.combineAll (f x) := by
  unfold combineAll
  rw [List.filter_flatMap, List.map_flatMap]

/-- **Combining does not disturb the order.** -/
theorem combineAll_sortByOrder (ds : List (Descriptor TypeTree)) :
    p.combineAll (sortByOrder Descriptor.order ds) =
      sortByOrder Descriptor.order (p.combineAll ds) := by
  unfold combineAll
  rw [filter_sortByOrder, map_sortByOrder (Descriptor.order_combine p)]

end Pairing

/-! ## Kinds of descriptors -/

/-- The kind of a descriptor if the image is, or is not, combined. -/
def DescriptorKind.combine (isCombined : Bool) (kind : DescriptorKind) : DescriptorKind :=
  if kind = .sampledImage ∧ isCombined then .combinedImageSampler else kind

theorem DescriptorKind.combine_of_ne {kind : DescriptorKind} (h : kind ≠ .sampledImage) (b : Bool) :
    kind.combine b = kind := if_neg fun hkind => h hkind.1

variable {g : Graph} {id : Ident} {storage : StorageClass} {decl : TypeDecl}

theorem imageDescriptorKind_combine {form : ImageForm} {kind : DescriptorKind}
    (h : imageDescriptorKind g id false form = .ok kind) (b : Bool) :
    imageDescriptorKind g id b form = .ok (kind.combine b) := by
  unfold imageDescriptorKind at h ⊢
  split at h
  · split at h
    · cases h
      rfl
    · cases h
  · cases h
    rfl
  · cases h
    rfl
  · cases h
    rfl
  · cases h
    cases b <;> rfl

/-- Only images are reported as sampled images. -/
theorem exists_image_of_sampledImage {b : Bool}
    (h : descriptorKind? g id storage b decl = .ok (some .sampledImage)) :
    ∃ unit form, decl = .image unit form := by
  cases decl with
  | image unit form => exact ⟨unit, form, rfl⟩
  | struct name ms isBufferBlock =>
    unfold descriptorKind? at h
    dsimp only at h
    split at h <;> cases h
  | sampledImage image =>
    obtain ⟨decl, -, h⟩ := bind_eq_ok_iff.mp h
    split at h <;> cases h
  | _ => cases h

theorem descriptorKind?_combine {kind? : Option DescriptorKind}
    (h : descriptorKind? g id storage false decl = .ok kind?) (b : Bool) :
    descriptorKind? g id storage b decl = .ok (kind?.map (·.combine b)) := by
  cases decl with
  | image unit form =>
    obtain ⟨kind, hkind, rfl⟩ := map_eq_ok_iff.mp h
    show some <$> imageDescriptorKind g id b form = _
    rw [imageDescriptorKind_combine hkind b]
    rfl
  | _ =>
    have hsame : kind?.map (·.combine b) = kind? := by
      cases kind? with
      | none => rfl
      | some kind =>
        have hne : kind ≠ .sampledImage := by
          rintro rfl
          obtain ⟨unit, form, hdecl⟩ := exists_image_of_sampledImage h
          cases hdecl
        rw [Option.map_some, DescriptorKind.combine_of_ne hne]
    rw [hsame]
    exact h

namespace Source

variable {s : Source} {v : Variable}

/-! ## Variables -/

/-- With a pairing, a variable has the same descriptor as without, unless it is a removed sampler or
a sampled image that is combined. -/
theorem descriptorTree_combine {d? : Option (Descriptor TypeTree)}
    (h : s.descriptorTree {} id v = .ok d?) (p : Pairing) : s.descriptorTree p id v =
      .ok (if id ∈ p.removed then none else d?.map (·.combine p)) := by
  unfold descriptorTree at h ⊢
  rw [if_neg IdSet.not_mem_empty] at h
  by_cases hremoved : id ∈ p.removed
  · rw [if_pos hremoved, if_pos hremoved]
    rfl
  · -- All steps up to the kind of the descriptor are those without a pairing.
    rw [if_neg hremoved, if_neg hremoved]
    obtain ⟨pointee, hpointee, h⟩ := bind_eq_ok_iff.mp h
    obtain ⟨unwrapped, hunwrapped, h⟩ := bind_eq_ok_iff.mp h
    obtain ⟨decl, hdecl, h⟩ := bind_eq_ok_iff.mp h
    obtain ⟨kind?, hkind, h⟩ := bind_eq_ok_iff.mp h
    have hkind' := descriptorKind?_combine (liftM_fault_eq_ok_iff.mp hkind) (p.isCombined id)
    rw [hpointee, ok_bind, hunwrapped, ok_bind, hdecl, ok_bind, hkind', liftM_fault_ok, ok_bind]
    cases kind? with
    | none =>
      cases h
      rfl
    | some kind =>
      obtain ⟨image, himage, h⟩ := bind_eq_ok_iff.mp h
      cases h
      simp only [Option.map_some, himage, ok_bind, pure_eq_ok, Except.ok.injEq, Option.some.injEq]
      by_cases hcombines : kind = .sampledImage ∧ p.isCombined id = true
      · rw [Descriptor.combine, if_pos hcombines, DescriptorKind.combine, if_pos hcombines]
        obtain ⟨rfl, -⟩ := hcombines
        obtain ⟨unit, form, rfl⟩ := exists_image_of_sampledImage (liftM_fault_eq_ok_iff.mp hkind)
        rfl
      · rw [Descriptor.combine, if_neg hcombines, DescriptorKind.combine, if_neg hcombines]

theorem combineAll_toList {d? : Option (Descriptor TypeTree)} (p : Pairing)
    (h : ∀ d ∈ d?.toList, d.id = id) : p.combineAll d?.toList =
      (if id ∈ p.removed then none else d?.map (·.combine p)).toList := by
  cases d? with
  | none => split <;> rfl
  | some d =>
    have hid : d.id = id := h d List.mem_cons_self
    unfold Pairing.combineAll
    by_cases hremoved : id ∈ p.removed
    · simp [hid, hremoved]
    · simp [hid, hremoved]

/-- What a variable adds to the descriptors can be combined by itself. -/
theorem resourceTrees_combine {item : List (Descriptor TypeTree) × List (PushConstant TypeTree)}
    (h : s.resourceTrees {} id = .ok item) (p : Pairing) :
    s.resourceTrees p id = .ok (p.combineAll item.1, item.2) := by
  have hids : ∀ d ∈ item.1, d.id = id := fun d hd => id_of_mem_resourceTrees h hd
  unfold resourceTrees at h ⊢
  obtain ⟨v, hv, h⟩ := bind_eq_ok_iff.mp h
  rw [hv, ok_bind]
  by_cases hstorage : v.storage = .pushConstant
  · rw [if_pos hstorage] at h ⊢
    obtain ⟨block, hblock, h⟩ := bind_eq_ok_iff.mp h
    cases h
    rw [hblock]
    rfl
  · rw [if_neg hstorage] at h ⊢
    obtain ⟨d?, hd, h⟩ := bind_eq_ok_iff.mp h
    cases h
    rw [descriptorTree_combine hd p, combineAll_toList p hids]
    rfl

/-! ## Entry points -/

/-- **What is said about an entry point with a pairing** is what is said without, with images and
samplers combined. -/
theorem assembleTree_combine (hu : s.uniqueNames = false) {e : EntryPointDecl} {reach : Reach}
    {x : EntryPoint TypeTree} (h : s.assembleTree e reach {} = .ok x) (p : Pairing) :
    s.assembleTree e reach p = .ok (x.combine p) := by
  obtain ⟨items, hitems, hdescriptors, hblocks, hreplace⟩ := assembleTree_replace hu h
  have hcombined : reach.resources.ids.mapM (s.resourceTrees p) =
      .ok (items.map fun item => (p.combineAll item.1, item.2)) := by
    rw [mapM_eq_ok_iff, List.forall₂_map_right_iff]
    exact (mapM_eq_ok_iff.mp hitems).imp fun id item hitem => resourceTrees_combine hitem p
  have hjoin : joinBoth (items.map fun item => (p.combineAll item.1, item.2)) =
      (p.combineAll (joinBoth items).1, (joinBoth items).2) := by
    simp only [joinBoth, List.flatMap_map, p.combineAll_flatMap]
  rw [hreplace reach p _ rfl hcombined, hjoin, EntryPoint.combine, hdescriptors,
    p.combineAll_sortByOrder, ← resources_assembleTree h, ← hblocks]

end Source

namespace Config

variable {c : Config} {s : Source} {r : Reflection}

theorem entryTree_combine (hu : s.uniqueNames = false) {e : EntryPointDecl}
    {x : EntryPoint TypeTree} (h : { c with combineSamplers := false }.entryTree s e = .ok x) :
    ∃ reach, Reach.analyze s.graph e c.allResources = .ok reach ∧
      { c with combineSamplers := true }.entryTree s e =
        .ok (x.combine (Pairing.combine s.graph reach)) := by
  obtain ⟨reach, hreach, h⟩ := bind_eq_ok_iff.mp h
  refine ⟨reach, liftM_fault_eq_ok_iff.mp hreach, ?_⟩
  refine bind_eq_ok_iff.mpr ⟨reach, hreach, ?_⟩
  exact Source.assembleTree_combine hu h _

/-- Entry points are combined one by one, each with the pairing of what it reaches. -/
theorem trees_combine (hu : c.uniqueNames = false) {header : Header}
    {xs : List (EntryPoint TypeTree)}
    (h : { c with combineSamplers := false }.trees = .ok (header, xs)) :
    ∃ ys, { c with combineSamplers := true }.trees = .ok (header, ys) ∧
      ys.length = xs.length ∧ ∀ k x, xs[k]? = some x → ∃ s reach, c.Reaches k s reach ∧
        ys[k]? = some (x.combine (Pairing.combine s.graph reach)) := by
  let R (s : Source) (e : EntryPointDecl) (x y : EntryPoint TypeTree) : Prop :=
    ∃ reach, Reach.analyze s.graph e c.allResources = .ok reach ∧
      y = x.combine (Pairing.combine s.graph reach)
  -- No entry point stops with combining that has not stopped without it.
  have heach : ∀ words s, c.source words = .ok s → ∀ e ∈ s.graph.annotations.entryPoints, ∀ x,
      { c with combineSamplers := false }.entryTree s e = .ok x →
      ∃ y, { c with combineSamplers := true }.entryTree s e = .ok y ∧ R s e x y := by
    intro words s hs e _ x hx
    obtain ⟨reach, hreach, hy⟩ := entryTree_combine ((source_uniqueNames hs).trans hu) hx
    exact ⟨_, hy, reach, hreach, rfl⟩
  obtain ⟨ys, hys, hlength, hall⟩ := exists_trees { c with combineSamplers := false }
    { c with combineSamplers := true } rfl (fun _ => rfl) heach h
  refine ⟨ys, hys, hlength, fun k x hx => ?_⟩
  obtain ⟨words, s, e, y, hwords, hs, he, hy, reach, hreach, rfl⟩ := hall k x hx
  exact ⟨s, reach, ⟨words, e, hwords, hs, he, hreach⟩, hy⟩

/-- **Combining only merges images with samplers.** A binary that can be reflected without combining
can be reflected with it. Each entry point is then the same once types are written out, apart from
the descriptors of removed samplers, which are left out, and those of sampled images that are
combined. -/
theorem reflect_combineSamplers (hu : c.uniqueNames = false)
    (hr : { c with combineSamplers := false }.reflect.result = .ok r) :
    ∃ r', { c with combineSamplers := true }.reflect.result = .ok r' ∧ r'.header = r.header ∧
      r'.entryPoints.length = r.entryPoints.length ∧
      ∀ k x, r.expanded[k]? = some x → ∃ s reach, c.Reaches k s reach ∧
        r'.expanded[k]? = some (x.combine (Pairing.combine s.graph reach)) := by
  have hoff : { c with combineSamplers := false }.trees = .ok (r.header, r.expanded) := by
    rw [← map_expanded_reflect (c := { c with combineSamplers := false }) hu, hr]
    rfl
  obtain ⟨ys, hon, hlength, hys⟩ := trees_combine hu hoff
  rw [← map_expanded_reflect (c := { c with combineSamplers := true }) hu] at hon
  obtain ⟨r', hr', heq⟩ := map_eq_ok_iff.mp hon
  obtain ⟨hheader, hexpanded⟩ := Prod.mk.inj heq
  subst hexpanded
  refine ⟨r', hr', hheader, ?_, hys⟩
  simpa only [Reflection.expanded, List.length_map] using hlength

set_option maxRecDepth 100000 in
/-- The small binary can be reflected either way. Its first entry point has one descriptor with its
image and its sampler combined. -/
theorem sample_reflect_combineSamplers : (sampleConfig 1).uniqueNames = false ∧ ∃ r r',
    { sampleConfig 1 with combineSamplers := false }.reflect.result = .ok r ∧
    (sampleConfig 1).reflect.result = .ok r' ∧ r'.header = r.header ∧ r'.entryPoints.length = 2 ∧
    (r'.entryPoints[0]?.any fun x => x.descriptors.map (·.id) = [11] ∧ x.ReportsCombined 11) ∧
    ∀ k x, r.expanded[k]? = some x → ∃ s reach, (sampleConfig 1).Reaches k s reach ∧
      r'.expanded[k]? = some (x.combine (Pairing.combine s.graph reach)) := by
  obtain ⟨r, hr, -⟩ := exists_eq_ok_of_any
    (x := { sampleConfig 1 with combineSamplers := false }.reflect.result)
    (p := fun r => r.entryPoints.length = 2) (by decide +kernel)
  obtain ⟨r', hr', hheader, hlength, hentries⟩ :=
    reflect_combineSamplers (c := sampleConfig 1) rfl hr
  obtain ⟨r'', hr'', hcombined⟩ := exists_eq_ok_of_any (x := (sampleConfig 1).reflect.result)
    (p := fun r => r.entryPoints.length = 2 ∧ r.entryPoints[0]?.any fun x =>
      x.descriptors.map (·.id) = [11] ∧ x.ReportsCombined 11) (by decide +kernel)
  have hsame : r'' = r' := Except.ok.inj (hr''.symm.trans hr')
  subst hsame
  obtain ⟨hpoints, hfirst⟩ := of_decide_eq_true hcombined
  exact ⟨rfl, r, r'', hr, hr', hheader, hpoints, hfirst, hentries⟩

end Config

end ShaderReflect
