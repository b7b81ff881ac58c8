import ShaderReflect.Proofs.Reflection

/-!
# Images in place of removed samplers

A sampler is removed if every image that it is paired with is combined with it. The pairing looks at
variables only; whether an image is reported as combined is decided by its type. The two agree
exactly on images that have a type of their own and are neither storage images, nor texel buffers,
nor input attachments (`Source.Combines`): an image of these kinds is reported as what it is, and
its sampler is lost.

* `Pairing.isCombined_of_mem_removed`: the pairing combines each image of a removed sampler.
* `Config.reportsCombined_iff`: when it is reported as combined.

Specification, 4.5 (a sampler is removed only if every image it was paired with was combined). The
two decisions are made in two stages, of which the first does not know of types. That only images
which are sampled are paired with samplers is checked by neither of them, nor when the graph is
built.
-/

namespace ShaderReflect

/-! ## The pairing -/

namespace Pairing

variable {ps : List (Ident × Ident)} {image sampler : Ident}

theorem mem_imagesOf : image ∈ imagesOf ps sampler ↔ (image, sampler) ∈ ps := by
  unfold imagesOf
  rw [IdSet.mem_ofList, List.mem_map]
  constructor
  · rintro ⟨⟨i, s⟩, hp, rfl⟩
    rw [List.mem_filter] at hp
    have hs : s = sampler := of_decide_eq_true hp.2
    exact hs ▸ hp.1
  · intro hp
    exact ⟨(image, sampler), List.mem_filter.mpr ⟨hp, decide_eq_true rfl⟩, rfl⟩

theorem isCombined_of_samplerOf? (hp : (image, sampler) ∈ ps)
    (h : (samplerOf? ps image).isSome = true) : (ofPairs ps).isCombined image = true := by
  obtain ⟨only, honly⟩ := Option.isSome_iff_exists.mp h
  unfold isCombined sampler?
  rw [Option.isSome_iff_ne_none]
  intro hnone
  have hmem : (image, only) ∈ (ofPairs ps).combined := by
    refine List.mem_filterMap.mpr ⟨image, ?_, by rw [honly, Option.map_some]⟩
    exact IdSet.mem_ofList.mpr (List.mem_map_of_mem (f := Prod.fst) hp)
  have := List.lookup_eq_none_iff.mp hnone _ hmem
  simp at this

/-- The pairing combines each image that a removed sampler is paired with. -/
theorem isCombined_of_mem_removed (hs : sampler ∈ (ofPairs ps).removed)
    (hp : (image, sampler) ∈ ps) : (ofPairs ps).isCombined image = true := by
  have hall := (IdSet.mem_filter.mp hs).2
  exact isCombined_of_samplerOf? hp (List.all_eq_true.mp hall image (mem_imagesOf.mpr hp))

end Pairing

/-! ## The type of the image -/

/-- Images of the form can be reported together with a sampler. -/
def ImageForm.Combines (form : ImageForm) : Prop :=
  form.dimension ≠ .subpassData ∧ form.dimension ≠ .buffer ∧ form.isSampled ≠ some false

theorem imageDescriptorKind_eq_combined_iff {g : Graph} {id : Ident} {form : ImageForm} :
    imageDescriptorKind g id true form = .ok .combinedImageSampler ↔ form.Combines := by
  unfold imageDescriptorKind ImageForm.Combines
  split
  · rename_i hdim
    rw [hdim]
    split <;> simp
  · simp_all
  · simp_all
  · simp_all
  · simp_all

/-- A descriptor is that of an image reported together with a sampler. -/
def Descriptor.IsCombinedImage {τ : Type} (d : Descriptor τ) (image : Ident) : Prop :=
  d.id = image ∧ d.kind = .combinedImageSampler ∧ d.isCombined = true

instance {τ : Type} (d : Descriptor τ) (image : Ident) : Decidable (d.IsCombinedImage image) :=
  inferInstanceAs (Decidable (_ ∧ _ ∧ _))

/-- An image is reported together with a sampler. -/
def EntryPoint.ReportsCombined {τ : Type} (x : EntryPoint τ) (image : Ident) : Prop :=
  ∃ d ∈ x.descriptors, d.IsCombinedImage image

instance {τ : Type} (x : EntryPoint τ) (image : Ident) : Decidable (x.ReportsCombined image) :=
  inferInstanceAs (Decidable (∃ d ∈ x.descriptors, _))

namespace Source

variable {s : Source} {pairing : Pairing} {id : Ident} {v : Variable}

/-- The type of a variable without array dimensions. -/
def coreType (s : Source) (v : Variable) : Except Fault TypeDecl := do
  let unwrapped ← s.unwrap (← s.graph.pointee v)
  s.graph.type unwrapped.type

/-- The variable is an image, or an array of images, that can be reported together with a sampler,
and it is not taken for a removed sampler itself. -/
def Combines (s : Source) (pairing : Pairing) (id : Ident) : Prop :=
  id ∉ pairing.removed ∧ ∃ v unit form, s.graph.globalVar id = .ok v ∧
    v.storage ≠ .pushConstant ∧ s.coreType v = .ok (.image unit form) ∧ form.Combines

/-- What the descriptor of a variable is made of. -/
theorem descriptorTree_eq_ok {d? : Option (Descriptor TypeTree)}
    (h : s.descriptorTree pairing id v = .ok d?) : id ∈ pairing.removed ∧ d? = none ∨
    id ∉ pairing.removed ∧ ∃ decl kind?, s.coreType v = .ok decl ∧
      descriptorKind? s.graph id v.storage (pairing.isCombined id) decl = .ok kind? ∧
      d?.map (fun d => (d.id, d.kind, d.isCombined)) = kind?.map fun kind => (id, kind,
        match decl with
        | .image _ _ => decide (kind = .combinedImageSampler)
        | _ => false) := by
  unfold descriptorTree at h
  split at h
  · rename_i hremoved
    cases h
    exact .inl ⟨hremoved, rfl⟩
  · rename_i hremoved
    obtain ⟨p, hp, h⟩ := bind_eq_ok_iff.mp h
    obtain ⟨u, hu, h⟩ := bind_eq_ok_iff.mp h
    obtain ⟨decl, hdecl, h⟩ := bind_eq_ok_iff.mp h
    obtain ⟨kind?, hkind, h⟩ := bind_eq_ok_iff.mp h
    rw [liftM_fault_eq_ok_iff] at hp hu hdecl hkind
    have hcore : s.coreType v = .ok decl := by rw [coreType, hp, ok_bind, hu, ok_bind, hdecl]
    refine .inr ⟨hremoved, decl, kind?, hcore, hkind, ?_⟩
    cases kind? with
    | none =>
      cases h
      rfl
    | some kind =>
      obtain ⟨image, -, h⟩ := bind_eq_ok_iff.mp h
      cases h
      rfl

/-- An image that is to be combined is reported so if it can be. -/
theorem isCombinedImage_iff (hc : pairing.isCombined id = true)
    {d? : Option (Descriptor TypeTree)} (h : s.descriptorTree pairing id v = .ok d?) :
    (∃ d ∈ d?.toList, d.IsCombinedImage id) ↔ id ∉ pairing.removed ∧
      ∃ unit form, s.coreType v = .ok (.image unit form) ∧ form.Combines := by
  rcases descriptorTree_eq_ok h with ⟨hremoved, rfl⟩ | ⟨hremoved, decl, kind?, hcore, hkind, hd⟩
  · constructor
    · rintro ⟨d, hd, -⟩
      cases hd
    · exact fun h => absurd hremoved h.1
  · rw [hc] at hkind
    rw [hcore]
    constructor
    · rintro ⟨d, hmem, -, hk, hcomb⟩
      rw [Option.mem_toList] at hmem
      rw [hmem, Option.map_some, eq_comm, Option.map_eq_some_iff] at hd
      obtain ⟨kind, rfl, heq⟩ := hd
      simp only [Prod.mk.injEq] at heq
      obtain ⟨-, hkind', hcomb'⟩ := heq
      rw [hk] at hkind'
      subst hkind'
      rw [hcomb] at hcomb'
      refine ⟨hremoved, ?_⟩
      cases decl with
      | image unit form =>
        obtain ⟨k, hk, heq⟩ := map_eq_ok_iff.mp hkind
        cases heq
        exact ⟨unit, form, rfl, imageDescriptorKind_eq_combined_iff.mp hk⟩
      | _ => cases hcomb'
    · rintro ⟨-, unit, form, hdecl, hform⟩
      cases hdecl
      obtain ⟨k, hk, rfl⟩ := map_eq_ok_iff.mp hkind
      rw [imageDescriptorKind_eq_combined_iff.mpr hform] at hk
      cases hk
      obtain ⟨d, rfl, heq⟩ := Option.map_eq_some_iff.mp hd
      simp only [Prod.mk.injEq] at heq
      exact ⟨d, List.mem_singleton_self d, heq⟩

theorem id_of_mem_resourceTrees {item : List (Descriptor TypeTree) × List (PushConstant TypeTree)}
    (h : s.resourceTrees pairing id = .ok item) {d : Descriptor TypeTree} (hd : d ∈ item.1) :
    d.id = id := by
  unfold resourceTrees at h
  obtain ⟨v, -, h⟩ := bind_eq_ok_iff.mp h
  split at h
  · obtain ⟨p, -, h⟩ := bind_eq_ok_iff.mp h
    cases h
    cases hd
  · obtain ⟨d?, hd?, h⟩ := bind_eq_ok_iff.mp h
    cases h
    rcases descriptorTree_eq_ok hd? with ⟨-, rfl⟩ | ⟨-, decl, kind?, -, -, heq⟩
    · cases hd
    · rw [Option.mem_toList] at hd
      rw [hd, Option.map_some, eq_comm, Option.map_eq_some_iff] at heq
      obtain ⟨kind, -, heq⟩ := heq
      exact (congrArg Prod.fst heq).symm

theorem resourceTrees_combined_iff
    {item : List (Descriptor TypeTree) × List (PushConstant TypeTree)}
    (hc : pairing.isCombined id = true) (h : s.resourceTrees pairing id = .ok item) :
    (∃ d ∈ item.1, d.IsCombinedImage id) ↔ s.Combines pairing id := by
  unfold resourceTrees at h
  obtain ⟨v, hv, h⟩ := bind_eq_ok_iff.mp h
  rw [liftM_fault_eq_ok_iff] at hv
  unfold Combines
  rw [hv]
  split at h
  · rename_i hstorage
    obtain ⟨p, -, h⟩ := bind_eq_ok_iff.mp h
    cases h
    constructor
    · rintro ⟨d, hd, -⟩
      cases hd
    · rintro ⟨-, v', unit, form, hv', hstorage', -⟩
      cases hv'
      exact absurd hstorage hstorage'
  · rename_i hstorage
    obtain ⟨d?, hd?, h⟩ := bind_eq_ok_iff.mp h
    cases h
    rw [isCombinedImage_iff hc hd?]
    constructor
    · rintro ⟨hremoved, unit, form, hcore, hform⟩
      exact ⟨hremoved, v, unit, form, rfl, hstorage, hcore, hform⟩
    · rintro ⟨hremoved, v', unit, form, hv', -, hcore, hform⟩
      cases hv'
      exact ⟨hremoved, unit, form, hcore, hform⟩

end Source

/-! ## The entry point -/

namespace EntryPoint

variable {τ σ : Type} {x : EntryPoint τ} {image : Ident}

theorem reportsCombined_iff_mem : x.ReportsCombined image ↔
    (image, DescriptorKind.combinedImageSampler, true) ∈
      x.descriptors.map fun d => (d.id, d.kind, d.isCombined) := by
  unfold ReportsCombined Descriptor.IsCombinedImage
  simp only [List.mem_map, Prod.mk.injEq]

theorem reportsCombined_map (f : τ → σ) :
    (x.map f).ReportsCombined image ↔ x.ReportsCombined image := by
  rw [reportsCombined_iff_mem, reportsCombined_iff_mem]
  simp only [EntryPoint.map, List.map_map, Function.comp_def, Descriptor.map]

end EntryPoint

namespace Config

variable {c : Config} {s : Source} {e : EntryPointDecl} {reach : Reach} {image sampler : Ident}

theorem entryTree_reportsCombined_iff {t : EntryPoint TypeTree} (h : c.entryTree s e = .ok t)
    (hreach : Reach.analyze s.graph e c.allResources = .ok reach)
    (himage : image ∈ reach.resources)
    (hc : (c.pairing s.graph reach).isCombined image = true) :
    t.ReportsCombined image ↔ s.Combines (c.pairing s.graph reach) image := by
  unfold entryTree at h
  rw [hreach, liftM_fault_ok, ok_bind] at h
  rw [EntryPoint.reportsCombined_iff_mem,
    Source.mem_map_descriptors_assembleTree (fun _ _ => rfl) h]
  simp only [Prod.mk.injEq]
  constructor
  · rintro ⟨id, -, item, hitem, d, hd, hcomb⟩
    have : id = image := by rw [← Source.id_of_mem_resourceTrees hitem hd, hcomb.1]
    subst this
    exact (Source.resourceTrees_combined_iff hc hitem).mp ⟨d, hd, hcomb⟩
  · intro hcomb
    obtain ⟨item, hitem⟩ := Source.exists_resourceTrees h himage
    obtain ⟨d, hd, hreport⟩ := (Source.resourceTrees_combined_iff hc hitem).mpr hcomb
    exact ⟨image, himage, item, hitem, d, hd, hreport⟩

/-- What entry point number `k` of the binary is described from, and what it reaches. -/
def Reaches (c : Config) (k : Nat) (s : Source) (reach : Reach) : Prop :=
  ∃ words e, c.words = .ok words ∧ c.source words = .ok s ∧
    s.graph.annotations.entryPoints[k]? = some e ∧
    Reach.analyze s.graph e c.allResources = .ok reach

/-- **When a removed sampler is represented by its images.** With pairing asked for, an image that
is paired with a removed sampler is reported as combined exactly if its type is that of an image
that can be combined, and it is not removed itself. -/
theorem reportsCombined_iff {r : Reflection} (hc : c.combineSamplers = true)
    (h : c.reflect.result = .ok r) {k : Nat} {x : EntryPoint TypeIdx}
    (hx : r.entryPoints[k]? = some x) :
    ∃ s reach, c.Reaches k s reach ∧
      ∀ image sampler, sampler ∈ (Pairing.combine s.graph reach).removed →
        (image, sampler) ∈ Pairing.pairs s.graph reach →
        (x.ReportsCombined image ↔ s.Combines (Pairing.combine s.graph reach) image) := by
  obtain ⟨words, s, p, hwords, hs, -, htrees, rfl⟩ := c.exists_progress h
  have htree : (Progress.view.tree p)[k]? = some (x.map p.arena.tree) := by
    show (p.entryPoints.map _)[k]? = _
    rw [List.getElem?_map, hx]
    rfl
  obtain ⟨e, he, hentry⟩ := exists_of_mapM_eq_ok htrees htree
  obtain ⟨reach, hreach, -⟩ := bind_eq_ok_iff.mp hentry
  rw [liftM_fault_eq_ok_iff] at hreach
  refine ⟨s, reach, ⟨words, e, hwords, hs, he, hreach⟩, fun image sampler hremoved hpair => ?_⟩
  have hpairing : c.pairing s.graph reach = Pairing.combine s.graph reach := if_pos hc
  have himage : image ∈ reach.resources := by
    obtain ⟨function, -, hpair⟩ := List.mem_flatMap.mp hpair
    split at hpair
    · exact (of_decide_eq_true (List.mem_filter.mp hpair).2).1
    · cases hpair
  rw [← EntryPoint.reportsCombined_map p.arena.tree, ← hpairing]
  refine entryTree_reportsCombined_iff hentry hreach himage ?_
  rw [hpairing]
  exact Pairing.isCombined_of_mem_removed hremoved hpair

set_option maxRecDepth 100000 in
/-- The sampled image of the small binary is reported together with its sampler. -/
theorem sample_reportsCombined : ∃ r x s reach, (sampleConfig 1).reflect.result = .ok r ∧
    r.entryPoints[0]? = some x ∧ (sampleConfig 1).Reaches 0 s reach ∧ x.ReportsCombined 11 ∧
    ∀ image sampler, sampler ∈ (Pairing.combine s.graph reach).removed →
      (image, sampler) ∈ Pairing.pairs s.graph reach →
      (x.ReportsCombined image ↔ s.Combines (Pairing.combine s.graph reach) image) := by
  obtain ⟨r, hr, hx⟩ := exists_eq_ok_of_any (x := (sampleConfig 1).reflect.result)
    (p := fun r => r.entryPoints[0]?.any fun x => x.ReportsCombined 11) (by decide +kernel)
  obtain ⟨x, hx, hcomb⟩ := (Option.any_eq_true _ _).mp hx
  obtain ⟨s, reach, hreach, hiff⟩ := reportsCombined_iff rfl hr hx
  exact ⟨r, x, s, reach, hr, hx, hreach, of_decide_eq_true hcomb, hiff⟩

set_option maxRecDepth 100000 in
/-- The small binary with a storage image: the sampler is removed, and the image that it is paired
with is not reported as combined. -/
theorem sample_storageImage_not_combined : ∃ r x s reach,
    (sampleConfig 2).reflect.result = .ok r ∧ r.entryPoints[0]? = some x ∧
    (sampleConfig 2).Reaches 0 s reach ∧ 12 ∈ (Pairing.combine s.graph reach).removed ∧
    (11, 12) ∈ Pairing.pairs s.graph reach ∧ (∀ d ∈ x.descriptors, d.id ≠ 12) ∧
    ¬ x.ReportsCombined 11 := by
  obtain ⟨r, hr, hx⟩ := exists_eq_ok_of_any (x := (sampleConfig 2).reflect.result)
    (p := fun r => r.entryPoints[0]?.any fun x =>
      (∀ d ∈ x.descriptors, d.id ≠ 12) ∧ ¬ x.ReportsCombined 11) (by decide +kernel)
  obtain ⟨x, hx, hreport⟩ := (Option.any_eq_true _ _).mp hx
  obtain ⟨s, hs, he⟩ := exists_eq_ok_of_any (x := (sampleConfig 2).source (sampleWords 2))
    (p := fun s => s.graph.annotations.entryPoints[0]?.any fun e =>
      (Reach.analyze s.graph e false).toOption.any fun reach =>
        12 ∈ (Pairing.combine s.graph reach).removed ∧ (11, 12) ∈ Pairing.pairs s.graph reach)
    (by decide +kernel)
  obtain ⟨e, he, hreach⟩ := (Option.any_eq_true _ _).mp he
  obtain ⟨reach, hreach, hpair⟩ := exists_eq_ok_of_any hreach
  obtain ⟨hmissing, hnot⟩ := of_decide_eq_true hreport
  obtain ⟨hremoved, hpair⟩ := of_decide_eq_true hpair
  exact ⟨r, x, s, reach, hr, hx, ⟨_, e, rfl, hs, he, hreach⟩, hremoved, hpair, hmissing, hnot⟩

end Config

end ShaderReflect
