import ShaderReflect.Stage.Reach

/-!
# Images and samplers that belong together

The functions that an entry point reaches pair images with samplers (specification, 4.5). An image
that is paired with one sampler only is *combined* with it. A sampler is *removed* if every image
that it is paired with is combined. Images and samplers that are passed to a function as parameters
are not known as variables, so such pairs do not count, and neither do pairs with a variable that
the entry point does not reach.

The pairs are looked at as a whole: the samplers of an image, and the images of a sampler, are sets
that are made from all pairs. To note one pair after the other, as the pairs are come across, gives
the same (`Proofs/Stage/Pairing`).

A pairing knows nothing of types. Whether a combined image is reported as such is decided where its
descriptor is made (`imageDescriptorKind`), while a removed sampler is left out in any case.

* `Pairing.combine`: the pairing of what an entry point reaches. It cannot fail.
* `Pairing.trace`: with a warning for each image that is paired with several samplers.
-/

namespace ShaderReflect

/-- Which images are combined with which samplers, and which samplers are left without a use of
their own. -/
structure Pairing where
  /-- The combined images in ascending order, each with its sampler. -/
  combined : List (Ident × Ident) := []
  removed : IdSet := .empty

namespace Pairing

/-- The pairs of an image and a sampler, both resources that are reached. -/
def pairs (g : Graph) (r : Reach) : List (Ident × Ident) :=
  r.functions.ids.flatMap fun id =>
    match g.functions.get? id with
    | some body => body.sampled.filter fun p => p.1 ∈ r.resources ∧ p.2 ∈ r.resources
    | none => []

/-- The samplers that an image is paired with. -/
def samplersOf (ps : List (Ident × Ident)) (image : Ident) : IdSet :=
  IdSet.ofList ((ps.filter (·.1 = image)).map Prod.snd)

/-- The images that a sampler is paired with. -/
def imagesOf (ps : List (Ident × Ident)) (sampler : Ident) : IdSet :=
  IdSet.ofList ((ps.filter (·.2 = sampler)).map Prod.fst)

/-- The one sampler that an image is paired with. -/
def samplerOf? (ps : List (Ident × Ident)) (image : Ident) : Option Ident :=
  match (samplersOf ps image).ids with
  | [sampler] => some sampler
  | _ => none

/-- The pairing that pairs give rise to. -/
def ofPairs (ps : List (Ident × Ident)) : Pairing where
  combined := (IdSet.ofList (ps.map Prod.fst)).ids.filterMap fun image =>
    (samplerOf? ps image).map (image, ·)
  removed := (IdSet.ofList (ps.map Prod.snd)).filter fun sampler =>
    (imagesOf ps sampler).ids.all fun image => (samplerOf? ps image).isSome

/-- The sampler that an image is combined with. -/
def sampler? (p : Pairing) (image : Ident) : Option Ident := p.combined.lookup image

/-- Whether an image is combined with a sampler. -/
def isCombined (p : Pairing) (image : Ident) : Bool := (p.sampler? image).isSome

/-- Whether nothing is combined. -/
def isEmpty (p : Pairing) : Bool := p.combined.isEmpty && p.removed.ids.isEmpty

/-- The events of images that are paired with several samplers. -/
def uncombined (ps : List (Ident × Ident)) : List Event :=
  (IdSet.ofList (ps.map Prod.fst)).ids.filterMap fun image =>
    if (samplerOf? ps image).isNone then some (.imageUncombined image (samplersOf ps image).size)
    else none

/-- The pairing of what an entry point reaches. -/
def combine (g : Graph) (r : Reach) : Pairing := ofPairs (pairs g r)

/-- The pairing of what an entry point reaches, with notes of what could not be combined and of how
much was. -/
def trace (g : Graph) (r : Reach) : Traced Pairing := do
  (uncombined (pairs g r)).forM Traced.note
  let p := combine g r
  Traced.note (.imagesCombined p.combined.length p.removed.size)
  return p

end Pairing

end ShaderReflect
