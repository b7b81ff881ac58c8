import Mathlib.Data.List.Sort
import Mathlib.Logic.Function.Basic
import ShaderReflect.Proofs.Stage.Combination

/-!
# The pairing is exact

The functions that are reached relate images to samplers (`Pairing.Pairs`), and nothing else about
them matters to the pairing: an image is combined with the only sampler that it is related to, and a
sampler is removed if it is the only one of every image that is related to it (`Pairing.Exact`). At
most one pairing is exact for a relation (`Exact.unique`), so order, repetition and the functions
that hold the pairs make no difference.

The same comes out of noting the pairs one after the other, samplers by image and images by sampler,
and deciding when all are noted (`Pairing.Tally`). `Tally.Holds.note` is the step, `Tally.holds_of`
the run.

* `Pairing.exact_ofPairs`: the pairing that pairs give rise to is exact.
* `Pairing.Tally.Holds.decides`: what is noted decides the exact pairing.
* `Pairing.combine_exact`: what is combined and what is removed at an entry point.

Specification, 4.5 (the combiner never fails). Graph and reached functions may be any, since nothing
is looked up that could be missing: a function without a body has no pairs.
-/

namespace ShaderReflect

namespace IdSet

/-- The member of a set that has one member. -/
def only? (s : IdSet) : Option Ident :=
  match s.ids with
  | [x] => some x
  | _ => none

theorem only?_eq_some_iff {s : IdSet} {x : Ident} : s.only? = some x ↔ x ∈ s ∧ ∀ y ∈ s, y = x := by
  constructor
  · intro h
    unfold only? at h
    split at h
    · rename_i hids
      cases h
      simp only [mem_iff, hids, List.mem_singleton, forall_eq, and_self]
    · cases h
  · rintro ⟨hx, hall⟩
    have hids : s.ids = [x] := by
      refine eq_of_ascending s.ascending (List.pairwise_singleton _ x) fun y => ?_
      rw [List.mem_singleton]
      exact ⟨hall y, fun h => h ▸ hx⟩
    rw [only?, hids]

end IdSet

namespace Pairing

/-! ## Unambiguous pairs -/

/-- A function that is reached pairs the image with the sampler, and both are resources that are
reached. -/
def Pairs (g : Graph) (r : Reach) (image sampler : Ident) : Prop :=
  image ∈ r.resources ∧ sampler ∈ r.resources ∧
    ∃ f ∈ r.functions, ∃ body, g.functions.get? f = some body ∧ (image, sampler) ∈ body.sampled

/-- The sampler is the only one that the image is paired with. -/
def Only (P : Ident → Ident → Prop) (image sampler : Ident) : Prop :=
  P image sampler ∧ ∀ other, P image other → other = sampler

/-- The pairing combines each image with its only sampler, and removes the samplers that are the
only one of every image that they are paired with. -/
structure Exact (P : Ident → Ident → Prop) (p : Pairing) : Prop where
  combined : ∀ image sampler, (image, sampler) ∈ p.combined ↔ Only P image sampler
  ascending : (p.combined.map Prod.fst).Pairwise (· < ·)
  removed : ∀ sampler, sampler ∈ p.removed ↔
    (∃ image, P image sampler) ∧ ∀ image, P image sampler → Only P image sampler

variable {P : Ident → Ident → Prop} {p p' : Pairing} {ps : List (Ident × Ident)}
  {image sampler : Ident}

namespace Exact

/-- The pairs that are combined are a table by image. -/
def table (h : Exact P p) : Table Ident Ident where
  entries := p.combined
  nodup := h.ascending.imp UInt32.ne_of_lt

/-- Looking up an image finds its only sampler. -/
theorem sampler?_eq_some_iff (h : Exact P p) :
    p.sampler? image = some sampler ↔ Only P image sampler :=
  (Table.get?_eq_some_iff (t := h.table)).trans (h.combined image sampler)

theorem isCombined_iff (h : Exact P p) :
    p.isCombined image = true ↔ ∃ sampler, Only P image sampler := by
  rw [isCombined, Option.isSome_iff_exists]
  exact exists_congr fun _ => h.sampler?_eq_some_iff

/-- An image that stays as it is keeps its samplers. -/
theorem not_mem_removed (h : Exact P p) (hp : P image sampler)
    (hc : p.isCombined image = false) : sampler ∉ p.removed := by
  intro hs
  have honly : Only P image sampler := ((h.removed sampler).mp hs).2 image hp
  rw [h.isCombined_iff.mpr ⟨sampler, honly⟩] at hc
  cases hc

/-- A relation has one exact pairing. -/
theorem unique (h : Exact P p) (h' : Exact P p') : p = p' := by
  have : Std.Irrefl fun x y : Ident × Ident => x.1 < y.1 := ⟨fun _ => UInt32.lt_irrefl _⟩
  have : Std.Antisymm fun x y : Ident × Ident => x.1 < y.1 :=
    ⟨fun _ _ hxy hyx => absurd (UInt32.lt_trans hxy hyx) (UInt32.lt_irrefl _)⟩
  have hcombined : p.combined = p'.combined := by
    refine List.Pairwise.eq_of_mem_iff (List.pairwise_map.mp h.ascending)
      (List.pairwise_map.mp h'.ascending) ?_
    rintro ⟨image, sampler⟩
    rw [h.combined, h'.combined]
  have hremoved : p.removed = p'.removed :=
    IdSet.ext_mem fun sampler => (h.removed sampler).trans (h'.removed sampler).symm
  cases p
  cases p'
  cases hcombined
  cases hremoved
  rfl

end Exact

/-! ## The pairing of a list of pairs -/

theorem mem_samplersOf : sampler ∈ samplersOf ps image ↔ (image, sampler) ∈ ps := by
  rw [samplersOf, IdSet.mem_ofList]
  simp

theorem samplerOf?_eq_some_iff :
    samplerOf? ps image = some sampler ↔ Only (fun i s => (i, s) ∈ ps) image sampler := by
  show (samplersOf ps image).only? = some sampler ↔ _
  simp only [IdSet.only?_eq_some_iff, mem_samplersOf, Only]

/-- **The pairing of pairs is exact.** -/
theorem exact_ofPairs (ps : List (Ident × Ident)) :
    Exact (fun image sampler => (image, sampler) ∈ ps) (ofPairs ps) where
  combined := by
    intro image sampler
    show _ ∈ List.filterMap _ _ ↔ _
    rw [List.mem_filterMap]
    constructor
    · rintro ⟨image', -, h⟩
      obtain ⟨sampler', hsampler, heq⟩ := Option.map_eq_some_iff.mp h
      cases heq
      exact samplerOf?_eq_some_iff.mp hsampler
    · intro h
      refine ⟨image, IdSet.mem_ofList.mpr (List.mem_map_of_mem (f := Prod.fst) h.1), ?_⟩
      rw [samplerOf?_eq_some_iff.mpr h, Option.map_some]
  ascending := by
    refine List.pairwise_map.mpr (List.pairwise_filterMap.mpr ?_)
    refine (IdSet.ascending _).imp fun hlt x hx y hy => ?_
    obtain ⟨_, -, rfl⟩ := Option.map_eq_some_iff.mp hx
    obtain ⟨_, -, rfl⟩ := Option.map_eq_some_iff.mp hy
    exact hlt
  removed := by
    intro sampler
    show sampler ∈ IdSet.filter _ _ ↔ _
    rw [IdSet.mem_filter, IdSet.mem_ofList, List.all_eq_true]
    refine and_congr (by simp) (forall_congr' fun image => ?_)
    rw [← IdSet.mem_iff, mem_imagesOf, Option.isSome_iff_exists]
    refine forall_congr' fun hp => ?_
    constructor
    · rintro ⟨only, honly⟩
      have honly := samplerOf?_eq_some_iff.mp honly
      exact honly.2 sampler hp ▸ honly
    · exact fun honly => ⟨sampler, samplerOf?_eq_some_iff.mpr honly⟩

/-! ## Noting pairs one after the other -/

/-- What has been noted: the samplers of each image, and the images of each sampler. -/
structure Tally where
  samplers : Ident → IdSet := fun _ => .empty
  images : Ident → IdSet := fun _ => .empty

namespace Tally

variable {t : Tally}

/-- Note one more pair on both sides. -/
def note (t : Tally) (pair : Ident × Ident) : Tally where
  samplers := Function.update t.samplers pair.1 ((t.samplers pair.1).insert pair.2)
  images := Function.update t.images pair.2 ((t.images pair.2).insert pair.1)

/-- What is noted of pairs. -/
def of (ps : List (Ident × Ident)) : Tally := ps.foldl note {}

/-- The only sampler noted of an image. -/
def only? (t : Tally) (image : Ident) : Option Ident := (t.samplers image).only?

/-- The sampler is noted, and only of images that have no other sampler. -/
def drops (t : Tally) (sampler : Ident) : Bool :=
  !(t.images sampler).ids.isEmpty &&
    (t.images sampler).ids.all fun image => (t.only? image).isSome

/-- Both sides hold the pairs of a relation. -/
structure Holds (P : Ident → Ident → Prop) (t : Tally) : Prop where
  samplers : ∀ image sampler, sampler ∈ t.samplers image ↔ P image sampler
  images : ∀ image sampler, image ∈ t.images sampler ↔ P image sampler

/-- What an updated family of sets holds. -/
theorem mem_update_insert {sets : Ident → IdSet} {x y z k : Ident} :
    z ∈ Function.update sets x ((sets x).insert y) k ↔ z ∈ sets k ∨ (k = x ∧ z = y) := by
  by_cases hk : k = x
  · subst hk
    rw [Function.update_self, IdSet.mem_insert]
    simp [or_comm]
  · rw [Function.update_of_ne hk]
    simp [hk]

/-- **One more pair** is held on both sides. -/
theorem Holds.note (h : t.Holds P) (pair : Ident × Ident) :
    (t.note pair).Holds fun image sampler => P image sampler ∨ (image, sampler) = pair where
  samplers := by
    intro image sampler
    rw [Tally.note, mem_update_insert, h.samplers, Prod.ext_iff]
  images := by
    intro image sampler
    rw [Tally.note, mem_update_insert, h.images, Prod.ext_iff, and_comm]

theorem holds_foldl (h : t.Holds P) (ps : List (Ident × Ident)) :
    (ps.foldl Tally.note t).Holds fun image sampler =>
      P image sampler ∨ (image, sampler) ∈ ps := by
  induction ps generalizing t P with
  | nil => simpa using h
  | cons pair ps ih =>
    have hps := ih (h.note pair)
    simp only [or_assoc] at hps
    simpa only [List.foldl_cons, List.mem_cons] using hps

/-- **All pairs** are held on both sides. -/
theorem holds_of (ps : List (Ident × Ident)) :
    (of ps).Holds fun image sampler => (image, sampler) ∈ ps := by
  have hempty : ({} : Tally).Holds fun _ _ => False :=
    ⟨fun _ _ => by simp, fun _ _ => by simp⟩
  have hps := holds_foldl hempty ps
  simp only [false_or] at hps
  exact hps

theorem Holds.only?_eq_some_iff (h : t.Holds P) :
    t.only? image = some sampler ↔ Only P image sampler := by
  simp only [only?, IdSet.only?_eq_some_iff, h.samplers, Only]

theorem Holds.drops_iff (h : t.Holds P) : t.drops sampler = true ↔
    (∃ image, P image sampler) ∧ ∀ image, P image sampler → ∃ only, Only P image only := by
  have hnonempty : (!(t.images sampler).ids.isEmpty) = true ↔ ∃ image, P image sampler := by
    simp only [Bool.not_eq_true', List.isEmpty_eq_false_iff_exists_mem, ← h.images, IdSet.mem_iff]
  rw [drops, Bool.and_eq_true, hnonempty, List.all_eq_true]
  refine and_congr_right fun _ => forall_congr' fun image => ?_
  rw [← IdSet.mem_iff, h.images, Option.isSome_iff_exists]
  simp only [h.only?_eq_some_iff]

/-- **What is noted decides the exact pairing.** -/
theorem Holds.decides (h : t.Holds P) (hp : Exact P p) :
    (∀ image, p.sampler? image = t.only? image) ∧
      ∀ sampler, sampler ∈ p.removed ↔ t.drops sampler = true := by
  refine ⟨fun image => Option.ext fun sampler => ?_, fun sampler => ?_⟩
  · rw [hp.sampler?_eq_some_iff, h.only?_eq_some_iff]
  · rw [hp.removed, h.drops_iff]
    refine and_congr_right fun _ => forall₂_congr fun image himage => ?_
    exact ⟨fun honly => ⟨sampler, honly⟩, fun ⟨_, honly⟩ => honly.2 sampler himage ▸ honly⟩

end Tally

/-! ## The pairing of an entry point -/

theorem mem_pairs_iff {g : Graph} {r : Reach} :
    (image, sampler) ∈ pairs g r ↔ Pairs g r image sampler := by
  unfold pairs Pairs
  rw [List.mem_flatMap]
  constructor
  · rintro ⟨f, hf, h⟩
    split at h
    · rename_i body hbody
      obtain ⟨hmem, hresources⟩ := List.mem_filter.mp h
      obtain ⟨himage, hsampler⟩ := of_decide_eq_true hresources
      exact ⟨himage, hsampler, f, hf, body, hbody, hmem⟩
    · cases h
  · rintro ⟨himage, hsampler, f, hf, body, hbody, hmem⟩
    refine ⟨f, hf, ?_⟩
    rw [hbody]
    exact List.mem_filter.mpr ⟨hmem, decide_eq_true ⟨himage, hsampler⟩⟩

theorem exact_combine (g : Graph) (r : Reach) : Exact (Pairs g r) (combine g r) := by
  have h := exact_ofPairs (pairs g r)
  simp only [mem_pairs_iff] at h
  exact h

/-- **The pairing computes exactly the unambiguous pairs.** An image is combined with the only
sampler that functions which are reached pair it with, and a sampler is removed if it is the only
one of each of its images. So an image that stays uncombined keeps its samplers, whatever pairs the
same images with the same samplers has the same pairing, and so has a list of these pairs in any
order and with any repetition, noted one after the other. -/
theorem combine_exact (g : Graph) (r : Reach) :
    Exact (Pairs g r) (combine g r) ∧
      (∀ image sampler, (combine g r).sampler? image = some sampler ↔
        Only (Pairs g r) image sampler) ∧
      (∀ image sampler, Pairs g r image sampler → (combine g r).isCombined image = false →
        sampler ∉ (combine g r).removed) ∧
      (∀ g' r', (∀ image sampler, Pairs g' r' image sampler ↔ Pairs g r image sampler) →
        combine g' r' = combine g r) ∧
      ∀ ps, (∀ image sampler, (image, sampler) ∈ ps ↔ Pairs g r image sampler) →
        ofPairs ps = combine g r ∧
          (∀ image, (combine g r).sampler? image = (Tally.of ps).only? image) ∧
          ∀ sampler, sampler ∈ (combine g r).removed ↔ (Tally.of ps).drops sampler = true := by
  have h := exact_combine g r
  refine ⟨h, fun _ _ => h.sampler?_eq_some_iff, fun _ _ => h.not_mem_removed, fun g' r' hsame => ?_,
    fun ps hsame => ?_⟩
  · have h' := exact_combine g' r'
    rw [funext₂ fun image sampler => propext (hsame image sampler)] at h'
    exact h'.unique h
  · have hps := exact_ofPairs ps
    have hnoted := Tally.holds_of ps
    rw [funext₂ fun image sampler => propext (hsame image sampler)] at hps hnoted
    exact ⟨hps.unique h, hnoted.decides h⟩

/-- Instructions that load an image and a sampler and pair them, with three results from `id`. -/
def pairOnce (id image sampler : Ident) : List Instruction :=
  [⟨61, [6, id, image]⟩, ⟨61, [7, id + 1, sampler]⟩, ⟨86, [8, id + 2, id, id + 1]⟩]

/-- A binary with the images 11, 12, 15 and 17 and the samplers 13, 14 and 16. Its entry point holds
the first instructions and calls a function that holds the second ones. -/
def pairingWords (main callee : List Instruction) : List Word :=
  [magicNumber, 0x10300, 0, 64, 0] ++ List.flatMap Instruction.words (
    [⟨15, [4, 2, 0x61]⟩, ⟨19, [3]⟩, ⟨33, [4, 3]⟩, ⟨22, [5, 32]⟩, ⟨25, [6, 5, 1, 0, 0, 0, 1, 0]⟩,
      ⟨26, [7]⟩, ⟨27, [8, 6]⟩, ⟨32, [9, 0, 6]⟩, ⟨32, [10, 0, 7]⟩, ⟨59, [9, 11, 0]⟩,
      ⟨59, [9, 12, 0]⟩, ⟨59, [10, 13, 0]⟩, ⟨59, [10, 14, 0]⟩, ⟨59, [9, 15, 0]⟩, ⟨59, [10, 16, 0]⟩,
      ⟨59, [9, 17, 0]⟩, ⟨54, [3, 2, 0, 4]⟩] ++ main ++
    [⟨57, [3, 19, 18]⟩, ⟨56, []⟩, ⟨54, [3, 18, 0, 4]⟩] ++ callee ++ [⟨56, []⟩])

/-- A binary with an image that has two samplers, and images that share one. -/
def pairedWords : List Word :=
  pairingWords (pairOnce 20 11 13 ++ pairOnce 23 12 13 ++ pairOnce 26 12 14)
    (pairOnce 29 15 16 ++ pairOnce 32 17 16 ++ pairOnce 35 11 13)

/-- A binary with the same pairs, in another order and in other functions. -/
def regroupedWords : List Word :=
  pairingWords (pairOnce 20 17 16 ++ pairOnce 23 12 14)
    (pairOnce 26 12 13 ++ pairOnce 29 15 16 ++ pairOnce 32 11 13 ++ pairOnce 35 15 16)

/-- What the entry point of a binary reaches, with the graph of the binary. -/
def reachOf (words : List Word) : Except Fault (Graph × Option Reach) := do
  let g ← Graph.ofWords words
  return (g, g.annotations.entryPoints.head?.bind fun e => (Reach.analyze g e false).toOption)

set_option maxRecDepth 100000 in
/-- Image 12 is paired with two samplers, so it stays as it is and so do both of them. The sampler
16, which two images share, is removed. -/
theorem sample_combine_exact : ∃ g r g' r',
    reachOf pairedWords = .ok (g, some r) ∧ reachOf regroupedWords = .ok (g', some r') ∧
    (combine g r).combined = [(11, 13), (15, 16), (17, 16)] ∧ (combine g r).removed.ids = [16] ∧
    Only (Pairs g r) 15 16 ∧ 13 ∉ (combine g r).removed ∧ combine g' r' = combine g r := by
  obtain ⟨⟨g, r?⟩, hg, hfacts⟩ := exists_eq_ok_of_any (x := reachOf pairedWords)
    (p := fun (g, r?) => r?.any fun r =>
      pairs g r = [(11, 13), (12, 13), (12, 14), (15, 16), (17, 16), (11, 13)]) (by decide +kernel)
  obtain ⟨⟨g', r'?⟩, hg', hfacts'⟩ := exists_eq_ok_of_any (x := reachOf regroupedWords)
    (p := fun (g, r?) => r?.any fun r =>
      pairs g r = [(17, 16), (12, 14), (12, 13), (15, 16), (11, 13), (15, 16)]) (by decide +kernel)
  obtain ⟨r, rfl, hpairs⟩ := (Option.any_eq_true _ _).mp hfacts
  obtain ⟨r', rfl, hpairs'⟩ := (Option.any_eq_true _ _).mp hfacts'
  have hpairs := of_decide_eq_true hpairs
  have hpairs' := of_decide_eq_true hpairs'
  have hcombine : combine g r =
      ofPairs [(11, 13), (12, 13), (12, 14), (15, 16), (17, 16), (11, 13)] :=
    congrArg ofPairs hpairs
  have hlisted : (combine g r).combined = [(11, 13), (15, 16), (17, 16)] := by
    rw [hcombine]
    decide +kernel
  have hremoved : (combine g r).removed.ids = [16] := by
    rw [hcombine]
    decide +kernel
  obtain ⟨hexact, -, hkept, hsame, -⟩ := combine_exact g r
  refine ⟨g, r, g', r', hg, hg', hlisted, hremoved, ?_, hkept 12 13 ?_ ?_, hsame g' r' ?_⟩
  · rw [← hexact.combined, hlisted]
    decide
  · rw [← mem_pairs_iff, hpairs]
    decide
  · rw [hcombine]
    decide +kernel
  · intro image sampler
    rw [← mem_pairs_iff, ← mem_pairs_iff, hpairs, hpairs']
    grind

end Pairing

end ShaderReflect
