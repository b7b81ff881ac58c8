import ShaderReflect.Proofs.Closed
import ShaderReflect.Proofs.Growth

/-!
# Lengths of arrays

The length of an array is the value of a constant, and has to be a positive integer of at most 32
bits (`Specialization.HasLength`). It gets into a reflection in two ways: through the types in the
arena, and through the dimensions of descriptors, which are taken off the types of variables.

* `Specialization.arrayLength_eq_ok_iff`, `Specialization.arrayLength_eq_error`: when a constant
  holds a length, and whom the fault blames if it does not.
* `Source.Admits.array`: the types in the arena.
* `Source.nests_unwrapSizedTo`, `Source.hasDims_of_mem_descriptors`: the dimensions of descriptors,
  one for each array that is taken off.
* `Config.reflect_arrayLengths`: whole reflections.

Specification, 4.3 (`array_len`) and 4.6. The two ways ask for a length separately, and neither asks
for the lengths of types that no entry point needs: a binary may hold an array whose length cannot
be told, as long as nothing that is reported is built from it.
-/

namespace ShaderReflect

/-! ## Constants -/

/-- A constant is a number that cannot be overridden. -/
def Graph.IsNumber (g : Graph) (id : Ident) : Prop :=
  ∃ type low high, g.constants.get? id =
    some { type, kind := .scalar low high, isSpecialization := false }

/-- The length of an array whose length is such a number is a literal. -/
theorem Graph.lengthSource_cases {g : Graph} {length : Ident} (h : length ∈ g.constants.keys) :
    (g.IsNumber length ∧ ∃ low, g.lengthSource length = .ok (.literal low)) ∨
    (¬ g.IsNumber length ∧ g.lengthSource length = .ok (.specialized length)) := by
  obtain ⟨⟨type, kind, isSpecialization⟩, hc⟩ :=
    Option.isSome_iff_exists.mp (Table.mem_keys_iff.mp h)
  unfold lengthSource
  rw [constant_eq_ok_iff.mpr hc, ok_bind, IsNumber, hc]
  cases kind with
  | scalar low high => cases isSpecialization <;> simp
  | _ => simp

namespace Specialization

variable {σ : Specialization} {g : Graph} {length : Ident} {n : Word}

/-- A constant is evaluated to a positive integer of at most 32 bits. -/
def HasLength (σ : Specialization) (length : Ident) (n : Word) : Prop :=
  (∃ width signed bits, σ.scalar? length = some (.int width signed bits) ∧
    (Scalar.int width signed bits).natural? = some n) ∧ 0 < n

theorem hasLength_iff : σ.HasLength length n ↔
    ((σ.scalar? length).bind Scalar.natural?).filter (· > 0) = some n := by
  unfold HasLength
  rw [Option.filter_eq_some_iff, decide_eq_true_eq]
  refine and_congr_left fun _ => ?_
  rw [Option.bind_eq_some_iff]
  constructor
  · rintro ⟨width, signed, bits, hs, hn⟩
    exact ⟨_, hs, hn⟩
  · rintro ⟨x, hs, hn⟩
    cases x with
    | int width signed bits => exact ⟨width, signed, bits, hs, hn⟩
    | bool b => cases hn
    | float width bits => cases hn

theorem HasLength.of_arrayLength (h : σ.arrayLength g length = .ok n) : σ.HasLength length n := by
  rw [hasLength_iff]
  obtain ⟨source, -, h⟩ := bind_eq_ok_iff.mp h
  split at h
  · rename_i m _ hm
    cases h
    exact hm
  · cases h
  · cases h

/-- **A declared constant holds the length of an array** exactly if it is evaluated to one. -/
theorem arrayLength_eq_ok_iff (hg : length ∈ g.constants.keys) :
    σ.arrayLength g length = .ok n ↔ σ.HasLength length n := by
  refine ⟨HasLength.of_arrayLength, fun h => ?_⟩
  rw [hasLength_iff] at h
  have hsource : ∃ source, g.lengthSource length = .ok source := by
    rcases Graph.lengthSource_cases hg with ⟨-, low, hlow⟩ | ⟨-, hspec⟩
    · exact ⟨_, hlow⟩
    · exact ⟨_, hspec⟩
  obtain ⟨source, hsource⟩ := hsource
  unfold arrayLength
  rw [hsource, ok_bind, h]
  rfl

/-- **A declared constant that holds no length** is blamed on the binary if it is a number that
cannot be overridden, and on the overrides else. -/
theorem arrayLength_eq_error (hg : length ∈ g.constants.keys) (h : ∀ n, ¬ σ.HasLength length n) :
    (g.IsNumber length → σ.arrayLength g length = .error (.corrupted (.arrayLength length))) ∧
    (¬ g.IsNumber length →
      σ.arrayLength g length = .error (.specialization (.arrayLength length))) := by
  have hnone : ((σ.scalar? length).bind Scalar.natural?).filter (· > 0) = none :=
    Option.eq_none_iff_forall_not_mem.mpr fun n hn => h n (hasLength_iff.mpr hn)
  unfold arrayLength
  rcases Graph.lengthSource_cases hg with ⟨hnumber, low, hlow⟩ | ⟨hnumber, hspec⟩
  · rw [hlow, ok_bind, hnone]
    exact ⟨fun _ => rfl, fun h => absurd hnumber h⟩
  · rw [hspec, ok_bind, hnone]
    exact ⟨fun h => absurd h hnumber, fun _ => rfl⟩

end Specialization

/-! ## Types -/

namespace Graph

/-- A type is sized arrays around a core, with the constants of their lengths, outermost first. -/
inductive Nests (g : Graph) : Ident → List Ident → Ident → Prop
  | core {id : Ident} (h : ∀ e l stride, g.types.get? id ≠ some (.array e l stride)) :
    g.Nests id [] id
  | array {id element length core : Ident} {stride : Option Word} {lengths : List Ident}
    (h : g.types.get? id = some (.array element length stride))
    (hn : g.Nests element lengths core) : g.Nests id (length :: lengths) core

/-- What is left of a type if it is an array without a length, and whether it is one. -/
inductive Opens (g : Graph) (id : Ident) : Bool → Ident → Prop
  | sized (h : ∀ e stride, g.types.get? id ≠ some (.runtimeArray e stride)) : g.Opens id false id
  | unsized {element : Ident} {stride : Option Word}
    (h : g.types.get? id = some (.runtimeArray element stride)) : g.Opens id true element

theorem pointee_eq_ok {g : Graph} {v : Variable} {pointee : Ident} (h : g.pointee v = .ok pointee) :
    ∃ storage, g.types.get? v.type = some (.pointer storage pointee) := by
  obtain ⟨decl, hd, h⟩ := bind_eq_ok_iff.mp h
  split at h
  · rename_i storage p
    cases h
    exact ⟨storage, type_eq_ok_iff.mp hd⟩
  · cases h

end Graph

namespace Source

variable {s : Source} {a : Arena} {id : Ident} {v : Variable} {pairing : Pairing}

/-- The length of an array in the arena is that of a declared array. -/
theorem Admits.array {e : TypeIdx} {n : Word} {stride : Option Nat}
    (h : s.Admits a (.array e n stride)) : ∃ id element length stride',
      s.graph.types.get? id = some (.array element length stride') ∧
      s.specialization.HasLength length n ∧ stride = stride'.map UInt32.toNat := by
  cases h with
  | @declared id decl _ hd h =>
    cases decl with
    | array element length stride' =>
      obtain ⟨i, -, h⟩ := bind_eq_ok_iff.mp h
      obtain ⟨m, hm, h⟩ := bind_eq_ok_iff.mp h
      cases h
      exact ⟨id, element, length, stride', hd, .of_arrayLength hm, rfl⟩
    | vector o | matrix o | runtimeArray o | image o | sampledImage o | pointer _ o | struct _ o =>
      obtain ⟨i, -, h⟩ := bind_eq_ok_iff.mp h
      cases h
    | _ => cases h

/-- **The dimensions that are taken off a type** are the lengths of all arrays that it is nested
in. -/
theorem nests_unwrapSizedTo {ids : List Ident} (ho : TypeOrder.Ordered s.graph.types ids)
    (hid : id ∈ ids) {depth : Nat} (hdepth : ids.length ≤ depth) {core : Ident} {dims : List Word}
    (h : s.unwrapSizedTo depth id = .ok (core, dims)) : ∃ lengths,
      s.graph.Nests id lengths core ∧ List.Forall₂ s.specialization.HasLength lengths dims := by
  induction ids generalizing id depth core dims with
  | nil => cases hid
  | cons x before ih =>
    obtain ⟨⟨decl, hdecl, hoperands⟩, hbefore⟩ := ho
    rw [List.length_cons] at hdepth
    rcases List.mem_cons.mp hid with rfl | hid
    · cases depth with
      | zero => exact absurd hdepth (Nat.not_succ_le_zero _)
      | succ depth =>
        obtain ⟨decl', hd, h⟩ := bind_eq_ok_iff.mp h
        obtain rfl : decl' = decl :=
          Option.some.inj ((Graph.type_eq_ok_iff.mp hd).symm.trans hdecl)
        split at h
        · rename_i element length stride
          obtain ⟨n, hn, h⟩ := bind_eq_ok_iff.mp h
          obtain ⟨⟨core', dims'⟩, hrest, h⟩ := bind_eq_ok_iff.mp h
          cases h
          obtain ⟨lengths, hnests, hlengths⟩ := ih hbefore
            (hoperands element List.mem_cons_self) (Nat.le_of_succ_le_succ hdepth) hrest
          exact ⟨length :: lengths, .array hdecl hnests, .cons (.of_arrayLength hn) hlengths⟩
        · rename_i hnot
          cases h
          refine ⟨[], .core fun e l stride harray => ?_, .nil⟩
          rw [hdecl, Option.some.injEq] at harray
          exact hnot e l stride harray
    · exact ih hbefore hid (Nat.le_of_succ_le hdepth) h

/-! ## Descriptors -/

/-- The dimensions of a variable are the lengths of the arrays that it points to, which are counted
from inside an array without a length if the dimensions are unbounded. -/
def HasDims (s : Source) (id : Ident) (dims : List Word) (isUnbounded : Bool) : Prop :=
  ∃ v storage pointee inner lengths core, s.graph.globals.get? id = some v ∧
    s.graph.types.get? v.type = some (.pointer storage pointee) ∧
    s.graph.Opens pointee isUnbounded inner ∧ s.graph.Nests inner lengths core ∧
    List.Forall₂ s.specialization.HasLength lengths dims

theorem HasDims.pos {dims : List Word} {isUnbounded : Bool} (h : s.HasDims id dims isUnbounded) :
    ∀ n ∈ dims, 0 < n := by
  obtain ⟨v, storage, pointee, inner, lengths, core, -, -, -, -, h⟩ := h
  induction h with
  | nil => exact fun n hn => absurd hn List.not_mem_nil
  | cons hlength _ ih => exact List.forall_mem_cons.mpr ⟨hlength.2, ih⟩

/-- What is taken off a type: an array without a length if there is one, and then all sized
arrays. -/
theorem opens_and_nests_of_unwrap (hs : s.Ordered) (hg : s.graph.Closed) {u : Unwrapped}
    (h : s.unwrap id = .ok u) : ∃ inner lengths, s.graph.Opens id u.isUnbounded inner ∧
      s.graph.Nests inner lengths u.type ∧
      List.Forall₂ s.specialization.HasLength lengths u.dims := by
  obtain ⟨decl, hd, h⟩ := bind_eq_ok_iff.mp h
  have hdecl := Graph.type_eq_ok_iff.mp hd
  have hopen : ∃ inner, s.graph.Opens id u.isUnbounded inner ∧ inner ∈ s.graph.types.keys ∧
      s.unwrapSizedTo s.graph.typeOrder.length inner = .ok (u.type, u.dims) := by
    split at h
    · rename_i element stride
      obtain ⟨_, ⟨⟩, h⟩ := bind_eq_ok_iff.mp h
      obtain ⟨⟨type, dims⟩, hrest, h⟩ := bind_eq_ok_iff.mp h
      cases h
      exact ⟨element, .unsized hdecl, hg.operands id _ hdecl element List.mem_cons_self, hrest⟩
    · rename_i hnot
      obtain ⟨_, ⟨⟩, h⟩ := bind_eq_ok_iff.mp h
      obtain ⟨⟨type, dims⟩, hrest, h⟩ := bind_eq_ok_iff.mp h
      cases h
      refine ⟨id, .sized fun e stride hruntime => ?_, Table.mem_keys_of_get? hdecl, hrest⟩
      rw [hdecl, Option.some.injEq] at hruntime
      exact hnot e stride hruntime
  obtain ⟨inner, hopens, hinner, hrest⟩ := hopen
  have hlength : s.graph.typeOrder.reverse.length ≤ s.graph.typeOrder.length := by simp
  obtain ⟨lengths, hnests, hlengths⟩ := nests_unwrapSizedTo hs.ordered
    (List.mem_reverse.mpr (hs.all inner hinner)) hlength hrest
  exact ⟨inner, lengths, hopens, hnests, hlengths⟩

/-- The descriptor of a variable has its dimensions. -/
theorem hasDims_of_descriptorTree (hs : s.Ordered) (hg : s.graph.Closed)
    (hv : s.graph.globals.get? id = some v) {d : Descriptor TypeTree}
    (h : s.descriptorTree pairing id v = .ok (some d)) : s.HasDims d.id d.dims d.isUnbounded := by
  unfold descriptorTree at h
  split at h
  · cases h
  · obtain ⟨pointee, hpointee, h⟩ := bind_eq_ok_iff.mp h
    obtain ⟨u, hu, h⟩ := bind_eq_ok_iff.mp h
    obtain ⟨decl, -, h⟩ := bind_eq_ok_iff.mp h
    obtain ⟨kind?, -, h⟩ := bind_eq_ok_iff.mp h
    cases kind? with
    | none => cases h
    | some kind =>
      obtain ⟨image, -, h⟩ := bind_eq_ok_iff.mp h
      cases h
      obtain ⟨storage, hpointer⟩ := Graph.pointee_eq_ok (liftM_fault_eq_ok_iff.mp hpointee)
      obtain ⟨inner, lengths, hopens, hnests, hlengths⟩ :=
        opens_and_nests_of_unwrap hs hg (liftM_fault_eq_ok_iff.mp hu)
      exact ⟨v, storage, pointee, inner, lengths, u.type, hv, hpointer, hopens, hnests, hlengths⟩

theorem hasDims_of_mem_resourceTrees (hs : s.Ordered) (hg : s.graph.Closed)
    {item : List (Descriptor TypeTree) × List (PushConstant TypeTree)}
    (h : s.resourceTrees pairing id = .ok item) {d : Descriptor TypeTree} (hd : d ∈ item.1) :
    s.HasDims d.id d.dims d.isUnbounded := by
  obtain ⟨v, hv, h⟩ := bind_eq_ok_iff.mp h
  split at h
  · obtain ⟨block, -, h⟩ := bind_eq_ok_iff.mp h
    cases h
    cases hd
  · obtain ⟨d?, hd?, h⟩ := bind_eq_ok_iff.mp h
    cases h
    obtain rfl := Option.mem_toList.mp hd
    exact hasDims_of_descriptorTree hs hg
      (Graph.globalVar_eq_ok_iff.mp (liftM_fault_eq_ok_iff.mp hv)) hd?

/-- **The descriptors of an entry point have the dimensions of their variables.** -/
theorem hasDims_of_mem_descriptors (hs : s.Ordered) (hg : s.graph.Closed) {e : EntryPointDecl}
    {reach : Reach} {x : EntryPoint TypeTree} (h : s.assembleTree e reach pairing = .ok x) :
    ∀ d ∈ x.descriptors, s.HasDims d.id d.dims d.isUnbounded := by
  intro d hd
  obtain ⟨id, -, item, hitem, d', hd', hsame⟩ := (mem_map_descriptors_assembleTree
    (f := fun d => (d.id, d.dims, d.isUnbounded)) (fun _ _ => rfl) h).mp (List.mem_map_of_mem hd)
  have hdims := hasDims_of_mem_resourceTrees hs hg hitem hd'
  simp only [Prod.mk.injEq] at hsame
  rwa [hsame.1, hsame.2.1, hsame.2.2] at hdims

end Source

/-! ## Reflections -/

namespace Config

variable {c : Config} {s : Source} {p : Progress} {r : Reflection}

/-- The descriptors of a reflection have the dimensions of their variables. -/
theorem MadeOf.hasDims (h : c.MadeOf s p r) {x : EntryPoint TypeIdx} (hx : x ∈ r.entryPoints) :
    ∀ d ∈ x.descriptors, s.HasDims d.id d.dims d.isUnbounded := by
  obtain ⟨words, -, hs⟩ := h.source
  obtain ⟨e, -, reach, pairing, htree⟩ := h.exists_assembleTree hx
  intro d hd
  exact Source.hasDims_of_mem_descriptors (source_ordered hs) (closed_of_source hs) htree
    (d.map p.arena.tree) (List.mem_map_of_mem hd)

/-- **Array lengths are positive, and are what their constants are evaluated to.** The constant of
an array type of a binary holds a length exactly if it is evaluated to a positive integer of at most
32 bits; if not, the binary is blamed for a number that cannot be overridden, and the overrides for
everything else. So all arrays among the types of a reflection have such lengths, and all
descriptors have such dimensions: those of the arrays that their variables point to. -/
theorem reflect_arrayLengths (c : Config) :
    (∀ words s, c.source words = .ok s → ∀ id element length stride,
      s.graph.types.get? id = some (.array element length stride) →
      (∀ n, s.specialization.arrayLength s.graph length = .ok n ↔
        s.specialization.HasLength length n) ∧
      ((∀ n, ¬ s.specialization.HasLength length n) →
        (s.graph.IsNumber length → s.specialization.arrayLength s.graph length =
          .error (.corrupted (.arrayLength length))) ∧
        (¬ s.graph.IsNumber length → s.specialization.arrayLength s.graph length =
          .error (.specialization (.arrayLength length))))) ∧
    ∀ r, c.reflect.result = .ok r → ∃ words s, c.words = .ok words ∧ c.source words = .ok s ∧
      (∀ e n stride, .array e n stride ∈ r.types → 0 < n ∧ ∃ id element length stride',
        s.graph.types.get? id = some (.array element length stride') ∧
        s.specialization.HasLength length n ∧ stride = stride'.map UInt32.toNat) ∧
      ∀ x ∈ r.entryPoints, ∀ d ∈ x.descriptors,
        (∀ n ∈ d.dims, 0 < n) ∧ s.HasDims d.id d.dims d.isUnbounded := by
  constructor
  · intro words s hs id element length stride hd
    have hlength := (closed_of_source hs).lengths id element length stride hd
    exact ⟨fun n => Specialization.arrayLength_eq_ok_iff hlength,
      Specialization.arrayLength_eq_error hlength⟩
  · intro r hr
    obtain ⟨s, p, h⟩ := exists_madeOf hr
    obtain ⟨words, hwords, hs⟩ := h.source
    refine ⟨words, s, hwords, hs, fun e n stride he => ?_, fun x hx d hd => ?_⟩
    · obtain ⟨id, element, length, stride', hd, hlength, hstride⟩ := h.forall_types
        (P := fun desc => ∀ e n stride, desc = .array e n stride → ∃ id element length stride',
          s.graph.types.get? id = some (.array element length stride') ∧
          s.specialization.HasLength length n ∧ stride = stride'.map UInt32.toNat)
        (fun a key hk e n stride heq => Source.Admits.array (heq ▸ hk))
        (fun _ _ _ _ _ _ _ heq => by cases heq) _ he e n stride rfl
      exact ⟨hlength.2, id, element, length, stride', hd, hlength, hstride⟩
    · have hdims := h.hasDims hx d hd
      exact ⟨hdims.pos, hdims⟩

/-- The instructions of a binary with a shader that reads a two-dimensional array of storage
buffers. Each of them holds numbers in an array with a length and in one without. -/
def sampleArrayBody : List Instruction := [
  ⟨15, [4, 1, 0x61]⟩,
  ⟨71, [8, 6, 4]⟩, ⟨71, [14, 6, 4]⟩, ⟨71, [13, 33, 1]⟩,
  ⟨72, [9, 0, 35, 0]⟩, ⟨72, [9, 1, 35, 262144]⟩,
  ⟨19, [3]⟩, ⟨33, [4, 3]⟩, ⟨22, [5, 32]⟩, ⟨21, [6, 32, 0]⟩, ⟨43, [6, 7, 65536]⟩, ⟨29, [8, 5]⟩,
  ⟨28, [14, 5, 7]⟩, ⟨30, [9, 14, 8]⟩, ⟨28, [10, 9, 7]⟩, ⟨28, [11, 10, 7]⟩, ⟨32, [12, 12, 11]⟩,
  ⟨59, [12, 13, 12]⟩,
  ⟨54, [3, 1, 0, 4]⟩, ⟨61, [9, 20, 13]⟩, ⟨56, []⟩]

/-- The reflection of the binary with arrays. -/
def sampleArrays : Config where
  binary := some ([magicNumber, 0x10300, 0, 64, 0] ++ sampleArrayBody.flatMap Instruction.words)

set_option maxRecDepth 100000 in
/-- The length of all sized arrays of the binary with arrays is the same constant. -/
theorem sample_reflect_arrayLengths : ∃ r, sampleArrays.reflect.result = .ok r ∧
    .array 0 65536 (some 4) ∈ r.types ∧
    r.entryPoints.map (·.descriptors.map (·.dims)) = [[[65536, 65536]]] ∧
    ∃ words s, sampleArrays.words = .ok words ∧ sampleArrays.source words = .ok s ∧
      (∀ e n stride, .array e n stride ∈ r.types → 0 < n ∧ ∃ id element length stride',
        s.graph.types.get? id = some (.array element length stride') ∧
        s.specialization.HasLength length n ∧ stride = stride'.map UInt32.toNat) ∧
      ∀ x ∈ r.entryPoints, ∀ d ∈ x.descriptors,
        (∀ n ∈ d.dims, 0 < n) ∧ s.HasDims d.id d.dims d.isUnbounded := by
  obtain ⟨r, hr, hlengths⟩ := exists_eq_ok_of_any (x := sampleArrays.reflect.result)
    (p := fun r => .array 0 65536 (some 4) ∈ r.types ∧
      r.entryPoints.map (·.descriptors.map (·.dims)) = [[[65536, 65536]]]) (by decide +kernel)
  obtain ⟨htypes, hdims⟩ := of_decide_eq_true hlengths
  exact ⟨r, hr, htypes, hdims, (reflect_arrayLengths sampleArrays).2 r hr⟩

end Config

end ShaderReflect
