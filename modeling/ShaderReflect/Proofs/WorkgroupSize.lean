import ShaderReflect.Proofs.Interface
import ShaderReflect.Proofs.Mentions

/-!
# Where the size of a workgroup comes from

A workgroup size is read twice: as the size of an entry point, and as the operands of one of its
execution modes. The two readings agree (`Source.modeSize?_of_declaresSize`), and the size is that
of the first declaration (`FirstAt`): of the first constant that is the built-in, whatever the
modes say, or else of the first mode that declares a size and has operands of the kind that goes
with its number.

* `Source.sizeExact_of_workgroupSize`: the size that is found, by precedence.
* `Config.reflect_workgroupSize`: the size that a reflection reports.

Specification, 4.6 (`LocalSize` and `LocalSizeId`, overridden by the built-in). A mode counts if its
number goes with the kind of its operands: a size that is declared by literals under the number for
IDs is passed over. A declaration that is found and does not have three values is a fault, and no
later one is tried in its place.
-/

namespace ShaderReflect

/-! ## The first of a list -/

/-- The item is the first one of a list with a property, and `k` others stand before it. -/
def FirstAt {α : Type} (P : α → Prop) (xs : List α) (k : Nat) (x : α) : Prop :=
  ∃ before after, xs = before ++ x :: after ∧ before.length = k ∧ P x ∧ ∀ y ∈ before, ¬P y

section FirstAt

variable {α β : Type} {P : α → Prop} {xs : List α} {k : Nat} {x : α}

theorem FirstAt.holds (h : FirstAt P xs k x) : x ∈ xs ∧ P x := by
  obtain ⟨before, after, rfl, -, hx, -⟩ := h
  exact ⟨List.mem_append_right _ List.mem_cons_self, hx⟩

theorem FirstAt.getElem?_map (h : FirstAt P xs k x) (f : α → β) :
    (xs.map f)[k]? = some (f x) := by
  obtain ⟨before, after, rfl, rfl, -, -⟩ := h
  simp

theorem find?_eq_some_iff_firstAt {p : α → Bool} (hp : ∀ x, p x = true ↔ P x) :
    xs.find? p = some x ↔ ∃ k, FirstAt P xs k x := by
  rw [List.find?_eq_some_iff_append]
  simp only [hp, Bool.not_eq_true', ← Bool.not_eq_true]
  constructor
  · rintro ⟨hx, before, after, rfl, hbefore⟩
    exact ⟨_, before, after, rfl, rfl, hx, hbefore⟩
  · rintro ⟨k, before, after, rfl, -, hx, hbefore⟩
    exact ⟨hx, before, after, rfl, hbefore⟩

theorem findSome?_eq_some_iff_firstAt {f : α → Option β} {b : β}
    (hf : ∀ x, f x = none ↔ ¬P x) :
    xs.findSome? f = some b ↔ ∃ k x, FirstAt P xs k x ∧ f x = some b := by
  rw [List.findSome?_eq_some_iff]
  simp only [hf]
  constructor
  · rintro ⟨before, x, after, rfl, hx, hbefore⟩
    have hP : P x := Classical.not_not.mp fun hP => by simp [(hf x).mpr hP] at hx
    exact ⟨_, x, ⟨before, after, rfl, rfl, hP, hbefore⟩, hx⟩
  · rintro ⟨k, x, ⟨before, after, rfl, -, -, hbefore⟩, hx⟩
    exact ⟨before, x, after, rfl, hx, hbefore⟩

end FirstAt

/-! ## What has a size -/

/-- The constant is decorated as the built-in workgroup size. -/
def Graph.IsWorkgroupSize (g : Graph) (id : Ident) : Prop :=
  ∃ rest, g.annotations.decoration? id none Decoration.builtIn = some (workgroupSizeBuiltIn :: rest)

/-- The execution mode declares a workgroup size, by literals or by constants. -/
inductive ModeDecl.DeclaresSize : ModeDecl → Prop
  | literals (ws : List Word) : DeclaresSize { mode := localSizeMode, params := .literals ws }
  | idents (ids : List Ident) : DeclaresSize { mode := localSizeIdMode, params := .idents ids }

/-- Three scalars are natural numbers, and the size consists of them. -/
def WorkgroupSize.Reads (size : WorkgroupSize) (x y z : Scalar) : Prop :=
  x.natural? = some size.x ∧ y.natural? = some size.y ∧ z.natural? = some size.z

/-- The value is a composite of three scalars that the size consists of. -/
def Value.HasSize (v : Value) (size : WorkgroupSize) : Prop :=
  ∃ x y z, v = .composite [.scalar x, .scalar y, .scalar z] ∧ size.Reads x y z

/-- The mode has three operands, with values that the size consists of. -/
def Mode.HasSize (m : Mode) (size : WorkgroupSize) : Prop :=
  ∃ x y z, m.operands.map (·.value) = [some x, some y, some z] ∧ size.Reads x y z

/-- Three numbers are read off three scalars. -/
theorem map_natural?_eq_iff {values : List (Option Scalar)} {size : WorkgroupSize} :
    values.map (·.bind Scalar.natural?) = [some size.x, some size.y, some size.z] ↔
      ∃ x y z, values = [some x, some y, some z] ∧ size.Reads x y z := by
  constructor
  · intro h
    obtain ⟨x, values, rfl, hx, h⟩ := List.map_eq_cons_iff.mp h
    obtain ⟨y, values, rfl, hy, h⟩ := List.map_eq_cons_iff.mp h
    obtain ⟨z, values, rfl, hz, h⟩ := List.map_eq_cons_iff.mp h
    obtain rfl := List.map_eq_nil_iff.mp h
    obtain ⟨x, rfl, hx⟩ := Option.bind_eq_some_iff.mp hx
    obtain ⟨y, rfl, hy⟩ := Option.bind_eq_some_iff.mp hy
    obtain ⟨z, rfl, hz⟩ := Option.bind_eq_some_iff.mp hz
    exact ⟨x, y, z, rfl, hx, hy, hz⟩
  · rintro ⟨x, y, z, rfl, hx, hy, hz⟩
    simp [hx, hy, hz]

namespace Source

variable {s : Source} {e : EntryPointDecl} {m : ModeDecl} {id : Ident} {size : WorkgroupSize}
  {source : SizeSource} {name : String} {ws : List (Option Word)}

theorem sizeOfWords_eq_ok_iff :
    sizeOfWords source name ws = .ok size ↔ ws = [some size.x, some size.y, some size.z] := by
  unfold sizeOfWords
  constructor
  · intro h
    split at h
    · cases h
      rfl
    · cases h
  · rintro rfl
    rfl

/-! ## Constants -/

theorem workgroupSizeConstant?_eq_some_iff {g : Graph} :
    workgroupSizeConstant? g = some id ↔ ∃ k, FirstAt g.IsWorkgroupSize g.constants.keys k id := by
  refine find?_eq_some_iff_firstAt fun x => ?_
  rw [decide_eq_true_eq, Annotations.decorationWord?_eq_some_iff]
  rfl

theorem workgroupSizeConstant?_eq_none_iff {g : Graph} :
    workgroupSizeConstant? g = none ↔ ∀ id ∈ g.constants.keys, ¬g.IsWorkgroupSize id := by
  unfold workgroupSizeConstant?
  rw [List.find?_eq_none]
  simp only [decide_eq_true_eq, Annotations.decorationWord?_eq_some_iff]
  rfl

/-- The numbers of the built-in are those of its value. -/
theorem naturalParts_eq_iff :
    s.naturalParts id = [some size.x, some size.y, some size.z] ↔
      ∃ v, s.specialization.value? id = some v ∧ v.HasSize size := by
  have hscalar : ∀ (v : Value) (x : Scalar), v.scalar? = some x ↔ v = .scalar x := by
    intro v x
    cases v <;> simp [Value.scalar?]
  unfold naturalParts Value.HasSize
  split
  · rename_i parts hvalue
    have hparts : (parts.map fun v => v.scalar?.bind Scalar.natural?) =
        (parts.map Value.scalar?).map (·.bind Scalar.natural?) := by simp
    rw [hparts, map_natural?_eq_iff, hvalue]
    simp only [Option.some.injEq, exists_eq_left', Value.composite.injEq]
    refine exists_congr fun x => exists_congr fun y => exists_congr fun z => and_congr_left' ?_
    simp [List.map_eq_cons_iff, hscalar]
  · rename_i hvalue
    constructor
    · intro h
      cases h
    · rintro ⟨v, hv, x, y, z, rfl, -⟩
      exact absurd hv (hvalue _)

/-! ## Execution modes -/

/-- A literal is a natural number. -/
theorem natural?_literal (w : Word) :
    (Scalar.int 32 false (BitVec.ofNat 64 w.toNat)).natural? = some w := by
  have hw : w.toNat < 0x100000000 := w.toNat_lt
  have hbits : (BitVec.ofNat 64 w.toNat).toNat = w.toNat := by
    rw [BitVec.toNat_ofNat, Nat.mod_eq_of_lt (by omega)]
  simp [Scalar.natural?, hbits, hw]

/-- **Both readings of a mode that declares a size agree.** -/
theorem modeSize?_of_declaresSize (h : m.DeclaresSize) :
    s.modeSize? m = some (((s.mode m).operands.map (·.value)).map (·.bind Scalar.natural?)) := by
  cases h with
  | literals ws => simp [modeSize?, mode, natural?_literal]
  | idents ids => simp [modeSize?, mode]

theorem modeSize?_eq_none_iff : s.modeSize? m = none ↔ ¬m.DeclaresSize := by
  constructor
  · intro h hm
    rw [modeSize?_of_declaresSize hm] at h
    cases h
  · intro h
    obtain ⟨number, params⟩ := m
    cases params with
    | literals ws =>
      refine if_neg ?_
      rintro rfl
      exact h (.literals ws)
    | idents ids =>
      refine if_neg ?_
      rintro rfl
      exact h (.idents ids)

end Source

/-! ## The size of an entry point -/

/-- The size of an entry point is that of its declarations: none without workgroups, else that of
the first constant that is the built-in, whatever the modes, else that of the first mode that
declares one, as it is reported among the modes. -/
structure EntryPoint.SizeExact {τ : Type} (s : Source) (decls : List ModeDecl) (x : EntryPoint τ) :
    Prop where
  undispatched : x.model.hasWorkgroups = false → x.workgroupSize = none
  builtIn : x.model.hasWorkgroups = true → ∀ k id,
    FirstAt s.graph.IsWorkgroupSize s.graph.constants.keys k id →
    ∃ size v, x.workgroupSize = some size ∧ s.specialization.value? id = some v ∧ v.HasSize size
  declared : x.model.hasWorkgroups = true →
    (∀ id ∈ s.graph.constants.keys, ¬s.graph.IsWorkgroupSize id) → ∀ size,
    x.workgroupSize = some size ↔ ∃ k decl m, FirstAt ModeDecl.DeclaresSize decls k decl ∧
      x.modes[k]? = some m ∧ m.HasSize size
  undeclared : x.model.hasWorkgroups = true →
    (∀ id ∈ s.graph.constants.keys, ¬s.graph.IsWorkgroupSize id) →
    (x.workgroupSize = none ↔ ∀ decl ∈ decls, ¬decl.DeclaresSize)

namespace Source

variable {s : Source} {e : EntryPointDecl} {id : Ident} {size? : Option WorkgroupSize}

theorem workgroupSize_builtIn (hmodel : e.model.hasWorkgroups = true)
    (hid : workgroupSizeConstant? s.graph = some id) :
    s.workgroupSize e = some <$> sizeOfWords .builtIn e.name (s.naturalParts id) := by
  rw [workgroupSize, hmodel, hid]
  rfl

/-- A size that is found among the modes is that of the first one that declares a size. -/
theorem findSome?_modeSize?_eq_some_iff {decls : List ModeDecl} {ws : List (Option Word)} :
    decls.findSome? s.modeSize? = some ws ↔ ∃ k decl, FirstAt ModeDecl.DeclaresSize decls k decl ∧
      ((s.mode decl).operands.map (·.value)).map (·.bind Scalar.natural?) = ws := by
  rw [findSome?_eq_some_iff_firstAt fun _ => modeSize?_eq_none_iff]
  refine exists_congr fun k => exists_congr fun decl => and_congr_right fun hfirst => ?_
  rw [modeSize?_of_declaresSize hfirst.holds.2, Option.some.injEq]

/-- Without the built-in, the first mode that declares a size has the size that is found. -/
theorem workgroupSize_eq_ok_iff (hmodel : e.model.hasWorkgroups = true)
    (hnone : workgroupSizeConstant? s.graph = none) : s.workgroupSize e = .ok size? ↔
      (∃ k decl size,
        FirstAt ModeDecl.DeclaresSize (s.graph.annotations.modesOf e.function) k decl ∧
          (s.mode decl).HasSize size ∧ size? = some size) ∨
      (∀ decl ∈ s.graph.annotations.modesOf e.function, ¬decl.DeclaresSize) ∧ size? = none := by
  have hsize : ∀ decl size, (s.mode decl).HasSize size ↔
      ((s.mode decl).operands.map (·.value)).map (·.bind Scalar.natural?) =
        [some size.x, some size.y, some size.z] := fun _ _ => map_natural?_eq_iff.symm
  unfold workgroupSize
  rw [hmodel, hnone, if_neg (by decide)]
  cases hfound : (s.graph.annotations.modesOf e.function).findSome? s.modeSize? with
  | some ws =>
    obtain ⟨k, decl, hfirst, hws⟩ := findSome?_modeSize?_eq_some_iff.mp hfound
    simp only [map_eq_ok_iff, sizeOfWords_eq_ok_iff, hsize]
    constructor
    · rintro ⟨size, rfl, heq⟩
      exact .inl ⟨k, decl, size, hfirst, hws, heq.symm⟩
    · rintro (⟨k', decl', size, hfirst', hwords, rfl⟩ | ⟨hall, -⟩)
      · have hfound' := findSome?_modeSize?_eq_some_iff.mpr ⟨k', decl', hfirst', hwords⟩
        rw [hfound] at hfound'
        exact ⟨size, Option.some.inj hfound', rfl⟩
      · exact absurd hfirst.holds.2 (hall decl hfirst.holds.1)
  | none =>
    have hall := List.findSome?_eq_none_iff.mp hfound
    simp only [modeSize?_eq_none_iff] at hall
    constructor
    · intro h
      cases h
      exact .inr ⟨hall, rfl⟩
    · rintro (⟨k, decl, size, hfirst, -, -⟩ | ⟨-, rfl⟩)
      · exact absurd hfirst.holds.2 (hall decl hfirst.holds.1)
      · rfl

/-- **The size that is found is exact.** -/
theorem sizeExact_of_workgroupSize {τ : Type} {x : EntryPoint τ} (hmodel : x.model = e.model)
    (hmodes : x.modes = (s.graph.annotations.modesOf e.function).map s.mode)
    (h : s.workgroupSize e = .ok x.workgroupSize) :
    x.SizeExact s (s.graph.annotations.modesOf e.function) where
  undispatched := by
    intro hgroups
    rw [workgroupSize, ← hmodel, hgroups, if_pos (by decide)] at h
    exact (Except.ok.inj h).symm
  builtIn := by
    intro hgroups k id hfirst
    rw [hmodel] at hgroups
    rw [workgroupSize_builtIn hgroups (workgroupSizeConstant?_eq_some_iff.mpr ⟨k, hfirst⟩)] at h
    obtain ⟨size, hsize, heq⟩ := map_eq_ok_iff.mp h
    obtain ⟨v, hv, hreads⟩ := naturalParts_eq_iff.mp (sizeOfWords_eq_ok_iff.mp hsize)
    exact ⟨size, v, heq.symm, hv, hreads⟩
  declared := by
    intro hgroups hnone size
    rw [hmodel] at hgroups
    have hnone := workgroupSizeConstant?_eq_none_iff.mpr hnone
    constructor
    · intro hsome
      rw [hsome] at h
      rcases (workgroupSize_eq_ok_iff hgroups hnone).mp h with
        ⟨k, decl, _, hfirst, hsize, heq⟩ | ⟨-, heq⟩
      · cases heq
        exact ⟨k, decl, s.mode decl, hfirst, by rw [hmodes, hfirst.getElem?_map], hsize⟩
      · cases heq
    · rintro ⟨k, decl, m, hfirst, hm, hsize⟩
      rw [hmodes, hfirst.getElem?_map, Option.some.injEq] at hm
      subst hm
      have h' := (workgroupSize_eq_ok_iff hgroups hnone).mpr
        (.inl ⟨k, decl, size, hfirst, hsize, rfl⟩)
      exact Except.ok.inj (h.symm.trans h')
  undeclared := by
    intro hgroups hnone
    rw [hmodel] at hgroups
    have hnone := workgroupSizeConstant?_eq_none_iff.mpr hnone
    constructor
    · intro hnothing
      rw [hnothing] at h
      rcases (workgroupSize_eq_ok_iff hgroups hnone).mp h with ⟨_, _, _, _, _, heq⟩ | ⟨hall, -⟩
      · cases heq
      · exact hall
    · intro hall
      have h' := (workgroupSize_eq_ok_iff hgroups hnone).mpr (.inr ⟨hall, rfl⟩)
      exact Except.ok.inj (h.symm.trans h')

/-- What is said of an entry point with its size. -/
theorem workgroupSize_assembleTree {reach : Reach} {pairing : Pairing} {x : EntryPoint TypeTree}
    (h : s.assembleTree e reach pairing = .ok x) :
    x.model = e.model ∧ s.workgroupSize e = .ok x.workgroupSize := by
  obtain ⟨resources, -, h⟩ := bind_eq_ok_iff.mp h
  obtain ⟨interface, -, h⟩ := bind_eq_ok_iff.mp h
  obtain ⟨constants, -, h⟩ := bind_eq_ok_iff.mp h
  obtain ⟨size, hsize, h⟩ := bind_eq_ok_iff.mp h
  rw [liftM_fault_eq_ok_iff] at hsize
  cases h
  split <;> exact ⟨rfl, hsize⟩

end Source

namespace Config

open ShaderReflect.Graph

variable {c : Config}

/-- **The workgroup size of a reported entry point is that of its declarations.** It is absent
unless the stage is dispatched in workgroups. If a constant is the built-in, the size consists of
the three natural scalars that the first such constant is evaluated to. Otherwise it is present
exactly if the function of the entry point has a mode that declares a size, and the first one is
reported with three operands whose values the size consists of. -/
theorem reflect_workgroupSize {r : Reflection} (h : c.reflect.result = .ok r) :
    ∃ words s, c.words = .ok words ∧ c.source words = .ok s ∧ ∀ x ∈ r.entryPoints,
      x.modes.length = (modesIn r.header.bound words x.function).length ∧
      x.SizeExact s (modesIn r.header.bound words x.function) := by
  obtain ⟨s, p, hr⟩ := exists_madeOf h
  obtain ⟨words, hwords, hs⟩ := hr.source
  have hgraph : ofWords words = .ok s.graph := ofWords_of_source hs
  have hheader : r.header = s.graph.header := by rw [hr.result]
  refine ⟨words, s, hwords, hs, fun x hx => ?_⟩
  obtain ⟨e, -, reach, pairing, htree⟩ := hr.exists_assembleTree hx
  obtain ⟨hfunction, hmodes⟩ := Source.function_and_modes_assembleTree htree
  obtain ⟨hmodel, hsize⟩ := Source.workgroupSize_assembleTree htree
  have hfunction : x.function = e.function := hfunction
  have hmodes : x.modes = (s.graph.annotations.modesOf e.function).map s.mode := hmodes
  have hexact : x.SizeExact s (s.graph.annotations.modesOf e.function) :=
    Source.sizeExact_of_workgroupSize hmodel hmodes hsize
  rw [hheader, hfunction, ← modesOf_eq hgraph]
  exact ⟨by rw [hmodes, List.length_map], hexact⟩

/-- The instructions of a binary with a compute shader and a fragment shader. The first two modes of
the compute shader have operands of a kind that does not go with their numbers, and the last two
declare sizes. The composite 8 is the built-in workgroup size if a decoration is given that says
so. -/
def sizeBody (decorations : List Instruction) : List Instruction :=
  [⟨15, [5, 3, 0x6d]⟩, ⟨15, [4, 9, 0x66]⟩, ⟨331, [3, 17, 6, 6, 6]⟩, ⟨16, [3, 38, 7, 7, 7]⟩,
    ⟨331, [3, 38, 5, 6, 6]⟩, ⟨16, [3, 17, 4, 4, 4]⟩, ⟨71, [5, 1, 0]⟩] ++ decorations ++
  [⟨19, [1]⟩, ⟨33, [2, 1]⟩, ⟨21, [4, 32, 0]⟩, ⟨23, [7, 4, 3]⟩, ⟨50, [4, 5, 16]⟩, ⟨43, [4, 6, 1]⟩,
    ⟨51, [7, 8, 6, 5, 6]⟩, ⟨54, [1, 3, 0, 2]⟩, ⟨56, []⟩, ⟨54, [1, 9, 0, 2]⟩, ⟨56, []⟩]

/-- The reflection of such a binary. -/
def sizeConfig (decorations : List Instruction) (overrides : List Override) : Config where
  binary := some ([magicNumber, 0x10300, 0, 10, 0] ++
    (sizeBody decorations).flatMap Instruction.words)
  overrides

set_option maxRecDepth 100000 in
/-- Without the built-in, the size of the compute shader is that of its third mode, with the
constant that is overridden. With it, the size is that of the composite. -/
theorem sample_reflect_workgroupSize : ∃ r r',
    (sizeConfig [] [⟨0, [2, 0, 0, 0]⟩]).reflect.result = .ok r ∧
    r.entryPoints.map (·.workgroupSize) = [some ⟨2, 1, 1⟩, none] ∧
    (sizeConfig [⟨71, [8, 11, 25]⟩] []).reflect.result = .ok r' ∧
    r'.entryPoints.map (·.workgroupSize) = [some ⟨1, 16, 1⟩, none] ∧
    (∃ words s, (sizeConfig [] [⟨0, [2, 0, 0, 0]⟩]).source words = .ok s ∧
      ∀ x ∈ r.entryPoints, x.SizeExact s (modesIn r.header.bound words x.function)) ∧
    ∃ words s, (sizeConfig [⟨71, [8, 11, 25]⟩] []).source words = .ok s ∧
      ∀ x ∈ r'.entryPoints, x.SizeExact s (modesIn r'.header.bound words x.function) := by
  obtain ⟨r, hr, hsizes⟩ := exists_eq_ok_of_any
    (x := (sizeConfig [] [⟨0, [2, 0, 0, 0]⟩]).reflect.result)
    (p := fun r => r.entryPoints.map (·.workgroupSize) = [some ⟨2, 1, 1⟩, none])
    (by decide +kernel)
  obtain ⟨r', hr', hsizes'⟩ := exists_eq_ok_of_any
    (x := (sizeConfig [⟨71, [8, 11, 25]⟩] []).reflect.result)
    (p := fun r => r.entryPoints.map (·.workgroupSize) = [some ⟨1, 16, 1⟩, none])
    (by decide +kernel)
  obtain ⟨words, s, -, hs, hexact⟩ := reflect_workgroupSize hr
  obtain ⟨words', s', -, hs', hexact'⟩ := reflect_workgroupSize hr'
  exact ⟨r, r', hr, of_decide_eq_true hsizes, hr', of_decide_eq_true hsizes',
    ⟨words, s, hs, fun x hx => (hexact x hx).2⟩, words', s', hs', fun x hx => (hexact' x hx).2⟩

end Config

end ShaderReflect
