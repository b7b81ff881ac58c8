import ShaderReflect.Proofs.Layout.Concretization
import ShaderReflect.Proofs.Layout.Names

/-!
# Types without names

Structs and members have names, which may be given or left out without a change to anything else:
types that are written out from the same declarations are the same once their names are erased
(`Source.tree_naming`), or fail to be written out in the same way.

* `TypeTree.fold`: recursion over a type written out.
* `TypeTree.ofDescs_eraseNames`: names can be erased before types are written out, or after that.
* `TypeTree.size?_eraseNames`, `TypeTree.memberSize_eraseNames`: no size depends on a name.
-/

namespace ShaderReflect

/-! ## Recursion over a type written out -/

namespace TypeTree

section

variable {α : Type} (node : TypeDesc α → α) (outside : TypeIdx → α)

mutual

/-- Recursion over a type written out: `node` says what becomes of a type, given what becomes of the
types that it is built from. -/
def fold : TypeTree → α
  | .dangling i => outside i
  | .node desc => node (foldDesc desc)

/-- A description, with what becomes of the types that it is built from. -/
def foldDesc : TypeDesc TypeTree → TypeDesc α
  | .void => .void
  | .bool => .bool
  | .int w s => .int w s
  | .float w => .float w
  | .vector e n => .vector e.fold n
  | .matrix c n => .matrix c.fold n
  | .array e n s => .array e.fold n s
  | .runtimeArray e s => .runtimeArray e.fold s
  | .struct name ms => .struct name (foldMembers ms)
  | .pointer c p => .pointer c p.fold
  | .deviceAddress => .deviceAddress
  | .image u form => .image u.fold form
  | .sampler => .sampler
  | .combinedImageSampler i => .combinedImageSampler i.fold
  | .accelStruct => .accelStruct

/-- Members, with what becomes of their types. -/
def foldMembers : List (MemberDesc TypeTree) → List (MemberDesc α)
  | [] => []
  | m :: ms => foldMember m :: foldMembers ms

/-- A member, with what becomes of its type. -/
def foldMember : MemberDesc TypeTree → MemberDesc α
  | ⟨name, offset, type, size, stride, order, access⟩ =>
    ⟨name, offset, type.fold, size, stride, order, access⟩

end

variable {node outside}

theorem foldMembers_eq_map (ms : List (MemberDesc TypeTree)) :
    foldMembers node outside ms = ms.map (·.map (fold node outside)) := by
  induction ms with
  | nil => rfl
  | cons m ms ih =>
    cases m
    exact congrArg (_ :: ·) ih

/-- **The recursive equation of a fold.** -/
theorem fold_node (desc : TypeDesc TypeTree) :
    fold node outside (.node desc) = node (desc.map (fold node outside)) := by
  refine congrArg node ?_
  cases desc with
  | struct name ms => exact congrArg (TypeDesc.struct name) (foldMembers_eq_map ms)
  | _ => rfl

end

end TypeTree

/-! ## Descriptions without names -/

section

variable {τ σ : Type}

/-- A member without a name. -/
def MemberDesc.eraseName (m : MemberDesc τ) : MemberDesc τ := { m with name := none }

/-- A description without names for a struct and its members. -/
def TypeDesc.eraseNames : TypeDesc τ → TypeDesc τ
  | .struct _ ms => .struct none (ms.map (·.eraseName))
  | desc => desc

namespace TypeDesc

theorem eraseNames_map (f : τ → σ) (desc : TypeDesc τ) :
    (desc.map f).eraseNames = desc.eraseNames.map f := by
  cases desc with
  | struct name ms =>
    simp only [map, eraseNames, List.map_map]
    rfl
  | _ => rfl

theorem structSize_eraseNames (ms : List (MemberDesc τ)) :
    structSize (ms.map (·.eraseName)) = structSize ms := by
  unfold structSize
  rw [List.all_map, List.mapM_map, List.map_map]
  rfl

/-- The size of a type does not depend on names. -/
theorem size_eraseNames (sizeOf : τ → Option Nat) (desc : TypeDesc τ) :
    desc.eraseNames.size sizeOf = desc.size sizeOf := by
  cases desc with
  | struct name ms => exact structSize_eraseNames ms
  | _ => rfl

end TypeDesc

end

/-! ## Types written out without names -/

namespace TypeTree

/-- A type written out, without names for structs and members. -/
def eraseNames : TypeTree → TypeTree := fold (fun desc => .node desc.eraseNames) .dangling

end TypeTree

/-- A member without a name and without names in its type. -/
def MemberDesc.nameless (m : MemberDesc TypeTree) : MemberDesc TypeTree :=
  (m.map TypeTree.eraseNames).eraseName

namespace TypeTree

@[simp] theorem eraseNames_node (desc : TypeDesc TypeTree) :
    (node desc).eraseNames = .node (desc.map eraseNames).eraseNames := fold_node desc

/-- **Names can be erased before types are written out**, or after that. -/
theorem ofDescs_eraseNames (descs : List (TypeDesc TypeIdx)) (i : TypeIdx) :
    ofDescs (descs.map TypeDesc.eraseNames) i = (ofDescs descs i).eraseNames := by
  have hnode : ∀ (desc : TypeDesc TypeIdx) (f : TypeIdx → TypeTree),
      (node (desc.map f)).eraseNames = node (desc.eraseNames.map (eraseNames ∘ f)) := by
    intro desc f
    rw [eraseNames_node, TypeDesc.map_map, TypeDesc.eraseNames_map]
  have houtside : ∀ i, (dangling i).eraseNames = dangling i := fun _ => rfl
  unfold ofDescs
  rw [unfolded_map]
  exact (apply_unfolded hnode houtside descs i).symm

theorem structSize?_nameless (ms : List (MemberDesc TypeTree)) :
    structSize? (ms.map (·.nameless)) = structSize? ms := by
  unfold structSize?
  rw [List.all_map, List.mapM_map, List.map_map]
  rfl

/-- The size of a type does not depend on names. -/
theorem size?_eraseNames : ∀ t : TypeTree, t.eraseNames.size? = t.size?
  | .dangling _ => rfl
  | .node desc => by
    rw [eraseNames_node]
    cases desc with
    | vector e n | matrix e n | array e n stride =>
      have ih := size?_eraseNames e
      simp only [TypeDesc.map, TypeDesc.eraseNames, size?, ih]
    | struct name ms =>
      simp only [TypeDesc.map, TypeDesc.eraseNames, size?, List.map_map]
      exact structSize?_nameless ms
    | _ => simp only [TypeDesc.map, TypeDesc.eraseNames, size?]

/-- Descriptions that are the same without names have the same size. -/
theorem size_eq_of_eraseNames_eq {desc desc' : TypeDesc TypeTree}
    (h : (node desc).eraseNames = (node desc').eraseNames) :
    desc.size size? = desc'.size size? := by
  have hsize : ∀ d : TypeDesc TypeTree,
      (d.map eraseNames).eraseNames.size size? = d.size size? := by
    intro d
    rw [TypeDesc.size_eraseNames, TypeDesc.size_map]
    exact TypeDesc.size_congr fun t _ => size?_eraseNames t
  rw [eraseNames_node, eraseNames_node, node.injEq] at h
  rw [← hsize desc, h, hsize desc']

/-- The size of a member does not depend on names. -/
theorem memberSize_eraseNames (t : TypeTree) (m : MemberDecl) :
    t.eraseNames.memberSize m = t.memberSize m := by
  cases t with
  | dangling i => rfl
  | node desc =>
    have hsize := size?_eraseNames (.node desc)
    rw [eraseNames_node] at hsize ⊢
    cases desc with
    | matrix column count =>
      unfold memberSize
      cases m.matrixStride with
      | none => exact hsize
      | some stride =>
        -- The rows of a matrix are those of its column type, which may be a vector.
        cases column with
        | dangling i => rfl
        | node column =>
          rw [TypeDesc.map, eraseNames_node]
          cases m.matrixOrder with
          | none => rfl
          | some order => cases order <;> cases column <;> rfl
    | _ => exact hsize

/-- Members are the same without names, whatever names they are given. -/
theorem nameless_members (f : Ident → TypeTree) {ms : List MemberDecl}
    {names : List (Option String)} (h : names.length = ms.length) :
    ((ms.zip names).map fun (m, name) => (member m (f m.type) name).nameless) =
      ms.map fun m => member m (f m.type).eraseNames none := by
  have hmember : ∀ p : MemberDecl × Option String,
      (member p.1 (f p.1.type) p.2).nameless = member p.1 (f p.1.type).eraseNames none := by
    intro p
    simp only [member, MemberDesc.nameless, MemberDesc.map, MemberDesc.eraseName,
      memberSize_eraseNames]
  have hfst : (ms.zip names).map Prod.fst = ms := List.map_fst_zip (Nat.le_of_eq h.symm)
  calc ((ms.zip names).map fun p => (member p.1 (f p.1.type) p.2).nameless)
      = (ms.zip names).map ((fun m => member m (f m.type).eraseNames none) ∘ Prod.fst) :=
        List.map_congr_left fun p _ => hmember p
    _ = ms.map fun m => member m (f m.type).eraseNames none := by rw [← List.map_map, hfst]

end TypeTree

/-! ## Declared types written out without names -/

namespace Source

variable {s : Source}

/-- The source, with or without names for what has none. -/
def naming (s : Source) (uniqueNames : Bool) : Source := { s with uniqueNames }

/-- A type, given its operands, is the same without names if its operands are. -/
theorem layer_naming (u : Bool) {f g : Ident → TypeTree}
    (h : ∀ o, (f o).eraseNames = (g o).eraseNames) (id : Ident) (decl : TypeDecl) :
    (TypeTree.eraseNames ∘ .node) <$> (s.naming u).layer f id decl =
      (TypeTree.eraseNames ∘ .node) <$> s.layer g id decl := by
  cases decl with
  | array element length stride =>
    simp only [layer, naming]
    cases s.specialization.arrayLength s.graph length with
    | error e => rfl
    | ok n => simp [TypeDesc.map, h]
  | struct name ms b =>
    have hms := TypeTree.nameless_members f ((s.naming u).length_memberNames ms)
    have hms' := TypeTree.nameless_members g (s.length_memberNames ms)
    simp only [h] at hms
    simp only [layer, pure_eq_ok, map_ok, Function.comp_def, TypeTree.eraseNames_node,
      TypeDesc.map, TypeDesc.eraseNames, List.map_map]
    exact congrArg (fun ms => Except.ok (TypeTree.node (.struct none ms))) (hms.trans hms'.symm)
  | unreported => rfl
  | _ => simp [layer, TypeDesc.map, h]

/-- A type is the same without names if its operands are, and fails alike if they do. -/
theorem treeFrom_naming (u : Bool) {f g : Ident → Except Stop TypeTree}
    (h : ∀ o, TypeTree.eraseNames <$> f o = TypeTree.eraseNames <$> g o) (id : Ident) :
    TypeTree.eraseNames <$> (s.naming u).treeFrom f id =
      TypeTree.eraseNames <$> s.treeFrom g id := by
  -- The operands are looked at in the same order, so the same one stops both.
  have hfail : (fun o => discard (f o)) = fun o => discard (g o) := by
    funext o
    rcases map_eq_map_iff.mp (h o) with ⟨t, t', ht, ht', -⟩ | ⟨e, he, he'⟩
    · rw [ht, ht']
      rfl
    · rw [he, he']
  have htree : ∀ o, (treeOf (f o)).eraseNames = (treeOf (g o)).eraseNames := by
    intro o
    rcases map_eq_map_iff.mp (h o) with ⟨t, t', ht, ht', heq⟩ | ⟨e, he, he'⟩
    · rw [ht, ht']
      exact heq
    · rw [he, he']
  have hlayer : ∀ decl, (TypeTree.eraseNames ∘ .node) <$>
        (liftM ((s.naming u).layer (fun o => treeOf (f o)) id decl) : Except Stop _) =
      (TypeTree.eraseNames ∘ .node) <$>
        (liftM (s.layer (fun o => treeOf (g o)) id decl) : Except Stop _) := by
    intro decl
    rcases map_eq_map_iff.mp (layer_naming u htree id decl) with
      ⟨d, d', hd, hd', heq⟩ | ⟨e, hd, hd'⟩
    · rw [hd, hd']
      exact congrArg Except.ok heq
    · rw [hd, hd']
  unfold treeFrom
  rw [hfail]
  refine map_bind_congr_right _ fun decl => map_bind_congr_right _ fun _ => ?_
  refine map_bind_congr (hlayer decl) fun desc desc' hdesc => ?_
  rw [TypeTree.size_eq_of_eraseNames_eq hdesc]
  exact map_bind_congr_right _ fun _ => congrArg Except.ok hdesc

/-- **A declared type is the same without names**, whether or not names are given to what has
none. The induction is on the depth to which types are followed. -/
theorem tree_naming (u : Bool) (id : Ident) :
    TypeTree.eraseNames <$> (s.naming u).tree id = TypeTree.eraseNames <$> s.tree id := by
  have hdepth : ∀ (d : Nat) (id : Ident), TypeTree.eraseNames <$> (s.naming u).treeTo d id =
      TypeTree.eraseNames <$> s.treeTo d id := by
    intro d
    induction d with
    | zero => exact fun _ => rfl
    | succ d ih => exact treeFrom_naming u ih
  exact hdepth _ id

end Source

end ShaderReflect
