import ShaderReflect.Layout.Arena
import ShaderReflect.Proofs.Declared.TypeOrder
import ShaderReflect.Proofs.Layout.Unfolding

/-!
# Types written out by recursion

`Source.tree` says what a declared type is, by plain recursion over what it is built from: there is
no arena, and a type that occurs twice is written out twice. It fails as the search through an arena
does, at the last operand first.

* `tree_eq`: the recursive equation. It holds because types are in order, so the depth to which
  they are followed does not matter.
* `size_eq_of_ok`: a size that stays below the ceiling is the size of the tree.
-/

namespace ShaderReflect

/-! ## Sizes -/

namespace TypeDesc

variable {τ σ : Type}

theorem structSize_map (f : τ → σ) (ms : List (MemberDesc τ)) :
    structSize (ms.map (·.map f)) = structSize ms := by
  unfold structSize
  have hall : (ms.map (·.map f)).all (·.offset.isSome) = ms.all (·.offset.isSome) := by
    rw [List.all_map]
    rfl
  have hends : (ms.map (·.map f)).mapM memberEnd = ms.mapM memberEnd := by
    rw [List.mapM_map]
    rfl
  have hsizes : (ms.map (·.map f)).map (·.size) = ms.map (·.size) := by
    rw [List.map_map]
    rfl
  rw [hall, hends, hsizes]

/-- The size of a description depends on the sizes of what it refers to. -/
theorem size_map (f : τ → σ) (sizeOf : σ → Option Nat) (desc : TypeDesc τ) :
    (desc.map f).size sizeOf = desc.size (sizeOf ∘ f) := by
  cases desc with
  | struct name ms => exact structSize_map f ms
  | _ => rfl

theorem size_congr {f g : τ → Option Nat} {desc : TypeDesc τ} (h : ∀ i ∈ desc.refs, f i = g i) :
    desc.size f = desc.size g := by
  cases desc <;> simp_all [size, refs]

end TypeDesc

namespace TypeTree

theorem mul?_eq_ok {ceiling b : Nat} {a n : Option Nat}
    (h : Bounded.mul? ceiling a b = .ok n) : n = a.map (· * b) := by
  cases a with
  | none =>
    cases h
    rfl
  | some a =>
    obtain ⟨c, hc, rfl⟩ := map_eq_ok_iff.mp h
    rw [(Bounded.mul_eq_ok_iff.mp hc).2, Option.map_some]

theorem mapM_memberEnd_eq_ok {ms : List (MemberDesc TypeTree)} {ends : List Nat}
    (h : ms.mapM TypeDesc.memberEnd = .ok ends) : ends = ms.map memberEnd := by
  induction ms generalizing ends with
  | nil =>
    cases h
    rfl
  | cons m ms ih =>
    rw [List.mapM_cons, bind_eq_ok_iff] at h
    obtain ⟨n, hn, h⟩ := h
    obtain ⟨ns, hns, h⟩ := bind_eq_ok_iff.mp h
    cases h
    rw [List.map_cons, ih hns, (Bounded.add_eq_ok_iff.mp hn).2]
    rfl

theorem sumSizes_eq_ok {sizes : List (Option Nat)} {total : Nat} {n : Option Nat}
    (h : TypeDesc.sumSizes total sizes = .ok n) :
    n = (sizes.mapM id).map fun ns => total + ns.sum := by
  induction sizes generalizing total with
  | nil =>
    cases h
    simp
  | cons size sizes ih =>
    cases size with
    | none =>
      cases h
      simp
    | some size =>
      obtain ⟨c, hc, h⟩ := bind_eq_ok_iff.mp h
      rw [ih h, (Bounded.add_eq_ok_iff.mp hc).2]
      cases hs : sizes.mapM id with
      | none => simp [hs]
      | some ns => simp [hs, Nat.add_assoc]

theorem structSize_eq_ok {ms : List (MemberDesc TypeTree)} {n : Option Nat}
    (h : TypeDesc.structSize ms = .ok n) : n = structSize? ms := by
  unfold TypeDesc.structSize at h
  unfold structSize?
  split at h
  · rename_i hall
    obtain ⟨ends, hends, h⟩ := bind_eq_ok_iff.mp h
    cases h
    rw [if_pos hall, mapM_memberEnd_eq_ok hends]
  · rename_i hall
    rw [if_neg hall, sumSizes_eq_ok h, List.mapM_map]
    simp

/-- **A size below the ceiling is exact.** -/
theorem size_eq_of_ok {desc : TypeDesc TypeTree} {n : Option Nat}
    (h : desc.size size? = .ok n) : n = (node desc).size? := by
  cases desc with
  | struct name ms =>
    simp only [size?]
    exact structSize_eq_ok h
  | vector e k =>
    simp only [size?]
    exact mul?_eq_ok h
  | matrix c k =>
    simp only [size?]
    exact mul?_eq_ok h
  | array e k stride =>
    simp only [size?]
    exact mul?_eq_ok h
  | _ =>
    cases h
    simp only [size?]

end TypeTree

/-! ## The recursion -/

/-- The size of a member whose type is written out. -/
def TypeTree.memberSize (t : TypeTree) (m : MemberDecl) : Option Nat :=
  match t, m.matrixStride with
  | .node (.matrix column count), some stride =>
    match m.matrixOrder, column with
    | some .rowMajor, .node (.vector _ rows) => some (stride.toNat * rows.toNat)
    | _, _ => some (stride.toNat * count.toNat)
  | _, _ => t.size?

/-- A member with a type that is written out. -/
def TypeTree.member (m : MemberDecl) (t : TypeTree) (name : Option String) :
    MemberDesc TypeTree where
  name := name
  offset := m.offset.map UInt32.toNat
  type := t
  size := t.memberSize m
  matrixStride := m.matrixStride.map UInt32.toNat
  matrixOrder := m.matrixOrder
  access := Access.ofDecorations? m.nonWritable m.nonReadable

namespace Source

/-- A declared type, given its operands written out. -/
def layer (s : Source) (operand : Ident → TypeTree) (id : Ident) :
    TypeDecl → Except Fault (TypeDesc TypeTree)
  | .void => return .void
  | .bool => return .bool
  | .int width signed => return .int width signed
  | .float width => return .float width
  | .vector element count => return .vector (operand element) count
  | .matrix column count => return .matrix (operand column) count
  | .array element length stride => do
    let length ← s.specialization.arrayLength s.graph length
    return .array (operand element) length (stride.map UInt32.toNat)
  | .runtimeArray element stride =>
    return .runtimeArray (operand element) (stride.map UInt32.toNat)
  | .struct name members _ =>
    return .struct name ((members.zip (s.memberNames members)).map fun (m, name) =>
      TypeTree.member m (operand m.type) name)
  | .pointer storage pointee => return .pointer storage (operand pointee)
  | .deviceAddress _ => return .deviceAddress
  | .image unit form => return .image (operand unit) form
  | .sampler => return .sampler
  | .sampledImage image => return .combinedImageSampler (operand image)
  | .accelStruct => return .accelStruct
  | .unreported => throw (.unsupported (.type id))

/-- The tree that a computation ends with. -/
def treeOf (x : Except Stop TypeTree) : TypeTree :=
  match x with
  | .ok t => t
  | .error _ => .dangling 0

/-- A type, given how its operands are written out. -/
def treeFrom (s : Source) (operand : Ident → Except Stop TypeTree) (id : Ident) :
    Except Stop TypeTree := do
  let decl ← s.graph.type id
  decl.operands.reverse.forM fun o => discard (operand o)
  let desc ← s.layer (fun o => treeOf (operand o)) id decl
  let _ ← desc.size TypeTree.size?
  return .node desc

/-- A declared type written out, to a depth. -/
def treeTo (s : Source) : Nat → Ident → Except Stop TypeTree
  | 0, id => throw (.fault (.corrupted (.notMaterialized id)))
  | depth + 1, id => s.treeFrom (s.treeTo depth) id

/-- A declared type written out. -/
def tree (s : Source) (id : Ident) : Except Stop TypeTree := s.treeTo s.graph.typeOrder.length id

/-- The types are in order. -/
def Ordered (s : Source) : Prop := TypeOrder.Orders s.graph.types s.graph.typeOrder

variable {s : Source}

theorem layer_congr {f g : Ident → TypeTree} {id : Ident} {decl : TypeDecl}
    (h : ∀ o ∈ decl.operands, f o = g o) : s.layer f id decl = s.layer g id decl := by
  cases decl with
  | struct name ms b =>
    have hm : ∀ m ∈ ms, f m.type = g m.type := fun m hm =>
      h m.type (List.mem_map_of_mem (f := MemberDecl.type) hm)
    simp only [layer]
    congr 2
    refine List.map_congr_left fun p hp => ?_
    rw [hm p.1 (List.of_mem_zip hp).1]
  | _ => simp_all [layer, TypeDecl.operands]

theorem forM_congr {f g : Ident → Except Stop Unit} {ids : List Ident}
    (h : ∀ id ∈ ids, f id = g id) : ids.forM f = ids.forM g := by
  induction ids with
  | nil => rfl
  | cons id ids ih =>
    show (f id >>= fun _ => ids.forM f) = (g id >>= fun _ => ids.forM g)
    rw [h id List.mem_cons_self, ih fun x hx => h x (List.mem_cons_of_mem id hx)]

/-- Only the operands of a type matter for it. -/
theorem treeFrom_congr {f g : Ident → Except Stop TypeTree} {id : Ident} {decl : TypeDecl}
    (hd : s.graph.types.get? id = some decl) (h : ∀ o ∈ decl.operands, f o = g o) :
    s.treeFrom f id = s.treeFrom g id := by
  have ht : s.graph.type id = .ok decl := by simp only [Graph.type, hd]
  have hm : decl.operands.reverse.forM (fun o => discard (f o)) =
      decl.operands.reverse.forM fun o => discard (g o) :=
    forM_congr fun o ho => by rw [h o (List.mem_reverse.mp ho)]
  have hl : s.layer (fun o => treeOf (f o)) id decl = s.layer (fun o => treeOf (g o)) id decl :=
    layer_congr fun o ho => by rw [h o ho]
  simp only [treeFrom, ht, liftM_fault_ok, ok_bind, hm, hl]

/-- The depth does not matter beyond the number of types that come before. -/
theorem treeTo_eq {ids : List Ident} (ho : TypeOrder.Ordered s.graph.types ids) {id : Ident}
    (hid : id ∈ ids) {d e : Nat} (h : ids.length ≤ d) (h' : ids.length ≤ e) :
    s.treeTo d id = s.treeTo e id := by
  induction ids generalizing id d e with
  | nil => cases hid
  | cons x before ih =>
    obtain ⟨⟨decl, hdecl, hops⟩, hb⟩ := ho
    rw [List.length_cons] at h h'
    rcases List.mem_cons.mp hid with rfl | hid
    · obtain ⟨n, rfl⟩ := Nat.exists_eq_add_of_lt (Nat.lt_of_lt_of_le (Nat.succ_pos _) h)
      obtain ⟨n', rfl⟩ := Nat.exists_eq_add_of_lt (Nat.lt_of_lt_of_le (Nat.succ_pos _) h')
      exact treeFrom_congr hdecl fun o ho => ih hb (hops o ho) (by omega) (by omega)
    · exact ih hb hid (by omega) (by omega)

/-- **The recursive equation of a type written out.** -/
theorem tree_eq (h : s.Ordered) {id : Ident} (hid : id ∈ s.graph.typeOrder) :
    s.tree id = s.treeFrom s.tree id := by
  have hlen : s.graph.typeOrder.reverse.length ≤ s.graph.typeOrder.length := by simp
  exact treeTo_eq (e := s.graph.typeOrder.length + 1) h.ordered (List.mem_reverse.mpr hid) hlen
    (by omega)

end Source

end ShaderReflect
