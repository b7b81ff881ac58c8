import ShaderReflect.Proofs.Declared.Cycles
import ShaderReflect.Proofs.Layout.Materialization

/-!
# Sizes of declared types

A declared type has a size in natural numbers, by recursion over the types that it is built from
(`Source.sizeOf`). There is no arena and no ceiling, so nothing is cut and nothing overflows.

A type *fits* if all numbers that are computed on the way to its size, and to those of the types
that it is built from, are below the ceiling (`Source.Fits`).

Results:
* `Source.sizeOf_eq`: the recursive equation. It holds because types are in order.
* `Source.size?_of_tree`, `Source.memberSize_of_tree`: a type that is written out has the size of
  the declared type, and so have its members.
* `Source.fits_of_tree`, `Source.tree_ne_overflow`: what can be written out fits, and what fits does
  not overflow.

The equations are those of the specification (3 and 4.6) in natural numbers: widths in whole bytes,
a stride in place of the size of an element, the furthest end of a member, or the sum of all sizes.
-/

namespace ShaderReflect

/-! ## Members of a struct -/

/-- Where a member lies in a struct: its offset if it has one, and its size if that is known. -/
structure Slot where
  offset : Option Nat
  size : Option Nat
deriving DecidableEq, Repr

namespace Slot

/-- The end of a member; one without a size ends where it starts. -/
def stop (x : Slot) : Nat := x.offset.getD 0 + x.size.getD 0

/-- The size of a struct: the end of the furthest member if all have offsets, else the sum of the
sizes of all members. -/
def structSize? (xs : List Slot) : Option Nat :=
  if xs.all (·.offset.isSome) then some ((xs.map stop).foldl max 0)
  else (xs.mapM Slot.size).map List.sum

/-- The sums of sizes from the left, up to the first one that is absent. -/
def sums : Nat → List (Option Nat) → List Nat
  | total, some n :: rest => (total + n) :: sums (total + n) rest
  | _, _ => []

/-- The numbers on the way to the size of a struct: the ends of all members, or the sums of their
sizes from the left. -/
def numbers (xs : List Slot) : List Nat :=
  if xs.all (·.offset.isSome) then xs.map stop else sums 0 (xs.map Slot.size)

end Slot

section

variable {τ : Type}

/-- Where a described member lies. -/
def MemberDesc.slot (m : MemberDesc τ) : Slot := ⟨m.offset, m.size⟩

theorem TypeTree.structSize?_eq (ms : List (MemberDesc TypeTree)) :
    structSize? ms = Slot.structSize? (ms.map MemberDesc.slot) := by
  unfold structSize? Slot.structSize?
  rw [List.all_map, List.map_map, List.mapM_map]
  rfl

namespace TypeDesc

theorem exists_memberEnd_iff (m : MemberDesc τ) :
    (∃ n, memberEnd m = .ok n) ↔ m.slot.stop < Bounded.sizeCeiling := by
  simp only [memberEnd, Bounded.add_eq_ok_iff]
  exact ⟨fun ⟨_, hlt, _⟩ => hlt, fun hlt => ⟨_, hlt, rfl⟩⟩

theorem exists_sumSizes_iff (total : Nat) (sizes : List (Option Nat)) :
    (∃ n, sumSizes total sizes = .ok n) ↔
      ∀ n ∈ Slot.sums total sizes, n < Bounded.sizeCeiling := by
  induction sizes generalizing total with
  | nil => exact iff_of_true ⟨_, rfl⟩ fun _ hn => absurd hn List.not_mem_nil
  | cons size sizes ih =>
    cases size with
    | none => exact iff_of_true ⟨_, rfl⟩ fun _ hn => absurd hn List.not_mem_nil
    | some size =>
      rw [Slot.sums, List.forall_mem_cons, ← ih]
      simp only [sumSizes, bind_eq_ok_iff, Bounded.add_eq_ok_iff]
      exact ⟨fun ⟨n, _, ⟨hlt, rfl⟩, h⟩ => ⟨hlt, n, h⟩, fun ⟨hlt, n, h⟩ => ⟨n, _, ⟨hlt, rfl⟩, h⟩⟩

/-- **The size of a struct is computed** exactly if all numbers on the way to it are below the
ceiling. -/
theorem exists_structSize_iff (ms : List (MemberDesc τ)) :
    (∃ n, structSize ms = .ok n) ↔
      ∀ n ∈ Slot.numbers (ms.map MemberDesc.slot), n < Bounded.sizeCeiling := by
  have hall : (ms.map MemberDesc.slot).all (·.offset.isSome) = ms.all (·.offset.isSome) := by
    rw [List.all_map]
    rfl
  unfold structSize Slot.numbers
  rw [hall]
  split
  · have hends : (∃ ends, ms.mapM memberEnd = .ok ends) ↔ _ := exists_mapM_eq_ok_iff
    simp only [exists_memberEnd_iff] at hends
    rw [List.map_map, List.forall_mem_map]
    refine Iff.trans ?_ hends
    simp only [bind_eq_ok_iff]
    exact ⟨fun ⟨_, ends, h, _⟩ => ⟨ends, h⟩, fun ⟨ends, h⟩ => ⟨_, ends, h, rfl⟩⟩
  · rw [List.map_map]
    exact exists_sumSizes_iff 0 _

theorem exists_mul?_iff (size : Option Nat) (count : Nat) :
    (∃ n, Bounded.mul? Bounded.sizeCeiling size count = .ok n) ↔
      ∀ n ∈ (size.map (· * count)).toList, n < Bounded.sizeCeiling := by
  cases size with
  | none => exact iff_of_true ⟨_, rfl⟩ fun _ hn => absurd hn List.not_mem_nil
  | some size =>
    simp only [Bounded.mul?, map_eq_ok_iff, Bounded.mul_eq_ok_iff, Option.map_some,
      Option.toList_some, List.forall_mem_singleton]
    exact ⟨fun ⟨_, _, ⟨hlt, _⟩, _⟩ => hlt, fun hlt => ⟨_, _, ⟨hlt, rfl⟩, rfl⟩⟩

end TypeDesc

end

namespace Source

variable (s : Source) (size : Ident → Option Nat)

/-! ## The equations -/

/-- The size of a declared member, given those of the types. A matrix with a stride takes as many
strides as it has rows or columns, whichever lie next to each other. -/
def declaredMemberSize (m : MemberDecl) : Option Nat :=
  match s.graph.types.get? m.type, m.matrixStride with
  | some (.matrix column count), some stride =>
    match m.matrixOrder, s.graph.types.get? column with
    | some .rowMajor, some (.vector _ rows) => some (stride.toNat * rows.toNat)
    | _, _ => some (stride.toNat * count.toNat)
  | _, _ => size m.type

/-- Where a declared member lies. -/
def declaredSlot (m : MemberDecl) : Slot :=
  ⟨m.offset.map UInt32.toNat, s.declaredMemberSize size m⟩

/-- The size of an array, given its length: that of the elements, or the distance from one to the
next if that is declared, as many times. -/
def arraySize (element length : Ident) (stride : Option Word) : Option Nat :=
  match s.specialization.arrayLength s.graph length with
  | .ok n => ((stride.map UInt32.toNat).or (size element)).map (· * n.toNat)
  | .error _ => none

/-- The size of a declared type, given those of the types that it is built from. -/
def sizeLayer : TypeDecl → Option Nat
  | .bool => some 4
  | .int width _ | .float width => some (TypeDecl.bytesOfBits width)
  | .vector element count | .matrix element count => (size element).map (· * count.toNat)
  | .array element length stride => s.arraySize size element length stride
  | .struct _ members _ => Slot.structSize? (members.map (s.declaredSlot size))
  | .deviceAddress _ => some 8
  | _ => none

/-- The numbers on the way to the size of a declared type: products, ends of members, and sums from
the left. The product of a matrix stride is left out, as it is one of two numbers of 32 bits. -/
def numbers : TypeDecl → List Nat
  | .vector element count | .matrix element count =>
    ((size element).map (· * count.toNat)).toList
  | .array element length stride => (s.arraySize size element length stride).toList
  | .struct _ members _ => Slot.numbers (members.map (s.declaredSlot size))
  | _ => []

/-- The size of a declared type, to a depth. -/
def sizeTo : Nat → Ident → Option Nat
  | 0, _ => none
  | depth + 1, id => (s.graph.types.get? id).bind (s.sizeLayer (sizeTo depth))

/-- The size of a declared type in bytes, absent if it has none. -/
def sizeOf (id : Ident) : Option Nat := s.sizeTo s.graph.typeOrder.length id

variable {s} {id : Ident} {decl : TypeDecl}

theorem declaredMemberSize_congr {f g : Ident → Option Nat} {m : MemberDecl}
    (h : f m.type = g m.type) : s.declaredMemberSize f m = s.declaredMemberSize g m := by
  unfold declaredMemberSize
  rw [h]

/-- Only the operands of a type matter for its size. -/
theorem sizeLayer_congr {f g : Ident → Option Nat} (h : ∀ o ∈ decl.operands, f o = g o) :
    s.sizeLayer f decl = s.sizeLayer g decl := by
  cases decl with
  | struct name ms b =>
    have hslot : ∀ m ∈ ms, s.declaredSlot f m = s.declaredSlot g m := fun m hm =>
      congrArg (Slot.mk _) (declaredMemberSize_congr
        (h m.type (List.mem_map_of_mem (f := MemberDecl.type) hm)))
    rw [sizeLayer, sizeLayer, List.map_congr_left hslot]
  | vector e n | matrix e n => rw [sizeLayer, sizeLayer, h e List.mem_cons_self]
  | array e length stride =>
    rw [sizeLayer, sizeLayer, arraySize, arraySize, h e List.mem_cons_self]
  | _ => rfl

/-- The depth does not matter beyond the number of types that come before. -/
theorem sizeTo_eq {ids : List Ident} (ho : TypeOrder.Ordered s.graph.types ids) {id : Ident}
    (hid : id ∈ ids) {d e : Nat} (h : ids.length ≤ d) (h' : ids.length ≤ e) :
    s.sizeTo d id = s.sizeTo e id := by
  induction ids generalizing id d e with
  | nil => cases hid
  | cons x before ih =>
    obtain ⟨⟨decl, hdecl, hops⟩, hb⟩ := ho
    rw [List.length_cons] at h h'
    rcases List.mem_cons.mp hid with rfl | hid
    · obtain ⟨n, rfl⟩ := Nat.exists_eq_add_of_lt (Nat.lt_of_lt_of_le (Nat.succ_pos _) h)
      obtain ⟨n', rfl⟩ := Nat.exists_eq_add_of_lt (Nat.lt_of_lt_of_le (Nat.succ_pos _) h')
      unfold sizeTo
      rw [hdecl, Option.bind_some, Option.bind_some]
      exact sizeLayer_congr fun o ho => ih hb (hops o ho) (by omega) (by omega)
    · exact ih hb hid (by omega) (by omega)

theorem Ordered.mem_typeOrder (h : s.Ordered) (hd : s.graph.types.get? id = some decl) :
    id ∈ s.graph.typeOrder :=
  h.all id (Table.mem_keys_of_get? hd)

/-- **The recursive equation of the size of a type.** -/
theorem sizeOf_eq (h : s.Ordered) (id : Ident) :
    s.sizeOf id = (s.graph.types.get? id).bind (s.sizeLayer s.sizeOf) := by
  cases hd : s.graph.types.get? id with
  | none =>
    unfold sizeOf
    cases s.graph.typeOrder.length with
    | zero => rfl
    | succ n =>
      rw [sizeTo, hd]
      rfl
  | some decl =>
    have hlen : s.graph.typeOrder.reverse.length ≤ s.graph.typeOrder.length := by simp
    have hstep := sizeTo_eq h.ordered (List.mem_reverse.mpr (h.mem_typeOrder hd)) hlen
      (Nat.le_succ_of_le hlen)
    rw [sizeOf, hstep, sizeTo, hd]
    rfl

/-! ## Types written out -/

theorem exists_of_discard {x : Except Stop TypeTree} {u : Unit} (h : discard x = .ok u) :
    ∃ t, x = .ok t := by
  cases x with
  | ok t => exact ⟨t, rfl⟩
  | error e => cases h

theorem eq_error_of_discard {x : Except Stop TypeTree} {e : Stop} (h : discard x = .error e) :
    x = .error e := by
  cases x with
  | ok t => cases h
  | error e' =>
    cases h
    rfl

theorem tree_of_undeclared (h : s.graph.types.get? id = none) :
    ∃ e, s.tree id = .error (.fault e) := by
  unfold tree
  cases s.graph.typeOrder.length with
  | zero => exact ⟨_, rfl⟩
  | succ n => exact ⟨.corrupted (.typeUndeclared id), by simp [treeTo, treeFrom, Graph.type, h]⟩

/-- What a type that is written out is made of. -/
theorem tree_eq_ok (hs : s.Ordered) {t : TypeTree} (h : s.tree id = .ok t) :
    ∃ decl desc, s.graph.types.get? id = some decl ∧
      (∀ o ∈ decl.operands, ∃ u, s.tree o = .ok u) ∧
      s.layer (fun o => treeOf (s.tree o)) id decl = .ok desc ∧
      (∃ n, desc.size TypeTree.size? = .ok n) ∧ t = .node desc := by
  cases hd : s.graph.types.get? id with
  | none =>
    obtain ⟨e, he⟩ := tree_of_undeclared hd
    rw [he] at h
    cases h
  | some decl =>
    rw [tree_eq hs (hs.mem_typeOrder hd), treeFrom, Graph.type_eq_ok_iff.mpr hd, liftM_fault_ok,
      ok_bind] at h
    obtain ⟨u, hoperands, h⟩ := bind_eq_ok_iff.mp h
    obtain ⟨desc, hdesc, h⟩ := bind_eq_ok_iff.mp h
    obtain ⟨n, hn, h⟩ := bind_eq_ok_iff.mp h
    cases h
    exact ⟨decl, desc, rfl,
      fun o ho => exists_of_discard (forM_eq_ok_iff.mp hoperands o (List.mem_reverse.mpr ho)),
      liftM_fault_eq_ok_iff.mp hdesc, ⟨n, liftM_overflow_eq_ok_iff.mp hn⟩, rfl⟩

variable {operand : Ident → TypeTree}

theorem layer_struct {name : Option String} {ms : List MemberDecl} {b : Bool}
    {desc : TypeDesc TypeTree} (h : s.layer operand id (.struct name ms b) = .ok desc) :
    ∃ ds, desc = .struct name ds ∧ ds.map MemberDesc.slot = ms.map fun m =>
      ⟨m.offset.map UInt32.toNat, (operand m.type).memberSize m⟩ := by
  cases h
  refine ⟨_, rfl, ?_⟩
  rw [List.map_map]
  have hzip : (ms.zip (s.memberNames ms)).map Prod.fst = ms :=
    List.map_fst_zip (by rw [s.length_memberNames])
  conv_rhs => rw [← hzip, List.map_map]
  rfl

/-- **A type that is written out has the size of the declared type**, and that is computed exactly
if all numbers on the way to it are below the ceiling. -/
theorem size?_of_layer {desc : TypeDesc TypeTree} (h : s.layer operand id decl = .ok desc)
    (hsize : ∀ o ∈ decl.operands, (operand o).size? = size o)
    (hmember : ∀ name ms b, decl = .struct name ms b → ∀ m ∈ ms,
      (operand m.type).memberSize m = s.declaredMemberSize size m) :
    (TypeTree.node desc).size? = s.sizeLayer size decl ∧
      ((∃ n, desc.size TypeTree.size? = .ok n) ↔
        ∀ n ∈ s.numbers size decl, n < Bounded.sizeCeiling) := by
  cases decl with
  | struct name ms b =>
    obtain ⟨ds, rfl, hslots⟩ := layer_struct h
    have hdeclared : ds.map MemberDesc.slot = ms.map (s.declaredSlot size) := by
      rw [hslots]
      exact List.map_congr_left fun m hm => congrArg (Slot.mk _) (hmember name ms b rfl m hm)
    constructor
    · rw [TypeTree.size?, TypeTree.structSize?_eq, hdeclared]
      rfl
    · rw [TypeDesc.size, TypeDesc.exists_structSize_iff, hdeclared]
      rfl
  | vector e n | matrix e n =>
    cases h
    have he := hsize e List.mem_cons_self
    constructor
    · rw [TypeTree.size?, he]
      rfl
    · rw [TypeDesc.size, TypeDesc.exists_mul?_iff, he]
      rfl
  | array e length stride =>
    obtain ⟨n, hn, h⟩ := bind_eq_ok_iff.mp h
    cases h
    have he := hsize e List.mem_cons_self
    constructor
    · rw [TypeTree.size?, he, sizeLayer, arraySize, hn]
    · rw [TypeDesc.size, TypeDesc.exists_mul?_iff, he, numbers, arraySize, hn]
  | unreported => cases h
  | _ =>
    cases h
    exact ⟨rfl, iff_of_true ⟨_, rfl⟩ fun _ hn => absurd hn List.not_mem_nil⟩

/-- A member whose type is written out has the size of the declared member, if that type has the
size of the declared type. -/
theorem memberSize_of_size? (hs : s.Ordered) {m : MemberDecl} {t : TypeTree}
    (h : s.tree m.type = .ok t) (hsize : t.size? = s.sizeOf m.type) :
    t.memberSize m = s.declaredMemberSize s.sizeOf m := by
  obtain ⟨decl, desc, hd, hoperands, hlayer, -, rfl⟩ := tree_eq_ok hs h
  unfold TypeTree.memberSize declaredMemberSize
  rw [hd]
  cases decl with
  | matrix column count =>
    cases hlayer
    cases m.matrixStride with
    | none => exact hsize
    | some stride =>
      obtain ⟨u, hu⟩ := hoperands column List.mem_cons_self
      obtain ⟨decl, desc, hd, -, hlayer, -, rfl⟩ := tree_eq_ok hs hu
      simp only [hu, hd, treeOf]
      rcases m.matrixOrder with _ | _ | _
      · rfl
      · rfl
      · -- Rows are counted if the columns are vectors, on both sides.
        cases decl with
        | array e length stride =>
          obtain ⟨n, -, hlayer⟩ := bind_eq_ok_iff.mp hlayer
          cases hlayer
          rfl
        | unreported => cases hlayer
        | _ =>
          cases hlayer
          rfl
  | array e length stride =>
    obtain ⟨n, -, hlayer⟩ := bind_eq_ok_iff.mp hlayer
    cases hlayer
    exact hsize
  | unreported => cases hlayer
  | _ =>
    cases hlayer
    exact hsize

/-- What passes from operands to the types that are built from them holds of all declared types. -/
theorem Ordered.induction (hs : s.Ordered) {P : Ident → Prop}
    (step : ∀ id decl, s.graph.types.get? id = some decl → (∀ o ∈ decl.operands, P o) → P id)
    (hd : s.graph.types.get? id = some decl) : P id := by
  have hall : ∀ ids, TypeOrder.Ordered s.graph.types ids → ∀ id ∈ ids, P id := by
    intro ids ho
    induction ids with
    | nil => exact fun _ h => absurd h List.not_mem_nil
    | cons x before ih =>
      obtain ⟨⟨decl, hdecl, hops⟩, hb⟩ := ho
      intro id hid
      rcases List.mem_cons.mp hid with rfl | hid
      · exact step id decl hdecl fun o ho => ih hb o (hops o ho)
      · exact ih hb id hid
  exact hall _ hs.ordered id (List.mem_reverse.mpr (hs.mem_typeOrder hd))

/-- One step of the recursion: the size of a type, and when it is computed, if the types that it is
built from are written out with their sizes. -/
theorem size?_of_operands (hs : s.Ordered) (hd : s.graph.types.get? id = some decl)
    (hoperands : ∀ o ∈ decl.operands, ∃ u, s.tree o = .ok u ∧ u.size? = s.sizeOf o)
    {desc : TypeDesc TypeTree} (h : s.layer (fun o => treeOf (s.tree o)) id decl = .ok desc) :
    (TypeTree.node desc).size? = s.sizeOf id ∧ ((∃ n, desc.size TypeTree.size? = .ok n) ↔
      ∀ n ∈ s.numbers s.sizeOf decl, n < Bounded.sizeCeiling) := by
  rw [sizeOf_eq hs id, hd, Option.bind_some]
  refine size?_of_layer s.sizeOf h (fun o ho => ?_) ?_
  · obtain ⟨u, hu, hsize⟩ := hoperands o ho
    rw [hu]
    exact hsize
  · rintro name ms b rfl m hm
    obtain ⟨u, hu, hsize⟩ := hoperands m.type (List.mem_map_of_mem (f := MemberDecl.type) hm)
    rw [hu]
    exact memberSize_of_size? hs hu hsize

/-- **A type that is written out has the size of the declared type.** -/
theorem size?_of_tree (hs : s.Ordered) {t : TypeTree} (h : s.tree id = .ok t) :
    t.size? = s.sizeOf id := by
  obtain ⟨decl, -, hd, -⟩ := tree_eq_ok hs h
  refine hs.induction (P := fun id => ∀ t, s.tree id = .ok t → t.size? = s.sizeOf id)
    (fun id decl hd ih t h => ?_) hd t h
  obtain ⟨decl', desc, hd', hoperands, hlayer, -, rfl⟩ := tree_eq_ok hs h
  obtain rfl : decl = decl' := Option.some.inj (hd.symm.trans hd')
  refine (size?_of_operands hs hd (fun o ho => ?_) hlayer).1
  obtain ⟨u, hu⟩ := hoperands o ho
  exact ⟨u, hu, ih o ho u hu⟩

theorem memberSize_of_tree (hs : s.Ordered) {m : MemberDecl} {t : TypeTree}
    (h : s.tree m.type = .ok t) : t.memberSize m = s.declaredMemberSize s.sizeOf m :=
  memberSize_of_size? hs h (size?_of_tree hs h)

/-! ## Overflow -/

variable (s) in
/-- Nothing overflows on the way to the size of a type or of a type that it is built from. -/
def Fits (root : Ident) : Prop :=
  ∀ id decl, Relation.ReflTransGen (TypeOrder.Uses s.graph.types) root id →
    s.graph.types.get? id = some decl → ∀ n ∈ s.numbers s.sizeOf decl, n < Bounded.sizeCeiling

theorem Fits.of_uses {o : Ident} (h : s.Fits id) (ho : TypeOrder.Uses s.graph.types id o) :
    s.Fits o :=
  fun x decl hx => h x decl (.head ho hx)

theorem exists_tree_of_uses (hs : s.Ordered) {t : TypeTree} (h : s.tree id = .ok t) {o : Ident}
    (ho : TypeOrder.Uses s.graph.types id o) : ∃ u, s.tree o = .ok u := by
  obtain ⟨decl, desc, hd, hoperands, -⟩ := tree_eq_ok hs h
  obtain ⟨decl', hd', ho⟩ := ho
  obtain rfl : decl = decl' := Option.some.inj (hd.symm.trans hd')
  exact hoperands o ho

/-- **What is written out fits.** -/
theorem fits_of_tree (hs : s.Ordered) {t : TypeTree} (h : s.tree id = .ok t) : s.Fits id := by
  intro x decl hx hd
  obtain ⟨u, hu⟩ : ∃ u, s.tree x = .ok u := by
    clear hd
    induction hx with
    | refl => exact ⟨t, h⟩
    | tail _ huses ih =>
      obtain ⟨u, hu⟩ := ih
      exact exists_tree_of_uses hs hu huses
  obtain ⟨decl', desc, hd', hoperands, hlayer, hcomputed, -⟩ := tree_eq_ok hs hu
  obtain rfl : decl = decl' := Option.some.inj (hd.symm.trans hd')
  refine (size?_of_operands hs hd (fun o ho => ?_) hlayer).2.mp hcomputed
  obtain ⟨v, hv⟩ := hoperands o ho
  exact ⟨v, hv, size?_of_tree hs hv⟩

/-- **What fits does not overflow.** The induction is on the order of types: an operand does not
overflow, so the size is computed from the sizes of the operands. -/
theorem tree_ne_overflow (hs : s.Ordered) (h : s.Fits id) (e : Overflow) :
    s.tree id ≠ .error (.overflow e) := by
  cases hd : s.graph.types.get? id with
  | none =>
    obtain ⟨e', he⟩ := tree_of_undeclared hd
    simp [he]
  | some decl =>
    refine hs.induction (P := fun id => s.Fits id → s.tree id ≠ .error (.overflow e))
      (fun id decl hd ih hfits hover => ?_) hd h
    rw [tree_eq hs (hs.mem_typeOrder hd), treeFrom, Graph.type_eq_ok_iff.mpr hd, liftM_fault_ok,
      ok_bind] at hover
    cases hforM : decl.operands.reverse.forM fun o => discard (s.tree o) with
    | error e' =>
      rw [hforM] at hover
      cases hover
      obtain ⟨o, ho, hdiscard⟩ := exists_of_forM_eq_error hforM
      have ho := List.mem_reverse.mp ho
      exact ih o ho (hfits.of_uses ⟨decl, hd, ho⟩) (eq_error_of_discard hdiscard)
    | ok u =>
      rw [hforM, ok_bind] at hover
      cases hlayer : s.layer (fun o => treeOf (s.tree o)) id decl with
      | error e' =>
        rw [hlayer] at hover
        cases hover
      | ok desc =>
        have hoperands : ∀ o ∈ decl.operands, ∃ u, s.tree o = .ok u ∧ u.size? = s.sizeOf o := by
          intro o ho
          obtain ⟨u, hu⟩ :=
            exists_of_discard (forM_eq_ok_iff.mp hforM o (List.mem_reverse.mpr ho))
          exact ⟨u, hu, size?_of_tree hs hu⟩
        obtain ⟨n, hn⟩ := (size?_of_operands hs hd hoperands hlayer).2.mpr (hfits id decl .refl hd)
        rw [hlayer, liftM_fault_ok, ok_bind, hn] at hover
        cases hover

end Source

end ShaderReflect
