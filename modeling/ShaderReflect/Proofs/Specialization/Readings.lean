import ShaderReflect.Proofs.Specialization.Recursion
import ShaderReflect.Proofs.Value.Normal

/-!
# Readings of values are exact

All numbers in the value of a constant are without bits beyond their width, as it is made of numbers
that are read, computed, or taken from the values of other constants. So each integer of at most 64
bits is read as what its bits stand for.

* `Value.Contains`: the scalars in a value.
* `ConstantKind.isNormal_of_valueFrom`: one constant.
* `Specialization.apply_readings`: all constants, and what a client reads.

Specification, 4.3, and the values of constants in reports. Numbers of more than 64 bits keep their
64 low-order ones, so they are normal too, but what is read of them is not what they stand for.
-/

namespace ShaderReflect

/-! ## Scalars in values -/

namespace Value

variable {x : Scalar} {v w : Value} {parts : List Value}

/-- A value is a scalar, or has it in a part. -/
inductive Contains : Value → Scalar → Prop
  | scalar (x : Scalar) : (scalar x).Contains x
  | part {parts : List Value} {v : Value} {x : Scalar} (hv : v ∈ parts) (hx : v.Contains x) :
    (composite parts).Contains x

/-- No number in a value has bits beyond its width. -/
def IsNormal (v : Value) : Prop := ∀ x, v.Contains x → x.IsNormal

theorem isNormal_scalar_iff : (scalar x).IsNormal ↔ x.IsNormal := by
  constructor
  · intro h
    exact h x (.scalar x)
  · rintro h _ ⟨⟩
    exact h

theorem isNormal_composite_iff : (composite parts).IsNormal ↔ ∀ v ∈ parts, v.IsNormal := by
  constructor
  · intro h v hv x hx
    exact h x (.part hv hx)
  · rintro h x (_ | ⟨hv, hx⟩)
    exact h _ hv x hx

theorem contains_of_scalar? (h : v.scalar? = some x) : v.Contains x := by
  cases v with
  | scalar y =>
    obtain rfl : y = x := Option.some.inj h
    exact .scalar y
  | composite parts => cases h

theorem Contains.of_part? {i : Word} (hx : w.Contains x) (hw : v.part? i = some w) :
    v.Contains x := by
  cases v with
  | scalar y => cases hw
  | composite parts => exact .part (List.mem_of_getElem? hw) hx

theorem IsNormal.of_foldlM_part? {path : List Word} (h : v.IsNormal)
    (hw : path.foldlM part? v = some w) : w.IsNormal := by
  induction path generalizing v with
  | nil =>
    cases hw
    exact h
  | cons i path ih =>
    rw [List.foldlM_cons] at hw
    obtain ⟨u, hu, hw⟩ := Option.bind_eq_some_iff.mp hw
    exact ih (fun x hx => h x (hx.of_part? hu)) hw

end Value

/-! ## Constants -/

theorem exists_of_mapM_eq_some {α β : Type} {f : α → Option β} {xs : List α} {ys : List β}
    (h : xs.mapM f = some ys) : ∀ y ∈ ys, ∃ x ∈ xs, f x = some y := by
  induction xs generalizing ys with
  | nil =>
    cases h
    simp
  | cons x xs ih =>
    rw [List.mapM_cons] at h
    obtain ⟨y, hy, h⟩ := Option.bind_eq_some_iff.mp h
    obtain ⟨zs, hzs, h⟩ := Option.bind_eq_some_iff.mp h
    cases h
    rw [List.forall_mem_cons]
    refine ⟨⟨x, by simp, hy⟩, fun z hz => ?_⟩
    obtain ⟨x', hx', heq⟩ := ih hzs z hz
    exact ⟨x', List.mem_cons_of_mem x hx', heq⟩

namespace ConstantKind

variable {value : Ident → Option Value} {type : TypeDecl} {given? : Option (List UInt8)}
  {kind : ConstantKind} {v : Value}

theorem isNormal_of_operationFrom {opcode : Opcode} {operands : List Word}
    (hvalue : ∀ x w, value x = some w → w.IsNormal)
    (h : operationFrom value type opcode operands = some v) : v.IsNormal := by
  unfold operationFrom at h
  by_cases hextract : opcode = opCompositeExtract
  · rw [if_pos hextract] at h
    obtain ⟨x, -, h⟩ := Option.bind_eq_some_iff.mp h
    obtain ⟨w, hw, h⟩ := Option.bind_eq_some_iff.mp h
    exact (hvalue x w hw).of_foldlM_part? h
  · rw [if_neg hextract] at h
    obtain ⟨args, hargs, h⟩ := Option.bind_eq_some_iff.mp h
    obtain ⟨y, hy, h⟩ := Option.bind_eq_some_iff.mp h
    cases h
    refine Value.isNormal_scalar_iff.mpr (isNormal_of_fold? (fun a ha => ?_) hy)
    obtain ⟨x, -, hx⟩ := exists_of_mapM_eq_some hargs a ha
    obtain ⟨w, hw, ha⟩ := Option.bind_eq_some_iff.mp hx
    exact hvalue x w hw a (Value.contains_of_scalar? ha)

/-- **The value of a constant** is without bits beyond widths if those that it refers to are. -/
theorem isNormal_of_valueFrom (hvalue : ∀ x w, value x = some w → w.IsNormal)
    (h : kind.valueFrom value type given? = some v) : v.IsNormal := by
  cases kind with
  | bool b =>
    obtain ⟨x, hx, rfl⟩ := Option.map_eq_some_iff.mp h
    cases given? with
    | none =>
      cases hx
      exact Value.isNormal_scalar_iff.mpr trivial
    | some bytes => exact Value.isNormal_scalar_iff.mpr (Scalar.isNormal_of_ofBytes? hx)
  | scalar low high =>
    obtain ⟨x, hx, rfl⟩ := Option.map_eq_some_iff.mp h
    cases given? with
    | none => exact Value.isNormal_scalar_iff.mpr (Scalar.isNormal_of_ofWords? hx)
    | some bytes => exact Value.isNormal_scalar_iff.mpr (Scalar.isNormal_of_ofBytes? hx)
  | composite constituents =>
    obtain ⟨parts, hparts, rfl⟩ := Option.map_eq_some_iff.mp h
    refine Value.isNormal_composite_iff.mpr fun w hw => ?_
    obtain ⟨x, -, hx⟩ := exists_of_mapM_eq_some hparts w hw
    exact hvalue x w hx
  | operation opcode operands => exact isNormal_of_operationFrom hvalue h
  | valueless => cases h

end ConstantKind

namespace Specialization

variable {g : Graph} {list : List Override} {s : Specialization} {id : Ident} {v : Value}
  {x : Scalar}

theorem isNormal_of_apply (h : (apply g list).result = .ok s) (hv : s.value? id = some v) :
    v.IsNormal := by
  refine value?_induction h (fun value id v hvalue hv => ?_) id v hv
  obtain ⟨c, -, hv⟩ := Option.bind_eq_some_iff.mp hv
  obtain ⟨type, -, hv⟩ := Option.bind_eq_some_iff.mp hv
  exact ConstantKind.isNormal_of_valueFrom hvalue hv

/-- **What is read is what the bits stand for.** No number in the value of a constant has bits
beyond its width. So an integer of at most 64 bits is read as a natural number of 32 bits exactly if
it stands for that number, and it is written as the number that it stands for. -/
theorem apply_readings (h : (apply g list).result = .ok s) (hv : s.value? id = some v)
    (hx : v.Contains x) :
    x.IsNormal ∧ ∀ width signed bits, x = .int width signed bits → width.toNat ≤ 64 →
      (∀ n, x.natural? = some n ↔ Scalar.integerOf width signed bits = n.toNat) ∧
      x.text = toString (Scalar.integerOf width signed bits) := by
  have hnormal : x.IsNormal := isNormal_of_apply h hv x hx
  refine ⟨hnormal, ?_⟩
  rintro width signed bits rfl hle
  have hbits : bits.toNat < 2 ^ width.toNat := by
    have hmin : bits.toNat < 2 ^ min width.toNat 64 := hnormal
    rwa [Nat.min_eq_left hle] at hmin
  exact ⟨fun n => Scalar.natural?_eq_some_iff hle hbits, Scalar.text_int hle hbits⟩

set_option maxRecDepth 100000 in
/-- An override is cut to five bits, which stand for 3, and the bits next to it stand for -2. -/
theorem sample_apply_readings : ∃ g s v, Graph.ofWords (sampleProducts 9) = .ok g ∧
    (apply g [⟨9, [0xE3]⟩]).result = .ok s ∧ s.value? 5 = some v ∧
    v.Contains (.int 5 true 3) ∧ (Scalar.int 5 true 3).natural? = some 3 ∧
    v.Contains (.int 5 true 30) ∧ (Scalar.int 5 true 30).natural? ≠ some 30 ∧
    (Scalar.int 5 true 30).text = "-2" := by
  obtain ⟨g, hg, hrun⟩ := exists_eq_ok_of_any (x := Graph.ofWords (sampleProducts 9))
    (p := fun g => (apply g [⟨9, [0xE3]⟩]).result.toOption.any fun s =>
      (((s.value? 5).bind (·.part? 0)).bind Value.scalar? = some (.int 5 true 3)) ∧
        ((s.value? 5).bind (·.part? 1)).bind Value.scalar? = some (.int 5 true 30))
    (by decide +kernel)
  obtain ⟨s, hs, hparts⟩ := exists_eq_ok_of_any hrun
  obtain ⟨hfirst, hsecond⟩ := of_decide_eq_true hparts
  obtain ⟨a, ha, hscalar⟩ := Option.bind_eq_some_iff.mp hfirst
  obtain ⟨v, hv, hpart⟩ := Option.bind_eq_some_iff.mp ha
  have hthree : v.Contains (.int 5 true 3) := (Value.contains_of_scalar? hscalar).of_part? hpart
  rw [hv, Option.bind_some] at hsecond
  obtain ⟨b, hpart', hscalar'⟩ := Option.bind_eq_some_iff.mp hsecond
  have htwo : v.Contains (.int 5 true 30) := (Value.contains_of_scalar? hscalar').of_part? hpart'
  have hread := (apply_readings hs hv hthree).2 5 true 3 rfl (by decide)
  have hread' := (apply_readings hs hv htwo).2 5 true 30 rfl (by decide)
  refine ⟨g, s, v, hg, hs, hv, hthree, (hread.1 3).mpr (by decide), htwo, ?_, ?_⟩
  · intro h
    exact absurd ((hread'.1 30).mp h) (by decide)
  · exact hread'.2.trans (by decide)

end Specialization

end ShaderReflect
