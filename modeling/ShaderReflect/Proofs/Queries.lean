import Mathlib.Algebra.Order.BigOperators.GroupWithZero.List
import Mathlib.Data.List.MinMax
import ShaderReflect.Proofs.ArrayLengths
import ShaderReflect.Proofs.Extent

/-!
# When queries stay in range

The numbers of a query can leave their range: a count of descriptors is a product of dimensions, and
an offset is a sum of offsets, which for an array without a length may be a stride times any index.
The results here say exactly when they do. Without such arrays, the paths of a type are as safe as
the complete walk over it.

* `Descriptor.count?_eq`: counts.
* `Reflection.follow?_eq`, `Reflection.route?_eq`: paths.
* `Reflection.offsetsOn_lt`: paths through types without arrays of unknown length.
* `Config.reflect_queries`: all queries on a reflection.

Specification, member walks, and the number of descriptors that is reported. Both may be absent by
their types, if a descriptor is unbounded or a path leads nowhere, but that is not what becomes of a
number that is too large. So the conditions here are conditions on binaries and clients, and nothing
in a reflection makes sure of them.
-/

namespace ShaderReflect

open Bounded

/-! ## Counts -/

/-- A product of positive numbers leaves the range on the way exactly if it does at the end. -/
theorem Bounded.foldlM_mul_eq {ceiling acc : Nat} {xs : List Nat} (hacc : acc < ceiling)
    (hpos : ∀ x ∈ xs, 0 < x) : xs.foldlM (mul ceiling) acc =
      if acc * xs.prod < ceiling then .ok (acc * xs.prod) else .error .multiplication := by
  induction xs generalizing acc with
  | nil =>
    rw [List.prod_nil, Nat.mul_one, if_pos hacc]
    rfl
  | cons x xs ih =>
    rw [List.forall_mem_cons] at hpos
    rw [List.foldlM_cons, List.prod_cons, ← Nat.mul_assoc]
    by_cases h : acc * x < ceiling
    · rw [mul, if_pos h, ok_bind, ih h hpos.2]
    · have hprod : 0 < xs.prod := List.prod_pos hpos.2
      have hle : acc * x ≤ acc * x * xs.prod := Nat.le_mul_of_pos_right _ hprod
      rw [mul, if_neg h, error_bind, if_neg (by omega)]

/-- **A count of descriptors** is the product of the dimensions if that is a number of 32 bits. -/
theorem Descriptor.count?_eq {τ : Type} {d : Descriptor τ} (hpos : ∀ n ∈ d.dims, 0 < n) :
    d.count? = if d.isUnbounded then .ok none
      else if (d.dims.map UInt32.toNat).prod < countCeiling then
        .ok (some (d.dims.map UInt32.toNat).prod)
      else .error .multiplication := by
  have hpos' : ∀ n ∈ d.dims.map UInt32.toNat, 0 < n := by
    intro n hn
    obtain ⟨w, hw, rfl⟩ := List.mem_map.mp hn
    exact UInt32.lt_iff_toNat_lt.mp (hpos w hw)
  have hone : 1 < countCeiling := by decide
  have hproduct := foldlM_mul_eq hone hpos'
  unfold count? product
  rw [hproduct, Nat.one_mul]
  split
  · rfl
  · split <;> rfl

/-! ## Paths -/

namespace Route

/-- The start of a part, given where the whole starts, however far that is. -/
def exactJoin (offset relative : Option Nat) : Option Nat :=
  offset.bind fun o => relative.map (o + ·)

theorem joinOffset_eq (offset relative : Option Nat) : joinOffset offset relative =
    if ∀ n ∈ exactJoin offset relative, n < sizeCeiling then .ok (exactJoin offset relative)
    else .error .addition := by
  cases offset with
  | none => simp [joinOffset, add?, exactJoin]
  | some o =>
    cases relative with
    | none => simp [joinOffset, add?, exactJoin]
    | some q =>
      simp only [joinOffset, add?, add, exactJoin, Option.bind_some, Option.map_some,
        Option.mem_def, Option.some.injEq, forall_eq']
      split <;> rfl

theorem elementOffset_eq (stride : Option Nat) (n : Nat) : elementOffset stride n =
    if ∀ k ∈ stride.map (· * n), k < sizeCeiling then .ok (stride.map (· * n))
    else .error .multiplication := by
  cases stride with
  | none => simp [elementOffset, mul?]
  | some k =>
    simp only [elementOffset, mul?, mul, Option.map_some, Option.mem_def, Option.some.injEq,
      forall_eq']
    split <;> rfl

end Route

namespace Reflection

variable {r : Reflection} {i : TypeIdx} {segment : List Char} {p : Part}

/-- The part of a type that a text names, however far it lies from the start. -/
def exactPart? (r : Reflection) (i : TypeIdx) (segment : List Char) : Option Part :=
  let text := String.ofList segment
  match r.type? i with
  | some (.struct _ members) =>
    let byName := members.find? (·.name = some text)
    (byName.or ((Route.index? segment).bind (members[·]?))).map fun m =>
      { segment := text, offset := m.offset, type := m.type }
  | some (.array element length stride) =>
    ((Route.index? segment).filter (· < length.toNat)).map fun n =>
      { segment := text, offset := stride.map (· * n), type := element }
  | some (.runtimeArray element stride) =>
    (Route.index? segment).map fun n =>
      { segment := text, offset := stride.map (· * n), type := element }
  | _ => none

/-- The member that a text names, or that has it as its number, is one of the members. -/
theorem mem_of_named {members : List (MemberDesc TypeIdx)} {named : MemberDesc TypeIdx → Bool}
    {index? : Option Nat} {m : MemberDesc TypeIdx}
    (h : (members.find? named).or (index?.bind (members[·]?)) = some m) : m ∈ members := by
  rcases Option.or_eq_some_iff.mp h with h | ⟨-, h⟩
  · exact List.mem_of_find?_eq_some h
  · obtain ⟨n, -, h⟩ := Option.bind_eq_some_iff.mp h
    exact List.mem_of_getElem? h

/-- The element that a text names can be told exactly if its start lies below the ceiling. -/
theorem elementNamed_eq {text : String} {element : TypeIdx} {stride : Option Nat} (n : Nat) :
    (do return some { segment := text, offset := ← Route.elementOffset stride n, type := element } :
      Except Overflow (Option Part)) =
    if ∀ k ∈ stride.map (· * n), k < sizeCeiling then
      .ok (some { segment := text, offset := stride.map (· * n), type := element })
    else .error .multiplication := by
  rw [Route.elementOffset_eq]
  split <;> rfl

/-- **The part that a text names** can be told exactly if its start lies below the ceiling. -/
theorem partNamed?_eq (hw : r.InWords) (i : TypeIdx) (segment : List Char) :
    r.partNamed? i segment =
      if ∀ p ∈ r.exactPart? i segment, ∀ n ∈ p.offset, n < sizeCeiling then
        .ok (r.exactPart? i segment)
      else .error .multiplication := by
  unfold partNamed? exactPart?
  cases hi : r.type? i with
  | none => exact (if_pos (by simp)).symm
  | some desc =>
    cases desc with
    | struct name members =>
      have hoffsets : ∀ m ∈ members, ∀ n ∈ m.offset, n < sizeCeiling := fun m hm n hn =>
        Nat.lt_trans (hw _ (List.mem_of_getElem? hi) m hm n hn) (by decide)
      cases hm : (members.find? (·.name = some (String.ofList segment))).or
          ((Route.index? segment).bind (members[·]?)) with
      | none => simp [hm]
      | some m =>
        simp only [hm, Option.map_some, Option.mem_some, forall_eq']
        rw [if_pos (hoffsets m (mem_of_named hm))]
    | array element length stride =>
      cases hn : (Route.index? segment).filter (· < length.toNat) with
      | none => simp [hn]
      | some n =>
        simp only [hn, Option.map_some, Option.mem_some, forall_eq']
        exact elementNamed_eq n
    | runtimeArray element stride =>
      cases hn : Route.index? segment with
      | none => simp
      | some n =>
        simp only [Option.map_some, Option.mem_some, forall_eq']
        exact elementNamed_eq n
    | _ => exact (if_pos (by simp)).symm

/-- Where texts lead, one after the other, however far that is. -/
def exactFollow? (r : Reflection) (offset : Option Nat) (i : TypeIdx) :
    List (List Char) → Option (Option Nat × TypeIdx)
  | [] => some (offset, i)
  | segment :: rest =>
    (r.exactPart? i segment).bind fun p =>
      r.exactFollow? (Route.exactJoin offset p.offset) p.type rest

/-- The offsets on the way that texts lead: of each part in the whole before it, and of each part
from the start. -/
def offsetsOn (r : Reflection) (offset : Option Nat) (i : TypeIdx) : List (List Char) → List Nat
  | [] => []
  | segment :: rest =>
    match r.exactPart? i segment with
    | none => []
    | some p => p.offset.toList ++ (Route.exactJoin offset p.offset).toList ++
      r.offsetsOn (Route.exactJoin offset p.offset) p.type rest

theorem offsetsOn_cons {offset : Option Nat} {rest : List (List Char)}
    (hp : r.exactPart? i segment = some p) {P : Nat → Prop} :
    (∀ n ∈ r.offsetsOn offset i (segment :: rest), P n) ↔ (∀ n ∈ p.offset, P n) ∧
      (∀ n ∈ Route.exactJoin offset p.offset, P n) ∧
      ∀ n ∈ r.offsetsOn (Route.exactJoin offset p.offset) p.type rest, P n := by
  rw [offsetsOn, hp]
  simp only [List.forall_mem_append, Option.mem_toList, Option.mem_def, and_assoc]

/-- **A path can be followed** exactly if all offsets on the way lie below the ceiling. -/
theorem follow?_eq (hw : r.InWords) (segments : List (List Char)) (offset : Option Nat)
    (i : TypeIdx) :
    ((∀ n ∈ r.offsetsOn offset i segments, n < sizeCeiling) ∧
      r.follow? offset i segments = .ok (r.exactFollow? offset i segments)) ∨
    (¬ (∀ n ∈ r.offsetsOn offset i segments, n < sizeCeiling) ∧
      ∃ e, r.follow? offset i segments = .error e) := by
  induction segments generalizing offset i with
  | nil => exact .inl ⟨fun _ h => absurd h List.not_mem_nil, rfl⟩
  | cons segment rest ih =>
    unfold follow? exactFollow?
    rw [partNamed?_eq hw]
    cases hp : r.exactPart? i segment with
    | none =>
      rw [if_pos (by simp)]
      refine .inl ⟨?_, rfl⟩
      rw [offsetsOn, hp]
      exact fun _ h => absurd h List.not_mem_nil
    | some p =>
      rw [offsetsOn_cons hp]
      simp only [Option.bind_some, Option.mem_some, forall_eq']
      by_cases hoffset : ∀ n ∈ p.offset, n < sizeCeiling
      · rw [if_pos hoffset, ok_bind]
        simp only [Route.joinOffset_eq]
        by_cases hjoin : ∀ n ∈ Route.exactJoin offset p.offset, n < sizeCeiling
        · rw [if_pos hjoin, ok_bind, and_iff_right hoffset, and_iff_right hjoin]
          exact ih _ _
        · rw [if_neg hjoin]
          exact .inr ⟨fun h => hjoin h.2.1, _, rfl⟩
      · rw [if_neg hoffset]
        exact .inr ⟨fun h => hoffset h.1, _, rfl⟩

/-- The route from a type with a given path, however far it leads. -/
def exactRoute? (r : Reflection) (i : TypeIdx) (path : String) : Option Route :=
  (r.exactFollow? (some 0) i (Route.segments path.toList)).map fun (offset, type) =>
    { path, offset, type }

/-- Looking up a path gives the exact answer if all offsets on the way lie below the ceiling, and
none else. -/
theorem route?_eq (hw : r.InWords) (i : TypeIdx) (path : String) :
    ((∃ route?, r.route? i path = .ok route?) ↔
      ∀ n ∈ r.offsetsOn (some 0) i (Route.segments path.toList), n < sizeCeiling) ∧
    ∀ route?, r.route? i path = .ok route? → route? = r.exactRoute? i path := by
  unfold route? exactRoute?
  rcases follow?_eq hw (Route.segments path.toList) (some 0) i with ⟨h, hf⟩ | ⟨h, e, hf⟩
  · rw [hf, ok_bind]
    cases r.exactFollow? (some 0) i (Route.segments path.toList) with
    | none => exact ⟨iff_of_true ⟨none, rfl⟩ h, fun _ hx => (Except.ok.inj hx).symm⟩
    | some x => exact ⟨iff_of_true ⟨some _, rfl⟩ h, fun _ hx => (Except.ok.inj hx).symm⟩
  · rw [hf]
    exact ⟨iff_of_false (fun ⟨x, hx⟩ => by cases hx) h, fun x hx => by cases hx⟩

/-! ## Types without arrays of unknown length -/

/-- No type is an array without a length. -/
def Sized (r : Reflection) : Prop := ∀ e stride, .runtimeArray e stride ∉ r.types

/-- A part that is named starts below the ceiling, and its parts lie no further from the start of
the whole than the farthest one. -/
theorem exactPart?_le (hr : ShaderReflect.Grounded r.types) (hw : r.InWords) (hs : r.Sized)
    (hp : r.exactPart? i segment = some p) :
    (∀ n ∈ p.offset, n < sizeCeiling) ∧ reachOf r.farthest p.offset p.type ≤ r.farthest i := by
  rw [farthest_eq_from_zero hr i]
  unfold exactPart? at hp
  unfold farthestFrom
  cases hi : r.type? i with
  | none =>
    rw [hi] at hp
    cases hp
  | some desc =>
    rw [hi] at hp
    cases desc with
    | struct name members =>
      obtain ⟨m, hm, rfl⟩ := Option.map_eq_some_iff.mp hp
      have hmem := mem_of_named hm
      refine ⟨fun n hn => ?_, List.le_max_of_le' 0 (List.mem_map_of_mem hmem) (Nat.le_refl _)⟩
      exact Nat.lt_trans (hw _ (List.mem_of_getElem? hi) m hmem n hn) (by decide)
    | array element length stride =>
      obtain ⟨n, hn, rfl⟩ := Option.map_eq_some_iff.mp hp
      have hlt : n < length.toNat := of_decide_eq_true (Option.filter_eq_some_iff.mp hn).2
      dsimp only
      rw [if_pos (Nat.zero_lt_of_lt hlt)]
      refine ⟨fun k hk => ?_, reachOf_element_mono _ _ _ (Nat.le_sub_one_of_lt hlt)⟩
      obtain ⟨w, hstride, rfl⟩ := Option.map_eq_some_iff.mp hk
      exact Nat.mul_lt_mul'' (hw _ (List.mem_of_getElem? hi) w hstride)
        (Nat.lt_trans hlt (UInt32.toNat_lt_size length))
    | runtimeArray element stride => exact absurd (List.mem_of_getElem? hi) (hs element stride)
    | _ => cases hp

/-- **Without arrays of unknown length**, no path leads further than a complete walk. -/
theorem offsetsOn_lt (hr : ShaderReflect.Grounded r.types) (hw : r.InWords) (hs : r.Sized)
    {segments : List (List Char)} {offset : Option Nat}
    (h : ∀ o ∈ offset, o + r.farthest i < sizeCeiling) :
    ∀ n ∈ r.offsetsOn offset i segments, n < sizeCeiling := by
  induction segments generalizing offset i with
  | nil => exact fun _ h => absurd h List.not_mem_nil
  | cons segment rest ih =>
    cases hp : r.exactPart? i segment with
    | none =>
      rw [offsetsOn, hp]
      exact fun _ h => absurd h List.not_mem_nil
    | some p =>
      obtain ⟨hoffset, hle⟩ := exactPart?_le hr hw hs hp
      have hjoin : ∀ n ∈ Route.exactJoin offset p.offset, n + r.farthest p.type < sizeCeiling := by
        intro n hn
        obtain ⟨o, ho, hn⟩ := Option.bind_eq_some_iff.mp hn
        obtain ⟨q, hq, rfl⟩ := Option.map_eq_some_iff.mp hn
        rw [hq, reachOf, Option.elim_some] at hle
        have hlt := h o ho
        omega
      rw [offsetsOn_cons hp]
      exact ⟨hoffset, fun n hn => Nat.lt_of_le_of_lt (Nat.le_add_right n _) (hjoin n hn), ih hjoin⟩

end Reflection

/-! ## All queries -/

namespace Config

variable {c : Config} {r : Reflection}

/-- **When queries stay in range.** The number of descriptors is told if it is a number of 32 bits.
A path is followed, to where it leads, if all offsets on the way are numbers of 64 bits. A walk over
a type can be completed if its farthest part has such an offset, and then so can any path from it be
followed, unless there are arrays of unknown length. Otherwise there is an overflow. -/
theorem reflect_queries (hr : c.reflect.result = .ok r) :
    (∀ x ∈ r.entryPoints, ∀ d ∈ x.descriptors, d.count? =
      if d.isUnbounded then .ok none
      else if (d.dims.map UInt32.toNat).prod < countCeiling then
        .ok (some (d.dims.map UInt32.toNat).prod)
      else .error .multiplication) ∧
    (∀ i path, ((∃ route?, r.route? i path = .ok route?) ↔
        ∀ n ∈ r.offsetsOn (some 0) i (Route.segments path.toList), n < sizeCeiling) ∧
      ∀ route?, r.route? i path = .ok route? → route? = r.exactRoute? i path) ∧
    (∀ i, (∀ n, ∃ routes, Walk.take r n (Walk.start i) = .ok routes) ↔
      r.farthest i < sizeCeiling) ∧
    (r.Sized → ∀ i, r.farthest i < sizeCeiling →
      ∀ path, ∃ route?, r.route? i path = .ok route?) := by
  have hw := inWords_of_reflect hr
  have hg := (grounded_of_reflect hr).types
  refine ⟨fun x hx d hd => ?_, Reflection.route?_eq hw, Walk.take_start_total_iff hg hw,
    fun hs i hi path => ?_⟩
  · obtain ⟨s, p, h⟩ := exists_madeOf hr
    exact Descriptor.count?_eq (h.hasDims hx d hd).pos
  · refine (Reflection.route?_eq hw i path).1.mpr (Reflection.offsetsOn_lt hg hw hs ?_)
    rintro _ ⟨⟩
    rwa [Nat.zero_add]

set_option maxRecDepth 100000 in
/-- In the binary with arrays, the walk over the type of the buffers can be completed. -/
theorem sample_reflect_queries : ∃ r, sampleArrays.reflect.result = .ok r ∧
    r.farthest 3 = 262144 ∧
    (∀ n, ∃ routes, Walk.take r n (Walk.start 3) = .ok routes) ∧
    ∀ path route?, r.route? 3 path = .ok route? → route? = r.exactRoute? 3 path := by
  obtain ⟨r, hr, hfar⟩ := exists_eq_ok_of_any (x := sampleArrays.reflect.result)
    (p := fun r => r.farthest 3 = 262144) (by decide +kernel)
  have hfar := of_decide_eq_true hfar
  obtain ⟨-, hroutes, hwalks, -⟩ := reflect_queries hr
  refine ⟨r, hr, hfar, (hwalks 3).mpr ?_, fun path => (hroutes 3 path).2⟩
  rw [hfar]
  decide

set_option maxRecDepth 100000 in
/-- In the binary with arrays, the descriptors are too many to be counted, and a path with the
greatest index leads beyond the ceiling before it turns out to lead nowhere. -/
theorem sample_queries_overflow : ∃ r, sampleArrays.reflect.result = .ok r ∧
    (∃ x ∈ r.entryPoints, ∃ d ∈ x.descriptors, d.count? = .error .multiplication) ∧
    r.route? 3 "1.18446744073709551615.x" = .error .multiplication := by
  obtain ⟨r, hr, hover⟩ := exists_eq_ok_of_any (x := sampleArrays.reflect.result)
    (p := fun r => (∃ x ∈ r.entryPoints, ∃ d ∈ x.descriptors, d.count? = .error .multiplication) ∧
      r.route? 3 "1.18446744073709551615.x" = .error .multiplication) (by decide +kernel)
  exact ⟨r, hr, of_decide_eq_true hover⟩

end Config

end ShaderReflect
