import Mathlib.Algebra.GroupWithZero.Nat
import Mathlib.Data.List.Induction
import ShaderReflect.Layout.TypeDesc

/-!
# Lists of types that refer backwards

The described types of a reflection stand in a list and refer to each other by place. In a
*grounded* list every reference points to an earlier place, so that the types can be written out in
one pass over the list (`unfoldAll`). What a place is written out to satisfies the recursive
equation that one would write down for it (`unfolded_eq`), and later entries do not change it
(`unfolded_of_isPrefix`).

* `TypeTree`: a type written out, with everything that it is built from in place of references.
* `TypeTree.size?`: the size of a type, as a natural number without a ceiling.

Trees are what types of different reflections are compared by, as their places cannot be: two lists
may hold the same types at different places. A reference that leads nowhere is a tree of its own
(`TypeTree.dangling`), so that every place can be written out.
-/

namespace ShaderReflect

/-! ## References of a description -/

namespace TypeDesc

variable {τ σ : Type}

theorem members?_map (f : τ → σ) (desc : TypeDesc τ) :
    (desc.map f).members? = desc.members?.map (List.map (·.map f)) := by
  cases desc <;> rfl

theorem map_map {ρ : Type} (f : τ → σ) (g : σ → ρ) (desc : TypeDesc τ) :
    (desc.map f).map g = desc.map (g ∘ f) := by
  cases desc with
  | struct name ms =>
    simp only [map, List.map_map]
    rfl
  | _ => rfl

theorem map_id (desc : TypeDesc τ) : desc.map id = desc := by
  cases desc with
  | struct name ms =>
    have hms : ms.map (·.map id) = ms := (List.map_congr_left fun _ _ => rfl).trans (List.map_id ms)
    rw [map, hms]
  | _ => rfl

/-- Ways of referring that agree on the references of a description change it alike. -/
theorem map_congr {f g : τ → σ} {desc : TypeDesc τ} (h : ∀ i ∈ desc.refs, f i = g i) :
    desc.map f = desc.map g := by
  cases desc with
  | struct name ms =>
    simp only [map, struct.injEq, true_and]
    refine List.map_congr_left fun m hm => ?_
    have hm' := h m.type (List.mem_map_of_mem (f := MemberDesc.type) hm)
    simp only [MemberDesc.map, hm']
  | _ => simp_all [map, refs]

end TypeDesc

/-! ## Grounded lists -/

/-- Every reference points to an earlier place. -/
def Grounded (descs : List (TypeDesc TypeIdx)) : Prop :=
  ∀ (k : TypeIdx) (desc : TypeDesc TypeIdx), descs[k]? = some desc → ∀ i ∈ desc.refs, i < k

theorem grounded_nil : Grounded [] := fun _ _ h => by simp at h

/-- A list stays grounded under a description that refers to what is in it. -/
theorem grounded_concat {descs : List (TypeDesc TypeIdx)} {desc : TypeDesc TypeIdx}
    (h : Grounded descs) (hd : ∀ i ∈ desc.refs, i < descs.length) : Grounded (descs ++ [desc]) := by
  intro k d hk i hi
  rcases Nat.lt_trichotomy k descs.length with hlt | heq | hgt
  · rw [List.getElem?_append_left hlt] at hk
    exact h k d hk i hi
  · subst heq
    rw [List.getElem?_concat_length, Option.some.injEq] at hk
    exact hd i (hk ▸ hi)
  · rw [List.getElem?_eq_none (by simp; omega)] at hk
    cases hk

/-! ## Writing types out -/

section

variable {α : Type} (node : TypeDesc TypeIdx → (TypeIdx → α) → α) (outside : TypeIdx → α)

/-- Write out the types of a list in one pass: `node` writes out a type, given how the places that
it refers to are written out, and `outside` is what stands for a place that is not earlier. -/
def unfoldAll (descs : List (TypeDesc TypeIdx)) : List α :=
  descs.foldl (fun found desc => found ++ [node desc fun i => found[i]?.getD (outside i)]) []

/-- What a place of a list is written out to. -/
def unfolded (descs : List (TypeDesc TypeIdx)) (i : TypeIdx) : α :=
  (unfoldAll node outside descs)[i]?.getD (outside i)

variable {node outside}

theorem unfoldAll_concat (descs : List (TypeDesc TypeIdx)) (desc : TypeDesc TypeIdx) :
    unfoldAll node outside (descs ++ [desc]) =
      unfoldAll node outside descs ++ [node desc (unfolded node outside descs)] := by
  unfold unfoldAll unfolded
  rw [List.foldl_append]
  rfl

variable (node outside) in
theorem length_unfoldAll (descs : List (TypeDesc TypeIdx)) :
    (unfoldAll node outside descs).length = descs.length := by
  induction descs using List.reverseRecOn with
  | nil => rfl
  | append_singleton descs desc ih => rw [unfoldAll_concat, List.length_append, ih,
      List.length_append, List.length_singleton, List.length_singleton]

theorem unfolded_concat_of_lt {descs : List (TypeDesc TypeIdx)} {desc : TypeDesc TypeIdx}
    {i : TypeIdx} (h : i < descs.length) :
    unfolded node outside (descs ++ [desc]) i = unfolded node outside descs i := by
  unfold unfolded
  rw [unfoldAll_concat, List.getElem?_append_left (by rw [length_unfoldAll]; exact h)]

variable (node outside) in
theorem unfolded_concat_length (descs : List (TypeDesc TypeIdx)) (desc : TypeDesc TypeIdx) :
    unfolded node outside (descs ++ [desc]) descs.length =
      node desc (unfolded node outside descs) := by
  have h := length_unfoldAll node outside descs
  show (unfoldAll node outside (descs ++ [desc]))[descs.length]?.getD _ = _
  rw [unfoldAll_concat, ← h, List.getElem?_concat_length, Option.getD_some]

/-- **Later types do not change earlier ones.** -/
theorem unfolded_of_isPrefix {descs descs' : List (TypeDesc TypeIdx)} (h : descs <+: descs')
    {i : TypeIdx} (hi : i < descs.length) :
    unfolded node outside descs' i = unfolded node outside descs i := by
  obtain ⟨more, rfl⟩ := h
  induction more using List.reverseRecOn with
  | nil => rw [List.append_nil]
  | append_singleton more desc ih =>
    rw [← List.append_assoc, unfolded_concat_of_lt, ih]
    rw [List.length_append]
    exact Nat.lt_add_right _ hi

variable {β : Type} {node' : TypeDesc TypeIdx → (TypeIdx → β) → β} {outside' : TypeIdx → β} in
/-- What is made of each type once it is written out can be made of it on the way. -/
theorem map_unfoldAll {g : α → β} (hnode : ∀ desc f, g (node desc f) = node' desc (g ∘ f))
    (houtside : ∀ i, g (outside i) = outside' i) (descs : List (TypeDesc TypeIdx)) :
    (unfoldAll node outside descs).map g = unfoldAll node' outside' descs := by
  induction descs using List.reverseRecOn with
  | nil => rfl
  | append_singleton descs desc ih =>
    have hunfolded : g ∘ unfolded node outside descs = unfolded node' outside' descs := by
      funext i
      show g ((unfoldAll node outside descs)[i]?.getD (outside i)) = _
      rw [unfolded, ← ih, List.getElem?_map, ← houtside, Option.getD_map]
    rw [unfoldAll_concat, unfoldAll_concat, List.map_append, ih, List.map_singleton, hnode,
      hunfolded]

variable {β : Type} {node' : TypeDesc TypeIdx → (TypeIdx → β) → β} {outside' : TypeIdx → β} in
theorem apply_unfolded {g : α → β} (hnode : ∀ desc f, g (node desc f) = node' desc (g ∘ f))
    (houtside : ∀ i, g (outside i) = outside' i) (descs : List (TypeDesc TypeIdx)) (i : TypeIdx) :
    g (unfolded node outside descs i) = unfolded node' outside' descs i := by
  rw [unfolded, unfolded, ← map_unfoldAll hnode houtside, List.getElem?_map, ← houtside,
    Option.getD_map]

/-- Types that are changed one by one are written out as what they are changed to. -/
theorem unfolded_map (g : TypeDesc TypeIdx → TypeDesc TypeIdx) (descs : List (TypeDesc TypeIdx))
    (i : TypeIdx) : unfolded node outside (descs.map g) i =
      unfolded (fun desc f => node (g desc) f) outside descs i := by
  unfold unfolded unfoldAll
  rw [List.foldl_map]

/-- **Types are written out as the recursive equation says**, if they refer backwards and `node`
looks at nothing but references. -/
theorem unfolded_eq
    (local' : ∀ desc f g, (∀ i ∈ TypeDesc.refs desc, f i = g i) → node desc f = node desc g)
    {descs : List (TypeDesc TypeIdx)} (hd : Grounded descs) {k : TypeIdx}
    {desc : TypeDesc TypeIdx} (hk : descs[k]? = some desc) :
    unfolded node outside descs k = node desc (unfolded node outside descs) := by
  obtain ⟨hlt, hget⟩ := List.getElem?_eq_some_iff.mp hk
  have hsplit : descs.take k ++ [desc] <+: descs := by
    rw [← hget, List.take_append_getElem hlt]
    exact List.take_prefix _ _
  have hlen : (descs.take k).length = k := List.length_take_of_le (Nat.le_of_lt hlt)
  have hhere := unfolded_concat_length node outside (descs.take k) desc
  rw [hlen] at hhere
  rw [unfolded_of_isPrefix hsplit (by rw [List.length_append, hlen]; simp), hhere]
  refine local' desc _ _ fun i hi => (unfolded_of_isPrefix (List.take_prefix k descs) ?_).symm
  rw [hlen]
  exact hd k desc hk i hi

end

/-! ## Type trees -/

/-- A type written out: the types that it is built from stand in it, not references to them. -/
inductive TypeTree
  /-- A reference that leads nowhere. -/
  | dangling (i : TypeIdx)
  | node (desc : TypeDesc TypeTree)

namespace TypeTree

/-- The type at a place of a list, written out. -/
def ofDescs (descs : List (TypeDesc TypeIdx)) : TypeIdx → TypeTree :=
  unfolded (fun desc f => .node (desc.map f)) .dangling descs

theorem ofDescs_eq {descs : List (TypeDesc TypeIdx)} (hd : Grounded descs) {k : TypeIdx}
    {desc : TypeDesc TypeIdx} (hk : descs[k]? = some desc) :
    ofDescs descs k = .node (desc.map (ofDescs descs)) := by
  refine unfolded_eq ?_ hd hk
  intro desc f g h
  rw [TypeDesc.map_congr h]

/-- The end of a member. -/
def memberEnd (m : MemberDesc TypeTree) : Nat := m.offset.getD 0 + m.size.getD 0

/-- The size of a struct: the end of the furthest member if all have offsets, else the sum of the
sizes of all members. -/
def structSize? (ms : List (MemberDesc TypeTree)) : Option Nat :=
  if ms.all (·.offset.isSome) then some ((ms.map memberEnd).foldl max 0)
  else (ms.mapM MemberDesc.size).map List.sum

/-- The size of a type in bytes, absent if it has none. -/
def size? : TypeTree → Option Nat
  | .node .bool => some 4
  | .node (.int w _) | .node (.float w) => some (TypeDecl.bytesOfBits w)
  | .node (.vector e n) => e.size?.map (· * n.toNat)
  | .node (.matrix c n) => c.size?.map (· * n.toNat)
  | .node (.array e n stride) => (stride.or e.size?).map (· * n.toNat)
  | .node (.struct _ ms) => structSize? ms
  | .node .deviceAddress => some 8
  | _ => none

end TypeTree

end ShaderReflect
