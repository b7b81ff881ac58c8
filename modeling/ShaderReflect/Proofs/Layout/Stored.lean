import ShaderReflect.Proofs.Layout.Size

/-!
# Sizes in the arena

An arena is *reached* by putting declared types into it, one after the other, and images together
with samplers. In every arena that is reached, the sizes of types and members are those of the
declared types (`Source.Stored`), whichever types share a place.

Results:
* `Source.Reached.holds`: each step keeps the invariant, so an arena that is reached has it.
* `Source.reached_materialize`: putting a type and all that it is built from into an arena is a
  number of such steps.
* `Source.Reached.stored`, `Source.Reached.sizes`: the sizes in an arena that is reached.

That a declared type may find its description in the arena already is where sizes could go wrong:
the size that stands there was computed for another type. It is the same, as sizes depend on
descriptions alone, and a member that is described alike has the same size, stride and order.
-/

namespace ShaderReflect.Source

variable {s : Source} {a b : Arena} {id : Ident} {decl : TypeDecl} {i : TypeIdx}

/-! ## Arenas that are reached -/

/-- An arena that is reached from the empty one: declared types and images together with samplers
are put into it, in any order that `Source.put` accepts. -/
inductive Reached (s : Source) : Arena → Prop
  | empty : s.Reached {}
  | put {a b : Arena} {id : Ident} {decl : TypeDecl} {i : TypeIdx} (h : s.Reached a)
    (hd : s.graph.types.get? id = some decl) (hp : s.put a id decl = .ok (i, b)) : s.Reached b
  | combined {a b : Arena} {image i : TypeIdx} (h : s.Reached a) (hlt : image < a.entries.length)
    (hi : a.intern s.uniqueNames (.combinedImageSampler image) none = (i, b)) : s.Reached b

/-- A type is described only if all that it is built from has a place. -/
theorem exists_place_of_describe {desc : TypeDesc TypeIdx} (h : s.describe a id decl = .ok desc) :
    ∀ o ∈ decl.operands, ∃ i, a.places.get? o = some i := by
  have one : ∀ {o i}, a.place o = .ok i → ∀ x ∈ [o], ∃ i, a.places.get? x = some i := by
    intro o i hi x hx
    exact ⟨i, by rw [List.mem_singleton.mp hx, place_eq_ok hi]⟩
  cases decl with
  | struct name ms b =>
    obtain ⟨ds, hds, -⟩ := bind_eq_ok_iff.mp h
    obtain ⟨places, hplaces, -⟩ := bind_eq_ok_iff.mp hds
    intro o ho
    obtain ⟨m, hm, rfl⟩ := List.mem_map.mp ho
    obtain ⟨i, hi⟩ := exists_mapM_eq_ok_iff.mp ⟨places, hplaces⟩ m hm
    exact ⟨i, place_eq_ok hi⟩
  | vector | matrix | array | runtimeArray | pointer | image | sampledImage =>
    obtain ⟨i, hi, -⟩ := bind_eq_ok_iff.mp h
    exact one hi
  | unreported => cases h
  | _ => exact fun o ho => absurd ho List.not_mem_nil

/-- **Putting a declared type into an arena keeps the invariant**, and gives it a place at which it
is there in full. -/
theorem Holds.of_put (hs : s.Ordered) (h : s.Holds a) (hd : s.graph.types.get? id = some decl)
    (hp : s.put a id decl = .ok (i, b)) :
    s.Holds b ∧ i < b.entries.length ∧ s.tree id = .ok (b.tree i) := by
  obtain ⟨desc, -, -, hdesc, -⟩ := put_eq_ok hp
  have hplaces := exists_place_of_describe hdesc
  have hoperands : Operands a (fun o => treeOf (s.tree o)) decl.operands := fun o ho => by
    obtain ⟨j, hj⟩ := hplaces o ho
    exact h.treeOf_eq (by rw [hj]; rfl)
  have hforM : decl.operands.reverse.forM (fun o => discard (s.tree o)) = .ok () :=
    forM_eq_ok_iff.mpr fun o ho => by
      obtain ⟨j, hj⟩ := hplaces o (List.mem_reverse.mp ho)
      rw [(h.placed o j hj).2]
      rfl
  have htree : s.tree id = (do
      let desc ← s.layer (fun o => treeOf (s.tree o)) id decl
      let _ ← desc.size TypeTree.size?
      return .node desc) := by
    rw [Source.tree_eq hs (hs.mem_typeOrder hd), treeFrom, Graph.type_eq_ok_iff.mpr hd,
      liftM_fault_ok, ok_bind, hforM, ok_bind]
  rcases (h.put hoperands htree).cases with ⟨r, hr, ht, hsound, -⟩ | ⟨e, he, -⟩
  · rw [hp] at hr
    cases hr
    exact ⟨hsound.holds, hsound.inside i List.mem_cons_self, ht⟩
  · rw [hp] at he
    cases he

/-- An image together with a sampler has no size, so interning it keeps the invariant. -/
theorem Holds.of_combined (h : s.Holds a) {image : TypeIdx} (hlt : image < a.entries.length)
    (hi : a.intern s.uniqueNames (.combinedImageSampler image) none = (i, b)) :
    s.Holds b ∧ i < b.entries.length ∧
      b.tree i = .node (TypeDesc.map a.tree (.combinedImageSampler image)) := by
  refine h.intern (fun j hj => ?_) rfl hi
  rw [List.mem_singleton.mp hj]
  exact hlt

/-- **An arena that is reached keeps what it has to.** -/
theorem Reached.holds (hs : s.Ordered) (h : s.Reached a) : s.Holds a := by
  induction h with
  | empty => exact s.holds_empty
  | put _ hd hp ih => exact (ih.of_put hs hd hp).1
  | combined _ hlt hi ih => exact (ih.of_combined hlt hi).1

theorem reached_materializeTo {d : Nat} (ha : s.Reached a)
    (h : s.materializeTo d a id = .ok (i, b)) : s.Reached b := by
  induction d generalizing a id i b with
  | zero =>
    obtain ⟨j, -, h⟩ := bind_eq_ok_iff.mp h
    cases h
    exact ha
  | succ d ih =>
    unfold materializeTo at h
    split at h
    · cases h
      exact ha
    · obtain ⟨decl, hdecl, h⟩ := bind_eq_ok_iff.mp h
      obtain ⟨c, hc, h⟩ := bind_eq_ok_iff.mp h
      have hc : s.Reached c := foldlM_invariant hc ha fun o _ x y hx hy => by
        obtain ⟨⟨k, z⟩, hz, rfl⟩ := map_eq_ok_iff.mp hy
        exact ih hx hz
      exact .put hc (Graph.type_eq_ok_iff.mp (liftM_fault_eq_ok_iff.mp hdecl)) h

/-- **Putting a type into an arena, with all that it is built from, takes such steps.** -/
theorem reached_materialize (ha : s.Reached a) (h : s.materialize a id = .ok (i, b)) :
    s.Reached b :=
  reached_materializeTo ha h

/-! ## Sizes -/

/-- What a place holds of a declared type: the type in full, with its size, and with the offsets and
sizes of its members. -/
structure Stored (s : Source) (a : Arena) (id : Ident) (i : TypeIdx) : Prop where
  inside : i < a.entries.length
  tree : s.tree id = .ok (a.tree i)
  size : a.size? i = s.sizeOf id
  members : ∀ name ms b, s.graph.types.get? id = some (.struct name ms b) →
    ∃ name' ds, a.desc? i = some (.struct name' ds) ∧
      ds.map MemberDesc.slot = ms.map (s.declaredSlot s.sizeOf)

/-- The members of a struct that is in the arena in full are those of the declared struct. -/
theorem Holds.members_eq (h : s.Holds a) (hs : s.Ordered) (hi : i < a.entries.length)
    (ht : s.tree id = .ok (a.tree i)) {name : Option String} {ms : List MemberDecl} {b : Bool}
    (hd : s.graph.types.get? id = some (.struct name ms b)) :
    ∃ name' ds, a.desc? i = some (.struct name' ds) ∧
      ds.map MemberDesc.slot = ms.map (s.declaredSlot s.sizeOf) := by
  have he := List.getElem?_eq_getElem hi
  obtain ⟨decl, desc, hd', hoperands, hlayer, -, htree⟩ := tree_eq_ok hs ht
  obtain rfl : decl = .struct name ms b := Option.some.inj (hd'.symm.trans hd)
  obtain ⟨ds, rfl, hslots⟩ := layer_struct hlayer
  rw [h.tree_eq he, TypeTree.node.injEq] at htree
  have hmembers := congrArg TypeDesc.members? htree
  rw [TypeDesc.members?_map, ← h.members?_eq he] at hmembers
  obtain ⟨found, hfound, rfl⟩ := Option.map_eq_some_iff.mp hmembers
  obtain ⟨desc, hdesc, hfound⟩ := Option.bind_eq_some_iff.mp hfound
  rw [List.map_map] at hslots
  cases desc with
  | struct name' found' =>
    cases hfound
    refine ⟨name', found, hdesc, Eq.trans hslots (List.map_congr_left fun m hm => ?_)⟩
    obtain ⟨u, hu⟩ := hoperands m.type (List.mem_map_of_mem (f := MemberDecl.type) hm)
    rw [declaredSlot, ← memberSize_of_tree hs hu, hu]
    rfl
  | _ => cases hfound

/-- **What is in the arena in full is there with its sizes.** -/
theorem Holds.stored (h : s.Holds a) (hs : s.Ordered) (hi : i < a.entries.length)
    (ht : s.tree id = .ok (a.tree i)) : s.Stored a id i where
  inside := hi
  tree := ht
  size := (h.size?_eq hi).trans (size?_of_tree hs ht)
  members _ _ _ hd := h.members_eq hs hi ht hd

/-- **Every declared type that has a place is there with its sizes.** -/
theorem Reached.stored (hs : s.Ordered) (h : s.Reached a) (hi : a.places.get? id = some i) :
    s.Stored a id i :=
  have hplaced := (h.holds hs).placed id i hi
  (h.holds hs).stored hs hplaced.1 hplaced.2

/-- Interning adds no other place than the one it gives. -/
theorem lt_of_intern {u : Bool} {key : TypeDesc TypeIdx} {size : Option Nat} {j : TypeIdx}
    (h : a.intern u key size = (i, b)) (hj : j < b.entries.length) :
    j < a.entries.length ∨ j = i := by
  rcases Arena.intern_cases h with ⟨rfl, -⟩ | ⟨rfl, -, e, names, -, -, -, rfl⟩
  · exact .inl hj
  · rw [List.length_append, List.length_singleton] at hj
    exact (Nat.lt_succ_iff_lt_or_eq.mp hj)

/-- Every place of an arena that is reached is that of a declared type, or of an image together with
a sampler. -/
theorem Reached.tree_cases (hs : s.Ordered) (h : s.Reached a) (hi : i < a.entries.length) :
    (∃ id, s.tree id = .ok (a.tree i)) ∨
      ∃ image, a.tree i = .node (.combinedImageSampler image) := by
  induction h generalizing i with
  | empty => exact absurd hi (Nat.not_lt_zero i)
  | put h hd hp ih =>
    obtain ⟨desc, size, c, -, -, hintern, rfl⟩ := put_eq_ok hp
    rcases lt_of_intern hintern hi with hlt | rfl
    · rw [(extends_put hp).tree_eq hlt]
      exact ih hlt
    · exact .inl ⟨_, ((h.holds hs).of_put hs hd hp).2.2⟩
  | combined h hlt hintern ih =>
    rcases lt_of_intern hintern hi with hold | rfl
    · rw [(Arena.extends_intern hintern).tree_eq hold]
      exact ih hold
    · exact .inr ⟨_, ((h.holds hs).of_combined hlt hintern).2.2⟩

/-- **Every size in an arena that is reached is that of a declared type**, or absent as that of an
image together with a sampler. -/
theorem Reached.sizes (hs : s.Ordered) (h : s.Reached a) (hi : i < a.entries.length) :
    (∃ id, s.Stored a id i) ∨
      ∃ image, a.tree i = .node (.combinedImageSampler image) ∧ a.size? i = none := by
  rcases h.tree_cases hs hi with ⟨id, ht⟩ | ⟨image, ht⟩
  · exact .inl ⟨id, (h.holds hs).stored hs hi ht⟩
  · refine .inr ⟨image, ht, ?_⟩
    rw [(h.holds hs).size?_eq hi, ht]
    rfl

end ShaderReflect.Source
