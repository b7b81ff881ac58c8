import ShaderReflect.Proofs.Layout.Concretization

/-!
# What the arena keeps

* `Arena.Extends`: entries, their sizes and the places of declared types never change. No call does
  more than append (`extends_intern`, `extends_materialize`), whatever the arena.
* `Source.Holds`: references point backwards, sizes are those of the types written out, and every
  declared type that has a place is there in full.
* `Holds.describe`, `Holds.intern`: a type is described as recursion over its operands describes it,
  and interning keeps the invariant.
-/

namespace ShaderReflect

/-! ## Arenas that grow -/

/-- The reported description is the key, or differs from it in the name of a struct. -/
def ArenaEntry.Faithful (uniqueNames : Bool) (e : ArenaEntry) : Prop :=
  e.desc = e.key ∨ uniqueNames = true ∧
    ∃ name name' ms, e.key = .struct name ms ∧ e.desc = .struct name' ms

namespace Arena

variable {a b c : Arena} {u : Bool} {key : TypeDesc TypeIdx} {size : Option Nat} {i : TypeIdx}

/-- The descriptions by which the places are found. -/
def keys (a : Arena) : List (TypeDesc TypeIdx) := a.entries.map (·.key)

/-- The type at a place, written out. -/
def tree (a : Arena) : TypeIdx → TypeTree := TypeTree.ofDescs a.keys

/-- Nothing that is in the first arena is changed in the second one. -/
structure Extends (a b : Arena) : Prop where
  entries : a.entries <+: b.entries
  places : ∀ id i, a.places.get? id = some i → b.places.get? id = some i

theorem Extends.refl (a : Arena) : a.Extends a := ⟨List.prefix_refl _, fun _ _ h => h⟩

theorem Extends.trans (h : a.Extends b) (h' : b.Extends c) : a.Extends c :=
  ⟨h.entries.trans h'.entries, fun id i hi => h'.places id i (h.places id i hi)⟩

theorem Extends.length_le (h : a.Extends b) : a.entries.length ≤ b.entries.length :=
  h.entries.length_le

/-- A place keeps the type that it stands for. -/
theorem Extends.tree_eq (h : a.Extends b) (hi : i < a.entries.length) : b.tree i = a.tree i :=
  unfolded_of_isPrefix (h.entries.map _) (by rw [List.length_map]; exact hi)

theorem faithful_nameStruct (names : NameTable) (i : TypeIdx) (size : Option Nat) :
    ArenaEntry.Faithful true ⟨key, (nameStruct names i key).1, size⟩ := by
  cases key with
  | struct name ms => exact Or.inr ⟨rfl, _, _, _, rfl, rfl⟩
  | _ => exact Or.inl rfl

/-- What interning can do: find an entry with the key, or append one. -/
theorem intern_cases (h : a.intern u key size = (i, b)) :
    (b = a ∧ ∃ e, a.entries[i]? = some e ∧ e.key = key) ∨
    (i = a.entries.length ∧ key ∉ a.keys ∧ ∃ e names, e.key = key ∧ e.size = size ∧
      e.Faithful u ∧ b = { a with entries := a.entries ++ [e], names }) := by
  unfold intern at h
  split at h
  · rename_i j hj
    cases h
    obtain ⟨hlt, hkey, -⟩ := List.findIdx?_eq_some_iff_getElem.mp hj
    exact Or.inl ⟨rfl, a.entries[i], List.getElem?_eq_getElem hlt, of_decide_eq_true hkey⟩
  · rename_i hnone
    refine Or.inr ?_
    have hk : key ∉ a.keys := by
      intro hm
      obtain ⟨e, he, rfl⟩ := List.mem_map.mp hm
      have := List.findIdx?_eq_none_iff.mp hnone e he
      simp at this
    cases u with
    | false =>
      cases h
      exact ⟨rfl, hk, _, _, rfl, rfl, Or.inl rfl, rfl⟩
    | true =>
      cases h
      exact ⟨rfl, hk, _, _, rfl, rfl, faithful_nameStruct _ _ _, rfl⟩

theorem extends_intern (h : a.intern u key size = (i, b)) : a.Extends b := by
  rcases intern_cases h with ⟨rfl, -⟩ | ⟨-, -, e, names, -, -, -, rfl⟩
  · exact .refl b
  · exact ⟨List.prefix_append _ _, fun _ _ h => h⟩

end Arena

namespace Source

variable {s : Source} {a b : Arena} {id : Ident} {decl : TypeDecl} {i : TypeIdx}

/-- What putting a type into the arena can do: intern its description and note its place. -/
theorem put_eq_ok (h : s.put a id decl = .ok (i, b)) :
    ∃ desc size c, s.describe a id decl = .ok desc ∧ desc.size a.size? = .ok size ∧
      a.intern s.uniqueNames desc size = (i, c) ∧
      b = { c with places := c.places.insertFirst id i } := by
  obtain ⟨desc, hdesc, h⟩ := bind_eq_ok_iff.mp h
  obtain ⟨size, hsize, h⟩ := bind_eq_ok_iff.mp h
  cases h
  exact ⟨desc, size, _, liftM_fault_eq_ok_iff.mp hdesc, liftM_overflow_eq_ok_iff.mp hsize, rfl, rfl⟩

theorem extends_insertFirst (a : Arena) (id : Ident) (i : TypeIdx) :
    a.Extends { a with places := a.places.insertFirst id i } := by
  refine ⟨List.prefix_refl _, fun x j hj => ?_⟩
  show (a.places.insertFirst id i).get? x = some j
  rw [Table.get?_insertFirst]
  split
  · rename_i hx
    rw [← hx, hj, Option.some_or]
  · exact hj

theorem extends_put (h : s.put a id decl = .ok (i, b)) : a.Extends b := by
  obtain ⟨desc, size, c, -, -, hi, rfl⟩ := put_eq_ok h
  exact (Arena.extends_intern hi).trans (extends_insertFirst c id i)

theorem isSome_place_put (h : s.put a id decl = .ok (i, b)) : (b.places.get? id).isSome := by
  obtain ⟨desc, size, c, -, -, -, rfl⟩ := put_eq_ok h
  show ((c.places.insertFirst id i).get? id).isSome
  rw [Table.get?_insertFirst, if_pos rfl, Option.isSome_or]
  simp

theorem place_eq_ok (h : a.place id = .ok i) : a.places.get? id = some i := by
  unfold Arena.place at h
  split at h
  · rename_i j hj
    cases h
    exact hj
  · cases h

/-- **Putting a type into an arena only appends**, whatever is in the arena. -/
theorem extends_materializeTo {d : Nat} (h : s.materializeTo d a id = .ok (i, b)) :
    a.Extends b := by
  induction d generalizing a id i b with
  | zero =>
    obtain ⟨j, -, h⟩ := bind_eq_ok_iff.mp h
    cases h
    exact .refl a
  | succ d ih =>
    unfold materializeTo at h
    split at h
    · cases h
      exact .refl a
    · obtain ⟨decl, -, h⟩ := bind_eq_ok_iff.mp h
      obtain ⟨c, hc, h⟩ := bind_eq_ok_iff.mp h
      have hac : a.Extends c := by
        refine foldlM_invariant hc (.refl a) fun o _ x y hx hy => ?_
        obtain ⟨⟨k, z⟩, hz, rfl⟩ := map_eq_ok_iff.mp hy
        exact hx.trans (ih hz)
      exact hac.trans (extends_put h)

theorem extends_materialize (h : s.materialize a id = .ok (i, b)) : a.Extends b :=
  extends_materializeTo h

theorem isSome_place_materializeTo {d : Nat} (h : s.materializeTo d a id = .ok (i, b)) :
    (b.places.get? id).isSome := by
  cases d with
  | zero =>
    obtain ⟨j, hj, h⟩ := bind_eq_ok_iff.mp h
    cases h
    rw [place_eq_ok (liftM_fault_eq_ok_iff.mp hj), Option.isSome_some]
  | succ d =>
    unfold materializeTo at h
    split at h
    · rename_i j hj
      cases h
      rw [hj, Option.isSome_some]
    · obtain ⟨decl, -, h⟩ := bind_eq_ok_iff.mp h
      obtain ⟨c, -, h⟩ := bind_eq_ok_iff.mp h
      exact isSome_place_put h

/-! ## What the arena keeps -/

/-- What an arena keeps: it refers backwards, its sizes are those of the types written out, and a
declared type that has a place is there in full. -/
structure Holds (s : Source) (a : Arena) : Prop where
  grounded : Grounded a.keys
  faithful : ∀ e ∈ a.entries, e.Faithful s.uniqueNames
  sized : ∀ (i : TypeIdx) e, a.entries[i]? = some e → e.size = (a.tree i).size?
  placed : ∀ id i, a.places.get? id = some i →
    i < a.entries.length ∧ s.tree id = .ok (a.tree i)

theorem holds_empty (s : Source) : s.Holds {} where
  grounded := grounded_nil
  faithful _ h := by cases h
  sized _ _ h := by cases h
  placed _ _ h := by cases h

theorem Holds.tree_eq (h : s.Holds a) {e : ArenaEntry} (hi : a.entries[i]? = some e) :
    a.tree i = .node (e.key.map a.tree) :=
  TypeTree.ofDescs_eq h.grounded (by rw [Arena.keys, List.getElem?_map, hi, Option.map_some])

theorem Holds.size?_eq (h : s.Holds a) (hi : i < a.entries.length) :
    a.size? i = (a.tree i).size? := by
  have he := List.getElem?_eq_getElem hi
  rw [Arena.size?, he, Option.bind_some]
  exact h.sized i _ he

/-- A place that is not a struct's is reported as it is found. -/
theorem Holds.desc?_eq (h : s.Holds a) {e : ArenaEntry} (hi : a.entries[i]? = some e)
    (hk : ∀ name ms, e.key ≠ .struct name ms) : a.desc? i = some e.key := by
  rw [Arena.desc?, hi, Option.map_some]
  rcases h.faithful e (List.mem_of_getElem? hi) with hd | ⟨-, name, name', ms, hs, -⟩
  · rw [hd]
  · exact absurd hs (hk name ms)

/-- The members of a struct are reported as they are found. -/
theorem Holds.members?_eq (h : s.Holds a) {e : ArenaEntry} (hi : a.entries[i]? = some e) :
    (a.desc? i).bind TypeDesc.members? = e.key.members? := by
  rw [Arena.desc?, hi, Option.map_some, Option.bind_some]
  rcases h.faithful e (List.mem_of_getElem? hi) with hd | ⟨-, name, name', ms, hk, hd⟩
  · rw [hd]
  · rw [hk, hd]
    rfl

theorem Holds.memberSize_eq (h : s.Holds a) (hi : i < a.entries.length) (m : MemberDecl) :
    memberSize a i m = (a.tree i).memberSize m := by
  have he := List.getElem?_eq_getElem hi
  have ht := h.tree_eq he
  have hs := h.size?_eq hi
  unfold memberSize TypeTree.memberSize
  cases hk : a.entries[i].key with
  | struct name ms =>
    have hd : ∃ name', a.desc? i = some (.struct name' ms) := by
      have hm := h.members?_eq he
      rw [hk] at hm
      obtain ⟨desc, hdesc, hms⟩ := Option.bind_eq_some_iff.mp hm
      cases desc with
      | struct name' ms' =>
        cases hms
        exact ⟨name', hdesc⟩
      | _ => cases hms
    obtain ⟨name', hd⟩ := hd
    rw [hd, hs, ht, hk]
    rfl
  | matrix column count =>
    have hd := h.desc?_eq he (by simp [hk])
    rw [hd, hk, ht, hk]
    cases m.matrixStride with
    | none =>
      rw [hs, ht, hk]
      rfl
    | some stride =>
      have hc : column < a.entries.length := by
        have := h.grounded i _ (by rw [Arena.keys, List.getElem?_map, he, Option.map_some, hk])
          column List.mem_cons_self
        exact Nat.lt_trans this hi
      have hce := List.getElem?_eq_getElem hc
      have hct := h.tree_eq hce
      have hcd : a.desc? column = some a.entries[column].desc := by
        rw [Arena.desc?, hce, Option.map_some]
      simp only [TypeDesc.map, hcd, hct]
      rcases h.faithful _ (List.getElem_mem hc) with hf | ⟨-, n, n', ms, hks, hds⟩
      · rw [hf]
        cases m.matrixOrder with
        | none => rfl
        | some order => cases order <;> cases a.entries[column].key <;> rfl
      · rw [hks, hds]
        cases m.matrixOrder with
        | none => rfl
        | some order => cases order <;> rfl
  | _ =>
    have hd := h.desc?_eq he (by simp [hk])
    rw [hd, hk, hs, ht, hk]
    rfl

/-! ## Describing a type -/

/-- All operands of a type have places, at which they are there in full. -/
def Operands (a : Arena) (operand : Ident → TypeTree) (ids : List Ident) : Prop :=
  ∀ o ∈ ids, ∃ i, a.places.get? o = some i ∧ operand o = a.tree i

variable {operand : Ident → TypeTree}

theorem place_of_get? (h : a.places.get? id = some i) : a.place id = .ok i := by
  rw [Arena.place, h]

theorem Holds.describeMembers (h : s.Holds a) {ms : List MemberDecl}
    (ho : Operands a operand (ms.map (·.type))) :
    ∃ places, (ms.mapM fun m => a.place m.type) = .ok places ∧
      (∀ i ∈ places, i < a.entries.length) ∧
      ∀ names : List (Option String),
        (((ms.zip places).zip names).map fun ((m, type), name) =>
          (describeMember a m type name).map a.tree) =
        (ms.zip names).map fun (m, name) => TypeTree.member m (operand m.type) name := by
  induction ms with
  | nil => exact ⟨[], rfl, fun _ hi => absurd hi List.not_mem_nil, fun _ => rfl⟩
  | cons m ms ih =>
    rw [List.map_cons] at ho
    obtain ⟨i, hi, ht⟩ := ho m.type List.mem_cons_self
    obtain ⟨places, hp, hlt, hn⟩ := ih fun o hm => ho o (List.mem_cons_of_mem _ hm)
    have hin := (h.placed m.type i hi).1
    refine ⟨i :: places, ?_, ?_, fun names => ?_⟩
    · rw [List.mapM_cons, place_of_get? hi, ok_bind, hp, ok_bind]
      rfl
    · intro j hj
      rcases List.mem_cons.mp hj with rfl | hj
      · exact hin
      · exact hlt j hj
    · cases names with
      | nil => rfl
      | cons name names =>
        simp only [List.zip_cons_cons, List.map_cons, hn names, List.cons.injEq, and_true]
        simp only [describeMember, MemberDesc.map, TypeTree.member, ht, h.memberSize_eq hin]

/-- **A description is that of the recursion**, once references are written out. -/
theorem Holds.describe (h : s.Holds a) (id : Ident) (ho : Operands a operand decl.operands) :
    (∃ desc, s.describe a id decl = .ok desc ∧ (∀ i ∈ desc.refs, i < a.entries.length) ∧
      s.layer operand id decl = .ok (desc.map a.tree)) ∨
    ∃ e, s.describe a id decl = .error e ∧ s.layer operand id decl = .error e := by
  have one : ∀ o, decl.operands = [o] →
      ∃ i, a.place o = .ok i ∧ i < a.entries.length ∧ operand o = a.tree i := by
    intro o hd
    obtain ⟨i, hi, ht⟩ := ho o (by rw [hd]; exact List.mem_cons_self)
    exact ⟨i, place_of_get? hi, (h.placed o i hi).1, ht⟩
  cases decl with
  | array element length stride =>
    obtain ⟨i, hi, hlt, ht⟩ := one element rfl
    cases hn : s.specialization.arrayLength s.graph length with
    | error e => exact Or.inr ⟨e, by simp [Source.describe, hi, hn], by simp [layer, hn]⟩
    | ok n =>
      refine Or.inl ⟨_, by simp only [Source.describe, hi, hn, ok_bind]; rfl, ?_, ?_⟩
      · simpa [TypeDesc.refs] using hlt
      · simp [layer, hn, ht, TypeDesc.map]
  | struct name ms b =>
    obtain ⟨places, hp, hlt, hn⟩ := h.describeMembers ho
    refine Or.inl ⟨_, by simp only [Source.describe, Source.describeMembers, hp, ok_bind]; rfl,
      ?_, ?_⟩
    · intro i hi
      simp only [TypeDesc.refs, List.map_map, List.mem_map] at hi
      obtain ⟨p, hp, rfl⟩ := hi
      exact hlt _ (List.of_mem_zip (List.of_mem_zip hp).1).2
    · simp only [layer, TypeDesc.map, List.map_map]
      rw [← hn]
      rfl
  | unreported => exact Or.inr ⟨_, rfl, rfl⟩
  | void | bool | int | float | deviceAddress | sampler | accelStruct =>
    exact Or.inl ⟨_, rfl, fun _ hi => absurd hi List.not_mem_nil, rfl⟩
  | vector o | matrix o | runtimeArray o | image o | sampledImage o | pointer _ o =>
    obtain ⟨i, hi, hlt, ht⟩ := one o rfl
    refine Or.inl ⟨_, by simp only [Source.describe, hi, ok_bind]; rfl, ?_, ?_⟩
    · simpa [TypeDesc.refs] using hlt
    · simp [layer, ht, TypeDesc.map]

/-! ## Interning keeps the invariant -/

theorem tree_append_length (a : Arena) (e : ArenaEntry) (names : NameTable) :
    Arena.tree { a with entries := a.entries ++ [e], names } a.entries.length =
      .node (e.key.map a.tree) := by
  show TypeTree.ofDescs ((a.entries ++ [e]).map (·.key)) a.entries.length = _
  rw [List.map_append]
  have h := unfolded_concat_length (fun desc f => TypeTree.node (desc.map f)) TypeTree.dangling
    (a.entries.map (·.key)) e.key
  rw [List.length_map] at h
  exact h

/-- **Interning keeps the invariant**, and gives the place of what is interned. -/
theorem Holds.intern (h : s.Holds a) {key : TypeDesc TypeIdx} {size : Option Nat}
    (hrefs : ∀ i ∈ key.refs, i < a.entries.length)
    (hsize : size = (TypeTree.node (key.map a.tree)).size?)
    (hi : a.intern s.uniqueNames key size = (i, b)) :
    s.Holds b ∧ i < b.entries.length ∧ b.tree i = .node (key.map a.tree) := by
  have hext := Arena.extends_intern hi
  rcases Arena.intern_cases hi with ⟨rfl, e, he, hk⟩ | ⟨rfl, -, e, names, hk, hs, hf, rfl⟩
  · exact ⟨h, (List.getElem?_eq_some_iff.mp he).1, by rw [h.tree_eq he, hk]⟩
  · have hnew := tree_append_length a e names
    rw [hk] at hnew
    refine ⟨⟨?_, ?_, ?_, ?_⟩, by simp, hnew⟩
    · have hrefs' : ∀ i ∈ e.key.refs, i < (a.entries.map (·.key)).length := by
        rw [hk, List.length_map]
        exact hrefs
      show Grounded ((a.entries ++ [e]).map (·.key))
      rw [List.map_append]
      exact grounded_concat h.grounded hrefs'
    · intro x hx
      rcases List.mem_append.mp hx with hx | hx
      · exact h.faithful x hx
      · rw [List.mem_singleton.mp hx]
        exact hf
    · intro j x hx
      rcases Nat.lt_or_ge j a.entries.length with hlt | hge
      · rw [hext.tree_eq hlt]
        exact h.sized j x (by rw [← hx, List.getElem?_append_left hlt])
      · have hj : j = a.entries.length := by
          have := (List.getElem?_eq_some_iff.mp hx).1
          rw [List.length_append, List.length_singleton] at this
          exact Nat.le_antisymm (Nat.le_of_lt_succ this) hge
        subst hj
        rw [List.getElem?_concat_length, Option.some.injEq] at hx
        rw [hnew, ← hx, hs, hsize]
    · intro x j hj
      obtain ⟨hlt, ht⟩ := h.placed x j hj
      exact ⟨Nat.lt_of_lt_of_le hlt hext.length_le, by rw [hext.tree_eq hlt]; exact ht⟩

/-- The place of a declared type can be noted where the type is there in full. -/
theorem Holds.insertFirst (h : s.Holds a) (hi : i < a.entries.length)
    (ht : s.tree id = .ok (a.tree i)) :
    s.Holds { a with places := a.places.insertFirst id i } := by
  refine ⟨h.grounded, h.faithful, h.sized, fun x j hj => ?_⟩
  rw [Table.get?_insertFirst] at hj
  split at hj
  · rename_i hx
    subst hx
    cases hold : a.places.get? x with
    | none =>
      rw [hold, Option.none_or, Option.some.injEq] at hj
      subst hj
      exact ⟨hi, ht⟩
    | some k =>
      rw [hold, Option.some_or, Option.some.injEq] at hj
      subst hj
      exact h.placed x k hold
  · exact h.placed x j hj

end Source

end ShaderReflect
