import ShaderReflect.Proofs.Layout.Stack
import ShaderReflect.Proofs.Reflection

/-!
# Putting types into the arena refines recursion

What a declared type is can be said by recursion alone, with no arena, no order of types and no
depth: a type is made of what its operands are (`Source.Spells`). A type that is not reported, and
an array whose length cannot be told, are nothing (`Source.Unreportable`), and neither is what is
built from them.

* `Source.Spells.unique`, `Source.spells_of_tree`: a type is one thing at most, and what is written
  out is what the type is.
* `Source.exists_unreportable`: if writing out fails, it is for a type that is not reportable.
* `Source.Reached.placed`: in an arena that is reached, all that a type with a place is built from
  has a place.
* `Source.materialize_refines`: so putting a type into an arena that is reached ends, fails for
  types that are not reportable only, and otherwise gives what the type is.

Specification, 4.6 (bottom-up, no recursion over the type graph). What is put in is any declared
type of the graph of a binary, at any time: the arena may hold what any number of calls have put
there, and types that share places with the new one. Sizes have a ceiling, so whether a call fails
is told if nothing overflows (`Source.Fits`); the other parts need no such assumption.
-/

namespace ShaderReflect

open Relation (ReflTransGen)
open TypeOrder (Task Uses)

namespace Source

variable {s : Source} {a b : Arena} {id o root : Ident} {i : TypeIdx} {decl : TypeDecl}
  {t u : TypeTree} {f : Fault} {operand : Ident → TypeTree}

/-! ## What a type is -/

/-- A declared type is this, if each operand is what is said about it. -/
inductive Spells (s : Source) : Ident → TypeTree → Prop
  | made {id : Ident} {decl : TypeDecl} {operand : Ident → TypeTree} {desc : TypeDesc TypeTree}
      (hd : s.graph.types.get? id = some decl) (ho : ∀ o ∈ decl.operands, s.Spells o (operand o))
      (h : s.layer operand id decl = .ok desc) : s.Spells id (.node desc)

/-- A declared type cannot be reported by itself, whatever it is built from, and this is why. -/
inductive Unreportable (s : Source) : Ident → Fault → Prop
  | unreported {id : Ident} (hd : s.graph.types.get? id = some .unreported) :
      s.Unreportable id (.unsupported (.type id))
  | length {id element length : Ident} {stride : Option Word} {f : Fault}
      (hd : s.graph.types.get? id = some (.array element length stride))
      (h : s.specialization.arrayLength s.graph length = .error f) : s.Unreportable id f

/-- **A type is one thing at most.** -/
theorem Spells.unique (h : s.Spells id t) (h' : s.Spells id u) : t = u := by
  induction h generalizing u with
  | made hd ho hlayer ih =>
    cases h' with
    | made hd' ho' hlayer' =>
      rw [hd] at hd'
      cases hd'
      rw [layer_congr fun o hmem => ih o hmem (ho' o hmem), hlayer'] at hlayer
      cases hlayer
      rfl

/-- A device address is a leaf, whatever it points to. -/
theorem spells_deviceAddress {pointee : Ident}
    (hd : s.graph.types.get? id = some (.deviceAddress pointee)) :
    s.Spells id t ↔ t = .node .deviceAddress := by
  have hoperands : ∀ o ∈ (TypeDecl.deviceAddress pointee).operands, s.Spells o ((fun _ => t) o) :=
    fun o ho => absurd ho List.not_mem_nil
  have hleaf : s.Spells id (.node .deviceAddress) := .made hd hoperands rfl
  constructor
  · intro h
    exact h.unique hleaf
  · rintro rfl
    exact hleaf

/-- **What is written out is what the type is.** -/
theorem spells_of_tree (hs : s.Ordered) (h : s.tree id = .ok t) : s.Spells id t := by
  obtain ⟨decl, -, hd, -⟩ := tree_eq_ok hs h
  refine hs.induction (P := fun id => ∀ t, s.tree id = .ok t → s.Spells id t) ?_ hd t h
  intro id decl hd ih t h
  obtain ⟨decl', desc, hd', hoperands, hlayer, -, rfl⟩ := tree_eq_ok hs h
  obtain rfl : decl = decl' := Option.some.inj (hd.symm.trans hd')
  refine .made hd (fun o ho => ?_) hlayer
  obtain ⟨u, hu⟩ := hoperands o ho
  rw [hu]
  exact ih o ho u hu

/-! ## What cannot be reported -/

/-- A layer fails exactly if the type is not reportable. -/
theorem layer_eq_error_iff (hd : s.graph.types.get? id = some decl) :
    s.layer operand id decl = .error f ↔ s.Unreportable id f := by
  constructor
  · intro h
    cases decl with
    | array element length stride =>
      cases hn : s.specialization.arrayLength s.graph length with
      | error e =>
        simp only [layer, hn, error_bind] at h
        cases h
        exact .length hd hn
      | ok n =>
        simp only [layer, hn] at h
        cases h
    | unreported =>
      cases h
      exact .unreported hd
    | _ => cases h
  · intro h
    cases h with
    | unreported hd' =>
      rw [hd] at hd'
      cases hd'
      rfl
    | length hd' hn =>
      rw [hd] at hd'
      cases hd'
      simp only [layer, hn, error_bind]

/-- **If writing out fails, it is for a type that is not reportable**, the type itself or one that
it is built from. -/
theorem exists_unreportable (hs : s.Ordered) (hd : s.graph.types.get? id = some decl)
    (h : s.tree id = .error (.fault f)) :
    ∃ o, ReflTransGen (Uses s.graph.types) id o ∧ s.Unreportable o f := by
  refine hs.induction (P := fun id => s.tree id = .error (.fault f) →
    ∃ o, ReflTransGen (Uses s.graph.types) id o ∧ s.Unreportable o f) ?_ hd h
  intro id decl hd ih h
  rw [tree_eq hs (hs.mem_typeOrder hd), treeFrom, Graph.type_eq_ok_iff.mpr hd, liftM_fault_ok,
    ok_bind] at h
  cases hoperands : decl.operands.reverse.forM fun o => discard (s.tree o) with
  | error e =>
    rw [hoperands] at h
    cases h
    obtain ⟨o, ho, hfails⟩ := exists_of_forM_eq_error hoperands
    have ho := List.mem_reverse.mp ho
    obtain ⟨x, hpath, hx⟩ := ih o ho (eq_error_of_discard hfails)
    exact ⟨x, .head ⟨decl, hd, ho⟩ hpath, hx⟩
  | ok _ =>
    rw [hoperands, ok_bind] at h
    cases hlayer : s.layer (fun o => treeOf (s.tree o)) id decl with
    | error e =>
      rw [hlayer] at h
      cases h
      exact ⟨id, .refl, (layer_eq_error_iff hd).mp hlayer⟩
    | ok desc =>
      rw [hlayer, liftM_fault_ok, ok_bind] at h
      cases hsize : desc.size TypeTree.size? with
      | ok n => simp [hsize] at h
      | error e =>
        rw [hsize] at h
        cases h

/-- A type is not written out if it is built from one that is not reportable. -/
theorem not_unreportable_of_tree (hs : s.Ordered) (h : s.tree id = .ok t)
    (hpath : ReflTransGen (Uses s.graph.types) id o) : ¬ s.Unreportable o f := by
  induction hpath using ReflTransGen.head_induction_on generalizing t with
  | refl =>
    intro hfails
    obtain ⟨decl, desc, hd, -, hlayer, -⟩ := tree_eq_ok hs h
    rw [(layer_eq_error_iff hd).mpr hfails] at hlayer
    cases hlayer
  | head huses _ ih =>
    obtain ⟨u, hu⟩ := exists_tree_of_uses hs h huses
    exact ih hu

/-- That a type has no place yet is no reason. -/
theorem Unreportable.ne_notMaterialized (h : s.Unreportable id f) (o : Ident) :
    f ≠ .corrupted (.notMaterialized o) := by
  cases h with
  | unreported => simp
  | @length _ length _ _ _ h =>
    rintro rfl
    unfold Specialization.arrayLength at h
    cases hsource : s.graph.lengthSource length with
    | error e =>
      simp only [hsource, error_bind, Except.error.injEq] at h
      subst h
      unfold Graph.lengthSource Graph.constant at hsource
      cases hc : s.graph.constants.get? length with
      | none => simp [hc] at hsource
      | some c =>
        simp only [hc, ok_bind] at hsource
        split at hsource <;> cases hsource
    | ok source =>
      simp only [hsource, ok_bind] at h
      split at h <;> cases h

/-! ## Places -/

/-- In an arena that is reached, operands of types with places have places. -/
theorem Reached.placed_of_uses (h : s.Reached a) (hid : (a.places.get? id).isSome)
    (huses : Uses s.graph.types id o) : (a.places.get? o).isSome := by
  obtain ⟨decl, hd, ho⟩ := huses
  induction h with
  | empty => cases hid
  | @put a b x decl' i _ hx hp ih =>
    have hkeep : (a.places.get? o).isSome → (b.places.get? o).isSome := fun ho => by
      obtain ⟨j, hj⟩ := Option.isSome_iff_exists.mp ho
      rw [(extends_put hp).places o j hj]
      rfl
    by_cases hxid : id = x
    · subst hxid
      rw [hd] at hx
      cases hx
      obtain ⟨desc, -, -, hdesc, -⟩ := put_eq_ok hp
      obtain ⟨j, hj⟩ := exists_place_of_describe hdesc o ho
      exact hkeep (by rw [hj]; rfl)
    · rw [places_of_put hp, Table.get?_insertFirst, if_neg hxid] at hid
      exact hkeep (ih hid)
  | combined _ _ hi ih =>
    rw [places_of_intern hi] at hid ⊢
    exact ih hid

/-- **In an arena that is reached, all that a type with a place is built from has a place**, and
what is there is what the type is. -/
theorem Reached.placed (hs : s.Ordered) (h : s.Reached a) (hid : (a.places.get? id).isSome)
    (hpath : ReflTransGen (Uses s.graph.types) id o) :
    ∃ j < a.entries.length, a.places.get? o = some j ∧ s.Spells o (a.tree j) := by
  have ho : (a.places.get? o).isSome := by
    induction hpath with
    | refl => exact hid
    | tail _ huses ih => exact h.placed_of_uses ih huses
  obtain ⟨j, hj⟩ := Option.isSome_iff_exists.mp ho
  obtain ⟨hlt, htree⟩ := (h.holds hs).placed o j hj
  exact ⟨j, hlt, hj, spells_of_tree hs htree⟩

/-! ## The result -/

/-- What putting a type into the arena gives: a place at which the type is what it is by recursion,
in an arena that is reached and has places for all that the type is built from. What is reported at
a place differs from what is found there in the name of a struct only, and does not differ if names
are not asked for. -/
structure Concretized (s : Source) (root : Ident) (i : TypeIdx) (b : Arena) : Prop where
  reached : s.Reached b
  place : b.places.get? root = some i
  placed : ∀ o, ReflTransGen (Uses s.graph.types) root o →
    ∃ j < b.entries.length, b.places.get? o = some j ∧ s.Spells o (b.tree j)
  exact : ∀ t, s.Spells root t ↔ b.tree i = t
  faithful : ∀ e ∈ b.entries, e.Faithful s.uniqueNames
  reported : s.uniqueNames = false → TypeTree.ofDescs b.types i = b.tree i

theorem concretized_of_materialize (hs : s.Ordered) (ha : s.Reached a)
    (h : s.materialize a root = .ok (i, b)) : s.Concretized root i b := by
  have hb := reached_materialize ha h
  have hplace := place_of_materializeTo hs h
  have hspells := spells_of_tree hs ((hb.holds hs).placed root i hplace).2
  refine ⟨hb, hplace, fun o hpath => hb.placed hs (by rw [hplace]; rfl) hpath, fun t => ?_,
    (hb.holds hs).faithful, fun hu => ?_⟩
  · constructor
    · intro ht
      exact hspells.unique ht
    · rintro rfl
      exact hspells
  · rw [(hb.holds hs).types_eq hu]
    rfl

/-- **Putting a type into the arena refines recursion.** In an arena that is reached, putting in a
declared type from a stack ends, in one way, and it ends as the recursion does. What it fails with
is that the type, or one it is built from, is not reportable; so it is never that a type has no
place. If nothing overflows, it fails exactly if there is such a type. If it does not fail, all that
the type is built from has got a place, and what is found at the place that is given back is what
the type is. There, a device address is a leaf. -/
theorem materialize_refines {words : List Word} (hg : Graph.ofWords words = .ok s.graph)
    (ha : s.Reached a) (hroot : root ∈ s.graph.types.keys) :
    (∃ x, (∀ y, s.Ends [.enter root] a y ↔ x = y) ∧ s.materialize a root = do
      let b ← x
      let i ← b.place root
      return (i, b)) ∧
    (∀ f, s.materialize a root = .error (.fault f) →
      (∃ o, ReflTransGen (Uses s.graph.types) root o ∧ s.Unreportable o f) ∧
      ∀ o, f ≠ .corrupted (.notMaterialized o)) ∧
    (s.Fits root → ((∃ e, s.materialize a root = .error e) ↔
      ∃ o f, ReflTransGen (Uses s.graph.types) root o ∧ s.Unreportable o f)) ∧
    (∀ i b, s.materialize a root = .ok (i, b) → s.Concretized root i b) ∧
    ∀ id pointee t, s.graph.types.get? id = some (.deviceAddress pointee) →
      (s.Spells id t ↔ t = .node .deviceAddress) := by
  have hs : s.Ordered := Graph.orders_of_ofWords hg
  obtain ⟨decl, hd⟩ := Option.isSome_iff_exists.mp (Table.mem_keys_iff.mp hroot)
  have hfault : ∀ f, s.materialize a root = .error (.fault f) →
      ∃ o, ReflTransGen (Uses s.graph.types) root o ∧ s.Unreportable o f := by
    intro f h
    rcases (realizes_materialize hs (ha.holds hs) root).cases with ⟨r, hr, -⟩ | ⟨e, he, htree⟩
    · rw [h] at hr
      cases hr
    · rw [h] at he
      cases he
      exact exists_unreportable hs hd htree
  refine ⟨?_, fun f h => ⟨hfault f h, fun o => ?_⟩, fun hfits => ⟨?_, ?_⟩,
    fun i b h => concretized_of_materialize hs ha h, fun id pointee t hd => spells_deviceAddress hd⟩
  · obtain ⟨x, hx, heq⟩ := ends_materialize hs hd a
    refine ⟨x, fun y => ⟨hx.unique, ?_⟩, heq⟩
    rintro rfl
    exact hx
  · obtain ⟨x, -, hx⟩ := hfault f h
    exact hx.ne_notMaterialized o
  · rintro ⟨e, he⟩
    cases e with
    | fault f =>
      obtain ⟨o, ho⟩ := hfault f he
      exact ⟨o, f, ho⟩
    | overflow e =>
      rcases (realizes_materialize hs (ha.holds hs) root).cases with ⟨r, hr, -⟩ | ⟨e', he', htree⟩
      · rw [he] at hr
        cases hr
      · rw [he] at he'
        cases he'
        exact absurd htree (tree_ne_overflow hs hfits e)
  · rintro ⟨o, f, hpath, hfails⟩
    rcases (realizes_materialize hs (ha.holds hs) root).cases with ⟨r, -, htree, -⟩ | ⟨e, he, -⟩
    · exact absurd hfails (not_unreportable_of_tree hs htree hpath)
    · exact ⟨e, he⟩

/-- A node of a linked list, with the address of the next one. A struct has some nodes, as many as a
constant says, and one struct holds a function, which is not reportable. -/
def linkedWords : List Word :=
  [magicNumber, 0x10300, 0, 10, 0] ++ ([
    ⟨71, [5, 1, 0]⟩, ⟨72, [3, 0, 35, 0]⟩, ⟨72, [3, 1, 35, 8]⟩,
    ⟨22, [1, 32]⟩, ⟨39, [2, 5349]⟩, ⟨30, [3, 1, 2]⟩, ⟨32, [2, 5349, 3]⟩, ⟨21, [4, 32, 0]⟩,
    ⟨50, [4, 5, 4]⟩, ⟨28, [6, 3, 5]⟩, ⟨30, [7, 6, 2, 3]⟩, ⟨33, [8, 1]⟩,
    ⟨30, [9, 7, 8]⟩] : List Instruction).flatMap Instruction.words

set_option maxRecDepth 100000 in
/-- With two nodes, the struct of nodes is put into an arena that has a node, and what a function is
part of is not. -/
theorem sample_materialize_refines : ∃ (s : Source) (a : Arena),
    Graph.ofWords linkedWords = .ok s.graph ∧
    (Specialization.apply s.graph [⟨0, [2, 0, 0, 0]⟩]).result = .ok s.specialization ∧
    s.Reached a ∧ (a.places.get? 3).isSome ∧ s.Fits 7 ∧
    (∃ i b, s.materialize a 7 = .ok (i, b) ∧ .array 2 2 none ∈ b.types ∧ s.Concretized 7 i b) ∧
    (¬ ∃ o f, ReflTransGen (Uses s.graph.types) 7 o ∧ s.Unreportable o f) ∧
    s.materialize a 9 = .error (.fault (.unsupported (.type 8))) ∧
    ∃ o, ReflTransGen (Uses s.graph.types) 9 o ∧ s.Unreportable o (.unsupported (.type 8)) := by
  obtain ⟨g, hg, hany⟩ := exists_eq_ok_of_any (x := Graph.ofWords linkedWords)
    (p := fun g => (Specialization.apply g [⟨0, [2, 0, 0, 0]⟩]).result.toOption.any fun σ =>
      (Source.materialize ⟨g, σ, true⟩ {} 3).toOption.any fun r =>
        ((Source.materialize ⟨g, σ, true⟩ r.2 7).toOption.any fun q =>
          .array 2 2 none ∈ q.2.types) &&
        decide (Prod.fst <$> Source.materialize ⟨g, σ, true⟩ r.2 9 =
          .error (.fault (.unsupported (.type 8)))) &&
        decide (7 ∈ g.types.keys ∧ 9 ∈ g.types.keys))
    (by decide +kernel)
  obtain ⟨σ, hσ, hany⟩ := exists_eq_ok_of_any hany
  obtain ⟨⟨i, a⟩, hnode, hany⟩ := exists_eq_ok_of_any hany
  simp only [Bool.and_eq_true, decide_eq_true_eq] at hany
  obtain ⟨⟨hlist, hfails⟩, hkey, hkey'⟩ := hany
  obtain ⟨⟨j, b⟩, hlist, htypes⟩ := exists_eq_ok_of_any hlist
  have hfails : Source.materialize ⟨g, σ, true⟩ a 9 = .error (.fault (.unsupported (.type 8))) := by
    cases h : Source.materialize ⟨g, σ, true⟩ a 9 <;> simp_all
  have ha : Source.Reached ⟨g, σ, true⟩ a := reached_materialize .empty hnode
  obtain ⟨-, -, hiff, hgives, -⟩ := materialize_refines (s := ⟨g, σ, true⟩) hg ha hkey
  obtain ⟨-, hfault, -⟩ := materialize_refines (s := ⟨g, σ, true⟩) hg ha hkey'
  have hs : Source.Ordered ⟨g, σ, true⟩ := Graph.orders_of_ofWords hg
  have hgiven := hgives j b hlist
  have hfits : Source.Fits ⟨g, σ, true⟩ 7 :=
    fits_of_tree hs ((hgiven.reached.holds hs).placed 7 j hgiven.place).2
  refine ⟨⟨g, σ, true⟩, a, hg, hσ, ha, ?_, hfits, ⟨j, b, hlist, of_decide_eq_true htypes, hgiven⟩,
    fun hex => ?_, hfails, (hfault _ hfails).1⟩
  · rw [place_of_materializeTo hs hnode]
    rfl
  · obtain ⟨e, he⟩ := (hiff hfits).mpr hex
    rw [hlist] at he
    cases he

end Source

end ShaderReflect
