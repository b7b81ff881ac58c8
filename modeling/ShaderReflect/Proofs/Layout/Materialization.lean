import ShaderReflect.Proofs.Layout.Invariant

/-!
# Types in the arena are those written out

A run that puts types into an arena is compared with the recursion that writes them out
(`Source.tree`).

* `View`: how the result of a run on an arena is read.
* `Realizes`: a run on an arena ends as the recursion does, with the same result once references
  are written out, or with the same stop.
* `realizes_materialize`: putting a type into the arena realizes `Source.tree`.

Whatever a reflection does with an arena is compared in this way, for one variable as for a whole
entry point (`Proofs/Stage/Trees`). The stop is part of the comparison: the arena may not hide a
fault, or bring one forward.
-/

namespace ShaderReflect

/-! ## Runs that do what recursion says -/

/-- How something refers to types: its references, and what it is with them written out. -/
structure Referring (α β : Type) where
  refs : α → List TypeIdx
  map : (TypeIdx → TypeTree) → α → β
  map_congr : ∀ {f g : TypeIdx → TypeTree} {x : α}, (∀ i ∈ refs x, f i = g i) → map f x = map g x

namespace Referring

variable {α β γ δ : Type}

/-- A reference by itself. -/
def type : Referring TypeIdx TypeTree where
  refs i := [i]
  map f i := f i
  map_congr h := h _ List.mem_cons_self

/-- Something that is a part of something else. -/
def comap (x : Referring α β) (part : γ → α) : Referring γ β where
  refs r := x.refs (part r)
  map f r := x.map f (part r)
  map_congr := x.map_congr

/-- The items of a list. -/
def list (x : Referring α β) : Referring (List α) (List β) where
  refs items := items.flatMap x.refs
  map f items := items.map (x.map f)
  map_congr h := List.map_congr_left fun item hitem => x.map_congr fun i hi =>
    h i (List.mem_flatMap.mpr ⟨item, hitem, hi⟩)

/-- Two things together. -/
def both (x : Referring α β) (y : Referring γ δ) : Referring (α × γ) (β × δ) where
  refs r := x.refs r.1 ++ y.refs r.2
  map f r := (x.map f r.1, y.map f r.2)
  map_congr h := Prod.ext (x.map_congr fun i hi => h i (List.mem_append_left _ hi))
    (y.map_congr fun i hi => h i (List.mem_append_right _ hi))

end Referring

/-- How the result of a run on an arena is read: how it refers to types, and the arena that it
refers to. -/
structure View (ρ β : Type) extends Referring ρ β where
  arena : ρ → Arena

/-- The result of a run that gives back the arena as the second of two things. -/
def Referring.run {α β : Type} (x : Referring α β) : View (α × Arena) β where
  toReferring := x.comap Prod.fst
  arena := Prod.snd

namespace View

variable {ρ β : Type}

/-- A result with its references written out. -/
def tree (v : View ρ β) (r : ρ) : β := v.map (v.arena r).tree r

/-- The arena of a result keeps what it has to, and the references of the result lead into it. -/
structure Sound (v : View ρ β) (s : Source) (r : ρ) : Prop where
  holds : s.Holds (v.arena r)
  inside : ∀ i ∈ v.refs r, i < (v.arena r).entries.length

/-- What a view shows does not change while the arena grows. -/
theorem Sound.tree_eq {v : View ρ β} {s : Source} {r : ρ} {b : Arena} (hr : v.Sound s r)
    (h : (v.arena r).Extends b) : v.tree r = v.map b.tree r :=
  v.map_congr fun i hi => (h.tree_eq (hr.inside i hi)).symm

/-- References lead into every arena that the arena of the result has grown to. -/
theorem Sound.lt_length {v : View ρ β} {s : Source} {r : ρ} {b : Arena} (hr : v.Sound s r)
    (h : (v.arena r).Extends b) {i : TypeIdx} (hi : i ∈ v.refs r) : i < b.entries.length :=
  Nat.lt_of_lt_of_le (hr.inside i hi) h.length_le

end View

/-- A run that starts with an arena ends as a computation without one: both with a result, which is
the same once references are written out, or both with the same stop. The run only appends. -/
def Realizes {ρ β : Type} (v : View ρ β) (s : Source) (a : Arena) (x : Except Stop ρ)
    (y : Except Stop β) : Prop :=
  match x, y with
  | .ok r, .ok t => v.Sound s r ∧ a.Extends (v.arena r) ∧ v.tree r = t
  | .error e, .error e' => e = e'
  | _, _ => False

namespace Realizes

variable {ρ β ρ' β' ζ : Type} {v : View ρ β} {w : View ρ' β'} {s : Source} {a b : Arena}
  {x : Except Stop ρ} {y : Except Stop β}

/-- The cases of a run that does what recursion says. -/
theorem cases (h : Realizes v s a x y) :
    (∃ r, x = .ok r ∧ y = .ok (v.tree r) ∧ v.Sound s r ∧ a.Extends (v.arena r)) ∨
    ∃ e, x = .error e ∧ y = .error e := by
  match x, y, h with
  | .ok r, .ok t, ⟨hr, hext, ht⟩ => exact Or.inl ⟨r, rfl, by rw [ht], hr, hext⟩
  | .error e, .error e', h => exact Or.inr ⟨e, rfl, by rw [h]⟩

theorem of_extends (hab : a.Extends b) (h : Realizes v s b x y) : Realizes v s a x y := by
  rcases h.cases with ⟨r, rfl, rfl, hr, hext⟩ | ⟨e, rfl, rfl⟩
  · exact ⟨hr, hab.trans hext, rfl⟩
  · rfl

/-- A run that leaves the arena as it is. -/
theorem result {r : ρ} (hr : v.Sound s r) : Realizes v s (v.arena r) (.ok r) (.ok (v.tree r)) :=
  ⟨hr, .refl _, rfl⟩

theorem bind {f : ρ → Except Stop ρ'} {g : β → Except Stop β'} (h : Realizes v s a x y)
    (hf : ∀ r, v.Sound s r → a.Extends (v.arena r) →
      Realizes w s (v.arena r) (f r) (g (v.tree r))) :
    Realizes w s a (x >>= f) (y >>= g) := by
  rcases h.cases with ⟨r, rfl, rfl, hr, hext⟩ | ⟨e, rfl, rfl⟩
  · exact (hf r hr hext).of_extends hext
  · rfl

/-- What a run ends with can be looked at in another way. -/
theorem map {f : ρ → ρ'} {g : β → β'} (h : Realizes v s a x y) (hf : ∀ r, v.Sound s r →
    a.Extends (v.arena r) → w.Sound s (f r) ∧ w.arena (f r) = v.arena r ∧
      w.tree (f r) = g (v.tree r)) : Realizes w s a (f <$> x) (g <$> y) := by
  rcases h.cases with ⟨r, rfl, rfl, hr, hext⟩ | ⟨e, rfl, rfl⟩
  · obtain ⟨hw, harena, htree⟩ := hf r hr hext
    exact ⟨hw, by rw [harena]; exact hext, htree⟩
  · rfl

/-- A step that does not look at the arena is the same on both sides. -/
theorem bind_fault {z : Except Fault ζ} {f : ζ → Except Stop ρ} {g : ζ → Except Stop β}
    (h : ∀ r, z = .ok r → Realizes v s a (f r) (g r)) :
    Realizes v s a (liftM z >>= f) (liftM z >>= g) := by
  cases z with
  | ok r => exact h r rfl
  | error e => rfl

end Realizes

namespace Source

variable {s : Source} {a : Arena} {id : Ident} {decl : TypeDecl} {operand : Ident → TypeTree}

/-- **Putting a type into the arena**, once its operands are there, is to write it out. -/
theorem Holds.put (h : s.Holds a) (ho : Operands a operand decl.operands)
    (ht : s.tree id = do
      let desc ← s.layer operand id decl
      let _ ← desc.size TypeTree.size?
      return .node desc) :
    Realizes Referring.type.run s a (s.put a id decl) (s.tree id) := by
  rcases h.describe id ho with ⟨desc, hdesc, hrefs, hlayer⟩ | ⟨e, hdesc, hlayer⟩
  · have hsize : desc.size a.size? = (desc.map a.tree).size TypeTree.size? := by
      rw [TypeDesc.size_map]
      exact TypeDesc.size_congr fun i hi => h.size?_eq (hrefs i hi)
    rw [hlayer, liftM_fault_ok, ok_bind, ← hsize] at ht
    cases hn : desc.size a.size? with
    | error e =>
      rw [hn] at ht
      rw [ht, Source.put, hdesc, liftM_fault_ok, ok_bind, hn]
      rfl
    | ok size =>
      have htree : s.tree id = .ok (.node (desc.map a.tree)) := by
        rw [ht, hn]
        rfl
      have hexact : size = (TypeTree.node (desc.map a.tree)).size? :=
        TypeTree.size_eq_of_ok (by rw [← hsize, hn])
      rw [htree, Source.put, hdesc, liftM_fault_ok, ok_bind, hn, liftM_overflow_ok, ok_bind]
      rcases hi : a.intern s.uniqueNames desc size with ⟨i, b⟩
      obtain ⟨hb, hlt, hbt⟩ := h.intern hrefs hexact hi
      have hplace : s.tree id = .ok (b.tree i) := by rw [htree, hbt]
      refine ⟨⟨hb.insertFirst hlt hplace, fun j hj => ?_⟩,
        (Arena.extends_intern hi).trans (extends_insertFirst b id i), hbt⟩
      rw [List.mem_singleton.mp hj]
      exact hlt
  · rw [hlayer] at ht
    rw [ht, Source.put, hdesc]
    rfl

/-- A declared type that has a place is there in full. -/
theorem Holds.treeOf_eq (h : s.Holds a) (hp : (a.places.get? id).isSome) :
    ∃ i, a.places.get? id = some i ∧ treeOf (s.tree id) = a.tree i := by
  obtain ⟨i, hi⟩ := Option.isSome_iff_exists.mp hp
  exact ⟨i, hi, by rw [(h.placed id i hi).2]; rfl⟩

/-- Operands are put into the arena one after the other as they are written out. -/
theorem Holds.foldlM_materializeTo {d : Nat} {ids : List Ident} (ha : s.Holds a)
    (hstep : ∀ o ∈ ids, ∀ b, s.Holds b →
      Realizes Referring.type.run s b (s.materializeTo d b o) (s.tree o)) :
    (∃ b, ids.foldlM (fun a o => Prod.snd <$> s.materializeTo d a o) a = .ok b ∧
      (ids.forM fun o => discard (s.tree o)) = .ok () ∧ s.Holds b ∧ a.Extends b ∧
      Operands b (fun o => treeOf (s.tree o)) ids) ∨
    ∃ e, ids.foldlM (fun a o => Prod.snd <$> s.materializeTo d a o) a = .error e ∧
      (ids.forM fun o => discard (s.tree o)) = .error e := by
  induction ids generalizing a with
  | nil => exact Or.inl ⟨a, rfl, rfl, ha, .refl a, fun _ h => absurd h List.not_mem_nil⟩
  | cons o ids ih =>
    have hcons : ((o :: ids).forM fun o => discard (s.tree o)) =
        (discard (s.tree o) >>= fun _ => ids.forM fun o => discard (s.tree o)) := rfl
    rw [List.foldlM_cons, hcons]
    rcases (hstep o List.mem_cons_self a ha).cases with
      ⟨⟨i, b⟩, hx, hy, ⟨hb, -⟩, hab⟩ | ⟨e, hx, hy⟩
    · rw [hx, hy]
      have hstep' := fun x hx => hstep x (List.mem_cons_of_mem o hx)
      rcases ih hb hstep' with ⟨c, hc, hu, hhc, hbc, hops⟩ | ⟨e, hc, hu⟩
      · refine Or.inl ⟨c, hc, hu, hhc, hab.trans hbc, fun x hxm => ?_⟩
        rcases List.mem_cons.mp hxm with rfl | hxm
        · obtain ⟨j, hj⟩ := Option.isSome_iff_exists.mp (isSome_place_materializeTo hx)
          exact hhc.treeOf_eq (by rw [hbc.places x j hj]; rfl)
        · exact hops x hxm
      · exact Or.inr ⟨e, hc, hu⟩
    · rw [hx, hy]
      exact Or.inr ⟨e, rfl, rfl⟩

/-- A type that comes after `d` others at most is reached in `d` steps. The induction is on the
types that come before it. -/
theorem realizes_materializeTo (hs : s.Ordered) {ids : List Ident}
    (ho : TypeOrder.Ordered s.graph.types ids) (hsub : ids ⊆ s.graph.typeOrder) (hid : id ∈ ids)
    {d : Nat} (hd : ids.length ≤ d) (ha : s.Holds a) :
    Realizes Referring.type.run s a (s.materializeTo d a id) (s.tree id) := by
  induction ids generalizing id d a with
  | nil => cases hid
  | cons x before ih =>
    obtain ⟨⟨decl, hdecl, hops⟩, hb⟩ := ho
    rw [List.length_cons] at hd
    rcases List.mem_cons.mp hid with rfl | hid
    · obtain ⟨n, rfl⟩ := Nat.exists_eq_add_of_lt (Nat.lt_of_lt_of_le (Nat.succ_pos _) hd)
      rw [Nat.zero_add]
      unfold materializeTo
      cases hplace : a.places.get? id with
      | some i =>
        obtain ⟨hlt, ht⟩ := ha.placed id i hplace
        rw [ht]
        refine Realizes.result (v := Referring.type.run) (r := (i, a)) ⟨ha, fun j hj => ?_⟩
        rw [List.mem_singleton.mp hj]
        exact hlt
      | none =>
        have hgraph : s.graph.type id = .ok decl := by simp only [Graph.type, hdecl]
        have htree := tree_eq hs (hsub List.mem_cons_self)
        rw [treeFrom, hgraph, liftM_fault_ok, ok_bind] at htree
        have hstep : ∀ o ∈ decl.operands.reverse, ∀ b, s.Holds b →
            Realizes Referring.type.run s b (s.materializeTo n b o) (s.tree o) := fun o hm b hhb =>
          ih hb (List.subset_of_cons_subset hsub) (hops o (List.mem_reverse.mp hm)) (by omega) hhb
        simp only [hgraph, liftM_fault_ok, ok_bind]
        rcases ha.foldlM_materializeTo hstep with ⟨b, hfold, hu, hhb, hab, hopd⟩ | ⟨e, hfold, hu⟩
        · rw [hu, ok_bind] at htree
          rw [hfold, ok_bind]
          refine (hhb.put (fun o hm => hopd o (List.mem_reverse.mpr hm)) htree).of_extends hab
        · rw [hu] at htree
          rw [hfold, htree]
          rfl
    · exact ih hb (List.subset_of_cons_subset hsub) hid (by omega) ha

/-- A type that is not declared can neither be put into the arena nor be written out. -/
theorem realizes_materialize_of_undeclared (ha : s.Holds a) (h : s.graph.types.get? id = none) :
    Realizes Referring.type.run s a (s.materialize a id) (s.tree id) := by
  have hnone : a.places.get? id = none := by
    cases hp : a.places.get? id with
    | none => rfl
    | some i =>
      have ht := (ha.placed id i hp).2
      unfold tree at ht
      cases hn : s.graph.typeOrder.length with
      | zero =>
        rw [hn] at ht
        cases ht
      | succ n => simp [hn, treeTo, treeFrom, Graph.type, h] at ht
  unfold materialize tree
  cases s.graph.typeOrder.length with
  | zero => simp [materializeTo, treeTo, Arena.place, hnone, Realizes]
  | succ n => simp [materializeTo, treeTo, treeFrom, Graph.type, h, hnone, Realizes]

/-- **Putting a type into the arena is to write it out.** -/
theorem realizes_materialize (hs : s.Ordered) (ha : s.Holds a) (id : Ident) :
    Realizes Referring.type.run s a (s.materialize a id) (s.tree id) := by
  cases h : s.graph.types.get? id with
  | none => exact realizes_materialize_of_undeclared ha h
  | some decl =>
    have hkey : id ∈ s.graph.types.keys := by
      rw [Table.mem_keys_iff, Table.contains, h, Option.isSome_some]
    exact realizes_materializeTo hs hs.ordered (fun _ hx => List.mem_reverse.mp hx)
      (List.mem_reverse.mpr (hs.all id hkey)) (by simp) ha

/-- A run that goes on after putting a type into the arena. -/
theorem realizes_bind_materialize {ρ β : Type} {v : View ρ β} {f : TypeIdx × Arena → Except Stop ρ}
    {g : TypeTree → Except Stop β} (hs : s.Ordered) (ha : s.Holds a)
    (h : ∀ i b, s.Holds b → a.Extends b → i < b.entries.length →
      Realizes v s b (f (i, b)) (g (b.tree i))) :
    Realizes v s a (s.materialize a id >>= f) (s.tree id >>= g) :=
  (realizes_materialize hs ha id).bind fun ⟨i, b⟩ hr hext =>
    h i b hr.holds hext (hr.inside i List.mem_cons_self)

end Source

end ShaderReflect
