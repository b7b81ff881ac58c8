import ShaderReflect.Proofs.Layout.Materialization
import ShaderReflect.Proofs.Stage.EntryPoint

/-!
# Entry points with types written out

What is said about an entry point does not depend on the arena that its types go into. The
functions here say the same things without an arena, with every type written out: `descriptorTree`,
`pushConstantTree`, `interfaceTrees` and `specConstantTree` speak about one variable or constant
each, and `assembleTree` about an entry point.

* `realizes_assemble`: assembling an entry point realizes `assembleTree`, from any arena on.
* `exists_items_assembleTree`, `mem_map_descriptors_assembleTree`, `assembleTree_replace`: the part
  of the resources in it.

The functions follow those of `Stage/Assembly` one by one and fail where these fail, in the same
order. What they leave out is the arena, and with it the order in which types are put in.
-/

namespace ShaderReflect

/-- The members of a struct that is written out. -/
def TypeTree.members? : TypeTree → Option (List (MemberDesc TypeTree))
  | .node desc => desc.members?
  | .dangling _ => none

namespace Source

/-! ## Without an arena -/

/-- The push constant block of a variable. -/
def pushConstantTree (s : Source) (id : Ident) (v : Variable) :
    Except Stop (PushConstant TypeTree) := do
  let type ← s.tree (← s.graph.pointee v)
  match type.members? with
  | some members =>
    return { id, type, members, name := s.graph.annotations.name? id none, size := type.size? }
  | none => throw (.fault (.corrupted (.pushConstantNotStruct id)))

/-- The descriptor of a resource variable. -/
def descriptorTree (s : Source) (pairing : Pairing) (id : Ident) (v : Variable) :
    Except Stop (Option (Descriptor TypeTree)) := do
  if id ∈ pairing.removed then
    return none
  let unwrapped ← s.unwrap (← s.graph.pointee v)
  let decl ← s.graph.type unwrapped.type
  match ← descriptorKind? s.graph id v.storage (pairing.isCombined id) decl with
  | none => return none
  | some kind =>
    let image ← s.tree unwrapped.type
    let isCombined : Bool :=
      match decl with
      | .image _ _ => kind = .combinedImageSampler
      | _ => false
    return some {
      id, kind, isCombined
      type := if isCombined then .node (.combinedImageSampler image) else image
      set := (s.graph.annotations.decorationWord? id none Decoration.descriptorSet).getD 0
      binding := (s.graph.annotations.decorationWord? id none Decoration.binding).getD 0
      name := s.graph.annotations.name? id none
      dims := unwrapped.dims
      isUnbounded := unwrapped.isUnbounded }

/-- What a resource variable adds to the descriptors and to the push constant blocks. -/
def resourceTrees (s : Source) (pairing : Pairing) (id : Ident) :
    Except Stop (List (Descriptor TypeTree) × List (PushConstant TypeTree)) := do
  let v ← s.graph.globalVar id
  if v.storage = .pushConstant then
    return ([], [← s.pushConstantTree id v])
  else
    return ((← s.descriptorTree pairing id v).toList, [])

/-- What a variable adds to the inputs and to the outputs. -/
def interfaceTrees (s : Source) (id : Ident) :
    Except Stop (List (InterfaceVar TypeTree) × List (InterfaceVar TypeTree)) := do
  let v ← s.graph.globalVar id
  match s.graph.annotations.decorationWord? id none Decoration.location with
  | none => return ([], [])
  | some location =>
    let type ← s.tree (← s.graph.pointee v)
    let item : InterfaceVar TypeTree := {
      id, location, type
      name := s.graph.annotations.name? id none
      component := (s.graph.annotations.decorationWord? id none Decoration.component).getD 0 }
    return if v.storage = .input then ([item], []) else ([], [item])

/-- A constant that can be overridden. -/
def specConstantTree (s : Source) (c : SpecConstant) : Except Stop (SpecConstantVar TypeTree) := do
  return { c with type := ← s.tree c.type }

/-- All first lists, and all second lists. -/
def joinBoth {α β : Type} (ts : List (List α × List β)) : List α × List β :=
  (ts.flatMap Prod.fst, ts.flatMap Prod.snd)

/-- What is said about an entry point. -/
def assembleTree (s : Source) (e : EntryPointDecl) (reach : Reach) (pairing : Pairing) :
    Except Stop (EntryPoint TypeTree) := do
  let resources ← joinBoth <$> reach.resources.ids.mapM (s.resourceTrees pairing)
  let interface ← joinBoth <$> reach.interface.mapM s.interfaceTrees
  let specConstants ← s.specialization.specConstants.mapM s.specConstantTree
  let workgroupSize ← s.workgroupSize e
  let whole : EntryPoint TypeTree := {
    name := e.name
    model := e.model
    function := e.function
    interface := e.interface
    modes := (s.graph.annotations.modesOf e.function).map s.mode
    workgroupSize
    resources := reach.resources.ids
    descriptors := sortByOrder Descriptor.order resources.1
    pushConstants := resources.2
    inputs := sortByOrder InterfaceVar.order interface.1
    outputs := sortByOrder InterfaceVar.order interface.2
    specConstants }
  return if s.uniqueNames then whole.withUniqueNames else whole

end Source

/-! ## How the results of the stages refer to types -/

namespace Referring

/-- A block of push constants. -/
def pushConstant : Referring (PushConstant TypeIdx) (PushConstant TypeTree) where
  refs := PushConstant.refs
  map f p := p.map f
  map_congr := PushConstant.map_congr

/-- A descriptor. -/
def descriptor : Referring (Descriptor TypeIdx) (Descriptor TypeTree) where
  refs d := [d.type]
  map f d := d.map f
  map_congr h := Descriptor.map_congr (h _ List.mem_cons_self)

/-- A descriptor that may be absent. -/
def descriptor? : Referring (Option (Descriptor TypeIdx)) (Option (Descriptor TypeTree)) where
  refs d := d.toList.map (·.type)
  map f d := d.map (·.map f)
  map_congr {f g d} h := by
    cases d with
    | none => rfl
    | some d => rw [Option.map_some, Option.map_some, Descriptor.map_congr (h _ List.mem_cons_self)]

/-- An interface variable. -/
def interfaceVar : Referring (InterfaceVar TypeIdx) (InterfaceVar TypeTree) where
  refs v := [v.type]
  map f v := v.map f
  map_congr h := InterfaceVar.map_congr (h _ List.mem_cons_self)

/-- A constant that can be overridden. -/
def specConstant : Referring (SpecConstantVar TypeIdx) (SpecConstantVar TypeTree) where
  refs c := [c.type]
  map f c := c.map f
  map_congr h := SpecConstantVar.map_congr (h _ List.mem_cons_self)

/-- An entry point. -/
def entryPoint : Referring (EntryPoint TypeIdx) (EntryPoint TypeTree) where
  refs e := e.refs
  map f e := e.map f
  map_congr := EntryPoint.map_congr

end Referring

namespace View

/-- The resources so far. -/
def resources : View Source.Resources
    (List (Descriptor TypeTree) × List (PushConstant TypeTree)) where
  toReferring := (Referring.descriptor.list.both Referring.pushConstant.list).comap
    fun r => (r.descriptors, r.pushConstants)
  arena r := r.arena

/-- The interface so far. -/
def interface : View Source.Interface
    (List (InterfaceVar TypeTree) × List (InterfaceVar TypeTree)) where
  toReferring := (Referring.interfaceVar.list.both Referring.interfaceVar.list).comap
    fun r => (r.inputs, r.outputs)
  arena r := r.arena

end View

/-! ## Lists that get longer -/

/-- A run over a list, each step of which adds to the result what is said about one item. -/
theorem Realizes.foldlM {ρ β γ δ : Type} {v : View ρ β} {s : Source} {f : ρ → γ → Except Stop ρ}
    (xs : List γ) (g : γ → Except Stop δ) (add : β → δ → β)
    (hstep : ∀ x ∈ xs, ∀ r, v.Sound s r →
      Realizes v s (v.arena r) (f r x) (add (v.tree r) <$> g x))
    {r : ρ} (hr : v.Sound s r) :
    Realizes v s (v.arena r) (xs.foldlM f r) ((·.foldl add (v.tree r)) <$> xs.mapM g) := by
  induction xs generalizing r with
  | nil => exact .result hr
  | cons x xs ih =>
    have hsplit : ((·.foldl add (v.tree r)) <$> (x :: xs).mapM g) =
        (add (v.tree r) <$> g x) >>= fun b => (·.foldl add b) <$> xs.mapM g := by
      rw [List.mapM_cons]
      cases g x with
      | error e => rfl
      | ok t =>
        rw [ok_bind, map_ok, ok_bind]
        cases xs.mapM g with
        | error e => rfl
        | ok ts => rfl
    rw [List.foldlM_cons, hsplit]
    exact (hstep x List.mem_cons_self r hr).bind fun r' hr' _ =>
      ih (fun y hy => hstep y (List.mem_cons_of_mem x hy)) hr'

/-- Two lists, each with another one after it. -/
def appendBoth {α β : Type} (x y : List α × List β) : List α × List β := (x.1 ++ y.1, x.2 ++ y.2)

theorem foldl_appendBoth {α β : Type} (ts : List (List α × List β)) (x : List α × List β) :
    ts.foldl appendBoth x = appendBoth x (Source.joinBoth ts) := by
  induction ts generalizing x with
  | nil => simp [appendBoth, Source.joinBoth]
  | cons t ts ih => simp [ih, appendBoth, Source.joinBoth]

/-- A run whose result has two lists in it makes these lists longer. -/
theorem Realizes.appendBoth {ρ α α' β β' : Type} {x : Referring α α'} {y : Referring β β'}
    {lists : ρ → List α × List β} {arena : ρ → Arena} {s : Source} {r r' : ρ}
    {more' : List α' × List β'} (more : List α × List β)
    (hr : View.Sound ⟨(x.list.both y.list).comap lists, arena⟩ s r) (hb : s.Holds (arena r'))
    (hext : (arena r).Extends (arena r'))
    (hlists : lists r' = ShaderReflect.appendBoth (lists r) more)
    (hin : ∀ i ∈ (x.list.both y.list).refs more, i < (arena r').entries.length)
    (hmore : (x.list.both y.list).map (arena r').tree more = more') :
    Realizes ⟨(x.list.both y.list).comap lists, arena⟩ s (arena r') (.ok r')
      (.ok (ShaderReflect.appendBoth
        (View.tree ⟨(x.list.both y.list).comap lists, arena⟩ r) more')) := by
  subst hmore
  refine ⟨⟨hb, fun i hi => ?_⟩, .refl _, ?_⟩
  · simp only [Referring.comap, Referring.both, Referring.list, hlists, ShaderReflect.appendBoth,
      List.flatMap_append, List.mem_append] at hi
    rcases hi with (hi | hi) | (hi | hi)
    · exact hr.lt_length hext (List.mem_append_left _ hi)
    · exact hin i (List.mem_append_left _ hi)
    · exact hr.lt_length hext (List.mem_append_right _ hi)
    · exact hin i (List.mem_append_right _ hi)
  · rw [hr.tree_eq hext]
    simp only [View.tree, Referring.comap, Referring.both, Referring.list, hlists,
      ShaderReflect.appendBoth, List.map_append]

namespace Source

variable {s : Source} {a : Arena} {id : Ident} {v : Variable} {pairing : Pairing}

/-! ## Resources -/

/-- The members of a struct in the arena are those of the struct written out, and refer into the
arena. -/
theorem Holds.members (h : s.Holds a) {i : TypeIdx} (hi : i < a.entries.length) :
    (a.tree i).members? = ((a.desc? i).bind TypeDesc.members?).map (List.map (·.map a.tree)) ∧
    ∀ ms, (a.desc? i).bind TypeDesc.members? = some ms → ∀ m ∈ ms, m.type < a.entries.length := by
  have he := List.getElem?_eq_getElem hi
  rw [h.members?_eq he, h.tree_eq he]
  refine ⟨TypeDesc.members?_map a.tree _, fun ms hms m hm => ?_⟩
  have hkey : a.keys[i]? = some a.entries[i].key := by
    rw [Arena.keys, List.getElem?_map, he, Option.map_some]
  cases hk : a.entries[i].key with
  | struct name ms' =>
    rw [hk] at hms hkey
    cases hms
    exact Nat.lt_trans (h.grounded i _ hkey m.type (List.mem_map_of_mem hm)) hi
  | _ =>
    rw [hk] at hms
    cases hms

theorem realizes_pushConstant (hs : s.Ordered) (ha : s.Holds a) :
    Realizes Referring.pushConstant.run s a (s.pushConstant a id v) (s.pushConstantTree id v) := by
  unfold pushConstant pushConstantTree
  refine .bind_fault fun p _ => realizes_bind_materialize hs ha fun i b hb _ hi => ?_
  obtain ⟨hms, hlt⟩ := hb.members hi
  simp only [hms]
  cases hm : (b.desc? i).bind TypeDesc.members? with
  | none => rfl
  | some ms =>
    refine ⟨⟨hb, fun j hj => ?_⟩, .refl b, ?_⟩
    · rcases List.mem_cons.mp hj with rfl | hj
      · exact hi
      · obtain ⟨m, hm', rfl⟩ := List.mem_map.mp hj
        exact hlt ms hm m hm'
    · show PushConstant.map b.tree _ = _
      simp only [PushConstant.map, hb.size?_eq hi]

theorem realizes_descriptor (hs : s.Ordered) (ha : s.Holds a) :
    Realizes Referring.descriptor?.run s a (s.descriptor? pairing a id v).result
      (s.descriptorTree pairing id v) := by
  unfold descriptor? descriptorTree
  split
  · exact ⟨⟨ha, fun i hi => absurd hi List.not_mem_nil⟩, .refl a, rfl⟩
  · simp only [Traced.result_bind, Traced.result_liftM_fault]
    refine .bind_fault fun p _ => .bind_fault fun unwrapped _ => .bind_fault fun decl _ =>
      .bind_fault fun kind? _ => ?_
    cases kind? with
    | none => exact ⟨⟨ha, fun i hi => absurd hi List.not_mem_nil⟩, .refl a, rfl⟩
    | some kind =>
      simp only [Traced.result_bind, Traced.result_liftM_stop]
      refine realizes_bind_materialize hs ha fun i b hb _ hi => ?_
      cases decl with
      | image unit form =>
        by_cases hk : kind = .combinedImageSampler
        · subst hk
          rcases hc : b.intern s.uniqueNames (.combinedImageSampler i) none with ⟨k, c⟩
          have hrefs : ∀ j ∈ (TypeDesc.combinedImageSampler i).refs, j < b.entries.length := by
            intro j hj
            rw [List.mem_singleton.mp hj]
            exact hi
          obtain ⟨hhc, hlt, htree⟩ :=
            hb.intern hrefs (by simp only [TypeDesc.map, TypeTree.size?]) hc
          simp only [decide_true, if_true]
          refine ⟨⟨hhc, fun j hj => ?_⟩, Arena.extends_intern hc, ?_⟩
          · rw [List.mem_singleton.mp hj]
            exact hlt
          · show some (Descriptor.map c.tree _) = _
            simp only [Descriptor.map, htree, TypeDesc.map]
        · simp only [hk, decide_false]
          exact ⟨⟨hb, fun j hj => by rw [List.mem_singleton.mp hj]; exact hi⟩, .refl b, rfl⟩
      | _ => exact ⟨⟨hb, fun j hj => by rw [List.mem_singleton.mp hj]; exact hi⟩, .refl b, rfl⟩

theorem realizes_addResource (hs : s.Ordered) {r : Resources} (hr : View.resources.Sound s r) :
    Realizes View.resources s r.arena (s.addResource pairing r id).result
      (appendBoth (View.resources.tree r) <$> s.resourceTrees pairing id) := by
  unfold addResource resourceTrees
  simp only [Traced.result_bind, Traced.result_liftM_fault, map_bind]
  refine .bind_fault fun v _ => ?_
  split
  · simp only [Traced.result_bind, Traced.result_liftM_stop, map_bind]
    refine (realizes_pushConstant hs hr.holds).bind fun ⟨p, b⟩ hp hext => ?_
    refine .appendBoth ([], [p]) hr hp.holds hext ?_ ?_ rfl
    · simp only [appendBoth, List.append_nil]
    · intro i hi
      rcases List.mem_append.mp hi with hi | hi
      · cases hi
      · obtain ⟨q, hq, hi⟩ := List.mem_flatMap.mp hi
        rw [List.mem_singleton.mp hq] at hi
        exact hp.inside i hi
  · simp only [Traced.result_bind, map_bind]
    refine (realizes_descriptor hs hr.holds).bind fun ⟨d?, b⟩ hd hext => ?_
    refine .appendBoth (d?.toList, []) hr hd.holds hext ?_ ?_ ?_
    · simp only [appendBoth, List.append_nil]
    · intro i hi
      rcases List.mem_append.mp hi with hi | hi
      · refine hd.inside i ?_
        cases d? with
        | none => cases hi
        | some d => exact hi
      · cases hi
    · cases d? <;> rfl

theorem realizes_addInterfaceVar (hs : s.Ordered) {r : Interface}
    (hr : View.interface.Sound s r) :
    Realizes View.interface s r.arena (s.addInterfaceVar r id)
      (appendBoth (View.interface.tree r) <$> s.interfaceTrees id) := by
  unfold addInterfaceVar interfaceTrees
  simp only [map_bind]
  refine .bind_fault fun v _ => ?_
  cases s.graph.annotations.decorationWord? id none Decoration.location with
  | none =>
    refine .appendBoth ([], []) hr hr.holds (.refl _) ?_ (fun _ h => by cases h) rfl
    simp only [appendBoth, List.append_nil]
  | some location =>
    simp only [map_bind]
    refine .bind_fault fun p _ => realizes_bind_materialize hs hr.holds fun i b hb hext hi => ?_
    let item : InterfaceVar TypeIdx := {
      id, location, type := i
      name := s.graph.annotations.name? id none
      component := (s.graph.annotations.decorationWord? id none Decoration.component).getD 0 }
    split
    · refine .appendBoth ([item], []) hr hb hext ?_ ?_ rfl
      · simp only [appendBoth, List.append_nil, item]
      · intro j hj
        rw [List.mem_singleton.mp hj]
        exact hi
    · refine .appendBoth ([], [item]) hr hb hext ?_ ?_ rfl
      · simp only [appendBoth, List.append_nil, item]
      · intro j hj
        rw [List.mem_singleton.mp hj]
        exact hi

theorem realizes_specConstantVars (hs : s.Ordered) (ha : s.Holds a) (cs : List SpecConstant) :
    Realizes Referring.specConstant.list.run s a (s.specConstantVars a cs)
      (cs.mapM s.specConstantTree) := by
  induction cs generalizing a with
  | nil => exact ⟨⟨ha, fun i hi => absurd hi List.not_mem_nil⟩, .refl a, rfl⟩
  | cons c cs ih =>
    rw [List.mapM_cons]
    unfold specConstantVars specConstantTree
    simp only [bind_assoc]
    refine realizes_bind_materialize hs ha fun i b hb _ hi => ?_
    refine (ih hb).bind fun ⟨rest, c⟩ hr hext => ?_
    refine ⟨⟨hr.holds, fun j hj => ?_⟩, .refl _, ?_⟩
    · rcases List.mem_append.mp hj with hj | hj
      · rw [List.mem_singleton.mp hj]
        exact Nat.lt_of_lt_of_le hi hext.length_le
      · exact hr.inside j hj
    · rw [← hext.tree_eq hi]
      rfl

/-! ## Entry points -/

theorem realizes_resources (hs : s.Ordered) (ha : s.Holds a) (ids : List Ident) :
    Realizes View.resources s a
      (ids.foldlM (fun r id => (s.addResource pairing r id).result) { arena := a })
      (joinBoth <$> ids.mapM (s.resourceTrees pairing)) := by
  have h := Realizes.foldlM ids (s.resourceTrees pairing) appendBoth (r := { arena := a })
    (fun _ _ _ hr => realizes_addResource hs hr)
    ⟨ha, fun i hi => absurd hi List.not_mem_nil⟩
  simp only [foldl_appendBoth] at h
  exact h

theorem realizes_interface (hs : s.Ordered) (ha : s.Holds a) (ids : List Ident) :
    Realizes View.interface s a (s.interface a ids) (joinBoth <$> ids.mapM s.interfaceTrees) := by
  have h := Realizes.foldlM ids s.interfaceTrees appendBoth (r := { arena := a })
    (fun _ _ _ hr => realizes_addInterfaceVar hs hr)
    ⟨ha, fun i hi => absurd hi List.not_mem_nil⟩
  simp only [foldl_appendBoth] at h
  exact h

/-- Giving names to an entry point, if that is asked for, does not change how it refers to types. -/
theorem sound_entryPoint {e : EntryPoint TypeIdx} (h : Referring.entryPoint.run.Sound s (e, a)) :
    Realizes Referring.entryPoint.run s a
      (.ok (if s.uniqueNames then e.withUniqueNames else e, a))
      (.ok (if s.uniqueNames then (e.map a.tree).withUniqueNames else e.map a.tree)) := by
  split
  · refine ⟨⟨h.holds, fun i hi => ?_⟩, .refl a, EntryPoint.map_withUniqueNames a.tree e⟩
    have hrefs : i ∈ e.withUniqueNames.refs := hi
    rw [EntryPoint.refs_withUniqueNames] at hrefs
    exact h.inside i hrefs
  · exact .result h

/-- **Assembling an entry point is to say the same things with types written out**, whatever is in
the arena already. -/
theorem realizes_assemble (hs : s.Ordered) (ha : s.Holds a) (e : EntryPointDecl) (reach : Reach) :
    Realizes Referring.entryPoint.run s a (s.assemble e reach pairing a).result
      (s.assembleTree e reach pairing) := by
  unfold assemble assembleTree
  simp only [Traced.result_bind, Traced.result_foldlM, Traced.result_liftM_stop,
    Traced.result_liftM_fault]
  refine (realizes_resources hs ha _).bind fun r hr _ => ?_
  refine (realizes_interface hs hr.holds _).bind fun i hi hext => ?_
  refine (realizes_specConstantVars hs hi.holds _).bind fun ⟨cs, b⟩ hc hext' => ?_
  refine .bind_fault fun size _ => ?_
  rw [hr.tree_eq (hext.trans hext'), hi.tree_eq hext']
  let whole : EntryPoint TypeIdx := {
    name := e.name
    model := e.model
    function := e.function
    interface := e.interface
    modes := (s.graph.annotations.modesOf e.function).map s.mode
    workgroupSize := size
    resources := reach.resources.ids
    descriptors := sortByOrder Descriptor.order r.descriptors
    pushConstants := r.pushConstants
    inputs := sortByOrder InterfaceVar.order i.inputs
    outputs := sortByOrder InterfaceVar.order i.outputs
    specConstants := cs }
  have hsound : Referring.entryPoint.run.Sound s (whole, b) := by
    refine ⟨hc.holds, fun j hj => ?_⟩
    have hr' : ∀ j ∈ View.resources.refs r, j < b.entries.length := fun j =>
      hr.lt_length (hext.trans hext')
    have hi' : ∀ j ∈ View.interface.refs i, j < b.entries.length := fun j => hi.lt_length hext'
    rcases EntryPoint.mem_refs.mp hj with ⟨x, hx, hj⟩ | ⟨x, hx, hj⟩ | ⟨x, hx, hj⟩ | ⟨x, hx, hj⟩ |
      ⟨x, hx, hj⟩
    · exact hr' j (List.mem_append_left _ (List.mem_flatMap.mpr
        ⟨x, mem_sortByOrder.mp hx, List.mem_singleton.mpr hj.symm⟩))
    · exact hr' j (List.mem_append_right _ (List.mem_flatMap.mpr ⟨x, hx, hj⟩))
    · exact hi' j (List.mem_append_left _ (List.mem_flatMap.mpr
        ⟨x, mem_sortByOrder.mp hx, List.mem_singleton.mpr hj.symm⟩))
    · exact hi' j (List.mem_append_right _ (List.mem_flatMap.mpr
        ⟨x, mem_sortByOrder.mp hx, List.mem_singleton.mpr hj.symm⟩))
    · exact hc.inside j (List.mem_flatMap.mpr ⟨x, hx, List.mem_singleton.mpr hj.symm⟩)
  have hmap : whole.map b.tree = { whole with
      descriptors := sortByOrder Descriptor.order (r.descriptors.map (·.map b.tree))
      pushConstants := r.pushConstants.map (·.map b.tree)
      inputs := sortByOrder InterfaceVar.order (i.inputs.map (·.map b.tree))
      outputs := sortByOrder InterfaceVar.order (i.outputs.map (·.map b.tree))
      specConstants := cs.map (·.map b.tree) } := by
    simp only [EntryPoint.map, ← map_sortByOrder (f := Descriptor.map b.tree) (fun _ => rfl),
      ← map_sortByOrder (f := InterfaceVar.map b.tree) (fun _ => rfl), whole]
    rfl
  have h := sound_entryPoint hsound
  rw [hmap] at h
  exact h

/-! ## The resources of an entry point -/

section Resources

variable {e : EntryPointDecl} {reach : Reach} {x : EntryPoint TypeTree}

/-- **What the resources of an entry point are made of**: it is what its variables add, put in order
and, apart from this, changed in nothing but names. -/
theorem exists_items_assembleTree (h : s.assembleTree e reach pairing = .ok x) : ∃ items,
    reach.resources.ids.mapM (s.resourceTrees pairing) = .ok items ∧
    x.resources = reach.resources.ids ∧
    (∀ (α : Type) (f : Descriptor TypeTree → α), (∀ name d, f { d with name := some name } = f d) →
      x.descriptors.map f = (sortByOrder Descriptor.order (joinBoth items).1).map f) ∧
    ∀ (α : Type) (f : PushConstant TypeTree → α), (∀ name p, f { p with name := some name } = f p) →
      x.pushConstants.map f = (joinBoth items).2.map f := by
  obtain ⟨resources, hresources, h⟩ := bind_eq_ok_iff.mp h
  obtain ⟨items, hitems, rfl⟩ := map_eq_ok_iff.mp hresources
  obtain ⟨interface, -, h⟩ := bind_eq_ok_iff.mp h
  obtain ⟨constants, -, h⟩ := bind_eq_ok_iff.mp h
  obtain ⟨size, -, h⟩ := bind_eq_ok_iff.mp h
  refine ⟨items, hitems, ?_⟩
  cases h
  split
  · exact ⟨rfl, fun _ f hf => EntryPoint.map_descriptors_withUniqueNames f hf _,
      fun _ f hf => EntryPoint.map_pushConstants_withUniqueNames f hf _⟩
  · exact ⟨rfl, fun _ _ _ => rfl, fun _ _ _ => rfl⟩

/-- The resources of an entry point are those that it reaches. -/
theorem resources_assembleTree (h : s.assembleTree e reach pairing = .ok x) :
    x.resources = reach.resources.ids := by
  obtain ⟨items, -, hresources, -⟩ := exists_items_assembleTree h
  exact hresources

/-- Of an entry point that is described, all resources can be. -/
theorem exists_resourceTrees (h : s.assembleTree e reach pairing = .ok x) {id : Ident}
    (hid : id ∈ reach.resources) : ∃ item, s.resourceTrees pairing id = .ok item := by
  obtain ⟨items, hitems, -⟩ := exists_items_assembleTree h
  exact exists_mapM_eq_ok_iff.mp ⟨items, hitems⟩ id hid

/-- **The descriptors of an entry point are those of the variables that it reaches**, apart from
their names. -/
theorem mem_map_descriptors_assembleTree {α : Type} {f : Descriptor TypeTree → α}
    (hf : ∀ name d, f { d with name := some name } = f d)
    (h : s.assembleTree e reach pairing = .ok x) {y : α} : y ∈ x.descriptors.map f ↔
      ∃ id ∈ reach.resources, ∃ item, s.resourceTrees pairing id = .ok item ∧
        ∃ d ∈ item.1, f d = y := by
  obtain ⟨items, hitems, -, hdescriptors, -⟩ := exists_items_assembleTree h
  rw [hdescriptors α f hf, List.mem_map]
  simp only [mem_sortByOrder, joinBoth, List.mem_flatMap, mem_iff_of_mapM_eq_ok hitems]
  constructor
  · rintro ⟨d, ⟨item, ⟨id, hid, hitem⟩, hd⟩, hy⟩
    exact ⟨id, hid, item, hitem, d, hd, hy⟩
  · rintro ⟨id, hid, item, hitem, d, hd, hy⟩
    exact ⟨d, ⟨item, ⟨id, hid, hitem⟩, hd⟩, hy⟩

/-- **What is said about an entry point with other resources** differs in these alone. -/
theorem assembleTree_replace (hu : s.uniqueNames = false)
    (h : s.assembleTree e reach pairing = .ok x) : ∃ items,
      reach.resources.ids.mapM (s.resourceTrees pairing) = .ok items ∧
      x.descriptors = sortByOrder Descriptor.order (joinBoth items).1 ∧
      x.pushConstants = (joinBoth items).2 ∧
      ∀ reach' pairing' items', reach'.interface = reach.interface →
        reach'.resources.ids.mapM (s.resourceTrees pairing') = .ok items' →
        s.assembleTree e reach' pairing' = .ok { x with
          resources := reach'.resources.ids
          descriptors := sortByOrder Descriptor.order (joinBoth items').1
          pushConstants := (joinBoth items').2 } := by
  obtain ⟨resources, hresources, h⟩ := bind_eq_ok_iff.mp h
  obtain ⟨items, hitems, rfl⟩ := map_eq_ok_iff.mp hresources
  obtain ⟨interface, hinterface, h⟩ := bind_eq_ok_iff.mp h
  obtain ⟨constants, hconstants, h⟩ := bind_eq_ok_iff.mp h
  obtain ⟨size, hsize, h⟩ := bind_eq_ok_iff.mp h
  rw [hu] at h
  cases h
  refine ⟨items, hitems, rfl, rfl, fun reach' pairing' items' hsame hitems' => ?_⟩
  unfold assembleTree
  rw [hitems', map_ok, ok_bind, hsame, hinterface, ok_bind, hconstants, ok_bind, hsize, ok_bind, hu]
  rfl

end Resources

end Source

end ShaderReflect
