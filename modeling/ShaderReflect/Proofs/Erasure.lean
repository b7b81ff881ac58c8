import ShaderReflect.Proofs.Expansion
import ShaderReflect.Proofs.Layout.Erasure
import ShaderReflect.Proofs.Visits

/-!
# Reflections without names

Giving names changes nothing but names. With and without names for what has none, a binary is
described by the same steps on the same graph, which fail alike, and what they say is the same once
all names are erased and types are written out. The arenas need not be the same: members with
different names make types differ that would share a place otherwise, and the other way round.

* `EntryPoint.nameless`: an entry point with types written out, without any name but its own.
* `Reflection.nameless`: the header and such entry points, `Config.nameless` what a run ends with.
* `Source.assembleTree_naming`: entry points, put together from the same without names for each
  variable and constant.
* `Config.nameless_ascending`: whole reflections, if both go through everything in ascending order.
* `Config.reflect_naming`: whole reflections, in any order of visits.

Specification, 4.6 (`gen_unique_names`). Two runs with the same orders have the same result, the
fault and its message included. Two runs with orders of their own have the same result too, unless
both reject the binary; they may then name different violations of it (`Config.EndAlike`). Results
for ascending orders are taken to all orders by `Proofs/Visits`.
-/

namespace ShaderReflect

/-! ## Names of items -/

section

variable {τ : Type}

/-- A descriptor without a name. -/
def Descriptor.eraseName (d : Descriptor τ) : Descriptor τ := { d with name := none }

/-- A block of push constants without names for itself and its members. -/
def PushConstant.eraseNames (p : PushConstant τ) : PushConstant τ :=
  { p with name := none, members := p.members.map (·.eraseName) }

/-- An interface variable without a name. -/
def InterfaceVar.eraseName (v : InterfaceVar τ) : InterfaceVar τ := { v with name := none }

/-- A constant without a name. -/
def SpecConstantVar.eraseName (c : SpecConstantVar τ) : SpecConstantVar τ := { c with name := none }

/-- An entry point without names for what it refers to. Its own name stays. -/
def EntryPoint.eraseNames (e : EntryPoint τ) : EntryPoint τ :=
  { e with
    descriptors := e.descriptors.map (·.eraseName)
    pushConstants := e.pushConstants.map (·.eraseNames)
    inputs := e.inputs.map (·.eraseName)
    outputs := e.outputs.map (·.eraseName)
    specConstants := e.specConstants.map (·.eraseName) }

end

/-- A reflection without names, those of entry points apart. -/
def Reflection.eraseNames (r : Reflection) : Reflection :=
  { r with
    types := r.types.map (·.eraseNames)
    entryPoints := r.entryPoints.map (·.eraseNames) }

/-- What a reflection tells but for names: its header, and its entry points with types written
out. -/
def Reflection.nameless (r : Reflection) : Header × List (EntryPoint TypeTree) :=
  (r.header, r.eraseNames.expanded)

/-! ## Items with types written out, without names -/

/-- A descriptor, without a name and without names in its type. -/
def Descriptor.nameless (d : Descriptor TypeTree) : Descriptor TypeTree :=
  (d.map TypeTree.eraseNames).eraseName

/-- A block of push constants, without names and without names in its type. -/
def PushConstant.nameless (p : PushConstant TypeTree) : PushConstant TypeTree :=
  (p.map TypeTree.eraseNames).eraseNames

/-- An interface variable, without a name and without names in its type. -/
def InterfaceVar.nameless (v : InterfaceVar TypeTree) : InterfaceVar TypeTree :=
  (v.map TypeTree.eraseNames).eraseName

/-- A constant, without a name and without names in its type. -/
def SpecConstantVar.nameless (c : SpecConstantVar TypeTree) : SpecConstantVar TypeTree :=
  (c.map TypeTree.eraseNames).eraseName

theorem Descriptor.order_nameless (d : Descriptor TypeTree) : d.nameless.order = d.order := rfl

theorem InterfaceVar.order_nameless (v : InterfaceVar TypeTree) : v.nameless.order = v.order := rfl

/-- An entry point without names for what it refers to, and without names in its types. -/
def EntryPoint.nameless (e : EntryPoint TypeTree) : EntryPoint TypeTree :=
  (e.map TypeTree.eraseNames).eraseNames

namespace EntryPoint

variable {τ σ : Type}

theorem eraseNames_map (f : τ → σ) (e : EntryPoint τ) :
    (e.map f).eraseNames = e.eraseNames.map f := by
  have hblocks : (PushConstant.eraseNames ∘ PushConstant.map f) =
      (PushConstant.map f ∘ PushConstant.eraseNames : PushConstant τ → PushConstant σ) := by
    funext p
    simp only [Function.comp_apply, PushConstant.map, PushConstant.eraseNames, List.map_map]
    rfl
  simp only [EntryPoint.map, eraseNames, List.map_map, hblocks]
  rfl

theorem map_map {ρ : Type} (f : τ → σ) (g : σ → ρ) (e : EntryPoint τ) :
    (e.map f).map g = e.map (g ∘ f) := by
  have hblocks : (PushConstant.map g ∘ PushConstant.map f) =
      (PushConstant.map (g ∘ f) : PushConstant τ → PushConstant ρ) := by
    funext p
    simp only [Function.comp_apply, PushConstant.map, List.map_map]
    rfl
  simp only [EntryPoint.map, List.map_map, hblocks]
  rfl

theorem nameless_eq (e : EntryPoint TypeTree) : e.nameless =
    { e with
      descriptors := e.descriptors.map Descriptor.nameless
      pushConstants := e.pushConstants.map PushConstant.nameless
      inputs := e.inputs.map InterfaceVar.nameless
      outputs := e.outputs.map InterfaceVar.nameless
      specConstants := e.specConstants.map SpecConstantVar.nameless } := by
  simp only [nameless, EntryPoint.map, eraseNames, List.map_map]
  rfl

/-- Names that are given are erased again. -/
theorem nameless_withUniqueNames (e : EntryPoint TypeTree) :
    e.withUniqueNames.nameless = e.nameless := by
  simp only [nameless_eq, withUniqueNames]
  rw [map_nameItems Descriptor.nameless, map_nameItems PushConstant.nameless,
    map_nameItems InterfaceVar.nameless, map_nameItems InterfaceVar.nameless,
    map_nameItems SpecConstantVar.nameless]
  all_goals intros; rfl

end EntryPoint

namespace Source

variable {s : Source} {id : Ident} {v : Variable}

/-! ## Variables and constants -/

theorem members?_eraseNames (t : TypeTree) :
    t.eraseNames.members? = t.members?.map (List.map (·.nameless)) := by
  cases t with
  | dangling i => rfl
  | node desc =>
    rw [TypeTree.eraseNames_node]
    cases desc with
    | struct name ms =>
      simp only [TypeTree.members?, TypeDesc.map, TypeDesc.eraseNames, TypeDesc.members?,
        List.map_map, Option.map_some]
      rfl
    | _ => rfl

theorem pushConstantTree_naming (u : Bool) :
    PushConstant.nameless <$> (s.naming u).pushConstantTree id v =
      PushConstant.nameless <$> s.pushConstantTree id v := by
  refine map_bind_congr_right _ fun p => map_bind_congr (tree_naming u p) fun t t' h => ?_
  have hms := congrArg TypeTree.members? h
  have hsize := congrArg TypeTree.size? h
  rw [members?_eraseNames, members?_eraseNames] at hms
  rw [TypeTree.size?_eraseNames, TypeTree.size?_eraseNames] at hsize
  cases ht : t.members? with
  | none =>
    rw [ht, Option.map_none, eq_comm, Option.map_eq_none_iff] at hms
    rw [hms]
  | some ms =>
    rw [ht, Option.map_some, eq_comm, Option.map_eq_some_iff] at hms
    obtain ⟨ms', ht', hms⟩ := hms
    have hblock : ∀ (name : Option String) (t : TypeTree) (ms : List (MemberDesc TypeTree))
        (size : Option Nat), PushConstant.nameless ⟨id, name, t, ms, size⟩ =
          ⟨id, none, t.eraseNames, ms.map (·.nameless), size⟩ := by
      intro name t ms size
      simp only [PushConstant.nameless, PushConstant.map, PushConstant.eraseNames, List.map_map]
      rfl
    simp only [ht', pure_eq_ok, map_ok, hblock, h, hms, hsize]

theorem unwrap_naming (u : Bool) : (s.naming u).unwrap id = s.unwrap id := by
  have hdepth : ∀ (d : Nat) (id : Ident),
      (s.naming u).unwrapSizedTo d id = s.unwrapSizedTo d id := by
    intro d
    induction d with
    | zero => exact fun _ => rfl
    | succ d ih =>
      intro id
      refine bind_congr fun decl => ?_
      cases decl with
      | array element length stride =>
        simp only [ih]
        rfl
      | _ => rfl
  simp only [unwrap, hdepth]
  rfl

theorem descriptorTree_naming (u : Bool) (pairing : Pairing) :
    Option.map Descriptor.nameless <$> (s.naming u).descriptorTree pairing id v =
      Option.map Descriptor.nameless <$> s.descriptorTree pairing id v := by
  unfold descriptorTree
  simp only [unwrap_naming]
  split
  · rfl
  · refine map_bind_congr_right _ fun p => map_bind_congr_right _ fun unwrapped =>
      map_bind_congr_right _ fun decl => map_bind_congr_right _ fun kind? => ?_
    cases kind? with
    | none => rfl
    | some kind =>
      refine map_bind_congr (tree_naming u _) fun t t' h => ?_
      have htype : ∀ isCombined : Bool,
          (if isCombined then .node (.combinedImageSampler t) else t : TypeTree).eraseNames =
            (if isCombined then .node (.combinedImageSampler t') else t' :
              TypeTree).eraseNames := by
        intro isCombined
        cases isCombined with
        | false => exact h
        | true => simp only [if_true, TypeTree.eraseNames_node, TypeDesc.map, h]
      simp only [pure_eq_ok, map_ok, Option.map_some, Descriptor.nameless, Descriptor.map, htype]
      rfl

theorem resourceTrees_naming (u : Bool) (pairing : Pairing) (id : Ident) :
    Prod.map (List.map Descriptor.nameless) (List.map PushConstant.nameless) <$>
        (s.naming u).resourceTrees pairing id =
      Prod.map (List.map Descriptor.nameless) (List.map PushConstant.nameless) <$>
        s.resourceTrees pairing id := by
  refine map_bind_congr_right _ fun v => ?_
  split
  · refine map_bind_congr (pushConstantTree_naming u) fun p p' h => ?_
    simp only [pure_eq_ok, map_ok, Prod.map, List.map_cons, List.map_nil, h]
  · refine map_bind_congr (descriptorTree_naming u pairing) fun d? d?' h => ?_
    have hlist : d?.toList.map Descriptor.nameless = d?'.toList.map Descriptor.nameless := by
      rw [← Option.toList_map, ← Option.toList_map, h]
    simp only [pure_eq_ok, map_ok, Prod.map, List.map_nil, hlist]

theorem interfaceTrees_naming (u : Bool) (id : Ident) :
    Prod.map (List.map InterfaceVar.nameless) (List.map InterfaceVar.nameless) <$>
        (s.naming u).interfaceTrees id =
      Prod.map (List.map InterfaceVar.nameless) (List.map InterfaceVar.nameless) <$>
        s.interfaceTrees id := by
  unfold interfaceTrees
  refine map_bind_congr_right _ fun v => ?_
  cases hlocation : s.graph.annotations.decorationWord? id none Decoration.location with
  | none =>
    simp only [naming, hlocation]
  | some location =>
    simp only [naming, hlocation]
    refine map_bind_congr_right _ fun p => map_bind_congr (tree_naming u p) fun t t' h => ?_
    split <;> simp [InterfaceVar.nameless, InterfaceVar.map, InterfaceVar.eraseName, h]

theorem specConstantTree_naming (u : Bool) (c : SpecConstant) :
    SpecConstantVar.nameless <$> (s.naming u).specConstantTree c =
      SpecConstantVar.nameless <$> s.specConstantTree c := by
  refine map_bind_congr (tree_naming u c.type) fun t t' h => ?_
  simp only [pure_eq_ok, map_ok, SpecConstantVar.nameless, SpecConstantVar.map, h]

/-! ## Entry points -/

theorem map_joinBoth {α α' β β' : Type} (f : α → α') (g : β → β') (ts : List (List α × List β)) :
    Prod.map (List.map f) (List.map g) (joinBoth ts) =
      joinBoth (ts.map (Prod.map (List.map f) (List.map g))) := by
  simp only [joinBoth, Prod.map, List.map_flatMap, List.flatMap_map]

/-- What all variables say, without names, if what each one says is known without names. -/
theorem map_joinBoth_mapM {α β γ : Type} {f : α → α} {g : β → β}
    {x y : γ → Except Stop (List α × List β)}
    (h : ∀ c, Prod.map (List.map f) (List.map g) <$> x c =
      Prod.map (List.map f) (List.map g) <$> y c) (cs : List γ) :
    Prod.map (List.map f) (List.map g) <$> (joinBoth <$> cs.mapM x) =
      Prod.map (List.map f) (List.map g) <$> (joinBoth <$> cs.mapM y) := by
  have hcs : List.map (Prod.map (List.map f) (List.map g)) <$> cs.mapM x =
      List.map (Prod.map (List.map f) (List.map g)) <$> cs.mapM y := map_mapM_congr fun c _ => h c
  have hjoin := congrArg (joinBoth <$> ·) hcs
  simp only [Functor.map_map, ← map_joinBoth] at hjoin
  simpa only [Functor.map_map] using hjoin

/-- Items that are the same without names are so in order. -/
theorem sortByOrder_nameless {α : Type} {order : α → Word × Word × Word} {f : α → α}
    (hf : ∀ x, order (f x) = order x) {xs ys : List α} (h : xs.map f = ys.map f) :
    (sortByOrder order xs).map f = (sortByOrder order ys).map f := by
  rw [map_sortByOrder hf, map_sortByOrder hf, h]

/-- **What is said about an entry point is the same without names**, whether or not names are given
to what has none. -/
theorem assembleTree_naming (u : Bool) (e : EntryPointDecl) (reach : Reach) (pairing : Pairing) :
    EntryPoint.nameless <$> (s.naming u).assembleTree e reach pairing =
      EntryPoint.nameless <$> s.assembleTree e reach pairing := by
  refine map_bind_congr (map_joinBoth_mapM (resourceTrees_naming u pairing) _)
    fun resources resources' hresources => ?_
  refine map_bind_congr (map_joinBoth_mapM (interfaceTrees_naming u) _)
    fun interface interface' hinterface => ?_
  refine map_bind_congr (map_mapM_congr fun c _ => specConstantTree_naming u c)
    fun constants constants' hconstants => ?_
  refine map_bind_congr_right _ fun size => ?_
  have hnaming : ∀ (u : Bool) (whole : EntryPoint TypeTree),
      (if u then whole.withUniqueNames else whole).nameless = whole.nameless := by
    intro u whole
    cases u with
    | false => rfl
    | true => exact whole.nameless_withUniqueNames
  obtain ⟨hdescriptors, hblocks⟩ := Prod.mk.inj hresources
  obtain ⟨hinputs, houtputs⟩ := Prod.mk.inj hinterface
  have hdescriptors := sortByOrder_nameless Descriptor.order_nameless hdescriptors
  have hinputs := sortByOrder_nameless InterfaceVar.order_nameless hinputs
  have houtputs := sortByOrder_nameless InterfaceVar.order_nameless houtputs
  simp only [pure_eq_ok, map_ok, hnaming, EntryPoint.nameless_eq, hdescriptors, hblocks, hinputs,
    houtputs, hconstants]
  rfl

end Source

/-! ## Reflections -/

namespace Config

variable {c : Config} {s : Source}

theorem entryTree_naming (u u' : Bool) (e : EntryPointDecl) :
    EntryPoint.nameless <$> { c with uniqueNames := u }.entryTree (s.naming u') e =
      EntryPoint.nameless <$> c.entryTree s e :=
  map_bind_congr_right _ fun reach => Source.assembleTree_naming u' e reach _

theorem source_naming (u : Bool) (words : List Word) :
    { c with uniqueNames := u }.source words = (·.naming u) <$> c.source words := by
  unfold source
  cases Graph.ofWords words with
  | error e => rfl
  | ok g =>
    simp only [liftM_fault_ok, ok_bind]
    cases (Specialization.apply g c.overrides).result <;> rfl

/-- A reflection with types written out is the same without names. -/
theorem trees_naming (u : Bool) :
    Prod.map id (List.map EntryPoint.nameless) <$> { c with uniqueNames := u }.trees =
      Prod.map id (List.map EntryPoint.nameless) <$> c.trees := by
  refine map_bind_congr_right _ fun words => ?_
  rw [source_naming]
  cases hs : c.source words with
  | error e => rfl
  | ok s =>
    simp only [map_ok, ok_bind]
    refine map_bind_congr (map_mapM_congr fun e _ => entryTree_naming u u e) fun ts ts' h => ?_
    exact congrArg (fun ts => Except.ok (s.graph.header, ts)) h

/-- What is reported differs from what is interned in the names of structs only. -/
theorem MadeOf.tree_eraseNames {p : Progress} {r : Reflection} (h : c.MadeOf s p r) (i : TypeIdx) :
    (r.tree i).eraseNames = (p.arena.tree i).eraseNames := by
  have hkeys : p.arena.types.map TypeDesc.eraseNames = p.arena.keys.map TypeDesc.eraseNames := by
    rw [Arena.types, Arena.keys, List.map_map, List.map_map]
    refine List.map_congr_left fun e he => ?_
    rcases h.holds.faithful e he with hd | ⟨-, name, name', ms, hk, hd⟩
    · rw [Function.comp_apply, Function.comp_apply, hd]
    · rw [Function.comp_apply, Function.comp_apply, hk, hd]
      rfl
  rw [h.result, Reflection.tree, ← TypeTree.ofDescs_eraseNames, hkeys, TypeTree.ofDescs_eraseNames]
  rfl

/-- Names can be erased before types are written out, or after that. -/
theorem MadeOf.expanded_eraseNames {p : Progress} {r : Reflection} (h : c.MadeOf s p r) :
    r.eraseNames.expanded = (Progress.view.tree p).map EntryPoint.nameless := by
  have htree : ∀ i, r.eraseNames.tree i = (p.arena.tree i).eraseNames := by
    intro i
    rw [← h.tree_eraseNames]
    exact TypeTree.ofDescs_eraseNames r.types i
  have hentry : ∀ e : EntryPoint TypeIdx,
      e.eraseNames.map r.eraseNames.tree = (e.map p.arena.tree).nameless := by
    intro e
    rw [EntryPoint.nameless, EntryPoint.map_map, EntryPoint.eraseNames_map, funext htree]
    rfl
  have hentries : r.eraseNames.entryPoints = p.entryPoints.map EntryPoint.eraseNames := by
    rw [h.result]
    rfl
  show r.eraseNames.entryPoints.map (·.map r.eraseNames.tree) =
    (p.entryPoints.map (·.map p.arena.tree)).map EntryPoint.nameless
  rw [hentries, List.map_map, List.map_map]
  exact List.map_congr_left fun e _ => hentry e

/-- What is told of a binary with names given or not (`named`), but for names, in a run that goes
through declarations in some orders. -/
def nameless (c : Config) (named : Bool) (visits : Visits) :
    Except Stop (Header × List (EntryPoint TypeTree)) :=
  Reflection.nameless <$> ({ c with uniqueNames := named }.reflect visits).result

theorem nameless_ascending (c : Config) : c.nameless true {} = c.nameless false {} := by
  have htrees : ∀ c : Config, Reflection.nameless <$> c.reflect.result =
      Prod.map id (List.map EntryPoint.nameless) <$> c.trees := fun c =>
    map_reflect fun s p r hr => by rw [Reflection.nameless, hr.expanded_eraseNames, hr.result]; rfl
  unfold nameless
  rw [htrees, htrees, trees_naming true, trees_naming false]

/-- **Generated names change nothing but names.** With and without them, a binary cannot be
reflected for the same reason, or it can, with the same header and the same entry points once names
are erased and types are written out. Two runs that go through declarations in different orders end
alike: they have the same result, or both reject the binary, for violations that it has. -/
theorem reflect_naming (c : Config) : (∀ v, c.nameless true v = c.nameless false v) ∧
    ∀ v w, c.EndAlike (c.nameless true v) (c.nameless false w) := by
  have hsame : ∀ v, c.nameless true v = c.nameless false v := fun v =>
    map_reflect_visits rfl c.nameless_ascending
  refine ⟨hsame, fun v w => ?_⟩
  have hwords : { c with uniqueNames := false }.words = c.words := rfl
  rw [hsame v]
  exact ((reflect_visits _ v w).map Reflection.nameless).of_words_eq hwords

end Config

end ShaderReflect
