import ShaderReflect.Proofs.Reflection

/-!
# What entry points do not depend on

An entry point is described from the graph and from the values of constants. It does not matter for
it which other entry points there are, by what words a constant is declared that does not hold the
length of an array, or which constants are said to be overridden, except that it repeats the latter.
`Source.revise` changes all of this.

* `Source.assemble_revise`: an entry point is assembled alike.
* `Config.addEntryPoints_revise`: so are all entry points.

This is what makes an override and another default comparable: the words of the constants differ,
their values do not, and the marks are all that is left of the difference.
-/

namespace ShaderReflect

/-! ## Marks of constants -/

/-- A constant with another mark of being overridden. -/
def SpecConstant.mark (f : Bool → Bool) (c : SpecConstant) : SpecConstant :=
  { c with isOverridden := f c.isOverridden }

@[inherit_doc SpecConstant.mark]
def SpecConstantVar.mark {τ : Type} (f : Bool → Bool) (c : SpecConstantVar τ) : SpecConstantVar τ :=
  { c with isOverridden := f c.isOverridden }

/-- An entry point with other marks of its constants. -/
def EntryPoint.mark {τ : Type} (f : Bool → Bool) (e : EntryPoint τ) : EntryPoint τ :=
  { e with specConstants := e.specConstants.map (·.mark f) }

theorem EntryPoint.mark_id {τ : Type} (e : EntryPoint τ) : e.mark id = e := by
  have h : e.specConstants.map (·.mark id) = e.specConstants :=
    (List.map_congr_left fun _ _ => rfl).trans (List.map_id _)
  rw [EntryPoint.mark, h]

/-- Naming does not look at the marks. -/
theorem EntryPoint.withUniqueNames_mark {τ : Type} (f : Bool → Bool) (e : EntryPoint τ) :
    (e.mark f).withUniqueNames = e.withUniqueNames.mark f := by
  unfold withUniqueNames EntryPoint.mark
  simp only
  rw [nameItems_map (SpecConstantVar.mark f)]
  all_goals intros; rfl

/-! ## The source -/

/-- The constants of a graph can be replaced as far as the lengths of arrays go. -/
structure Graph.SameLengths (g : Graph) (constants : Table Ident Constant) : Prop where
  keys : constants.keys = g.constants.keys
  lengthSource : ∀ id, ({ g with constants } : Graph).lengthSource id = g.lengthSource id

namespace Source

variable {s : Source} {f : Bool → Bool} {constants : Table Ident Constant}
  {entryPoints : List EntryPointDecl}

/-- A source with other declarations of constants and entry points, and other marks. -/
def revise (s : Source) (f : Bool → Bool) (constants : Table Ident Constant)
    (entryPoints : List EntryPointDecl) : Source where
  graph := { s.graph with constants, annotations := { s.graph.annotations with entryPoints } }
  specialization := { s.specialization with
    specConstants := s.specialization.specConstants.map (·.mark f) }
  uniqueNames := s.uniqueNames

theorem arrayLength_revise (h : s.graph.SameLengths constants) (length : Ident) :
    (s.revise f constants entryPoints).specialization.arrayLength
      (s.revise f constants entryPoints).graph length =
    s.specialization.arrayLength s.graph length := by
  have hl : (s.revise f constants entryPoints).graph.lengthSource length =
      s.graph.lengthSource length := h.lengthSource length
  unfold Specialization.arrayLength
  rw [hl]
  rfl

theorem describe_revise (h : s.graph.SameLengths constants) (a : Arena) (id : Ident)
    (decl : TypeDecl) :
    (s.revise f constants entryPoints).describe a id decl = s.describe a id decl := by
  cases decl with
  | array element length stride => simp only [describe, arrayLength_revise h]
  | _ => rfl

theorem put_revise (h : s.graph.SameLengths constants) (a : Arena) (id : Ident) (decl : TypeDecl) :
    (s.revise f constants entryPoints).put a id decl = s.put a id decl := by
  unfold put
  rw [describe_revise h]
  rfl

theorem materializeTo_revise (h : s.graph.SameLengths constants) (d : Nat) (a : Arena)
    (id : Ident) :
    (s.revise f constants entryPoints).materializeTo d a id = s.materializeTo d a id := by
  induction d generalizing a id with
  | zero => rfl
  | succ d ih =>
    unfold materializeTo
    simp only [ih, put_revise h]
    rfl

theorem materialize_revise (h : s.graph.SameLengths constants) (a : Arena) (id : Ident) :
    (s.revise f constants entryPoints).materialize a id = s.materialize a id :=
  materializeTo_revise h _ a id

theorem unwrapSizedTo_revise (h : s.graph.SameLengths constants) (d : Nat) (id : Ident) :
    (s.revise f constants entryPoints).unwrapSizedTo d id = s.unwrapSizedTo d id := by
  induction d generalizing id with
  | zero => rfl
  | succ d ih =>
    unfold unwrapSizedTo
    simp only [ih, arrayLength_revise h]
    rfl

theorem unwrap_revise (h : s.graph.SameLengths constants) (id : Ident) :
    (s.revise f constants entryPoints).unwrap id = s.unwrap id := by
  unfold unwrap
  simp only [unwrapSizedTo_revise h]
  rfl

/-! ## Entry points -/

theorem pushConstant_revise (h : s.graph.SameLengths constants) (a : Arena) (id : Ident)
    (v : Variable) :
    (s.revise f constants entryPoints).pushConstant a id v = s.pushConstant a id v := by
  unfold pushConstant
  simp only [materialize_revise h]
  rfl

theorem descriptor?_revise (h : s.graph.SameLengths constants) (pairing : Pairing) (a : Arena)
    (id : Ident) (v : Variable) :
    (s.revise f constants entryPoints).descriptor? pairing a id v =
      s.descriptor? pairing a id v := by
  unfold descriptor?
  simp only [materialize_revise h, unwrap_revise h]
  rfl

theorem addResource_revise (h : s.graph.SameLengths constants) (pairing : Pairing) (r : Resources)
    (id : Ident) :
    (s.revise f constants entryPoints).addResource pairing r id = s.addResource pairing r id := by
  unfold addResource
  simp only [pushConstant_revise h, descriptor?_revise h]
  rfl

theorem interface_revise (h : s.graph.SameLengths constants) (a : Arena) (ids : List Ident) :
    (s.revise f constants entryPoints).interface a ids = s.interface a ids := by
  unfold interface addInterfaceVar
  simp only [materialize_revise h]
  rfl

/-- The constants are the same ones with other marks. -/
theorem specConstantVars_revise (h : s.graph.SameLengths constants) (a : Arena)
    (cs : List SpecConstant) :
    (s.revise f constants entryPoints).specConstantVars a (cs.map (·.mark f)) =
      (fun x => (x.1.map (·.mark f), x.2)) <$> s.specConstantVars a cs := by
  induction cs generalizing a with
  | nil => rfl
  | cons c cs ih =>
    rw [List.map_cons]
    unfold specConstantVars
    have hm : (s.revise f constants entryPoints).materialize a c.type = s.materialize a c.type :=
      materialize_revise h a c.type
    rw [SpecConstant.mark, hm, map_bind]
    congr 1
    funext x
    obtain ⟨type, b⟩ := x
    simp only [ih, map_bind, bind_map_left]
    rfl

theorem workgroupSize_revise (h : s.graph.SameLengths constants) (e : EntryPointDecl) :
    (s.revise f constants entryPoints).workgroupSize e = s.workgroupSize e := by
  have hc : workgroupSizeConstant? (s.revise f constants entryPoints).graph =
      workgroupSizeConstant? s.graph := by
    show constants.keys.find? _ = _
    rw [h.keys]
    rfl
  unfold workgroupSize
  rw [hc]
  rfl

/-- **An entry point is assembled alike.** -/
theorem assemble_revise (h : s.graph.SameLengths constants) (e : EntryPointDecl) (reach : Reach)
    (pairing : Pairing) (a : Arena) :
    ((s.revise f constants entryPoints).assemble e reach pairing a).result =
      (fun x => (x.1.mark f, x.2)) <$> (s.assemble e reach pairing a).result := by
  have hadd : (s.revise f constants entryPoints).addResource pairing = s.addResource pairing := by
    funext r id
    exact addResource_revise h pairing r id
  have hcs : (s.revise f constants entryPoints).specialization.specConstants =
      s.specialization.specConstants.map (·.mark f) := rfl
  have hu : (s.revise f constants entryPoints).uniqueNames = s.uniqueNames := rfl
  have hmodes : ((s.revise f constants entryPoints).graph.annotations.modesOf e.function).map
      (s.revise f constants entryPoints).mode =
      (s.graph.annotations.modesOf e.function).map s.mode := rfl
  unfold assemble
  simp only [Traced.result_bind, Traced.result_liftM_stop, Traced.result_liftM_fault,
    Traced.result_note, Traced.result_pure, hadd, interface_revise h, hcs,
    specConstantVars_revise h, workgroupSize_revise h, hmodes, hu, map_bind, bind_map_left, ok_bind,
    map_ok]
  cases s.uniqueNames with
  | true => simp only [if_true, ← EntryPoint.withUniqueNames_mark]; rfl
  | false => rfl

end Source

namespace Config

variable {c : Config} {s : Source} {f : Bool → Bool} {constants : Table Ident Constant}
  {entryPoints : List EntryPointDecl}

/-- The entry points so far with other marks of their constants. -/
def Progress.mark (f : Bool → Bool) (p : Progress) : Progress :=
  { p with entryPoints := p.entryPoints.map (·.mark f) }

theorem Progress.mark_id (p : Progress) : p.mark id = p := by
  have h : p.entryPoints.map (·.mark id) = p.entryPoints :=
    (List.map_congr_left fun e _ => e.mark_id).trans (List.map_id _)
  rw [mark, h]

theorem addEntryPoint_revise (h : s.graph.SameLengths constants) (p : Progress)
    (e : EntryPointDecl) :
    (c.addEntryPoint (s.revise f constants entryPoints) (p.mark f) e).result =
      Progress.mark f <$> (c.addEntryPoint s p e).result := by
  have hreach : Reach.analyze (s.revise f constants entryPoints).graph e c.allResources =
      Reach.analyze s.graph e c.allResources := rfl
  have hpairing : c.pairing (s.revise f constants entryPoints).graph = c.pairing s.graph := rfl
  rw [result_addEntryPoint, result_addEntryPoint, hreach, hpairing, map_bind]
  congr 1
  funext reach
  rw [Source.assemble_revise h, bind_map_left, map_bind]
  refine congrArg _ (funext fun ⟨x, b⟩ => ?_)
  show Except.ok _ = Except.ok (Progress.mark f _)
  simp only [Progress.mark, List.map_append, List.map_cons, List.map_nil]

/-- **So are all entry points of a list.** -/
theorem addEntryPoints_revise (h : s.graph.SameLengths constants)
    (entryPoints decls : List EntryPointDecl) (p : Progress) :
    decls.foldlM (fun p e => (c.addEntryPoint (s.revise f constants entryPoints) p e).result)
      (p.mark f) =
      Progress.mark f <$> decls.foldlM (fun p e => (c.addEntryPoint s p e).result) p := by
  induction decls generalizing p with
  | nil => rfl
  | cons e decls ih =>
    rw [List.foldlM_cons, List.foldlM_cons, addEntryPoint_revise h, bind_map_left, map_bind]
    exact congrArg _ (funext fun q => ih q)

end Config

end ShaderReflect
