import ShaderReflect.Proofs.Declared.Defaults
import ShaderReflect.Proofs.Declared.Outline
import ShaderReflect.Proofs.Reflection

/-!
# Graphs are closed

A graph refers only to what it declares (`Graph.Closed`). Part of this is checked once all
declarations are known (`Graph.check`), and part of it as they come: a declared ID is below the
bound when it is read, and a variable that is touched is declared before. What the declarations keep
while they are collected is `Declarations.Sound`.

* `Statement.inBound_of_read`: what an instruction declares has an ID below the bound.
* `Declarations.Sound.add` is the step, `Draft.sound_foldlM` the run.
* `Draft.constants_foldlM`: the constants are those that instructions declare, in order.
* `Graph.closed_of_check`: sound declarations that pass the checks are closed.
* `Graph.ofWords_closed`: the graph of a binary is closed, and its constants are in order.

Specification, 3 (invariants) and 4.2 (`finalize`). It is about binaries that are accepted: which of
several violations a rejected one is rejected for depends on the order of the checks, and whether it
is rejected does not (`Proofs/Visits`). Execution modes, decorations and interfaces are not part of
what is closed (`Proofs/Mentions`).
-/

namespace ShaderReflect

open Instruction

/-- An ID that instructions may refer to: it is positive and below the bound. -/
def InBound (bound id : Word) : Prop := 0 < id ∧ id < bound

/-! ## What instructions declare -/

namespace Read

variable {α β : Type} {P : α → Prop} {Q : β → Prop} {f : Ident → Read β} {bound id : Word}

theorem inBound_of_checkIdent (h : checkIdent bound id = .ok ()) : InBound bound id := by
  unfold checkIdent at h
  split at h
  · cases h
  · rename_i hid
    rw [not_or] at hid
    refine ⟨?_, UInt32.not_le.mp hid.2⟩
    have hne : id.toNat ≠ 0 := fun h0 => hid.1 (UInt32.toNat_inj.mp h0)
    exact UInt32.lt_iff_toNat_lt.mpr (Nat.pos_of_ne_zero hne)

/-- What is read after an ID may rely on the ID. -/
theorem yields_ident_bind (h : ∀ id, InBound bound id → (f id).Yields Q) :
    (ident bound >>= f).Yields Q := by
  intro ws b left hb
  have hrun : ((ident bound >>= f) ws).1 = .ok b := by rw [hb]
  obtain ⟨id, rest, -, hid, hf⟩ := ident_bind_eq_ok_iff.mp hrun
  refine h id (inBound_of_checkIdent hid) rest b (f id rest).2 ?_
  rw [← hf]

end Read

/-- The ID of the entity that a declaration declares. -/
def Declaration.declared? : Declaration → Option Ident
  | .type id _ | .constant id _ | .globalVar id _ | .function id => some id
  | _ => none

/-- The constant that a declaration declares. -/
def Declaration.constant? : Declaration → Option (Ident × Constant)
  | .constant id c => some (id, c)
  | _ => none

/-- The declared ID is below the bound. -/
def Declaration.InBound (bound : Word) (d : Declaration) : Prop :=
  ∀ id, d.declared? = some id → ShaderReflect.InBound bound id

namespace Statement

open Read

variable {bound : Word} {inBody : Bool} {i : Instruction} {d : Declaration}

theorem inBound_of_declared {id : Ident} (h : InBound bound id) (hd : d.declared? = some id) :
    d.InBound bound := by
  intro id' hid'
  rw [hd, Option.some.injEq] at hid'
  exact hid' ▸ h

theorem inBound_of_none (hd : d.declared? = none) : d.InBound bound := by
  intro id hid
  rw [hd] at hid
  cases hid

theorem inBound_readType (form : TypeForm) :
    (readType bound form).Yields (Declaration.InBound bound) := by
  unfold readType
  split
  · exact yields_bind fun _ => yields_bind fun _ => yields_pure (inBound_of_none rfl)
  · exact yields_ident_bind fun _ hid => yields_bind fun _ =>
      yields_pure (inBound_of_declared hid rfl)

theorem inBound_readConstant (isSpecialization : Bool) (form : ConstantForm) :
    (readConstant bound isSpecialization form).Yields (Declaration.InBound bound) := by
  refine yields_bind fun _ => yields_ident_bind fun _ hid => yields_bind fun words => ?_
  split
  · exact yields_pure (inBound_of_declared hid rfl)
  · exact yields_fail _
  · exact yields_pure (inBound_of_declared hid rfl)
  · exact yields_pure (inBound_of_declared hid rfl)

theorem inBound_readComposite (isSpecialization : Bool) :
    (readComposite bound isSpecialization).Yields (Declaration.InBound bound) :=
  yields_bind fun _ => yields_ident_bind fun _ hid => yields_bind fun _ =>
    yields_pure (inBound_of_declared hid rfl)

theorem inBound_readSpecOperation :
    (readSpecOperation bound).Yields (Declaration.InBound bound) :=
  yields_bind fun _ => yields_ident_bind fun _ hid => yields_bind fun _ => yields_bind fun _ =>
    yields_pure (inBound_of_declared hid rfl)

theorem inBound_readGlobalVar : (readGlobalVar bound).Yields (Declaration.InBound bound) :=
  yields_bind fun _ => yields_ident_bind fun _ hid => yields_bind fun _ =>
    yields_pure (inBound_of_declared hid rfl)

theorem inBound_readResult : (readResult bound).Yields (ShaderReflect.InBound bound) := by
  refine yields_bind fun _ => ?_
  rw [ident_eq_bind_pure]
  exact yields_ident_bind fun _ hid => yields_pure hid

theorem inBound_readCall : (readCall bound).Yields (Declaration.InBound bound) :=
  yields_bind fun _ => yields_bind fun _ => yields_bind fun _ => yields_pure (inBound_of_none rfl)

theorem inBound_readAccess (shape : AccessShape) :
    (readAccess bound shape).Yields (Declaration.InBound bound) := by
  cases shape with
  | derive => exact yields_bind fun _ => yields_bind fun _ => yields_pure (inBound_of_none rfl)
  | read => exact yields_bind fun _ => yields_bind fun _ => yields_pure (inBound_of_none rfl)
  | write => exact yields_bind fun _ => yields_pure (inBound_of_none rfl)
  | copy => exact yields_bind fun _ => yields_bind fun _ => yields_pure (inBound_of_none rfl)

theorem inBound_readSampledImage : (readSampledImage bound).Yields (Declaration.InBound bound) :=
  yields_bind fun _ => yields_bind fun _ => yields_bind fun _ => yields_pure (inBound_of_none rfl)

theorem inBound_of_run {r : Read Declaration} {ws : List Word}
    (hr : r.Yields (Declaration.InBound bound))
    (h : Statement.declare <$> r.run ws = .ok (.declare d)) : d.InBound bound := by
  obtain ⟨d', hd, heq⟩ := map_eq_ok_iff.mp h
  cases heq
  exact hr.of_run hd

/-- **What an instruction declares has an ID below the bound.** -/
theorem inBound_of_read (h : read bound inBody i = .ok (.declare d)) : d.InBound bound := by
  unfold read at h
  split at h
  · rename_i role hrole
    cases role with
    | type form =>
      cases inBody with
      | true => cases h
      | false => exact inBound_of_run (inBound_readType form) h
    | constant form => exact inBound_of_run (inBound_readConstant false form) h
    | specConstant form => exact inBound_of_run (inBound_readConstant true form) h
    | composite isSpec => exact inBound_of_run (inBound_readComposite isSpec) h
    | specOperation => exact inBound_of_run inBound_readSpecOperation h
    | globalVar =>
      cases inBody with
      | true => cases h
      | false => exact inBound_of_run inBound_readGlobalVar h
    | function =>
      cases inBody with
      | true => cases h
      | false =>
        obtain ⟨id, hid, heq⟩ := map_eq_ok_iff.mp h
        cases heq
        exact inBound_of_declared (inBound_readResult.of_run hid) rfl
    | functionEnd =>
      cases h
      exact inBound_of_none rfl
    | functionCall => exact inBound_of_run inBound_readCall h
    | access shape => exact inBound_of_run (inBound_readAccess shape) h
    | sampledImage => exact inBound_of_run inBound_readSampledImage h
    | ignored => cases h
    | unsupported => cases h
    | entryPoint | executionMode | name | memberName | decoration | memberDecoration =>
      obtain ⟨_, -, heq⟩ := map_eq_ok_iff.mp h
      cases heq
  · cases inBody <;> cases h

end Statement

/-! ## What declarations keep -/

namespace Table

variable {κ α : Type} [DecidableEq κ] {t t' : Table κ α} {k k' : κ} {a b : α}

theorem mem_keys_of_get? (h : t.get? k = some a) : k ∈ t.keys := by
  rw [mem_keys_iff, contains, h, Option.isSome_some]

/-- The keys with one more. -/
theorem keys_insertNew? (h : t.insertNew? k a = some t') : t'.keys = t.keys ++ [k] := by
  rw [keys, (entries_insertNew? h).1, List.map_append]
  rfl

theorem mem_keys_insertNew? (h : t.insertNew? k a = some t') :
    k' ∈ t'.keys ↔ k' ∈ t.keys ∨ k' = k := by
  rw [keys_insertNew? h, List.mem_append, List.mem_singleton]

/-- An entry of a table with one more is an old one, or the one that was added. -/
theorem get?_of_insertNew? (h : t.insertNew? k a = some t') (hb : t'.get? k' = some b) :
    t.get? k' = some b ∨ k' = k ∧ b = a := by
  rw [get?_insertNew? h] at hb
  split at hb
  · rename_i hk
    cases hb
    exact .inr ⟨hk, rfl⟩
  · exact .inl hb

/-- A check that a key is taken. -/
theorem mem_keys_of_check {e : Fault}
    (h : (if !t.contains k then throw e else pure () : Except Fault Unit) = .ok ()) :
    k ∈ t.keys := by
  rw [mem_keys_iff]
  cases hk : t.contains k with
  | true => rfl
  | false =>
    rw [hk] at h
    cases h

end Table

namespace Declarations

/-- A function body touches only declared variables. -/
def Touches (ds : Declarations) (body : FunctionBody) : Prop :=
  ∀ v ∈ body.accessed, v ∈ ds.globals.keys

/-- What declarations keep while they are collected: their IDs are below the bound, and whatever
counts as a variable is declared as one. -/
structure Sound (bound : Word) (ds : Declarations) : Prop where
  types : ∀ id ∈ ds.types.keys, InBound bound id
  constants : ∀ id ∈ ds.constants.keys, InBound bound id
  globals : ∀ id ∈ ds.globals.keys, InBound bound id
  functions : ∀ id ∈ ds.functions.keys, InBound bound id
  current : ∀ id body, ds.current = some (id, body) → InBound bound id ∧ ds.Touches body
  derived : ∀ e ∈ ds.derived, e.2 ∈ ds.globals.keys
  accessed : ∀ id body, ds.functions.get? id = some body → ds.Touches body

variable {bound : Word} {ds ds' : Declarations} {d : Declaration} {id v : Ident}

theorem sound_empty : Sound bound {} where
  types _ h := by cases h
  constants _ h := by cases h
  globals _ h := by cases h
  functions _ h := by cases h
  current _ _ h := by cases h
  derived _ h := by cases h
  accessed _ _ h := by cases h

/-- What an ID names or is derived from is a declared variable. -/
theorem Sound.mem_of_variableOf? (h : ds.Sound bound) (hv : ds.variableOf? id = some v) :
    v ∈ ds.globals.keys := by
  unfold variableOf? at hv
  split at hv
  · rename_i hid
    cases hv
    exact Table.mem_keys_iff.mpr hid
  · obtain ⟨before, after, hderived, -⟩ := List.lookup_eq_some_iff.mp hv
    exact h.derived (id, v) (by rw [hderived]; simp)

/-- An open body may touch more, as long as that is declared variables. -/
theorem Sound.inBody {f : FunctionBody → FunctionBody} (h : ds.Sound bound)
    (hadd : ds.inBody f = .ok ds')
    (hf : ∀ body, ∀ v ∈ (f body).accessed, v ∈ body.accessed ∨ v ∈ ds.globals.keys) :
    ds'.Sound bound := by
  obtain ⟨id, body, hcurrent, rfl⟩ := inBody_eq_ok hadd
  refine { h with current := fun id' body' heq => ?_ }
  cases heq
  refine ⟨(h.current id body hcurrent).1, fun v hv => ?_⟩
  rcases hf body v hv with hv | hv
  · exact (h.current id body hcurrent).2 v hv
  · exact hv

/-- The variables that IDs name, or are derived from, may be touched. -/
theorem Sound.mem_of_mem_insertAll (h : ds.Sound bound) {body : FunctionBody} {ids : List Ident}
    (hv : v ∈ body.accessed.insertAll (ids.filterMap ds.variableOf?)) :
    v ∈ body.accessed ∨ v ∈ ds.globals.keys := by
  rcases IdSet.mem_insertAll.mp hv with hv | hv
  · obtain ⟨id, -, hid⟩ := List.mem_filterMap.mp hv
    exact .inr (h.mem_of_variableOf? hid)
  · exact .inl hv

/-- A declaration that declares nothing keeps the declarations sound. -/
theorem Sound.add_of_neutral (h : ds.Sound bound) (hd : d.outline = .neutral)
    (hadd : ds.add d = .ok ds') : ds'.Sound bound := by
  cases d with
  | type | constant | globalVar | function | functionEnd => cases hd
  | forwardPointer id =>
    cases hadd
    exact { h with }
  | call callee args => exact h.inBody hadd fun _ _ => h.mem_of_mem_insertAll
  | touch pointers => exact h.inBody hadd fun _ _ => h.mem_of_mem_insertAll
  | sampledImage image sampler => exact h.inBody hadd fun _ _ hv => .inl hv
  | derive result pointer =>
    simp only [Declarations.add] at hadd
    split at hadd
    · exact h.inBody hadd fun _ _ hv => .inl hv
    · rename_i v hv
      have hmem := h.mem_of_variableOf? hv
      have hderived : Sound bound { ds with derived := (result, v) :: ds.derived } := by
        refine { h with derived := fun e he => ?_ }
        rcases List.mem_cons.mp he with rfl | he
        · exact hmem
        · exact h.derived e he
      refine hderived.inBody hadd fun body x hx => ?_
      rcases IdSet.mem_insert.mp hx with rfl | hx
      · exact .inr hmem
      · exact .inl hx

/-- The keys of a table with one more are below the bound if all of them are. -/
theorem inBound_insertNew? {α : Type} {t t' : Table Ident α} {a : α}
    (ht : ∀ x ∈ t.keys, InBound bound x) (hid : InBound bound id)
    (h : t.insertNew? id a = some t') : ∀ x ∈ t'.keys, InBound bound x := by
  intro x hx
  rcases (Table.mem_keys_insertNew? h).mp hx with hx | rfl
  · exact ht x hx
  · exact hid

/-- **One more declaration** keeps the declarations sound. -/
theorem Sound.add (h : ds.Sound bound) (hd : d.InBound bound) (hadd : ds.add d = .ok ds') :
    ds'.Sound bound := by
  cases adds_of_add hadd with
  | type htypes => exact { h with types := inBound_insertNew? h.types (hd _ rfl) htypes }
  | constant hfree hconstants =>
    exact { h with constants := inBound_insertNew? h.constants (hd _ rfl) hconstants }
  | @globalVar _ _ globals hfree hglobals =>
    -- What was a variable still is one.
    have hmono : ∀ x ∈ ds.globals.keys, x ∈ globals.keys := fun x hx =>
      (Table.mem_keys_insertNew? hglobals).mpr (.inl hx)
    exact { h with
      globals := inBound_insertNew? h.globals (hd _ rfl) hglobals
      current := fun x body hx =>
        ⟨(h.current x body hx).1, fun v hv => hmono v ((h.current x body hx).2 v hv)⟩
      derived := fun e he => hmono _ (h.derived e he)
      accessed := fun x body hx v hv => hmono v (h.accessed x body hx v hv) }
  | function id =>
    refine { h with current := fun x body hx => ?_ }
    cases hx
    exact ⟨hd id rfl, fun v hv => absurd hv IdSet.not_mem_empty⟩
  | functionEnd hcurrent hfunctions =>
    obtain ⟨hid, hbody⟩ := h.current _ _ hcurrent
    refine { h with
      functions := inBound_insertNew? h.functions hid hfunctions
      current := fun _ _ hx => by cases hx
      accessed := fun x body' hx => ?_ }
    rcases Table.get?_of_insertNew? hfunctions hx with hx | ⟨-, rfl⟩
    · exact h.accessed x body' hx
    · exact hbody
  | neutral hneutral => exact h.add_of_neutral hneutral hadd

/-- The constants with one more declaration. -/
theorem constants_add (hadd : ds.add d = .ok ds') :
    ds'.constants.entries = ds.constants.entries ++ d.constant?.toList := by
  cases adds_of_add hadd with
  | constant hfree h => exact (Table.entries_insertNew? h).1
  | type | globalVar | function | functionEnd => exact (List.append_nil _).symm
  | neutral hd htypes hconstants =>
    have hnone : d.constant? = none := by
      cases d with
      | constant => cases hd
      | _ => rfl
    rw [hconstants, hnone]
    exact (List.append_nil _).symm

end Declarations

/-! ## Collecting instructions -/

/-- The opcode of numbers that cannot be overridden. -/
def opConstant : Opcode := 43

/-- The constant that an instruction declares. -/
def Instruction.constant? (bound : Word) (i : Instruction) : Option (Ident × Constant) :=
  match Statement.read bound false i with
  | .ok (.declare d) => d.constant?
  | _ => none

/-- The constant that a statement declares. -/
def Statement.constant? : Statement → Option (Ident × Constant)
  | .declare d => d.constant?
  | _ => none

namespace Statement

variable {bound : Word} {inBody : Bool} {i : Instruction} {st : Statement}

/-- It does not matter for constants where the instruction stands. -/
theorem constant?_of_read (h : read bound inBody i = .ok st) :
    i.constant? bound = st.constant? := by
  have hfalse : read bound false i = .ok st → i.constant? bound = st.constant? := by
    intro h
    unfold Instruction.constant?
    rw [h]
    cases st <;> rfl
  cases inBody with
  | false => exact hfalse h
  | true =>
    cases hrole : Role.ofOpcode? i.opcode with
    | none =>
      unfold read at h
      rw [hrole] at h
      cases h
      unfold Instruction.constant? read
      rw [hrole]
      rfl
    | some role =>
      have hread : ∀ inBody, read bound inBody i = ofRole bound inBody i role := by
        intro inBody
        unfold read
        rw [hrole]
      rw [hread] at h hfalse
      cases role with
      | type form => cases h
      | function => cases h
      | globalVar =>
        cases h
        unfold Instruction.constant?
        rw [hread]
        unfold ofRole
        rw [if_neg Bool.false_ne_true]
        have hnone : (readGlobalVar bound).Yields fun d => d.constant? = none :=
          Read.yields_bind fun _ => Read.yields_bind fun _ => Read.yields_bind fun _ =>
            Read.yields_pure rfl
        cases hrun : (readGlobalVar bound).run i.operands with
        | ok d => exact hnone.of_run hrun
        | error e => rfl
      | _ => exact hfalse h

/-- A number has an ID and a value of at least one word. -/
theorem read_number (hop : i.opcode = opConstant ∨ i.opcode = opSpecConstant)
    (h : read bound inBody i = .ok st) : ∃ type id low high,
      i.operands = type :: id :: low :: high ∧ st = .declare (.constant id
        { type, kind := .scalar low high, isSpecialization := i.opcode = opSpecConstant }) := by
  have hread : read bound inBody i = .declare <$>
      (readConstant bound (i.opcode = opSpecConstant) .scalar).run i.operands := by
    unfold read
    rcases hop with hop | hop <;> rw [hop] <;> rfl
  rw [hread] at h
  obtain ⟨d, hd, rfl⟩ := map_eq_ok_iff.mp h
  obtain ⟨type, id, words, kind, hws, -, -, hkind, rfl⟩ := Defaults.run_readConstant_eq_ok_iff.mp hd
  cases words with
  | nil => cases hkind
  | cons low high =>
    cases hkind
    exact ⟨type, id, low, high, hws, rfl⟩

end Statement

namespace Draft

variable {bound : Word} {d t : Draft} {i : Instruction} {is : List Instruction}

theorem sound_addInstruction (hd : d.declarations.Sound bound)
    (h : d.addInstruction bound i = .ok t) : t.declarations.Sound bound := by
  cases collects_of_addInstruction h with
  | ignored | annotate => exact hd
  | declare hread hadd => exact hd.add (Statement.inBound_of_read hread) hadd

/-- **Collecting instructions** keeps the declarations sound. -/
theorem sound_foldlM (h : is.foldlM (addInstruction bound) d = .ok t)
    (hd : d.declarations.Sound bound) : t.declarations.Sound bound :=
  foldlM_invariant (P := fun d : Draft => d.declarations.Sound bound) h hd
    fun _ _ _ _ hd hadd => sound_addInstruction hd hadd

theorem constants_addInstruction (h : d.addInstruction bound i = .ok t) :
    t.declarations.constants.entries =
      d.declarations.constants.entries ++ (i.constant? bound).toList := by
  cases collects_of_addInstruction h with
  | ignored hread | annotate hread =>
    rw [Statement.constant?_of_read hread]
    exact (List.append_nil _).symm
  | declare hread hadd =>
    rw [Statement.constant?_of_read hread]
    exact Declarations.constants_add hadd

/-- **The constants are those that instructions declare**, in order. -/
theorem constants_foldlM (h : is.foldlM (addInstruction bound) d = .ok t) :
    t.declarations.constants.entries =
      d.declarations.constants.entries ++ is.filterMap (Instruction.constant? bound) := by
  exact foldlM_append (fun d : Draft => d.declarations.constants.entries) h
    fun _ _ _ _ hstep => constants_addInstruction hstep

/-- All instructions can be read. -/
theorem reads_foldlM (h : is.foldlM (addInstruction bound) d = .ok t) (hi : i ∈ is) :
    ∃ inBody st, Statement.read bound inBody i = .ok st := by
  obtain ⟨d', d'', hstep⟩ := exists_step_of_foldlM h hi
  obtain ⟨st, hst, -⟩ := bind_eq_ok_iff.mp hstep
  exact ⟨_, st, hst⟩

end Draft

/-! ## Graphs -/

namespace Graph

variable {g : Graph} {words : List Word} {id : Ident}

/-- The instructions of a binary. -/
def instructions (words : List Word) : List Instruction := (cut (words.drop 5)).1

/-- A graph refers only to what it declares, and its IDs are below the bound. -/
structure Closed (g : Graph) : Prop where
  typeIds : ∀ id ∈ g.types.keys, InBound g.header.bound id
  constantIds : ∀ id ∈ g.constants.keys, InBound g.header.bound id
  globalIds : ∀ id ∈ g.globals.keys, InBound g.header.bound id
  functionIds : ∀ id ∈ g.functions.keys, InBound g.header.bound id
  operands : ∀ id decl, g.types.get? id = some decl → ∀ o ∈ decl.operands, o ∈ g.types.keys
  pointees : ∀ id pointee, g.types.get? id = some (.deviceAddress pointee) →
    pointee ∈ g.types.keys
  lengths : ∀ id element length stride, g.types.get? id = some (.array element length stride) →
    length ∈ g.constants.keys
  forwardPointers : ∀ id ∈ g.forwardPointers,
    (∃ storage pointee, g.types.get? id = some (.pointer storage pointee)) ∨
    ∃ pointee, g.types.get? id = some (.deviceAddress pointee)
  constantTypes : ∀ id c, g.constants.get? id = some c → c.type ∈ g.types.keys
  constituents : ∀ id c xs, g.constants.get? id = some c → c.kind = .composite xs →
    ∀ x ∈ xs, x ∈ g.constants.keys
  constantOperands : ∀ id c opcode ws, g.constants.get? id = some c →
    c.kind = .operation opcode ws →
    ∀ x ∈ ConstantKind.identOperands opcode ws, x ∈ g.constants.keys
  globalTypes : ∀ id v, g.globals.get? id = some v →
    ∃ storage pointee, g.types.get? v.type = some (.pointer storage pointee)
  entryPoints : ∀ e ∈ g.annotations.entryPoints, e.function ∈ g.functions.keys
  callees : ∀ id body, g.functions.get? id = some body →
    ∀ callee ∈ body.callees, callee ∈ g.functions.keys
  accessed : ∀ id body, g.functions.get? id = some body →
    ∀ v ∈ body.accessed, v ∈ g.globals.keys

/-! ### Checks -/

theorem mem_keys_of_discard_type (h : discard (g.type id) = .ok ()) : id ∈ g.types.keys := by
  cases ht : g.type id with
  | ok decl => exact Table.mem_keys_of_get? (type_eq_ok_iff.mp ht)
  | error e =>
    rw [ht] at h
    cases h

theorem closed_of_checkType {decl : TypeDecl} (h : g.checkType id = .ok ())
    (hd : g.types.get? id = some decl) : (∀ o ∈ decl.operands, o ∈ g.types.keys) ∧
      (∀ pointee, decl = .deviceAddress pointee → pointee ∈ g.types.keys) ∧
      ∀ element length stride, decl = .array element length stride →
        length ∈ g.constants.keys := by
  unfold checkType at h
  rw [type_eq_ok_iff.mpr hd, ok_bind, forM_bind_eq_ok_iff] at h
  obtain ⟨hoperands, h⟩ := h
  refine ⟨fun o ho => mem_keys_of_discard_type (hoperands o ho), ?_, ?_⟩
  · rintro pointee rfl
    exact mem_keys_of_discard_type h
  · rintro element length stride rfl
    exact Table.mem_keys_of_check h

theorem closed_of_checkForwardPointer (h : g.checkForwardPointer id = .ok ()) :
    (∃ storage pointee, g.types.get? id = some (.pointer storage pointee)) ∨
      ∃ pointee, g.types.get? id = some (.deviceAddress pointee) := by
  unfold checkForwardPointer at h
  split at h
  · rename_i storage pointee hd
    exact .inl ⟨storage, pointee, hd⟩
  · rename_i pointee hd
    exact .inr ⟨pointee, hd⟩
  · cases h

theorem closed_of_checkConstant {c : Constant} (h : g.checkConstant id = .ok ())
    (hc : g.constants.get? id = some c) : c.type ∈ g.types.keys ∧
      (∀ xs, c.kind = .composite xs → ∀ x ∈ xs, x ∈ g.constants.keys) ∧
      ∀ opcode ws, c.kind = .operation opcode ws →
        ∀ x ∈ ConstantKind.identOperands opcode ws, x ∈ g.constants.keys := by
  unfold checkConstant at h
  rw [constant_eq_ok_iff.mpr hc, ok_bind, bind_eq_ok_iff] at h
  obtain ⟨⟨⟩, htype, h⟩ := h
  refine ⟨mem_keys_of_discard_type htype, fun xs hk x hx => ?_, fun opcode ws hk x hx => ?_⟩
  · rw [hk] at h
    exact Table.mem_keys_of_check (forM_eq_ok_iff.mp h x hx)
  · rw [hk] at h
    obtain ⟨⟨⟩, -, h⟩ := bind_eq_ok_iff.mp (forM_eq_ok_iff.mp h x hx)
    exact Table.mem_keys_of_check h

theorem closed_of_checkVariable {v : Variable} (h : g.checkVariable id = .ok ())
    (hv : g.globals.get? id = some v) :
    ∃ storage pointee, g.types.get? v.type = some (.pointer storage pointee) := by
  unfold checkVariable at h
  rw [globalVar_eq_ok_iff.mpr hv, ok_bind, bind_eq_ok_iff] at h
  obtain ⟨decl, hd, h⟩ := h
  split at h
  · rename_i storage pointee
    exact ⟨storage, pointee, type_eq_ok_iff.mp hd⟩
  · cases h

theorem closed_of_checkEntryPoint {e : EntryPointDecl} (h : g.checkEntryPoint e = .ok ()) :
    e.function ∈ g.functions.keys := by
  unfold checkEntryPoint at h
  split at h
  · rename_i hf
    exact Table.mem_keys_iff.mpr hf
  · cases h

theorem closed_of_checkCalls {body : FunctionBody} (h : g.checkCalls id = .ok ())
    (hb : g.functions.get? id = some body) :
    ∀ callee ∈ body.callees, callee ∈ g.functions.keys := by
  unfold checkCalls at h
  rw [hb] at h
  intro callee hcallee
  have hmem := forM_eq_ok_iff.mp h callee hcallee
  split at hmem
  · rename_i hf
    exact Table.mem_keys_iff.mpr hf
  · cases hmem

/-- **A graph that passes the checks is closed**, if its declarations are sound. -/
theorem closed_of_check (h : g.check = .ok ())
    (htypes : ∀ id ∈ g.types.keys, InBound g.header.bound id)
    (hconstants : ∀ id ∈ g.constants.keys, InBound g.header.bound id)
    (hglobals : ∀ id ∈ g.globals.keys, InBound g.header.bound id)
    (hfunctions : ∀ id ∈ g.functions.keys, InBound g.header.bound id)
    (haccessed : ∀ id body, g.functions.get? id = some body →
      ∀ v ∈ body.accessed, v ∈ g.globals.keys) : g.Closed := by
  obtain ⟨ht, hp, hc, hv, he, hf⟩ := check_eq_ok_iff.mp h
  have htype : ∀ id decl, g.types.get? id = some decl → g.checkType id = .ok () :=
    fun id _ hd => ht id (IdSet.mem_ofList.mpr (Table.mem_keys_of_get? hd))
  have hconstant : ∀ id c, g.constants.get? id = some c → g.checkConstant id = .ok () :=
    fun id _ hget => hc id (Table.mem_keys_of_get? hget)
  exact {
    typeIds := htypes
    constantIds := hconstants
    globalIds := hglobals
    functionIds := hfunctions
    operands := fun id decl hd => (closed_of_checkType (htype id decl hd) hd).1
    pointees := fun id pointee hd =>
      (closed_of_checkType (htype id _ hd) hd).2.1 pointee rfl
    lengths := fun id element length stride hd =>
      (closed_of_checkType (htype id _ hd) hd).2.2 element length stride rfl
    forwardPointers := fun id hid => closed_of_checkForwardPointer (hp id hid)
    constantTypes := fun id c hget => (closed_of_checkConstant (hconstant id c hget) hget).1
    constituents := fun id c xs hget =>
      (closed_of_checkConstant (hconstant id c hget) hget).2.1 xs
    constantOperands := fun id c opcode ws hget =>
      (closed_of_checkConstant (hconstant id c hget) hget).2.2 opcode ws
    globalTypes := fun id v hget => closed_of_checkVariable
      (hv id (IdSet.mem_ofList.mpr (Table.mem_keys_of_get? hget))) hget
    entryPoints := fun e hmem => closed_of_checkEntryPoint (he e hmem)
    callees := fun id body hb => closed_of_checkCalls
      (hf id (IdSet.mem_ofList.mpr (Table.mem_keys_of_get? hb))) hb
    accessed := haccessed }

/-! ### Graphs of binaries -/

/-- A graph is made of declarations that are sound and hold what the instructions declare. No
function is left open. -/
theorem exists_draft_of_ofWords (h : ofWords words = .ok g) : ∃ d : Draft,
    (instructions words).foldlM (Draft.addInstruction g.header.bound) {} = .ok d ∧
    d.declarations.current = none ∧ d.declarations.Sound g.header.bound ∧
    g.types = d.annotatedTypes ∧ g.constants = d.declarations.constants ∧
    g.globals = d.declarations.globals ∧ g.functions = d.declarations.functions ∧
    g.check = .ok () := by
  obtain ⟨header, body, d, order, hread, hd, hcheck, -, rfl⟩ := ofWords_eq_ok_iff.mp h
  obtain ⟨-, hfold, hcurrent⟩ := Draft.ofStream_eq_ok_iff.mp hd
  rw [instructions, Header.drop_of_read hread]
  exact ⟨d, hfold, hcurrent, Draft.sound_foldlM hfold Declarations.sound_empty, rfl, rfl, rfl, rfl,
    hcheck⟩

/-- **The graph of a binary is closed.** -/
theorem closed_of_ofWords (h : ofWords words = .ok g) : g.Closed := by
  obtain ⟨d, -, -, hsound, ht, hc, hv, hf, hcheck⟩ := exists_draft_of_ofWords h
  refine closed_of_check hcheck ?_ ?_ ?_ ?_ ?_
  · rw [ht, Draft.annotatedTypes, Table.keys_mapWithKey]
    exact hsound.types
  · rw [hc]
    exact hsound.constants
  · rw [hv]
    exact hsound.globals
  · rw [hf]
    exact hsound.functions
  · rw [hf, hv]
    exact hsound.accessed

/-- **A graph refers only to what it declares**, and its constants are those that the instructions
declare, in their order and once each; a number has a value of at least one word. -/
theorem ofWords_closed (h : ofWords words = .ok g) : g.Closed ∧
    g.constants.entries =
      (instructions words).filterMap (Instruction.constant? g.header.bound) ∧
    g.constants.keys.Nodup ∧
    ∀ i ∈ instructions words, i.opcode = opConstant ∨ i.opcode = opSpecConstant →
      ∃ type id low high, i.operands = type :: id :: low :: high ∧
        g.constants.get? id = some
          { type, kind := .scalar low high, isSpecialization := i.opcode = opSpecConstant } := by
  obtain ⟨d, hfold, -, -, -, hc, -, -, -⟩ := exists_draft_of_ofWords h
  have hentries : g.constants.entries =
      (instructions words).filterMap (Instruction.constant? g.header.bound) := by
    rw [hc, Draft.constants_foldlM hfold]
    rfl
  refine ⟨closed_of_ofWords h, hentries, g.constants.nodup, fun i hi hop => ?_⟩
  obtain ⟨inBody, st, hst⟩ := Draft.reads_foldlM hfold hi
  have hconstant := Statement.constant?_of_read hst
  obtain ⟨type, id, low, high, hws, rfl⟩ := Statement.read_number hop hst
  refine ⟨type, id, low, high, hws, Table.get?_eq_some_iff.mpr ?_⟩
  rw [hentries, List.mem_filterMap]
  exact ⟨i, hi, hconstant⟩

set_option maxRecDepth 100000 in
/-- The two constants of the small binary are declared in the order of their IDs. -/
theorem sample_ofWords_closed : ∃ g, ofWords (sampleWords 1) = .ok g ∧ g.Closed ∧
    g.constants.keys = [15, 16] ∧ g.constants.entries =
      (instructions (sampleWords 1)).filterMap (Instruction.constant? g.header.bound) := by
  obtain ⟨g, hg, hkeys⟩ := exists_eq_ok_of_any (x := ofWords (sampleWords 1))
    (p := fun g => g.constants.keys = [15, 16]) (by decide +kernel)
  have hclosed := ofWords_closed hg
  exact ⟨g, hg, hclosed.1, of_decide_eq_true hkeys, hclosed.2.1⟩

end Graph

/-- What entry points are described from has a closed graph. -/
theorem Config.closed_of_source {c : Config} {s : Source} {words : List Word}
    (h : c.source words = .ok s) : s.graph.Closed :=
  Graph.closed_of_ofWords (ofWords_of_source h)

end ShaderReflect
