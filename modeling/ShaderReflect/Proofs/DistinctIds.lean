import Mathlib.Logic.ExistsUnique
import ShaderReflect.Proofs.Closed

/-!
# Distinct IDs

An entity is refused if its ID is taken by an entity of its kind, and a constant and a variable are
refused if the ID is taken by one of the other kind. That is all that is checked: a type or a
function may have the ID of something else.

* `Declarations.ids_add`, `Draft.ids_foldlM`: the IDs of each kind are those that instructions
  declare, in order.
* `Declarations.Apart.add`, `Draft.apart_foldlM`: no ID is that of a constant and of a variable.
* `Graph.ofWords_distinct_iff`: when no ID is declared twice.

The specification (4.2) wants duplicate result IDs to be malformed, without a word about kinds. What
is missing for that is told by the result: the pairs of kinds that are not compared. So a binary is
accepted that declares a type, and under the same ID a constant of this type.
-/

namespace ShaderReflect

open Instruction

/-- The outlines of instructions that follow each other, if it is said whether a function is open
before the first one. -/
def Instruction.outlines (inBody : Bool) : List Instruction → List Outline
  | [] => []
  | i :: is => i.outline inBody :: outlines (i.scope inBody) is

/-- An outline declares an ID if it has it. -/
theorem Outline.id?_eq_some_iff {kind : Entity} {o : Outline} {id : Ident} :
    o.id? kind = some id ↔ o = .declares kind id := by
  cases o with
  | declares kind' id' =>
    simp only [id?, Option.ite_none_right_eq_some, Option.some.injEq, declares.injEq]
  | endsFunction | neutral => exact ⟨nofun, nofun⟩

theorem Outline.kind_eq_of_ofResult {kind kind' : Entity} {id : Ident} {id? : Option Ident}
    (h : ofResult kind id? = .declares kind' id) : kind = kind' := by
  cases id? with
  | none => cases h
  | some id =>
    cases h
    rfl

/-- Only instructions of one role declare functions. -/
theorem Role.eq_function_of_outline {inBody : Bool} {ws : List Word} {role : Role} {id : Ident}
    (h : role.outline inBody ws = .declares .function id) : role = .function := by
  cases role with
  | function => rfl
  | type form =>
    cases form with
    | forwardPointer => cases h
    | _ => cases Outline.kind_eq_of_ofResult h
  | constant | specConstant | composite | specOperation =>
    cases Outline.kind_eq_of_ofResult h
  | globalVar =>
    cases inBody with
    | true => cases h
    | false => cases Outline.kind_eq_of_ofResult h
  | _ => cases h

/-- A function is not declared while one is open. -/
theorem Statement.inBody_eq_false_of_read {bound : Word} {inBody : Bool} {i : Instruction}
    {id : Ident} (h : read bound inBody i = .ok (.declare (.function id))) : inBody = false := by
  have houtline : Outline.declares .function id = i.outline inBody := outline_of_read h
  unfold Instruction.outline at houtline
  unfold read at h
  cases hrole : Role.ofOpcode? i.opcode with
  | none =>
    rw [hrole] at houtline
    cases houtline
  | some role =>
    rw [hrole] at houtline h
    cases Role.eq_function_of_outline houtline.symm
    cases inBody with
    | false => rfl
    | true => cases h

/-- If what is picked from a list has no duplicates, then each of it is picked from one place. -/
theorem place_unique {α β : Type} {f : α → Option β} {xs : List α} {a a' : α} {b : β}
    {k k' : Nat} (h : (xs.filterMap f).Nodup) (hk : xs[k]? = some a) (hk' : xs[k']? = some a')
    (ha : f a = some b) (ha' : f a' = some b) : k = k' := by
  have hapart := List.pairwise_iff_getElem.mp (List.pairwise_filterMap.mp h)
  obtain ⟨hlt, rfl⟩ := List.getElem?_eq_some_iff.mp hk
  obtain ⟨hlt', rfl⟩ := List.getElem?_eq_some_iff.mp hk'
  rcases Nat.lt_trichotomy k k' with hless | heq | hless
  · exact absurd rfl (hapart k k' hlt hlt' hless b ha b ha')
  · exact heq
  · exact absurd rfl (hapart k' k hlt' hlt hless b ha' b ha)

/-! ## Declarations -/

namespace Declarations

variable {ds ds' : Declarations} {d : Declaration} {kind : Entity}

/-- The IDs of the declared entities of a kind. An open function counts as declared. -/
def ids (ds : Declarations) : Entity → List Ident
  | .type => ds.types.keys
  | .constant => ds.constants.keys
  | .globalVar => ds.globals.keys
  | .function => ds.functions.keys ++ (ds.current.map Prod.fst).toList

/-- **The IDs with one more declaration.** A function may be opened if none is open. -/
theorem ids_add (h : ds.add d = .ok ds') (hopen : ∀ id, d = .function id → ds.current = none) :
    ds'.ids kind = ds.ids kind ++ (d.outline.id? kind).toList := by
  cases adds_of_add h with
  | type htypes =>
    cases kind with
    | type => exact Table.keys_insertNew? htypes
    | constant | globalVar | function => exact (List.append_nil _).symm
  | constant hfree hconstants =>
    cases kind with
    | constant => exact Table.keys_insertNew? hconstants
    | type | globalVar | function => exact (List.append_nil _).symm
  | globalVar hfree hglobals =>
    cases kind with
    | globalVar => exact Table.keys_insertNew? hglobals
    | type | constant | function => exact (List.append_nil _).symm
  | function id =>
    cases kind with
    | function =>
      -- The function counts from here on: at its end, its ID only moves into the table.
      unfold ids
      rw [hopen id rfl]
      simp [Declaration.outline, Outline.id?]
    | type | constant | globalVar => exact (List.append_nil _).symm
  | functionEnd hcurrent hfunctions =>
    cases kind with
    | function =>
      unfold ids
      rw [Table.keys_insertNew? hfunctions, hcurrent]
      simp [Declaration.outline, Outline.id?]
    | type | constant | globalVar => exact (List.append_nil _).symm
  | neutral hd htypes hconstants hglobals hfunctions hcurrent =>
    rw [hd]
    cases kind <;> simp [ids, Outline.id?, htypes, hconstants, hglobals, hfunctions, hcurrent]

/-- No ID is that of a constant and that of a variable. -/
def Apart (ds : Declarations) : Prop := ∀ id ∈ ds.constants.keys, id ∉ ds.globals.keys

/-- **One more declaration** leaves constants and variables apart. -/
theorem Apart.add (hds : ds.Apart) (h : ds.add d = .ok ds') : ds'.Apart := by
  cases adds_of_add h with
  | constant hfree hconstants =>
    intro id hid hglobal
    rcases (Table.mem_keys_insertNew? hconstants).mp hid with hid | rfl
    · exact hds id hid hglobal
    · rw [Table.mem_keys_iff, hfree] at hglobal
      cases hglobal
  | globalVar hfree hglobals =>
    intro id hid hglobal
    rcases (Table.mem_keys_insertNew? hglobals).mp hglobal with hglobal | rfl
    · exact hds id hid hglobal
    · rw [Table.mem_keys_iff, hfree] at hid
      cases hid
  | type | function | functionEnd => exact hds
  | neutral hd htypes hconstants hglobals =>
    unfold Apart
    rw [hconstants, hglobals]
    exact hds

end Declarations

/-! ## Instructions -/

namespace Draft

variable {bound : Word} {d t : Draft} {i : Instruction} {is : List Instruction} {kind : Entity}

/-- The IDs with what an instruction declares. -/
theorem ids_addInstruction (h : d.addInstruction bound i = .ok t) :
    t.declarations.ids kind = d.declarations.ids kind ++
      ((i.outline d.declarations.current.isSome).id? kind).toList := by
  cases collects_of_addInstruction h with
  | ignored hread | annotate hread =>
    rw [← Statement.outline_of_read hread]
    exact (List.append_nil _).symm
  | declare hread hadd =>
    rw [← Statement.outline_of_read hread]
    refine Declarations.ids_add hadd fun id hc => ?_
    subst hc
    exact Option.isNone_iff_eq_none.mp
      (Option.isSome_eq_false_iff.mp (Statement.inBody_eq_false_of_read hread))

/-- **The IDs with what instructions declare.** -/
theorem ids_foldlM (h : is.foldlM (addInstruction bound) d = .ok t) :
    t.declarations.ids kind = d.declarations.ids kind ++
      (outlines d.declarations.current.isSome is).filterMap (Outline.id? kind) := by
  induction is generalizing d with
  | nil =>
    cases h
    exact (List.append_nil _).symm
  | cons i is ih =>
    rw [List.foldlM_cons, bind_eq_ok_iff] at h
    obtain ⟨d', hd', h⟩ := h
    rw [ih h, ids_addInstruction hd', isSome_current_addInstruction hd', List.append_assoc,
      outlines, List.filterMap_cons]
    cases (i.outline d.declarations.current.isSome).id? kind <;> rfl

/-- **Constants and variables stay apart** while instructions are collected. -/
theorem apart_foldlM (h : is.foldlM (addInstruction bound) d = .ok t)
    (hd : d.declarations.Apart) : t.declarations.Apart := by
  refine foldlM_invariant (P := fun d : Draft => d.declarations.Apart) h hd ?_
  intro i _ d t hd ht
  cases collects_of_addInstruction ht with
  | ignored | annotate => exact hd
  | declare hread hadd => exact hd.add hadd

end Draft

/-! ## Graphs -/

namespace Graph

variable {g : Graph} {words : List Word} {kind : Entity} {id : Ident}

/-- The IDs of the entities of a kind. -/
def ids (g : Graph) : Entity → List Ident
  | .type => g.types.keys
  | .constant => g.constants.keys
  | .globalVar => g.globals.keys
  | .function => g.functions.keys

/-- The instruction at a place of a binary declares an entity. -/
def DeclaredAt (words : List Word) (place : Nat) (kind : Entity) (id : Ident) : Prop :=
  (outlines false (instructions words))[place]? = some (.declares kind id)

/-- No ID is declared twice: entities of different kinds have different IDs, and each ID is declared
by one instruction. -/
structure Distinct (words : List Word) (g : Graph) : Prop where
  disjoint : ∀ kind kind', kind ≠ kind' → ∀ id ∈ g.ids kind, id ∉ g.ids kind'
  declaredOnce : ∀ kind, ∀ id ∈ g.ids kind, ∃! place, ∃ kind', DeclaredAt words place kind' id

/-- **The IDs of each kind** are those that instructions declare, in order. -/
theorem ids_of_ofWords (h : ofWords words = .ok g) (kind : Entity) :
    g.ids kind = (outlines false (instructions words)).filterMap (Outline.id? kind) := by
  obtain ⟨d, hfold, hcurrent, -, ht, hc, hv, hf, -⟩ := exists_draft_of_ofWords h
  have hids : d.declarations.ids kind = _ := Draft.ids_foldlM hfold
  cases kind with
  | type =>
    rw [ids, ht, Draft.annotatedTypes, Table.keys_mapWithKey]
    exact hids
  | constant =>
    rw [ids, hc]
    exact hids
  | globalVar =>
    rw [ids, hv]
    exact hids
  | function =>
    rw [ids, hf]
    rw [Declarations.ids, hcurrent] at hids
    exact (List.append_nil _).symm.trans hids

theorem nodup_ids (g : Graph) (kind : Entity) : (g.ids kind).Nodup := by
  cases kind with
  | type => exact g.types.nodup
  | constant => exact g.constants.nodup
  | globalVar => exact g.globals.nodup
  | function => exact g.functions.nodup

theorem mem_ids_iff (h : ofWords words = .ok g) :
    id ∈ g.ids kind ↔ ∃ place, DeclaredAt words place kind id := by
  rw [ids_of_ofWords h, List.mem_filterMap]
  simp only [Outline.id?_eq_some_iff, exists_eq_right, List.mem_iff_getElem?, DeclaredAt]

/-- An ID is not declared at two places as that of entities of one kind. -/
theorem DeclaredAt.unique (h : ofWords words = .ok g) {place place' : Nat}
    (hplace : DeclaredAt words place kind id) (hplace' : DeclaredAt words place' kind id) :
    place = place' := by
  have hnodup := ids_of_ofWords h kind ▸ g.nodup_ids kind
  exact place_unique hnodup hplace hplace' (Outline.id?_eq_some_iff.mpr rfl)
    (Outline.id?_eq_some_iff.mpr rfl)

theorem apart_of_ofWords (h : ofWords words = .ok g) :
    ∀ id ∈ g.constants.keys, id ∉ g.globals.keys := by
  obtain ⟨d, hfold, -, -, -, hc, hv, -, -⟩ := exists_draft_of_ofWords h
  rw [hc, hv]
  exact Draft.apart_foldlM hfold fun _ hid => by cases hid

/-- Entities of different kinds have different IDs if this is so of the five pairs of kinds that
are not compared while the declarations are collected. -/
theorem disjoint_ids (hapart : ∀ id ∈ g.constants.keys, id ∉ g.globals.keys)
    (htypes : ∀ id ∈ g.types.keys,
      id ∉ g.constants.keys ∧ id ∉ g.globals.keys ∧ id ∉ g.functions.keys)
    (hfunctions : ∀ id ∈ g.functions.keys, id ∉ g.constants.keys ∧ id ∉ g.globals.keys)
    (kind kind' : Entity) (hkind : kind ≠ kind') : ∀ id ∈ g.ids kind, id ∉ g.ids kind' := by
  intro id hid hid'
  cases kind with
  | type =>
    obtain ⟨hconstant, hglobal, hfunction⟩ := htypes id hid
    cases kind' with
    | type => exact hkind rfl
    | constant => exact hconstant hid'
    | globalVar => exact hglobal hid'
    | function => exact hfunction hid'
  | constant =>
    cases kind' with
    | type => exact (htypes id hid').1 hid
    | constant => exact hkind rfl
    | globalVar => exact hapart id hid hid'
    | function => exact (hfunctions id hid').1 hid
  | globalVar =>
    cases kind' with
    | type => exact (htypes id hid').2.1 hid
    | constant => exact hapart id hid' hid
    | globalVar => exact hkind rfl
    | function => exact (hfunctions id hid').2 hid
  | function =>
    obtain ⟨hconstant, hglobal⟩ := hfunctions id hid
    cases kind' with
    | type => exact (htypes id hid').2.2 hid
    | constant => exact hconstant hid'
    | globalVar => exact hglobal hid'
    | function => exact hkind rfl

/-- If entities of different kinds have different IDs, then no ID is declared twice. -/
theorem distinct_of_disjoint (h : ofWords words = .ok g)
    (hdisjoint : ∀ kind kind', kind ≠ kind' → ∀ id ∈ g.ids kind, id ∉ g.ids kind') :
    g.Distinct words where
  disjoint := hdisjoint
  declaredOnce kind id hid := by
    obtain ⟨place, hplace⟩ := (mem_ids_iff h).mp hid
    refine ⟨place, ⟨kind, hplace⟩, ?_⟩
    rintro place' ⟨kind', hplace'⟩
    -- Declared as something of another kind, the ID would be among those of that kind as well.
    by_cases hkind : kind = kind'
    · subst hkind
      exact hplace'.unique h hplace
    · exact absurd ((mem_ids_iff h).mpr ⟨place', hplace'⟩) (hdisjoint kind kind' hkind id hid)

/-- **The IDs that a graph declares.** Of each kind they are those that the instructions declare,
and no two instructions declare entities of one kind under one ID. Nor is an ID that of a constant
and of a variable. So no ID is declared twice exactly if no type has the ID of anything else, and
no function that of a constant or of a variable. -/
theorem ofWords_distinct_iff (h : ofWords words = .ok g) :
    (∀ kind id, id ∈ g.ids kind ↔ ∃ place, DeclaredAt words place kind id) ∧
    (∀ kind id place place', DeclaredAt words place kind id → DeclaredAt words place' kind id →
      place = place') ∧
    (∀ id ∈ g.constants.keys, id ∉ g.globals.keys) ∧
    (g.Distinct words ↔
      (∀ id ∈ g.types.keys,
        id ∉ g.constants.keys ∧ id ∉ g.globals.keys ∧ id ∉ g.functions.keys) ∧
      ∀ id ∈ g.functions.keys, id ∉ g.constants.keys ∧ id ∉ g.globals.keys) := by
  refine ⟨fun _ _ => mem_ids_iff h, fun _ _ _ _ => DeclaredAt.unique h, apart_of_ofWords h, ?_⟩
  constructor
  · intro hdistinct
    refine ⟨fun id hid => ⟨?_, ?_, ?_⟩, fun id hid => ⟨?_, ?_⟩⟩
    · exact hdistinct.disjoint .type .constant nofun id hid
    · exact hdistinct.disjoint .type .globalVar nofun id hid
    · exact hdistinct.disjoint .type .function nofun id hid
    · exact hdistinct.disjoint .function .constant nofun id hid
    · exact hdistinct.disjoint .function .globalVar nofun id hid
  · rintro ⟨htypes, hfunctions⟩
    exact distinct_of_disjoint h (disjoint_ids (apart_of_ofWords h) htypes hfunctions)

set_option maxRecDepth 100000 in
/-- All IDs of the small binary are distinct. -/
theorem sample_ofWords_distinct : ∃ g, ofWords (sampleWords 1) = .ok g ∧
    g.types.keys.length = 13 ∧ g.Distinct (sampleWords 1) := by
  obtain ⟨g, hg, hkeys⟩ := exists_eq_ok_of_any (x := ofWords (sampleWords 1))
    (p := fun g => g.types.keys.length = 13 ∧
      (g.types.keys.all fun id =>
        id ∉ g.constants.keys ∧ id ∉ g.globals.keys ∧ id ∉ g.functions.keys) = true ∧
      (g.functions.keys.all fun id => id ∉ g.constants.keys ∧ id ∉ g.globals.keys) = true)
    (by decide +kernel)
  obtain ⟨hlength, htypes, hfunctions⟩ := of_decide_eq_true hkeys
  have hdistinct : g.Distinct (sampleWords 1) := (ofWords_distinct_iff hg).2.2.2.mpr
    ⟨fun id hid => of_decide_eq_true (List.all_eq_true.mp htypes id hid),
      fun id hid => of_decide_eq_true (List.all_eq_true.mp hfunctions id hid)⟩
  exact ⟨g, hg, hlength, hdistinct⟩

/-- An integer type and a constant of this type under the ID of the type. -/
def sharedIdWords : List Word :=
  [0x07230203, 0x00010000, 0, 10, 0, 0x00040015, 1, 32, 0, 0x0004002B, 1, 1, 5]

/-- A type and a constant may have the same ID. -/
theorem sample_sharedId_not_distinct : ∃ g, ofWords sharedIdWords = .ok g ∧
    (1 ∈ g.types.keys ∧ 1 ∈ g.constants.keys) ∧ ¬ g.Distinct sharedIdWords := by
  obtain ⟨g, hg, hshared⟩ := exists_eq_ok_of_any (x := ofWords sharedIdWords)
    (p := fun g => 1 ∈ g.types.keys ∧ 1 ∈ g.constants.keys) (by decide +kernel)
  have hshared : 1 ∈ g.types.keys ∧ 1 ∈ g.constants.keys := of_decide_eq_true hshared
  exact ⟨g, hg, hshared, fun hdistinct =>
    hdistinct.disjoint .type .constant nofun 1 hshared.1 hshared.2⟩

end Graph

end ShaderReflect
