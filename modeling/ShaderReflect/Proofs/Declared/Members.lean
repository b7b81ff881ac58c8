import ShaderReflect.Proofs.Declared.Effect
import ShaderReflect.Proofs.UniqueNames

/-!
# The members of structs

The members of a struct are the operands of one instruction, whose length takes half a word, so
there are fewer than 65536 of them. Their names are given by other instructions, among which those
with an empty name do not count. So each member can be told by a text that is not empty: its name,
or else its index.

* `Statement.operands_of_read_struct`: the members that an instruction declares.
* `Draft.Legible.addInstruction` is the step, `Draft.legible_foldlM` the run.
* `Config.legible_of_reflect`: the members of reported structs.

This is what paths need. Names are joined by a dot behind a path that is not empty only, so an empty
name would leave no trace in the path of a part.
-/

namespace ShaderReflect

open Instruction

/-- The members of a struct are fewer than 65536, and none has an empty name. -/
structure TypeDesc.Legible {τ : Type} (desc : TypeDesc τ) : Prop where
  few : ∀ ms ∈ desc.members?, ms.length < 0x10000
  named : ∀ ms ∈ desc.members?, ∀ m ∈ ms, m.name ≠ some ""

/-! ## What instructions declare -/

namespace Read

variable {α β : Type} {r : Read α} {f : α → Read β} {ws : List Word} {b : β}

theorem run_bind_eq_ok_iff :
    (r >>= f).run ws = .ok b ↔ ∃ a left, r ws = (.ok a, left) ∧ (f a).run left = .ok b := by
  rcases hr : r ws with ⟨x, left⟩
  unfold run
  cases x with
  | ok a =>
    rw [bind_of_ok hr]
    constructor
    · intro h
      exact ⟨a, left, rfl, h⟩
    · rintro ⟨a', left', heq, h⟩
      cases heq
      exact h
  | error e =>
    rw [bind_of_error hr]
    constructor
    · intro h
      cases h
    · rintro ⟨a', left', heq, -⟩
      cases heq

end Read

namespace Statement

open Read

variable {bound : Word} {inBody : Bool} {i : Instruction} {id : Ident} {decl : TypeDecl}
  {name : Option String} {ms : List MemberDecl} {isBufferBlock : Bool} {ws : List Word}

/-- A type is declared by an instruction for types. -/
theorem exists_readType_of_read (h : read bound inBody i = .ok (.declare (.type id decl))) :
    ∃ form, (readType bound form).run i.operands = .ok (.type id decl) := by
  have houtline : Outline.declares .type id = i.outline inBody := outline_of_read h
  have hresult : ∀ {kind id?}, Outline.declares .type id = .ofResult kind id? → kind = .type := by
    intro kind id? h
    cases id? <;> cases h
    rfl
  unfold Instruction.outline at houtline
  unfold read at h
  cases hrole : Role.ofOpcode? i.opcode with
  | none =>
    rw [hrole] at houtline
    cases houtline
  | some role =>
    rw [hrole] at h houtline
    cases role with
    | type form =>
      cases inBody with
      | true => cases h
      | false =>
        obtain ⟨d, hd, heq⟩ := map_eq_ok_iff.mp h
        cases heq
        exact ⟨form, hd⟩
    | constant form | specConstant form | composite isSpec | specOperation | function =>
      cases hresult houtline
    | globalVar =>
      cases inBody with
      | true => cases houtline
      | false => cases hresult houtline
    | _ => cases houtline

/-- The members of a struct are declared by all operands that are left. -/
theorem types_of_readTypeDecl {form : TypeForm}
    (h : (readTypeDecl bound form).run ws = .ok (.struct name ms isBufferBlock)) :
    ms.map (·.type) = ws := by
  cases form with
  | struct =>
    obtain ⟨ids, left, hids, h⟩ := run_bind_eq_ok_iff.mp h
    cases h
    rw [List.map_map, eq_of_idents hids]
    exact List.map_id ws
  | pointer =>
    obtain ⟨storage, left, -, h⟩ := run_bind_eq_ok_iff.mp h
    obtain ⟨pointee, left, -, h⟩ := run_bind_eq_ok_iff.mp h
    by_cases hs : storage = .physicalStorageBuffer
    · cases (if_pos hs).symm.trans (Except.ok.inj h)
    · cases (if_neg hs).symm.trans (Except.ok.inj h)
  | void | bool | sampler | accelStruct | forwardPointer | unreported => cases h
  | float | sampledImage | runtimeArray =>
    obtain ⟨_, left, -, h⟩ := run_bind_eq_ok_iff.mp h
    cases h
  | int | vector | matrix | image | array =>
    obtain ⟨_, left, -, h⟩ := run_bind_eq_ok_iff.mp h
    obtain ⟨_, left, -, h⟩ := run_bind_eq_ok_iff.mp h
    cases h

/-- **The members of a struct are declared by the operands** of one instruction, after its ID. -/
theorem operands_of_read_struct
    (h : read bound inBody i = .ok (.declare (.type id (.struct name ms isBufferBlock)))) :
    i.operands = id :: ms.map (·.type) := by
  obtain ⟨form, h⟩ := exists_readType_of_read h
  cases form with
  | forwardPointer =>
    obtain ⟨_, left, -, h⟩ := run_bind_eq_ok_iff.mp h
    obtain ⟨_, left, -, h⟩ := run_bind_eq_ok_iff.mp h
    cases h
  | _ =>
    obtain ⟨id', left, hws, -, h⟩ := ident_bind_eq_ok_iff.mp h
    obtain ⟨decl, left', hdecl, h⟩ := run_bind_eq_ok_iff.mp h
    cases h
    rw [hws, types_of_readTypeDecl (congrArg Prod.fst hdecl)]

end Statement

/-! ## What is collected -/

namespace Draft

variable {bound : Word} {d t : Draft} {i : Instruction} {is : List Instruction}

/-- What a draft keeps: the declared structs have fewer than 65536 members each, and no name is
empty. -/
structure Legible (d : Draft) : Prop where
  few : ∀ id name ms isBufferBlock,
    d.declarations.types.get? id = some (.struct name ms isBufferBlock) → ms.length < 0x10000
  named : ∀ target, d.annotations.names.get? target ≠ some ""

theorem legible_empty : Legible {} where
  few _ _ _ _ h := by cases h
  named _ h := by cases h

theorem Legible.add (h : d.Legible) (a : Annotation) :
    Legible { d with annotations := d.annotations.add a } where
  few := h.few
  named target := by
    cases a with
    | name target' text =>
      simp only [Annotations.add]
      by_cases htext : text.isEmpty = true
      · rw [if_pos htext]
        exact h.named target
      · rw [if_neg htext, Table.get?_insertFirst]
        split
        · intro hname
          rcases Option.or_eq_some_iff.mp hname with hname | ⟨-, hname⟩
          · exact h.named target' hname
          · cases hname
            exact htext rfl
        · exact h.named target
    | entryPoint | executionMode | decoration => exact h.named target

/-- **One more instruction.** -/
theorem Legible.addInstruction (h : d.Legible) (hi : i.Encodable)
    (hadd : d.addInstruction bound i = .ok t) : t.Legible := by
  cases collects_of_addInstruction hadd with
  | ignored => exact h
  | annotate => exact h.add _
  | declare hread hdeclare =>
    refine { h with few := ?_ }
    cases Declarations.adds_of_add hdeclare with
    | type hnew =>
      intro id name ms isBufferBlock hget
      rcases Table.get?_of_insertNew? hnew hget with hget | ⟨rfl, rfl⟩
      · exact h.few id name ms isBufferBlock hget
      · have hcount := hi.2
        rw [Instruction.wordCount, Statement.operands_of_read_struct hread, List.length_cons,
          List.length_map] at hcount
        omega
    | constant | globalVar | function | functionEnd => exact h.few
    | neutral _ htypes =>
      rw [htypes]
      exact h.few

theorem legible_foldlM (hi : ∀ i ∈ is, i.Encodable)
    (h : is.foldlM (addInstruction bound) {} = .ok t) : t.Legible :=
  foldlM_invariant (P := Legible) h legible_empty fun i hmem _ _ hd hadd =>
    hd.addInstruction (hi i hmem) hadd

end Draft

/-! ## What is reported -/

/-- The members of the structs of a graph. -/
theorem Graph.legible_of_ofWords {words : List Word} {g : Graph} (h : ofWords words = .ok g)
    {id : Ident} {name : Option String} {ms : List MemberDecl} {isBufferBlock : Bool}
    (hget : g.types.get? id = some (.struct name ms isBufferBlock)) :
    ms.length < 0x10000 ∧ ∀ m ∈ ms, m.name ≠ some "" := by
  obtain ⟨header, body, d, order, -, hd, -, -, rfl⟩ := ofWords_eq_ok_iff.mp h
  obtain ⟨-, hfold, -⟩ := Draft.ofStream_eq_ok_iff.mp hd
  have hlegible := Draft.legible_foldlM (encodable_of_mem_cut body) hfold
  have hget : d.annotatedTypes.get? id = some (.struct name ms isBufferBlock) := hget
  rw [Draft.annotatedTypes, Table.get?_mapWithKey] at hget
  obtain ⟨decl, hdecl, hget⟩ := Option.map_eq_some_iff.mp hget
  cases decl with
  | struct name' members isBufferBlock' =>
    cases hget
    refine ⟨?_, fun m hm => ?_⟩
    · rw [List.length_mapIdx]
      exact hlegible.few id name' members isBufferBlock' hdecl
    · obtain ⟨k, hk, rfl⟩ := List.mem_mapIdx.mp hm
      exact hlegible.named _
  | _ => cases hget

namespace NameTable

theorem variant_ne_empty {name : String} (h : name ≠ "") (position k : Nat) :
    variant name position k ≠ "" := by
  match k with
  | 0 => exact h
  | 1 | _ + 2 => simp [variant, String.append_eq_empty_iff]

/-- Names that are claimed are not empty if those that are asked for are not. -/
theorem claimFrom_ne_empty {names : List String} (h : ∀ name ∈ names, name ≠ "") (t : NameTable)
    (first : Nat) : ∀ name ∈ (t.claimFrom first names).1, name ≠ "" := by
  induction names generalizing t first with
  | nil => exact fun _ hname => absurd hname List.not_mem_nil
  | cons name names ih =>
    rw [List.forall_mem_cons] at h
    unfold claimFrom
    refine List.forall_mem_cons.mpr ⟨?_, ih h.2 _ _⟩
    obtain ⟨k, hk⟩ := t.exists_claim_eq name first
    rw [hk]
    exact variant_ne_empty h.1 first k

end NameTable

namespace Source

variable {s : Source} {a : Arena} {key : TypeDesc TypeIdx} {ms : List MemberDecl}

/-- No member is given an empty name. -/
theorem memberNames_ne_empty (h : ∀ m ∈ ms, m.name ≠ some "") :
    ∀ name ∈ s.memberNames ms, name ≠ some "" := by
  unfold memberNames
  split
  · intro name hname
    obtain ⟨text, htext, rfl⟩ := List.mem_map.mp hname
    have hasked : ∀ x ∈ ms.mapIdx (fun i m => m.name.getD ("member" ++ toString i)), x ≠ "" := by
      intro x hx
      obtain ⟨k, hk, rfl⟩ := List.mem_mapIdx.mp hx
      cases hm : ms[k].name with
      | none => simp [String.append_eq_empty_iff]
      | some name =>
        rintro rfl
        exact h _ (List.getElem_mem hk) hm
    exact fun heq => NameTable.claimFrom_ne_empty hasked {} 0 text htext (Option.some.inj heq)
  · intro name hname
    obtain ⟨m, hm, rfl⟩ := List.mem_map.mp hname
    exact h m hm

/-- What is admitted to the arena has such members. -/
theorem Admits.legible {words : List Word} (hg : Graph.ofWords words = .ok s.graph)
    (h : s.Admits a key) : key.Legible where
  few ms hms := by
    obtain ⟨id, name, decls, isBufferBlock, hd, hdescs⟩ := h.exists_struct_decl hms
    have hlength := congrArg List.length (names_describeMembers hdescs)
    rw [List.length_map, length_memberNames] at hlength
    rw [hlength]
    exact (Graph.legible_of_ofWords hg hd).1
  named ms hms m hm := by
    obtain ⟨id, name, decls, isBufferBlock, hd, hdescs⟩ := h.exists_struct_decl hms
    refine memberNames_ne_empty (s := s) (Graph.legible_of_ofWords hg hd).2 m.name ?_
    rw [← names_describeMembers hdescs]
    exact List.mem_map_of_mem hm

end Source

/-- **The members of reported structs** are fewer than 65536 each, and none has an empty name. -/
theorem Config.legible_of_reflect {c : Config} {r : Reflection} (h : c.reflect.result = .ok r) :
    ∀ desc ∈ r.types, desc.Legible := by
  obtain ⟨s, p, hr⟩ := exists_madeOf h
  obtain ⟨words, -, hs⟩ := hr.source
  obtain ⟨g, σ, hg, -, rfl⟩ := source_eq_ok_iff.mp hs
  exact hr.forall_types (fun _ _ hk => hk.legible hg) fun _ _ _ hk => ⟨hk.few, hk.named⟩

end ShaderReflect
