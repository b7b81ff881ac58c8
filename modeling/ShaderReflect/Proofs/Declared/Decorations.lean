import ShaderReflect.Proofs.Mentions

/-!
# Adding decorations

A graph has a decoration of an entity or member exactly if an instruction of the binary says so,
wherever it stands (`Graph.hasDecoration_iff`). Decorations may be added to a binary in any number,
anywhere among its instructions (`Redecorates`): the graph then has all that it had before
(`Graph.Redecorates.hasDecoration`), and apart from what annotations say, what it declares is the
same (`Graph.Reannotates`).

Specification, 4.2 (decorations are buffered). As the first decoration of a kind counts, an added
one may come before one that was there and change its parameter. So the results are about
decorations whose presence is all that matters.
-/

namespace ShaderReflect

open Instruction

/-! ## Decorations of instructions -/

/-- The instruction says a decoration of a kind. -/
def Instruction.Decorates (bound : Word) (i : Instruction) (target : Target) (kind : Word) : Prop :=
  ∃ params, i.annotation? bound = some (.decoration target kind params)

/-- **One more annotation** adds a decoration if it is one. -/
theorem Annotations.hasDecoration_add {as : Annotations} {a : Annotation} {id : Ident}
    {member : Option Word} {kind : Word} :
    (as.add a).hasDecoration id member kind = true ↔
      as.hasDecoration id member kind = true ∨
        ∃ params, a = .decoration ⟨id, member⟩ kind params := by
  cases a with
  | decoration target kind' params =>
    simp only [add, hasDecoration, decoration?, Table.get?_insertFirst]
    by_cases hkey : ((⟨id, member⟩, kind) : Target × Word) = (target, kind')
    · cases hkey
      simp
    · rw [if_neg hkey]
      refine (or_iff_left ?_).symm
      rintro ⟨params', heq⟩
      cases heq
      exact hkey rfl
  | name target text =>
    have hsame : (as.add (.name target text)).decorations = as.decorations := by
      simp only [add]
      split <;> rfl
    simp [hasDecoration, decoration?, hsame]
  | entryPoint | executionMode => simp [add, hasDecoration, decoration?]

/-- **Decorations of a draft** are those that it had and those that instructions say. -/
theorem Draft.hasDecoration_foldlM {bound : Word} {d t : Draft} {is : List Instruction} {id : Ident}
    {member : Option Word} {kind : Word} (h : is.foldlM (addInstruction bound) d = .ok t) :
    t.annotations.hasDecoration id member kind = true ↔
      d.annotations.hasDecoration id member kind = true ∨
        ∃ i ∈ is, i.Decorates bound ⟨id, member⟩ kind := by
  induction is generalizing d with
  | nil =>
    cases h
    simp
  | cons i is ih =>
    rw [List.foldlM_cons, bind_eq_ok_iff] at h
    obtain ⟨s, hs, h⟩ := h
    rw [ih h, List.exists_mem_cons_iff, ← or_assoc]
    refine or_congr_left ?_
    rcases annotations_addInstruction hs with ⟨hnone, hsame⟩ | ⟨a, ha, hadd⟩
    · simp [hsame, Instruction.Decorates, hnone]
    · simp [hadd, Annotations.hasDecoration_add, Instruction.Decorates, ha]

/-- **The decorations of a graph** are those that its instructions say. -/
theorem Graph.hasDecoration_iff {words : List Word} {g : Graph} (h : ofWords words = .ok g)
    {id : Ident} {member : Option Word} {kind : Word} :
    g.annotations.hasDecoration id member kind = true ↔
      ∃ i ∈ instructions words, i.Decorates g.header.bound ⟨id, member⟩ kind := by
  obtain ⟨header, body, d, order, hread, hd, -, -, rfl⟩ := ofWords_eq_ok_iff.mp h
  obtain ⟨-, hfold, -⟩ := Draft.ofStream_eq_ok_iff.mp hd
  rw [instructions, Header.drop_of_read hread]
  exact (Draft.hasDecoration_foldlM hfold).trans (or_iff_right Bool.false_ne_true)

/-! ## More decorations -/

/-- The second instructions are the first ones with decorations of some kinds added, in any number
and anywhere among them. -/
inductive Redecorates (kinds : List Word) : List Instruction → List Instruction → Prop
  | nil : Redecorates kinds [] []
  | keep {is is' : List Instruction} (i : Instruction) (h : Redecorates kinds is is') :
      Redecorates kinds (i :: is) (i :: is')
  | entity {is is' : List Instruction} {kind : Word} (id : Ident) (hkind : kind ∈ kinds)
      (params : List Word) (h : Redecorates kinds is is') :
      Redecorates kinds is (⟨71, id :: kind :: params⟩ :: is')
  | member {is is' : List Instruction} {kind : Word} (id : Ident) (member : Word)
      (hkind : kind ∈ kinds) (params : List Word) (h : Redecorates kinds is is') :
      Redecorates kinds is (⟨72, id :: member :: kind :: params⟩ :: is')

namespace Redecorates

variable {kinds : List Word} {is is' : List Instruction}

theorem refl : ∀ is, Redecorates kinds is is
  | [] => .nil
  | i :: is => .keep i (refl is)

/-- No instruction is lost. -/
theorem mem (h : Redecorates kinds is is') {i : Instruction} (hi : i ∈ is) : i ∈ is' := by
  induction h with
  | nil => exact hi
  | keep j _ ih =>
    rcases List.mem_cons.mp hi with rfl | hi
    · exact List.mem_cons_self
    · exact List.mem_cons_of_mem _ (ih hi)
  | entity _ _ _ _ ih | member _ _ _ _ _ ih => exact List.mem_cons_of_mem _ (ih hi)

/-- Apart from annotations, nothing is added. -/
theorem filter_not_annotates (h : Redecorates kinds is is') :
    is'.filter (!·.annotates) = is.filter (!·.annotates) := by
  induction h with
  | nil => rfl
  | keep j _ ih => rw [List.filter_cons, List.filter_cons, ih]
  | entity _ _ _ _ ih | member _ _ _ _ _ ih =>
    exact (List.filter_cons_of_neg Bool.false_ne_true).trans ih

end Redecorates

/-! ## Graphs with more decorations -/

/-- The type without what annotations say about it. -/
def TypeDecl.bare : TypeDecl → TypeDecl
  | .array element length _ => .array element length none
  | .runtimeArray element _ => .runtimeArray element none
  | .struct _ members _ => .struct none (members.map fun m => { type := m.type }) false
  | decl => decl

theorem Annotations.bare_annotate (as : Annotations) (id : Ident) (decl : TypeDecl) :
    (as.annotate id decl).bare = decl.bare := by
  cases decl with
  | struct name members isBufferBlock =>
    have hmembers : (members.mapIdx (as.annotateMember id)).map
        (fun m => ({ type := m.type } : MemberDecl)) = members.map fun m => { type := m.type } := by
      refine List.ext_getElem? fun i => ?_
      rw [List.getElem?_map, List.getElem?_mapIdx, List.getElem?_map, Option.map_map]
      rfl
    simp only [annotate, TypeDecl.bare, hmembers]
  | _ => rfl

namespace Draft

variable {bound : Word} {is is' : List Instruction} {d d' : Draft}

/-- What instructions declare does not depend on the annotations among them. -/
theorem declarations_foldlM_congr (h : is.foldlM (addInstruction bound) {} = .ok d)
    (hd : d.declarations.current = none) (h' : is'.foldlM (addInstruction bound) {} = .ok d')
    (hd' : d'.declarations.current = none)
    (hothers : is'.filter (!·.annotates) = is.filter (!·.annotates)) :
    d'.declarations = d.declarations := by
  have hparts : ∀ {is : List Instruction} {d : Draft},
      is.foldlM (addInstruction bound) {} = .ok d → d.declarations.current = none →
      ((is.filter (!·.annotates)).map .ok).foldlM (Declarations.addItem bound) {} =
        .ok d.declarations := by
    intro is d h hd
    have hstream : ofStream bound (is.map .ok) = .ok d := by
      rw [ofStream_items_iff, List.foldlM_map]
      exact ⟨h, hd⟩
    have hdeclared := (ofStream_parts_iff.mp hstream).2.1
    rw [List.filter_map] at hdeclared
    exact hdeclared
  have heq := hparts h' hd'
  rw [hothers, hparts h hd, Except.ok.injEq] at heq
  exact heq.symm

end Draft

namespace Graph

variable {kinds : List Word} {words words' : List Word} {g g' : Graph}

/-- The second graph differs from the first one in what annotations say. -/
structure Reannotates (g g' : Graph) : Prop where
  types : ∀ id, (g'.types.get? id).map TypeDecl.bare = (g.types.get? id).map TypeDecl.bare
  globals : g'.globals = g.globals

/-- The second binary is the first one with decorations of some kinds added. -/
structure Redecorated (kinds : List Word) (words words' : List Word) : Prop where
  header : words'.take 5 = words.take 5
  instructions : Redecorates kinds (instructions words) (instructions words')

theorem bound_of_ofWords (h : ofWords words = .ok g) :
    (words.take 5)[3]? = some g.header.bound := by
  obtain ⟨header, body, d, order, hread, -, -, -, rfl⟩ := ofWords_eq_ok_iff.mp h
  obtain ⟨-, rfl⟩ := Header.read_eq_ok_iff.mp hread
  rfl

namespace Redecorated

theorem bound (h : Redecorated kinds words words') (hg : ofWords words = .ok g)
    (hg' : ofWords words' = .ok g') : g'.header.bound = g.header.bound := by
  have hbound := bound_of_ofWords hg'
  rw [h.header, bound_of_ofWords hg, Option.some.injEq] at hbound
  exact hbound.symm

/-- **A decoration that was there still is.** -/
theorem hasDecoration (h : Redecorated kinds words words') (hg : ofWords words = .ok g)
    (hg' : ofWords words' = .ok g') {id : Ident} {member : Option Word} {kind : Word}
    (hdecoration : g.annotations.hasDecoration id member kind = true) :
    g'.annotations.hasDecoration id member kind = true := by
  obtain ⟨i, hi, hdecorates⟩ := (hasDecoration_iff hg).mp hdecoration
  refine (hasDecoration_iff hg').mpr ⟨i, h.instructions.mem hi, ?_⟩
  rw [h.bound hg hg']
  exact hdecorates

/-- **What is declared is the same.** -/
theorem reannotates (h : Redecorated kinds words words') (hg : ofWords words = .ok g)
    (hg' : ofWords words' = .ok g') : g.Reannotates g' := by
  obtain ⟨d, hfold, hcurrent, -, htypes, -, hglobals, -, -⟩ := exists_draft_of_ofWords hg
  obtain ⟨d', hfold', hcurrent', -, htypes', -, hglobals', -, -⟩ := exists_draft_of_ofWords hg'
  rw [h.bound hg hg'] at hfold'
  have hsame := Draft.declarations_foldlM_congr hfold hcurrent hfold' hcurrent'
    h.instructions.filter_not_annotates
  refine ⟨fun id => ?_, by rw [hglobals', hglobals, hsame]⟩
  rw [htypes', htypes, Draft.annotatedTypes, Draft.annotatedTypes, Table.get?_mapWithKey,
    Table.get?_mapWithKey, hsame, Option.map_map, Option.map_map]
  simp only [Function.comp_def, Annotations.bare_annotate]

end Redecorated

end Graph

end ShaderReflect
