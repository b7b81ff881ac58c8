import ShaderReflect.Proofs.Binary.Rewriting
import ShaderReflect.Proofs.Declared.Statement

/-!
# Building a graph

A graph is built from the statements of instructions, and then checked. An entry point is declared
by an instruction that has no other effect, and no other instruction looks at entry points. So a
graph is that of the binary without entry points, together with the entry points that are declared.

* `Draft.foldlM_addInstruction_iff`: collecting instructions, entry points apart.
* `Graph.ofWords_eq_ok_iff`: the steps of building a graph.
* `Graph.check_eq_ok_iff`: a check that succeeds has succeeded for everything that is declared, in
  whatever order it was visited.
* `Graph.ofWords_iff_withoutEntryPoints`: building a graph, entry points apart.

These are about success only: equivalences for `.ok`, by which whole graphs are compared. What a
check that fails says depends on the order in which declarations are visited (`Proofs/Visits`).
-/

namespace ShaderReflect

open Instruction

/-! ## Instructions -/

/-- Whether an instruction declares an entry point. -/
def Instruction.isEntryPoint (i : Instruction) : Bool := i.opcode = opEntryPoint

/-- The instruction declares the entry point. -/
def Instruction.Declares (bound : Word) (i : Instruction) (e : EntryPointDecl) : Prop :=
  i.isEntryPoint = true ∧ (Statement.readEntryPoint bound).run i.operands = .ok (.entryPoint e)

/-- Only the instruction for it declares an entry point. -/
theorem Statement.isEntryPoint_of_read {bound : Word} {inBody : Bool} {i : Instruction}
    {e : EntryPointDecl} (h : Statement.read bound inBody i = .ok (.annotate (.entryPoint e))) :
    i.isEntryPoint = true := by
  unfold Statement.read at h
  split at h
  · rename_i role hrole
    by_cases hentry : role = .entryPoint
    · subst hentry
      exact decide_eq_true (Statement.opcode_of_entryPoint hrole)
    · by_cases hspec : ∃ form, role = .specConstant form
      · obtain ⟨form, rfl⟩ := hspec
        obtain ⟨_, -, h⟩ := map_eq_ok_iff.mp h
        cases h
      · exact absurd (Statement.isPlain_of_ofRole hentry (fun form hf => hspec ⟨form, hf⟩) h)
          (by simp [Statement.isPlain])
  · cases inBody <;> cases h

namespace Draft

variable {bound : Word} {d t : Draft} {i : Instruction} {is : List Instruction}
  {decls : List EntryPointDecl}

/-- A draft with other entry points. -/
def withEntryPoints (d : Draft) (entryPoints : List EntryPointDecl) : Draft :=
  { d with annotations := { d.annotations with entryPoints } }

/-- What becomes of a draft when an instruction is collected: the instruction is ignored, or it is
an annotation, or it is one more declaration. -/
inductive Collects (bound : Word) (d : Draft) (i : Instruction) : Draft → Prop
  | ignored (hread : Statement.read bound d.declarations.current.isSome i = .ok .ignored) :
    Collects bound d i d
  | annotate {a : Annotation}
    (hread : Statement.read bound d.declarations.current.isSome i = .ok (.annotate a)) :
    Collects bound d i { d with annotations := d.annotations.add a }
  | declare {c : Declaration} {declarations : Declarations}
    (hread : Statement.read bound d.declarations.current.isSome i = .ok (.declare c))
    (hadd : d.declarations.add c = .ok declarations) :
    Collects bound d i { d with declarations }

/-- **One more instruction.** -/
theorem collects_of_addInstruction (h : d.addInstruction bound i = .ok t) :
    d.Collects bound i t := by
  obtain ⟨st, hread, h⟩ := bind_eq_ok_iff.mp h
  cases st with
  | ignored =>
    cases h
    exact .ignored hread
  | annotate a =>
    cases h
    exact .annotate hread
  | declare c =>
    obtain ⟨declarations, hadd, h⟩ := bind_eq_ok_iff.mp h
    cases h
    exact .declare hread hadd

/-- An instruction that declares an entry point does nothing else. -/
theorem addInstruction_eq_ok_iff (h : i.isEntryPoint = true) :
    d.addInstruction bound i = .ok t ↔ ∃ e, i.Declares bound e ∧
      t = d.withEntryPoints (d.annotations.entryPoints ++ [e]) := by
  have hrole : Role.ofOpcode? i.opcode = some .entryPoint := by
    rw [of_decide_eq_true h]
    rfl
  have hread : Statement.read bound d.declarations.current.isSome i =
      .annotate <$> (Statement.readEntryPoint bound).run i.operands := by
    unfold Statement.read
    rw [hrole]
    rfl
  unfold addInstruction
  rw [hread, bind_map_left, bind_eq_ok_iff]
  constructor
  · rintro ⟨a, ha, ht⟩
    obtain ⟨e, rfl⟩ := Statement.yields_readEntryPoint.of_run ha
    cases ht
    exact ⟨e, ⟨h, ha⟩, rfl⟩
  · rintro ⟨e, ⟨-, he⟩, rfl⟩
    exact ⟨.entryPoint e, he, rfl⟩

/-- An instruction that declares something else does not look at entry points. -/
theorem addInstruction_withEntryPoints (h : i.isEntryPoint = false) :
    (d.withEntryPoints decls).addInstruction bound i =
      (·.withEntryPoints decls) <$> d.addInstruction bound i := by
  unfold addInstruction
  rw [map_bind]
  show Statement.read bound d.declarations.current.isSome i >>= _ = _
  cases hread : Statement.read bound d.declarations.current.isSome i with
  | error e => rfl
  | ok st =>
    rw [ok_bind, ok_bind]
    cases st with
    | ignored => rfl
    | declare c =>
      show (do return { d.withEntryPoints decls with declarations := ← d.declarations.add c }) = _
      unfold addStatement
      rw [map_bind]
      rfl
    | annotate a =>
      cases a with
      | entryPoint e =>
        rw [Statement.isEntryPoint_of_read hread] at h
        cases h
      | name target text =>
        simp only [addStatement, Annotations.add, withEntryPoints, map_ok]
        split <;> rfl
      | executionMode function decl => rfl
      | decoration target kind params => rfl

theorem foldlM_addInstruction_withEntryPoints (h : ∀ i ∈ is, i.isEntryPoint = false) :
    is.foldlM (addInstruction bound) (d.withEntryPoints decls) =
      (·.withEntryPoints decls) <$> is.foldlM (addInstruction bound) d := by
  induction is generalizing d with
  | nil => rfl
  | cons i is ih =>
    rw [List.forall_mem_cons] at h
    rw [List.foldlM_cons, List.foldlM_cons, addInstruction_withEntryPoints h.1, bind_map_left,
      map_bind]
    exact congrArg _ (funext fun d' => ih h.2)

/-- So it leaves the entry points as they are. -/
theorem entryPoints_foldlM (h : ∀ i ∈ is, i.isEntryPoint = false)
    (ht : is.foldlM (addInstruction bound) d = .ok t) :
    t.annotations.entryPoints = d.annotations.entryPoints := by
  have hd : is.foldlM (addInstruction bound) d =
      (·.withEntryPoints d.annotations.entryPoints) <$> is.foldlM (addInstruction bound) d :=
    foldlM_addInstruction_withEntryPoints (d := d) h
  rw [ht, map_ok, Except.ok.injEq] at hd
  exact congrArg (·.annotations.entryPoints) hd

theorem isEntryPoint_of_mem_filter : ∀ i ∈ is.filter (!·.isEntryPoint), i.isEntryPoint = false :=
  fun i hi => by simpa using List.of_mem_filter hi

/-- **Collecting instructions, entry points apart.** -/
theorem foldlM_addInstruction_iff :
    is.foldlM (addInstruction bound) d = .ok t ↔ ∃ s decls,
      (is.filter (!·.isEntryPoint)).foldlM (addInstruction bound) d = .ok s ∧
      List.Forall₂ (Declares bound) (is.filter (·.isEntryPoint)) decls ∧
      t = s.withEntryPoints (d.annotations.entryPoints ++ decls) := by
  induction is generalizing d with
  | nil =>
    constructor
    · intro h
      cases h
      exact ⟨t, [], rfl, .nil, by rw [List.append_nil]; rfl⟩
    · rintro ⟨s, decls, hs, hdecls, rfl⟩
      cases hs
      cases hdecls
      rw [List.append_nil]
      rfl
  | cons i is ih =>
    rw [List.foldlM_cons, bind_eq_ok_iff]
    cases hi : i.isEntryPoint with
    | false =>
      have hsame : ∀ d', d.addInstruction bound i = .ok d' →
          d'.annotations.entryPoints = d.annotations.entryPoints := fun d' hd' =>
        entryPoints_foldlM (List.forall_mem_singleton.mpr hi)
          (by rw [List.foldlM_cons, hd', ok_bind, List.foldlM_nil, pure_eq_ok])
      simp only [List.filter_cons, hi, Bool.not_false, if_true, Bool.false_eq_true, if_false,
        List.foldlM_cons, bind_eq_ok_iff, ih]
      constructor
      · rintro ⟨d', hd', s, decls, hs, hdecls, rfl⟩
        exact ⟨s, decls, ⟨d', hd', hs⟩, hdecls, by rw [hsame d' hd']⟩
      · rintro ⟨s, decls, ⟨d', hd', hs⟩, hdecls, rfl⟩
        exact ⟨d', hd', s, decls, hs, hdecls, by rw [hsame d' hd']⟩
    | true =>
      simp only [List.filter_cons, hi, Bool.not_true, if_true, Bool.false_eq_true, if_false,
        addInstruction_eq_ok_iff hi, ih, List.forall₂_cons_left_iff]
      constructor
      · rintro ⟨d', ⟨e, he, rfl⟩, s, decls, hs, hdecls, rfl⟩
        rw [foldlM_addInstruction_withEntryPoints isEntryPoint_of_mem_filter] at hs
        obtain ⟨s', hs', rfl⟩ := map_eq_ok_iff.mp hs
        refine ⟨s', e :: decls, hs', ⟨e, decls, he, hdecls, rfl⟩, ?_⟩
        rw [List.append_cons _ e decls]
        rfl
      · rintro ⟨s, _, hs, ⟨e, decls, he, hdecls, rfl⟩, rfl⟩
        let more := d.annotations.entryPoints ++ [e]
        refine ⟨_, ⟨e, he, rfl⟩, s.withEntryPoints more, decls, ?_, hdecls, ?_⟩
        · rw [foldlM_addInstruction_withEntryPoints isEntryPoint_of_mem_filter, hs]
          rfl
        · rw [List.append_cons _ e decls]
          rfl

/-! ## Streams -/

/-- A stream that starts where no instruction can be cut off has no items, or starts with a
fault. -/
theorem foldlM_addItem_tail {tail : List Word} (h : ∀ i rest, next? tail ≠ some (.ok i, rest)) :
    (stream tail).foldlM (addItem bound) d = .ok t ↔ stream tail = [] ∧ t = d := by
  cases hn : next? tail with
  | none =>
    have hs := stream_eq_nil hn
    rw [hs, List.foldlM_nil, pure_eq_ok, Except.ok.injEq]
    exact ⟨fun h => ⟨rfl, h.symm⟩, fun h => h.2.symm⟩
  | some item =>
    obtain ⟨item, rest⟩ := item
    cases item with
    | ok i => exact absurd hn (h i rest)
    | error e =>
      rw [stream_of_next? hn]
      constructor
      · intro h
        cases h
      · rintro ⟨h, -⟩
        cases h

/-- A stream is collected if all its items are, and no function is left open. -/
theorem ofStream_items_iff {items : List (Except Fault Instruction)} :
    ofStream bound items = .ok d ↔
      items.foldlM (addItem bound) {} = .ok d ∧ d.declarations.current = none := by
  unfold ofStream
  rw [bind_eq_ok_iff]
  constructor
  · rintro ⟨t, ht, h⟩
    split at h
    · cases h
    · rename_i hcurrent
      cases h
      exact ⟨ht, Option.not_isSome_iff_eq_none.mp hcurrent⟩
  · rintro ⟨hd, hcurrent⟩
    refine ⟨d, hd, ?_⟩
    rw [hcurrent]
    rfl

/-- **Collecting a body** is to collect its instructions; nothing may be left over, and no function
may be open. -/
theorem ofStream_eq_ok_iff {body : List Word} : ofStream bound (stream body) = .ok d ↔
    stream (cut body).2 = [] ∧ (cut body).1.foldlM (addInstruction bound) {} = .ok d ∧
    d.declarations.current = none := by
  rw [ofStream_items_iff, stream_eq, List.foldlM_append, List.foldlM_map, bind_eq_ok_iff]
  simp only [foldlM_addItem_tail (not_next?_cut body)]
  constructor
  · rintro ⟨⟨s, hs, htail, rfl⟩, hcurrent⟩
    exact ⟨htail, hs, hcurrent⟩
  · rintro ⟨htail, hs, hcurrent⟩
    exact ⟨⟨d, hs, htail, rfl⟩, hcurrent⟩

end Draft

/-! ## Graphs -/

/-- What follows the five words of the header is the body. -/
theorem Header.drop_of_read {words body : List Word} {header : Header}
    (h : Header.read words = .ok (header, body)) : words.drop 5 = body := by
  unfold Header.read at h
  split at h
  · simp only at h
    repeat' split at h
    all_goals cases h
    rfl
  · cases h

namespace Graph

variable {g : Graph} {words : List Word}

theorem type_eq_ok_iff {id : Ident} {decl : TypeDecl} :
    g.type id = .ok decl ↔ g.types.get? id = some decl := by
  unfold type
  cases g.types.get? id <;> simp

theorem constant_eq_ok_iff {id : Ident} {c : Constant} :
    g.constant id = .ok c ↔ g.constants.get? id = some c := by
  unfold constant
  cases g.constants.get? id <;> simp

theorem globalVar_eq_ok_iff {id : Ident} {v : Variable} :
    g.globalVar id = .ok v ↔ g.globals.get? id = some v := by
  unfold globalVar
  cases g.globals.get? id <;> simp

/-- The graph of a draft, before its references are checked and its types put in order. -/
def unchecked (header : Header) (d : Draft) : Graph where
  header
  annotations := d.annotations
  types := d.annotatedTypes
  typeOrder := []
  forwardPointers := d.declarations.forwardPointers
  constants := d.declarations.constants
  globals := d.declarations.globals
  functions := d.declarations.functions

/-- **The steps of building a graph.** -/
theorem ofWords_eq_ok_iff {visits : Visits} : ofWords words visits = .ok g ↔
    ∃ header body d order, Header.read words = .ok (header, body) ∧
    Draft.ofStream header.bound (stream body) = .ok d ∧
    (unchecked header d).check visits = .ok () ∧
    TypeOrder.sort d.annotatedTypes = .ok order ∧
    g = { unchecked header d with typeOrder := order } := by
  constructor
  · intro h
    obtain ⟨⟨header, body⟩, hread, h⟩ := bind_eq_ok_iff.mp h
    obtain ⟨d, hd, h⟩ := bind_eq_ok_iff.mp h
    obtain ⟨⟨⟩, hcheck, h⟩ := bind_eq_ok_iff.mp h
    obtain ⟨order, horder, h⟩ := bind_eq_ok_iff.mp h
    cases h
    exact ⟨header, body, d, order, hread, hd, hcheck, horder, rfl⟩
  · rintro ⟨header, body, d, order, hread, hd, hcheck, horder, rfl⟩
    refine bind_eq_ok_iff.mpr ⟨_, hread, bind_eq_ok_iff.mpr ⟨d, hd, ?_⟩⟩
    exact bind_eq_ok_iff.mpr ⟨(), hcheck, bind_eq_ok_iff.mpr ⟨order, horder, rfl⟩⟩

theorem checkCalls_eq_ok_iff {id : Ident} {callees : Visit} : g.checkCalls id callees = .ok () ↔
    ∀ body, g.functions.get? id = some body →
      ∀ callee ∈ body.callees, g.functions.contains callee = true := by
  unfold checkCalls
  cases g.functions.get? id with
  | none => simp
  | some body =>
    simp only [forM_eq_ok_iff, Visit.mem_order, Option.some.injEq, forall_eq', ite_eq_left_iff,
      reduceCtorEq, imp_false, Bool.not_eq_true, Bool.not_eq_false]
    rfl

/-- The checks of a graph, whatever order they are made in. -/
theorem check_eq_ok_iff {visits : Visits} : g.check visits = .ok () ↔
    (∀ id ∈ (IdSet.ofList g.types.keys).ids, g.checkType id = .ok ()) ∧
    (∀ id ∈ g.forwardPointers.ids, g.checkForwardPointer id = .ok ()) ∧
    (∀ id ∈ g.constants.keys, g.checkConstant id = .ok ()) ∧
    (∀ id ∈ (IdSet.ofList g.globals.keys).ids, g.checkVariable id = .ok ()) ∧
    (∀ e ∈ g.annotations.entryPoints, g.checkEntryPoint e = .ok ()) ∧
    ∀ id ∈ (IdSet.ofList g.functions.keys).ids, g.checkCalls id = .ok () := by
  have hconstants : ∀ id, id ∈ (IdSet.ofList g.constants.keys).ids ↔ id ∈ g.constants.keys :=
    fun id => IdSet.mem_ofList
  unfold check
  rw [forM_bind_eq_ok_iff, forM_bind_eq_ok_iff, forM_bind_eq_ok_iff, forM_bind_eq_ok_iff,
    forM_bind_eq_ok_iff, forM_eq_ok_iff]
  simp only [Visit.mem_order, hconstants, checkCalls_eq_ok_iff]

/-- A graph with other entry points. -/
def withEntryPoints (g : Graph) (entryPoints : List EntryPointDecl) : Graph :=
  { g with annotations := { g.annotations with entryPoints } }

/-- Entry points are checked on their own. -/
theorem check_withEntryPoints {decls : List EntryPointDecl}
    (h : g.annotations.entryPoints = []) : (g.withEntryPoints decls).check = .ok () ↔
      g.check = .ok () ∧ ∀ e ∈ decls, g.checkEntryPoint e = .ok () := by
  rw [check_eq_ok_iff, check_eq_ok_iff, h]
  constructor
  · rintro ⟨h₁, h₂, h₃, h₄, h₅, h₆⟩
    exact ⟨⟨h₁, h₂, h₃, h₄, fun e he => absurd he List.not_mem_nil, h₆⟩, h₅⟩
  · rintro ⟨⟨h₁, h₂, h₃, h₄, -, h₆⟩, h₅⟩
    exact ⟨h₁, h₂, h₃, h₄, h₅, h₆⟩

/-! ## Entry points apart -/

/-- The instructions of a binary that declare entry points, in order. -/
def entryPointInstructions (words : List Word) : List Instruction :=
  (cut (words.drop 5)).1.filter (·.isEntryPoint)

/-- A binary without its entry points. -/
def withoutEntryPoints (words : List Word) : List Word :=
  rewriteBinary (List.filter (!·.isEntryPoint)) words

/-- **A graph is that of the binary without entry points, together with the entry points** that the
binary declares. -/
theorem ofWords_iff_withoutEntryPoints : ofWords words = .ok g ↔ ∃ base decls,
    ofWords (withoutEntryPoints words) = .ok base ∧
    List.Forall₂ (Declares base.header.bound) (entryPointInstructions words) decls ∧
    (∀ e ∈ decls, base.checkEntryPoint e = .ok ()) ∧ g = base.withEntryPoints decls := by
  have hcut : ∀ body, cut (rewrite (List.filter (!·.isEntryPoint)) body) =
      ((cut body).1.filter (!·.isEntryPoint), (cut body).2) := fun body =>
    cut_rewrite fun i hi => encodable_of_mem_cut body i (List.mem_of_mem_filter hi)
  constructor
  · intro h
    obtain ⟨header, body, d, order, hread, hd, hcheck, horder, rfl⟩ := ofWords_eq_ok_iff.mp h
    obtain ⟨htail, hfold, hcurrent⟩ := Draft.ofStream_eq_ok_iff.mp hd
    obtain ⟨s, decls, hs, hdecls, rfl⟩ := Draft.foldlM_addInstruction_iff.mp hfold
    have hnone := Draft.entryPoints_foldlM Draft.isEntryPoint_of_mem_filter hs
    have hchecks := (check_withEntryPoints (g := unchecked header s) hnone).mp hcheck
    refine ⟨{ unchecked header s with typeOrder := order }, decls, ?_, ?_, hchecks.2, rfl⟩
    · refine ofWords_eq_ok_iff.mpr ⟨header, rewrite (List.filter (!·.isEntryPoint)) body, s, order,
        ?_, ?_, hchecks.1, horder, rfl⟩
      · rw [withoutEntryPoints, read_rewriteBinary, hread, map_ok]
      · rw [Draft.ofStream_eq_ok_iff, hcut]
        exact ⟨htail, hs, hcurrent⟩
    · rw [entryPointInstructions, Header.drop_of_read hread]
      exact hdecls
  · rintro ⟨base, decls, hbase, hdecls, hchecks, rfl⟩
    obtain ⟨header, rest, s, order, hrest, hs, hcheck, horder, rfl⟩ := ofWords_eq_ok_iff.mp hbase
    rw [withoutEntryPoints, read_rewriteBinary] at hrest
    obtain ⟨⟨header, body⟩, hread, h⟩ := map_eq_ok_iff.mp hrest
    cases h
    obtain ⟨htail, hfold, hcurrent⟩ := Draft.ofStream_eq_ok_iff.mp hs
    rw [hcut] at htail hfold
    have hnone := Draft.entryPoints_foldlM Draft.isEntryPoint_of_mem_filter hfold
    rw [entryPointInstructions, Header.drop_of_read hread] at hdecls
    refine ofWords_eq_ok_iff.mpr ⟨header, body, s.withEntryPoints decls, order, hread, ?_, ?_,
      horder, rfl⟩
    · refine Draft.ofStream_eq_ok_iff.mpr ⟨htail, ?_, hcurrent⟩
      exact Draft.foldlM_addInstruction_iff.mpr ⟨s, decls, hfold, hdecls, rfl⟩
    · exact (check_withEntryPoints (g := unchecked header s) hnone).mpr ⟨hcheck, hchecks⟩

end Graph

end ShaderReflect
