import ShaderReflect.Proofs.DistinctIds
import ShaderReflect.Proofs.Interleaving
import ShaderReflect.Proofs.Overrides

/-!
# What entry points and execution modes refer to

An entry point refers to its function and to the variables of its interface. An execution mode
refers to its function and, if its operands are IDs, to constants. The function of an entry point is
checked when a graph is built, and its interface when it is analyzed. What an execution mode refers
to is not checked at all: a mode of a function that is not declared is in no entry point, and an
operand that is not a declared constant has no value.

* `Graph.entryPoints_of_ofWords`, `Graph.modes_of_ofWords`: the entry points and execution modes of
  a graph are those that the instructions declare, in order.
* `Reach.mem_globals_of_analyze`: an interface that has been analyzed consists of variables.
* `Specialization.mem_constants_of_apply`: only declared constants have values.
* `Config.reflect_mentions_iff`: when all of it is declared.

Specification, 3 (IDs that are referenced by reflected instructions must be declared). The result
tells where this is not checked, and that it stays without effect there: no other part of a
reflection reads the operands of execution modes, except for the workgroup size, which needs their
values.
-/

namespace ShaderReflect

open Instruction

/-! ## The annotations of instructions -/

/-- The entry point that an annotation declares. -/
def Annotation.entryPoint? : Annotation → Option EntryPointDecl
  | .entryPoint e => some e
  | _ => none

/-- The execution mode that an annotation declares, with its function. -/
def Annotation.mode? : Annotation → Option (Ident × ModeDecl)
  | .executionMode function m => some (function, m)
  | _ => none

/-- The annotation that a statement is. -/
def Statement.annotation? : Statement → Option Annotation
  | .annotate a => some a
  | _ => none

/-- The annotation that an instruction says. -/
def Instruction.annotation? (bound : Word) (i : Instruction) : Option Annotation :=
  match Statement.read bound false i with
  | .ok st => st.annotation?
  | .error _ => none

/-- It does not matter for annotations where the instruction stands. -/
theorem Statement.annotation?_of_read {bound : Word} {inBody : Bool} {i : Instruction}
    {st : Statement} (h : read bound inBody i = .ok st) :
    i.annotation? bound = st.annotation? := by
  unfold Instruction.annotation?
  by_cases hi : i.annotates = true
  · obtain ⟨x, hx⟩ := read_of_annotates hi bound
    rw [hx] at h ⊢
    rw [h]
  · -- Nothing but an annotation can be read as one, here or there.
    have hnone : ∀ inBody st, read bound inBody i = .ok st → st.annotation? = none := by
      intro inBody st hst
      cases st with
      | annotate a => exact absurd hst (not_annotate_of_read (by simpa using hi) a)
      | ignored | declare => rfl
    rw [hnone inBody st h]
    cases hread : read bound false i with
    | ok st' => exact hnone false st' hread
    | error e => rfl

theorem Annotations.entryPoints_add (as : Annotations) (a : Annotation) :
    (as.add a).entryPoints = as.entryPoints ++ a.entryPoint?.toList := by
  cases a with
  | entryPoint e => rfl
  | name target text =>
    simp only [add, Annotation.entryPoint?, Option.toList_none, List.append_nil]
    split <;> rfl
  | executionMode | decoration => exact (List.append_nil _).symm

theorem Annotations.modes_add (as : Annotations) (a : Annotation) :
    (as.add a).modes = as.modes ++ a.mode?.toList := by
  cases a with
  | executionMode function m => rfl
  | name target text =>
    simp only [add, Annotation.mode?, Option.toList_none, List.append_nil]
    split <;> rfl
  | entryPoint | decoration => exact (List.append_nil _).symm

namespace Draft

variable {bound : Word} {d t : Draft} {i : Instruction} {is : List Instruction}

/-- One more instruction adds to the annotations the one that it says. -/
theorem annotations_addInstruction (h : d.addInstruction bound i = .ok t) :
    i.annotation? bound = none ∧ t.annotations = d.annotations ∨
      ∃ a, i.annotation? bound = some a ∧ t.annotations = d.annotations.add a := by
  cases collects_of_addInstruction h with
  | ignored hread => exact .inl ⟨Statement.annotation?_of_read hread, rfl⟩
  | annotate hread => exact .inr ⟨_, Statement.annotation?_of_read hread, rfl⟩
  | declare hread => exact .inl ⟨Statement.annotation?_of_read hread, rfl⟩

/-- **A list among the annotations** gets longer by what the instructions say. -/
theorem annotations_foldlM {α : Type} {part : Annotations → List α} {pick : Annotation → Option α}
    (hpart : ∀ as a, part (as.add a) = part as ++ (pick a).toList)
    (h : is.foldlM (addInstruction bound) d = .ok t) : part t.annotations =
      part d.annotations ++ is.filterMap fun i => (i.annotation? bound).bind pick := by
  refine foldlM_append (fun d : Draft => part d.annotations) h fun i _ s s' hs => ?_
  rcases annotations_addInstruction hs with ⟨hnone, hsame⟩ | ⟨a, ha, hadd⟩
  · rw [hnone, hsame]
    exact (List.append_nil _).symm
  · rw [ha, hadd, hpart]
    rfl

end Draft

namespace Graph

variable {g : Graph} {words : List Word}

/-- The annotations of a graph are collected from the instructions. -/
theorem annotations_of_ofWords {α : Type} {part : Annotations → List α}
    {pick : Annotation → Option α} (hempty : part {} = [])
    (hpart : ∀ as a, part (as.add a) = part as ++ (pick a).toList) (h : ofWords words = .ok g) :
    part g.annotations =
      (instructions words).filterMap fun i => (i.annotation? g.header.bound).bind pick := by
  obtain ⟨header, body, d, order, hread, hd, -, -, rfl⟩ := ofWords_eq_ok_iff.mp h
  obtain ⟨-, hfold, -⟩ := Draft.ofStream_eq_ok_iff.mp hd
  have hparts := Draft.annotations_foldlM hpart hfold
  rw [hempty, List.nil_append] at hparts
  rw [instructions, Header.drop_of_read hread]
  exact hparts

/-- **The entry points of a graph** are those that the instructions declare, in order. -/
theorem entryPoints_of_ofWords (h : ofWords words = .ok g) : g.annotations.entryPoints =
    (instructions words).filterMap fun i =>
      (i.annotation? g.header.bound).bind Annotation.entryPoint? :=
  annotations_of_ofWords rfl Annotations.entryPoints_add h

/-- **The execution modes of a graph** are those that the instructions declare, in order. -/
theorem modes_of_ofWords (h : ofWords words = .ok g) : g.annotations.modes =
    (instructions words).filterMap fun i =>
      (i.annotation? g.header.bound).bind Annotation.mode? :=
  annotations_of_ofWords rfl Annotations.modes_add h

/-- The execution modes that the instructions of a binary declare for a function, in order. -/
def modesIn (bound : Word) (words : List Word) (function : Ident) : List ModeDecl :=
  (instructions words).filterMap fun i =>
    match i.annotation? bound with
    | some (.executionMode function' m) => if function' = function then some m else none
    | _ => none

theorem modesOf_eq (h : ofWords words = .ok g) (function : Ident) :
    g.annotations.modesOf function = modesIn g.header.bound words function := by
  unfold Annotations.modesOf modesIn
  rw [modes_of_ofWords h, List.filterMap_filterMap]
  congr 1
  funext i
  rcases i.annotation? g.header.bound with _ | (e | ⟨function', m⟩ | _ | _) <;> rfl

end Graph

/-! ## What is checked, and what has a value -/

/-- The interface of an entry point that has been analyzed consists of variables. -/
theorem Reach.mem_globals_of_analyze {g : Graph} {e : EntryPointDecl} {all : Bool} {reach : Reach}
    (h : analyze g e all = .ok reach) : ∀ id ∈ e.interface, id ∈ g.globals.keys := by
  intro id hid
  have hinterface : ∃ interface, interfaceOf g e.interface = .ok interface := by
    unfold analyze at h
    dsimp only at h
    split at h
    · obtain ⟨resources, -, h⟩ := bind_eq_ok_iff.mp h
      obtain ⟨interface, hinterface, -⟩ := bind_eq_ok_iff.mp h
      exact ⟨interface, hinterface⟩
    · obtain ⟨resources, -, h⟩ := bind_eq_ok_iff.mp h
      obtain ⟨interface, hinterface, -⟩ := bind_eq_ok_iff.mp h
      exact ⟨interface, hinterface⟩
  obtain ⟨interface, hinterface⟩ := hinterface
  obtain ⟨found, found', hstep⟩ := exists_step_of_foldlM hinterface hid
  obtain ⟨v, hv, -⟩ := bind_eq_ok_iff.mp hstep
  exact Table.mem_keys_of_get? (Graph.globalVar_eq_ok_iff.mp hv)

namespace Specialization

variable {g : Graph} {os : Overrides} {σ τ : Specialization} {id : Ident}

/-- Each value belongs to a declared constant. -/
def Within (σ : Specialization) (g : Graph) : Prop :=
  ∀ id v, σ.value? id = some v → id ∈ g.constants.keys

theorem Within.record (h : σ.Within g) (hid : id ∈ g.constants.keys) (c : Constant)
    (specId : Option Word) (value : Option Value) (isOverridden : Bool) :
    (σ.record g id c specId value isOverridden).Within g := by
  intro x v hx
  unfold Specialization.record value? at hx
  cases value with
  | none => exact h x v hx
  | some w =>
    simp only [Table.get?_insertFirst] at hx
    by_cases hx' : x = id
    · exact hx' ▸ hid
    · rw [if_neg hx'] at hx
      exact h x v hx

/-- The values stay with declared constants when one more is evaluated. -/
theorem Within.step (h : σ.Within g) (hstep : (step g os σ id).result = .ok τ) : τ.Within g := by
  rw [result_step] at hstep
  obtain ⟨c, hc, hstep⟩ := bind_eq_ok_iff.mp hstep
  obtain ⟨type, -, hstep⟩ := bind_eq_ok_iff.mp hstep
  have hid : id ∈ g.constants.keys :=
    Table.mem_keys_of_get? (Graph.constant_eq_ok_iff.mp (liftM_fault_eq_ok_iff.mp hc))
  split at hstep
  · obtain ⟨v, -, hstep⟩ := bind_eq_ok_iff.mp hstep
    cases hstep
    exact h.record hid _ _ _ _
  · cases hstep
    exact h.record hid _ _ _ _

/-- **Only declared constants have values.** -/
theorem mem_constants_of_apply {overrides : List Override}
    (h : (apply g overrides).result = .ok σ) : σ.Within g := by
  rw [result_apply] at h
  obtain ⟨os, -, h⟩ := bind_eq_ok_iff.mp h
  refine foldlM_invariant (P := fun σ : Specialization => σ.Within g) h ?_
    fun _ _ _ _ hσ hstep => hσ.step hstep
  intro id v hv
  cases hv

end Specialization

/-! ## References -/

/-- The constants among the operands of an execution mode. -/
def ModeParams.constants : ModeParams → List Ident
  | .literals _ => []
  | .idents ids => ids

/-- What an annotation refers to and what has to be declared: each entity by its kind and ID. -/
def Annotation.mentions : Annotation → List (Entity × Ident)
  | .entryPoint e => (.function, e.function) :: e.interface.map (Entity.globalVar, ·)
  | .executionMode function m =>
    (.function, function) :: m.params.constants.map (Entity.constant, ·)
  | .name _ _ | .decoration _ _ _ => []

namespace Graph

/-- An instruction of a binary declares an entity. -/
def Declared (words : List Word) (kind : Entity) (id : Ident) : Prop :=
  ∃ place, DeclaredAt words place kind id

/-- What an instruction of a binary refers to, as an entry point or an execution mode, is
declared. -/
def MentionsDeclared (bound : Word) (words : List Word) (i : Instruction) : Prop :=
  ∀ a, i.annotation? bound = some a → ∀ m ∈ a.mentions, Declared words m.1 m.2

/-- What an execution mode refers to is declared. -/
def ModeDeclared (words : List Word) (function : Ident) (m : ModeDecl) : Prop :=
  Declared words .function function ∧ ∀ id ∈ m.params.constants, Declared words .constant id

variable {bound : Word} {words : List Word}

/-- All references are to what is declared if those of entry points and of execution modes are. -/
theorem mentionsDeclared_iff {i : Instruction}
    (he : ∀ e, i.annotation? bound = some (.entryPoint e) →
      Declared words .function e.function ∧ ∀ v ∈ e.interface, Declared words .globalVar v) :
    MentionsDeclared bound words i ↔ ∀ function m,
      i.annotation? bound = some (.executionMode function m) → ModeDeclared words function m := by
  constructor
  · intro h function m hm
    have hall := h _ hm
    simp only [ Annotation.mentions, List.forall_mem_cons, List.forall_mem_map] at hall
    exact hall
  · intro h a ha
    cases a with
    | entryPoint e =>
      simp only [ Annotation.mentions, List.forall_mem_cons, List.forall_mem_map]
      exact he e ha
    | executionMode function m =>
      simp only [ Annotation.mentions, List.forall_mem_cons, List.forall_mem_map]
      exact h function m ha
    | name | decoration => exact fun _ hm => absurd hm List.not_mem_nil

end Graph

/-- An operand that is not a declared constant has no value. -/
theorem Source.exists_operand_without_value {s : Source} (hs : s.specialization.Within s.graph)
    {m : ModeDecl} {k : Nat} {id : Ident} (hk : m.params.constants[k]? = some id)
    (hid : id ∉ s.graph.constants.keys) :
    ∃ o, (s.mode m).operands[k]? = some o ∧ o.value = none := by
  have hvalue : s.specialization.scalar? id = none := by
    unfold Specialization.scalar?
    cases hv : s.specialization.value? id with
    | none => rfl
    | some v => exact absurd (hs id v hv) hid
  unfold Source.mode
  cases hm : m.params with
  | literals ws =>
    rw [hm] at hk
    cases hk
  | idents ids =>
    rw [hm] at hk
    have hk : ids[k]? = some id := hk
    exact ⟨_, by rw [List.getElem?_map, hk, Option.map_some], hvalue⟩

/-- What is said about an entry point by its declaration alone. -/
theorem Source.function_and_modes_assembleTree {s : Source} {e : EntryPointDecl} {reach : Reach}
    {pairing : Pairing} {x : EntryPoint TypeTree} (h : s.assembleTree e reach pairing = .ok x) :
    x.function = e.function ∧ x.modes = (s.graph.annotations.modesOf e.function).map s.mode := by
  obtain ⟨resources, -, h⟩ := bind_eq_ok_iff.mp h
  obtain ⟨interface, -, h⟩ := bind_eq_ok_iff.mp h
  obtain ⟨constants, -, h⟩ := bind_eq_ok_iff.mp h
  obtain ⟨size, -, h⟩ := bind_eq_ok_iff.mp h
  cases h
  split <;> exact ⟨rfl, rfl⟩

namespace Config

open ShaderReflect.Graph

variable {c : Config} {s : Source} {p : Progress} {r : Reflection} {words : List Word}

/-- What the entry points of a reflected binary refer to is declared. -/
theorem MadeOf.declared_of_entryPoint (h : c.MadeOf s p r) (hg : ofWords words = .ok s.graph)
    {i : Instruction} (hi : i ∈ instructions words) {e : EntryPointDecl}
    (he : i.annotation? s.graph.header.bound = some (.entryPoint e)) :
    Declared words .function e.function ∧ ∀ v ∈ e.interface, Declared words .globalVar v := by
  have hmem : e ∈ s.graph.annotations.entryPoints := by
    rw [entryPoints_of_ofWords hg, List.mem_filterMap]
    exact ⟨i, hi, by rw [he]; rfl⟩
  obtain ⟨x, hx⟩ := exists_mapM_eq_ok_iff.mp ⟨_, h.sound_and_trees.2⟩ e hmem
  obtain ⟨reach, hreach, -⟩ := bind_eq_ok_iff.mp hx
  have hinterface := Reach.mem_globals_of_analyze (liftM_fault_eq_ok_iff.mp hreach)
  exact ⟨(mem_ids_iff hg).mp ((closed_of_ofWords hg).entryPoints e hmem),
    fun v hv => (mem_ids_iff hg).mp (hinterface v hv)⟩

/-- The execution modes of a reported entry point are those that are declared for its function. -/
theorem MadeOf.modes_eq (h : c.MadeOf s p r) (hg : ofWords words = .ok s.graph)
    {x : EntryPoint TypeIdx} (hx : x ∈ r.entryPoints) : Declared words .function x.function ∧
      x.modes = (modesIn s.graph.header.bound words x.function).map s.mode := by
  obtain ⟨e, he, reach, pairing, htree⟩ := h.exists_assembleTree hx
  obtain ⟨hfunction, hmodes⟩ := Source.function_and_modes_assembleTree htree
  have hfunction : x.function = e.function := hfunction
  have hmodes : x.modes = (s.graph.annotations.modesOf e.function).map s.mode := hmodes
  rw [hmodes, hfunction, modesOf_eq hg]
  exact ⟨(mem_ids_iff hg).mp ((closed_of_ofWords hg).entryPoints e he), rfl⟩

/-- **What the entry points and execution modes of a reflected binary refer to.** The function and
the interface of each entry point are declared. An entry point is reported with the execution modes
of its function, which is declared, so a mode of a function that is not declared is not reported;
and an operand that is not a declared constant has no value. So all that is referred to is declared
exactly if this holds of execution modes: that is not checked. -/
theorem reflect_mentions_iff (h : c.reflect.result = .ok r) :
    ∃ words s, c.words = .ok words ∧ c.source words = .ok s ∧
      (∀ i ∈ instructions words, ∀ e, i.annotation? r.header.bound = some (.entryPoint e) →
        Declared words .function e.function ∧ ∀ v ∈ e.interface, Declared words .globalVar v) ∧
      (∀ x ∈ r.entryPoints, Declared words .function x.function ∧
        x.modes = (modesIn r.header.bound words x.function).map s.mode) ∧
      (∀ (m : ModeDecl) (k : Nat) (id : Ident), m.params.constants[k]? = some id →
        ¬ Declared words .constant id → ∃ o, (s.mode m).operands[k]? = some o ∧ o.value = none) ∧
      ((∀ i ∈ instructions words, MentionsDeclared r.header.bound words i) ↔
        ∀ i ∈ instructions words, ∀ function m,
          i.annotation? r.header.bound = some (.executionMode function m) →
            ModeDeclared words function m) := by
  obtain ⟨s, p, hr⟩ := exists_madeOf h
  obtain ⟨words, hwords, hs⟩ := hr.source
  obtain ⟨g, σ, hg, hσ, hsource⟩ := source_eq_ok_iff.mp hs
  have hgraph : ofWords words = .ok s.graph := by rw [hg, hsource]
  have hwithin : s.specialization.Within s.graph := by
    rw [hsource]
    exact Specialization.mem_constants_of_apply hσ
  have hheader : r.header = s.graph.header := by rw [hr.result]
  rw [hheader]
  have hentries : ∀ i ∈ instructions words, ∀ e,
      i.annotation? s.graph.header.bound = some (.entryPoint e) →
      Declared words .function e.function ∧ ∀ v ∈ e.interface, Declared words .globalVar v :=
    fun i hi e he => hr.declared_of_entryPoint hgraph hi he
  refine ⟨words, s, hwords, hs, hentries, fun x hx => hr.modes_eq hgraph hx, ?_, ?_⟩
  · intro m k id hk hid
    refine Source.exists_operand_without_value hwithin hk fun hmem => hid ?_
    have hids : id ∈ s.graph.ids .constant := hmem
    exact (mem_ids_iff hgraph).mp hids
  · exact forall₂_congr fun i hi => mentionsDeclared_iff (hentries i hi)

/-- The instructions of a binary with a compute shader that has an execution mode. The only constant
of the binary has the ID 5; the operand of the mode is given. -/
def modeBody (operand : Word) : List Instruction := [
  ⟨15, [5, 3, 0x6d]⟩, ⟨331, [3, 37, operand]⟩, ⟨19, [1]⟩, ⟨33, [2, 1]⟩, ⟨21, [4, 32, 0]⟩,
  ⟨43, [4, 5, 2]⟩, ⟨54, [1, 3, 0, 2]⟩, ⟨56, []⟩]

/-- The binary with an execution mode. -/
def modeWords (operand : Word) : List Word :=
  [magicNumber, 0x10300, 0, 10, 0] ++ (modeBody operand).flatMap Instruction.words

set_option maxRecDepth 100000 in
/-- All that the binary with an execution mode refers to is declared, if the operand of the mode is
its constant. -/
theorem sample_reflect_mentions : ∃ r,
    { binary := some (modeWords 5) : Config }.reflect.result = .ok r ∧
    r.entryPoints.map (·.modes.map (·.operands.map (·.value))) =
      [[[some (.int 32 false 2)]]] ∧
    ∀ i ∈ instructions (modeWords 5), MentionsDeclared r.header.bound (modeWords 5) i := by
  obtain ⟨r, hr, hfacts⟩ := exists_eq_ok_of_any
    (x := { binary := some (modeWords 5) : Config }.reflect.result)
    (p := fun r => r.header.bound = 10 ∧
      r.entryPoints.map (·.modes.map (·.operands.map (·.value))) = [[[some (.int 32 false 2)]]])
    (by decide +kernel)
  obtain ⟨hbound, hvalues⟩ := of_decide_eq_true hfacts
  have hmodes : ∀ e ∈ (instructions (modeWords 5)).filterMap
      (fun i => (i.annotation? 10).bind Annotation.mode?),
      e = ((3, { mode := 37, params := .idents [5] }) : Ident × ModeDecl) := by decide +kernel
  have hfunction : Declared (modeWords 5) .function 3 := ⟨6, by unfold DeclaredAt; decide +kernel⟩
  have hconstant : Declared (modeWords 5) .constant 5 := ⟨5, by unfold DeclaredAt; decide +kernel⟩
  obtain ⟨words, s, hwords, -, -, -, -, hiff⟩ := reflect_mentions_iff hr
  cases hwords
  refine ⟨r, hr, hvalues, hiff.mpr fun i hi function m hm => ?_⟩
  rw [hbound] at hm
  have heq := hmodes (function, m) (List.mem_filterMap.mpr ⟨i, hi, by rw [hm]; rfl⟩)
  cases heq
  exact ⟨hfunction, List.forall_mem_singleton.mpr hconstant⟩

set_option maxRecDepth 100000 in
/-- The operand of an execution mode need not be declared: the binary has no constant 9. -/
theorem sample_undeclared_operand : ∃ r,
    { binary := some (modeWords 9) : Config }.reflect.result = .ok r ∧
    r.entryPoints.map (·.modes.map (·.operands.map (·.value))) = [[[none]]] ∧
    ∃ i ∈ instructions (modeWords 9), ¬ MentionsDeclared r.header.bound (modeWords 9) i := by
  obtain ⟨r, hr, hfacts⟩ := exists_eq_ok_of_any
    (x := { binary := some (modeWords 9) : Config }.reflect.result)
    (p := fun r => r.header.bound = 10 ∧
      r.entryPoints.map (·.modes.map (·.operands.map (·.value))) = [[[none]]])
    (by decide +kernel)
  obtain ⟨hbound, hvalues⟩ := of_decide_eq_true hfacts
  obtain ⟨g, hg, hkeys⟩ := exists_eq_ok_of_any (x := ofWords (modeWords 9))
    (p := fun g => g.constants.keys = [5]) (by decide +kernel)
  have hmem : (⟨331, [3, 37, 9]⟩ : Instruction) ∈ instructions (modeWords 9) := by decide +kernel
  have hread : (⟨331, [3, 37, 9]⟩ : Instruction).annotation? 10 =
      some (.executionMode 3 { mode := 37, params := .idents [9] }) := by decide +kernel
  refine ⟨r, hr, hvalues, _, hmem, fun hdeclared => ?_⟩
  rw [hbound] at hdeclared
  have hconstant : Declared (modeWords 9) .constant 9 :=
    hdeclared _ hread (.constant, 9) (by simp [ Annotation.mentions, ModeParams.constants])
  have hids : 9 ∈ g.ids .constant := (mem_ids_iff hg).mpr hconstant
  have hid : 9 ∈ g.constants.keys := hids
  rw [of_decide_eq_true hkeys] at hid
  exact absurd hid (by decide)

end Config

end ShaderReflect
