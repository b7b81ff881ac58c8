import ShaderReflect.Proofs.Declared.Effect

/-!
# Variables are tracked through derived pointers

A pointer *originates* from a variable behind some instructions (`Origin`) if it is the variable, or
the result of an instruction among them that derives it from a pointer which originated from the
variable where the instruction stands. If no two results have the same ID, this is what the
declarations know of an ID, at each place of a binary (`Tracked.origin`). So the variables that a
function touches are those that the pointers in its body originate from, and the images and samplers
that it pairs are those of its body, each put as the variable that it originates from
(`Graph.ofWords_tracked`).

What is said of a prefix of the instructions grows with each instruction: `Tracked.step` is the
step, `tracked_foldlM` the run.

Specification, 4.2 (function bodies). That results have IDs of their own is needed: the declarations
keep the latest variable for an ID, in one table for the whole binary, and do not notice if an ID is
used twice (`Proofs/DistinctIds`). Results of other functions count, as IDs belong to the binary; an
instruction that comes before a pointer is derived does not see it.
-/

namespace ShaderReflect

open Instruction

variable {before is : List Instruction} {i : Instruction} {f id x v : Ident} {body : FunctionBody}

/-! ## Bodies -/

/-- The function that is open behind something, if it is said which one is open before. -/
def Outline.opens (current : Option Ident) : Outline → Option Ident
  | .declares .function id => some id
  | .endsFunction => none
  | _ => current

/-- The function that is open behind an instruction, if it is said which one is open before. -/
def Instruction.opens (current : Option Ident) (i : Instruction) : Option Ident :=
  (i.outline current.isSome).opens current

/-- The function that is open behind some instructions. -/
def openFunction (is : List Instruction) : Option Ident := is.foldl Instruction.opens none

/-- The instructions, each with those that stand before it. -/
def places (before : List Instruction) : List Instruction → List (List Instruction × Instruction)
  | [] => []
  | i :: is => (before, i) :: places (before ++ [i]) is

/-- The instructions of a function body, each with those that stand before it. -/
def bodyOf (is : List Instruction) (f : Ident) : List (List Instruction × Instruction) :=
  (places [] is).filter fun place => openFunction place.1 = some f

@[simp] theorem openFunction_concat :
    openFunction (before ++ [i]) = i.opens (openFunction before) := by
  simp [openFunction]

theorem places_append (as bs : List Instruction) :
    places before (as ++ bs) = places before as ++ places (before ++ as) bs := by
  induction as generalizing before with
  | nil => simp [places]
  | cons a as ih => simp [places, ih]

/-- A place splits the instructions. -/
theorem mem_places_iff {place : List Instruction × Instruction} :
    place ∈ places [] is ↔ ∃ after, is = place.1 ++ place.2 :: after := by
  have hgeneral : ∀ before, place ∈ places before is ↔
      ∃ between after, place.1 = before ++ between ∧ is = between ++ place.2 :: after := by
    induction is with
    | nil => simp [places]
    | cons i is ih =>
      intro before
      obtain ⟨front, j⟩ := place
      rw [places, List.mem_cons, ih]
      constructor
      · rintro (h | ⟨between, after, hfront, rfl⟩)
        · cases h
          exact ⟨[], is, by simp, rfl⟩
        · exact ⟨i :: between, after, by simpa using hfront, rfl⟩
      · rintro ⟨between, after, hfront, hsplit⟩
        cases between with
        | nil =>
          cases hsplit
          exact Or.inl (by simpa using hfront)
        | cons b between =>
          cases hsplit
          exact Or.inr ⟨between, after, by simpa using hfront, rfl⟩
  simpa using hgeneral []

theorem bodyOf_concat : bodyOf (before ++ [i]) f =
    bodyOf before f ++ if openFunction before = some f then [(before, i)] else [] := by
  unfold bodyOf
  rw [places_append, List.filter_append]
  by_cases h : openFunction before = some f
  · simp [places, h]
  · simp [places, h]

/-! ## Origins -/

/-- Behind some instructions, an ID is a variable, or a chain of instructions derives it from one.
Each instruction of the chain stands behind those that derive what it takes, and all of them behind
the one that declares the variable. -/
inductive Origin : List Instruction → Ident → Ident → Prop
  | self {before after : List Instruction} {i : Instruction} {v : Ident}
      (h : i.outline (openFunction before).isSome = .declares .globalVar v) :
      Origin (before ++ i :: after) v v
  | derive {before after : List Instruction} {i : Instruction} {result pointer v : Ident}
      (hi : i.effect = .derives result pointer) (h : Origin before pointer v) :
      Origin (before ++ i :: after) result v

/-- What an image or a sampler is put as: the variable that it originates from, or else itself. -/
def PutAs (before : List Instruction) (id id' : Ident) : Prop :=
  Origin before id id' ∨ (∀ v, ¬Origin before id v) ∧ id' = id

/-- **One more instruction** adds the origin of what it declares or derives. -/
theorem origin_concat_iff : Origin (before ++ [i]) x v ↔ Origin before x v ∨
    (x = v ∧ i.outline (openFunction before).isSome = .declares .globalVar v) ∨
      ∃ pointer, i.effect = .derives x pointer ∧ Origin before pointer v := by
  constructor
  · intro h
    generalize hbehind : before ++ [i] = behind at h
    have hlast : ∀ {front after : List Instruction} {j : Instruction},
        before ++ [i] = front ++ j :: after →
        (front = before ∧ j = i) ∨ ∃ after', before = front ++ j :: after' := by
      intro front after j heq
      rcases List.eq_nil_or_concat after with rfl | ⟨after', k, rfl⟩
      · obtain ⟨rfl, hj⟩ := List.append_inj' heq rfl
        cases hj
        exact Or.inl ⟨rfl, rfl⟩
      · have heq : before ++ [i] = (front ++ j :: after') ++ [k] := by simpa using heq
        obtain ⟨hbefore, -⟩ := List.append_inj' heq rfl
        exact Or.inr ⟨after', hbefore⟩
    cases h with
    | self h =>
      rcases hlast hbehind with ⟨rfl, rfl⟩ | ⟨after', rfl⟩
      · exact Or.inr (Or.inl ⟨rfl, h⟩)
      · exact Or.inl (.self h)
    | derive hi h =>
      rcases hlast hbehind with ⟨rfl, rfl⟩ | ⟨after', rfl⟩
      · exact Or.inr (Or.inr ⟨_, hi, h⟩)
      · exact Or.inl (.derive hi h)
  · rintro (h | ⟨rfl, h⟩ | ⟨pointer, hi, h⟩)
    · cases h with
      | self h =>
        rw [List.append_assoc, List.cons_append]
        exact .self h
      | derive hi h =>
        rw [List.append_assoc, List.cons_append]
        exact .derive hi h
    · exact .self h
    · exact .derive hi h

/-- What has an origin is the result of an instruction. -/
theorem Origin.mem_results (h : Origin before x v) : x ∈ before.filterMap Instruction.result? := by
  cases h with
  | self h =>
    exact List.mem_filterMap.mpr ⟨_, List.mem_append_right _ List.mem_cons_self,
      result?_of_outline h⟩
  | derive hi h =>
    exact List.mem_filterMap.mpr ⟨_, List.mem_append_right _ List.mem_cons_self,
      result?_of_effect hi⟩

/-- An open function is the result of an instruction. -/
theorem mem_results_of_openFunction (h : openFunction before = some f) :
    f ∈ before.filterMap Instruction.result? := by
  induction before using List.reverseRecOn with
  | nil => cases h
  | append_singleton before i ih =>
    rw [List.filterMap_append, List.mem_append]
    rw [openFunction_concat, Instruction.opens] at h
    cases houtline : i.outline (openFunction before).isSome with
    | endsFunction =>
      rw [houtline] at h
      cases h
    | neutral =>
      rw [houtline] at h
      exact Or.inl (ih h)
    | declares kind id =>
      rw [houtline] at h
      cases kind with
      | function =>
        cases h
        exact Or.inr (List.mem_filterMap.mpr ⟨i, by simp, result?_of_outline houtline⟩)
      | type | constant | globalVar => exact Or.inl (ih h)

/-- A function without an instruction that opens it has no body. -/
theorem bodyOf_eq_nil (h : f ∉ before.filterMap Instruction.result?) : bodyOf before f = [] := by
  refine List.filter_eq_nil_iff.mpr fun place hplace hopen => h ?_
  obtain ⟨after, hsplit⟩ := mem_places_iff.mp hplace
  have hmem := mem_results_of_openFunction (of_decide_eq_true hopen)
  rw [hsplit, List.filterMap_append]
  exact List.mem_append_left _ hmem

/-! ## What a body holds -/

/-- The images and samplers that are paired in a function body, each pair with the instructions that
stand before it. -/
def pairsOf (is : List Instruction) (f : Ident) : List (List Instruction × Ident × Ident) :=
  (bodyOf is f).filterMap fun place => place.2.effect.pair?.map (place.1, ·)

/-- The body of a function holds what the instructions say. -/
structure Describes (is : List Instruction) (f : Ident) (body : FunctionBody) : Prop where
  accessed : ∀ v, v ∈ body.accessed ↔
    ∃ place ∈ bodyOf is f, ∃ pointer ∈ place.2.effect.pointers, Origin place.1 pointer v
  sampled : List.Forall₂
    (fun pair put => PutAs pair.1 pair.2.1 put.1 ∧ PutAs pair.1 pair.2.2 put.2)
    (pairsOf is f) body.sampled

/-- The variable that an ID names or is derived from, or else the ID. -/
def Declarations.put (ds : Declarations) (id : Ident) : Ident := (ds.variableOf? id).getD id

/-- What an effect adds to a body. -/
structure FunctionBody.Extends (ds : Declarations) (e : Effect) (body body' : FunctionBody) :
    Prop where
  accessed : ∀ v, v ∈ body'.accessed ↔
    v ∈ body.accessed ∨ ∃ pointer ∈ e.pointers, ds.variableOf? pointer = some v
  sampled : body'.sampled =
    body.sampled ++ (e.pair?.map fun pair => (ds.put pair.1, ds.put pair.2)).toList

theorem describes_empty (h : f ∉ before.filterMap Instruction.result?) :
    Describes before f {} where
  accessed := by simp [bodyOf_eq_nil h]
  sampled := by
    rw [pairsOf, bodyOf_eq_nil h]
    exact .nil

/-- An instruction of another body changes nothing. -/
theorem Describes.concat_of_ne (h : Describes before f body) (hf : openFunction before ≠ some f) :
    Describes (before ++ [i]) f body := by
  have hbody : bodyOf (before ++ [i]) f = bodyOf before f := by
    rw [bodyOf_concat, if_neg hf, List.append_nil]
  refine ⟨?_, ?_⟩
  · rw [hbody]
    exact h.accessed
  · rw [pairsOf, hbody]
    exact h.sampled

/-- An instruction of the body adds its effect. -/
theorem Describes.concat (h : Describes before f body) (hf : openFunction before = some f)
    {ds : Declarations} (horigin : ∀ x v, ds.variableOf? x = some v ↔ Origin before x v)
    {body' : FunctionBody} (hbody : body.Extends ds i.effect body') :
    Describes (before ++ [i]) f body' := by
  have hconcat : bodyOf (before ++ [i]) f = bodyOf before f ++ [(before, i)] := by
    rw [bodyOf_concat, if_pos hf]
  have hput : ∀ x, PutAs before x (ds.put x) := by
    intro x
    unfold Declarations.put
    cases hx : ds.variableOf? x with
    | some v => exact Or.inl ((horigin x v).mp hx)
    | none =>
      refine Or.inr ⟨fun v hv => ?_, rfl⟩
      rw [(horigin x v).mpr hv] at hx
      cases hx
  refine ⟨fun v => ?_, ?_⟩
  · rw [hbody.accessed, h.accessed, hconcat]
    simp only [List.mem_append, List.mem_singleton, or_and_right, exists_or, exists_eq_left,
      horigin]
  · rw [pairsOf, hconcat, List.filterMap_append, hbody.sampled]
    refine List.rel_append h.sampled ?_
    cases hpair : i.effect.pair? with
    | none => simp [hpair]
    | some pair => simpa [hpair] using ⟨hput pair.1, hput pair.2⟩

/-- An instruction without effect changes no body. -/
theorem Describes.concat_of_none (h : Describes before f body) (hi : i.effect = .none) :
    Describes (before ++ [i]) f body := by
  by_cases hf : openFunction before = some f
  · have hconcat : bodyOf (before ++ [i]) f = bodyOf before f ++ [(before, i)] := by
      rw [bodyOf_concat, if_pos hf]
    refine ⟨fun v => ?_, ?_⟩
    · rw [h.accessed, hconcat]
      simp [or_and_right, exists_or, hi, Effect.pointers]
    · have hpairs : pairsOf (before ++ [i]) f = pairsOf before f := by
        rw [pairsOf, hconcat, List.filterMap_append]
        simp [pairsOf, hi, Effect.pair?]
      rw [hpairs]
      exact h.sampled
  · exact h.concat_of_ne hf

/-! ## Declarations -/

namespace Declarations

variable {ds ds' : Declarations} {d : Declaration}

/-- What has an effect belongs to the open body, and extends it. -/
theorem extends_of_add (h : ds.add d = .ok ds') (hd : d.effect ≠ .none) :
    ∃ f body body', ds.current = some (f, body) ∧ ds'.current = some (f, body') ∧
      ds'.functions = ds.functions ∧ body.Extends ds d.effect body' := by
  cases d with
  | call callee args =>
    obtain ⟨f, body, hcurrent, rfl⟩ := inBody_eq_ok h
    refine ⟨f, body, _, hcurrent, rfl, rfl, fun v => ?_, (List.append_nil _).symm⟩
    simp [Declaration.effect, Effect.pointers, or_comm]
  | touch pointers =>
    obtain ⟨f, body, hcurrent, rfl⟩ := inBody_eq_ok h
    refine ⟨f, body, _, hcurrent, rfl, rfl, fun v => ?_, (List.append_nil _).symm⟩
    simp [Declaration.effect, Effect.pointers, or_comm]
  | sampledImage image sampler =>
    obtain ⟨f, body, hcurrent, rfl⟩ := inBody_eq_ok h
    refine ⟨f, body, _, hcurrent, rfl, rfl, fun v => ?_, rfl⟩
    simp [Declaration.effect, Effect.pointers]
  | derive result pointer =>
    simp only [add] at h
    split at h
    · rename_i hpointer
      obtain ⟨f, body, hcurrent, rfl⟩ := inBody_eq_ok h
      refine ⟨f, body, _, hcurrent, rfl, rfl, fun v => ?_, (List.append_nil _).symm⟩
      simp [Declaration.effect, Effect.pointers, hpointer]
    · rename_i w hpointer
      obtain ⟨f, body, hcurrent, rfl⟩ := inBody_eq_ok h
      refine ⟨f, body, _, hcurrent, rfl, rfl, fun v => ?_, (List.append_nil _).symm⟩
      simp [Declaration.effect, Effect.pointers, hpointer, or_comm, eq_comm]
  | _ => exact absurd rfl hd

/-- What declares no variable and derives no pointer changes nothing about the variables that IDs
name or are derived from. -/
theorem variableOf?_add_of_ne (h : ds.add d = .ok ds')
    (hd : ∀ id, d.outline ≠ .declares .globalVar id)
    (hd' : ∀ result pointer, d.effect ≠ .derives result pointer) (x : Ident) :
    ds'.variableOf? x = ds.variableOf? x := by
  cases d with
  | globalVar id decl => exact absurd rfl (hd id)
  | derive result pointer => exact absurd rfl (hd' result pointer)
  | call | touch | sampledImage =>
    obtain ⟨f, body, -, rfl⟩ := inBody_eq_ok h
    rfl
  | forwardPointer | function =>
    cases h
    rfl
  | type | constant | functionEnd =>
    cases adds_of_add h with
    | neutral hd => cases hd
    | _ => rfl

/-- A variable names itself once it is declared. -/
theorem variableOf?_add_globalVar {decl : Variable} (h : ds.add (.globalVar id decl) = .ok ds')
    (x : Ident) : ds'.variableOf? x = if x = id then some id else ds.variableOf? x := by
  cases adds_of_add h with
  | @globalVar _ _ globals _ hglobals =>
    have hcontains : globals.contains x = if x = id then true else ds.globals.contains x := by
      rw [Table.contains, Table.get?_insertNew? hglobals]
      split <;> rfl
    simp only [variableOf?, hcontains]
    split
    · rename_i hx
      rw [if_pos rfl, hx]
    · rfl
  | neutral hd => cases hd

/-- A pointer that names no variable is derived from what it is computed from. -/
theorem variableOf?_add_derive {result pointer : Ident}
    (h : ds.add (.derive result pointer) = .ok ds') (hresult : ds.variableOf? result = none)
    (x : Ident) :
    ds'.variableOf? x = if x = result then ds.variableOf? pointer else ds.variableOf? x := by
  simp only [add] at h
  split at h
  · rename_i hpointer
    obtain ⟨f, body, -, rfl⟩ := inBody_eq_ok h
    by_cases hx : x = result
    · subst hx
      rw [if_pos rfl, hpointer]
      exact hresult
    · rw [if_neg hx]
      rfl
  · rename_i w hpointer
    obtain ⟨f, body, -, rfl⟩ := inBody_eq_ok h
    by_cases hx : x = result
    · subst hx
      have hglobal : ds.globals.contains x = false := by
        unfold variableOf? at hresult
        split at hresult
        · cases hresult
        · rename_i hglobal
          simpa using hglobal
      simp [variableOf?, hglobal, ← hpointer]
    · have hne : (x == result) = false := by simpa using hx
      simp [variableOf?, List.lookup_cons, hne, hx]

end Declarations

/-- Behind some instructions, the declarations know the origin of every ID, and hold the bodies of
the functions so far. -/
structure Tracked (before : List Instruction) (ds : Declarations) : Prop where
  opened : openFunction before = ds.current.map Prod.fst
  origin : ∀ x v, ds.variableOf? x = some v ↔ Origin before x v
  known : ∀ f ∈ ds.functions.keys, f ∈ before.filterMap Instruction.result?
  current : ∀ f body, ds.current = some (f, body) → f ∉ ds.functions.keys ∧ Describes before f body
  functions : ∀ f body, ds.functions.get? f = some body → Describes before f body

namespace Tracked

variable {ds ds' : Declarations} {d : Declaration}

theorem empty : Tracked [] {} where
  opened := rfl
  origin := by
    intro x v
    constructor
    · intro h
      cases h
    · intro h
      have hmem : x ∈ [].filterMap Instruction.result? := h.mem_results
      cases hmem
  known := by
    intro f hf
    cases hf
  current := by
    intro f body h
    cases h
  functions := by
    intro f body h
    cases h

/-- **The origins behind one more declaration.** Its ID has none before, since no other result has
this ID. -/
theorem origin_add (h : Tracked before ds) (hadd : ds.add d = .ok ds')
    (houtline : i.outline (openFunction before).isSome = d.outline) (heffect : i.effect = d.effect)
    (hfresh : ∀ r, i.result? = some r → r ∉ before.filterMap Instruction.result?) (x v : Ident) :
    ds'.variableOf? x = some v ↔ Origin (before ++ [i]) x v := by
  have hnone : ∀ r, i.result? = some r → ds.variableOf? r = none := by
    intro r hr
    refine Option.eq_none_iff_forall_ne_some.mpr fun v hv => hfresh r hr ?_
    exact ((h.origin r v).mp hv).mem_results
  rw [origin_concat_iff, houtline, heffect, ← h.origin]
  cases d with
  | globalVar id decl =>
    have hid : ds.variableOf? id = none := hnone id (result?_of_outline houtline)
    rw [Declarations.variableOf?_add_globalVar hadd]
    by_cases hx : x = id
    · subst hx
      simp [Declaration.outline, Declaration.effect, hid]
    · have hdeclared : ¬(x = v ∧ id = v) := fun h => hx (h.1.trans h.2.symm)
      simp [Declaration.outline, Declaration.effect, hx, hdeclared]
  | derive result pointer =>
    have hresult : ds.variableOf? result = none := hnone result (result?_of_effect heffect)
    rw [Declarations.variableOf?_add_derive hadd hresult]
    by_cases hx : x = result
    · subst hx
      simp [Declaration.outline, Declaration.effect, hresult, ← h.origin]
    · have hderived : ¬(result = x) := fun h => hx h.symm
      simp [Declaration.outline, Declaration.effect, hx, hderived]
  | _ =>
    rw [Declarations.variableOf?_add_of_ne hadd (by simp [Declaration.outline])
      (by simp [Declaration.effect])]
    simp [Declaration.outline, Declaration.effect]

/-- What neither opens or ends a function nor has an effect leaves the bodies as they are. -/
theorem of_none (h : Tracked before ds) (heffect : i.effect = .none)
    (hopens : i.opens (openFunction before) = openFunction before)
    (horigin : ∀ x v, ds'.variableOf? x = some v ↔ Origin (before ++ [i]) x v)
    (hcurrent : ds'.current = ds.current) (hfunctions : ds'.functions = ds.functions) :
    Tracked (before ++ [i]) ds' where
  opened := by rw [openFunction_concat, hopens, h.opened, hcurrent]
  origin := horigin
  known := by
    intro f hf
    rw [hfunctions] at hf
    rw [List.filterMap_append]
    exact List.mem_append_left _ (h.known f hf)
  current := by
    intro f body hbody
    rw [hcurrent] at hbody
    obtain ⟨hnew, hdescribes⟩ := h.current f body hbody
    rw [hfunctions]
    exact ⟨hnew, hdescribes.concat_of_none heffect⟩
  functions := by
    intro f body hbody
    rw [hfunctions] at hbody
    exact (h.functions f body hbody).concat_of_none heffect

/-- What has an effect extends the open body, and leaves the others as they are. -/
theorem of_effect (h : Tracked before ds) (hadd : ds.add d = .ok ds')
    (heffect : i.effect = d.effect) (hd : d.effect ≠ .none)
    (hopens : i.opens (openFunction before) = openFunction before)
    (horigin : ∀ x v, ds'.variableOf? x = some v ↔ Origin (before ++ [i]) x v) :
    Tracked (before ++ [i]) ds' := by
  obtain ⟨f, body, body', hcurrent, hcurrent', hfunctions, hextends⟩ :=
    Declarations.extends_of_add hadd hd
  have hopen : openFunction before = some f := by rw [h.opened, hcurrent, Option.map_some]
  obtain ⟨hnew, hdescribes⟩ := h.current f body hcurrent
  refine ⟨?_, horigin, fun f' hf' => ?_, fun f' body₁ hbody => ?_, fun f' body₁ hbody => ?_⟩
  · rw [openFunction_concat, hopens, hopen, hcurrent', Option.map_some]
  · rw [hfunctions] at hf'
    rw [List.filterMap_append]
    exact List.mem_append_left _ (h.known f' hf')
  · rw [hcurrent'] at hbody
    cases hbody
    rw [hfunctions]
    exact ⟨hnew, hdescribes.concat hopen h.origin (heffect ▸ hextends)⟩
  · rw [hfunctions] at hbody
    refine (h.functions f' body₁ hbody).concat_of_ne fun hf' => hnew ?_
    rw [hopen, Option.some.injEq] at hf'
    rw [hf']
    exact Table.mem_keys_of_get? hbody

/-- A function is opened with a body that holds nothing. -/
theorem of_function (h : Tracked before ds) (hadd : ds.add (.function id) = .ok ds')
    (houtline : i.outline (openFunction before).isSome = .declares .function id)
    (heffect : i.effect = .none)
    (hfresh : id ∉ before.filterMap Instruction.result?)
    (horigin : ∀ x v, ds'.variableOf? x = some v ↔ Origin (before ++ [i]) x v) :
    Tracked (before ++ [i]) ds' := by
  cases hadd
  refine ⟨?_, horigin, fun f hf => ?_, fun f body hbody => ?_, fun f body hbody => ?_⟩
  · rw [openFunction_concat, Instruction.opens, houtline]
    rfl
  · rw [List.filterMap_append]
    exact List.mem_append_left _ (h.known f hf)
  · cases hbody
    refine ⟨fun hkey => hfresh (h.known id hkey), ?_⟩
    exact (describes_empty hfresh).concat_of_none heffect
  · exact (h.functions f body hbody).concat_of_none heffect

/-- A function that is ended is one of those that are known. -/
theorem of_functionEnd (h : Tracked before ds) (hadd : ds.add .functionEnd = .ok ds')
    (houtline : i.outline (openFunction before).isSome = .endsFunction)
    (heffect : i.effect = .none)
    (horigin : ∀ x v, ds'.variableOf? x = some v ↔ Origin (before ++ [i]) x v) :
    Tracked (before ++ [i]) ds' := by
  cases Declarations.adds_of_add hadd with
  | neutral hd => cases hd
  | @functionEnd f body _ hcurrent hfunctions =>
    refine ⟨?_, horigin, fun f' hf' => ?_, fun f' body' hbody => ?_, fun f' body' hbody => ?_⟩
    · rw [openFunction_concat, Instruction.opens, houtline]
      rfl
    · rw [List.filterMap_append]
      refine List.mem_append_left _ ?_
      rcases (Table.mem_keys_insertNew? hfunctions).mp hf' with hf' | rfl
      · exact h.known f' hf'
      · exact mem_results_of_openFunction (by rw [h.opened, hcurrent, Option.map_some])
    · cases hbody
    · rcases Table.get?_of_insertNew? hfunctions hbody with hbody | ⟨rfl, rfl⟩
      · exact (h.functions f' body' hbody).concat_of_none heffect
      · exact (h.current f' body' hcurrent).2.concat_of_none heffect

/-- **One more declaration** is tracked. -/
theorem add (h : Tracked before ds) (hadd : ds.add d = .ok ds')
    (houtline : i.outline (openFunction before).isSome = d.outline) (heffect : i.effect = d.effect)
    (hfresh : ∀ r, i.result? = some r → r ∉ before.filterMap Instruction.result?) :
    Tracked (before ++ [i]) ds' := by
  have horigin := h.origin_add hadd houtline heffect hfresh
  have hopens : i.opens (openFunction before) = d.outline.opens (openFunction before) := by
    rw [Instruction.opens, houtline]
  cases d with
  | function id =>
    exact h.of_function hadd houtline heffect (hfresh id (result?_of_outline houtline)) horigin
  | functionEnd => exact h.of_functionEnd hadd houtline heffect horigin
  | call | derive | touch | sampledImage =>
    exact h.of_effect hadd heffect nofun hopens horigin
  | forwardPointer =>
    cases hadd
    exact h.of_none heffect hopens horigin rfl rfl
  | type | constant | globalVar =>
    cases Declarations.adds_of_add hadd with
    | neutral hd => cases hd
    | _ => exact h.of_none heffect hopens horigin rfl rfl

/-- **One more instruction** is tracked. -/
theorem step {bound : Word} {draft draft' : Draft} (h : Tracked before draft.declarations)
    (hadd : draft.addInstruction bound i = .ok draft')
    (hfresh : ∀ r, i.result? = some r → r ∉ before.filterMap Instruction.result?) :
    Tracked (before ++ [i]) draft'.declarations := by
  have hopen : draft.declarations.current.isSome = (openFunction before).isSome := by
    rw [h.opened, Option.isSome_map]
  cases Draft.collects_of_addInstruction hadd with
  | ignored hread | annotate hread =>
    have houtline : i.outline (openFunction before).isSome = .neutral := by
      rw [← hopen, ← Statement.outline_of_read hread]
      rfl
    have heffect : i.effect = .none := (Statement.effect_of_read hread).symm
    refine h.of_none heffect ?_ (fun x v => ?_) rfl rfl
    · rw [Instruction.opens, houtline]
      rfl
    · rw [origin_concat_iff, houtline, heffect, ← h.origin]
      simp
  | declare hread hdeclare =>
    refine h.add hdeclare ?_ (Statement.effect_of_read hread).symm hfresh
    rw [← hopen, ← Statement.outline_of_read hread]
    rfl

end Tracked

/-- **Instructions are tracked** if no two of them have the same result. -/
theorem tracked_foldlM {bound : Word} {draft : Draft}
    (h : is.foldlM (Draft.addInstruction bound) {} = .ok draft)
    (hdistinct : (is.filterMap Instruction.result?).Nodup) : Tracked is draft.declarations := by
  induction is using List.reverseRecOn generalizing draft with
  | nil =>
    cases h
    exact .empty
  | append_singleton before i ih =>
    rw [List.foldlM_append, bind_eq_ok_iff] at h
    obtain ⟨draft', hbefore, h⟩ := h
    rw [List.foldlM_cons, bind_eq_ok_iff] at h
    obtain ⟨_, hadd, h⟩ := h
    cases h
    rw [List.filterMap_append] at hdistinct
    obtain ⟨hfirst, -, hapart⟩ := List.nodup_append.mp hdistinct
    refine (ih hbefore hfirst).step hadd fun r hr hmem => ?_
    exact hapart r hmem r (List.mem_filterMap.mpr ⟨i, by simp, hr⟩) rfl

namespace Graph

variable {g : Graph} {words : List Word}

/-- **Variables are tracked exactly.** If no two instructions of a binary have the same result, then
a function touches a variable exactly if an instruction of its body takes a pointer that originates
from the variable where the instruction stands: the pointer of an access, both pointers of a copy,
or any argument of a call. The images that the function samples are those of its body, in order, and
each image and each sampler is put as the variable that it originates from, if there is one. -/
theorem ofWords_tracked (h : ofWords words = .ok g)
    (hdistinct : ((instructions words).filterMap Instruction.result?).Nodup)
    (hf : g.functions.get? f = some body) :
    (∀ v, v ∈ body.accessed ↔ ∃ place ∈ bodyOf (instructions words) f,
      ∃ pointer ∈ place.2.effect.pointers, Origin place.1 pointer v) ∧
    List.Forall₂ (fun pair put => PutAs pair.1 pair.2.1 put.1 ∧ PutAs pair.1 pair.2.2 put.2)
      (pairsOf (instructions words) f) body.sampled := by
  obtain ⟨draft, hfold, -, -, -, -, -, hfunctions, -⟩ := exists_draft_of_ofWords h
  rw [hfunctions] at hf
  have hdescribes := (tracked_foldlM hfold hdistinct).functions f body hf
  exact ⟨hdescribes.accessed, hdescribes.sampled⟩

/-- The instructions of a binary with two functions. Function 13 samples the image 7 with the
sampler 8, both loaded before, and hands a pointer to function 20 that is derived in two steps from
the variable 12. -/
def pointerBody : List Instruction := [
  ⟨19, [1]⟩, ⟨22, [2, 32]⟩, ⟨25, [3, 2, 1, 0, 0, 0, 1, 0]⟩, ⟨26, [4]⟩, ⟨27, [5, 3]⟩,
  ⟨32, [6, 0, 3]⟩, ⟨59, [6, 7, 0]⟩, ⟨32, [9, 0, 4]⟩, ⟨59, [9, 8, 0]⟩, ⟨30, [10, 2]⟩,
  ⟨32, [11, 2, 10]⟩, ⟨59, [11, 12, 2]⟩, ⟨33, [23, 1]⟩,
  ⟨54, [1, 13, 0, 23]⟩, ⟨61, [3, 14, 7]⟩, ⟨61, [4, 15, 8]⟩, ⟨86, [5, 16, 14, 15]⟩,
  ⟨65, [11, 17, 12]⟩, ⟨65, [11, 18, 17]⟩, ⟨57, [1, 19, 20, 18]⟩, ⟨56, []⟩,
  ⟨54, [1, 20, 0, 23]⟩, ⟨56, []⟩]

/-- The binary with two functions. -/
def pointerWords : List Word :=
  [magicNumber, 0x10300, 0, 30, 0] ++ pointerBody.flatMap Instruction.words

set_option maxRecDepth 100000 in
/-- A variable is touched through a pointer that is derived from it in two steps. -/
theorem sample_ofWords_tracked : ∃ g body, ofWords pointerWords = .ok g ∧
    ((instructions pointerWords).filterMap Instruction.result?).Nodup ∧
    g.functions.get? 13 = some body ∧ body.accessed.ids = [7, 8, 12] ∧ body.sampled = [(7, 8)] ∧
    ∃ place ∈ bodyOf (instructions pointerWords) 13, ∃ pointer ∈ place.2.effect.pointers,
      Origin place.1 pointer 12 := by
  obtain ⟨g, hg, hfacts⟩ := exists_eq_ok_of_any (x := ofWords pointerWords)
    (p := fun g => (g.functions.get? 13).any fun body =>
      body.accessed.ids = [7, 8, 12] ∧ body.sampled = [(7, 8)])
    (by decide +kernel)
  obtain ⟨body, hbody, hfacts⟩ := (Option.any_eq_true _ _).mp hfacts
  obtain ⟨haccessed, hsampled⟩ := of_decide_eq_true hfacts
  have hdistinct : ((instructions pointerWords).filterMap Instruction.result?).Nodup := by
    decide +kernel
  refine ⟨g, body, hg, hdistinct, hbody, haccessed, hsampled, ?_⟩
  have hmem : (12 : Ident) ∈ body.accessed := by
    rw [IdSet.mem_iff, haccessed]
    decide
  exact ((ofWords_tracked hg hdistinct hbody).1 12).mp hmem

end Graph

end ShaderReflect
