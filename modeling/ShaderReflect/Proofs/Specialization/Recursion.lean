import ShaderReflect.Proofs.Mentions
import ShaderReflect.Proofs.Specialization.Acceptance

/-!
# One pass is enough

Constants are evaluated once each, in the order of their declarations. The value of a constant can
also be looked for on demand: what it refers to is evaluated first, and so on down to the scalars
(`Graph.valueTo`). If constants refer backwards, both give the same values. A constant that refers
to itself or to a later one has no value, and does no harm.

* `Graph.valueFrom`: the value of a constant, from the values of those that it refers to.
* `Specialization.Evaluated`: what a run over constants has done so far. `Evaluated.step` is one
  more constant, and `Specialization.evaluated_of_foldlM` all of them.
* `Specialization.value?_eq`: so the values of a run satisfy one equation, in which a reference that
  is not backwards leads to nothing.
* `Specialization.apply_evaluates`: the values are those of the recursion.

Specification, 4.3 (constants are evaluated in declaration order). The recursion has a depth, since
a constant may refer to itself; any depth that reaches the number of constants will do. An override
is not part of the recursion: it stands in place of what the constant is made of.
-/

namespace ShaderReflect

/-! ## Values on demand -/

namespace Value

/-- The part of a composite at an index. -/
def part? : Value → Word → Option Value
  | .composite parts, i => parts[i.toNat]?
  | .scalar _, _ => none

/-- A part is reached by one index after the other. -/
theorem extract?_eq (v : Value) (path : List Word) : v.extract? path = path.foldlM part? v := by
  induction path generalizing v with
  | nil =>
    rw [extract?.eq_def]
    rfl
  | cons i path ih =>
    rw [List.foldlM_cons]
    cases v with
    | scalar x => simp [extract?, part?]
    | composite parts =>
      simp only [extract?, part?]
      exact Option.bind_congr fun v _ => ih v

end Value

namespace ConstantKind

/-- The constants that a constant refers to. -/
def references : ConstantKind → List Ident
  | .composite constituents => constituents
  | .operation opcode operands => identOperands opcode operands
  | _ => []

/-- The value of an operation, from the values of constants. A part is looked for in the first
operand, along the indices that are the others. Another operation folds the scalars that its
operands are. -/
def operationFrom (value : Ident → Option Value) (type : TypeDecl) (opcode : Opcode)
    (operands : List Word) : Option Value :=
  if opcode = opCompositeExtract then do
    let composite ← value (← operands.head?)
    operands.tail.foldlM Value.part? composite
  else do
    let args ← (identOperands opcode operands).mapM fun x => (value x).bind Value.scalar?
    return .scalar (← fold? opcode type args)

/-- The value of a constant of a type, from the values of those that it refers to. A scalar is made
of the bytes that it is given, or else of its default. -/
def valueFrom (value : Ident → Option Value) (type : TypeDecl) (given? : Option (List UInt8)) :
    ConstantKind → Option Value
  | .bool b => (given?.elim (some (.bool b)) (Scalar.ofBytes? type)).map .scalar
  | .scalar low high =>
    (given?.elim (Scalar.ofWords? type low high) (Scalar.ofBytes? type)).map .scalar
  | .composite constituents => (constituents.mapM value).map .composite
  | .operation opcode operands => operationFrom value type opcode operands
  | .valueless => none

end ConstantKind

namespace Graph

/-- The value of a constant, from the bytes that it is given and the values of those that it refers
to. -/
def valueFrom (g : Graph) (given? : Ident → Option (List UInt8)) (value : Ident → Option Value)
    (id : Ident) : Option Value := do
  let c ← g.constants.get? id
  let type ← g.types.get? c.type
  c.kind.valueFrom value type (given? id)

/-- The value of a constant on demand, with references followed down to a depth. -/
def valueTo (g : Graph) (given? : Ident → Option (List UInt8)) : Nat → Ident → Option Value
  | 0 => fun _ => none
  | depth + 1 => g.valueFrom given? (g.valueTo given? depth)

/-- How many constants are declared before a constant. -/
def place (g : Graph) (id : Ident) : Nat := g.constants.keys.idxOf id

/-- Constants refer only to constants that are declared before them. -/
def RefersBack (g : Graph) : Prop :=
  ∀ id c, g.constants.get? id = some c → ∀ x ∈ c.kind.references, g.place x < g.place id

-- The entries are looked at, as there are too many IDs to look at all of them.
instance (g : Graph) : Decidable g.RefersBack :=
  decidable_of_iff
    (g.constants.entries.all fun e =>
      e.2.kind.references.all fun x => g.place x < g.place e.1) <| by
      simp only [List.all_eq_true, decide_eq_true_iff]
      constructor
      · intro h id c hc
        exact h (id, c) (Table.get?_eq_some_iff.mp hc)
      · intro h e he
        exact h e.1 e.2 (Table.get?_eq_some_iff.mpr he)

end Graph

theorem mapM_congr_of_mem {α β : Type} {f f' : α → Option β} {xs : List α}
    (h : ∀ x ∈ xs, f x = f' x) : xs.mapM f = xs.mapM f' := by
  induction xs with
  | nil => rfl
  | cons x xs ih =>
    rw [List.forall_mem_cons] at h
    rw [List.mapM_cons, List.mapM_cons, h.1, ih h.2]

theorem mapM_eq_none_of_mem {α β : Type} {f : α → Option β} {xs : List α} {x : α} (hx : x ∈ xs)
    (h : f x = none) : xs.mapM f = none := by
  induction xs with
  | nil => cases hx
  | cons y ys ih =>
    rw [List.mapM_cons]
    rcases List.mem_cons.mp hx with rfl | hx
    · rw [h]
      rfl
    · rw [ih hx]
      cases f y <;> rfl

namespace ConstantKind

variable {value value' : Ident → Option Value} {type : TypeDecl} {given? : Option (List UInt8)}
  {kind : ConstantKind} {operands : List Word} {x : Ident}

/-- A part is looked for in the constant that its operation refers to. -/
theorem identOperands_extract :
    identOperands opCompositeExtract operands = operands.head?.toList := by
  cases operands <;> rfl

/-- The value of a constant depends on the values of those that it refers to. -/
theorem valueFrom_congr (h : ∀ x ∈ kind.references, value x = value' x) :
    kind.valueFrom value type given? = kind.valueFrom value' type given? := by
  cases kind with
  | composite constituents =>
    have hall : constituents.mapM value = constituents.mapM value' := mapM_congr_of_mem h
    rw [valueFrom, valueFrom, hall]
  | operation opcode operands =>
    simp only [valueFrom, operationFrom]
    by_cases hextract : opcode = opCompositeExtract
    · subst hextract
      rw [if_pos rfl, if_pos rfl]
      refine Option.bind_congr fun x hx => ?_
      rw [h x (by rw [references, identOperands_extract, hx]; simp)]
    · rw [if_neg hextract, if_neg hextract, mapM_congr_of_mem fun x hx => by rw [h x hx]]
  | _ => rfl

/-- A constant without a value leaves those that refer to it without one. -/
theorem valueFrom_eq_none (hx : x ∈ kind.references) (h : value x = none) :
    kind.valueFrom value type given? = none := by
  cases kind with
  | composite constituents =>
    have hall : constituents.mapM value = none := mapM_eq_none_of_mem hx h
    rw [valueFrom, hall, Option.map_none]
  | operation opcode operands =>
    simp only [valueFrom, operationFrom]
    by_cases hextract : opcode = opCompositeExtract
    · subst hextract
      rw [references, identOperands_extract, Option.mem_toList] at hx
      simp [hx, h]
    · have hargs : (identOperands opcode operands).mapM (fun x => (value x).bind Value.scalar?) =
          none := mapM_eq_none_of_mem hx (by rw [h, Option.bind_none])
      rw [if_neg hextract, hargs]
      rfl
  | _ => cases hx

end ConstantKind

namespace Graph

variable {g : Graph} {given given' : Ident → Option (List UInt8)}
  {value value' : Ident → Option Value} {id x : Ident} {c : Constant}

theorem valueFrom_congr (hgiven : given id = given' id)
    (h : ∀ c, g.constants.get? id = some c → ∀ x ∈ c.kind.references, value x = value' x) :
    g.valueFrom given value id = g.valueFrom given' value' id := by
  unfold valueFrom
  refine Option.bind_congr fun c hc => Option.bind_congr fun type _ => ?_
  rw [hgiven, ConstantKind.valueFrom_congr (h c hc)]

theorem valueFrom_eq_none (hc : g.constants.get? id = some c) (hx : x ∈ c.kind.references)
    (h : value x = none) : g.valueFrom given value id = none := by
  unfold valueFrom
  rw [hc, Option.bind_eq_bind, Option.bind_some, Option.bind_eq_bind, Option.bind_eq_none_iff]
  exact fun type _ => ConstantKind.valueFrom_eq_none hx h

theorem place_lt_iff {before after : List Ident}
    (hsplit : g.constants.keys = before ++ id :: after) : g.place x < g.place id ↔ x ∈ before := by
  have hid : id ∉ before := by
    have hnodup : g.constants.keys.Nodup := g.constants.nodup
    rw [hsplit, List.nodup_append] at hnodup
    exact fun hmem => hnodup.2.2 id hmem id (by simp) rfl
  simp only [place, hsplit, List.idxOf_append, hid, if_false, List.idxOf_cons_self]
  by_cases hx : x ∈ before
  · simp [hx, List.idxOf_lt_length_iff.mpr hx]
  · simp [hx]

theorem valueFrom_of_not_mem (h : id ∉ g.constants.keys) : g.valueFrom given value id = none := by
  rw [Table.mem_keys_iff, Table.contains, Option.not_isSome_iff_eq_none] at h
  simp [valueFrom, h]

end Graph

namespace Specialization

variable {g : Graph} {os : Overrides} {list : List Override} {s t : Specialization}
  {id x : Ident} {c : Constant} {type : TypeDecl} {words : List Word}

/-! ## One constant -/

/-- Operations whose last operands are indices do not fold, apart from looking for a part. -/
theorem fold?_of_index {opcode : Opcode} (h : opcode = opVectorShuffle ∨ opcode = opCompositeInsert)
    (type : TypeDecl) (args : List Scalar) : fold? opcode type args = none := by
  rcases h with rfl | rfl <;> rfl

theorem evalOperation_eq (s : Specialization) (type : TypeDecl) (opcode : Opcode)
    (operands : List Word) : (s.evalOperation type opcode operands).2 =
      ConstantKind.operationFrom s.value? type opcode operands := by
  unfold evalOperation ConstantKind.operationFrom
  by_cases hextract : opcode = opCompositeExtract
  · simp only [if_pos hextract, Value.extract?_eq]
    rfl
  · rw [if_neg hextract, if_neg hextract]
    by_cases hindex : opcode = opVectorShuffle ∨ opcode = opCompositeInsert
    · -- It does not matter that indices are taken for IDs.
      simp only [fold?_of_index hindex]
      cases operands.mapM s.scalar? <;> simp
    · have hall : ConstantKind.identOperands opcode operands = operands := by
        rw [ConstantKind.identOperands, if_neg hextract, if_neg hindex]
      have hscalar : s.scalar? = fun x => (s.value? x).bind Value.scalar? := rfl
      rw [hall, ← hscalar]
      cases operands.mapM s.scalar? with
      | none => rfl
      | some args => cases hfold : fold? opcode type args <;> simp [hfold]

theorem eval_eq (s : Specialization) (type : TypeDecl) (kind : ConstantKind) :
    (s.eval type kind).2 = kind.valueFrom s.value? type none := by
  cases kind with
  | operation opcode operands => exact evalOperation_eq s type opcode operands
  | _ => rfl

theorem evalOverride_eq {bytes : List UInt8} {v : Option Value}
    (h : evalOverride id c type bytes = .ok v) :
    v = c.kind.valueFrom s.value? type (some bytes) := by
  have hdefault : c.IsScalarDefault := by
    refine isOverridable_iff.mp ?_
    by_contra hnot
    rw [Bool.not_eq_true] at hnot
    simp [evalOverride, hnot] at h
  rw [(evalOverride_eq_ok h).2]
  obtain ⟨-, ⟨value, hk⟩ | ⟨low, high, hk⟩⟩ := hdefault <;> rw [hk] <;> rfl

theorem value?_record (hx : s.value? id = none) (specId : Option Word) (v : Option Value)
    (b : Bool) :
    (s.record g id c specId v b).value? x = if x = id then v else s.value? x := by
  unfold record value? at *
  cases v with
  | none => by_cases h : x = id <;> simp [h, hx]
  | some v => simp [Table.get?_insertFirst, hx]

/-- **One constant** that has no value yet gets the one that the values so far lead to. -/
theorem value?_of_step (hid : s.value? id = none) (h : (step g os s id).result = .ok t) :
    t.value? x = if x = id then g.valueFrom (g.overrideOf os) s.value? id else s.value? x := by
  rw [result_step] at h
  obtain ⟨c, hc, h⟩ := bind_eq_ok_iff.mp h
  obtain ⟨type, ht, h⟩ := bind_eq_ok_iff.mp h
  have hvalue : g.valueFrom (g.overrideOf os) s.value? id =
      c.kind.valueFrom s.value? type (g.overrideOf os id) := by
    unfold Graph.valueFrom
    rw [Graph.constant_eq_ok_iff.mp (liftM_fault_eq_ok_iff.mp hc), Option.bind_eq_bind,
      Option.bind_some, Graph.type_eq_ok_iff.mp (liftM_fault_eq_ok_iff.mp ht), Option.bind_eq_bind,
      Option.bind_some]
  cases hover : g.overrideOf os id with
  | none =>
    rw [hover] at h hvalue
    cases h
    rw [value?_record hid, hvalue, eval_eq]
  | some bytes =>
    rw [hover] at h hvalue
    obtain ⟨v, hv, h⟩ := bind_eq_ok_iff.mp h
    cases h
    rw [value?_record hid, hvalue, evalOverride_eq (liftM_fault_eq_ok_iff.mp hv)]

/-! ## All constants -/

/-- Constants have been evaluated, one after the other: each has the value that those before it lead
to, and no other one has a value. -/
structure Evaluated (g : Graph) (os : Overrides) (ids : List Ident) (s : Specialization) :
    Prop where
  value : ∀ before id after, ids = before ++ id :: after → s.value? id =
    g.valueFrom (g.overrideOf os) (fun x => if x ∈ before then s.value? x else none) id
  fresh : ∀ x, x ∉ ids → s.value? x = none

/-- **The next constant** gets a value from those before it, and changes none of theirs. -/
theorem Evaluated.step {ids : List Ident} (h : Evaluated g os ids s) (hid : id ∉ ids)
    (ht : (step g os s id).result = .ok t) : Evaluated g os (ids ++ [id]) t := by
  have hstep (x : Ident) := value?_of_step (x := x) (h.fresh id hid) ht
  have hkeep : ∀ x ∈ ids, t.value? x = s.value? x := fun x hx => by
    rw [hstep, if_neg (ne_of_mem_of_not_mem hx hid)]
  -- What a constant sees of those before it is the same after the step.
  have hsees (before : List Ident) (hbefore : ∀ x ∈ before, x ∈ ids) :
      (fun x => if x ∈ before then t.value? x else none) =
        fun x => if x ∈ before then s.value? x else none := by
    funext x
    by_cases hx : x ∈ before
    · rw [if_pos hx, if_pos hx, hkeep x (hbefore x hx)]
    · rw [if_neg hx, if_neg hx]
  constructor
  · intro before id' after hsplit
    rcases List.eq_nil_or_concat after with rfl | ⟨after, last, rfl⟩
    · -- The next constant itself, which sees all values so far.
      obtain ⟨rfl, ⟨⟩⟩ := List.append_inj' hsplit rfl
      rw [hstep, if_pos rfl, hsees ids fun x hx => hx]
      congr 1
      funext x
      by_cases hx : x ∈ ids
      · rw [if_pos hx]
      · rw [if_neg hx, h.fresh x hx]
    · rw [List.concat_eq_append, ← List.cons_append, ← List.append_assoc] at hsplit
      obtain ⟨rfl, ⟨⟩⟩ := List.append_inj' hsplit rfl
      rw [hkeep id' (by simp), h.value before id' after rfl, hsees before (by simp +contextual)]
  · intro x hx
    rw [List.mem_append, List.mem_singleton, not_or] at hx
    rw [hstep, if_neg hx.2, h.fresh x hx.1]

/-- **A run over constants** evaluates them. -/
theorem evaluated_of_foldlM {ids : List Ident} (hnodup : ids.Nodup)
    (h : ids.foldlM (fun s id => (step g os s id).result) {} = .ok t) : Evaluated g os ids t := by
  induction ids using List.reverseRecOn generalizing t with
  | nil =>
    cases h
    exact ⟨fun before id after h => by simp at h, fun _ _ => rfl⟩
  | append_singleton ids id ih =>
    rw [List.foldlM_append] at h
    obtain ⟨s, hs, h⟩ := bind_eq_ok_iff.mp h
    simp only [List.foldlM_cons, List.foldlM_nil, bind_pure] at h
    obtain ⟨hids, -, hdisjoint⟩ := List.nodup_append.mp hnodup
    have hid : id ∉ ids := fun hmem => hdisjoint id hmem id (by simp) rfl
    exact (ih hids hs).step hid h

/-- The values of the constants that are declared before a constant. -/
def valueBefore (s : Specialization) (g : Graph) (id x : Ident) : Option Value :=
  if g.place x < g.place id then s.value? x else none

/-- **The values of all constants satisfy one equation**: each is what the values of those before it
lead to. -/
theorem value?_eq (h : (apply g list).result = .ok s) (id : Ident) :
    s.value? id = g.valueFrom (g.givenTo? list) (s.valueBefore g id) id := by
  by_cases hid : id ∈ g.constants.keys
  · rw [result_apply] at h
    obtain ⟨os, hos, h⟩ := bind_eq_ok_iff.mp h
    obtain ⟨before, after, hsplit⟩ := List.append_of_mem hid
    have hvalue := (evaluated_of_foldlM g.constants.nodup h).value before id after hsplit
    have hgiven : g.overrideOf os = g.givenTo? list :=
      funext (overrideOf_eq_givenTo? (liftM_fault_eq_ok_iff.mp hos))
    have hbefore : s.valueBefore g id = fun x => if x ∈ before then s.value? x else none := by
      funext x
      simp only [valueBefore, Graph.place_lt_iff hsplit]
    rw [hvalue, hgiven, hbefore]
  · have hvalue : s.value? id = none := Option.eq_none_iff_forall_ne_some.mpr fun v hv =>
      hid (mem_constants_of_apply h id v hv)
    rw [hvalue, Graph.valueFrom_of_not_mem hid]

/-- What a constant keeps of those that it refers to is kept by all. -/
theorem value?_induction {p : Value → Prop} (h : (apply g list).result = .ok s)
    (hstep : ∀ value id v, (∀ x w, value x = some w → p w) →
      g.valueFrom (g.givenTo? list) value id = some v → p v) (id : Ident) :
    ∀ v, s.value? id = some v → p v := by
  -- The induction is on the number of constants before this one.
  induction hn : g.place id using Nat.strong_induction_on generalizing id with
  | _ n ih =>
    intro v hv
    rw [value?_eq h] at hv
    refine hstep _ id v (fun x w hw => ?_) hv
    obtain ⟨hplace, hw⟩ := Option.ite_none_right_eq_some.mp hw
    exact ih (g.place x) (hn ▸ hplace) x rfl w hw

/-- The values are found by recursion, if it goes deep enough. -/
theorem value?_eq_valueTo (hback : g.RefersBack) (h : (apply g list).result = .ok s) (depth : Nat) :
    ∀ id, (id ∈ g.constants.keys → g.place id < depth) →
      s.value? id = g.valueTo (g.givenTo? list) depth id := by
  induction depth with
  | zero =>
    intro id hid
    rw [value?_eq h, Graph.valueFrom_of_not_mem fun hmem => Nat.not_lt_zero _ (hid hmem),
      Graph.valueTo]
  | succ depth ih =>
    intro id hid
    rw [value?_eq h, Graph.valueTo]
    refine Graph.valueFrom_congr rfl fun c hc x hx => ?_
    have hplace : g.place x < g.place id := hback id c hc x hx
    have hdepth : g.place id < depth + 1 :=
      hid (Table.mem_keys_iff.mpr (Option.isSome_of_mem hc))
    rw [valueBefore, if_pos hplace]
    exact ih x fun _ => by omega

/-- A constant that refers to itself or to a later one has no value. -/
theorem value?_eq_none_of_place_le (h : (apply g list).result = .ok s)
    (hc : g.constants.get? id = some c) (hx : x ∈ c.kind.references)
    (hplace : g.place id ≤ g.place x) : s.value? id = none := by
  rw [value?_eq h]
  exact Graph.valueFrom_eq_none hc hx (if_neg (by omega))

/-- **One pass evaluates what a recursion does.** If constants refer backwards, the values are those
on demand, for any depth that is not less than the number of constants. Whatever they refer to, a
constant that refers to itself or to a later one has no value, and only the overrides decide whether
there is a result. -/
theorem apply_evaluates (hg : Graph.ofWords words = .ok g) (list : List Override) :
    (g.RefersBack → ∀ s, (apply g list).result = .ok s → ∀ depth, g.constants.size ≤ depth →
      ∀ id, s.value? id = g.valueTo (g.givenTo? list) depth id) ∧
    (∀ s, (apply g list).result = .ok s → ∀ id c x, g.constants.get? id = some c →
      x ∈ c.kind.references → g.place id ≤ g.place x → s.value? id = none) ∧
    (Overrides.Proper list → g.Accepts list g.constants.keys →
      ∃ s, (apply g list).result = .ok s) := by
  refine ⟨?_, ?_, ?_⟩
  · intro hback s h depth hdepth id
    refine value?_eq_valueTo hback h depth id fun hid => ?_
    have hplace : g.place id < g.constants.keys.length := List.idxOf_lt_length_iff.mpr hid
    rw [Table.keys, List.length_map] at hplace
    exact Nat.lt_of_lt_of_le hplace hdepth
  · intro s h id c x hc hx hplace
    exact value?_eq_none_of_place_le h hc hx hplace
  · intro hproper haccepts
    exact (exists_apply_eq_ok_iff (Graph.closed_of_ofWords hg)).mpr ⟨hproper, haccepts⟩

/-- A binary with a product of constants (`7`) and a product of it and `operand` (`8`). Overrides
for the IDs 9 and 5 are taken by the constants `3` and `9`. -/
def sampleProducts (operand : Ident) : List Word :=
  [magicNumber, 0x10300, 0, 10, 0] ++ ([⟨71, [3, 1, 9]⟩, ⟨71, [9, 1, 5]⟩, ⟨21, [1, 5, 1]⟩,
    ⟨23, [2, 1, 2]⟩, ⟨50, [1, 3, 12]⟩, ⟨50, [1, 9, 1]⟩, ⟨43, [1, 4, 30]⟩, ⟨51, [2, 5, 3, 4]⟩,
    ⟨52, [1, 6, 81, 5, 1]⟩, ⟨52, [1, 7, 132, 6, 3]⟩, ⟨52, [1, 8, 132, 7, operand]⟩] :
    List Instruction).flatMap Instruction.words

set_option maxRecDepth 100000 in
/-- A product of other constants is found on demand, and one of itself has no value. -/
theorem sample_apply_evaluates :
    (∃ g s, Graph.ofWords (sampleProducts 9) = .ok g ∧ g.RefersBack ∧
      (apply g [⟨9, [3]⟩]).result = .ok s ∧ s.scalar? 7 = some (.int 5 true 26) ∧
      s.value? 8 = g.valueTo (g.givenTo? [⟨9, [3]⟩]) 7 8) ∧
    ∃ g s, Graph.ofWords (sampleProducts 8) = .ok g ∧ (apply g []).result = .ok s ∧
      s.value? 8 = none := by
  constructor
  · obtain ⟨g, hg, hfacts⟩ := exists_eq_ok_of_any (x := Graph.ofWords (sampleProducts 9))
      (p := fun g => g.RefersBack ∧ g.constants.size = 7 ∧
        (apply g [⟨9, [3]⟩]).result.toOption.any
          (fun s => s.scalar? 7 = some (.int 5 true 26))) (by decide +kernel)
    obtain ⟨hback, hsize, hrun⟩ := of_decide_eq_true hfacts
    obtain ⟨s, hs, hvalue⟩ := exists_eq_ok_of_any hrun
    exact ⟨g, s, hg, hback, hs, of_decide_eq_true hvalue,
      (apply_evaluates hg _).1 hback s hs 7 (by omega) 8⟩
  · obtain ⟨g, hg, hfacts⟩ := exists_eq_ok_of_any (x := Graph.ofWords (sampleProducts 8))
      (p := fun g => g.constants.get? 8 = some ⟨1, .operation 132 [7, 8], true⟩)
      (by decide +kernel)
    have hall := apply_evaluates hg []
    obtain ⟨s, hs⟩ := hall.2.2 ⟨by simp, by simp⟩ fun id _ bytes fault h => by
      obtain ⟨specId, -, h⟩ := Option.bind_eq_some_iff.mp h
      cases h
    exact ⟨g, s, hg, hs,
      hall.2.1 s hs 8 _ 8 (of_decide_eq_true hfacts) (by decide) (Nat.le_refl _)⟩

end Specialization

end ShaderReflect
