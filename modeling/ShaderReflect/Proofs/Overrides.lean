import ShaderReflect.Proofs.Declared.Defaults
import ShaderReflect.Proofs.Stage.Revision

/-!
# An override is another default

A constant can be given a value in two ways: by an override, or by another default in the binary.
Both give it the same value, and with it the constants, the lengths of arrays and the workgroup
sizes that depend on it. So the reflections are the same, except for the marks of what is
overridden.

* `Specialization.result_step_defaults`, `Specialization.result_apply_defaults`: the values of one
  constant, and of all.
* `Config.reflect_withDefaults`: the reflections.

Specification, 4.3. The binary with other defaults is written and read again, so two decoders have
to agree: that of the bytes of an override and that of the words of a literal. The last word of a
number may have more bits than the number; these may be filled with anything (`fill`). Constants
that share a specialization ID all get the value. What is overridden has to be a truth value, or a
number of at most 64 bits (`Config.OverridesDefaults`): wider ones have more words than an override
has bytes for.
-/

namespace ShaderReflect

/-! ## Overridden constants -/

/-- The bytes that override a constant. -/
def Graph.overrideOf (g : Graph) (os : Overrides) (id : Ident) : Option (List UInt8) :=
  (g.annotations.decorationWord? id none Decoration.specId).bind os.get?

/-- Whether the default of a constant can be every value of its type: it can for a truth value, and
for a number of at most 64 bits. -/
def Graph.hasDefault (g : Graph) (c : Constant) : Bool :=
  c.isSpecialization &&
    match c.kind, g.types.get? c.type with
    | .bool _, some .bool => true
    | .scalar _ _, some (.int width _) | .scalar _ _, some (.float width) => width ≤ 64
    | _, _ => false

theorem Graph.hasDefault_cases {g : Graph} {c : Constant} (h : g.hasDefault c = true) :
    c.isSpecialization = true ∧
    ((∃ value, c.kind = .bool value) ∧ g.types.get? c.type = some .bool ∨
    (∃ low high, c.kind = .scalar low high) ∧ ∃ type width, g.types.get? c.type = some type ∧
      type.numberWidth? = some width ∧ width.toNat ≤ 64) := by
  obtain ⟨hs, h⟩ := Bool.and_eq_true_iff.mp h
  refine ⟨hs, ?_⟩
  split at h
  · rename_i value hk ht
    exact .inl ⟨⟨value, hk⟩, ht⟩
  · rename_i low high width signed hk ht
    exact .inr ⟨⟨low, high, hk⟩, _, width, ht, rfl, of_decide_eq_true h⟩
  · rename_i low high width hk ht
    exact .inr ⟨⟨low, high, hk⟩, _, width, ht, rfl, of_decide_eq_true h⟩
  · cases h

/-- No override is empty. -/
theorem Overrides.ne_nil_of_ofList {list : List Override} {os : Overrides}
    (h : Overrides.ofList list = .ok os) {specId : Word} {bytes : List UInt8}
    (hget : os.get? specId = some bytes) : bytes ≠ [] := by
  have hall : ∀ specId bytes, os.get? specId = some bytes → bytes ≠ [] := by
    refine foldlM_invariant (P := fun os : Overrides => ∀ specId bytes,
      os.get? specId = some bytes → bytes ≠ []) h (fun _ _ h => by cases h) ?_
    intro o _ t t' ht hadd specId bytes hget
    unfold add at hadd
    split at hadd
    · cases hadd
    · rename_i hne
      split at hadd
      · rename_i os' hos
        cases hadd
        rw [Table.get?_insertNew? hos] at hget
        split at hget
        · cases hget
          exact fun h => hne (by rw [h]; rfl)
        · exact ht specId bytes hget
      · cases hadd
  exact hall specId bytes hget

namespace Specialization

variable {g : Graph} {os : Overrides} {ds : Defaults} {s t : Specialization} {id : Ident}

/-- A specialization that forgets what is overridden. -/
def unmarked (s : Specialization) : Specialization :=
  { s with specConstants := s.specConstants.map (·.mark fun _ => false) }

/-- The bytes of an override are as many as the type has, and give the value. -/
theorem evalOverride_eq_ok {c : Constant} {type : TypeDecl} {bytes : List UInt8} {v : Option Value}
    (h : evalOverride id c type bytes = .ok v) :
    type.scalarSize? = some bytes.length ∧ v = (Scalar.ofBytes? type bytes).map .scalar := by
  cases hover : isOverridable c with
  | false => simp [evalOverride, hover] at h
  | true =>
    cases hsize : type.scalarSize? with
    | none => simp [evalOverride, hover, hsize] at h
    | some size =>
      by_cases hlength : bytes.length = size
      · simp only [evalOverride, hover, hsize, hlength, Bool.not_true, Bool.false_eq_true, if_false,
          ne_eq, not_true_eq_false, pure_eq_ok, Except.ok.injEq] at h
        exact ⟨by rw [hlength], h.symm⟩
      · simp [evalOverride, hover, hsize, hlength] at h

/-- **A default that is written for an override** has its value. -/
theorem eval_default {c : Constant} {type : TypeDecl} {bytes : List UInt8} {v : Option Value}
    (hc : g.hasDefault c = true) (ht : g.types.get? c.type = some type)
    (hds : ds.bytes? id = some bytes) (hne : bytes ≠ [])
    (h : evalOverride id c type bytes = .ok v) :
    (s.eval type (ds.constant id c).kind).2 = v := by
  obtain ⟨hsize, rfl⟩ := evalOverride_eq_ok h
  obtain ⟨hspec, ⟨⟨value, hk⟩, hbool⟩ | ⟨⟨low, high, hk⟩, type', width, htype, hwidth, hw⟩⟩ :=
    Graph.hasDefault_cases hc
  · rw [ht, Option.some.injEq] at hbool
    subst hbool
    have hlength : bytes.length = 4 := (Option.some.inj hsize).symm
    simp only [Defaults.constant, hds, hk, hspec, eval, Scalar.ofBytes?, if_pos hlength,
      Option.map_some]
  · rw [ht, Option.some.injEq] at htype
    subst htype
    have hlength : bytes.length = TypeDecl.bytesOfBits width := by
      cases type with
      | int w signed =>
        cases hwidth
        exact (Option.some.inj hsize).symm
      | float w =>
        cases hwidth
        exact (Option.some.inj hsize).symm
      | _ => cases hwidth
    simp only [Defaults.constant, hds, hk, hspec, eval,
      Scalar.ofWords?_literal hwidth hw hlength hne]

/-- The value of a constant, with a mark if it is overridden. -/
theorem result_step (g : Graph) (os : Overrides) (s : Specialization) (id : Ident) :
    (step g os s id).result = (do
      let c ← (liftM (g.constant id) : Except Stop Constant)
      let type ← (liftM (g.type c.type) : Except Stop TypeDecl)
      let specId := g.annotations.decorationWord? id none Decoration.specId
      match g.overrideOf os id with
      | some bytes =>
        let v ← (liftM (evalOverride id c type bytes) : Except Stop (Option Value))
        return s.record g id c specId v true
      | none => return s.record g id c specId (s.eval type c.kind).2 false) := by
  unfold step
  simp only [Traced.result_bind, Traced.result_liftM_fault]
  refine congrArg _ (funext fun c => congrArg _ (funext fun type => ?_))
  have hover : (g.annotations.decorationWord? id none Decoration.specId).bind os.get? =
      g.overrideOf os id := rfl
  rw [hover]
  cases g.overrideOf os id with
  | some bytes =>
    simp only [Traced.result_bind, Traced.result_liftM_fault, Traced.result_pure, pure_eq_ok]
  | none =>
    simp only [Traced.result_bind, Traced.result_forM_note, Traced.result_pure, ok_bind,
      pure_eq_ok]

theorem unmarked_record (ds : Defaults) {c c' : Constant} (htype : c'.type = c.type)
    (specId : Option Word) (v : Option Value) (isOverridden : Bool) :
    s.unmarked.record (g.withDefaults ds) id c' specId v false =
      (s.record g id c specId v isOverridden).unmarked := by
  cases specId with
  | none => rfl
  | some specId =>
    simp only [record, unmarked, List.map_append, List.map_cons, List.map_nil, htype]
    rfl

/-- **One constant.** Without overrides but with defaults that are written for them, a constant has
the value that it has with them. -/
theorem result_step_defaults (hds : ∀ id, ds.bytes? id = g.overrideOf os id)
    (hne : ∀ id bytes, g.overrideOf os id = some bytes → bytes ≠ [])
    (hall : ∀ id c, g.constants.get? id = some c → (g.overrideOf os id).isSome →
      g.hasDefault c = true) (h : (step g os s id).result = .ok t) :
    (step (g.withDefaults ds) .empty s.unmarked id).result = .ok t.unmarked := by
  rw [result_step] at h ⊢
  obtain ⟨c, hc, h⟩ := bind_eq_ok_iff.mp h
  obtain ⟨type, ht, h⟩ := bind_eq_ok_iff.mp h
  have hget := Graph.constant_eq_ok_iff.mp (liftM_fault_eq_ok_iff.mp hc)
  have htype := Graph.type_eq_ok_iff.mp (liftM_fault_eq_ok_iff.mp ht)
  have hc' : (g.withDefaults ds).constant id = .ok (ds.constant id c) := by
    rw [Graph.constant_eq_ok_iff, Graph.withDefaults, Table.get?_mapWithKey, hget, Option.map_some]
  have ht' : (g.withDefaults ds).type (ds.constant id c).type = .ok type := by
    rw [Graph.type_eq_ok_iff, Defaults.type_constant]
    exact htype
  have hnone : (g.withDefaults ds).overrideOf .empty id = none := by
    unfold Graph.overrideOf
    cases (g.withDefaults ds).annotations.decorationWord? id none Decoration.specId <;> rfl
  rw [hc', liftM_fault_ok, ok_bind, ht', liftM_fault_ok, ok_bind, hnone]
  have heval : ∀ v, (s.eval type (ds.constant id c).kind).2 = v →
      ∀ b, t = s.record g id c (g.annotations.decorationWord? id none Decoration.specId) v b →
      (pure (s.unmarked.record (g.withDefaults ds) id (ds.constant id c)
        ((g.withDefaults ds).annotations.decorationWord? id none Decoration.specId)
        (s.unmarked.eval type (ds.constant id c).kind).2 false) : Except Stop Specialization) =
        .ok t.unmarked := by
    rintro _ rfl b rfl
    rw [← unmarked_record ds (Defaults.type_constant ds id c)]
    rfl
  cases hover : g.overrideOf os id with
  | none =>
    rw [hover] at h
    cases h
    have hsame : ds.constant id c = c := by
      unfold Defaults.constant
      rw [hds, hover]
    exact heval _ (by rw [hsame]) _ rfl
  | some bytes =>
    rw [hover] at h
    obtain ⟨v, hv, h⟩ := bind_eq_ok_iff.mp h
    cases h
    exact heval v (eval_default (hall id c hget (by rw [hover]; rfl)) htype (by rw [hds, hover])
      (hne id bytes hover) (liftM_fault_eq_ok_iff.mp hv)) _ rfl

theorem foldlM_step_defaults {ids : List Ident} (hds : ∀ id, ds.bytes? id = g.overrideOf os id)
    (hne : ∀ id bytes, g.overrideOf os id = some bytes → bytes ≠ [])
    (hall : ∀ id c, g.constants.get? id = some c → (g.overrideOf os id).isSome →
      g.hasDefault c = true)
    (h : ids.foldlM (fun s id => (step g os s id).result) s = .ok t) :
    ids.foldlM (fun s id => (step (g.withDefaults ds) .empty s id).result) s.unmarked =
      .ok t.unmarked := by
  induction ids generalizing s with
  | nil =>
    cases h
    rfl
  | cons id ids ih =>
    obtain ⟨s', hs', h⟩ := bind_eq_ok_iff.mp h
    rw [List.foldlM_cons, result_step_defaults hds hne hall hs', ok_bind]
    exact ih h

theorem result_apply (g : Graph) (overrides : List Override) :
    (apply g overrides).result = (do
      let os ← (liftM (Overrides.ofList overrides) : Except Stop Overrides)
      g.constants.keys.foldlM (fun s id => (step g os s id).result) {}) := by
  unfold apply
  simp only [Traced.result_bind, Traced.result_liftM_fault]
  refine congrArg _ (funext fun os => ?_)
  rw [Traced.result_forM fun _ _ => rfl, ok_bind, Traced.result_foldlM]
  simp only [Traced.result_note, Traced.result_pure, ok_bind]
  cases g.constants.keys.foldlM (fun s id => (step g os s id).result) {} <;> rfl

/-- **All constants.** Without overrides but with defaults that are written for them, all constants
have the values that they have with them. -/
theorem result_apply_defaults {overrides : List Override}
    (hos : Overrides.ofList overrides = .ok os) (hds : ∀ id, ds.bytes? id = g.overrideOf os id)
    (hall : ∀ id c, g.constants.get? id = some c → (g.overrideOf os id).isSome →
      g.hasDefault c = true) (h : (apply g overrides).result = .ok t) :
    (apply (g.withDefaults ds) []).result = .ok t.unmarked := by
  have hne : ∀ id bytes, g.overrideOf os id = some bytes → bytes ≠ [] := fun id bytes hbytes => by
    obtain ⟨specId, -, hget⟩ := Option.bind_eq_some_iff.mp hbytes
    exact Overrides.ne_nil_of_ofList hos hget
  have hkeys : (g.withDefaults ds).constants.keys = g.constants.keys := Table.keys_mapWithKey _ _
  rw [result_apply, hos, liftM_fault_ok, ok_bind] at h
  rw [result_apply, hkeys]
  exact foldlM_step_defaults hds hne hall h

end Specialization

/-! ## Reflections -/

/-- The lengths of arrays come from the same constants and, where these cannot be overridden, from
the same words. -/
theorem Graph.sameLengths_withDefaults (g : Graph) (ds : Defaults) :
    g.SameLengths (g.constants.mapWithKey ds.constant) where
  keys := Table.keys_mapWithKey _ _
  lengthSource id := by
    unfold lengthSource Graph.constant
    simp only [Table.get?_mapWithKey]
    cases g.constants.get? id with
    | none => rfl
    | some k =>
      simp only [Option.map_some, ok_bind]
      rcases ds.constant_cases id k with h | ⟨_, _, -, hk, hs, h⟩ | ⟨_, _, _, -, hk, hs, h⟩
      · rw [h]
      · obtain ⟨type, kind, isSpecialization⟩ := k
        cases hk
        cases hs
        rw [h]
      · obtain ⟨type, kind, isSpecialization⟩ := k
        cases hk
        cases hs
        rw [h]

namespace Config

variable {c : Config} {r : Reflection} {s : Source} {words : List Word}

/-- The graph of a binary, with the overrides by their IDs. -/
def overriding (c : Config) : Except Fault (Graph × Overrides) := do
  let g ← Graph.ofWords (← c.words)
  return (g, ← Overrides.ofList c.overrides)

/-- The defaults that are written for overrides: those constants are to have them that the
overrides are for. -/
def defaults (c : Config) (fill : Ident → UInt8) : Defaults where
  bytes? id := c.overriding.toOption.bind fun x => x.1.overrideOf x.2 id
  fill

/-- The reflection without overrides of the binary with defaults that are written for them. -/
def withDefaults (c : Config) (fill : Ident → UInt8) : Config :=
  { c with binary := c.binary.map (c.defaults fill).binary, overrides := [] }

/-- The defaults of overridden constants can be all values of their types. -/
def OverridesDefaults (c : Config) : Prop :=
  ∀ g os, c.overriding = .ok (g, os) → ∀ id k, g.constants.get? id = some k →
    (g.overrideOf os id).isSome → g.hasDefault k = true

theorem words_withDefaults {fill : Ident → UInt8} (h : c.words = .ok words) :
    (c.withDefaults fill).words = .ok ((c.defaults fill).binary words) := by
  obtain ⟨hbinary, hne⟩ := words_eq_ok_iff.mp h
  refine words_eq_ok_iff.mpr ⟨?_, Instruction.rewriteBinary_ne_nil hne⟩
  simp only [withDefaults, hbinary, Option.map_some]

/-- The source differs in the defaults, which do not matter any more, and in the marks. -/
theorem source_withDefaults {fill : Ident → UInt8} (h : c.OverridesDefaults)
    (hwords : c.words = .ok words) (hs : c.source words = .ok s) :
    (c.withDefaults fill).source ((c.defaults fill).binary words) =
      .ok (s.revise (fun _ => false) (s.graph.constants.mapWithKey (c.defaults fill).constant)
        s.graph.annotations.entryPoints) := by
  obtain ⟨g, σ, hg, hσ, rfl⟩ := source_eq_ok_iff.mp hs
  have hlist := hσ
  rw [Specialization.result_apply] at hlist
  obtain ⟨os, hos, -⟩ := bind_eq_ok_iff.mp hlist
  have hos := liftM_fault_eq_ok_iff.mp hos
  have hover : c.overriding = .ok (g, os) := by
    rw [overriding, hwords, ok_bind, hg, ok_bind, hos]
    rfl
  have hds : ∀ id, (c.defaults fill).bytes? id = g.overrideOf os id := fun id => by
    simp only [defaults, hover]
    rfl
  exact source_eq_ok_iff.mpr ⟨g.withDefaults (c.defaults fill), σ.unmarked,
    Graph.ofWords_defaults hg, Specialization.result_apply_defaults hos hds (h g os hover) hσ, rfl⟩

/-- **An override is another default.** If a binary can be reflected with overrides, it can without
them once its defaults are those values, and all that differs are the marks of what is
overridden. -/
theorem reflect_withDefaults (fill : Ident → UInt8) (h : c.OverridesDefaults)
    (hr : c.reflect.result = .ok r) : (c.withDefaults fill).reflect.result =
      .ok { r with entryPoints := r.entryPoints.map (·.mark fun _ => false) } := by
  rw [result_reflect] at hr
  obtain ⟨words, hwords, hr⟩ := bind_eq_ok_iff.mp hr
  obtain ⟨s, hs, hr⟩ := bind_eq_ok_iff.mp hr
  obtain ⟨p, hp, hr⟩ := bind_eq_ok_iff.mp hr
  cases hr
  have hwords := liftM_fault_eq_ok_iff.mp hwords
  have hrun := addEntryPoints_revise (c := c) (f := fun _ => false)
    (s.graph.sameLengths_withDefaults (c.defaults fill)) s.graph.annotations.entryPoints
    s.graph.annotations.entryPoints {}
  rw [result_entryPoints] at hp
  rw [hp, map_ok] at hrun
  rw [result_reflect, words_withDefaults hwords, liftM_fault_ok, ok_bind,
    source_withDefaults h hwords hs, ok_bind, result_entryPoints]
  have hp' : s.graph.annotations.entryPoints.foldlM (fun p e => ((c.withDefaults fill).addEntryPoint
      (s.revise (fun _ => false) (s.graph.constants.mapWithKey (c.defaults fill).constant)
        s.graph.annotations.entryPoints) p e).result) {} = .ok (p.mark fun _ => false) := hrun
  exact bind_eq_ok_iff.mpr ⟨_, hp', rfl⟩

/-- The reflection of the small binary with overrides for both constants. -/
def sampleOverriding : Config :=
  { sampleConfig 1 with overrides := [⟨0, [0, 0, 0, 0]⟩, ⟨1, [7, 0, 0, 0]⟩] }

set_option maxRecDepth 100000 in
/-- In the small binary, both constants have defaults that can be any value. -/
theorem sample_reflect_withDefaults : sampleOverriding.OverridesDefaults ∧
    ∃ r, sampleOverriding.reflect.result = .ok r ∧
      (r.entryPoints.all fun e => e.specConstants.map (·.isOverridden) = [true, true]) = true ∧
      (sampleOverriding.withDefaults fun _ => 0).reflect.result =
        .ok { r with entryPoints := r.entryPoints.map (·.mark fun _ => false) } := by
  have hdefaults : sampleOverriding.OverridesDefaults := by
    intro g os hover id k hk _
    obtain ⟨x, hx, hall⟩ := exists_eq_ok_of_any (x := sampleOverriding.overriding)
      (p := fun x => x.1.constants.entries.all fun e => x.1.hasDefault e.2) (by decide +kernel)
    rw [hover] at hx
    cases hx
    exact List.all_eq_true.mp hall (id, k) (Table.get?_eq_some_iff.mp hk)
  obtain ⟨r, hr, hmarks⟩ := exists_eq_ok_of_any (x := sampleOverriding.reflect.result)
    (p := fun r => r.entryPoints.all fun e => e.specConstants.map (·.isOverridden) = [true, true])
    (by decide +kernel)
  exact ⟨hdefaults, r, hr, hmarks, reflect_withDefaults _ hdefaults hr⟩

end Config

end ShaderReflect
