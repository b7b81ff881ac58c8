import Mathlib.Algebra.Order.Floor.Div
import ShaderReflect.Proofs.Closed
import ShaderReflect.Proofs.Overrides

/-!
# Which overrides are accepted

Overrides are checked twice. First the list is looked at alone: each override needs bytes, and an ID
that no earlier one has. Then the constants are looked at in the order of their declarations: one
that is given bytes has to be a specialization constant with a scalar default, its type has to be a
scalar type, and the bytes have to be as many as such a scalar takes. The fault is that of the first
override or constant that something is wrong with, and nothing else can fail.

* `Overrides.ofList_eq_ok_iff`, `Overrides.ofList_eq_error_iff`: a list alone.
* `Specialization.step_eq_error_iff`: one constant; what is wrong with it does not depend on those
  before it.
* `Specialization.exists_apply_eq_ok_iff`, `Specialization.result_apply_eq_error_iff`: all of them.
* `Specialization.result_apply_congr`: of a list, only the bytes that constants are given count.
* `Specialization.apply_accepts`: all of this, and that neither the order of the list counts nor
  what it gives to IDs that no constant has.

Specification, 4.3 and 7. Look-ups of constants and types cannot fail in the graph of a binary. The
order in which overrides for absent IDs are noted is open (`Visits`); it is part of the events, and
of none of these results.
-/

namespace ShaderReflect

/-! ## Lists of overrides -/

namespace Overrides

variable {list list' before after : List Override} {o : Override} {os : Overrides} {fault : Fault}
  {specId : Word} {bytes : List UInt8}

/-- Every override of a list has bytes, and no two are for the same ID. -/
structure Proper (list : List Override) : Prop where
  nonempty : ∀ o ∈ list, o.bytes ≠ []
  distinct : (list.map (·.specId)).Nodup

/-- What is wrong with an override that comes after others. -/
inductive WrongAfter (before : List Override) (o : Override) : Fault → Prop
  | empty (h : o.bytes = []) : WrongAfter before o (.outOfRange (.emptyOverride o.specId))
  | repeated (h : o.bytes ≠ []) (hid : o.specId ∈ before.map (·.specId)) :
    WrongAfter before o (.invalidArgument (.repeatedOverride o.specId))

/-- What is wrong with the first override of a list that something is wrong with. -/
def FirstWrong (list : List Override) (fault : Fault) : Prop :=
  ∃ before o after, list = before ++ o :: after ∧ Proper before ∧ WrongAfter before o fault

/-- The bytes that a list gives to an ID. -/
def given? (list : List Override) (specId : Word) : Option (List UInt8) :=
  (list.map fun o => (o.specId, o.bytes)).lookup specId

theorem proper_concat_iff : Proper (list ++ [o]) ↔
    Proper list ∧ o.bytes ≠ [] ∧ o.specId ∉ list.map (·.specId) := by
  constructor
  · intro h
    have hdistinct := h.distinct
    simp only [List.map_append, List.map_cons, List.map_nil, List.nodup_append] at hdistinct
    refine ⟨⟨fun o' ho' => h.nonempty o' (List.mem_append_left _ ho'), hdistinct.1⟩,
      h.nonempty o (by simp), fun hid => ?_⟩
    exact hdistinct.2.2 _ hid _ (by simp) rfl
  · rintro ⟨h, hbytes, hid⟩
    refine ⟨?_, ?_⟩
    · intro o' ho'
      rcases List.mem_append.mp ho' with ho' | ho'
      · exact h.nonempty o' ho'
      · rw [List.mem_singleton.mp ho']
        exact hbytes
    · simp only [List.map_append, List.map_cons, List.map_nil, List.nodup_append]
      refine ⟨h.distinct, by simp, ?_⟩
      intro id hmem id' hid'
      rw [List.mem_singleton.mp hid']
      exact fun heq => hid (heq ▸ hmem)

theorem Proper.perm (h : Proper list) (hperm : list.Perm list') : Proper list' where
  nonempty o ho := h.nonempty o (hperm.mem_iff.mpr ho)
  distinct := (hperm.map _).nodup_iff.mp h.distinct

/-- One more override is one with bytes, for an ID that the others do not have. -/
theorem proper_insert_iff : Proper (before ++ o :: after) ↔
      o.bytes ≠ [] ∧ o.specId ∉ (before ++ after).map (·.specId) ∧ Proper (before ++ after) := by
  have hmiddle : (before ++ o :: after).Perm (before ++ after ++ [o]) :=
    List.perm_middle.trans (List.perm_append_singleton o (before ++ after)).symm
  have hperm : Proper (before ++ o :: after) ↔ Proper (before ++ after ++ [o]) :=
    ⟨fun h => h.perm hmiddle, fun h => h.perm hmiddle.symm⟩
  rw [hperm, proper_concat_iff]
  tauto

theorem Proper.keys_nodup (h : Proper list) :
    ((list.map fun o => (o.specId, o.bytes)).map Prod.fst).Nodup := by
  rw [List.map_map]
  exact h.distinct

/-- An override is what a proper list gives. -/
theorem Proper.given?_eq_some_iff (h : Proper list) :
    given? list specId = some bytes ↔ ∃ o ∈ list, o.specId = specId ∧ o.bytes = bytes := by
  have hentry := Table.get?_eq_some_iff (t := ⟨_, h.keys_nodup⟩) (k := specId) (a := bytes)
  simpa [Table.get?, given?] using hentry

theorem given?_perm (h : Proper list) (hperm : list.Perm list') :
    given? list specId = given? list' specId := by
  refine Option.ext fun bytes => ?_
  rw [h.given?_eq_some_iff, (h.perm hperm).given?_eq_some_iff]
  simp only [hperm.mem_iff]

/-- An override counts for its own ID alone. -/
theorem given?_insert (hne : specId ≠ o.specId) :
    given? (before ++ o :: after) specId = given? (before ++ after) specId := by
  have hid : (specId == o.specId) = false := by simpa using hne
  simp [given?, List.lookup_append, List.lookup_cons, hid]

theorem ofList_concat (list : List Override) (o : Override) :
    ofList (list ++ [o]) = ofList list >>= fun os => os.add o := by
  rw [ofList, List.foldlM_append]
  exact bind_congr fun os => by rw [List.foldlM_cons]; exact bind_pure _

theorem add_eq_ok_iff {os' : Overrides} :
    os.add o = .ok os' ↔ o.bytes ≠ [] ∧ os.insertNew? o.specId o.bytes = some os' := by
  unfold add
  by_cases hempty : o.bytes = []
  · simp [hempty]
  · cases hnew : os.insertNew? o.specId o.bytes <;> simp [hempty]

theorem add_eq_error_iff : os.add o = .error fault ↔
    o.bytes = [] ∧ fault = .outOfRange (.emptyOverride o.specId) ∨
    o.bytes ≠ [] ∧ os.contains o.specId = true ∧
      fault = .invalidArgument (.repeatedOverride o.specId) := by
  unfold add
  rw [eq_comm (a := fault), eq_comm (a := fault)]
  by_cases hempty : o.bytes = []
  · simp [hempty]
  · cases hnew : os.insertNew? o.specId o.bytes with
    | none => simp [hempty, Table.insertNew?_eq_none_iff.mp hnew]
    | some os' =>
      have hfree : os.contains o.specId = false := by
        rw [Table.contains, (Table.entries_insertNew? hnew).2, Option.isSome_none]
      simp [hempty, hfree]

/-- **A list is a table of overrides** exactly if it is proper. -/
theorem ofList_eq_ok_iff : ofList list = .ok os ↔
    Proper list ∧ os.entries = list.map fun o => (o.specId, o.bytes) := by
  induction list using List.reverseRecOn generalizing os with
  | nil =>
    constructor
    · intro h
      cases h
      exact ⟨⟨by simp, by simp⟩, rfl⟩
    · rintro ⟨-, h⟩
      cases os
      cases h
      rfl
  | append_singleton list o ih =>
    rw [ofList_concat, bind_eq_ok_iff, proper_concat_iff, List.map_append]
    constructor
    · rintro ⟨os₀, h₀, hadd⟩
      obtain ⟨hproper, hentries⟩ := ih.mp h₀
      obtain ⟨hbytes, hnew⟩ := add_eq_ok_iff.mp hadd
      obtain ⟨hos, hfree⟩ := Table.entries_insertNew? hnew
      have hid := Table.lookup_eq_none_iff.mp hfree
      rw [hentries, List.map_map] at hid
      exact ⟨⟨hproper, hbytes, hid⟩, by rw [hos, hentries]; rfl⟩
    · rintro ⟨⟨hproper, hbytes, hid⟩, hos⟩
      refine ⟨⟨_, hproper.keys_nodup⟩, ih.mpr ⟨hproper, rfl⟩, add_eq_ok_iff.mpr ⟨hbytes, ?_⟩⟩
      cases hnew : Table.insertNew? ⟨_, hproper.keys_nodup⟩ o.specId o.bytes with
      | none =>
        have htaken := Table.mem_keys_iff.mpr (Table.insertNew?_eq_none_iff.mp hnew)
        rw [Table.keys, List.map_map] at htaken
        exact absurd htaken hid
      | some os' =>
        have hentries := (Table.entries_insertNew? hnew).1
        cases os
        cases os'
        cases hos.trans hentries.symm
        rfl

theorem get?_of_ofList (h : ofList list = .ok os) (specId : Word) :
    os.get? specId = given? list specId := by
  rw [Table.get?, (ofList_eq_ok_iff.mp h).2, given?]

theorem exists_ofList_iff : (∃ os, ofList list = .ok os) ↔ Proper list :=
  ⟨fun ⟨_, h⟩ => (ofList_eq_ok_iff.mp h).1,
    fun h => ⟨⟨_, h.keys_nodup⟩, ofList_eq_ok_iff.mpr ⟨h, rfl⟩⟩⟩

theorem add_eq_error_iff_wrongAfter (h : ofList before = .ok os) :
    os.add o = .error fault ↔ WrongAfter before o fault := by
  have htaken : os.contains o.specId = true ↔ o.specId ∈ before.map (·.specId) := by
    rw [← Table.mem_keys_iff, Table.keys, (ofList_eq_ok_iff.mp h).2, List.map_map]
    rfl
  rw [add_eq_error_iff, htaken]
  constructor
  · rintro (⟨hempty, rfl⟩ | ⟨hbytes, hid, rfl⟩)
    · exact .empty hempty
    · exact .repeated hbytes hid
  · rintro (hempty | ⟨hbytes, hid⟩)
    · exact .inl ⟨hempty, rfl⟩
    · exact .inr ⟨hbytes, hid, rfl⟩

/-- **A list is refused** for the first override that something is wrong with. -/
theorem ofList_eq_error_iff : ofList list = .error fault ↔ FirstWrong list fault := by
  rw [ofList, foldlM_eq_error_iff]
  constructor
  · rintro ⟨before, o, after, os, rfl, hbefore, hadd⟩
    exact ⟨before, o, after, rfl, (ofList_eq_ok_iff.mp hbefore).1,
      (add_eq_error_iff_wrongAfter hbefore).mp hadd⟩
  · rintro ⟨before, o, after, rfl, hproper, hwrong⟩
    obtain ⟨os, hbefore⟩ := exists_ofList_iff.mpr hproper
    exact ⟨before, o, after, os, rfl, hbefore, (add_eq_error_iff_wrongAfter hbefore).mpr hwrong⟩

end Overrides

/-! ## Constants -/

/-- A constant is a specialization constant whose default is a truth value or a number. -/
def Constant.IsScalarDefault (c : Constant) : Prop :=
  c.isSpecialization = true ∧
    ((∃ value, c.kind = .bool value) ∨ ∃ low high, c.kind = .scalar low high)

/-- The number of bytes that a scalar of a type takes. -/
inductive TypeDecl.Takes : TypeDecl → Nat → Prop
  | bool : Takes .bool 4
  | int (width : Word) (signed : Bool) : Takes (.int width signed) (width.toNat ⌈/⌉ 8)
  | float (width : Word) : Takes (.float width) (width.toNat ⌈/⌉ 8)

namespace Graph

/-- The ID by which a constant is overridden. -/
def specIdOf? (g : Graph) (id : Ident) : Option Word :=
  g.annotations.decorationWord? id none Decoration.specId

/-- The bytes that a list of overrides gives to a constant. -/
def givenTo? (g : Graph) (list : List Override) (id : Ident) : Option (List UInt8) :=
  (g.specIdOf? id).bind (Overrides.given? list)

/-- Why a constant does not take bytes. -/
inductive Refuses (g : Graph) (id : Ident) (bytes : List UInt8) : Fault → Prop
  | default {c : Constant} (hc : g.constants.get? id = some c) (h : ¬ c.IsScalarDefault) :
    g.Refuses id bytes (.specialization (.notScalarDefault id))
  | type {c : Constant} {type : TypeDecl} (hc : g.constants.get? id = some c)
    (hdefault : c.IsScalarDefault) (ht : g.types.get? c.type = some type)
    (h : ∀ size, ¬ type.Takes size) : g.Refuses id bytes (.corrupted (.notScalar id))
  | size {c : Constant} {type : TypeDecl} {size : Nat} (hc : g.constants.get? id = some c)
    (hdefault : c.IsScalarDefault) (ht : g.types.get? c.type = some type) (hsize : type.Takes size)
    (h : bytes.length ≠ size) :
    g.Refuses id bytes (.invalidArgument (.overrideSize id bytes.length size))

/-- No constant refuses the bytes that it is given. -/
def Accepts (g : Graph) (list : List Override) (ids : List Ident) : Prop :=
  ∀ id ∈ ids, ∀ bytes fault, g.givenTo? list id = some bytes → ¬ g.Refuses id bytes fault

/-- Why the first constant that does not take the bytes it is given does not take them. -/
def FirstRefuses (g : Graph) (list : List Override) (fault : Fault) : Prop :=
  ∃ before id after bytes, g.constants.keys = before ++ id :: after ∧ g.Accepts list before ∧
    g.givenTo? list id = some bytes ∧ g.Refuses id bytes fault

end Graph

theorem TypeDecl.takes_iff {type : TypeDecl} {size : Nat} :
    type.Takes size ↔ type.scalarSize? = some size := by
  constructor
  · rintro (_ | _ | _) <;> rfl
  · intro h
    cases type with
    | bool =>
      cases h
      exact .bool
    | int width signed =>
      cases h
      exact .int width signed
    | float width =>
      cases h
      exact .float width
    | _ => cases h

namespace Specialization

variable {g : Graph} {list list' before after : List Override} {o : Override} {os os' : Overrides}
  {s t : Specialization} {id : Ident} {bytes : List UInt8} {fault : Fault} {stop : Stop}
  {words : List Word}

theorem isOverridable_iff {c : Constant} : isOverridable c = true ↔ c.IsScalarDefault := by
  obtain ⟨type, kind, isSpecialization⟩ := c
  cases kind <;> simp [isOverridable, Constant.IsScalarDefault]

theorem overrideOf_eq_givenTo? (h : Overrides.ofList list = .ok os) (id : Ident) :
    g.overrideOf os id = g.givenTo? list id :=
  Option.bind_congr fun specId _ => Overrides.get?_of_ofList h specId

theorem evalOverride_eq_error_iff {c : Constant} {type : TypeDecl}
    (hc : g.constants.get? id = some c) (ht : g.types.get? c.type = some type) :
    evalOverride id c type bytes = .error fault ↔ g.Refuses id bytes fault := by
  constructor
  · intro h
    unfold evalOverride at h
    by_cases hover : isOverridable c = true
    · have hdefault := isOverridable_iff.mp hover
      cases hsize : type.scalarSize? with
      | none =>
        simp only [hover, hsize, Bool.not_true, Bool.false_eq_true, if_false] at h
        cases h
        refine .type hc hdefault ht fun size htakes => ?_
        simp [TypeDecl.takes_iff.mp htakes] at hsize
      | some size =>
        by_cases hlength : bytes.length = size
        · simp [hover, hsize, hlength] at h
        · simp only [hover, hsize, hlength, Bool.not_true, Bool.false_eq_true, if_false, ne_eq,
            not_false_eq_true, if_true] at h
          cases h
          exact .size hc hdefault ht (TypeDecl.takes_iff.mpr hsize) hlength
    · rw [Bool.not_eq_true] at hover
      simp only [hover, Bool.not_false, if_true] at h
      cases h
      exact .default hc fun hdefault => by simp [isOverridable_iff.mpr hdefault] at hover
  · intro h
    unfold evalOverride
    cases h with
    | default hc' h =>
      cases hc.symm.trans hc'
      simp [Bool.eq_false_iff.mpr (mt isOverridable_iff.mp h)]
    | type hc' hdefault ht' h =>
      cases hc.symm.trans hc'
      cases ht.symm.trans ht'
      have hsize : type.scalarSize? = none := by
        rw [Option.eq_none_iff_forall_ne_some]
        exact fun size hsize => h size (TypeDecl.takes_iff.mpr hsize)
      simp [isOverridable_iff.mpr hdefault, hsize]
    | size hc' hdefault ht' hsize h =>
      cases hc.symm.trans hc'
      cases ht.symm.trans ht'
      simp [isOverridable_iff.mpr hdefault, TypeDecl.takes_iff.mp hsize, h]

/-- **One constant** fails exactly if it does not take the bytes that it is given. -/
theorem step_eq_error_iff (hg : g.Closed) (hid : id ∈ g.constants.keys) :
    (step g os s id).result = .error stop ↔ ∃ bytes fault, g.overrideOf os id = some bytes ∧
      g.Refuses id bytes fault ∧ stop = .fault fault := by
  obtain ⟨c, hc⟩ := Option.isSome_iff_exists.mp (Table.mem_keys_iff.mp hid)
  obtain ⟨type, ht⟩ :=
    Option.isSome_iff_exists.mp (Table.mem_keys_iff.mp (hg.constantTypes id c hc))
  rw [result_step, Graph.constant_eq_ok_iff.mpr hc, liftM_fault_ok, ok_bind,
    Graph.type_eq_ok_iff.mpr ht, liftM_fault_ok, ok_bind]
  cases hover : g.overrideOf os id with
  | none => simp
  | some bytes =>
    simp only [← evalOverride_eq_error_iff hc ht, Option.some.injEq]
    cases hrun : evalOverride id c type bytes <;> simp [hrun, eq_comm]

theorem result_step_congr (h : g.overrideOf os id = g.overrideOf os' id) :
    (step g os s id).result = (step g os' s id).result := by
  rw [result_step, result_step, h]

/-! ## All constants -/

/-- Constants are evaluated exactly if none of them refuses its bytes. -/
theorem exists_foldlM_step_iff (hg : g.Closed) (hos : Overrides.ofList list = .ok os)
    {ids : List Ident} (hids : ∀ id ∈ ids, id ∈ g.constants.keys) :
    (∃ t, ids.foldlM (fun s id => (step g os s id).result) s = .ok t) ↔ g.Accepts list ids := by
  constructor
  · rintro ⟨t, ht⟩ id hid bytes fault hgiven hrefuses
    obtain ⟨s', t', hstep⟩ := exists_step_of_foldlM ht hid
    have herror := (step_eq_error_iff (s := s') hg (hids id hid)).mpr
      ⟨bytes, fault, by rw [overrideOf_eq_givenTo? hos, hgiven], hrefuses, rfl⟩
    rw [hstep] at herror
    cases herror
  · intro h
    refine exists_foldlM_eq_ok fun id hid t stop herror => ?_
    obtain ⟨bytes, fault, hover, hrefuses, -⟩ := (step_eq_error_iff hg (hids id hid)).mp herror
    exact h id hid bytes fault (by rw [← overrideOf_eq_givenTo? hos, hover]) hrefuses

/-- **Overrides are accepted** exactly if the list is proper and no constant refuses its bytes. -/
theorem exists_apply_eq_ok_iff (hg : g.Closed) : (∃ s, (apply g list).result = .ok s) ↔
    Overrides.Proper list ∧ g.Accepts list g.constants.keys := by
  rw [result_apply, ← Overrides.exists_ofList_iff]
  cases hos : Overrides.ofList list with
  | error fault => simp
  | ok os => simp [← exists_foldlM_step_iff (s := {}) hg hos fun _ h => h]

/-- **Overrides are refused** for the first override that something is wrong with, or else for the
first constant that does not take its bytes. -/
theorem result_apply_eq_error_iff (hg : g.Closed) : (apply g list).result = .error stop ↔
    ∃ fault, stop = .fault fault ∧ (Overrides.FirstWrong list fault ∨
      Overrides.Proper list ∧ g.FirstRefuses list fault) := by
  rw [result_apply, ← Overrides.exists_ofList_iff]
  simp only [← Overrides.ofList_eq_error_iff]
  cases hos : Overrides.ofList list with
  | error fault => simp [eq_comm]
  | ok os =>
    have hkeys {before after : List Ident} {id : Ident}
        (h : g.constants.keys = before ++ id :: after) :
        (∀ x ∈ before, x ∈ g.constants.keys) ∧ id ∈ g.constants.keys := by
      rw [h]
      exact ⟨fun x hx => List.mem_append_left _ hx, by simp⟩
    simp only [liftM_fault_ok, ok_bind, foldlM_eq_error_iff, reduceCtorEq, false_or,
      Except.ok.injEq, exists_eq', true_and, Graph.FirstRefuses]
    constructor
    · rintro ⟨before, id, after, t, hsplit, ht, hstep⟩
      obtain ⟨bytes, fault, hover, hrefuses, rfl⟩ :=
        (step_eq_error_iff hg (hkeys hsplit).2).mp hstep
      exact ⟨fault, rfl, before, id, after, bytes, hsplit,
        (exists_foldlM_step_iff hg hos (hkeys hsplit).1).mp ⟨t, ht⟩,
        by rw [← overrideOf_eq_givenTo? hos, hover], hrefuses⟩
    · rintro ⟨fault, rfl, before, id, after, bytes, hsplit, haccepts, hgiven, hrefuses⟩
      obtain ⟨t, ht⟩ := (exists_foldlM_step_iff (s := {}) hg hos (hkeys hsplit).1).mpr haccepts
      exact ⟨before, id, after, t, hsplit, ht, (step_eq_error_iff hg (hkeys hsplit).2).mpr
        ⟨bytes, fault, by rw [overrideOf_eq_givenTo? hos, hgiven], hrefuses, rfl⟩⟩

/-- **Of a proper list, only the bytes that constants are given count.** -/
theorem result_apply_congr (h : Overrides.Proper list) (h' : Overrides.Proper list')
    (hgiven : ∀ id ∈ g.constants.keys, g.givenTo? list id = g.givenTo? list' id) :
    (apply g list).result = (apply g list').result := by
  obtain ⟨os, hos⟩ := Overrides.exists_ofList_iff.mpr h
  obtain ⟨os', hos'⟩ := Overrides.exists_ofList_iff.mpr h'
  rw [result_apply, result_apply, hos, hos']
  refine foldlM_congr fun id hid t => result_step_congr ?_
  rw [overrideOf_eq_givenTo? hos, overrideOf_eq_givenTo? hos', hgiven id hid]

theorem proper_of_apply (h : (apply g list).result = .ok s) : Overrides.Proper list := by
  rw [result_apply] at h
  obtain ⟨os, hos, -⟩ := bind_eq_ok_iff.mp h
  exact Overrides.exists_ofList_iff.mp ⟨os, liftM_fault_eq_ok_iff.mp hos⟩

/-- An override for an ID that no constant has does not count. -/
theorem givenTo?_insert (habsent : o.specId ∉ g.specIds.map Prod.snd)
    (hid : id ∈ g.constants.keys) :
    g.givenTo? (before ++ o :: after) id = g.givenTo? (before ++ after) id := by
  refine Option.bind_congr fun specId hspecId => Overrides.given?_insert ?_
  rintro rfl
  refine habsent (List.mem_map.mpr ⟨(id, o.specId), ?_, rfl⟩)
  exact List.mem_filterMap.mpr ⟨id, hid, by simpa [Graph.specIdOf?] using hspecId⟩

theorem result_apply_insert (h : Overrides.Proper (before ++ o :: after))
    (habsent : o.specId ∉ g.specIds.map Prod.snd) :
    (apply g (before ++ o :: after)).result = (apply g (before ++ after)).result := by
  obtain ⟨-, -, hrest⟩ := Overrides.proper_insert_iff.mp h
  exact result_apply_congr h hrest fun id hid => givenTo?_insert habsent hid

theorem result_apply_perm (h : Overrides.Proper list) (hperm : list.Perm list') :
    (apply g list).result = (apply g list').result := by
  refine result_apply_congr h (h.perm hperm) fun id _ => ?_
  exact Option.bind_congr fun specId _ => Overrides.given?_perm h hperm

/-- **Overrides are refused for what is wrong with them, and for nothing else.** They are accepted
exactly if the list is proper and no constant refuses the bytes that it is given. Otherwise the
fault is that of the first override that has no bytes or the ID of an earlier one, or else that of
the first constant that does not take its bytes. An override for an ID that no constant has can be
left out, and overrides can be given in any order. -/
theorem apply_accepts (hg : Graph.ofWords words = .ok g) (list : List Override) :
    ((∃ s, (apply g list).result = .ok s) ↔
      Overrides.Proper list ∧ g.Accepts list g.constants.keys) ∧
    (∀ stop, (apply g list).result = .error stop ↔ ∃ fault, stop = .fault fault ∧
      (Overrides.FirstWrong list fault ∨
        Overrides.Proper list ∧ g.FirstRefuses list fault)) ∧
    (∀ before o after, list = before ++ o :: after → Overrides.Proper list →
      o.specId ∉ g.specIds.map Prod.snd →
      (apply g list).result = (apply g (before ++ after)).result) ∧
    ∀ list', list.Perm list' →
      ∀ s, (apply g list).result = .ok s ↔ (apply g list').result = .ok s := by
  have hclosed := Graph.closed_of_ofWords hg
  refine ⟨exists_apply_eq_ok_iff hclosed, fun stop => result_apply_eq_error_iff hclosed, ?_, ?_⟩
  · rintro before o after rfl hproper habsent
    exact result_apply_insert hproper habsent
  · intro list' hperm s
    constructor
    · intro h
      rwa [← result_apply_perm (proper_of_apply h) hperm]
    · intro h
      rwa [← result_apply_perm (proper_of_apply h) hperm.symm]

set_option maxRecDepth 100000 in
/-- In the small binary, the numbers of the constants for the IDs 0 and 1 take four bytes. -/
theorem sample_apply_accepts : ∃ g, Graph.ofWords (sampleWords 1) = .ok g ∧
    (∃ s, (apply g [⟨7, [1]⟩, ⟨1, [7, 0, 0, 0]⟩]).result = .ok s ∧
      s.scalar? 16 = some (.int 32 false 7) ∧
      (apply g [⟨1, [7, 0, 0, 0]⟩]).result = .ok s ∧
      (apply g [⟨1, [7, 0, 0, 0]⟩, ⟨7, [1]⟩]).result = .ok s) ∧
    (apply g [⟨1, [7]⟩, ⟨0, []⟩, ⟨1, [7]⟩]).result =
      .error (.fault (.outOfRange (.emptyOverride 0))) ∧
    (apply g [⟨1, [7]⟩, ⟨0, [7, 7]⟩]).result =
      .error (.fault (.invalidArgument (.overrideSize 15 2 4))) := by
  obtain ⟨g, hg, hfacts⟩ := exists_eq_ok_of_any (x := Graph.ofWords (sampleWords 1))
    (p := fun g => g.constants.keys = [15, 16] ∧ g.specIds = [(15, 0), (16, 1)] ∧
      g.constants.get? 15 = some ⟨13, .bool true, true⟩ ∧ g.types.get? 13 = some .bool ∧
      g.givenTo? [⟨1, [7]⟩, ⟨0, [7, 7]⟩] 15 = some [7, 7] ∧
      (apply g [⟨7, [1]⟩, ⟨1, [7, 0, 0, 0]⟩]).result.toOption.any
        (fun s => s.scalar? 16 = some (.int 32 false 7))) (by decide +kernel)
  obtain ⟨hkeys, hspecIds, hconstant, htype, hgiven, hrun⟩ := of_decide_eq_true hfacts
  obtain ⟨s, hs, hvalue⟩ := exists_eq_ok_of_any hrun
  have hproper : Overrides.Proper [⟨7, [1]⟩, ⟨1, [7, 0, 0, 0]⟩] := proper_of_apply hs
  have hlist := apply_accepts hg [⟨7, [1]⟩, ⟨1, [7, 0, 0, 0]⟩]
  refine ⟨g, hg, ⟨s, hs, of_decide_eq_true hvalue, ?_, ?_⟩, ?_, ?_⟩
  · rw [← hs]
    exact (hlist.2.2.1 [] _ _ rfl hproper (by simp [hspecIds])).symm
  · exact (hlist.2.2.2 _ (List.Perm.swap _ _ _) s).mp hs
  · refine ((apply_accepts hg _).2.1 _).mpr ⟨_, rfl, .inl ?_⟩
    exact ⟨[⟨1, [7]⟩], ⟨0, []⟩, [⟨1, [7]⟩], rfl, ⟨by simp, by simp⟩, .empty rfl⟩
  · refine ((apply_accepts hg _).2.1 _).mpr ⟨_, rfl, .inr ⟨⟨by simp, by simp⟩, ?_⟩⟩
    exact ⟨[], 15, [16], [7, 7], hkeys, by simp [Graph.Accepts], hgiven,
      .size hconstant ⟨rfl, .inl ⟨true, rfl⟩⟩ htype .bool (by decide)⟩

end Specialization

end ShaderReflect
