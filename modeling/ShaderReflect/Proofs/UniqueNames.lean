import ShaderReflect.Proofs.Growth
import ShaderReflect.Proofs.Layout.Names

/-!
# Unique names are unique

On demand, everything that a reflection reports has a name, and names are distinct in each of three
kinds of scopes: the items of an entry point, the structs of the whole reflection, and the members
of a struct.

* `Arena.Named`: what the arena keeps of the names of structs and members. `named_of_steps` is the
  step, `Config.named_entryPoints` the run.
* `EntryPoint.uniquelyNamed_withUniqueNames`: the items of an entry point.
* `Config.reflect_uniquelyNamed`: all names of a reflection.

Specification, 4.6 (`gen_unique_names`). The names that a binary gives may be any: equal to each
other, to a name that is made up, or to one of its variants. A name that is given and free is kept.
Names of entry points are not made unique, and neither are those of types that have none, such as
arrays.
-/

namespace ShaderReflect

/-! ## Structs -/

theorem structNames_concat {τ : Type} (descs : List (TypeDesc τ)) (desc : TypeDesc τ) :
    structNames (descs ++ [desc]) = structNames descs ++ desc.structName?.toList := by
  unfold structNames
  rw [List.filterMap_append]
  cases h : desc.structName? <;> simp [h]

namespace Arena

variable {a b : Arena} {key : TypeDesc TypeIdx} {size : Option Nat} {i : TypeIdx}

/-- What interning with names for structs can do: find an entry, or append one. -/
theorem intern_named_cases (h : a.intern true key size = (i, b)) : b = a ∨
    b = { a with
      entries := a.entries ++ [⟨key, (nameStruct a.names a.entries.length key).1, size⟩]
      names := (nameStruct a.names a.entries.length key).2 } := by
  unfold intern at h
  split at h
  · cases h
    exact .inl rfl
  · cases h
    exact .inr rfl

/-- The names in an arena: each struct has one that is taken from then on, no two have the same one,
and the members of each struct have names of their own. -/
structure Named (a : Arena) : Prop where
  structs : UniquelyNamed (structNames a.types)
  used : ∀ name, some name ∈ structNames a.types → name ∈ a.names.used
  members : ∀ desc ∈ a.types, ∀ ms, desc.members? = some ms → UniquelyNamed (ms.map (·.name))

theorem named_empty : Named {} where
  structs := ⟨fun _ h => absurd h List.not_mem_nil, List.nodup_nil⟩
  used _ h := absurd h List.not_mem_nil
  members _ h := absurd h List.not_mem_nil

/-- A type can be appended if its name, should it be a struct, was free and is taken now. -/
theorem Named.append (h : a.Named) {e : ArenaEntry} {names : NameTable}
    (hused : ∀ name ∈ a.names.used, name ∈ names.used)
    (hname : ∀ name, e.desc.structName? = some name →
      ∃ given, name = some given ∧ given ∉ a.names.used ∧ given ∈ names.used)
    (hms : ∀ ms, e.desc.members? = some ms → UniquelyNamed (ms.map (·.name))) :
    Named { a with entries := a.entries ++ [e], names } := by
  refine ⟨?_, ?_, ?_⟩
  · rw [types_append, structNames_concat]
    cases hd : e.desc.structName? with
    | none => simpa using h.structs
    | some name =>
      obtain ⟨given, rfl, hfree, -⟩ := hname name hd
      refine ⟨fun name hm => ?_, ?_⟩
      · rcases List.mem_append.mp hm with hm | hm
        · exact h.structs.named name hm
        · rw [List.mem_singleton.mp hm, Option.isSome_some]
      · rw [Option.toList_some, ← List.concat_eq_append]
        exact h.structs.distinct.concat fun hm => hfree (h.used given hm)
  · intro name hm
    rw [types_append, structNames_concat] at hm
    rcases List.mem_append.mp hm with hm | hm
    · exact hused name (h.used name hm)
    · obtain ⟨given, heq, -, htaken⟩ := hname (some name) (Option.mem_toList.mp hm)
      rw [Option.some.inj heq]
      exact htaken
  · intro desc hm
    rw [types_append] at hm
    rcases List.mem_append.mp hm with hm | hm
    · exact h.members desc hm
    · rw [List.mem_singleton.mp hm]
      exact hms

/-- Interning a type whose members have names of their own keeps the names in an arena. -/
theorem Named.intern (h : a.Named)
    (hms : ∀ ms, key.members? = some ms → UniquelyNamed (ms.map (·.name)))
    (hi : a.intern true key size = (i, b)) : b.Named := by
  rcases intern_named_cases hi with rfl | rfl
  · exact h
  · cases key with
    | struct name ms =>
      refine h.append (fun name hm => List.mem_cons_of_mem _ hm) ?_ hms
      intro name' hname
      exact ⟨_, (Option.some.inj hname).symm, NameTable.claim_not_mem _ _ _, List.mem_cons_self⟩
    | _ => exact h.append (fun _ hm => hm) (fun _ hname => by cases hname) hms

end Arena

namespace Source

variable {s : Source} {a b : Arena}

/-! ## Members -/

/-- The members of a struct have the names that they are given. -/
theorem names_describeMembers {ms : List MemberDecl} {descs : List (MemberDesc TypeIdx)}
    (h : s.describeMembers a ms = .ok descs) : descs.map (·.name) = s.memberNames ms := by
  obtain ⟨places, hplaces, h⟩ := bind_eq_ok_iff.mp h
  cases h
  have hlength : ms.length = places.length := (mapM_eq_ok_iff.mp hplaces).length_eq
  rw [List.map_map]
  show ((ms.zip places).zip (s.memberNames ms)).map Prod.snd = _
  rw [List.map_snd_zip]
  rw [length_memberNames, List.length_zip, ← hlength, Nat.min_self]

theorem uniquelyNamed_memberNames (hu : s.uniqueNames = true) (ms : List MemberDecl) :
    UniquelyNamed (s.memberNames ms) := by
  rw [memberNames, if_pos hu]
  exact uniquelyNamed_map_some (NameTable.nodup_claimAll _)

theorem Admits.uniquelyNamed (hu : s.uniqueNames = true) {key : TypeDesc TypeIdx}
    (h : s.Admits a key) {ms : List (MemberDesc TypeIdx)} (hms : key.members? = some ms) :
    UniquelyNamed (ms.map (·.name)) := by
  obtain ⟨id, name, decls, isBufferBlock, -, hms⟩ := h.exists_struct_decl hms
  rw [names_describeMembers hms]
  exact uniquelyNamed_memberNames hu decls

/-- **Every step of an arena keeps its names.** -/
theorem named_of_steps (hu : s.uniqueNames = true) (h : s.Steps a b) (ha : a.Named) :
    b.Named := by
  refine h.invariant ha fun a b ha hstep => ?_
  cases hstep with
  | intern hk h =>
    rw [hu] at h
    exact ha.intern (fun ms hms => hk.uniquelyNamed hu hms) h
  | place id i => exact ⟨ha.structs, ha.used, ha.members⟩

end Source

/-! ## Items of an entry point -/

namespace EntryPoint

variable {τ : Type}

/-- The names of the items of an entry point. -/
def names (e : EntryPoint τ) : List (Option String) :=
  e.descriptors.map (·.name) ++ e.pushConstants.map (·.name) ++ e.inputs.map (·.name)
    ++ e.outputs.map (·.name) ++ e.specConstants.map (·.name)

/-- The names are those in a table, in the order in which they were given, and all of them are
different. -/
structure Gives (t : NameTable) (names : List (Option String)) : Prop where
  names_eq : names = t.used.reverse.map some
  nodup : t.used.Nodup

theorem gives_nil : Gives {} [] := ⟨rfl, List.nodup_nil⟩

theorem Gives.uniquelyNamed {t : NameTable} {names : List (Option String)} (h : Gives t names) :
    UniquelyNamed names := by
  rw [h.names_eq]
  exact uniquelyNamed_map_some (List.nodup_reverse.mpr h.nodup)

/-- More items are given names that are different from all names so far. -/
theorem Gives.nameItems {α : Type} {name : α → Option String} {fallback : α → String}
    {rename : String → α → α} {t : NameTable} {names : List (Option String)} (h : Gives t names)
    (hr : ∀ s x, name (rename s x) = some s) (items : List α) :
    Gives (EntryPoint.nameItems name fallback rename t items).2
      (names ++ (EntryPoint.nameItems name fallback rename t items).1.map name) := by
  let claims := items.map fun x => (name x).getD (fallback x)
  have hused : (t.claimAll claims).2.used = (t.claimAll claims).1.reverse ++ t.used :=
    t.used_claimFrom 0 claims
  have hlength : (t.claimAll claims).1.length ≤ items.length := by
    rw [NameTable.length_claimAll, List.length_map]
  have hgiven : ((t.claimAll claims).1.zipWith rename items).map name =
      (t.claimAll claims).1.map some := by
    rw [List.map_zipWith]
    simp only [hr]
    rw [← List.map_uncurry_zip_eq_zipWith]
    show (List.zip _ _).map (some ∘ Prod.fst) = _
    rw [← List.map_map, List.map_fst_zip hlength]
  refine ⟨?_, NameTable.nodup_used_claimFrom h.nodup 0 claims⟩
  show names ++ ((t.claimAll claims).1.zipWith rename items).map name =
    (t.claimAll claims).2.used.reverse.map some
  rw [hgiven, hused, h.names_eq, List.reverse_append, List.reverse_reverse, List.map_append]

/-- **The items of an entry point have names of their own.** One table of names goes through all
five lists. -/
theorem uniquelyNamed_withUniqueNames (e : EntryPoint τ) :
    UniquelyNamed e.withUniqueNames.names := by
  unfold withUniqueNames names
  simp only
  refine Gives.uniquelyNamed (Gives.nameItems (Gives.nameItems (Gives.nameItems (Gives.nameItems
    (Gives.nameItems gives_nil ?_ _) ?_ _) ?_ _) ?_ _) ?_ _)
  all_goals intros; rfl

/-- Naming changes no member of a block of push constants. -/
theorem members_withUniqueNames (e : EntryPoint τ) :
    e.withUniqueNames.pushConstants.map (·.members) = e.pushConstants.map (·.members) := by
  unfold withUniqueNames
  simp only
  rw [map_nameItems (PushConstant.members (τ := τ))]
  intros
  rfl

end EntryPoint

/-! ## Reflections -/

/-- The names of a reflection are unique: those of the items of an entry point, those of all
structs, and those of the members of a struct. -/
structure Reflection.Named (r : Reflection) : Prop where
  items : ∀ e ∈ r.entryPoints, UniquelyNamed e.names
  structs : UniquelyNamed (structNames r.types)
  members : ∀ desc ∈ r.types, ∀ ms, desc.members? = some ms → UniquelyNamed (ms.map (·.name))
  blocks : ∀ e ∈ r.entryPoints, ∀ p ∈ e.pushConstants, UniquelyNamed (p.members.map (·.name))

namespace Source

variable {s : Source} {a b : Arena}

/-- The blocks of push constants that are collected have the members of structs in the arena. -/
theorem named_resources (hu : s.uniqueNames = true) (ha : a.Named) {pairing : Pairing}
    {ids : List Ident} {r : Resources}
    (h : ids.foldlM (fun r id => (s.addResource pairing r id).result) { arena := a } = .ok r) :
    ∀ p ∈ r.pushConstants, UniquelyNamed (p.members.map (·.name)) := by
  have hboth : r.arena.Named ∧ ∀ p ∈ r.pushConstants, UniquelyNamed (p.members.map (·.name)) := by
    refine foldlM_invariant (P := fun r : Resources => r.arena.Named ∧
      ∀ p ∈ r.pushConstants, UniquelyNamed (p.members.map (·.name))) h
      ⟨ha, fun _ hp => absurd hp List.not_mem_nil⟩ ?_
    rintro id - r r' ⟨harena, hblocks⟩ hstep
    obtain ⟨hsteps, hsame | ⟨p, hadd, hms⟩⟩ := addResource_cases hstep
    · rw [hsame]
      exact ⟨named_of_steps hu hsteps harena, hblocks⟩
    · have harena' := named_of_steps hu hsteps harena
      refine ⟨harena', fun q hq => ?_⟩
      rw [hadd] at hq
      rcases List.mem_append.mp hq with hq | hq
      · exact hblocks q hq
      · obtain ⟨desc, hdesc, hms⟩ := Option.bind_eq_some_iff.mp hms
        rw [List.mem_singleton.mp hq]
        refine harena'.members desc ?_ _ hms
        rw [Arena.desc?, ← List.getElem?_map] at hdesc
        exact List.mem_of_getElem? hdesc
  exact hboth.2

/-- An entry point that is assembled has unique names. -/
theorem named_assemble (hu : s.uniqueNames = true) (ha : a.Named) {e : EntryPointDecl}
    {reach : Reach} {pairing : Pairing} {x : EntryPoint TypeIdx}
    (h : (s.assemble e reach pairing a).result = .ok (x, b)) :
    UniquelyNamed x.names ∧ ∀ p ∈ x.pushConstants, UniquelyNamed (p.members.map (·.name)) := by
  obtain ⟨r, i, cs, whole, hr, -, -, hblocks, rfl⟩ := assemble_eq_ok h
  rw [if_pos hu]
  refine ⟨whole.uniquelyNamed_withUniqueNames, fun p hp => ?_⟩
  have hms : p.members ∈ whole.withUniqueNames.pushConstants.map (·.members) :=
    List.mem_map_of_mem hp
  rw [EntryPoint.members_withUniqueNames, hblocks] at hms
  obtain ⟨q, hq, heq⟩ := List.mem_map.mp hms
  rw [← heq]
  exact named_resources hu ha hr q hq

end Source

namespace Config

variable {c : Config} {s : Source} {p : Progress} {r : Reflection}

theorem named_entryPoints (hu : s.uniqueNames = true) (h : (c.entryPoints s).result = .ok p) :
    p.arena.Named ∧ ∀ e ∈ p.entryPoints, UniquelyNamed e.names ∧
      ∀ q ∈ e.pushConstants, UniquelyNamed (q.members.map (·.name)) := by
  rw [result_entryPoints] at h
  refine foldlM_invariant (P := fun p : Progress => p.arena.Named ∧ ∀ e ∈ p.entryPoints,
    UniquelyNamed e.names ∧ ∀ q ∈ e.pushConstants, UniquelyNamed (q.members.map (·.name))) h
    ⟨Arena.named_empty, fun _ he => absurd he List.not_mem_nil⟩ ?_
  rintro decl - p p' ⟨harena, hpoints⟩ hstep
  rw [result_addEntryPoint] at hstep
  obtain ⟨reach, -, hstep⟩ := bind_eq_ok_iff.mp hstep
  obtain ⟨⟨x, b⟩, hx, hstep⟩ := bind_eq_ok_iff.mp hstep
  cases hstep
  refine ⟨Source.named_of_steps hu (Source.steps_assemble hx) harena, fun e he => ?_⟩
  rcases List.mem_append.mp he with he | he
  · exact hpoints e he
  · rw [List.mem_singleton.mp he]
    exact Source.named_assemble hu harena hx

/-- **Unique names are unique**, whatever names the binary gives. -/
theorem reflect_uniquelyNamed (hu : c.uniqueNames = true) (h : c.reflect.result = .ok r) :
    r.Named := by
  obtain ⟨s, p, hr⟩ := exists_madeOf h
  obtain ⟨harena, hpoints⟩ := named_entryPoints (hr.uniqueNames_eq.trans hu) hr.run
  rw [hr.result]
  exact ⟨fun e he => (hpoints e he).1, harena.structs, harena.members, fun e he => (hpoints e he).2⟩

/-- A binary with a fragment shader that reads two blocks of push constants and a uniform block, all
with two numbers in them. The types of the blocks of push constants are alike. The names in the
binary are those that would be given to what has none: `push_const` to the uniform block,
`push_const_1` to the first one of the other two, and `type1` and `member1` to the type of the
uniform block and to its first member. -/
def sampleNames : List Instruction := [
  ⟨15, [4, 1, 0x61]⟩,
  ⟨5, [20, 0x68737570, 0x6e6f635f, 0x315f7473, 0]⟩, ⟨5, [22, 0x68737570, 0x6e6f635f, 0x7473]⟩,
  ⟨5, [9, 0x65707974, 0x31]⟩, ⟨6, [9, 0, 0x626d656d, 0x317265]⟩,
  ⟨72, [6, 0, 35, 0]⟩, ⟨72, [6, 1, 35, 4]⟩, ⟨72, [7, 0, 35, 0]⟩, ⟨72, [7, 1, 35, 4]⟩,
  ⟨72, [9, 0, 35, 0]⟩, ⟨72, [9, 1, 35, 4]⟩,
  ⟨19, [3]⟩, ⟨33, [4, 3]⟩, ⟨22, [5, 32]⟩, ⟨22, [8, 32]⟩,
  ⟨30, [6, 5, 5]⟩, ⟨30, [7, 8, 5]⟩, ⟨30, [9, 8, 8]⟩,
  ⟨32, [10, 9, 6]⟩, ⟨32, [11, 9, 7]⟩, ⟨32, [12, 2, 9]⟩,
  ⟨59, [10, 20, 9]⟩, ⟨59, [11, 21, 9]⟩, ⟨59, [12, 22, 2]⟩,
  ⟨54, [3, 1, 0, 4]⟩, ⟨61, [6, 30, 20]⟩, ⟨61, [7, 31, 21]⟩, ⟨61, [9, 32, 22]⟩, ⟨56, []⟩]

/-- The reflection of the binary. -/
def sampleNamesConfig (uniqueNames : Bool) : Config where
  binary := some ([magicNumber, 0x10300, 0, 64, 0] ++ sampleNames.flatMap Instruction.words)
  uniqueNames := uniqueNames

set_option maxRecDepth 100000 in
/-- Names that are taken are told apart by positions. -/
theorem sample_reflect_uniquelyNamed : (sampleNamesConfig true).uniqueNames = true ∧
    ∃ r, (sampleNamesConfig true).reflect.result = .ok r ∧
      r.entryPoints.map (·.names) =
        [[some "push_const", some "push_const_1", some "push_const_1_1"]] ∧
      structNames r.types = [some "type1", some "type1_2"] ∧ r.Named := by
  obtain ⟨r, hr, hnames⟩ := exists_eq_ok_of_any (x := (sampleNamesConfig true).reflect.result)
    (p := fun r => r.entryPoints.map (·.names) =
        [[some "push_const", some "push_const_1", some "push_const_1_1"]] ∧
      structNames r.types = [some "type1", some "type1_2"]) (by decide +kernel)
  obtain ⟨hitems, hstructs⟩ := of_decide_eq_true hnames
  exact ⟨rfl, r, hr, hitems, hstructs, reflect_uniquelyNamed rfl hr⟩

end Config

end ShaderReflect
