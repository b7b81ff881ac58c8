import Mathlib.Data.List.Nodup
import Mathlib.Logic.Relation
import ShaderReflect.Proofs.Graph
import ShaderReflect.Proofs.Reflection

/-!
# How the arena grows

Only two things happen to the arena of a reflection: a description is interned, and the place of a
declared type is noted (`Source.Step`). What is interned is the description of a declared type, or
that of an image together with a sampler (`Source.Admits`). So what both keep holds of the arena of
every reflection (`Steps.invariant`).

* `steps_materialize`, `steps_assemble`, `Config.steps_entryPoints`: every run takes such steps.
* `nodup_keys`: no description is interned twice.
* `Config.MadeOf.forall_types`: what holds of all admitted descriptions holds of all reported types.

The steps are the interface between what is said about types one at a time and what is said about
reflections: for a new property of reported types, it is enough to look at the description of one
declared type.
-/

namespace ShaderReflect

namespace Arena

variable (a : Arena) (e : ArenaEntry) (names : NameTable)

theorem keys_append :
    Arena.keys { a with entries := a.entries ++ [e], names } = a.keys ++ [e.key] := List.map_append

theorem types_append :
    Arena.types { a with entries := a.entries ++ [e], names } = a.types ++ [e.desc] :=
  List.map_append

end Arena

namespace Source

variable {s : Source} {a b c : Arena} {id : Ident} {decl : TypeDecl} {i : TypeIdx}

/-! ## Steps -/

/-- What is interned: the description of a declared type whose operands have places, or that of an
image together with a sampler. -/
inductive Admits (s : Source) (a : Arena) : TypeDesc TypeIdx → Prop
  | declared {id : Ident} {decl : TypeDecl} {key : TypeDesc TypeIdx}
    (hd : s.graph.types.get? id = some decl) (h : s.describe a id decl = .ok key) :
    s.Admits a key
  | combined (image : TypeIdx) : s.Admits a (.combinedImageSampler image)

/-- What is admitted with members is the description of a declared struct. -/
theorem Admits.exists_struct_decl {key : TypeDesc TypeIdx} (h : s.Admits a key)
    {ms : List (MemberDesc TypeIdx)} (hms : key.members? = some ms) :
    ∃ id name decls isBufferBlock,
      s.graph.types.get? id = some (.struct name decls isBufferBlock) ∧
      s.describeMembers a decls = .ok ms := by
  cases h with
  | combined image => cases hms
  | @declared id decl _ hd h =>
    cases decl with
    | struct name decls isBufferBlock =>
      obtain ⟨descs, hdescs, h⟩ := bind_eq_ok_iff.mp h
      cases h
      cases hms
      exact ⟨id, name, decls, isBufferBlock, hd, hdescs⟩
    | vector o | matrix o | runtimeArray o | image o | sampledImage o | pointer _ o =>
      obtain ⟨i, -, h⟩ := bind_eq_ok_iff.mp h
      cases h
      cases hms
    | array o length stride =>
      obtain ⟨i, -, h⟩ := bind_eq_ok_iff.mp h
      obtain ⟨n, -, h⟩ := bind_eq_ok_iff.mp h
      cases h
      cases hms
    | unreported => cases h
    | _ =>
      cases h
      cases hms

/-- What happens to an arena. -/
inductive Step (s : Source) (a : Arena) : Arena → Prop
  | intern {key : TypeDesc TypeIdx} {size : Option Nat} {i : TypeIdx} {b : Arena}
    (hk : s.Admits a key) (h : a.intern s.uniqueNames key size = (i, b)) : s.Step a b
  | place (id : Ident) (i : TypeIdx) : s.Step a { a with places := a.places.insertFirst id i }

/-- Any number of steps. -/
def Steps (s : Source) : Arena → Arena → Prop := Relation.ReflTransGen s.Step

theorem Steps.refl (a : Arena) : s.Steps a a := Relation.ReflTransGen.refl

theorem Steps.trans (h : s.Steps a b) (h' : s.Steps b c) : s.Steps a c :=
  Relation.ReflTransGen.trans h h'

/-- What holds at the start and survives each step holds at the end. -/
theorem Steps.invariant {P : Arena → Prop} (h : s.Steps a b) (ha : P a)
    (step : ∀ a b, P a → s.Step a b → P b) : P b := by
  induction h with
  | refl => exact ha
  | tail _ hstep ih => exact step _ _ ih hstep

/-- What holds of everything that is admitted holds of all keys. -/
theorem Steps.forall_keys {P : TypeDesc TypeIdx → Prop} (h : s.Steps {} b)
    (hP : ∀ a key, s.Admits a key → P key) : ∀ key ∈ b.keys, P key := by
  refine h.invariant (P := fun a => ∀ key ∈ a.keys, P key) (fun _ hk => absurd hk List.not_mem_nil)
    fun a b ha hstep => ?_
  cases hstep with
  | intern hk h =>
    rcases Arena.intern_cases h with ⟨rfl, -⟩ | ⟨-, -, e, names, rfl, -, -, rfl⟩
    · exact ha
    · intro key hkey
      rw [Arena.keys_append] at hkey
      rcases List.mem_append.mp hkey with hkey | hkey
      · exact ha key hkey
      · rw [List.mem_singleton.mp hkey]
        exact hP a _ hk
  | place id i => exact ha

/-- No description is interned twice. -/
theorem nodup_keys (h : s.Steps a b) (ha : a.keys.Nodup) : b.keys.Nodup := by
  refine h.invariant (P := fun a => a.keys.Nodup) ha fun a b ha hstep => ?_
  cases hstep with
  | intern hk h =>
    rcases Arena.intern_cases h with ⟨rfl, -⟩ | ⟨-, hnew, e, names, rfl, -, -, rfl⟩
    · exact ha
    · rw [Arena.keys_append, ← List.concat_eq_append]
      exact ha.concat hnew
  | place id i => exact ha

/-! ## Types -/

theorem steps_put (hd : s.graph.types.get? id = some decl) (h : s.put a id decl = .ok (i, b)) :
    s.Steps a b := by
  obtain ⟨desc, size, c, hdesc, -, hi, rfl⟩ := put_eq_ok h
  exact .tail (.single (.intern (.declared hd hdesc) hi)) (.place id i)

theorem steps_materializeTo {d : Nat} (h : s.materializeTo d a id = .ok (i, b)) :
    s.Steps a b := by
  induction d generalizing a id i b with
  | zero =>
    obtain ⟨j, -, h⟩ := bind_eq_ok_iff.mp h
    cases h
    exact .refl a
  | succ d ih =>
    unfold materializeTo at h
    split at h
    · cases h
      exact .refl a
    · obtain ⟨decl, hdecl, h⟩ := bind_eq_ok_iff.mp h
      obtain ⟨c, hc, h⟩ := bind_eq_ok_iff.mp h
      have hdecl := Graph.type_eq_ok_iff.mp (liftM_fault_eq_ok_iff.mp hdecl)
      refine .trans (b := c) ?_ (steps_put hdecl h)
      refine foldlM_invariant hc (.refl a) fun o _ x y hx hy => ?_
      obtain ⟨⟨k, z⟩, hz, rfl⟩ := map_eq_ok_iff.mp hy
      exact hx.trans (ih hz)

theorem steps_materialize (h : s.materialize a id = .ok (i, b)) : s.Steps a b :=
  steps_materializeTo h

/-! ## Entry points -/

variable {v : Variable} {pairing : Pairing}

/-- What a block of push constants is made of: its type, and the members of that type. -/
theorem pushConstant_eq_ok {p : PushConstant TypeIdx} (h : s.pushConstant a id v = .ok (p, b)) :
    ∃ pointee, s.materialize a pointee = .ok (p.type, b) ∧
      (b.desc? p.type).bind TypeDesc.members? = some p.members := by
  obtain ⟨pointee, -, h⟩ := bind_eq_ok_iff.mp h
  obtain ⟨⟨type, c⟩, hc, h⟩ := bind_eq_ok_iff.mp h
  dsimp only at h
  split at h
  · rename_i members hm
    cases h
    exact ⟨pointee, hc, hm⟩
  · cases h

theorem steps_descriptor? {d? : Option (Descriptor TypeIdx)}
    (h : (s.descriptor? pairing a id v).result = .ok (d?, b)) : s.Steps a b := by
  unfold descriptor? at h
  split at h
  · cases h
    exact .refl a
  · simp only [Traced.result_bind, bind_eq_ok_iff] at h
    obtain ⟨p, -, u, -, decl, -, kind?, -, h⟩ := h
    cases kind? with
    | none =>
      cases h
      exact .refl a
    | some kind =>
      simp only [Traced.result_bind, bind_eq_ok_iff, Traced.result_liftM_stop] at h
      obtain ⟨⟨image, c⟩, hc, h⟩ := h
      have hac := steps_materialize hc
      cases h
      have hintern : ∀ isCombined : Bool, s.Steps a (if isCombined then
          c.intern s.uniqueNames (.combinedImageSampler image) none else (image, c)).2 := by
        intro isCombined
        cases isCombined with
        | false => exact hac
        | true => exact hac.tail (.intern (.combined image) rfl)
      exact hintern _

/-- What one more resource variable adds to the blocks of push constants: none, or one whose members
are those of a struct in the arena. -/
theorem addResource_cases {r r' : Resources} (h : (s.addResource pairing r id).result = .ok r') :
    s.Steps r.arena r'.arena ∧ (r'.pushConstants = r.pushConstants ∨
      ∃ p, r'.pushConstants = r.pushConstants ++ [p] ∧
        (r'.arena.desc? p.type).bind TypeDesc.members? = some p.members) := by
  unfold addResource at h
  simp only [Traced.result_bind, bind_eq_ok_iff] at h
  obtain ⟨v, -, h⟩ := h
  split at h
  · simp only [Traced.result_bind, bind_eq_ok_iff, Traced.result_liftM_stop] at h
    obtain ⟨⟨p, b⟩, hp, h⟩ := h
    cases h
    obtain ⟨pointee, hm, hms⟩ := pushConstant_eq_ok hp
    exact ⟨steps_materialize hm, .inr ⟨p, rfl, hms⟩⟩
  · simp only [Traced.result_bind, bind_eq_ok_iff] at h
    obtain ⟨⟨d?, b⟩, hd, h⟩ := h
    cases h
    exact ⟨steps_descriptor? hd, .inl rfl⟩

theorem steps_addInterfaceVar {r r' : Interface} (h : s.addInterfaceVar r id = .ok r') :
    s.Steps r.arena r'.arena := by
  obtain ⟨v, -, h⟩ := bind_eq_ok_iff.mp h
  split at h
  · cases h
    exact .refl _
  · obtain ⟨p, -, h⟩ := bind_eq_ok_iff.mp h
    obtain ⟨⟨type, b⟩, hb, h⟩ := bind_eq_ok_iff.mp h
    cases h
    split <;> exact steps_materialize hb

theorem steps_specConstantVars {cs : List SpecConstant} {xs : List (SpecConstantVar TypeIdx)}
    (h : s.specConstantVars a cs = .ok (xs, b)) : s.Steps a b := by
  induction cs generalizing a xs with
  | nil =>
    cases h
    exact .refl _
  | cons c cs ih =>
    obtain ⟨⟨type, a'⟩, ha', h⟩ := bind_eq_ok_iff.mp h
    obtain ⟨⟨rest, b'⟩, hrest, h⟩ := bind_eq_ok_iff.mp h
    cases h
    exact (steps_materialize ha').trans (ih hrest)

/-- What an entry point is assembled from. -/
theorem assemble_eq_ok {e : EntryPointDecl} {reach : Reach} {x : EntryPoint TypeIdx}
    (h : (s.assemble e reach pairing a).result = .ok (x, b)) :
    ∃ (r : Resources) (i : Interface) (cs : List (SpecConstantVar TypeIdx))
      (whole : EntryPoint TypeIdx),
      reach.resources.ids.foldlM (fun r id => (s.addResource pairing r id).result) { arena := a } =
        .ok r ∧
      s.interface r.arena reach.interface = .ok i ∧
      s.specConstantVars i.arena s.specialization.specConstants = .ok (cs, b) ∧
      whole.pushConstants = r.pushConstants ∧
      x = if s.uniqueNames then whole.withUniqueNames else whole := by
  unfold assemble at h
  simp only [Traced.result_bind, Traced.result_foldlM, Traced.result_liftM_stop,
    Traced.result_liftM_fault, bind_eq_ok_iff] at h
  obtain ⟨r, hr, i, hi, ⟨cs, c⟩, hcs, size, -, u, -, h⟩ := h
  cases h
  exact ⟨r, i, cs, _, hr, hi, hcs, rfl, rfl⟩

theorem steps_assemble {e : EntryPointDecl} {reach : Reach} {x : EntryPoint TypeIdx}
    (h : (s.assemble e reach pairing a).result = .ok (x, b)) : s.Steps a b := by
  obtain ⟨r, i, cs, whole, hr, hi, hcs, -, -⟩ := assemble_eq_ok h
  have har : s.Steps a r.arena := foldlM_invariant (P := fun r : Resources => s.Steps a r.arena) hr
    (.refl a) fun _ _ _ _ h hstep => h.trans (addResource_cases hstep).1
  have hri : s.Steps r.arena i.arena :=
    foldlM_invariant (P := fun i : Interface => s.Steps r.arena i.arena) hi (.refl r.arena)
      fun _ _ _ _ h hstep => h.trans (steps_addInterfaceVar hstep)
  exact (har.trans hri).trans (steps_specConstantVars hcs)

end Source

/-! ## Reflections -/

namespace Config

variable {c : Config} {s : Source} {p : Progress}

/-- **The arena of a reflection has grown by steps** from the empty one. -/
theorem steps_entryPoints (h : (c.entryPoints s).result = .ok p) : s.Steps {} p.arena := by
  rw [result_entryPoints] at h
  refine foldlM_invariant (P := fun p : Progress => s.Steps {} p.arena) h (.refl _) ?_
  intro e _ p p' hp hstep
  rw [result_addEntryPoint] at hstep
  obtain ⟨reach, -, hstep⟩ := bind_eq_ok_iff.mp hstep
  obtain ⟨⟨x, b⟩, hx, hstep⟩ := bind_eq_ok_iff.mp hstep
  cases hstep
  exact hp.trans (Source.steps_assemble hx)

/-- **What holds of everything that is admitted holds of all reported types**, if the names of
structs do not matter for it. -/
theorem MadeOf.forall_types {r : Reflection} (h : c.MadeOf s p r) {P : TypeDesc TypeIdx → Prop}
    (hP : ∀ a key, s.Admits a key → P key)
    (hname : ∀ name name' ms, P (.struct name ms) → P (.struct name' ms)) :
    ∀ desc ∈ r.types, P desc := by
  intro desc hdesc
  rw [h.result] at hdesc
  obtain ⟨e, he, rfl⟩ := List.mem_map.mp hdesc
  have hkey := (steps_entryPoints h.run).forall_keys hP e.key (List.mem_map_of_mem he)
  rcases h.holds.faithful e he with heq | ⟨-, name, name', ms, hk, hd⟩
  · rw [heq]
    exact hkey
  · rw [hk] at hkey
    rw [hd]
    exact hname _ _ _ hkey

end Config

end ShaderReflect
