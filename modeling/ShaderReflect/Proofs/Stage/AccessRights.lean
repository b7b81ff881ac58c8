import ShaderReflect.Proofs.Declared.Decorations
import ShaderReflect.Proofs.Resources

/-!
# Rights that decorations take away

A right on the contents of a resource is taken away by a decoration of its variable, or by
decorations of all members of its block (`Graph.Takes`). What is reported are the rights that are
left, but if both are taken away, nothing is said about either, and both are reported
(`Config.grants_iff`). So decorations that are added to a binary take rights away and give none,
with one exception: a resource that had one right left gets the other one back when that one is
taken away too.

* `Graph.Redecorated.takes`: what has been taken away stays so.
* `Config.grants_iff`: the rights that are reported.
* `Config.reflect_redecorated`: the rights that are reported before and after decorations are added.

Specification, 4.6 (access is derived from decorations of the variable or of every member). That
both rights can be taken away and then count as given is by design: what is reported of a resource
has no value for one that can be neither read nor written, and the default for a value that is
missing is that both rights are left. For a member of a struct the value may be missing, and it is.
No other decorations are added, as these could change what kind of descriptor a variable has.
-/

namespace ShaderReflect

/-! ## Rights -/

/-- The rights on the contents of a resource. -/
inductive Right
  | read
  | write
deriving DecidableEq, Repr

/-- The decoration that takes a right away. -/
def Right.decoration : Right → Word
  | .read => Decoration.nonReadable
  | .write => Decoration.nonWritable

/-- Whether a right is among those of an access. -/
def Access.grants (a : Access) : Right → Bool
  | .read => a.canRead
  | .write => a.canWrite

/-- Whether a right is taken away from a member. -/
def MemberDecl.lacks (m : MemberDecl) : Right → Bool
  | .read => m.nonReadable
  | .write => m.nonWritable

/-- The access that a kind of descriptor tells. -/
def DescriptorKind.access? : DescriptorKind → Option Access
  | .storageImage access | .storageTexelBuffer access | .storageBuffer access => some access
  | _ => none

/-- The members of a struct; no other type has any. -/
def TypeDecl.members : TypeDecl → List MemberDecl
  | .struct _ members _ => members
  | _ => []

/-- The rights that are left if some are taken away are the others, or all if none are left. -/
theorem Access.grants_ofDecorations?_iff (taken : Right → Bool) (right : Right) :
    ((ofDecorations? (taken .write) (taken .read)).getD .readWrite).grants right = true ↔
      ¬taken right = true ∨ ∀ other, taken other = true := by
  have hall : (∀ other, taken other = true) ↔ taken .read = true ∧ taken .write = true := by
    constructor
    · exact fun h => ⟨h .read, h .write⟩
    · rintro ⟨hread, hwrite⟩ (_ | _)
      · exact hread
      · exact hwrite
  rw [hall]
  cases hread : taken .read <;> cases hwrite : taken .write <;> cases right <;>
    simp [ofDecorations?, grants, canRead, canWrite, hread, hwrite]

theorem Access.eq_readWrite_iff {a : Access} : a = .readWrite ↔ ∀ right, a.grants right = true := by
  constructor
  · rintro rfl (_ | _) <;> rfl
  · intro h
    have hread := h .read
    have hwrite := h .write
    cases a with
    | readWrite => rfl
    | readOnly => cases hwrite
    | writeOnly => cases hread

namespace Graph

variable {g g' : Graph} {id type : Ident} {right : Right} {words words' : List Word}

/-! ## The type without dimensions -/

/-- The type that a variable points to, without its array dimensions, is declared as `type`. -/
def Core (g : Graph) (id type : Ident) : Prop :=
  ∃ v storage pointee isUnbounded inner lengths, g.globals.get? id = some v ∧
    g.types.get? v.type = some (.pointer storage pointee) ∧ g.Opens pointee isUnbounded inner ∧
    g.Nests inner lengths type

theorem Core.unique {type' : Ident} (h : g.Core id type) (h' : g.Core id type') : type = type' := by
  obtain ⟨v, storage, pointee, b, inner, lengths, hv, hpointer, hopens, hnests⟩ := h
  obtain ⟨v', storage', pointee', b', inner', lengths', hv', hpointer', hopens', hnests'⟩ := h'
  obtain rfl : v = v' := Option.some.inj (hv.symm.trans hv')
  rw [hpointer] at hpointer'
  cases hpointer'
  obtain ⟨-, rfl⟩ := hopens.unique hopens'
  exact (hnests.unique hnests').2

namespace Reannotates

theorem symm (h : g.Reannotates g') : g'.Reannotates g :=
  ⟨fun id => (h.types id).symm, h.globals.symm⟩

/-- A type is declared in both graphs, apart from what annotations say about it. -/
theorem exists_type (h : g.Reannotates g') {decl : TypeDecl} (hd : g.types.get? id = some decl) :
    ∃ decl', g'.types.get? id = some decl' ∧ decl'.bare = decl.bare := by
  have htypes := h.types id
  rw [hd] at htypes
  exact Option.map_eq_some_iff.mp htypes

theorem pointer (h : g.Reannotates g') {storage : StorageClass} {pointee : Ident}
    (hd : g.types.get? id = some (.pointer storage pointee)) :
    g'.types.get? id = some (.pointer storage pointee) := by
  obtain ⟨decl', hd', hbare⟩ := h.exists_type hd
  cases decl' <;> cases hbare
  exact hd'

theorem array (h : g.Reannotates g') {element length : Ident} {stride : Option Word}
    (hd : g.types.get? id = some (.array element length stride)) :
    ∃ stride', g'.types.get? id = some (.array element length stride') := by
  obtain ⟨decl', hd', hbare⟩ := h.exists_type hd
  cases decl' <;> cases hbare
  exact ⟨_, hd'⟩

theorem runtimeArray (h : g.Reannotates g') {element : Ident} {stride : Option Word}
    (hd : g.types.get? id = some (.runtimeArray element stride)) :
    ∃ stride', g'.types.get? id = some (.runtimeArray element stride') := by
  obtain ⟨decl', hd', hbare⟩ := h.exists_type hd
  cases decl' <;> cases hbare
  exact ⟨_, hd'⟩

theorem struct (h : g.Reannotates g') {name : Option String} {members : List MemberDecl}
    {isBufferBlock : Bool} (hd : g.types.get? id = some (.struct name members isBufferBlock)) :
    ∃ name' members' isBufferBlock',
      g'.types.get? id = some (.struct name' members' isBufferBlock') ∧
      members'.length = members.length := by
  obtain ⟨decl', hd', hbare⟩ := h.exists_type hd
  cases decl' with
  | struct name' members' isBufferBlock' =>
    have hmembers := congrArg (fun decl => decl.members.length) hbare
    simp only [TypeDecl.bare, TypeDecl.members, List.length_map] at hmembers
    exact ⟨name', members', isBufferBlock', hd', hmembers⟩
  | _ => cases hbare

theorem opens (h : g.Reannotates g') {b : Bool} {inner : Ident} (hopens : g.Opens id b inner) :
    g'.Opens id b inner := by
  cases hopens with
  | sized hid =>
    refine .sized fun e stride hd => ?_
    obtain ⟨stride', hd'⟩ := h.symm.runtimeArray hd
    exact hid e stride' hd'
  | unsized hid =>
    obtain ⟨stride', hd'⟩ := h.runtimeArray hid
    exact .unsized hd'

theorem nests (h : g.Reannotates g') {lengths : List Ident} {core : Ident}
    (hnests : g.Nests id lengths core) : g'.Nests id lengths core := by
  induction hnests with
  | core hid =>
    refine .core fun e l stride hd => ?_
    obtain ⟨stride', hd'⟩ := h.symm.array hd
    exact hid e l stride' hd'
  | array hid _ ih =>
    obtain ⟨stride', hd'⟩ := h.array hid
    exact .array hd' ih

/-- The type without dimensions is declared under the same ID. -/
theorem core (h : g.Reannotates g') (hcore : g.Core id type) : g'.Core id type := by
  obtain ⟨v, storage, pointee, b, inner, lengths, hv, hpointer, hopens, hnests⟩ := hcore
  exact ⟨v, storage, pointee, b, inner, lengths, h.globals ▸ hv, h.pointer hpointer,
    h.opens hopens, h.nests hnests⟩

end Reannotates

/-! ## What takes a right away -/

/-- A right on the contents of a variable is taken away: by a decoration of the variable, or by
decorations of all members of the block, of which there are some. -/
def Takes (g : Graph) (id : Ident) (right : Right) : Prop :=
  g.annotations.hasDecoration id none right.decoration = true ∨
    ∃ block name members isBufferBlock, g.Core id block ∧
      g.types.get? block = some (.struct name members isBufferBlock) ∧ members ≠ [] ∧
      ∀ k < members.length,
        g.annotations.hasDecoration block (some (UInt32.ofNat k)) right.decoration = true

/-- Both rights are taken away. -/
def TakesBoth (g : Graph) (id : Ident) : Prop := ∀ right, g.Takes id right

/-- One of the rights is taken away. -/
def TakesOne (g : Graph) (id : Ident) : Prop := (∃ right, g.Takes id right) ∧ ¬g.TakesBoth id

/-- **What has been taken away stays so** when decorations are added. -/
theorem Redecorated.takes {kinds : List Word} (h : Redecorated kinds words words')
    (hg : ofWords words = .ok g) (hg' : ofWords words' = .ok g') (htakes : g.Takes id right) :
    g'.Takes id right := by
  rcases htakes with hvariable | ⟨block, name, members, isBufferBlock, hcore, hblock, hne, hall⟩
  · exact .inl (h.hasDecoration hg hg' hvariable)
  · have hsame := h.reannotates hg hg'
    obtain ⟨name', members', isBufferBlock', hblock', hlength⟩ := hsame.struct hblock
    refine .inr ⟨block, name', members', isBufferBlock', hsame.core hcore, hblock', ?_, ?_⟩
    · rw [← List.length_pos_iff, hlength]
      exact List.length_pos_iff.mpr hne
    · intro k hk
      rw [hlength] at hk
      exact h.hasDecoration hg hg' (hall k hk)

/-! ## The rights that are left -/

/-- What is taken away from a member is said by its decorations. -/
theorem lacks_of_ofWords (h : ofWords words = .ok g) {name : Option String}
    {members : List MemberDecl} {isBufferBlock : Bool}
    (hget : g.types.get? id = some (.struct name members isBufferBlock)) {k : Nat} {m : MemberDecl}
    (hm : members[k]? = some m) (right : Right) : m.lacks right =
      g.annotations.hasDecoration id (some (UInt32.ofNat k)) right.decoration := by
  obtain ⟨header, body, d, order, -, -, -, -, rfl⟩ := ofWords_eq_ok_iff.mp h
  have hget : d.annotatedTypes.get? id = some (.struct name members isBufferBlock) := hget
  rw [Draft.annotatedTypes, Table.get?_mapWithKey] at hget
  obtain ⟨decl, -, hget⟩ := Option.map_eq_some_iff.mp hget
  cases decl with
  | struct name' declared isBufferBlock' =>
    cases hget
    rw [List.getElem?_mapIdx] at hm
    obtain ⟨m', -, rfl⟩ := Option.map_eq_some_iff.mp hm
    cases right <;> rfl
  | _ => cases hget

/-- Whether a right is taken away, given the members of the block. -/
def taken (g : Graph) (id : Ident) (members : List MemberDecl) (right : Right) : Bool :=
  g.annotations.hasDecoration id none right.decoration ||
    (!members.isEmpty && members.all (·.lacks right))

theorem taken_iff (h : ofWords words = .ok g) (hcore : g.Core id type) {decl : TypeDecl}
    (hdecl : g.types.get? type = some decl) :
    g.taken id decl.members right = true ↔ g.Takes id right := by
  have hall : ∀ {name members isBufferBlock},
      g.types.get? type = some (.struct name members isBufferBlock) →
      (members.all (·.lacks right) = true ↔ ∀ k < members.length,
        g.annotations.hasDecoration type (some (UInt32.ofNat k)) right.decoration = true) := by
    intro name members isBufferBlock hget
    rw [List.all_eq_true, List.forall_mem_iff_getElem]
    refine forall₂_congr fun k hk => ?_
    rw [lacks_of_ofWords h hget (List.getElem?_eq_getElem hk)]
  unfold taken Takes
  rw [Bool.or_eq_true, Bool.and_eq_true, Bool.not_eq_true', List.isEmpty_eq_false_iff]
  refine or_congr_right ?_
  constructor
  · rintro ⟨hne, hmembers⟩
    cases decl with
    | struct name members isBufferBlock =>
      exact ⟨type, name, members, isBufferBlock, hcore, hdecl, hne, (hall hdecl).mp hmembers⟩
    | _ => exact absurd rfl hne
  · rintro ⟨block, name, members, isBufferBlock, hcore', hblock, hne, hmembers⟩
    obtain rfl := hcore.unique hcore'
    rw [hdecl, Option.some.injEq] at hblock
    subst hblock
    exact ⟨hne, (hall hdecl).mpr hmembers⟩

/-- A descriptor that tells the access to its contents tells that of its variable. -/
theorem access?_of_descriptorKind? {storage : StorageClass} {isCombined : Bool} {decl : TypeDecl}
    {kind : DescriptorKind} {a : Access}
    (h : descriptorKind? g id storage isCombined decl = .ok (some kind))
    (ha : kind.access? = some a) : a = g.accessOf id decl.members := by
  cases decl with
  | struct name members isBufferBlock =>
    unfold descriptorKind? at h
    dsimp only at h
    split at h
    · cases h
      cases ha
      rfl
    · cases h
      cases ha
  | image unit form =>
    obtain ⟨kind', h, heq⟩ := map_eq_ok_iff.mp h
    cases heq
    unfold imageDescriptorKind at h
    split at h
    · split at h <;> cases h
      cases ha
    · cases h
      cases ha
      rfl
    · cases h
      cases ha
      rfl
    · cases h
      cases ha
    · cases h
      split at ha <;> cases ha
  | sampledImage image =>
    obtain ⟨decl, -, h⟩ := bind_eq_ok_iff.mp h
    split at h <;> (cases h; cases ha)
  | _ =>
    cases h <;> cases ha

/-- **The access of a variable** consists of the rights that are not taken away, or of both if both
are. -/
theorem grants_accessOf_iff (h : ofWords words = .ok g) (hcore : g.Core id type) {decl : TypeDecl}
    (hdecl : g.types.get? type = some decl) : (g.accessOf id decl.members).grants right = true ↔
      ¬g.Takes id right ∨ g.TakesBoth id := by
  have htaken := Access.grants_ofDecorations?_iff (g.taken id decl.members) right
  simp only [taken_iff h hcore hdecl] at htaken
  exact htaken

end Graph

/-! ## The rights that are reported -/

namespace Source

variable {s : Source} {pairing : Pairing} {id : Ident} {v : Variable} {right : Right}

theorem exists_core_of_coreType (hs : s.Ordered) (hg : s.graph.Closed)
    (hv : s.graph.globals.get? id = some v) {decl : TypeDecl} (h : s.coreType v = .ok decl) :
    ∃ type, s.graph.Core id type ∧ s.graph.types.get? type = some decl := by
  obtain ⟨pointee, hpointee, h⟩ := bind_eq_ok_iff.mp h
  obtain ⟨u, hu, h⟩ := bind_eq_ok_iff.mp h
  obtain ⟨storage, hpointer⟩ := Graph.pointee_eq_ok hpointee
  obtain ⟨inner, lengths, hopens, hnests, -⟩ := opens_and_nests_of_unwrap hs hg hu
  exact ⟨u.type, ⟨v, storage, pointee, u.isUnbounded, inner, lengths, hv, hpointer, hopens, hnests⟩,
    Graph.type_eq_ok_iff.mp h⟩

/-- The descriptor of a variable tells the access of the variable, if it tells one. -/
theorem grants_of_resourceTrees (hs : s.Ordered) {words : List Word}
    (hgraph : Graph.ofWords words = .ok s.graph)
    {item : List (Descriptor TypeTree) × List (PushConstant TypeTree)}
    (h : s.resourceTrees pairing id = .ok item) {d : Descriptor TypeTree} (hd : d ∈ item.1)
    {a : Access} (ha : d.kind.access? = some a) :
    a.grants right = true ↔ ¬s.graph.Takes id right ∨ s.graph.TakesBoth id := by
  obtain ⟨v, hv, h⟩ := bind_eq_ok_iff.mp h
  have hv := Graph.globalVar_eq_ok_iff.mp (liftM_fault_eq_ok_iff.mp hv)
  split at h
  · obtain ⟨p, -, h⟩ := bind_eq_ok_iff.mp h
    cases h
    cases hd
  · obtain ⟨d?, hd?, h⟩ := bind_eq_ok_iff.mp h
    cases h
    rcases descriptorTree_eq_ok hd? with ⟨-, rfl⟩ | ⟨-, decl, kind?, hcore, hkind, heq⟩
    · cases hd
    · rw [Option.mem_toList] at hd
      rw [hd, Option.map_some, eq_comm, Option.map_eq_some_iff] at heq
      obtain ⟨kind, rfl, heq⟩ := heq
      simp only [Prod.mk.injEq] at heq
      obtain ⟨-, rfl, -⟩ := heq
      obtain ⟨type, htype, hdecl⟩ :=
        exists_core_of_coreType hs (Graph.closed_of_ofWords hgraph) hv hcore
      rw [Graph.access?_of_descriptorKind? hkind ha]
      exact Graph.grants_accessOf_iff hgraph htype hdecl

end Source

/-- A reflection tells the access to the contents of a variable. -/
def Reflection.TellsAccess (r : Reflection) (id : Ident) (a : Access) : Prop :=
  ∃ x ∈ r.entryPoints, ∃ d ∈ x.descriptors, d.id = id ∧ d.kind.access? = some a

instance (r : Reflection) (id : Ident) (a : Access) : Decidable (r.TellsAccess id a) :=
  inferInstanceAs (Decidable (∃ x ∈ r.entryPoints, ∃ d ∈ x.descriptors, _))

namespace Config

variable {c c' : Config} {r r' : Reflection} {words words' : List Word} {g : Graph} {id : Ident}
  {a a' : Access}

/-- **The rights that are reported** are those that are not taken away, or both if both are. -/
theorem grants_iff (h : c.reflect.result = .ok r) (hwords : c.words = .ok words)
    (hgraph : Graph.ofWords words = .ok g) (ha : r.TellsAccess id a) (right : Right) :
    a.grants right = true ↔ ¬g.Takes id right ∨ g.TakesBoth id := by
  obtain ⟨s, p, hr⟩ := exists_madeOf h
  obtain ⟨hs, hgraph'⟩ := hr.source_and_ofWords hwords
  obtain rfl : s.graph = g := Except.ok.inj (hgraph'.symm.trans hgraph)
  obtain ⟨x, hx, d, hd, hid, haccess⟩ := ha
  obtain ⟨e, -, reach, pairing, htree⟩ := hr.exists_assembleTree hx
  have hmem : (d.id, d.kind) ∈ (x.map p.arena.tree).descriptors.map fun d => (d.id, d.kind) := by
    simp only [EntryPoint.map, List.map_map]
    exact List.mem_map_of_mem (f := fun d : Descriptor TypeIdx => (d.id, d.kind)) hd
  obtain ⟨id', -, item, hitem, d', hd', heq⟩ :=
    (Source.mem_map_descriptors_assembleTree (fun _ _ => rfl) htree).mp hmem
  simp only [Prod.mk.injEq] at heq
  obtain ⟨hid', hkind⟩ := heq
  rw [← hkind] at haccess
  obtain rfl : id' = id := by rw [← Source.id_of_mem_resourceTrees hitem hd', hid', hid]
  exact Source.grants_of_resourceTrees (source_ordered hs) hgraph hitem hd' haccess

/-- **Decorations only take rights away, with one exception.** Decorations that take rights away are
added to a binary, in any number and of any variables and members. A right that is then reported for
a resource was reported before, unless one of the rights had been taken away before and both are
now: then both rights are reported, where one was before. So a variable that is decorated as not
writable is reported with a right to write exactly if the right to read is taken away too. -/
theorem reflect_redecorated (h : c.reflect.result = .ok r) (h' : c'.reflect.result = .ok r')
    (hwords : c.words = .ok words) (hwords' : c'.words = .ok words')
    (hadded : Graph.Redecorated [Decoration.nonWritable, Decoration.nonReadable] words words')
    (ha : r.TellsAccess id a) (ha' : r'.TellsAccess id a') :
    ∃ g g', Graph.ofWords words = .ok g ∧ Graph.ofWords words' = .ok g' ∧
      (¬(g.TakesOne id ∧ g'.TakesBoth id) →
        ∀ right, a'.grants right = true → a.grants right = true) ∧
      (g.TakesOne id ∧ g'.TakesBoth id → a ≠ .readWrite ∧ a' = .readWrite) ∧
      (g'.annotations.hasDecoration id none Decoration.nonWritable = true →
        (a'.canWrite = true ↔ g'.Takes id .read)) := by
  obtain ⟨s, p, hr⟩ := exists_madeOf h
  obtain ⟨s', p', hr'⟩ := exists_madeOf h'
  have hg : Graph.ofWords words = .ok s.graph := (hr.source_and_ofWords hwords).2
  have hg' : Graph.ofWords words' = .ok s'.graph := (hr'.source_and_ofWords hwords').2
  have hbefore := grants_iff h hwords hg ha
  have hafter := grants_iff h' hwords' hg' ha'
  have hmono : ∀ right, s.graph.Takes id right → s'.graph.Takes id right :=
    fun _ => hadded.takes hg hg'
  refine ⟨s.graph, s'.graph, hg, hg', fun hnot right hright => ?_,
    fun ⟨⟨⟨right, htakes⟩, hone⟩, hboth⟩ => ?_, fun hdecoration => ?_⟩
  · rw [hbefore]
    by_cases hright' : s.graph.TakesBoth id
    · exact .inr hright'
    · rcases (hafter right).mp hright with hleft | hboth
      · exact .inl fun htakes => hleft (hmono right htakes)
      · -- Nothing had been taken away, since one right alone had not.
        exact .inl fun htakes => hnot ⟨⟨⟨right, htakes⟩, hright'⟩, hboth⟩
  · refine ⟨fun heq => ?_, Access.eq_readWrite_iff.mpr fun right => (hafter right).mpr (.inr hboth)⟩
    rcases (hbefore right).mp (Access.eq_readWrite_iff.mp heq right) with hleft | hall
    · exact hleft htakes
    · exact hone hall
  · have hwrite : s'.graph.Takes id .write := .inl hdecoration
    have hgrants : a'.canWrite = true ↔ ¬s'.graph.Takes id .write ∨ s'.graph.TakesBoth id :=
      hafter .write
    rw [hgrants, or_iff_right (not_not_intro hwrite)]
    constructor
    · exact fun hboth => hboth .read
    · rintro hread (_ | _)
      · exact hread
      · exact hwrite

/-- The instructions of a binary with a storage buffer, variable 20. Its block, type 9, has two
members. Some decorations are given. -/
def accessBody (decorations : List Instruction) : List Instruction :=
  ⟨15, [5, 2, 0x61]⟩ :: decorations ++
  [⟨71, [9, 2]⟩, ⟨72, [9, 0, 35, 0]⟩, ⟨72, [9, 1, 35, 4]⟩, ⟨71, [20, 34, 0]⟩, ⟨71, [20, 33, 0]⟩,
    ⟨19, [3]⟩, ⟨33, [4, 3]⟩, ⟨21, [6, 32, 0]⟩, ⟨30, [9, 6, 6]⟩, ⟨32, [12, 12, 9]⟩,
    ⟨59, [12, 20, 12]⟩, ⟨54, [3, 2, 0, 4]⟩, ⟨61, [9, 21, 20]⟩, ⟨56, []⟩]

/-- The binary with a storage buffer. -/
def accessWords (decorations : List Instruction) : List Word :=
  [magicNumber, 0x10300, 0, 64, 0] ++ (accessBody decorations).flatMap Instruction.words

/-- The reflection of the binary with a storage buffer. -/
def accessConfig (decorations : List Instruction) : Config where
  binary := some (accessWords decorations)

theorem instructions_accessWords {decorations : List Instruction}
    (h : ∀ i ∈ accessBody decorations, i.Encodable) :
    Graph.instructions (accessWords decorations) = accessBody decorations := by
  have hcut : Instruction.cut ((accessBody decorations).flatMap Instruction.words ++ []) = _ :=
    Instruction.cut_flatMap_words h nofun
  rw [List.append_nil] at hcut
  exact congrArg Prod.fst hcut

set_option maxRecDepth 100000 in
/-- The first member is not writable. When the second one is not either, the right to write is gone
and the right to read is still there. -/
theorem sample_reflect_redecorated : ∃ r r' g g',
    (accessConfig [⟨72, [9, 0, 24]⟩]).reflect.result = .ok r ∧
    (accessConfig [⟨72, [9, 1, 24]⟩, ⟨72, [9, 0, 24]⟩]).reflect.result = .ok r' ∧
    Graph.Redecorated [Decoration.nonWritable, Decoration.nonReadable]
      (accessWords [⟨72, [9, 0, 24]⟩]) (accessWords [⟨72, [9, 1, 24]⟩, ⟨72, [9, 0, 24]⟩]) ∧
    r.TellsAccess 20 .readWrite ∧ r'.TellsAccess 20 .readOnly ∧
    Graph.ofWords (accessWords [⟨72, [9, 0, 24]⟩]) = .ok g ∧
    Graph.ofWords (accessWords [⟨72, [9, 1, 24]⟩, ⟨72, [9, 0, 24]⟩]) = .ok g' ∧
    ¬g'.TakesBoth 20 ∧
    ∀ right, Access.readOnly.grants right = true → Access.readWrite.grants right = true := by
  obtain ⟨r, hr, ha⟩ := exists_eq_ok_of_any
    (x := (accessConfig [⟨72, [9, 0, 24]⟩]).reflect.result)
    (p := fun r => r.TellsAccess 20 .readWrite) (by decide +kernel)
  obtain ⟨r', hr', ha'⟩ := exists_eq_ok_of_any
    (x := (accessConfig [⟨72, [9, 1, 24]⟩, ⟨72, [9, 0, 24]⟩]).reflect.result)
    (p := fun r => r.TellsAccess 20 .readOnly) (by decide +kernel)
  have ha := of_decide_eq_true ha
  have ha' := of_decide_eq_true ha'
  have hadded : Graph.Redecorated [Decoration.nonWritable, Decoration.nonReadable]
      (accessWords [⟨72, [9, 0, 24]⟩]) (accessWords [⟨72, [9, 1, 24]⟩, ⟨72, [9, 0, 24]⟩]) := by
    refine ⟨rfl, ?_⟩
    rw [instructions_accessWords (by decide), instructions_accessWords (by decide)]
    exact .keep _ (.member 9 1 (by decide) [] (.refl _))
  obtain ⟨g, g', hg, hg', hnarrows, -, -⟩ := reflect_redecorated hr hr' rfl rfl hadded ha ha'
  have hboth : ¬g'.TakesBoth 20 := by
    intro hboth
    cases (grants_iff hr' rfl hg' ha' .write).mpr (.inr hboth)
  exact ⟨r, r', g, g', hr, hr', hadded, ha, ha', hg, hg', hboth,
    hnarrows fun hexception => hboth hexception.2⟩

set_option maxRecDepth 100000 in
/-- The variable is not writable, and is reported with a right to read alone. When it is not
readable either, it is reported with both rights. -/
theorem sample_right_given_back : ∃ r r',
    (accessConfig [⟨71, [20, 24]⟩]).reflect.result = .ok r ∧
    (accessConfig [⟨71, [20, 25]⟩, ⟨71, [20, 24]⟩]).reflect.result = .ok r' ∧
    Graph.Redecorated [Decoration.nonWritable, Decoration.nonReadable]
      (accessWords [⟨71, [20, 24]⟩]) (accessWords [⟨71, [20, 25]⟩, ⟨71, [20, 24]⟩]) ∧
    r.TellsAccess 20 .readOnly ∧ r'.TellsAccess 20 .readWrite ∧
    Access.readOnly.grants .write = false ∧ Access.readWrite.grants .write = true := by
  obtain ⟨r, hr, ha⟩ := exists_eq_ok_of_any
    (x := (accessConfig [⟨71, [20, 24]⟩]).reflect.result)
    (p := fun r => r.TellsAccess 20 .readOnly) (by decide +kernel)
  obtain ⟨r', hr', ha'⟩ := exists_eq_ok_of_any
    (x := (accessConfig [⟨71, [20, 25]⟩, ⟨71, [20, 24]⟩]).reflect.result)
    (p := fun r => r.TellsAccess 20 .readWrite) (by decide +kernel)
  refine ⟨r, r', hr, hr', ⟨rfl, ?_⟩, of_decide_eq_true ha, of_decide_eq_true ha', rfl, rfl⟩
  rw [instructions_accessWords (by decide), instructions_accessWords (by decide)]
  exact .keep _ (.entity 20 (by decide) [] (.refl _))

end Config

end ShaderReflect
