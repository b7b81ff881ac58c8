import Mathlib.Data.List.Fold
import ShaderReflect.Proofs.ArrayLengths
import ShaderReflect.Proofs.Attribution
import ShaderReflect.Proofs.Erasure
import ShaderReflect.Proofs.Layout.Stored
import ShaderReflect.Proofs.Preorder

/-!
# Parts stay inside

The size of a type is computed from those of the types that it is built from, and the offsets of
parts are added up on the way down. Both fit together where layouts are *tidy*: all members of a
struct have offsets, and the elements of an array have a stride that they fit into. Then a part of a
tidy type does not reach beyond the end of the type, and neither do its own parts.

* `Source.steps_memberSized`: a member has the size of its type, unless that is a matrix.
* `Reflection.Tidy.part_fits`: a part of a tidy type fits into it.
* `Walk.exists_take_of_tidy`: so do all parts that a walk yields.
* `Config.reflect_contained`: the parts of blocks of push constants.

Specification, 4.6 (push constants) and member walks. Members may overlap and may be declared in any
order; tidiness asks for neither. Matrices are where the two disagree: a member that is a matrix
takes the stride that is declared for it, its type only what its columns take, so of such a part
only the start is told. Nor does a part without a known size, such as an array of unknown length at
the end, reach anywhere.
-/

namespace ShaderReflect

open Bounded

/-! ## Sizes of members -/

namespace Source

variable {s : Source} {a b : Arena} {i : TypeIdx}

/-- Members have the sizes of their types, matrices apart. -/
def MemberSized (a : Arena) : Prop :=
  ∀ (k : TypeIdx) (name : Option String) (ms : List (MemberDesc TypeIdx)),
    a.keys[k]? = some (.struct name ms) → ∀ m ∈ ms, m.type < k →
      (∀ column n, a.desc? m.type ≠ some (.matrix column n)) → m.size = a.size? m.type

theorem memberSize_eq_size? (h : ∀ column n, a.desc? i ≠ some (.matrix column n))
    (m : MemberDecl) : memberSize a i m = a.size? i := by
  unfold memberSize
  split
  · rename_i column n stride hdesc hstride
    exact absurd hdesc (h column n)
  · rfl

theorem Admits.members_size {key : TypeDesc TypeIdx} (h : s.Admits a key)
    {ms : List (MemberDesc TypeIdx)} (hms : key.members? = some ms) :
    ∀ m ∈ ms, ∃ decl, m.size = memberSize a m.type decl := by
  obtain ⟨id, name, decls, isBufferBlock, -, hdescs⟩ := h.exists_struct_decl hms
  obtain ⟨places, -, hdescs⟩ := bind_eq_ok_iff.mp hdescs
  cases hdescs
  intro m hm
  obtain ⟨x, -, rfl⟩ := List.mem_map.mp hm
  exact ⟨_, rfl⟩

/-- **Every step of an arena** leaves members with the sizes of their types. -/
theorem steps_memberSized (h : s.Steps a b) (ha : MemberSized a) : MemberSized b := by
  refine h.invariant ha fun a b ha hstep => ?_
  cases hstep with
  | place id i => exact ha
  | intern hk hi =>
    rcases Arena.intern_cases hi with ⟨rfl, -⟩ | ⟨-, -, e, names, rfl, -, -, rfl⟩
    · exact ha
    · intro k name ms hkey m hm hlt hmatrix
      rw [Arena.keys_append] at hkey
      have hinside : m.type < a.entries.length := by
        have hlength := (List.getElem?_eq_some_iff.mp hkey).1
        rw [List.length_append, List.length_singleton, Arena.keys, List.length_map] at hlength
        exact Nat.lt_of_lt_of_le hlt (Nat.le_of_lt_succ hlength)
      have hsame : (a.entries ++ [e])[m.type]? = a.entries[m.type]? :=
        List.getElem?_append_left hinside
      have hmatrix : ∀ column n, a.desc? m.type ≠ some (.matrix column n) := by
        intro column n
        have hne := hmatrix column n
        rwa [Arena.desc?, hsame] at hne
      rw [Arena.size?, hsame]
      show m.size = a.size? m.type
      by_cases hold : k < a.keys.length
      · rw [List.getElem?_append_left hold] at hkey
        exact ha k name ms hkey m hm hlt hmatrix
      · have hnew : e.key = .struct name ms := by
          rw [List.getElem?_append_right (Nat.le_of_not_lt hold), List.getElem?_singleton] at hkey
          split at hkey
          · exact Option.some.inj hkey
          · cases hkey
        rw [hnew] at hk
        obtain ⟨decl, hsize⟩ := hk.members_size rfl m hm
        rw [hsize, memberSize_eq_size? hmatrix]

/-- The blocks of an entry point are structs that are written out, and have their sizes. -/
theorem tree_of_mem_pushConstants {e : EntryPointDecl} {reach : Reach} {pairing : Pairing}
    {x : EntryPoint TypeTree} (h : s.assembleTree e reach pairing = .ok x)
    {b : PushConstant TypeTree} (hb : b ∈ x.pushConstants) : b.size = b.type.size? ∧
      b.type.members?.isSome ∧ ∃ pointee, s.tree pointee = .ok b.type := by
  obtain ⟨items, hitems, -, -, hblocks⟩ := exists_items_assembleTree h
  have hmem := List.mem_map_of_mem (f := fun b : PushConstant TypeTree => (b.type, b.size)) hb
  rw [hblocks _ _ fun _ _ => rfl] at hmem
  obtain ⟨b', hb', hsame⟩ := List.mem_map.mp hmem
  obtain ⟨item, hitem, hb'⟩ := List.mem_flatMap.mp hb'
  obtain ⟨id, -, hitem⟩ := (mem_iff_of_mapM_eq_ok hitems).mp hitem
  obtain ⟨v, hb'⟩ := exists_pushConstantTree_of_mem hitem hb'
  have htree := (pushConstantTree_eq_ok hb').2
  obtain ⟨htype, hsize⟩ := Prod.mk.inj hsame
  rwa [htype, hsize] at htree

end Source

/-! ## Tidy layouts -/

section

variable {τ : Type}

/-- All members of a struct have offsets; the elements of an array with a length have a stride that
they fit into, as far as they have a size. -/
def TypeDesc.Tidy (size : τ → Option Nat) : TypeDesc τ → Prop
  | .struct _ ms => ∀ m ∈ ms, m.offset.isSome
  | .array element _ stride => ∃ k ∈ stride, ∀ n ∈ size element, n ≤ k
  | _ => True

instance (size : τ → Option Nat) : (desc : TypeDesc τ) → Decidable (desc.Tidy size)
  | .struct _ ms => inferInstanceAs (Decidable (∀ m ∈ ms, m.offset.isSome))
  | .array element _ stride =>
    inferInstanceAs (Decidable (∃ k ∈ stride, ∀ n ∈ size element, n ≤ k))
  | .void | .bool | .int _ _ | .float _ | .vector _ _ | .matrix _ _ | .runtimeArray _ _
  | .pointer _ _ | .deviceAddress | .image _ _ | .sampler | .combinedImageSampler _
  | .accelStruct => .isTrue trivial

end

namespace Reflection

variable {r : Reflection} {i : TypeIdx}

/-- The size of the type at a place. -/
def size? (r : Reflection) (i : TypeIdx) : Option Nat := (r.tree i).size?

/-- Whether a type is a struct, or an array with a length. -/
def isComposite (r : Reflection) (i : TypeIdx) : Bool :=
  match r.type? i with
  | some (.struct _ _) | some (.array _ _ _) => true
  | _ => false

theorem isComposite_of_mem_parts {p : Part} (hp : p ∈ r.parts i) : r.isComposite i = true := by
  obtain ⟨desc, hi, hpart⟩ := mem_parts_iff.mp hp
  rw [isComposite, hi]
  cases hpart <;> rfl

/-- The members of structs that are composite have the sizes of their types. -/
def MemberSized (r : Reflection) : Prop := ∀ desc ∈ r.types, ∀ ms ∈ desc.members?, ∀ m ∈ ms,
  r.isComposite m.type = true → m.size = r.size? m.type

/-- The layout of the type at a place is tidy. -/
def Tidy (r : Reflection) (i : TypeIdx) : Prop := ∀ desc ∈ r.type? i, desc.Tidy r.size?

instance (r : Reflection) (i : TypeIdx) : Decidable (r.Tidy i) :=
  inferInstanceAs (Decidable (∀ desc ∈ r.type? i, desc.Tidy r.size?))

theorem size?_eq (hr : ShaderReflect.Grounded r.types) {desc : TypeDesc TypeIdx}
    (hi : r.type? i = some desc) : r.size? i = (TypeTree.node (desc.map r.tree)).size? := by
  rw [size?, tree, TypeTree.ofDescs_eq hr hi]

/-- The size of a struct whose members have offsets is the end of the furthest one. -/
theorem size?_struct (hr : ShaderReflect.Grounded r.types) {name : Option String}
    {ms : List (MemberDesc TypeIdx)} (hi : r.type? i = some (.struct name ms))
    (hoffsets : ∀ m ∈ ms, m.offset.isSome) :
    r.size? i = some ((ms.map fun m => m.slot.stop).foldr max 0) := by
  have hslots : (ms.map (·.map r.tree)).map MemberDesc.slot = ms.map MemberDesc.slot := by
    rw [List.map_map]
    rfl
  have hall : (ms.map MemberDesc.slot).all (·.offset.isSome) = true := by
    rw [List.all_map, List.all_eq_true]
    exact hoffsets
  rw [size?_eq hr hi, TypeDesc.map, TypeTree.size?, TypeTree.structSize?_eq, hslots,
    Slot.structSize?, if_pos hall, List.map_map, List.foldl_eq_foldr]
  rfl

/-- A tidy struct has a size below the ceiling, if all numbers on the way to the size are. -/
theorem Tidy.exists_struct_size (hr : ShaderReflect.Grounded r.types) (h : r.Tidy i)
    {name : Option String} {ms : List (MemberDesc TypeIdx)}
    (hi : r.type? i = some (.struct name ms))
    (hn : ∀ n ∈ Slot.numbers (ms.map MemberDesc.slot), n < sizeCeiling) :
    ∃ size < sizeCeiling, r.size? i = some size := by
  have hoffsets : ∀ m ∈ ms, m.offset.isSome := h _ hi
  have hall : (ms.map MemberDesc.slot).all (·.offset.isSome) = true := by
    rw [List.all_map, List.all_eq_true]
    exact hoffsets
  rw [Slot.numbers, if_pos hall, List.map_map] at hn
  refine ⟨_, ?_, size?_struct hr hi hoffsets⟩
  exact List.foldrRecOn (motive := (· < sizeCeiling)) _ max (by decide)
    fun n hlt stop hstop => max_lt (hn stop hstop) hlt

/-- A tidy type that is composite has a size. -/
theorem Tidy.exists_size (hr : ShaderReflect.Grounded r.types) (h : r.Tidy i)
    (hi : r.isComposite i = true) : ∃ n, r.size? i = some n := by
  unfold isComposite at hi
  split at hi
  · rename_i name ms hdesc
    exact ⟨_, size?_struct hr hdesc (h _ hdesc)⟩
  · rename_i element length stride hdesc
    obtain ⟨k, rfl, -⟩ := h _ hdesc
    rw [size?_eq hr hdesc]
    exact ⟨_, rfl⟩
  · cases hi

/-- A part that starts at an offset does not reach beyond the end of the whole, as far as it has a
size. -/
def Fits (r : Reflection) (size : Nat) (offset : Option Nat) (type : TypeIdx) : Prop :=
  ∃ o ≤ size, offset = some o ∧ (r.isComposite type = true → ∀ n ∈ r.size? type, o + n ≤ size)

/-- **A part of a tidy type fits into it.** -/
theorem Tidy.part_fits (hr : ShaderReflect.Grounded r.types) (hm : r.MemberSized) (h : r.Tidy i)
    {size : Nat} (hsize : r.size? i = some size) {p : Part} (hp : p ∈ r.parts i) :
    r.Fits size p.offset p.type := by
  obtain ⟨desc, hi, hpart⟩ := mem_parts_iff.mp hp
  cases hpart with
  | @member name ms n hn =>
    have hmem := List.getElem_mem hn
    have hoffsets : ∀ m ∈ ms, m.offset.isSome := h _ hi
    obtain ⟨o, ho⟩ := Option.isSome_iff_exists.mp (hoffsets _ hmem)
    have hend : ms[n].slot.stop ≤ size := by
      rw [size?_struct hr hi hoffsets, Option.some.injEq] at hsize
      rw [← hsize]
      exact List.le_max_of_le' 0 (List.mem_map_of_mem (f := fun m => m.slot.stop) hmem)
        (Nat.le_refl _)
    rw [MemberDesc.slot, Slot.stop, ho, Option.getD_some] at hend
    refine ⟨o, by omega, ho, fun hcomposite k hk => ?_⟩
    rw [hm _ (List.mem_of_getElem? hi) ms rfl _ hmem hcomposite, hk, Option.getD_some] at hend
    exact hend
  | @element element length stride n hn =>
    obtain ⟨k, rfl, hfits⟩ := h _ hi
    have htotal : k * length.toNat = size := by
      rw [size?_eq hr hi] at hsize
      exact Option.some.inj hsize
    have hnext : k * n + k ≤ size := by
      rw [← htotal, ← Nat.mul_succ]
      exact Nat.mul_le_mul_left k hn
    refine ⟨k * n, by omega, rfl, fun _ m hm => ?_⟩
    have hle := hfits m hm
    omega

/-- What fits into a part fits into the whole. -/
theorem Fits.extend (hr : ShaderReflect.Grounded r.types) (hm : r.MemberSized) {size : Nat}
    {t : Trail} (h : r.Fits size t.offset t.type) (ht : r.Tidy t.type) {p : Part}
    (hp : p ∈ r.parts t.type) : r.Fits size (t.extend p).offset (t.extend p).type := by
  obtain ⟨o, ho, hoffset, hinside⟩ := h
  have hcomposite : r.isComposite t.type = true := isComposite_of_mem_parts hp
  obtain ⟨n, hn⟩ := ht.exists_size hr hcomposite
  have hend := hinside hcomposite n hn
  obtain ⟨q, hq, hrelative, hpart⟩ := ht.part_fits hr hm hn hp
  refine ⟨o + q, by omega, ?_, fun hc m hm => ?_⟩
  · rw [Trail.extend, hoffset, hrelative]
    rfl
  · have hle := hpart hc m hm
    omega

/-- A route leads to a part that does not start beyond the end of the whole; a composite part has a
size, and does not reach beyond it either. -/
def Contains (r : Reflection) (size : Nat) (route : Route) : Prop :=
  ∃ o ≤ size, route.offset = some o ∧
    (r.isComposite route.type = true → ∃ n, r.size? route.type = some n ∧ o + n ≤ size)

theorem Fits.contains (hr : ShaderReflect.Grounded r.types) {size : Nat} {t : Trail}
    (h : r.Fits size t.offset t.type) (ht : r.Tidy t.type) : r.Contains size t.route := by
  obtain ⟨o, ho, hoffset, hinside⟩ := h
  refine ⟨o, ho, hoffset, fun hcomposite => ?_⟩
  obtain ⟨n, hn⟩ := ht.exists_size hr hcomposite
  exact ⟨n, hn, hinside hcomposite n hn⟩

end Reflection

/-! ## Walks -/

namespace Walk

variable {r : Reflection} {w : List (Trail × Nat)}

/-- The types of all parts that a walk yields are tidy. -/
def Tidy (r : Reflection) (w : Walk) : Prop :=
  ∀ n routes, take r n w = .ok routes → ∀ route ∈ routes, r.Tidy route.type

/-- What holds of all that a walk yields holds of its next part, and of all that it yields then. -/
theorem Tidy.next {w w' : Walk} {route : Route} (h : Tidy r w)
    (hnext : next? r w = .ok (some (route, w'))) : r.Tidy route.type ∧ Tidy r w' := by
  have htake : ∀ n routes, take r n w' = .ok routes → take r (n + 1) w = .ok (route :: routes) := by
    intro n routes hroutes
    rw [take, hnext, ok_bind]
    dsimp only
    rw [hroutes]
    rfl
  exact ⟨h 1 _ (htake 0 [] rfl) route List.mem_cons_self,
    fun n routes hroutes x hx => h (n + 1) _ (htake n routes hroutes) x (List.mem_cons_of_mem _ hx)⟩

/-- **A walk over what is tidy can be completed**, and all parts that it yields stay inside. -/
theorem exists_take_of_tidy (hr : ShaderReflect.Grounded r.types) (hw : r.InWords)
    (hl : r.Legible) (hm : r.MemberSized) {size : Nat} (hsize : size < sizeCeiling)
    (hn : ∀ t ∈ w.map Prod.fst, t.Named)
    (hf : ∀ t ∈ w.map Prod.fst, r.Fits size t.offset t.type ∧ r.Tidy t.type)
    (htidy : Tidy r (along w)) (n : Nat) :
    ∃ routes, take r n (along w) = .ok routes ∧ ∀ route ∈ routes, r.Contains size route := by
  induction n generalizing w with
  | zero => exact ⟨[], rfl, fun _ h => absurd h List.not_mem_nil⟩
  | succ n ih =>
    cases advances hr hw hn with
    | atEnd hnext =>
      refine ⟨[], ?_, fun _ h => absurd h List.not_mem_nil⟩
      rw [take, hnext]
      rfl
    | onward t p w' ht hp hnext hpending hleft =>
      have hfits := (hf t ht).1.extend hr hm (hf t ht).2 hp
      have hrange : (t.extend p).InRange := by
        obtain ⟨o, ho, hoffset, -⟩ := hfits
        intro x hx
        rw [hoffset] at hx
        cases hx
        exact Nat.lt_of_le_of_lt ho hsize
      rw [if_pos hrange] at hnext
      obtain ⟨htype, hrest⟩ := htidy.next hnext
      have hnamed := (hn t ht).extend (Reflection.segment_ne_empty hl hp)
      obtain ⟨routes, hroutes, hcontains⟩ := ih (forall_left hleft hnamed hn)
        (forall_left hleft ⟨hfits, htype⟩ hf) hrest
      refine ⟨(t.extend p).route :: routes, ?_,
        List.forall_mem_cons.mpr ⟨hfits.contains hr htype, hcontains⟩⟩
      rw [take, hnext, ok_bind]
      dsimp only
      rw [hroutes]
      rfl

end Walk

/-! ## Blocks of push constants -/

namespace Config

variable {c : Config} {s : Source} {p : Progress} {r : Reflection}

/-- The sizes of reported types are those in the arena. -/
theorem MadeOf.size?_eq (h : c.MadeOf s p r) (i : TypeIdx) :
    r.size? i = (p.arena.tree i).size? := by
  rw [Reflection.size?, ← TypeTree.size?_eraseNames, h.tree_eraseNames, TypeTree.size?_eraseNames]

/-- A struct is reported exactly where one is found by its key, with the same members. -/
theorem MadeOf.exists_struct_iff (h : c.MadeOf s p r) {k : TypeIdx}
    {ms : List (MemberDesc TypeIdx)} : (∃ name, r.type? k = some (.struct name ms)) ↔
      ∃ name, p.arena.keys[k]? = some (.struct name ms) := by
  have htype : r.type? k = p.arena.entries[k]?.map (·.desc) := by
    rw [h.result]
    exact List.getElem?_map
  have hkey : p.arena.keys[k]? = p.arena.entries[k]?.map (·.key) := List.getElem?_map
  rw [htype, hkey]
  cases he : p.arena.entries[k]? with
  | none => simp
  | some e =>
    rcases h.holds.faithful e (List.mem_of_getElem? he) with heq | ⟨-, name, name', ms', hk, hd⟩
    · rw [Option.map_some, Option.map_some, heq]
    · simp [hk, hd]

/-- **The members of reported structs** have the sizes of their types, if these are composite. -/
theorem MadeOf.memberSized (h : c.MadeOf s p r) (hr : ShaderReflect.Grounded r.types) :
    r.MemberSized := by
  have hsized : Source.MemberSized p.arena := Source.steps_memberSized (steps_entryPoints h.run)
    fun k name ms hkey => by cases hkey
  intro desc hdesc ms hms m hm hcomposite
  cases desc with
  | struct name members =>
    cases hms
    obtain ⟨k, hk⟩ := List.mem_iff_getElem?.mp hdesc
    obtain ⟨name', hkey⟩ := h.exists_struct_iff.mp ⟨name, hk⟩
    have hlt : m.type < k := hr k _ hk m.type (List.mem_map_of_mem hm)
    have hinside : m.type < p.arena.entries.length := by
      have hlength := (List.getElem?_eq_some_iff.mp hkey).1
      rw [Arena.keys, List.length_map] at hlength
      exact Nat.lt_trans hlt hlength
    rw [h.size?_eq, ← h.holds.size?_eq hinside]
    refine hsized k name' ms hkey m hm hlt fun column n hmatrix => ?_
    have htype : r.type? m.type = some (.matrix column n) := by
      rw [← hmatrix, h.result]
      exact List.getElem?_map
    rw [Reflection.isComposite, htype] at hcomposite
    cases hcomposite
  | _ => cases hms

/-- **A block of push constants is a struct**, it has the size of that, and all numbers on the way
to the size are below the ceiling. -/
theorem MadeOf.struct_of_mem_pushConstants (h : c.MadeOf s p r) (hr : r.Grounded)
    {x : EntryPoint TypeIdx} (hx : x ∈ r.entryPoints) {b : PushConstant TypeIdx}
    (hb : b ∈ x.pushConstants) : b.size = r.size? b.type ∧ ∃ name ms,
      r.type? b.type = some (.struct name ms) ∧
      ∀ n ∈ Slot.numbers (ms.map MemberDesc.slot), n < sizeCeiling := by
  obtain ⟨words, -, hs⟩ := h.source
  obtain ⟨e, -, reach, pairing, htree⟩ := h.exists_assembleTree hx
  obtain ⟨hsize, hmembers, pointee, hpointee⟩ :=
    Source.tree_of_mem_pushConstants htree (List.mem_map_of_mem (f := (·.map p.arena.tree)) hb)
  obtain ⟨-, desc, -, -, -, ⟨n, hn⟩, hdesc⟩ := Source.tree_eq_ok (source_ordered hs) hpointee
  refine ⟨hsize.trans (h.size?_eq b.type).symm, ?_⟩
  have hlt := hr.entryPoints x hx b.type
    (EntryPoint.mem_refs.mpr (.inr (.inl ⟨b, hb, List.mem_cons_self⟩)))
  rw [h.result, Arena.types, List.length_map] at hlt
  have he := List.getElem?_eq_getElem hlt
  have hnode : p.arena.tree b.type = .node _ := h.holds.tree_eq he
  obtain rfl := TypeTree.node.inj (hdesc.symm.trans hnode)
  cases hkey : p.arena.entries[b.type].key with
  | struct name ms =>
    obtain ⟨name', hname⟩ := h.exists_struct_iff.mpr ⟨name, by
      rw [Arena.keys, List.getElem?_map, he, Option.map_some, hkey]⟩
    rw [hkey] at hn
    have hnumbers := (TypeDesc.exists_structSize_iff _).mp ⟨n, hn⟩
    rw [List.map_map] at hnumbers
    exact ⟨name', ms, hname, hnumbers⟩
  | _ =>
    rw [show (b.map p.arena.tree).type = _ from hdesc, hkey] at hmembers
    cases hmembers

/-- **The parts of a block of push constants stay inside**, if the block and all types that a walk
over it yields are tidy. The block has a size; no part starts beyond its end, and no struct and no
array with a length reaches beyond it, by the size that is also reported of members of such a type.
No offset overflows on the walk. -/
theorem reflect_contained (h : c.reflect.result = .ok r) {x : EntryPoint TypeIdx}
    (hx : x ∈ r.entryPoints) {b : PushConstant TypeIdx} (hb : b ∈ x.pushConstants)
    (htidy : r.Tidy b.type) (hreached : Walk.Tidy r (Walk.start b.type)) :
    r.MemberSized ∧ ∃ size < sizeCeiling, b.size = some size ∧ r.size? b.type = some size ∧
      ∀ n, ∃ routes, Walk.take r n (Walk.start b.type) = .ok routes ∧
        ∀ route ∈ routes, r.Contains size route := by
  have hr := grounded_of_reflect h
  obtain ⟨s, p, hmade⟩ := exists_madeOf h
  have hmembers := hmade.memberSized hr.types
  obtain ⟨hblock, name, ms, hdesc, hnumbers⟩ := hmade.struct_of_mem_pushConstants hr hx hb
  obtain ⟨size, hlt, hsize⟩ := htidy.exists_struct_size hr.types hdesc hnumbers
  have hstart : r.Fits size (Trail.start b.type).offset (Trail.start b.type).type := by
    refine ⟨0, Nat.zero_le _, rfl, fun _ n hn => ?_⟩
    rw [Nat.zero_add]
    exact Nat.le_of_eq (Option.some.inj (hn.symm.trans hsize))
  exact ⟨hmembers, size, hlt, hblock.trans hsize, hsize,
    Walk.exists_take_of_tidy (w := [(.start b.type, 0)]) hr.types (inWords_of_reflect h)
      (legible_of_reflect h) hmembers hlt (List.forall_mem_singleton.mpr (Trail.named_start _))
      (List.forall_mem_singleton.mpr ⟨hstart, htidy⟩) hreached⟩

set_option maxRecDepth 100000 in
/-- In the binary with nested parts, the block takes 24 bytes, and its parts stay inside. -/
theorem sample_reflect_contained : ∃ r, sampleNesting.reflect.result = .ok r ∧
    ∀ n, ∃ routes, Walk.take r n (Walk.start 4) = .ok routes ∧
      ∀ route ∈ routes, r.Contains 24 route := by
  obtain ⟨r, hr, hfacts⟩ := exists_eq_ok_of_any (x := sampleNesting.reflect.result)
    (p := fun r => (∃ x ∈ r.entryPoints, ∃ b ∈ x.pushConstants, b.type = 4 ∧ b.size = some 24) ∧
      r.Tidy 4 ∧ ∀ t ∈ r.trails (.start 4), r.Tidy t.type) (by decide +kernel)
  obtain ⟨⟨x, hx, b, hb, htype, hsize⟩, htidy, hparts⟩ := of_decide_eq_true hfacts
  have hreached : Walk.Tidy r (Walk.start 4) := by
    intro n routes hroutes route hroute
    rw [Walk.take_start (grounded_of_reflect hr).types (inWords_of_reflect hr)
      (legible_of_reflect hr)] at hroutes
    split at hroutes
    · cases hroutes
      obtain ⟨t, ht, rfl⟩ := List.mem_map.mp hroute
      exact hparts t (List.mem_of_mem_take ht)
    · cases hroutes
  rw [← htype] at htidy hreached
  obtain ⟨-, size, -, hblock, -, hinside⟩ := reflect_contained hr hx hb htidy hreached
  obtain rfl := Option.some.inj (hsize.symm.trans hblock)
  exact ⟨r, hr, htype ▸ hinside⟩

end Config

end ShaderReflect
