import ShaderReflect.Proofs.Declared.Members
import ShaderReflect.Proofs.Queries

/-!
# Walks are in pre-order

A walk keeps a stack of the wholes that it is in, and computes one route after the other. The order
in which it visits the parts of a type has a recursive definition, which knows of no stack: each
part in turn, followed by all parts of that part (`Reflection.trails_eq`). What is still to come in
a walk is what this definition gives for the wholes on its stack (`Reflection.pending`).

* `Trail` is a route with the names on the way one by one, and with an offset that has no ceiling.
* `Walk.advances` is the step of a walk, `Walk.take_along` the run.
* `Config.reflect_preorder`: walks over the types of a reflection.

Specification, member walks. A walk is lazy: it computes the offset of a part when it comes to it,
so a part that lies beyond the ceiling does not keep earlier parts from being visited. Nothing is
visited below vectors, matrices, pointers and arrays of unknown length.
-/

namespace ShaderReflect

open Bounded

/-! ## Parts -/

/-- The parts of a type that are visited, in order: the members of a struct, or the elements of an
array with a length. -/
def TypeDesc.parts : TypeDesc TypeIdx → List Part
  | .struct _ members => members.mapIdx fun n m =>
    { segment := m.name.getD (toString n), offset := m.offset, type := m.type }
  | .array element length stride => (List.range length.toNat).map fun n =>
    { segment := toString n, offset := stride.map (· * n), type := element }
  | _ => []

/-- A part is a member of a struct, or an element of an array with a length. -/
inductive TypeDesc.HasPart : TypeDesc TypeIdx → Part → Prop
  | member {name : Option String} {ms : List (MemberDesc TypeIdx)} (n : Nat) (hn : n < ms.length) :
    HasPart (.struct name ms)
      { segment := ms[n].name.getD (toString n), offset := ms[n].offset, type := ms[n].type }
  | element {element : TypeIdx} {length : Word} {stride : Option Nat} (n : Nat)
    (hn : n < length.toNat) : HasPart (.array element length stride)
      { segment := toString n, offset := stride.map (· * n), type := element }

theorem TypeDesc.mem_parts_iff {desc : TypeDesc TypeIdx} {p : Part} :
    p ∈ desc.parts ↔ desc.HasPart p := by
  constructor
  · intro hp
    cases desc with
    | struct name ms =>
      obtain ⟨n, hn, rfl⟩ := List.mem_mapIdx.mp hp
      exact .member n hn
    | array element length stride =>
      obtain ⟨n, hn, rfl⟩ := List.mem_map.mp hp
      exact .element n (List.mem_range.mp hn)
    | _ => cases hp
  · rintro (⟨n, hn⟩ | ⟨n, hn⟩)
    · exact List.mem_mapIdx.mpr ⟨n, hn, rfl⟩
    · exact List.mem_map_of_mem (List.mem_range.mpr hn)

namespace TypeDesc.HasPart

variable {desc : TypeDesc TypeIdx} {p : Part}

/-- A part is of a type that is referred to. -/
theorem type_mem_refs (h : desc.HasPart p) : p.type ∈ desc.refs := by
  cases h with
  | member n hn => exact List.mem_map_of_mem (List.getElem_mem hn)
  | element n hn => exact List.mem_cons_self

/-- The name of a part is not empty. -/
theorem segment_ne_empty (h : desc.HasPart p) (hl : desc.Legible) : p.segment ≠ "" := by
  cases h with
  | @member name ms n hn =>
    cases hm : ms[n].name with
    | none => exact Nat.repr_ne_empty
    | some text =>
      rintro rfl
      exact hl.named ms rfl _ (List.getElem_mem hn) hm
  | element n hn => exact Nat.repr_ne_empty

end TypeDesc.HasPart

namespace Reflection

variable {r : Reflection} {i : TypeIdx}

/-- The parts of the type at a place that are visited, in order. -/
def parts (r : Reflection) (i : TypeIdx) : List Part := ((r.type? i).map TypeDesc.parts).getD []

/-- The names of members are not empty, and there are not too many of them. -/
def Legible (r : Reflection) : Prop := ∀ desc ∈ r.types, desc.Legible

theorem parts_eq {desc : TypeDesc TypeIdx} (hi : r.type? i = some desc) :
    r.parts i = desc.parts := by
  rw [parts, hi]
  rfl

theorem parts_eq_nil (hi : r.type? i = none) : r.parts i = [] := by
  rw [parts, hi]
  rfl

theorem mem_parts_iff {p : Part} :
    p ∈ r.parts i ↔ ∃ desc, r.type? i = some desc ∧ desc.HasPart p := by
  cases hi : r.type? i with
  | none => simp [parts_eq_nil hi]
  | some desc => simp [parts_eq hi, TypeDesc.mem_parts_iff]

theorem segment_ne_empty (hl : r.Legible) {p : Part} (hp : p ∈ r.parts i) : p.segment ≠ "" := by
  obtain ⟨desc, hi, hpart⟩ := mem_parts_iff.mp hp
  exact hpart.segment_ne_empty (hl desc (List.mem_of_getElem? hi))

/-- The parts are visited by their numbers. -/
theorem part?_eq (hw : r.InWords) (i : TypeIdx) (n : Nat) : r.part? i n = .ok (r.parts i)[n]? := by
  unfold part?
  cases hi : r.type? i with
  | none => rw [parts_eq_nil hi]; rfl
  | some desc =>
    rw [parts_eq hi]
    cases desc with
    | struct name members =>
      dsimp only [TypeDesc.parts]
      rw [List.getElem?_mapIdx]
    | array element length stride =>
      dsimp only [TypeDesc.parts]
      rw [List.getElem?_map]
      by_cases hn : n < length.toNat
      · have hs : ∀ k ∈ stride, k < UInt32.size := hw _ (List.mem_of_getElem? hi)
        rw [if_pos hn, elementOffset_of_lt hs (Nat.lt_trans hn (UInt32.toNat_lt_size length)),
          List.getElem?_range hn]
        rfl
      · rw [if_neg hn, List.getElem?_eq_none (by rw [List.length_range]; omega)]
        rfl
    | _ => rfl

theorem hasParts_eq (i : TypeIdx) : r.hasParts i = !(r.parts i).isEmpty := by
  unfold hasParts
  cases hi : r.type? i with
  | none => rw [parts_eq_nil hi]; rfl
  | some desc =>
    rw [parts_eq hi]
    cases desc with
    | struct name members =>
      cases members with
      | nil => rfl
      | cons m ms =>
        dsimp only [TypeDesc.parts]
        rw [List.mapIdx_cons]
        rfl
    | array element length stride =>
      dsimp only [TypeDesc.parts]
      cases length.toNat with
      | zero => rfl
      | succ n =>
        rw [List.range_succ_eq_map]
        exact decide_eq_true (Nat.succ_pos n)
    | _ => rfl

end Reflection

/-! ## Trails -/

/-- A way from a type to one of its parts: like a route, but with the names of the parts on the way
one by one, and however far it leads. -/
structure Trail where
  segments : List String
  offset : Option Nat
  type : TypeIdx
deriving DecidableEq, Repr

namespace Trail

/-- The trail from a type to itself. -/
def start (i : TypeIdx) : Trail := { segments := [], offset := some 0, type := i }

/-- The trail to a part of what a trail leads to. -/
def extend (t : Trail) (p : Part) : Trail where
  segments := t.segments ++ [p.segment]
  offset := Route.exactJoin t.offset p.offset
  type := p.type

/-- The route that follows a trail. -/
def route (t : Trail) : Route where
  path := ".".intercalate t.segments
  offset := t.offset
  type := t.type

/-- The trail does not lead beyond the ceiling. -/
def InRange (t : Trail) : Prop := ∀ o ∈ t.offset, o < sizeCeiling

instance (t : Trail) : Decidable t.InRange :=
  inferInstanceAs (Decidable (∀ o ∈ t.offset, o < sizeCeiling))

/-- All parts on the way have names. -/
def Named (t : Trail) : Prop := ∀ segment ∈ t.segments, segment ≠ ""

theorem named_start (i : TypeIdx) : (start i).Named := fun _ h => absurd h List.not_mem_nil

theorem Named.extend {t : Trail} {p : Part} (h : t.Named) (hp : p.segment ≠ "") :
    (t.extend p).Named := List.forall_mem_append.mpr ⟨h, List.forall_mem_singleton.mpr hp⟩

/-- The path of a part is that of the whole, a dot and the name of the part. -/
theorem join_intercalate {segments : List String} (h : ∀ s ∈ segments, s ≠ "") (segment : String) :
    Route.join (".".intercalate segments) segment = ".".intercalate (segments ++ [segment]) := by
  unfold Route.join
  cases segments with
  | nil => rw [String.intercalate_nil, List.nil_append, String.intercalate_singleton]; rfl
  | cons first rest =>
    have hne : ".".intercalate (first :: rest) ≠ "" := by
      rw [List.forall_mem_cons] at h
      cases rest with
      | nil => simpa using h.1
      | cons second rest => simp [String.append_eq_empty_iff]
    rw [if_neg (by simpa using hne), String.intercalate_append_of_ne_nil (by simp) (by simp),
      String.intercalate_singleton]

/-- **To go on along a trail** is possible exactly below the ceiling. -/
theorem extend_route {t : Trail} (h : t.Named) (p : Part) : t.route.extend p =
    if (t.extend p).InRange then .ok (t.extend p).route else .error .addition := by
  have hoffset := Route.joinOffset_eq t.offset p.offset
  have hpath := join_intercalate h p.segment
  unfold Route.extend route
  dsimp only
  rw [hoffset, hpath]
  split
  · rename_i hrange
    exact (if_pos hrange).symm
  · rename_i hrange
    exact (if_neg hrange).symm

end Trail

namespace Reflection

variable {r : Reflection}

/-- The trails to all parts of a type, each followed by those to its own parts, given the latter for
the types that it refers to. -/
def trailsOf (desc : TypeDesc TypeIdx) (trails : TypeIdx → Trail → List Trail) (t : Trail) :
    List Trail := desc.parts.flatMap fun p => t.extend p :: trails p.type (t.extend p)

/-- The trails to all parts of what a trail leads to, in pre-order. -/
def trails (r : Reflection) (t : Trail) : List Trail :=
  unfolded trailsOf (fun _ _ => []) r.types t.type t

theorem trailsOf_congr (desc : TypeDesc TypeIdx) (f g : TypeIdx → Trail → List Trail)
    (h : ∀ i ∈ desc.refs, f i = g i) : trailsOf desc f = trailsOf desc g := by
  funext t
  refine List.flatMap_congr fun p hp => ?_
  rw [h p.type (TypeDesc.mem_parts_iff.mp hp).type_mem_refs]

/-- **Pre-order**: each part in turn, followed by all parts of that part. -/
theorem trails_eq (hr : ShaderReflect.Grounded r.types) (t : Trail) :
    r.trails t = (r.parts t.type).flatMap fun p => t.extend p :: r.trails (t.extend p) := by
  unfold trails
  cases hi : r.types[t.type]? with
  | none =>
    have hlength := length_unfoldAll trailsOf (fun _ _ => []) r.types
    rw [parts_eq_nil hi, unfolded, List.getElem?_eq_none, Option.getD_none]
    · rfl
    · rw [hlength]
      exact List.getElem?_eq_none_iff.mp hi
  | some desc =>
    rw [unfolded_eq trailsOf_congr hr hi, parts_eq hi]
    rfl

theorem mem_trails_iff (hr : ShaderReflect.Grounded r.types) {t t' : Trail} : t' ∈ r.trails t ↔
    ∃ p ∈ r.parts t.type, t' = t.extend p ∨ t' ∈ r.trails (t.extend p) := by
  rw [trails_eq hr t, List.mem_flatMap]
  simp only [List.mem_cons]

end Reflection

/-! ## Walks -/

namespace Reflection

variable {r : Reflection}

/-- The trails to the parts of what a trail leads to from part number `n` on, in pre-order. -/
def trailsFrom (r : Reflection) (t : Trail) (n : Nat) : List Trail :=
  ((r.parts t.type).drop n).flatMap fun p => t.extend p :: r.trails (t.extend p)

/-- The trails to all parts that are still to be visited. -/
def pending (r : Reflection) (w : List (Trail × Nat)) : List Trail :=
  w.flatMap fun x => r.trailsFrom x.1 x.2

theorem trailsFrom_zero (hr : ShaderReflect.Grounded r.types) (t : Trail) :
    r.trailsFrom t 0 = r.trails t := by
  rw [trailsFrom, List.drop_zero, trails_eq hr]

theorem trailsFrom_eq_nil {t : Trail} {n : Nat} (h : (r.parts t.type)[n]? = none) :
    r.trailsFrom t n = [] := by
  rw [trailsFrom, List.drop_eq_nil_of_le (List.getElem?_eq_none_iff.mp h), List.flatMap_nil]

theorem trailsFrom_eq_cons {t : Trail} {n : Nat} {p : Part}
    (h : (r.parts t.type)[n]? = some p) : r.trailsFrom t n =
      t.extend p :: (r.trails (t.extend p) ++ r.trailsFrom t (n + 1)) := by
  obtain ⟨hn, rfl⟩ := List.getElem?_eq_some_iff.mp h
  rw [trailsFrom, List.drop_eq_getElem_cons hn, List.flatMap_cons, List.cons_append]
  rfl

theorem pending_cons (t : Trail) (n : Nat) (w : List (Trail × Nat)) :
    r.pending ((t, n) :: w) = r.trailsFrom t n ++ r.pending w := List.flatMap_cons

end Reflection

namespace Walk

variable {r : Reflection} {w : List (Trail × Nat)}

/-- The walk that is under way in wholes that are given by trails. -/
def along (w : List (Trail × Nat)) : Walk := w.map fun x => ⟨x.1.route, x.2⟩

/-- Go into what a trail leads to, if it has parts. -/
def enter (r : Reflection) (t : Trail) (w : List (Trail × Nat)) : List (Trail × Nat) :=
  if r.hasParts t.type then (t, 0) :: w else w

theorem along_enter (t : Trail) (w : List (Trail × Nat)) : along (enter r t w) =
    if r.hasParts t.type then ⟨t.route, 0⟩ :: along w else along w := by
  unfold enter
  split <;> rfl

theorem pending_enter (hr : ShaderReflect.Grounded r.types) (t : Trail) (w : List (Trail × Nat)) :
    r.pending (enter r t w) = r.trails t ++ r.pending w := by
  unfold enter
  cases hparts : r.hasParts t.type with
  | true => rw [if_pos rfl, Reflection.pending_cons, Reflection.trailsFrom_zero hr]
  | false =>
    rw [Reflection.hasParts_eq, Bool.not_eq_false', List.isEmpty_iff] at hparts
    rw [if_neg Bool.false_ne_true, Reflection.trails_eq hr, hparts, List.flatMap_nil,
      List.nil_append]

theorem mem_of_mem_enter {t : Trail} {y : Trail × Nat} (hy : y ∈ enter r t w) :
    y.1 = t ∨ y ∈ w := by
  unfold enter at hy
  split at hy
  · rcases List.mem_cons.mp hy with rfl | hy
    · exact .inl rfl
    · exact .inr hy
  · exact .inr hy

/-- What a step does to a walk: it is at its end, with nothing to come; or it goes on from a whole
to a part, which is the first of what is to come, and leaves the others. -/
inductive Advances (r : Reflection) (w : List (Trail × Nat)) : Prop
  | atEnd (hnext : next? r (along w) = .ok none) (hpending : r.pending w = [])
  | onward (t : Trail) (p : Part) (w' : List (Trail × Nat)) (ht : t ∈ w.map Prod.fst)
    (hp : p ∈ r.parts t.type)
    (hnext : next? r (along w) = if (t.extend p).InRange then
      .ok (some ((t.extend p).route, along w')) else .error .addition)
    (hpending : r.pending w = t.extend p :: r.pending w')
    (hleft : ∀ t' ∈ w'.map Prod.fst, t' = t.extend p ∨ t' ∈ w.map Prod.fst)

/-- **A step of a walk.** -/
theorem advances (hr : ShaderReflect.Grounded r.types) (hw : r.InWords)
    (hn : ∀ t ∈ w.map Prod.fst, t.Named) : Advances r w := by
  induction w with
  | nil => exact .atEnd rfl rfl
  | cons x outer ih =>
    obtain ⟨t, n⟩ := x
    rw [List.map_cons, List.forall_mem_cons] at hn
    have hpart := Reflection.part?_eq hw t.type n
    have hsplit := Reflection.pending_cons (r := r) t n outer
    cases hp : (r.parts t.type)[n]? with
    | none =>
      -- All parts of the innermost whole have been visited.
      have hnext : next? r (along ((t, n) :: outer)) = next? r (along outer) := by
        show (r.part? t.type n >>= _) = _
        rw [hpart, hp]
        rfl
      rw [Reflection.trailsFrom_eq_nil hp, List.nil_append] at hsplit
      cases ih hn.2 with
      | atEnd h hpending => exact .atEnd (hnext.trans h) (hsplit.trans hpending)
      | onward t' p w' ht' hp h hpending hleft =>
        exact .onward t' p w' (List.mem_cons_of_mem _ ht') hp (hnext.trans h)
          (hsplit.trans hpending) fun y hy => (hleft y hy).imp_right (List.mem_cons_of_mem _)
    | some p =>
      rw [Reflection.trailsFrom_eq_cons hp, List.cons_append, List.append_assoc,
        ← Reflection.pending_cons, ← pending_enter hr] at hsplit
      refine .onward t p (enter r (t.extend p) ((t, n + 1) :: outer)) List.mem_cons_self
        (List.mem_of_getElem? hp) ?_ hsplit fun t' ht' => ?_
      · have hgo := Trail.extend_route hn.1 p
        show (r.part? t.type n >>= _) = _
        rw [hpart, hp, ok_bind]
        dsimp only
        rw [hgo, along_enter]
        split <;> rfl
      · obtain ⟨y, hy, rfl⟩ := List.mem_map.mp ht'
        rcases mem_of_mem_enter hy with h | hy
        · exact .inl h
        · rcases List.mem_cons.mp hy with rfl | hy
          · exact .inr List.mem_cons_self
          · exact .inr (List.mem_cons_of_mem _ (List.mem_map_of_mem hy))

/-- What a walk that has come to a part leaves is the same wholes, and the part. -/
theorem forall_left {P : Trail → Prop} {t : Trail} {p : Part} {w' : List (Trail × Nat)}
    (hleft : ∀ t' ∈ w'.map Prod.fst, t' = t.extend p ∨ t' ∈ w.map Prod.fst)
    (hpart : P (t.extend p)) (hw : ∀ t ∈ w.map Prod.fst, P t) : ∀ t ∈ w'.map Prod.fst, P t := by
  intro t' ht'
  rcases hleft t' ht' with rfl | ht'
  · exact hpart
  · exact hw t' ht'

/-- **A walk takes what is to come**, in order, up to the first part beyond the ceiling. -/
theorem take_along (hr : ShaderReflect.Grounded r.types) (hw : r.InWords) (hl : r.Legible)
    (hn : ∀ t ∈ w.map Prod.fst, t.Named) (n : Nat) : take r n (along w) =
      if ∀ t ∈ (r.pending w).take n, t.InRange then .ok (((r.pending w).take n).map Trail.route)
      else .error .addition := by
  induction n generalizing w with
  | zero =>
    rw [List.take_zero, if_pos fun _ h => absurd h List.not_mem_nil]
    rfl
  | succ n ih =>
    unfold take
    cases advances hr hw hn with
    | atEnd hnext hpending =>
      rw [hnext, hpending, List.take_nil, if_pos fun _ h => absurd h List.not_mem_nil]
      rfl
    | onward t p w' ht hp hnext hpending hleft =>
      have hnamed : (t.extend p).Named := (hn t ht).extend (Reflection.segment_ne_empty hl hp)
      have hrest := ih (forall_left hleft hnamed hn)
      rw [hnext, hpending, List.take_succ_cons]
      simp only [List.forall_mem_cons]
      by_cases hrange : (t.extend p).InRange
      · rw [if_pos hrange, ok_bind]
        dsimp only
        rw [hrest]
        by_cases hall : ∀ t ∈ (r.pending w').take n, t.InRange
        · rw [if_pos hall, if_pos ⟨hrange, hall⟩]
          rfl
        · rw [if_neg hall, if_neg fun h => hall h.2]
          rfl
      · rw [if_neg hrange, if_neg fun h => hrange h.1]
        rfl

/-- **A walk over a type** takes all parts in pre-order, up to the first one beyond the ceiling. -/
theorem take_start (hr : ShaderReflect.Grounded r.types) (hw : r.InWords) (hl : r.Legible)
    (i : TypeIdx) (n : Nat) : take r n (start i) =
      if ∀ t ∈ (r.trails (.start i)).take n, t.InRange then
        .ok (((r.trails (.start i)).take n).map Trail.route)
      else .error .addition := by
  have hpending : r.pending [(Trail.start i, 0)] = r.trails (.start i) := by
    rw [Reflection.pending_cons, Reflection.trailsFrom_zero hr]
    exact List.append_nil _
  have hnamed : ∀ t ∈ [(Trail.start i, 0)].map Prod.fst, t.Named :=
    List.forall_mem_singleton.mpr (Trail.named_start i)
  rw [← hpending]
  exact take_along hr hw hl hnamed n

end Walk

namespace Config

variable {c : Config} {r : Reflection}

/-- **Walks are in pre-order.** A walk over a type of a reflection yields each part and then all
parts of that part, as long as none of them lies beyond the ceiling. It ends when all parts have
been visited, and each is visited once. -/
theorem reflect_preorder (h : c.reflect.result = .ok r) :
    (∀ t, r.trails t = (r.parts t.type).flatMap fun p => t.extend p :: r.trails (t.extend p)) ∧
    (∀ i n, Walk.take r n (Walk.start i) =
      if ∀ t ∈ (r.trails (.start i)).take n, t.InRange then
        .ok (((r.trails (.start i)).take n).map Trail.route)
      else .error .addition) ∧
    ∀ i, (∀ n, ∃ routes, Walk.take r n (Walk.start i) = .ok routes) →
      ∀ n, (r.trails (.start i)).length ≤ n →
        Walk.take r n (Walk.start i) = .ok ((r.trails (.start i)).map Trail.route) := by
  have hg := (grounded_of_reflect h).types
  have htake := Walk.take_start hg (inWords_of_reflect h) (legible_of_reflect h)
  refine ⟨Reflection.trails_eq hg, htake, fun i htotal n hn => ?_⟩
  obtain ⟨routes, hroutes⟩ := htotal n
  rw [htake, List.take_of_length_le hn] at hroutes ⊢
  split at hroutes
  · rename_i hrange
    exact if_pos hrange
  · cases hroutes

/-- The instructions of a binary with a block of push constants, of a number, an array of two pairs
that has no name, and an array without a length. -/
def sampleNestingBody : List Instruction := [
  ⟨15, [4, 1, 0x61]⟩,
  ⟨6, [8, 0, 0x78]⟩, ⟨6, [8, 1, 0x79]⟩, ⟨6, [11, 0, 0x6c616373, 0x65]⟩, ⟨6, [11, 2, 0x6c696174, 0]⟩,
  ⟨71, [9, 6, 8]⟩, ⟨71, [10, 6, 4]⟩, ⟨72, [8, 0, 35, 0]⟩, ⟨72, [8, 1, 35, 4]⟩,
  ⟨72, [11, 0, 35, 0]⟩, ⟨72, [11, 1, 35, 8]⟩, ⟨72, [11, 2, 35, 24]⟩,
  ⟨19, [3]⟩, ⟨33, [4, 3]⟩, ⟨22, [5, 32]⟩, ⟨21, [6, 32, 0]⟩, ⟨43, [6, 7, 2]⟩,
  ⟨30, [8, 5, 5]⟩, ⟨28, [9, 8, 7]⟩, ⟨29, [10, 5]⟩, ⟨30, [11, 5, 9, 10]⟩, ⟨32, [12, 9, 11]⟩,
  ⟨59, [12, 13, 9]⟩,
  ⟨54, [3, 1, 0, 4]⟩, ⟨61, [11, 20, 13]⟩, ⟨56, []⟩]

/-- The reflection of the binary with nested parts. -/
def sampleNesting : Config where
  binary := some ([magicNumber, 0x10300, 0, 64, 0] ++ sampleNestingBody.flatMap Instruction.words)

set_option maxRecDepth 100000 in
/-- The walk over the block of push constants ends after nine parts. -/
theorem sample_reflect_preorder : ∃ r, sampleNesting.reflect.result = .ok r ∧
    r.entryPoints.map (·.pushConstants.map (·.type)) = [[4]] ∧
    ∀ n, 9 ≤ n → ∃ routes, Walk.take r n (Walk.start 4) = .ok routes ∧
      routes.map (fun route => (route.path, route.offset)) =
        [("scale", some 0), ("1", some 8), ("1.0", some 8), ("1.0.x", some 8), ("1.0.y", some 12),
          ("1.1", some 16), ("1.1.x", some 16), ("1.1.y", some 20), ("tail", some 24)] := by
  obtain ⟨r, hr, hfacts⟩ := exists_eq_ok_of_any (x := sampleNesting.reflect.result)
    (p := fun r => r.entryPoints.map (·.pushConstants.map (·.type)) = [[4]] ∧
      (∀ t ∈ r.trails (.start 4), t.InRange) ∧
      ((r.trails (.start 4)).map Trail.route).map (fun route => (route.path, route.offset)) =
        [("scale", some 0), ("1", some 8), ("1.0", some 8), ("1.0.x", some 8), ("1.0.y", some 12),
          ("1.1", some 16), ("1.1.x", some 16), ("1.1.y", some 20), ("tail", some 24)])
    (by decide +kernel)
  obtain ⟨hblocks, hrange, hroutes⟩ := of_decide_eq_true hfacts
  obtain ⟨-, htake, hend⟩ := reflect_preorder hr
  have htotal : ∀ n, ∃ routes, Walk.take r n (Walk.start 4) = .ok routes := fun n =>
    ⟨_, (htake 4 n).trans (if_pos fun t ht => hrange t (List.mem_of_mem_take ht))⟩
  have hlength : (r.trails (.start 4)).length = 9 := by
    have h := congrArg List.length hroutes
    rwa [List.length_map, List.length_map] at h
  exact ⟨r, hr, hblocks, fun n hn => ⟨_, hend 4 htotal n (hlength ▸ hn), hroutes⟩⟩

end Config

end ShaderReflect
