import ShaderReflect.Proofs.Growth
import ShaderReflect.Proofs.Walk

/-!
# How far parts lie

Offsets and strides are declared by words, but the offsets of nested parts add up. How far the parts
of a type lie from its start at most is `Reflection.farthest`. A complete walk over the type
computes all of these offsets, so it stays below the ceiling exactly if the farthest one does.

* `Config.inWords_of_reflect`: the offsets and strides of reported types are words.
* `Walk.next?_exact` is the step of a walk, `Walk.take_total_iff` the complete walk.

The farthest offset is a natural number without a ceiling. It may be that of a part which a walk
reaches last, or that of a whole whose parts have no offsets.
-/

namespace ShaderReflect

open Bounded

/-! ## Offsets and strides -/

/-- The offsets of members and the stride are words. -/
def TypeDesc.InWords {τ : Type} : TypeDesc τ → Prop
  | .array _ _ stride | .runtimeArray _ stride => ∀ n ∈ stride, n < UInt32.size
  | .struct _ ms => ∀ m ∈ ms, ∀ n ∈ m.offset, n < UInt32.size
  | _ => True

theorem toNat_lt_size_of_mem {word? : Option Word} {n : Nat} (h : n ∈ word?.map UInt32.toNat) :
    n < UInt32.size := by
  obtain ⟨w, -, rfl⟩ := Option.map_eq_some_iff.mp h
  exact UInt32.toNat_lt_size w

/-- What is admitted to the arena has such offsets and strides. -/
theorem Source.Admits.inWords {s : Source} {a : Arena} {key : TypeDesc TypeIdx}
    (h : s.Admits a key) : key.InWords := by
  cases h with
  | combined image => trivial
  | @declared id decl _ _ h =>
    cases decl with
    | array element length stride =>
      obtain ⟨i, -, h⟩ := bind_eq_ok_iff.mp h
      obtain ⟨n, -, h⟩ := bind_eq_ok_iff.mp h
      cases h
      exact fun _ => toNat_lt_size_of_mem
    | runtimeArray element stride =>
      obtain ⟨i, -, h⟩ := bind_eq_ok_iff.mp h
      cases h
      exact fun _ => toNat_lt_size_of_mem
    | struct name ms b =>
      obtain ⟨descs, hdescs, h⟩ := bind_eq_ok_iff.mp h
      obtain ⟨places, -, hdescs⟩ := bind_eq_ok_iff.mp hdescs
      cases h
      cases hdescs
      intro m hm n hn
      obtain ⟨x, -, rfl⟩ := List.mem_map.mp hm
      exact toNat_lt_size_of_mem hn
    | vector o | matrix o | image o | sampledImage o | pointer _ o =>
      obtain ⟨i, -, h⟩ := bind_eq_ok_iff.mp h
      cases h
      trivial
    | unreported => cases h
    | _ =>
      cases h
      trivial

/-- The offsets and strides of a reflection are words. -/
def Reflection.InWords (r : Reflection) : Prop := ∀ desc ∈ r.types, desc.InWords

theorem Config.inWords_of_reflect {c : Config} {r : Reflection} (h : c.reflect.result = .ok r) :
    r.InWords := by
  obtain ⟨s, p, hr⟩ := exists_madeOf h
  exact hr.forall_types (fun _ _ hk => hk.inWords) fun _ _ _ h => h

/-! ## The farthest part -/

/-- How far the parts of a part lie at most, counted from the start of the whole; nothing is counted
if the part has no offset. -/
def reachOf (farthest : TypeIdx → Nat) (offset : Option Nat) (type : TypeIdx) : Nat :=
  offset.elim 0 (· + farthest type)

/-- Later elements of an array lie further. -/
theorem reachOf_element_mono (farthest : TypeIdx → Nat) (stride : Option Nat) (element : TypeIdx)
    {n m : Nat} (h : n ≤ m) : reachOf farthest (stride.map (· * n)) element ≤
      reachOf farthest (stride.map (· * m)) element := by
  cases stride with
  | none => exact Nat.le_refl 0
  | some k => exact Nat.add_le_add_right (Nat.mul_le_mul_left k h) _

namespace Reflection

variable {r : Reflection} {i : TypeIdx} {n : Nat}

/-- How far the visited parts of a type lie from its start at most, given that for the types that it
refers to. -/
def farthestOf (desc : TypeDesc TypeIdx) (farthest : TypeIdx → Nat) : Nat :=
  match desc with
  | .struct _ members => (members.map fun m => reachOf farthest m.offset m.type).foldr max 0
  | .array element length stride =>
    if 0 < length.toNat then reachOf farthest (stride.map (· * (length.toNat - 1))) element else 0
  | _ => 0

/-- How far the visited parts of the type at a place lie from its start at most. -/
def farthest (r : Reflection) : TypeIdx → Nat := unfolded farthestOf (fun _ => 0) r.types

/-- How far the visited parts of a type from number `n` on lie from its start at most. -/
def farthestFrom (r : Reflection) (i : TypeIdx) (n : Nat) : Nat :=
  match r.type? i with
  | some (.struct _ members) =>
    ((members.drop n).map fun m => reachOf r.farthest m.offset m.type).foldr max 0
  | some (.array element length stride) =>
    if n < length.toNat then reachOf r.farthest (stride.map (· * (length.toNat - 1))) element else 0
  | _ => 0

theorem farthestOf_congr (desc : TypeDesc TypeIdx) (f g : TypeIdx → Nat)
    (h : ∀ i ∈ desc.refs, f i = g i) : farthestOf desc f = farthestOf desc g := by
  cases desc with
  | struct name members =>
    have hm : (members.map fun m => reachOf f m.offset m.type) =
        members.map fun m => reachOf g m.offset m.type :=
      List.map_congr_left fun m hm => by
        rw [reachOf, reachOf, h m.type (List.mem_map_of_mem (f := MemberDesc.type) hm)]
    rw [farthestOf, farthestOf, hm]
  | array element length stride =>
    rw [farthestOf, farthestOf, reachOf, reachOf, h element List.mem_cons_self]
  | _ => rfl

theorem farthest_eq_from_zero (hr : ShaderReflect.Grounded r.types) (i : TypeIdx) :
    r.farthest i = r.farthestFrom i 0 := by
  unfold farthestFrom type?
  cases hi : r.types[i]? with
  | none =>
    have hlength := length_unfoldAll farthestOf (fun _ => 0) r.types
    rw [farthest, unfolded, List.getElem?_eq_none, Option.getD_none]
    rw [hlength]
    exact List.getElem?_eq_none_iff.mp hi
  | some desc =>
    rw [farthest, unfolded_eq farthestOf_congr hr hi]
    cases desc <;> rfl

theorem farthestFrom_zero_of_hasParts (h : r.hasParts i = false) : r.farthestFrom i 0 = 0 := by
  unfold hasParts at h
  unfold farthestFrom
  cases hi : r.type? i with
  | none => rfl
  | some desc =>
    rw [hi] at h
    cases desc with
    | struct name members =>
      cases members with
      | nil => rfl
      | cons m ms => cases h
    | array element length stride => exact if_neg (of_decide_eq_false h)
    | _ => rfl

/-- The start of an element that is visited is below the ceiling. -/
theorem elementOffset_of_lt {stride : Option Nat} (hs : ∀ k ∈ stride, k < UInt32.size)
    (hn : n < UInt32.size) : Route.elementOffset stride n = .ok (stride.map (· * n)) := by
  cases stride with
  | none => rfl
  | some k =>
    have hlt : k * n < sizeCeiling := Nat.mul_lt_mul'' (hs k rfl) hn
    show some <$> mul sizeCeiling k n = _
    rw [mul_eq_ok_iff.mpr ⟨hlt, rfl⟩]
    rfl

/-- **A part that is visited** can be told, and from it on the farthest part is that part, one in
it, or a later one. -/
theorem part?_exact (hw : r.InWords) (i : TypeIdx) (n : Nat) :
    r.part? i n = .ok none ∧ r.farthestFrom i n = 0 ∨ ∃ p, r.part? i n = .ok (some p) ∧
      r.farthestFrom i n = max (reachOf r.farthest p.offset p.type) (r.farthestFrom i (n + 1)) := by
  unfold part?
  cases hi : r.type? i with
  | none => exact .inl ⟨rfl, by rw [farthestFrom, hi]⟩
  | some desc =>
    cases desc with
    | struct name members =>
      have hfrom : ∀ k, r.farthestFrom i k =
          ((members.drop k).map fun m => reachOf r.farthest m.offset m.type).foldr max 0 :=
        fun k => by rw [farthestFrom, hi]
      cases hm : members[n]? with
      | none =>
        rw [hfrom, List.drop_eq_nil_of_le (List.getElem?_eq_none_iff.mp hm)]
        exact .inl ⟨by simp only [hm, Option.map_none], rfl⟩
      | some m =>
        obtain ⟨hn, rfl⟩ := List.getElem?_eq_some_iff.mp hm
        rw [hfrom n, hfrom (n + 1), List.drop_eq_getElem_cons hn]
        exact .inr ⟨_, by simp only [hm, Option.map_some]; rfl, rfl⟩
    | array element length stride =>
      have hfrom : ∀ k, r.farthestFrom i k = if k < length.toNat then
          reachOf r.farthest (stride.map (· * (length.toNat - 1))) element else 0 :=
        fun k => by rw [farthestFrom, hi]
      dsimp only
      by_cases hn : n < length.toNat
      · have hs : ∀ k ∈ stride, k < UInt32.size := hw _ (List.mem_of_getElem? hi)
        rw [if_pos hn, elementOffset_of_lt hs (Nat.lt_trans hn (UInt32.toNat_lt_size length)),
          hfrom, hfrom, if_pos hn]
        refine .inr ⟨_, rfl, ?_⟩
        -- The last element is the farthest one.
        split
        · exact (max_eq_right (reachOf_element_mono _ _ _ (by omega))).symm
        · have hlast : n = length.toNat - 1 := by omega
          rw [hlast, Nat.max_zero]
      · rw [if_neg hn, hfrom, if_neg hn]
        exact .inl ⟨rfl, rfl⟩
    | _ => exact .inl ⟨rfl, by rw [farthestFrom, hi]⟩

end Reflection

/-! ## Complete walks -/

/-- Going on to a part: its start lies beyond the ceiling, or it is the sum of both starts. -/
theorem Route.extend_cases (route : Route) (p : Part) :
    (∃ e, route.extend p = .error e) ∧
      (∃ o ∈ route.offset, ∃ q ∈ p.offset, sizeCeiling ≤ o + q) ∨
    ∃ route', route.extend p = .ok route' ∧ route'.type = p.type ∧
      (∀ x ∈ route'.offset, x < sizeCeiling) ∧
      ∀ x, x ∈ route'.offset ↔ ∃ o ∈ route.offset, ∃ q ∈ p.offset, o + q = x := by
  obtain ⟨path, offset, type⟩ := route
  obtain ⟨segment, relative, type'⟩ := p
  cases offset with
  | none => exact .inr ⟨_, rfl, rfl, by simp, by simp⟩
  | some o =>
    cases relative with
    | none => exact .inr ⟨_, rfl, rfl, by simp, by simp⟩
    | some q =>
      by_cases h : o + q < sizeCeiling
      · refine .inr ⟨⟨join path segment, some (o + q), type'⟩, ?_, rfl, by simpa using h, by simp⟩
        have hadd : add sizeCeiling o q = .ok (o + q) := add_eq_ok_iff.mpr ⟨h, rfl⟩
        simp only [extend, joinOffset, add?, hadd, map_ok, ok_bind, pure_eq_ok]
      · refine .inl ⟨⟨.addition, ?_⟩, o, rfl, q, rfl, Nat.le_of_not_lt h⟩
        have hadd : add sizeCeiling o q = .error .addition := if_neg h
        simp only [extend, joinOffset, add?, hadd]
        rfl

namespace Walk

variable {r : Reflection} {w outer : Walk} {frame : Frame}

/-- The offsets of the wholes that are being visited are below the ceiling. -/
def Valid (w : Walk) : Prop := ∀ frame ∈ w, ∀ o ∈ frame.route.offset, o < sizeCeiling

/-- So are the offsets of all parts that are still to be visited. -/
def Fits (r : Reflection) (w : Walk) : Prop :=
  ∀ frame ∈ w, ∀ o ∈ frame.route.offset,
    o + r.farthestFrom frame.route.type frame.next < sizeCeiling

theorem valid_cons :
    Valid (frame :: outer) ↔ (∀ o ∈ frame.route.offset, o < sizeCeiling) ∧ outer.Valid :=
  List.forall_mem_cons

theorem fits_cons : Fits r (frame :: outer) ↔
    (∀ o ∈ frame.route.offset, o + r.farthestFrom frame.route.type frame.next < sizeCeiling) ∧
      Fits r outer :=
  List.forall_mem_cons

/-- A whole fits from a part on exactly if the part fits, should it have an offset, and the whole
does from the next part on. -/
theorem fits_frame {offset relative offset' : Option Nat} (rest far : Nat)
    (hsum : ∀ x, x ∈ offset' ↔ ∃ o ∈ offset, ∃ q ∈ relative, o + q = x) :
    (∀ o ∈ offset, o + max (relative.elim 0 (· + far)) rest < sizeCeiling) ↔
      (∀ x ∈ offset', x + far < sizeCeiling) ∧ ∀ o ∈ offset, o + rest < sizeCeiling := by
  simp only [hsum]
  cases offset with
  | none => simp
  | some o =>
    cases relative with
    | none => simp
    | some q =>
      simp only [Option.mem_def, Option.some.injEq, forall_eq', Option.elim_some, exists_eq_left']
      omega

/-- **A step of a walk**: the walk is at its end; or the next part lies beyond the ceiling; or it
does not, and what is left fits as before. -/
theorem next?_exact (hr : ShaderReflect.Grounded r.types) (hw : r.InWords) (hv : w.Valid) :
    next? r w = .ok none ∧ Fits r w ∨
    (∃ e, next? r w = .error e) ∧ ¬ Fits r w ∨
    ∃ route w', next? r w = .ok (some (route, w')) ∧ w'.Valid ∧ (Fits r w ↔ Fits r w') := by
  induction w with
  | nil => exact .inl ⟨rfl, fun _ h => absurd h List.not_mem_nil⟩
  | cons frame outer ih =>
    rw [valid_cons] at hv
    unfold next?
    rcases Reflection.part?_exact hw frame.route.type frame.next with
      ⟨hnone, hzero⟩ | ⟨p, hp, hfar⟩
    · have hsame : Fits r (frame :: outer) ↔ Fits r outer := by
        rw [fits_cons, hzero]
        exact and_iff_right hv.1
      rw [hnone, ok_bind, hsame]
      exact ih hv.2
    · have hfits : Fits r (frame :: outer) ↔ _ := fits_cons
      rw [hfar] at hfits
      rw [hp, ok_bind]
      refine .inr ?_
      rcases frame.route.extend_cases p with
        ⟨⟨e, he⟩, o, ho, q, hq, hle⟩ | ⟨route, hroute, htype, hbelow, hsum⟩
      · refine .inl ⟨⟨e, by simp only [he, error_bind]⟩, fun h => ?_⟩
        have hlt := (hfits.mp h).1 o ho
        rw [reachOf, Option.mem_def.mp hq, Option.elim_some] at hlt
        omega
      · have hframe := fits_frame (r.farthestFrom frame.route.type (frame.next + 1))
          (r.farthest p.type) hsum
        rw [reachOf] at hfits
        rw [hframe, and_assoc] at hfits
        refine .inr ⟨route, _, by simp only [hroute, ok_bind]; rfl, ?_⟩
        have hfar' : r.farthest p.type = r.farthestFrom route.type 0 := by
          rw [htype, Reflection.farthest_eq_from_zero hr]
        cases hparts : r.hasParts route.type with
        | true =>
          refine ⟨valid_cons.mpr ⟨hbelow, valid_cons.mpr hv⟩, ?_⟩
          rw [hfits, hfar', if_pos rfl, fits_cons, fits_cons]
        | false =>
          refine ⟨valid_cons.mpr hv, ?_⟩
          rw [hfits, hfar', Reflection.farthestFrom_zero_of_hasParts hparts, if_neg (by simp),
            fits_cons]
          exact and_iff_right hbelow

/-- **Complete walks** stay below the ceiling exactly if all that is left to be visited does. -/
theorem take_total_iff (hr : ShaderReflect.Grounded r.types) (hw : r.InWords) (hv : w.Valid) :
    (∀ n, ∃ routes, take r n w = .ok routes) ↔ Fits r w := by
  induction hleft : left r w using Nat.strongRecOn generalizing w with
  | ind k ih =>
    rcases next?_exact hr hw hv with ⟨hnone, hfits⟩ | ⟨⟨e, he⟩, hfits⟩ |
      ⟨route, w', hnext, hv', hfits⟩
    · refine iff_of_true (fun n => ⟨[], ?_⟩) hfits
      cases n with
      | zero => rfl
      | succ n =>
        unfold take
        rw [hnone]
        rfl
    · refine iff_of_false (fun h => ?_) hfits
      obtain ⟨routes, hroutes⟩ := h 1
      unfold take at hroutes
      rw [he] at hroutes
      cases hroutes
    · have hless : left r w' < k := by
        rcases next?_cases hr w with h | ⟨-, ⟨e, h⟩ | ⟨_, _, h, -, hless⟩⟩
        · rw [h] at hnext
          cases hnext
        · rw [h] at hnext
          cases hnext
        · rw [h] at hnext
          cases hnext
          exact hleft ▸ hless
      rw [hfits, ← ih _ hless hv' rfl]
      have hsucc : ∀ n, take r (n + 1) w = (do return route :: (← take r n w')) := fun n => by
        rw [take, hnext]
        rfl
      constructor
      · intro h n
        obtain ⟨routes, hroutes⟩ := h (n + 1)
        rw [hsucc] at hroutes
        obtain ⟨rest, hrest, -⟩ := bind_eq_ok_iff.mp hroutes
        exact ⟨rest, hrest⟩
      · intro h n
        cases n with
        | zero => exact ⟨[], rfl⟩
        | succ n =>
          obtain ⟨rest, hrest⟩ := h n
          exact ⟨route :: rest, by rw [hsucc, hrest]; rfl⟩

/-- A complete walk over a type stays below the ceiling exactly if its farthest part does. -/
theorem take_start_total_iff (hr : ShaderReflect.Grounded r.types) (hw : r.InWords) (i : TypeIdx) :
    (∀ n, ∃ routes, take r n (start i) = .ok routes) ↔ r.farthest i < sizeCeiling := by
  have hv : (start i).Valid := by
    refine List.forall_mem_singleton.mpr fun o ho => ?_
    cases ho
    decide
  rw [take_total_iff hr hw hv, Reflection.farthest_eq_from_zero hr]
  simp only [Fits, start, Route.start, List.forall_mem_singleton, Option.mem_def, Option.some.injEq,
    forall_eq', Nat.zero_add]

end Walk

end ShaderReflect
