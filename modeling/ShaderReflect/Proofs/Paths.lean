import ShaderReflect.Proofs.Preorder

/-!
# Walks and paths agree

A walk makes the path of each part by joining names with dots, and a path is looked up by taking it
apart at the dots and finding the part for each name. If the names of the members of each struct are
distinct and hold no dots, each is undone by the other: what a walk yields is found under its path
(`Walk.route?_of_mem_take`). A look-up accepts more, such as an index with leading zeros or the
index of a member with a name, but it finds nothing that a walk does not yield, unless it goes into
an array without a length (`Reflection.exists_trail_of_follow?`).

* `Route.index?_toString`, `Route.segments_intercalate`: texts that are read back.
* `Reflection.partNamed?_of_mem_parts`: the part that a name was made for is found.
* `Config.reflect_paths`: walks and paths of a reflection.

Specification, member walks. The assumption on names (`Reflection.Plain`) is needed in both
directions: a name with a dot is taken apart, and of two members with one name the first is found. A
member without a name goes by its index, which must not be the name of another member. Unique names
are distinct, but may hold dots, as a binary may.
-/

namespace ShaderReflect

open Bounded

/-! ## Texts -/

namespace Text

variable {limit n : Nat} {c : Char} {cs : List Char}

theorem digit?_eq (h : c.isDigit = true) : digit? c = some (c.toNat - '0'.toNat) := by
  have hbounds : '0' ≤ c ∧ c ≤ '9' := by
    rw [Char.isDigit, Bool.and_eq_true, decide_eq_true_eq, decide_eq_true_eq] at h
    exact h
  rw [digit?, if_pos hbounds]

theorem le_ofDigitChars (cs : List Char) (n : Nat) : n ≤ Nat.ofDigitChars 10 cs n := by
  induction cs generalizing n with
  | nil => rw [Nat.ofDigitChars_nil]
  | cons c cs ih =>
    rw [Nat.ofDigitChars_cons]
    have hle := ih (10 * n + (c.toNat - '0'.toNat))
    omega

/-- Digits are read to the number that they stand for, if that is below the limit. -/
theorem digitsBelow?_eq (hcs : ∀ c ∈ cs, c.isDigit = true)
    (hlt : Nat.ofDigitChars 10 cs n < limit) :
    digitsBelow? limit n cs = some (Nat.ofDigitChars 10 cs n) := by
  induction cs generalizing n with
  | nil => rw [digitsBelow?, Nat.ofDigitChars_nil]
  | cons c cs ih =>
    rw [List.forall_mem_cons] at hcs
    rw [Nat.ofDigitChars_cons] at hlt ⊢
    have hhere := le_ofDigitChars cs (10 * n + (c.toNat - '0'.toNat))
    rw [digitsBelow?, digit?_eq hcs.1]
    show (if _ < limit then _ else none) = _
    rw [if_pos (by omega), ih hcs.2 hlt]

/-- **A number is read back** from its digits. -/
theorem readBelow?_toString (h : n < limit) : readBelow? limit (toString n).toList = some n := by
  have hdigits : ∀ c ∈ (toString n).toList, c.isDigit = true := fun c hc => by
    rw [Nat.toString_eq_repr, Nat.toList_repr] at hc
    exact Nat.isDigit_of_mem_toDigits (by decide) (by decide) hc
  have hvalue : Nat.ofDigitChars 10 (toString n).toList 0 = n := by
    rw [Nat.toString_eq_repr, Nat.toList_repr, Nat.ofDigitChars_ten_toDigits]
  have hread : digitsBelow? limit 0 (toString n).toList = some n := by
    rw [digitsBelow?_eq hdigits (by rwa [hvalue]), hvalue]
  cases hcs : (toString n).toList with
  | nil =>
    have hempty : Nat.toDigits 10 n = [] := by rw [← Nat.toList_repr, ← Nat.toString_eq_repr, hcs]
    exact absurd hempty Nat.toDigits_ne_nil
  | cons c cs =>
    rw [hcs] at hdigits hread
    have hplus : c ≠ '+' := by
      rintro rfl
      exact absurd (hdigits '+' List.mem_cons_self) (by decide)
    rw [readBelow?.eq_def]
    split
    · rename_i heq
      cases heq
    · rename_i heq
      cases heq
      exact absurd rfl hplus
    · rename_i heq
      cases heq
      exact absurd rfl hplus
    · exact hread

end Text

namespace Route

theorem index?_toString {n : Nat} (h : n < sizeCeiling) :
    index? (toString n).toList = some n := Text.readBelow?_toString h

theorem dot_not_mem_toString (n : Nat) : '.' ∉ (toString n).toList := by
  intro h
  rw [Nat.toString_eq_repr, Nat.toList_repr] at h
  exact absurd (Nat.isDigit_of_mem_toDigits (by decide) (by decide) h) (by decide)

theorem segments_eq_splitOn (cs : List Char) : segments cs = cs.splitOn '.' := by
  induction cs with
  | nil => rfl
  | cons c cs ih =>
    rw [segments, ih, List.splitOn_cons_eq_if_modifyHead]
    by_cases hc : c = '.'
    · rw [if_pos hc, if_pos (beq_iff_eq.mpr hc)]
    · rw [if_neg hc, if_neg (by simpa using hc)]
      cases hsplit : cs.splitOn '.' with
      | nil => exact absurd hsplit (List.splitOn_ne_nil '.' cs)
      | cons s ss => rfl

/-- **Names joined with dots are taken apart again**, if there are no dots in them. -/
theorem segments_intercalate {names : List String} (hne : names ≠ [])
    (hdots : ∀ s ∈ names, '.' ∉ s.toList) :
    segments (".".intercalate names).toList = names.map String.toList := by
  rw [segments_eq_splitOn, String.toList_intercalate]
  refine List.splitOn_intercalate '.' (List.forall_mem_map.mpr hdots) ?_
  rwa [ne_eq, List.map_eq_nil_iff]

end Route

/-! ## Parts by their names -/

/-- What tells the members of a struct apart in a path: the name of each, or else its index. -/
def memberSegments (ms : List (MemberDesc TypeIdx)) : List String :=
  ms.mapIdx fun n m => m.name.getD (toString n)

namespace Reflection

variable {r : Reflection} {i : TypeIdx}

/-- In each struct, the members are told apart by distinct texts without dots. -/
def Plain (r : Reflection) : Prop := ∀ desc ∈ r.types, ∀ ms ∈ desc.members?,
  (memberSegments ms).Nodup ∧ ∀ s ∈ memberSegments ms, '.' ∉ s.toList

instance (r : Reflection) : Decidable r.Plain :=
  inferInstanceAs (Decidable (∀ desc ∈ r.types, ∀ ms ∈ desc.members?,
    (memberSegments ms).Nodup ∧ ∀ s ∈ memberSegments ms, '.' ∉ s.toList))

/-- A text that tells a member apart leads to that member. No other member has it as a name, and if
the member itself does not, it is the index of the member. -/
theorem named_segment {ms : List (MemberDesc TypeIdx)} (hfew : ms.length < 0x10000)
    (hdistinct : (memberSegments ms).Nodup) {n : Nat} (hn : n < ms.length) {text : String}
    (htext : ms[n].name.getD (toString n) = text) :
    (ms.find? (·.name = some text)).or ((Route.index? text.toList).bind (ms[·]?)) =
      some ms[n] := by
  cases hfind : ms.find? (·.name = some text) with
  | some m =>
    obtain ⟨k, hk, rfl⟩ := List.getElem_of_mem (List.mem_of_find?_eq_some hfind)
    have hfound := List.find?_some hfind
    have hname : ms[k].name = some text := of_decide_eq_true hfound
    have hlength : (memberSegments ms).length = ms.length := List.length_mapIdx
    have hsame : (memberSegments ms)[k] = (memberSegments ms)[n] := by
      simp only [memberSegments, List.getElem_mapIdx, htext, hname, Option.getD_some]
    have hkn : k = n := (hdistinct.getElem_inj_iff).mp hsame
    subst hkn
    rfl
  | none =>
    have hnone : ms[n].name = none := by
      cases hname : ms[n].name with
      | none => rfl
      | some name =>
        rw [hname, Option.getD_some] at htext
        have hother := List.find?_eq_none.mp hfind ms[n] (List.getElem_mem hn)
        exact absurd (decide_eq_true (hname.trans (congrArg some htext))) hother
    rw [hnone, Option.getD_none] at htext
    have hindex := Route.index?_toString (n := n)
      (Nat.lt_trans (Nat.lt_trans hn hfew) (by decide))
    rw [htext] at hindex
    rw [hindex, Option.none_or, Option.bind_some, List.getElem?_eq_getElem hn]

/-- **The part that a name was made for is found.** -/
theorem partNamed?_of_mem_parts (hw : r.InWords) (hl : r.Legible) (hp : r.Plain) {p : Part}
    (hmem : p ∈ r.parts i) : r.partNamed? i p.segment.toList = .ok (some p) := by
  obtain ⟨desc, hi, hpart⟩ := mem_parts_iff.mp hmem
  have hdesc := List.mem_of_getElem? hi
  unfold partNamed?
  rw [hi]
  cases hpart with
  | @member name ms n hn =>
    have hmember := named_segment ((hl _ hdesc).few ms rfl) (hp _ hdesc ms rfl).1 hn rfl
    simp only [String.ofList_toList, hmember]
  | @element element length stride n hn =>
    have hsize := Nat.lt_trans hn (UInt32.toNat_lt_size length)
    have hindex := Route.index?_toString (n := n) (Nat.lt_trans hsize (by decide))
    simp only [String.ofList_toList, hindex, Option.filter_some, decide_eq_true hn, if_true,
      elementOffset_of_lt (hw _ hdesc) hsize]
    rfl

/-- Dots are neither in names nor in indices. -/
theorem dot_not_mem_segment (hp : r.Plain) {p : Part} (hmem : p ∈ r.parts i) :
    '.' ∉ p.segment.toList := by
  obtain ⟨desc, hi, hpart⟩ := mem_parts_iff.mp hmem
  cases hpart with
  | @member name ms n hn =>
    exact (hp _ (List.mem_of_getElem? hi) ms rfl).2 _ (List.mem_mapIdx.mpr ⟨n, hn, rfl⟩)
  | element n hn => exact Route.dot_not_mem_toString n

/-! ## From walks to paths -/

/-- Texts that lead somewhere, with one more that leads to a part of that. -/
theorem follow?_concat {offset o : Option Nat} {k : TypeIdx} {xs : List (List Char)}
    {x : List Char} {p : Part} {o' : Option Nat} (hxs : r.follow? offset i xs = .ok (some (o, k)))
    (hx : r.partNamed? k x = .ok (some p)) (ho : Route.joinOffset o p.offset = .ok o') :
    r.follow? offset i (xs ++ [x]) = .ok (some (o', p.type)) := by
  induction xs generalizing offset i with
  | nil =>
    cases hxs
    rw [List.nil_append, follow?, hx, ok_bind]
    dsimp only
    rw [ho, ok_bind, follow?]
  | cons y ys ih =>
    rw [follow?] at hxs
    obtain ⟨q, hq, hxs⟩ := bind_eq_ok_iff.mp hxs
    cases q with
    | none => cases hxs
    | some q =>
      obtain ⟨o'', ho'', hxs⟩ := bind_eq_ok_iff.mp hxs
      rw [List.cons_append, follow?, hq, ok_bind]
      dsimp only
      rw [ho'', ok_bind, ih hxs]

/-- The trail is found by the names on the way, which hold no dots. -/
structure Found (r : Reflection) (i : TypeIdx) (t : Trail) : Prop where
  dots : ∀ s ∈ t.segments, '.' ∉ s.toList
  follows : r.follow? (some 0) i (t.segments.map String.toList) = .ok (some (t.offset, t.type))

theorem found_start (r : Reflection) (i : TypeIdx) : r.Found i (.start i) where
  dots _ h := absurd h List.not_mem_nil
  follows := rfl

/-- A part of what is found is found, unless it lies beyond the ceiling. -/
theorem Found.extend (hw : r.InWords) (hl : r.Legible) (hp : r.Plain) {t : Trail} {p : Part}
    (h : r.Found i t) (hmem : p ∈ r.parts t.type) (hrange : (t.extend p).InRange) :
    r.Found i (t.extend p) where
  dots := List.forall_mem_append.mpr
    ⟨h.dots, List.forall_mem_singleton.mpr (dot_not_mem_segment hp hmem)⟩
  follows := by
    have hjoin : Route.joinOffset t.offset p.offset = .ok (t.extend p).offset := by
      rw [Route.joinOffset_eq]
      exact if_pos hrange
    rw [Trail.extend, List.map_append, List.map_singleton]
    exact follow?_concat h.follows (partNamed?_of_mem_parts hw hl hp hmem) hjoin

/-- What is found by the names on the way is found by its path. -/
theorem Found.route? {t : Trail} (h : r.Found i t) (hne : t.segments ≠ []) :
    r.route? i t.route.path = .ok (some t.route) := by
  rw [Reflection.route?, Trail.route, Route.segments_intercalate hne h.dots, h.follows]
  rfl

end Reflection

/-- **What a walk yields is found** under its path, with the same offset and type. -/
theorem Walk.route?_of_mem_take {r : Reflection} (hr : Grounded r.types) (hw : r.InWords)
    (hl : r.Legible) (hp : r.Plain) {i : TypeIdx} {w : List (Trail × Nat)}
    (hn : ∀ t ∈ w.map Prod.fst, t.Named) (hf : ∀ t ∈ w.map Prod.fst, r.Found i t) {n : Nat}
    {routes : List Route} (h : take r n (along w) = .ok routes) :
    ∀ route ∈ routes, r.route? i route.path = .ok (some route) := by
  induction n generalizing w routes with
  | zero =>
    cases h
    exact fun _ h => absurd h List.not_mem_nil
  | succ n ih =>
    unfold take at h
    cases advances hr hw hn with
    | atEnd hnext =>
      rw [hnext] at h
      cases h
      exact fun _ h => absurd h List.not_mem_nil
    | onward t p w' ht hmem hnext hpending hleft =>
      rw [hnext] at h
      by_cases hrange : (t.extend p).InRange
      · rw [if_pos hrange, ok_bind] at h
        obtain ⟨rest, hrest, h⟩ := bind_eq_ok_iff.mp h
        cases h
        have hfound := (hf t ht).extend hw hl hp hmem hrange
        have hnamed := (hn t ht).extend (Reflection.segment_ne_empty hl hmem)
        refine List.forall_mem_cons.mpr ⟨hfound.route? (by simp [Trail.extend]), ?_⟩
        exact ih (forall_left hleft hnamed hn) (forall_left hleft hfound hf) hrest
      · rw [if_neg hrange] at h
        cases h

/-! ## From paths to walks -/

namespace Reflection

variable {r : Reflection} {i : TypeIdx}

/-- The types that texts go into, one after the other. -/
def wholesOn (r : Reflection) (i : TypeIdx) : List (List Char) → List TypeIdx
  | [] => []
  | segment :: rest => i ::
    match r.partNamed? i segment with
    | .ok (some p) => r.wholesOn p.type rest
    | _ => []

/-- Whether a type is an array without a length. -/
def isUnsized (r : Reflection) (i : TypeIdx) : Bool :=
  match r.type? i with
  | some (.runtimeArray _ _) => true
  | _ => false

/-- The path goes into no array without a length. -/
def AvoidsUnsized (r : Reflection) (i : TypeIdx) (path : String) : Prop :=
  ∀ k ∈ r.wholesOn i (Route.segments path.toList), r.isUnsized k = false

instance (r : Reflection) (i : TypeIdx) (path : String) : Decidable (r.AvoidsUnsized i path) :=
  inferInstanceAs (Decidable (∀ k ∈ r.wholesOn i (Route.segments path.toList),
    r.isUnsized k = false))

theorem eq_of_elementOffset {stride o : Option Nat} {n : Nat}
    (h : Route.elementOffset stride n = .ok o) : o = stride.map (· * n) := by
  rw [Route.elementOffset_eq] at h
  split at h <;> cases h
  rfl

theorem eq_of_joinOffset {o o' o'' : Option Nat} (h : Route.joinOffset o o' = .ok o'') :
    o'' = Route.exactJoin o o' := by
  rw [Route.joinOffset_eq] at h
  split at h <;> cases h
  rfl

/-- A part that a text names is visited, whatever the text, unless it is in an array without a
length. -/
theorem exists_part_of_partNamed? (hsized : r.isUnsized i = false) {segment : List Char}
    {p : Part} (h : r.partNamed? i segment = .ok (some p)) :
    ∃ q ∈ r.parts i, q.offset = p.offset ∧ q.type = p.type := by
  unfold partNamed? at h
  cases hi : r.type? i with
  | none =>
    rw [hi] at h
    cases h
  | some desc =>
    rw [hi] at h
    cases desc with
    | struct name ms =>
      dsimp only at h
      split at h
      · rename_i m hm
        cases h
        obtain ⟨n, hn, rfl⟩ := List.getElem_of_mem (mem_of_named hm)
        exact ⟨_, mem_parts_iff.mpr ⟨_, hi, .member n hn⟩, rfl, rfl⟩
      · cases h
    | array element length stride =>
      dsimp only at h
      split at h
      · rename_i n hn
        obtain ⟨offset, hoffset, h⟩ := bind_eq_ok_iff.mp h
        cases h
        rw [Option.filter_eq_some_iff, decide_eq_true_eq] at hn
        exact ⟨_, mem_parts_iff.mpr ⟨_, hi, .element n hn.2⟩, (eq_of_elementOffset hoffset).symm,
          rfl⟩
      · cases h
    | runtimeArray element stride =>
      rw [isUnsized, hi] at hsized
      cases hsized
    | _ => cases h

/-- **Where texts lead, a trail leads**, unless they go into an array without a length. -/
theorem exists_trail_of_follow? (hr : ShaderReflect.Grounded r.types) {segments : List (List Char)}
    (hne : segments ≠ []) {t : Trail}
    (hsized : ∀ k ∈ r.wholesOn t.type segments, r.isUnsized k = false) {offset : Option Nat}
    {k : TypeIdx} (h : r.follow? t.offset t.type segments = .ok (some (offset, k))) :
    ∃ t' ∈ r.trails t, t'.offset = offset ∧ t'.type = k := by
  induction segments generalizing t with
  | nil => exact absurd rfl hne
  | cons segment rest ih =>
    rw [follow?] at h
    obtain ⟨p?, hp, h⟩ := bind_eq_ok_iff.mp h
    cases p? with
    | none => cases h
    | some p =>
      obtain ⟨o, ho, h⟩ := bind_eq_ok_iff.mp h
      rw [wholesOn, hp, List.forall_mem_cons] at hsized
      obtain ⟨q, hq, hoffset, htype⟩ := exists_part_of_partNamed? hsized.1 hp
      have hjoin : (t.extend q).offset = o := by
        rw [eq_of_joinOffset ho, ← hoffset]
        rfl
      rw [← hjoin, ← htype] at h
      cases rest with
      | nil =>
        cases h
        exact ⟨t.extend q, (mem_trails_iff hr).mpr ⟨q, hq, .inl rfl⟩, rfl, rfl⟩
      | cons next rest =>
        have hrest : ∀ k ∈ r.wholesOn p.type (next :: rest), r.isUnsized k = false := hsized.2
        rw [← htype] at hrest
        obtain ⟨t', ht', heq⟩ := ih (List.cons_ne_nil next rest) (t := t.extend q) hrest h
        exact ⟨t', (mem_trails_iff hr).mpr ⟨q, hq, .inr ht'⟩, heq⟩

end Reflection

/-! ## Reflections -/

namespace Config

variable {c : Config} {r : Reflection}

/-- **Walks and paths agree**, if distinct texts without dots tell the members of each struct apart.
What a walk over a type yields is found unchanged under its path. If the offsets of a walk
stay below the ceiling, the walk yields whatever is found under a path that goes into no array
without a length. -/
theorem reflect_paths (h : c.reflect.result = .ok r) (hp : r.Plain) (i : TypeIdx) :
    (∀ n routes, Walk.take r n (Walk.start i) = .ok routes →
      ∀ route ∈ routes, r.route? i route.path = .ok (some route)) ∧
    ((∀ n, ∃ routes, Walk.take r n (Walk.start i) = .ok routes) →
      ∀ path route, r.route? i path = .ok (some route) → r.AvoidsUnsized i path →
        ∃ n routes, Walk.take r n (Walk.start i) = .ok routes ∧
          ∃ route' ∈ routes, route'.offset = route.offset ∧ route'.type = route.type) := by
  have hg := (grounded_of_reflect h).types
  have hw := inWords_of_reflect h
  have hl := legible_of_reflect h
  refine ⟨fun n routes hroutes => ?_, fun htotal path route hroute hsized => ?_⟩
  · exact Walk.route?_of_mem_take (w := [(.start i, 0)]) hg hw hl hp
      (List.forall_mem_singleton.mpr (Trail.named_start i))
      (List.forall_mem_singleton.mpr (Reflection.found_start r i)) hroutes
  · obtain ⟨found, hfound, hroute⟩ := bind_eq_ok_iff.mp hroute
    cases found with
    | none => cases hroute
    | some found =>
      obtain ⟨offset, k⟩ := found
      cases hroute
      have hne : Route.segments path.toList ≠ [] := by
        rw [Route.segments_eq_splitOn]
        exact List.splitOn_ne_nil '.' _
      obtain ⟨t, ht, hoffset, htype⟩ := Reflection.exists_trail_of_follow? hg hne (t := .start i)
        hsized hfound
      obtain ⟨routes, hroutes⟩ := htotal (r.trails (.start i)).length
      have htake := Walk.take_start hg hw hl i (r.trails (.start i)).length
      rw [List.take_length] at htake
      refine ⟨_, routes, hroutes, t.route, ?_, hoffset, htype⟩
      rw [hroutes] at htake
      split at htake <;> cases htake
      exact List.mem_map_of_mem ht

set_option maxRecDepth 100000 in
/-- In the binary with nested parts, an index in another spelling leads to a part that the walk
yields. -/
theorem sample_reflect_paths : ∃ r, sampleNesting.reflect.result = .ok r ∧ r.Plain ∧
    (∀ n routes, Walk.take r n (Walk.start 4) = .ok routes →
      ∀ route ∈ routes, r.route? 4 route.path = .ok (some route)) ∧
    ∃ n routes, Walk.take r n (Walk.start 4) = .ok routes ∧
      ∃ route ∈ routes, route.offset = some 20 ∧ route.type = 0 := by
  obtain ⟨r, hr, hfacts⟩ := exists_eq_ok_of_any (x := sampleNesting.reflect.result)
    (p := fun r => r.Plain ∧ r.farthest 4 < sizeCeiling ∧ r.AvoidsUnsized 4 "01.+1.1" ∧
      r.route? 4 "01.+1.1" =
        .ok (some { path := "01.+1.1", offset := some 20, type := 0 })) (by decide +kernel)
  obtain ⟨hplain, hfarthest, havoids, hroute⟩ := of_decide_eq_true hfacts
  obtain ⟨hpaths, hwalk⟩ := reflect_paths hr hplain 4
  have htotal := (Walk.take_start_total_iff (grounded_of_reflect hr).types
    (inWords_of_reflect hr) 4).mpr hfarthest
  exact ⟨r, hr, hplain, hpaths, hwalk htotal _ _ hroute havoids⟩

end Config

end ShaderReflect
