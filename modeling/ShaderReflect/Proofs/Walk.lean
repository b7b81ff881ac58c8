import ShaderReflect.Proofs.Layout.Unfolding
import ShaderReflect.Proofs.Outcome
import ShaderReflect.Route

/-!
# Walks end

Where types refer backwards, a walk over the parts of a type ends, and it stays among the types
(`Walk.ends`). What goes down with each part is the number of parts that are still to be visited
(`Walk.left`): a part that is gone into brings as many parts as it has been counted for.

Specification, member walks (iterative, with an explicit stack of frames). The number of parts can
be as large as lengths of arrays make it; it is a measure that nothing computes.
-/

namespace ShaderReflect

namespace Reflection

variable {r : Reflection}

/-- The number of parts that a walk over a type visits, given the numbers for what it refers to. -/
def visitsOf (desc : TypeDesc TypeIdx) (visits : TypeIdx → Nat) : Nat :=
  match desc with
  | .struct _ members => (members.map fun m => visits m.type + 1).sum
  | .array element length _ => length.toNat * (visits element + 1)
  | _ => 0

/-- The number of parts that a walk over the type at a place visits. -/
def visits (r : Reflection) : TypeIdx → Nat := unfolded visitsOf (fun _ => 0) r.types

theorem visitsOf_congr (desc : TypeDesc TypeIdx) (f g : TypeIdx → Nat)
    (h : ∀ i ∈ desc.refs, f i = g i) : visitsOf desc f = visitsOf desc g := by
  cases desc with
  | struct name members =>
    have hm : members.map (fun m => f m.type + 1) = members.map fun m => g m.type + 1 :=
      List.map_congr_left fun m hm => by
        rw [h m.type (List.mem_map_of_mem (f := MemberDesc.type) hm)]
    rw [visitsOf, visitsOf, hm]
  | array element length stride => rw [visitsOf, visitsOf, h element List.mem_cons_self]
  | _ => rfl

theorem visits_eq (hr : ShaderReflect.Grounded r.types) {i : TypeIdx} {desc : TypeDesc TypeIdx}
    (hi : r.types[i]? = some desc) : r.visits i = visitsOf desc r.visits :=
  unfolded_eq visitsOf_congr hr hi

/-- The number of parts that a walk over a type still visits from part number `n` on. -/
def visitsFrom (r : Reflection) (i : TypeIdx) (n : Nat) : Nat :=
  match r.type? i with
  | some (.struct _ members) => ((members.drop n).map fun m => r.visits m.type + 1).sum
  | some (.array element length _) => (length.toNat - n) * (r.visits element + 1)
  | _ => 0

theorem visitsFrom_zero (hr : ShaderReflect.Grounded r.types) (i : TypeIdx) :
    r.visitsFrom i 0 ≤ r.visits i := by
  unfold visitsFrom
  split
  · rename_i members hi
    rw [visits_eq hr hi]
    exact Nat.le_refl _
  · rename_i element length stride hi
    rw [visits_eq hr hi]
    exact Nat.le_refl _
  · exact Nat.zero_le _

/-- A part that is visited is counted, with all that are visited in it, and has a type. -/
theorem part?_cases (hr : ShaderReflect.Grounded r.types) (i : TypeIdx) (n : Nat) :
    r.part? i n = .ok none ∨ 0 < r.visitsFrom i n ∧
      ((∃ e, r.part? i n = .error e) ∨ ∃ p, r.part? i n = .ok (some p) ∧ p.type < r.types.length ∧
        r.visitsFrom i n = r.visitsFrom i (n + 1) + (r.visits p.type + 1)) := by
  unfold part?
  split
  · rename_i name members hi
    have hfrom : ∀ k, r.visitsFrom i k = ((members.drop k).map fun m => r.visits m.type + 1).sum :=
      fun k => by rw [visitsFrom, hi]
    have hlt : ∀ m ∈ members, m.type < r.types.length := fun m hm =>
      Nat.lt_trans (hr i _ hi m.type (List.mem_map_of_mem hm)) (List.getElem?_eq_some_iff.mp hi).1
    cases hm : members[n]? with
    | none => exact .inl rfl
    | some m =>
      obtain ⟨hn, rfl⟩ := List.getElem?_eq_some_iff.mp hm
      rw [hfrom n, hfrom (n + 1), List.drop_eq_getElem_cons hn, List.map_cons, List.sum_cons]
      exact .inr ⟨by omega, .inr ⟨_, rfl, hlt _ (List.getElem_mem hn), Nat.add_comm _ _⟩⟩
  · rename_i element length stride hi
    have hfrom : ∀ k, r.visitsFrom i k = (length.toNat - k) * (r.visits element + 1) :=
      fun k => by rw [visitsFrom, hi]
    by_cases hn : n < length.toNat
    · have hcount : length.toNat - n = length.toNat - (n + 1) + 1 := by omega
      rw [if_pos hn, hfrom n, hfrom (n + 1), hcount, Nat.succ_mul]
      refine .inr ⟨by omega, ?_⟩
      cases Route.elementOffset stride n with
      | error e => exact .inl ⟨e, rfl⟩
      | ok offset =>
        refine .inr ⟨_, rfl, ?_, rfl⟩
        exact Nat.lt_trans (hr i _ hi element List.mem_cons_self)
          (List.getElem?_eq_some_iff.mp hi).1
    · rw [if_neg hn]
      exact .inl rfl
  · exact .inl rfl

end Reflection

namespace Walk

variable {r : Reflection}

/-- The number of parts that are still to be visited. -/
def left (r : Reflection) (w : Walk) : Nat :=
  (w.map fun frame => r.visitsFrom frame.route.type frame.next).sum

/-- A step of a walk: the walk is at its end, or there is a part left, and a step to it leaves
fewer. -/
theorem next?_cases (hr : ShaderReflect.Grounded r.types) (w : Walk) :
    next? r w = .ok none ∨ 0 < left r w ∧
      ((∃ e, next? r w = .error e) ∨ ∃ route w', next? r w = .ok (some (route, w')) ∧
        route.type < r.types.length ∧ left r w' < left r w) := by
  induction w with
  | nil => exact .inl rfl
  | cons frame outer ih =>
    unfold next?
    have hleft : left r (frame :: outer) =
        r.visitsFrom frame.route.type frame.next + left r outer := List.sum_cons
    rcases Reflection.part?_cases hr frame.route.type frame.next with
      hnone | ⟨hpos, ⟨e, he⟩ | ⟨p, hp, hlt, hcount⟩⟩
    · rw [hnone, ok_bind]
      rcases ih with h | ⟨hpos, ⟨e, he⟩ | ⟨route, w', hw, hlt, hless⟩⟩
      · exact .inl h
      · exact .inr ⟨by omega, .inl ⟨e, he⟩⟩
      · exact .inr ⟨by omega, .inr ⟨route, w', hw, hlt, by omega⟩⟩
    · rw [he]
      exact .inr ⟨by omega, .inl ⟨e, rfl⟩⟩
    · rw [hp, ok_bind]
      refine .inr ⟨by omega, ?_⟩
      cases hroute : frame.route.extend p with
      | error e => exact .inl ⟨e, by simp only [hroute, error_bind]⟩
      | ok route =>
        have htype : route.type = p.type := by
          obtain ⟨offset, -, h⟩ := bind_eq_ok_iff.mp hroute
          cases h
          rfl
        refine .inr ⟨route, _, by simp only [hroute, ok_bind]; rfl, by rw [htype]; exact hlt, ?_⟩
        have hzero := Reflection.visitsFrom_zero hr p.type
        split
        · simp only [left, List.map_cons, List.sum_cons, htype] at hleft ⊢
          omega
        · simp only [left, List.map_cons, List.sum_cons] at hleft ⊢
          omega

/-- **Walks end and stay in range.** However many parts are asked for, no more come than are left,
and all of them have types. -/
theorem take_eq_of_left_le (hr : ShaderReflect.Grounded r.types) {w : Walk} {n m : Nat}
    (hw : left r w ≤ n) (hn : n ≤ m) : take r m w = take r n w := by
  induction n generalizing w m with
  | zero =>
    rcases next?_cases hr w with h | ⟨hpos, -⟩
    · cases m with
      | zero => rfl
      | succ m =>
        unfold take
        rw [h]
        rfl
    · omega
  | succ n ih =>
    obtain ⟨m, rfl⟩ : ∃ k, m = k + 1 := ⟨m - 1, by omega⟩
    unfold take
    rcases next?_cases hr w with h | ⟨-, ⟨e, h⟩ | ⟨route, w', h, -, hless⟩⟩
    · rw [h]
      rfl
    · rw [h]
      rfl
    · rw [h]
      simp only [ok_bind, ih (w := w') (m := m) (by omega) (by omega)]

theorem type_lt_of_mem_take (hr : ShaderReflect.Grounded r.types) {w : Walk} {n : Nat}
    {routes : List Route} (h : take r n w = .ok routes) :
    ∀ route ∈ routes, route.type < r.types.length := by
  induction n generalizing w routes with
  | zero =>
    cases h
    exact fun _ h => absurd h List.not_mem_nil
  | succ n ih =>
    unfold take at h
    rcases next?_cases hr w with hw | ⟨-, ⟨e, hw⟩ | ⟨route, w', hw, hlt, -⟩⟩
    · rw [hw] at h
      cases h
      exact fun _ h => absurd h List.not_mem_nil
    · rw [hw] at h
      cases h
    · rw [hw, ok_bind] at h
      obtain ⟨rest, hrest, h⟩ := bind_eq_ok_iff.mp h
      cases h
      intro x hx
      rcases List.mem_cons.mp hx with rfl | hx
      · exact hlt
      · exact ih hrest x hx

end Walk

end ShaderReflect
