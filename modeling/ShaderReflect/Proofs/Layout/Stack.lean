import ShaderReflect.Proofs.Layout.Stored

/-!
# Types are put into the arena from a stack

Putting a type into the arena, with all that it is built from, can be done without recursion. The
tasks that are left are kept on a stack: a type that is entered is to be left again, once the
operands have been entered that have no place yet, and a type that is left is put into the arena. A
type that has got a place in the meantime is passed over.

`Source.Ends` is how a stack of tasks comes to its end. Nothing bounds the number of tasks: that
there is an end is a result, and it rests on types not being cyclic.

* `Source.Ends.unique`: a stack of tasks comes to one end.
* `Source.placed_of_materializeTo`: only types that the type is built from get places.
* `Source.ends_materialize`: the stack ends as the recursion does, with the same arena or the same
  stop.

This is the materialization of the specification (4.6), with its two kinds of tasks. A type may be
on the stack more than once, when several types that are entered are built from it. It is put in for
the task that comes off first, and passed over for the others.
-/

namespace ShaderReflect.Source

open Relation (ReflTransGen TransGen)
open TypeOrder (Task Uses)

variable {s : Source} {a b c : Arena} {id o : Ident} {i : TypeIdx} {decl : TypeDecl}
  {t : Task} {first tasks : List Task} {x y : Except Stop Arena}

/-! ## Tasks -/

/-- What a task does: the tasks that it leaves to be done first, and the arena after it. -/
def work (s : Source) (a : Arena) (t : Task) : Except Stop (List Task × Arena) :=
  match a.places.get? t.subject with
  | some _ => .ok ([], a)
  | none => do
    let decl ← s.graph.type t.subject
    match t with
    | .enter id =>
      let operands := decl.operands.filter fun o => (a.places.get? o).isNone
      return (operands.reverse.map .enter ++ [.leave id], a)
    | .leave id => do
      let (_, a) ← s.put a id decl
      return ([], a)

/-- How tasks end that are done one after the other, those first that a task leaves to be done. -/
inductive Ends (s : Source) : List Task → Arena → Except Stop Arena → Prop
  | done (a : Arena) : s.Ends [] a (.ok a)
  | more {t : Task} {first tasks : List Task} {a b : Arena} {x : Except Stop Arena}
      (h : s.work a t = .ok (first, b)) (rest : s.Ends (first ++ tasks) b x) :
      s.Ends (t :: tasks) a x
  | stop {t : Task} {tasks : List Task} {a : Arena} {e : Stop} (h : s.work a t = .error e) :
      s.Ends (t :: tasks) a (.error e)

/-- **Tasks come to one end.** -/
theorem Ends.unique (h : s.Ends tasks a x) (h' : s.Ends tasks a y) : x = y := by
  induction h with
  | done a =>
    cases h'
    rfl
  | more h _ ih =>
    cases h' with
    | more h' rest' =>
      rw [h] at h'
      cases h'
      exact ih rest'
    | stop h' =>
      rw [h] at h'
      cases h'
  | stop h =>
    cases h' with
    | more h' =>
      rw [h] at h'
      cases h'
    | stop h' =>
      rw [h] at h'
      cases h'
      rfl

/-- Tasks that end well are followed by those below them on the stack. -/
theorem Ends.append (h : s.Ends first a (.ok b)) (h' : s.Ends tasks b x) :
    s.Ends (first ++ tasks) a x := by
  generalize hok : (Except.ok b : Except Stop Arena) = y at h
  induction h with
  | done a =>
    cases hok
    exact h'
  | more hwork _ ih =>
    have hrest := ih hok
    rw [List.append_assoc] at hrest
    exact .more hwork hrest
  | stop => cases hok

/-- Tasks that stop leave those below them on the stack undone. -/
theorem Ends.append_error {e : Stop} (h : s.Ends first a (.error e)) (tasks : List Task) :
    s.Ends (first ++ tasks) a (.error e) := by
  generalize herror : (Except.error e : Except Stop Arena) = y at h
  induction h with
  | done => cases herror
  | more hwork _ ih =>
    have hrest := ih herror
    rw [List.append_assoc] at hrest
    exact .more hwork hrest
  | stop hwork =>
    cases herror
    exact .stop hwork

/-- Tasks one after the other end as the first ones and then the others. -/
theorem Ends.append_bind {f : Arena → Except Stop Arena} (h : s.Ends first a x)
    (h' : ∀ b, x = .ok b → s.Ends tasks b (f b)) : s.Ends (first ++ tasks) a (x >>= f) := by
  cases x with
  | ok b => exact h.append (h' b rfl)
  | error e => exact h.append_error tasks

/-- A task that leaves none to be done ends with what it does. -/
theorem ends_singleton (h : s.work a t = (fun b => ([], b)) <$> x) : s.Ends [t] a x := by
  cases x with
  | ok b => exact .more h (.done b)
  | error e => exact .stop h

/-! ## Places -/

/-- No type is built from itself. The induction is on the order of types: a type that is built from
itself has an operand that is built from itself. -/
theorem Ordered.acyclic (hs : s.Ordered) (id : Ident) :
    ¬ TransGen (Uses s.graph.types) id id := by
  intro h
  obtain ⟨_, ⟨decl, hd, -⟩, -⟩ := TransGen.head'_iff.mp h
  refine hs.induction (P := fun id => ¬ TransGen (Uses s.graph.types) id id) ?_ hd h
  intro id decl hd ih h
  obtain ⟨o, ⟨decl', hd', ho⟩, hpath⟩ := TransGen.head'_iff.mp h
  obtain rfl : decl = decl' := Option.some.inj (hd.symm.trans hd')
  exact ih o ho (.tail' hpath ⟨decl, hd, ho⟩)

theorem materializeTo_of_place {d : Nat} (h : a.places.get? id = some i) :
    s.materializeTo d a id = .ok (i, a) := by
  cases d with
  | zero => rw [materializeTo, place_of_get? h]; rfl
  | succ d => rw [materializeTo, h]

/-- Interning gives no declared type a place. -/
theorem places_of_intern {u : Bool} {key : TypeDesc TypeIdx} {size : Option Nat}
    (h : a.intern u key size = (i, b)) : b.places = a.places := by
  rcases Arena.intern_cases h with ⟨rfl, -⟩ | ⟨-, -, e, names, -, -, -, rfl⟩
  · rfl
  · rfl

/-- Putting a type into the arena gives no other type a place. -/
theorem places_of_put (h : s.put a id decl = .ok (i, b)) :
    b.places = a.places.insertFirst id i := by
  obtain ⟨desc, size, c, -, -, hi, rfl⟩ := put_eq_ok h
  rw [← places_of_intern hi]

/-- **Only types that a type is built from get places with it.** -/
theorem placed_of_materializeTo {d : Nat} (h : s.materializeTo d a id = .ok (i, b))
    (ho : (b.places.get? o).isSome) :
    (a.places.get? o).isSome ∨ ReflTransGen (Uses s.graph.types) id o := by
  induction d generalizing a id i b with
  | zero =>
    obtain ⟨j, -, h⟩ := bind_eq_ok_iff.mp h
    cases h
    exact .inl ho
  | succ d ih =>
    unfold materializeTo at h
    split at h
    · cases h
      exact .inl ho
    · obtain ⟨decl, hdecl, h⟩ := bind_eq_ok_iff.mp h
      obtain ⟨c, hc, h⟩ := bind_eq_ok_iff.mp h
      have hd := Graph.type_eq_ok_iff.mp (liftM_fault_eq_ok_iff.mp hdecl)
      rw [places_of_put h, Table.get?_insertFirst] at ho
      by_cases hid : o = id
      · exact .inr (hid ▸ .refl)
      · rw [if_neg hid] at ho
        refine foldlM_invariant (P := fun c => (c.places.get? o).isSome →
          (a.places.get? o).isSome ∨ ReflTransGen (Uses s.graph.types) id o) hc .inl ?_ ho
        intro x hx c c' hkeep hstep ho'
        obtain ⟨⟨j, _⟩, hrun, rfl⟩ := map_eq_ok_iff.mp hstep
        rcases ih hrun ho' with hold | hpath
        · exact hkeep hold
        · exact .inr (.head ⟨decl, hd, List.mem_reverse.mp hx⟩ hpath)

/-- The operands of a type do not give it a place. -/
theorem place_eq_none_of_operands (hs : s.Ordered) {d : Nat}
    (hd : s.graph.types.get? id = some decl) (hnone : a.places.get? id = none)
    (h : decl.operands.reverse.foldlM (fun a o => Prod.snd <$> s.materializeTo d a o) a = .ok b) :
    b.places.get? id = none := by
  refine foldlM_invariant (P := fun c => c.places.get? id = none) h hnone ?_
  intro o ho c c' hc hstep
  obtain ⟨⟨j, _⟩, hrun, rfl⟩ := map_eq_ok_iff.mp hstep
  by_contra hplace
  rcases placed_of_materializeTo hrun (Option.isSome_iff_ne_none.mpr hplace) with hold | hpath
  · simp [hc] at hold
  · exact hs.acyclic id (.head' ⟨decl, hd, List.mem_reverse.mp ho⟩ hpath)

/-- The place that is given back is that of the type. -/
theorem place_of_materializeTo (hs : s.Ordered) {d : Nat}
    (h : s.materializeTo d a id = .ok (i, b)) : b.places.get? id = some i := by
  cases d with
  | zero =>
    obtain ⟨j, hj, h⟩ := bind_eq_ok_iff.mp h
    cases h
    exact place_eq_ok (liftM_fault_eq_ok_iff.mp hj)
  | succ d =>
    unfold materializeTo at h
    split at h
    · rename_i j hj
      cases h
      exact hj
    · rename_i hnone
      obtain ⟨decl, hdecl, h⟩ := bind_eq_ok_iff.mp h
      obtain ⟨c, hc, h⟩ := bind_eq_ok_iff.mp h
      have hd := Graph.type_eq_ok_iff.mp (liftM_fault_eq_ok_iff.mp hdecl)
      rw [places_of_put h, Table.get?_insertFirst, if_pos rfl,
        place_eq_none_of_operands hs hd hnone hc, Option.none_or]

/-! ## The stack -/

/-- Operands that had no place when their type was entered end as all operands do. -/
theorem ends_operands {d : Nat} {os : List Ident} (hac : a.Extends c)
    (hstep : ∀ o ∈ os, ∀ c, s.Ends [.enter o] c (Prod.snd <$> s.materializeTo d c o)) :
    s.Ends ((os.filter fun o => (a.places.get? o).isNone).map .enter) c
      (os.foldlM (fun a o => Prod.snd <$> s.materializeTo d a o) c) := by
  induction os generalizing c with
  | nil => exact .done c
  | cons o os ih =>
    rw [List.forall_mem_cons] at hstep
    rw [List.foldlM_cons]
    cases hplace : a.places.get? o with
    | some i =>
      rw [List.filter_cons_of_neg (by simp [hplace]),
        materializeTo_of_place (hac.places o i hplace)]
      exact ih hac hstep.2
    | none =>
      rw [List.filter_cons_of_pos (by simp [hplace]), List.map_cons, ← List.singleton_append]
      refine (hstep.1 c).append_bind fun b hb => ?_
      obtain ⟨⟨j, _⟩, hrun, rfl⟩ := map_eq_ok_iff.mp hb
      exact ih (hac.trans (extends_materializeTo hrun)) hstep.2

/-- **Entering a type ends as the recursion does.** The induction is on the types that come before
it. -/
theorem ends_materializeTo (hs : s.Ordered) {ids : List Ident}
    (ho : TypeOrder.Ordered s.graph.types ids) (hid : id ∈ ids) {d : Nat} (hd : ids.length ≤ d)
    (a : Arena) : s.Ends [.enter id] a (Prod.snd <$> s.materializeTo d a id) := by
  induction ids generalizing id d a with
  | nil => cases hid
  | cons x before ih =>
    obtain ⟨⟨decl, hdecl, hops⟩, hb⟩ := ho
    rw [List.length_cons] at hd
    rcases List.mem_cons.mp hid with rfl | hid
    · obtain ⟨n, rfl⟩ := Nat.exists_eq_add_of_lt (Nat.lt_of_lt_of_le (Nat.succ_pos _) hd)
      rw [Nat.zero_add] at hd ⊢
      cases hplace : a.places.get? id with
      | some i =>
        rw [materializeTo_of_place hplace]
        exact ends_singleton (by simp [work, Task.subject, hplace])
      | none =>
        have hgraph := Graph.type_eq_ok_iff.mpr hdecl
        have henter : s.work a (.enter id) = .ok ((decl.operands.reverse.filter fun o =>
            (a.places.get? o).isNone).map .enter ++ [.leave id], a) := by
          simp [work, Task.subject, hplace, hgraph, List.filter_reverse]
        refine .more henter ?_
        rw [List.append_nil]
        unfold materializeTo
        simp only [hplace, hgraph, liftM_fault_ok, ok_bind, map_bind]
        refine (ends_operands (.refl a) fun o ho c =>
          ih hb (hops o (List.mem_reverse.mp ho)) (by omega) c).append_bind fun b hfold => ?_
        -- The operands leave the type without a place, so it is put into the arena.
        have hnone := place_eq_none_of_operands hs hdecl hplace hfold
        refine ends_singleton ?_
        simp only [work, Task.subject, hnone, hgraph, liftM_fault_ok, ok_bind]
        cases s.put b id decl <;> rfl
    · exact ih hb hid (by omega) a

/-- **The stack ends as the recursion does**: with the same arena, in which the type has the place
that the recursion gives back, or with the same stop. -/
theorem ends_materialize (hs : s.Ordered) (hd : s.graph.types.get? id = some decl) (a : Arena) :
    ∃ x, s.Ends [.enter id] a x ∧ s.materialize a id = do
      let b ← x
      let i ← b.place id
      return (i, b) := by
  refine ⟨_, ends_materializeTo hs hs.ordered (List.mem_reverse.mpr (hs.mem_typeOrder hd))
    (by rw [List.length_reverse]) a, ?_⟩
  unfold materialize
  cases h : s.materializeTo s.graph.typeOrder.length a id with
  | error e => rfl
  | ok r =>
    obtain ⟨i, b⟩ := r
    rw [map_ok, ok_bind, place_of_get? (place_of_materializeTo hs h)]
    rfl

end ShaderReflect.Source
