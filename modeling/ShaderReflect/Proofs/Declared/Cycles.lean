import Mathlib.Logic.Relation
import ShaderReflect.Proofs.Closed
import ShaderReflect.Proofs.Declared.TypeOrder

/-!
# The order of types is complete

The search for an order fails for a cycle only. A type is *built from* another one if that is one of
its operands (`Uses`), and it is *cyclic* if it is built from itself, through any number of types.
In a table in which all operands are declared:

* every type is put into the order once, behind its operands;
* there is an order exactly if no type is cyclic, and otherwise a cyclic type is reported;
* the search takes at most `weight types (start types)` steps, and never comes to enter a type that
  is active.

The types that are active are those that the stack still has to leave, in the order in which it
leaves them. What carries the search is that the stack is a path (`Stacked`): the type of every task
is an operand of the next type that is left below it, and is not to be left below it.
`Searching.step` is the step, `Searching.steps` the run, and `sort_exact` the result.

Specification, 4.2 (the type graph is acyclic). Which cyclic type is reported depends on the IDs, as
the search starts from types in ascending order; it need not be the first of its cycle. A struct
that holds a device address of itself is not cyclic.
-/

namespace ShaderReflect.TypeOrder

variable {types : Table Ident TypeDecl} {s s' : State} {id o : Ident} {tasks : List Task}

/-! ## Tables and cycles -/

/-- A type is built from another one. -/
def Uses (types : Table Ident TypeDecl) (id o : Ident) : Prop :=
  ∃ decl, types.get? id = some decl ∧ o ∈ decl.operands

/-- Every type that a type is built from is declared. -/
def OperandsDeclared (types : Table Ident TypeDecl) : Prop :=
  ∀ id o, Uses types id o → o ∈ types.keys

/-- A type is built from itself, through any number of types. -/
def Cyclic (types : Table Ident TypeDecl) (id : Ident) : Prop :=
  Relation.TransGen (Uses types) id id

theorem Uses.mem_keys (h : Uses types id o) : id ∈ types.keys := by
  obtain ⟨decl, hd, -⟩ := h
  exact Table.mem_keys_of_get? hd

theorem Cyclic.mem_keys (h : Cyclic types id) : id ∈ types.keys := by
  obtain ⟨o, huses, -⟩ := Relation.TransGen.head'_iff.mp h
  exact huses.mem_keys

/-! ## Steps of the search -/

/-- The search before its first step: every type is to be entered. -/
def start (types : Table Ident TypeDecl) : State :=
  { done := [], active := [], tasks := (IdSet.ofList types.keys).ids.map .enter }

/-- The search does its next task. -/
inductive Step (types : Table Ident TypeDecl) (s : State) : State → Prop
  | leave {id : Ident} {tasks : List Task} (ht : s.tasks = .leave id :: tasks) :
      Step types s (leave { s with tasks } id)
  | enter {id : Ident} {tasks : List Task} {s' : State} (ht : s.tasks = .enter id :: tasks)
      (he : enter types { s with tasks } id = .ok s') : Step types s s'

/-- The search does a number of tasks. -/
inductive Steps (types : Table Ident TypeDecl) (s : State) : Nat → State → Prop
  | none : Steps types s 0 s
  | more {n : Nat} {s₁ s₂ : State} : Steps types s n s₁ → Step types s₁ s₂ →
      Steps types s (n + 1) s₂

/-- Entering a type that has been left changes nothing; otherwise neither the type nor one of its
operands is active, and the operands that have not been left are to be entered. -/
theorem cases_of_enter (he : enter types s id = .ok s') :
    s' = s ∨ (id ∉ s.done ∧ id ∉ s.active ∧ ∃ decl, types.get? id = some decl ∧
      (∀ o ∈ decl.operands, o ∉ s.active) ∧ id ∉ decl.operands ∧
      s' = { s with
        active := id :: s.active
        tasks := (decl.operands.filter (· ∉ s.done)).reverse.map .enter ++
          .leave id :: s.tasks }) := by
  unfold enter at he
  split at he
  · cases he
    exact Or.inl rfl
  · rename_i hdone
    split at he
    · cases he
    · rename_i hactive
      split at he
      · cases he
      · rename_i decl hget
        split at he
        · cases he
        · rename_i hfind
          have hfree : ∀ o ∈ decl.operands, o ∉ id :: s.active := by
            simpa only [List.find?_eq_none, decide_eq_true_eq] using hfind
          cases he
          refine Or.inr ⟨hdone, hactive, decl, hget, fun o ho hmem => ?_, fun ho => ?_, rfl⟩
          · exact hfree o ho (List.mem_cons_of_mem id hmem)
          · exact hfree id ho List.mem_cons_self

/-- A declared type that is not active is refused for an operand: one that is active, or the type
itself. -/
theorem exists_active_of_enter {e : Fault} (he : enter types s id = .error e)
    (hactive : id ∉ s.active) (hkey : id ∈ types.keys) :
    ∃ o, Uses types id o ∧ (o = id ∨ o ∈ s.active) ∧ e = .corrupted (.typeCycle o) := by
  obtain ⟨decl, hget⟩ := Option.isSome_iff_exists.mp (Table.mem_keys_iff.mp hkey)
  unfold enter at he
  split at he
  · cases he
  · simp only [hget] at he
    split at he
    · rename_i o hfind
      cases he
      have hmem : o ∈ id :: s.active := by simpa using List.find?_some hfind
      exact ⟨o, ⟨decl, hget, List.mem_of_find?_eq_some hfind⟩, List.mem_cons.mp hmem, rfl⟩
    · cases he

/-- A step does not change what the search comes to. -/
theorem Step.run_eq (h : Step types s s') : run types s' = run types s := by
  cases h with
  | @leave id tasks ht =>
    obtain ⟨done, active, _⟩ := s
    cases ht
    conv_rhs => unfold run
  | @enter id tasks _ ht he =>
    obtain ⟨done, active, _⟩ := s
    cases ht
    conv_rhs => unfold run
    split
    · rename_i s₁ he₁
      rw [he] at he₁
      cases he₁
      rfl
    · rename_i e he₁
      rw [he] at he₁
      cases he₁

/-- **A step makes the search lighter.** -/
theorem Step.weight_lt (h : Step types s s') : weight types s' < weight types s := by
  cases h with
  | @leave id tasks ht =>
    have hle := weight_leave types { s with tasks } id
    simp only [weight, isFresh, ht, List.length_cons] at hle ⊢
    omega
  | @enter id tasks _ ht he =>
    have hle := weight_enter he
    simp only [weight, isFresh, ht, List.length_cons] at hle ⊢
    omega

theorem Steps.weight_le {n : Nat} (h : Steps types s n s') :
    n + weight types s' ≤ weight types s := by
  induction h with
  | none => omega
  | more _ hstep ih =>
    have := hstep.weight_lt
    omega

theorem Steps.run_eq {n : Nat} (h : Steps types s n s') : run types s' = run types s := by
  induction h with
  | none => rfl
  | more _ hstep ih => rw [hstep.run_eq, ih]

/-! ## The stack is a path -/

/-- The type that a task leaves. -/
def Task.left? : Task → Option Ident
  | .leave id => some id
  | .enter _ => none

/-- The types that a stack leaves, next first. -/
def pending (tasks : List Task) : List Ident := tasks.filterMap Task.left?

@[simp] theorem pending_leave : pending (.leave id :: tasks) = id :: pending tasks := rfl

@[simp] theorem pending_enter : pending (.enter id :: tasks) = pending tasks := rfl

@[simp] theorem pending_map_enter (ids : List Ident) : pending (ids.map .enter) = [] := by
  induction ids with
  | nil => rfl
  | cons id ids ih => exact ih

@[simp] theorem pending_enter_append (ids : List Ident) :
    pending (ids.map .enter ++ tasks) = pending tasks := by
  rw [pending, List.filterMap_append, ← pending, pending_map_enter, List.nil_append, pending]

/-- The type of every task is an operand of the next type that is left below it, if there is one,
and is not itself left below it. -/
def Stacked (types : Table Ident TypeDecl) : List Task → Prop
  | [] => True
  | t :: tasks =>
    (∀ id, (pending tasks).head? = some id → Uses types id t.subject) ∧
      t.subject ∉ pending tasks ∧ Stacked types tasks

/-- Every type that is left below a task is built from the type of the task. -/
theorem Stacked.reaches {t : Task} (h : Stacked types (t :: tasks)) {a : Ident}
    (ha : a ∈ pending tasks) : Relation.TransGen (Uses types) a t.subject := by
  induction tasks generalizing t with
  | nil => cases ha
  | cons u tasks ih =>
    obtain ⟨hhead, hnot, hu⟩ := h
    cases u with
    | enter id => exact ih ⟨hhead, hnot, hu.2.2⟩ ha
    | leave id =>
      have huses : Uses types id t.subject := hhead id rfl
      rcases List.mem_cons.mp ha with rfl | ha
      · exact .single huses
      · exact (ih hu ha).tail huses

/-- Operands of the next type that is left may be entered before, unless they are left later. -/
theorem Stacked.enter_append {ids : List Ident} (h : Stacked types (.leave id :: tasks))
    (hids : ∀ o ∈ ids, Uses types id o ∧ o ∉ id :: pending tasks) :
    Stacked types (ids.map .enter ++ .leave id :: tasks) := by
  induction ids with
  | nil => exact h
  | cons o ids ih =>
    obtain ⟨⟨huses, hnot⟩, hids⟩ := List.forall_mem_cons.mp hids
    have hpending : pending (ids.map .enter ++ .leave id :: tasks) = id :: pending tasks := by
      rw [pending_enter_append, pending_leave]
    refine ⟨fun a ha => ?_, ?_, ih hids⟩
    · have ha : (pending (ids.map .enter ++ .leave id :: tasks)).head? = some a := ha
      rw [hpending, List.head?_cons, Option.some.injEq] at ha
      exact ha ▸ huses
    · show o ∉ pending (ids.map .enter ++ .leave id :: tasks)
      rw [hpending]
      exact hnot

theorem stacked_map_enter (ids : List Ident) : Stacked types (ids.map .enter) := by
  induction ids with
  | nil => trivial
  | cons id ids ih =>
    refine ⟨fun a ha => ?_, ?_, ih⟩
    · rw [pending_map_enter] at ha
      cases ha
    · rw [pending_map_enter]
      exact List.not_mem_nil

/-! ## The invariant -/

/-- What the search keeps: the stack is a path, and its pending types are the active ones; a type
is active or done once at most; and only declared types are met. -/
structure Searching (types : Table Ident TypeDecl) (s : State) : Prop where
  stacked : Stacked types s.tasks
  active : s.active = pending s.tasks
  nodup : (s.active ++ s.done).Nodup
  subjects : ∀ t ∈ s.tasks, t.subject ∈ types.keys
  done : ∀ id ∈ s.done, id ∈ types.keys

theorem searching_start : Searching types (start types) where
  stacked := stacked_map_enter _
  active := (pending_map_enter _).symm
  nodup := List.nodup_nil
  subjects := by
    intro t ht
    obtain ⟨id, hid, rfl⟩ := List.mem_map.mp ht
    exact IdSet.mem_ofList.mp hid
  done := by simp [start]

/-- **A type that is active is never entered again.** -/
theorem Searching.not_mem_active (h : Searching types s) (ht : s.tasks = .enter id :: tasks) :
    id ∉ s.active := by
  have hstacked := h.stacked
  rw [ht] at hstacked
  rw [h.active, ht]
  exact hstacked.2.1

/-- Leaving the next type keeps the search as it should be. -/
theorem Searching.leave (h : Searching types s) (ht : s.tasks = .leave id :: tasks) :
    Searching types (leave { s with tasks } id) := by
  have hactive : s.active = id :: pending tasks := by rw [h.active, ht, pending_leave]
  have herase : s.active.erase id = pending tasks := by rw [hactive, List.erase_cons_head]
  refine ⟨?_, herase, ?_, fun t htask => h.subjects t ?_, ?_⟩
  · have hstacked := h.stacked
    rw [ht] at hstacked
    exact hstacked.2.2
  · show (s.active.erase id ++ id :: s.done).Nodup
    have hnodup := h.nodup
    rw [hactive] at hnodup
    rw [herase]
    exact List.nodup_middle.mpr hnodup
  · rw [ht]
    exact List.mem_cons_of_mem _ htask
  · refine List.forall_mem_cons.mpr ⟨?_, h.done⟩
    exact h.subjects (.leave id) (by simp [ht])

/-- Entering the next type keeps the search as it should be. -/
theorem Searching.enter (hclosed : OperandsDeclared types) (h : Searching types s)
    (ht : s.tasks = .enter id :: tasks) (he : enter types { s with tasks } id = .ok s') :
    Searching types s' := by
  have hstacked := h.stacked
  have hactive := h.active
  have hsubjects := h.subjects
  rw [ht] at hstacked hactive hsubjects
  rw [pending_enter] at hactive
  rcases cases_of_enter he with rfl | ⟨hdone, hfresh, decl, hget, hfree, hself, rfl⟩
  · exact ⟨hstacked.2.2, hactive, h.nodup, (List.forall_mem_cons.mp hsubjects).2, h.done⟩
  · have huses : ∀ o ∈ (decl.operands.filter (· ∉ s.done)).reverse, Uses types id o := by
      intro o ho
      exact ⟨decl, hget, (List.mem_filter.mp (List.mem_reverse.mp ho)).1⟩
    refine ⟨?_, ?_, ?_, ?_, h.done⟩
    · refine Stacked.enter_append hstacked fun o ho => ⟨huses o ho, ?_⟩
      have hmem := (List.mem_filter.mp (List.mem_reverse.mp ho)).1
      rw [← hactive, List.mem_cons, not_or]
      exact ⟨fun heq => hself (heq ▸ hmem), hfree o hmem⟩
    · show id :: s.active = _
      rw [pending_enter_append, pending_leave, hactive]
    · show (id :: (s.active ++ s.done)).Nodup
      refine List.nodup_cons.mpr ⟨?_, h.nodup⟩
      rw [List.mem_append, not_or]
      exact ⟨hfresh, hdone⟩
    · intro t htask
      rcases List.mem_append.mp htask with htask | htask
      · obtain ⟨o, ho, rfl⟩ := List.mem_map.mp htask
        exact hclosed id o (huses o ho)
      · rcases List.mem_cons.mp htask with rfl | htask
        · exact hsubjects (.enter id) List.mem_cons_self
        · exact hsubjects t (List.mem_cons_of_mem _ htask)

/-- **One step** keeps the search as it should be. -/
theorem Searching.step (hclosed : OperandsDeclared types) (h : Searching types s)
    (hstep : Step types s s') : Searching types s' := by
  cases hstep with
  | leave ht => exact h.leave ht
  | enter ht he => exact h.enter hclosed ht he

/-- **Any number of steps** keeps the search as it should be. -/
theorem Searching.steps (hclosed : OperandsDeclared types) (h : Searching types s) {n : Nat}
    (hsteps : Steps types s n s') : Searching types s' := by
  induction hsteps with
  | none => exact h
  | more _ hstep ih => exact ih.step hclosed hstep

/-- What is reported is a cyclic type. -/
theorem Searching.cyclic_of_enter (h : Searching types s) (ht : s.tasks = .enter id :: tasks)
    {e : Fault} (he : TypeOrder.enter types { s with tasks } id = .error e) :
    ∃ o, e = .corrupted (.typeCycle o) ∧ Cyclic types o := by
  have hkey : id ∈ types.keys := h.subjects (.enter id) (by simp [ht])
  obtain ⟨o, huses, ho, rfl⟩ := exists_active_of_enter he (h.not_mem_active ht) hkey
  refine ⟨o, rfl, ?_⟩
  rcases ho with rfl | ho
  · exact .single huses
  · -- the operand is entered further down on the path to the type
    have hstacked := h.stacked
    have hpending : o ∈ s.active := ho
    rw [h.active, ht, pending_enter] at hpending
    rw [ht] at hstacked
    exact (hstacked.reaches hpending).tail huses

theorem Searching.run_ok (hclosed : OperandsDeclared types) (h : Searching types s)
    {done : List Ident} (hr : run types s = .ok done) :
    done.Nodup ∧ ∀ id ∈ done, id ∈ types.keys := by
  fun_induction TypeOrder.run types s with
  | case1 s hs =>
    cases hr
    exact ⟨(List.nodup_append.mp h.nodup).2.1, h.done⟩
  | case2 s id tasks hs ih => exact ih (h.leave hs) hr
  | case3 s id tasks hs s' he ih => exact ih (h.enter hclosed hs he) hr
  | case4 s id tasks hs e he => cases hr

theorem Searching.run_error (hclosed : OperandsDeclared types) (h : Searching types s) {e : Fault}
    (hr : run types s = .error e) : ∃ o, e = .corrupted (.typeCycle o) ∧ Cyclic types o := by
  fun_induction TypeOrder.run types s with
  | case1 s hs => cases hr
  | case2 s id tasks hs ih => exact ih (h.leave hs) hr
  | case3 s id tasks hs s' he ih => exact ih (h.enter hclosed hs he) hr
  | case4 s id tasks hs e' he =>
    cases hr
    exact h.cyclic_of_enter hs he

/-! ## Ordered types are not cyclic -/

theorem Ordered.of_append {before after : List Ident} (h : Ordered types (after ++ before)) :
    Ordered types before := by
  induction after with
  | nil => exact h
  | cons id after ih => exact ih h.2

/-- The operands of an ordered type are behind it. -/
theorem Ordered.mem_of_uses {before : List Ident} (h : Ordered types (id :: before))
    (huses : Uses types id o) : o ∈ before := by
  obtain ⟨decl, hget, hmem⟩ := huses
  obtain ⟨⟨decl', hget', hoperands⟩, -⟩ := h
  rw [hget] at hget'
  cases hget'
  exact hoperands o hmem

/-- All that an ordered type is built from is behind it. -/
theorem Ordered.mem_of_transGen {before : List Ident} (h : Ordered types (id :: before))
    (huses : Relation.TransGen (Uses types) id o) : o ∈ before := by
  induction huses with
  | single huses => exact h.mem_of_uses huses
  | tail _ huses ih =>
    obtain ⟨after, before', rfl⟩ := List.append_of_mem ih
    have hbefore : Ordered types _ := h.2.of_append
    exact List.mem_append_right _ (List.mem_cons_of_mem _ (hbefore.mem_of_uses huses))

theorem Ordered.not_cyclic {list : List Ident} (h : Ordered types list) (hnodup : list.Nodup)
    (hid : id ∈ list) : ¬Cyclic types id := by
  intro hcyclic
  obtain ⟨after, before, rfl⟩ := List.append_of_mem hid
  have hbefore : id ∈ before := h.of_append.mem_of_transGen hcyclic
  exact (List.nodup_cons.mp (List.nodup_append.mp hnodup).2.1).1 hbefore

/-! ## The result -/

theorem sort_eq : sort types = List.reverse <$> run types (start types) := rfl

/-- An order of the types lists each declared type once, after its operands. -/
theorem sort_eq_ok (hclosed : OperandsDeclared types) {order : List Ident}
    (h : sort types = .ok order) :
    order.Nodup ∧ (∀ id, id ∈ order ↔ id ∈ types.keys) ∧ Ordered types order.reverse := by
  obtain ⟨hall, hordered⟩ := orders_sort h
  rw [sort_eq] at h
  obtain ⟨done, hrun, rfl⟩ := map_eq_ok_iff.mp h
  obtain ⟨hnodup, hdone⟩ := searching_start.run_ok hclosed hrun
  refine ⟨List.nodup_reverse.mpr hnodup, fun id => ⟨fun hid => ?_, hall id⟩, hordered⟩
  exact hdone id (List.mem_reverse.mp hid)

/-- The fault of types without an order names one that is built from itself. -/
theorem sort_eq_error (hclosed : OperandsDeclared types) {e : Fault} (h : sort types = .error e) :
    ∃ id, e = .corrupted (.typeCycle id) ∧ Cyclic types id := by
  rw [sort_eq] at h
  cases hrun : run types (start types) with
  | ok done => simp [hrun] at h
  | error e' =>
    rw [hrun] at h
    cases h
    exact searching_start.run_error hclosed hrun

/-- **The order of types is sound and complete.** For a table that declares the operands of its
types, there is an order exactly if no type is built from itself. The order lists every declared
type once and no other, with the operands of a type before it; the fault, if there is no order,
names a type that is built from itself. The search ends after a number of steps that is known
beforehand, and it never comes to a type that it has entered and not left. -/
theorem sort_exact (hclosed : OperandsDeclared types) :
    ((∃ order, sort types = .ok order) ↔ ∀ id, ¬Cyclic types id) ∧
    (∀ order, sort types = .ok order →
      order.Nodup ∧ (∀ id, id ∈ order ↔ id ∈ types.keys) ∧
        ∀ before id after, order = before ++ id :: after → ∀ o, Uses types id o → o ∈ before) ∧
    (∀ e, sort types = .error e → ∃ id, e = .corrupted (.typeCycle id) ∧ Cyclic types id) ∧
    ∀ n s, Steps types (start types) n s →
      n + weight types s ≤ weight types (start types) ∧
        sort types = List.reverse <$> run types s ∧
        ∀ id tasks, s.tasks = .enter id :: tasks → id ∉ s.active := by
  refine ⟨⟨?_, fun hacyclic => ?_⟩, ?_, fun e h => sort_eq_error hclosed h, ?_⟩
  · rintro ⟨order, h⟩ id hcyclic
    obtain ⟨hnodup, hmem, hordered⟩ := sort_eq_ok hclosed h
    have hid : id ∈ order.reverse := List.mem_reverse.mpr ((hmem id).mpr hcyclic.mem_keys)
    exact hordered.not_cyclic (List.nodup_reverse.mpr hnodup) hid hcyclic
  · cases h : sort types with
    | ok order => exact ⟨order, rfl⟩
    | error e =>
      obtain ⟨id, -, hcyclic⟩ := sort_eq_error hclosed h
      exact absurd hcyclic (hacyclic id)
  · intro order h
    obtain ⟨hnodup, hmem, hordered⟩ := sort_eq_ok hclosed h
    refine ⟨hnodup, hmem, ?_⟩
    rintro before id after rfl o huses
    have hsplit : (before ++ id :: after).reverse = after.reverse ++ id :: before.reverse := by
      simp
    rw [hsplit] at hordered
    exact List.mem_reverse.mp (hordered.of_append.mem_of_uses huses)
  · intro n s hsteps
    have hsearching := searching_start.steps hclosed hsteps
    refine ⟨hsteps.weight_le, by rw [sort_eq, hsteps.run_eq], ?_⟩
    intro id tasks ht
    exact hsearching.not_mem_active ht

/-- A struct that has a member of one type twice, and another one of a type that is built from
it. -/
def sampleTable : Table Ident TypeDecl where
  entries := [(5, .struct none [{ type := 2 }, { type := 1 }, { type := 2 }] false),
    (2, .vector 1 4), (1, .float 32), (7, .pointer .uniform 5)]
  nodup := by decide

theorem operandsDeclared_sampleTable : OperandsDeclared sampleTable := by
  have hall : (sampleTable.entries.all fun e =>
      e.2.operands.all (sampleTable.keys.contains ·)) = true := by
    decide +kernel
  rintro id o ⟨decl, hget, ho⟩
  have hentry := List.all_eq_true.mp hall (id, decl) (Table.get?_eq_some_iff.mp hget)
  exact List.contains_iff_mem.mp (List.all_eq_true.mp hentry o ho)

set_option maxRecDepth 100000 in
theorem sample_sort_exact : OperandsDeclared sampleTable ∧ sort sampleTable = .ok [1, 2, 5, 7] ∧
    ∀ id, ¬Cyclic sampleTable id := by
  have hsort : sort sampleTable = .ok [1, 2, 5, 7] := by decide +kernel
  exact ⟨operandsDeclared_sampleTable, hsort,
    (sort_exact operandsDeclared_sampleTable).1.mp ⟨_, hsort⟩⟩

end ShaderReflect.TypeOrder
