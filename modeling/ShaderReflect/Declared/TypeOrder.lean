import ShaderReflect.Declared.Type
import ShaderReflect.Fault
import ShaderReflect.IdSet
import ShaderReflect.Table

/-!
# The order of types

Types are put in an order in which every type follows the types that it is built from. There is such
an order unless a type is built from itself, which is a fault (specification, 4.2: the type graph is
acyclic, checked by an iterative search with explicit sets).

The search goes depth first, from each type in ascending order of IDs, and works on a stack of
tasks: to *enter* a type is to plan its operands and then to *leave* it; a type is put into the
order when it is left. A type that has been entered and not left is *active*. An operand that is
active is a cycle and is reported at once, the first one among the operands of a type. The check
that the type to be entered is not active itself never fires, but belongs to the search.

The search ends because every task either takes a type out of those that are still fresh, or makes
the stack shorter (`weight_enter`, `weight_leave`).

Only declared types are looked up here: `Graph.check` has gone through the operands before.
-/

namespace ShaderReflect.TypeOrder

/-- What is left to be done. -/
inductive Task
  | enter (id : Ident)
  | leave (id : Ident)
deriving DecidableEq, Repr

/-- How far the search has come. -/
structure State where
  /-- The types that have been left, latest first. -/
  done : List Ident
  /-- The types that have been entered and not left, latest first. -/
  active : List Ident
  /-- The tasks, next first. -/
  tasks : List Task
deriving Repr

/-- The state after entering a type: its operands are to be entered, the last one first, and then
it is to be left. Entering a type that has been left changes nothing. -/
def enter (types : Table Ident TypeDecl) (s : State) (id : Ident) : Except Fault State :=
  if id ∈ s.done then .ok s
  else if id ∈ s.active then .error (.corrupted (.typeCycle id))
  else match types.get? id with
    | none => .error (.corrupted (.typeUndeclared id))
    | some decl =>
      match decl.operands.find? (· ∈ id :: s.active) with
      | some operand => .error (.corrupted (.typeCycle operand))
      | none =>
        let planned := (decl.operands.filter (· ∉ s.done)).reverse.map Task.enter
        .ok { s with active := id :: s.active, tasks := planned ++ .leave id :: s.tasks }

/-- The state after leaving a type. -/
def leave (s : State) (id : Ident) : State :=
  { s with done := id :: s.done, active := s.active.erase id }

/-- The types that have been neither left nor entered. -/
def isFresh (s : State) (id : Ident) : Bool := id ∉ s.done ∧ id ∉ s.active

/-- The tasks that a fresh type may give rise to: entering and leaving it, and entering its
operands. -/
def cost (e : Ident × TypeDecl) : Nat := e.2.operands.length + 2

/-- The tasks that fresh types may give rise to. -/
def totalCost : List (Ident × TypeDecl) → Nat
  | [] => 0
  | e :: es => cost e + totalCost es

/-- The tasks that may be left: those planned, and those that fresh types may give rise to. -/
def weight (types : Table Ident TypeDecl) (s : State) : Nat :=
  totalCost (types.entries.filter fun e => isFresh s e.1) + s.tasks.length

theorem totalCost_filter_le {p q : Ident × TypeDecl → Bool} (es : List (Ident × TypeDecl))
    (h : ∀ e, q e = true → p e = true) : totalCost (es.filter q) ≤ totalCost (es.filter p) := by
  induction es with
  | nil => simp
  | cons e es ih =>
    cases hq : q e with
    | true =>
      simp only [hq, h e hq, List.filter_cons_of_pos, totalCost]
      omega
    | false =>
      cases hp : p e with
      | true =>
        simp only [hq, hp, List.filter_cons_of_pos, totalCost, Bool.false_eq_true,
          not_false_eq_true, List.filter_cons_of_neg]
        omega
      | false => simp [hq, hp, ih]

theorem totalCost_filter_lt {p q : Ident × TypeDecl → Bool} {es : List (Ident × TypeDecl)}
    {e : Ident × TypeDecl} (h : ∀ e, q e = true → p e = true) (he : e ∈ es) (hp : p e = true)
    (hq : q e = false) : totalCost (es.filter q) + cost e ≤ totalCost (es.filter p) := by
  induction es with
  | nil => cases he
  | cons e' es ih =>
    rcases List.mem_cons.mp he with rfl | he
    · have := totalCost_filter_le es h
      simp only [hq, hp, List.filter_cons_of_pos, totalCost, Bool.false_eq_true,
        not_false_eq_true, List.filter_cons_of_neg]
      omega
    · have := ih he
      cases hq' : q e' with
      | true =>
        simp only [hq', h e' hq', List.filter_cons_of_pos, totalCost]
        omega
      | false =>
        cases hp' : p e' with
        | true =>
          simp only [hq', hp', List.filter_cons_of_pos, totalCost, Bool.false_eq_true,
            not_false_eq_true, List.filter_cons_of_neg]
          omega
        | false =>
          simpa only [hq', hp', Bool.false_eq_true, not_false_eq_true,
            List.filter_cons_of_neg] using this

theorem weight_leave (types : Table Ident TypeDecl) (s : State) (id : Ident) :
    weight types (leave s id) ≤ weight types s := by
  have : ∀ e : Ident × TypeDecl, isFresh (leave s id) e.1 = true → isFresh s e.1 = true := by
    intro e he
    simp only [isFresh, leave, decide_eq_true_eq, List.mem_cons, not_or] at he ⊢
    exact ⟨he.1.2, fun ha => he.2 ((List.mem_erase_of_ne he.1.1).mpr ha)⟩
  have := totalCost_filter_le types.entries this
  simp only [weight, leave] at this ⊢
  omega

theorem weight_enter {types : Table Ident TypeDecl} {s s' : State} {id : Ident}
    (h : enter types s id = .ok s') : weight types s' ≤ weight types s := by
  unfold enter at h
  split at h
  · cases h
    exact Nat.le_refl _
  · rename_i hd
    split at h
    · cases h
    · rename_i ha
      split at h
      · cases h
      · rename_i decl hdecl
        split at h
        · cases h
        · cases h
          have hmem := Table.get?_eq_some_iff.mp hdecl
          have hsub : ∀ e : Ident × TypeDecl,
              isFresh { s with active := id :: s.active } e.1 = true → isFresh s e.1 = true := by
            intro e he
            simp only [isFresh, decide_eq_true_eq, List.mem_cons, not_or] at he ⊢
            exact ⟨he.1, he.2.2⟩
          have hlt := totalCost_filter_lt hsub hmem (by simp [isFresh, hd, ha])
            (by simp [isFresh])
          have hlen : (decl.operands.filter (· ∉ s.done)).length ≤ decl.operands.length :=
            List.length_filter_le _ _
          simp only [weight, cost, isFresh, List.length_append, List.length_map,
            List.length_reverse, List.length_cons] at hlt hlen ⊢
          omega

/-- Do all tasks; the types that have been left, latest first. -/
def run (types : Table Ident TypeDecl) (s : State) : Except Fault (List Ident) :=
  match _hs : s.tasks with
  | [] => .ok s.done
  | .leave id :: tasks =>
    run types (leave { s with tasks } id)
  | .enter id :: tasks =>
    match _h : enter types { s with tasks } id with
    | .ok s' => run types s'
    | .error e => .error e
termination_by weight types s
decreasing_by
  · have := weight_leave types { s with tasks } id
    simp only [weight, isFresh, _hs, List.length_cons] at this ⊢
    omega
  · have := weight_enter _h
    simp only [weight, isFresh, _hs, List.length_cons] at this ⊢
    omega

/-- The types of a table, each after the types that it is built from. -/
def sort (types : Table Ident TypeDecl) : Except Fault (List Ident) :=
  List.reverse <$>
    run types { done := [], active := [], tasks := (IdSet.ofList types.keys).ids.map .enter }

end ShaderReflect.TypeOrder
