import ShaderReflect.Declared.TypeOrder
import ShaderReflect.Proofs.Outcome

/-!
# The order of types is sound

In the order that the search ends with, every type follows the types that it is built from
(`orders_sort`). What carries the search is `Planned`: when the time has come to leave a type, its
operands have been left.

This is all that later modules need of the order: recursion over types has a depth that is bounded
by its length. That the order is complete, and that the search fails for cycles only, is in
`Proofs/Declared/Cycles`.
-/

namespace ShaderReflect.TypeOrder

variable {types : Table Ident TypeDecl}

/-- The types of a list are declared, and each is built from those behind it. -/
def Ordered (types : Table Ident TypeDecl) : List Ident → Prop
  | [] => True
  | id :: before =>
    (∃ decl, types.get? id = some decl ∧ ∀ o ∈ decl.operands, o ∈ before) ∧ Ordered types before

/-- The tasks can be done one after the other: a type is left when its operands have been. `soon`
are the types that will have been left by then. -/
def Planned (types : Table Ident TypeDecl) (soon : List Ident) : List Task → Prop
  | [] => True
  | .enter id :: tasks => Planned types (id :: soon) tasks
  | .leave id :: tasks =>
    (∃ decl, types.get? id = some decl ∧ ∀ o ∈ decl.operands, o ∈ soon) ∧
      Planned types (id :: soon) tasks

/-- The type of a task. -/
def Task.subject : Task → Ident
  | .enter id | .leave id => id

theorem Planned.mono {tasks : List Task} {soon soon' : List Ident} (h : Planned types soon tasks)
    (hs : soon ⊆ soon') : Planned types soon' tasks := by
  induction tasks generalizing soon soon' with
  | nil => trivial
  | cons t tasks ih =>
    cases t with
    | enter id =>
      have h : Planned types (id :: soon) tasks := h
      exact ih h (List.cons_subset_cons id hs)
    | leave id =>
      obtain ⟨⟨decl, hd, ho⟩, ht⟩ := h
      exact ⟨⟨decl, hd, fun o h => hs (ho o h)⟩, ih ht (List.cons_subset_cons id hs)⟩

theorem planned_enter_append {ids soon : List Ident} {tasks : List Task} :
    Planned types soon (ids.map Task.enter ++ tasks) ↔
      Planned types (ids.reverse ++ soon) tasks := by
  induction ids generalizing soon with
  | nil => rfl
  | cons id ids ih =>
    show Planned types (id :: soon) (ids.map Task.enter ++ tasks) ↔ _
    rw [ih, List.reverse_cons, List.append_assoc]
    rfl

/-- What the search keeps: the types that have been left are ordered, the tasks are planned, and
no type of the table is forgotten. -/
structure Sound (types : Table Ident TypeDecl) (s : State) : Prop where
  ordered : Ordered types s.done
  planned : Planned types s.done s.tasks
  all : ∀ id ∈ types.keys, id ∈ s.done ∨ id ∈ s.tasks.map Task.subject

theorem Sound.leave {s : State} {id : Ident} {tasks : List Task} (h : Sound types s)
    (ht : s.tasks = .leave id :: tasks) : Sound types (leave { s with tasks } id) := by
  have hp := h.planned
  rw [ht] at hp
  refine ⟨⟨hp.1, h.ordered⟩, hp.2, fun x hx => ?_⟩
  rcases h.all x hx with hd | hm
  · exact Or.inl (List.mem_cons_of_mem id hd)
  · rw [ht] at hm
    rcases List.mem_cons.mp hm with rfl | hm
    · exact Or.inl List.mem_cons_self
    · exact Or.inr hm

theorem Sound.enter {s s' : State} {id : Ident} {tasks : List Task} (h : Sound types s)
    (ht : s.tasks = .enter id :: tasks) (he : enter types { s with tasks } id = .ok s') :
    Sound types s' := by
  have hp : Planned types (id :: s.done) tasks := by
    have hp := h.planned
    rw [ht] at hp
    exact hp
  have hall : ∀ x ∈ types.keys, x = id ∨ x ∈ s.done ∨ x ∈ tasks.map Task.subject := by
    intro x hx
    have hm := h.all x hx
    rw [ht] at hm
    rcases hm with hd | hm
    · exact Or.inr (Or.inl hd)
    · rcases List.mem_cons.mp hm with hid | hm
      · exact Or.inl hid
      · exact Or.inr (Or.inr hm)
  unfold TypeOrder.enter at he
  split at he
  · rename_i hdone
    cases he
    refine ⟨h.ordered, hp.mono ?_, fun x hx => ?_⟩
    · exact List.cons_subset.mpr ⟨hdone, List.Subset.refl _⟩
    · rcases hall x hx with rfl | hx
      · exact Or.inl hdone
      · exact hx
  · split at he
    · cases he
    · split at he
      · cases he
      · rename_i decl hdecl
        split at he
        · cases he
        · cases he
          refine ⟨h.ordered, planned_enter_append.mpr ⟨⟨decl, hdecl, fun o ho => ?_⟩, ?_⟩, ?_⟩
          · by_cases hd : o ∈ s.done
            · exact List.mem_append_right _ hd
            · refine List.mem_append_left _ ?_
              rw [List.reverse_reverse]
              exact List.mem_filter.mpr ⟨ho, by simpa using hd⟩
          · exact hp.mono (List.cons_subset_cons id (List.subset_append_right _ _))
          · intro x hx
            rw [List.map_append, List.mem_append, List.map_cons, List.mem_cons]
            rcases hall x hx with hid | hd | hm
            · exact Or.inr (Or.inr (Or.inl hid))
            · exact Or.inl hd
            · exact Or.inr (Or.inr (Or.inr hm))

theorem Sound.run {s : State} {done : List Ident} (h : Sound types s)
    (hr : run types s = .ok done) : Ordered types done ∧ ∀ id ∈ types.keys, id ∈ done := by
  fun_induction TypeOrder.run types s with
  | case1 s hs =>
    cases hr
    refine ⟨h.ordered, fun id hid => ?_⟩
    rcases h.all id hid with hd | hm
    · exact hd
    · rw [hs] at hm
      cases hm
  | case2 s id tasks hs ih => exact ih (h.leave hs) hr
  | case3 s id tasks hs s' he ih => exact ih (h.enter hs he) hr
  | case4 s id tasks hs e he => cases hr

/-- The types of a list are declared, and each is built from those before it. -/
structure Orders (types : Table Ident TypeDecl) (order : List Ident) : Prop where
  all : ∀ id ∈ types.keys, id ∈ order
  ordered : Ordered types order.reverse

/-- **A sorted table is in order**: every type follows the types that it is built from. -/
theorem orders_sort {order : List Ident} (h : sort types = .ok order) : Orders types order := by
  unfold sort at h
  obtain ⟨done, hr, rfl⟩ := map_eq_ok_iff.mp h
  have hplan : ∀ ids soon : List Ident, Planned types soon (ids.map Task.enter) := by
    intro ids soon
    rw [← List.append_nil (ids.map Task.enter), planned_enter_append]
    trivial
  have h0 : Sound types ⟨[], [], (IdSet.ofList types.keys).ids.map .enter⟩ := by
    refine ⟨trivial, hplan _ _, fun id hid => Or.inr ?_⟩
    rw [List.map_map]
    exact List.mem_map.mpr ⟨id, IdSet.mem_iff.mp (IdSet.mem_ofList.mpr hid), rfl⟩
  obtain ⟨ho, ha⟩ := h0.run hr
  refine ⟨fun id hid => List.mem_reverse.mpr (ha id hid), ?_⟩
  rw [List.reverse_reverse]
  exact ho

end ShaderReflect.TypeOrder
