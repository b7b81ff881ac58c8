import ShaderReflect.IdSet

/-!
# Orders of visits

Where entries are kept by a hash of their keys, they have no order of their own: a run goes through
them one by one, in some order that the next run need not repeat. A `Visit` is such an order, and
`Visits` has one for each place where a run goes through entries of that kind. What is computed
takes them as a parameter, so that what is proved for all `Visits` is proved for all runs.

* `Visit.mem_order`: a visit leaves nothing out and adds nothing.
* `Visit.ascending`: the order in which everything is gone through if nothing else is said.

Look-ups by key do not depend on an order, and tables (`Table`) and sets (`IdSet`) have an order
here because it is convenient; so an order is a parameter in those places only where it can show.
These are:

* the checks of what is declared (`Graph.check`), which stop at the first fault: types, forward
  pointers, constants, functions and the callees of each function are gone through in an open order.
  Variables are gone through in ascending order, and entry points in the order of their
  declarations;
* the notes about overrides that no constant takes (`Specialization.ignored`).

Two more places go through such entries without a parameter, as nothing of the order is left in what
they compute. What is said about types is attached to each of them on its own
(`Draft.annotatedTypes`). The search for what an entry point reaches collects sets; that every order
gives the same sets, and that none can fail where another does not, is proved in
`Proofs/Stage/Reachability` and `Proofs/Stage/Faults`.
-/

namespace ShaderReflect

/-- An order in which the members of sets are gone through in one run, each of them once. -/
structure Visit where
  order : IdSet → List Ident
  perm : ∀ s, (order s).Perm s.ids

namespace Visit

/-- To go through sets in ascending order. -/
def ascending : Visit := ⟨IdSet.ids, fun _ => .refl _⟩

instance : Inhabited Visit := ⟨ascending⟩

/-- A visit goes to the members of a set and nowhere else. -/
@[simp] theorem mem_order {v : Visit} {s : IdSet} {id : Ident} : id ∈ v.order s ↔ id ∈ s.ids :=
  (v.perm s).mem_iff

@[simp] theorem order_ascending (s : IdSet) : ascending.order s = s.ids := rfl

end Visit

/-- The orders in which one run goes through what has no order of its own. -/
structure Visits where
  types : Visit := .ascending
  forwardPointers : Visit := .ascending
  constants : Visit := .ascending
  functions : Visit := .ascending
  /-- The callees of each function are kept apart from those of others. -/
  callees : Ident → Visit := fun _ => .ascending
  overrides : Visit := .ascending

namespace Visits

instance : Inhabited Visits := ⟨{}⟩

end Visits

end ShaderReflect
