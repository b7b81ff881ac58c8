/-!
# Names that are unique

A `NameTable` holds the names that are taken in a scope. To *claim* a name is to take it, or, if it
is taken, the first of its variants that is free: the name with a position, then with the position
and a count from one (specification, 4.6: collisions take a suffix, never failing).

There are three kinds of scopes. Structs share one for the whole reflection, the members of a struct
have one each, and so have the named items of an entry point, all five lists of them together.

The search for a free variant ends: each variant that is found taken is one of finitely many names,
and no two variants are alike, so `firstFree` need not look at that name again. The count is a
natural number; it is smaller than the number of names that are taken, so a bounded one would do as
long as these fit into memory.
-/

namespace ShaderReflect

/-- The names that are taken in a scope. -/
structure NameTable where
  used : List String := []
deriving Repr

namespace NameTable

/-- Variant number `k` of a name: the name, the name with a position, and then with a count. -/
def variant (name : String) (position : Nat) : Nat → String
  | 0 => name
  | 1 => name ++ "_" ++ toString position
  | k + 2 => name ++ "_" ++ toString position ++ "_" ++ toString (k + 1)

/-- The first variant from number `k` on that is not among the used names. -/
def firstFree (used : List String) (name : String) (position k : Nat) : String :=
  if h : variant name position k ∈ used then
    firstFree (used.erase (variant name position k)) name position (k + 1)
  else variant name position k
termination_by used.length
decreasing_by
  rw [List.length_erase_of_mem h]
  exact Nat.sub_lt (List.length_pos_of_mem h) Nat.one_pos

/-- Claim a name at a position. -/
def claim (t : NameTable) (name : String) (position : Nat) : String × NameTable :=
  let free := firstFree t.used name position 0
  (free, ⟨free :: t.used⟩)

/-- Claim names in order; the position of each is its place in the list, counted from `first`. -/
def claimFrom (t : NameTable) : Nat → List String → List String × NameTable
  | _, [] => ([], t)
  | first, name :: names =>
    let (free, t) := t.claim name first
    let (frees, t) := t.claimFrom (first + 1) names
    (free :: frees, t)

/-- Claim names in order, each at its place in the list. -/
def claimAll (t : NameTable) (names : List String) : List String × NameTable :=
  t.claimFrom 0 names

end NameTable

end ShaderReflect
