import ShaderReflect.Proofs.Layout.Names

/-!
# Every claim gives a fresh name

A search for a free name ends, and soon: the names that it looks at are different, and all but the
last one are taken, so it looks at one name more than are taken at most.

* `Tries.unique`: there is one way to search. `Tries.length_le`: how long it takes.
* `Claimed`, `ClaimedEach`: what one claim does to a table, and what claims in a row do.
* `claim_exact`: all claims do that.

Specification, 4.6 (collisions take suffixes, never failing). The names that are taken may be any,
those that look like variants of the requested one included: nothing is assumed of how the table was
filled. A variant is told apart from the others by its count, as decimal numbers are.
-/

namespace ShaderReflect

namespace NameTable

/-- The names that are taken, as a set. -/
def taken (t : NameTable) : Finset String := t.used.toFinset

namespace Tries

variable {taken : Finset String} {name : String} {position k : Nat}
  {tried tried' : List String} {free free' : String}

/-- **There is one way to search.** -/
theorem unique (h : Tries taken name position k tried free)
    (h' : Tries taken name position k tried' free') : tried = tried' ∧ free = free' := by
  induction h generalizing tried' free' with
  | found h =>
    cases h' with
    | found => exact ⟨rfl, rfl⟩
    | next hmem => exact absurd hmem h
  | next h _ ih =>
    cases h' with
    | found hfree => exact absurd h hfree
    | next _ rest =>
      obtain ⟨rfl, rfl⟩ := ih rest
      exact ⟨rfl, rfl⟩

/-- The names that are tried are variants with numbers in a row. -/
theorem eq_map_variant (h : Tries taken name position k tried free) :
    tried = (List.range' k tried.length).map (variant name position) := by
  induction h with
  | found => rfl
  | next _ _ ih => rw [List.length_cons, List.range'_succ, List.map_cons, ← ih]

/-- **No name is tried twice.** -/
theorem nodup (h : Tries taken name position k tried free) : tried.Nodup := by
  rw [h.eq_map_variant]
  exact List.Nodup.map (fun _ _ => variant_injective) List.nodup_range'

/-- All names that are tried are taken, but for the one that is found. -/
theorem subset_insert (h : Tries taken name position k tried free) :
    tried.toFinset ⊆ insert free taken := by
  induction h with
  | found =>
    rw [List.toFinset_cons]
    exact Finset.insert_subset_insert _ (Finset.empty_subset _)
  | next h _ ih =>
    rw [List.toFinset_cons]
    exact Finset.insert_subset (Finset.mem_insert_of_mem h) ih

/-- **A search tries at most one name more than are taken.** -/
theorem length_le (h : Tries taken name position k tried free) :
    tried.length ≤ taken.card + 1 := by
  calc tried.length
      = tried.toFinset.card := (List.toFinset_card_of_nodup h.nodup).symm
    _ ≤ (insert free taken).card := Finset.card_le_card h.subset_insert
    _ ≤ taken.card + 1 := Finset.card_insert_le free taken

/-- No variant is tried with a number that is greater than that of the names that are taken. -/
theorem number_le (h : Tries taken name position 0 tried free) :
    ∀ candidate ∈ tried, ∃ k ≤ taken.card, candidate = variant name position k := by
  intro candidate hmem
  rw [h.eq_map_variant] at hmem
  obtain ⟨k, hk, rfl⟩ := List.mem_map.mp hmem
  have hlt : k < 0 + tried.length := (List.mem_range'_1.mp hk).2
  have hlength := h.length_le
  exact ⟨k, by omega, rfl⟩

/-- A name is given as it is if and only if it is free. -/
theorem eq_name_iff (h : Tries taken name position 0 tried free) :
    free = name ↔ name ∉ taken := by
  constructor
  · rintro rfl
    exact h.not_mem
  · intro hfree
    exact (h.unique (found (k := 0) hfree)).2

end Tries

/-! ## What claims do to a table -/

/-- What it is to claim a name at a position: to try its variants in order, with numbers up to that
of the names that are taken at most, until one is `free`, and to take that one and no other. -/
structure Claimed (t : NameTable) (name : String) (position : Nat) (tried : List String)
    (free : String) (t' : NameTable) : Prop where
  search : Tries t.taken name position 0 tried free
  length_le : tried.length ≤ t.taken.card + 1
  numbers : ∀ candidate ∈ tried, ∃ k ≤ t.taken.card, candidate = variant name position k
  fresh : free ∉ t.taken
  taken_eq : t'.taken = insert free t.taken
  eq_name_iff : free = name ↔ name ∉ t.taken

/-- What it is to claim names in a row: each is given one that is different from those that are
taken and from those that are given to the others, and these names and no others are taken. -/
structure ClaimedEach (t : NameTable) (requests : List (String × Nat)) (frees : List String)
    (t' : NameTable) : Prop where
  length_eq : frees.length = requests.length
  distinct : frees.Nodup
  fresh : ∀ free ∈ frees, free ∉ t.taken
  taken_eq : t'.taken = frees.toFinset ∪ t.taken

theorem taken_claim (t : NameTable) (name : String) (position : Nat) :
    (t.claim name position).2.taken = insert (t.claim name position).1 t.taken := by
  rw [taken, used_claim, List.toFinset_cons, taken]

theorem taken_claimEach (t : NameTable) (requests : List (String × Nat)) :
    (t.claimEach requests).2.taken = (t.claimEach requests).1.toFinset ∪ t.taken := by
  rw [taken, used_claimEach, List.toFinset_append, List.toFinset_reverse, taken]

theorem exists_claimed (t : NameTable) (name : String) (position : Nat) :
    ∃ tried, Claimed t name position tried (t.claim name position).1 (t.claim name position).2 := by
  have hsearch : ∃ tried, Tries t.taken name position 0 tried (t.claim name position).1 :=
    exists_tries_firstFree t.used name position 0
  obtain ⟨tried, search⟩ := hsearch
  exact ⟨tried, {
    search
    length_le := search.length_le
    numbers := search.number_le
    fresh := search.not_mem
    taken_eq := t.taken_claim name position
    eq_name_iff := search.eq_name_iff }⟩

theorem claimedEach (t : NameTable) (requests : List (String × Nat)) :
    ClaimedEach t requests (t.claimEach requests).1 (t.claimEach requests).2 where
  length_eq := t.length_claimEach requests
  distinct := t.nodup_claimEach requests
  fresh _ h hmem := not_mem_of_mem_claimEach h (List.mem_toFinset.mp hmem)
  taken_eq := t.taken_claimEach requests

/-- **Claiming a name always gives a fresh one.** Whatever names are taken, a claim ends after it
has tried at most one name more than are taken. The count in a variant is less than its number, so
the counts stay below the number of the names that are taken: a count of limited width runs over
only if more names are taken than it can count. -/
theorem claim_exact (t : NameTable) :
    (∀ name position, ∃ tried,
      Claimed t name position tried (t.claim name position).1 (t.claim name position).2) ∧
    ∀ requests, ClaimedEach t requests (t.claimEach requests).1 (t.claimEach requests).2 :=
  ⟨t.exists_claimed, t.claimedEach⟩

/-- Names that look like variants do not get in the way. -/
example : (({} : NameTable).claimEach [("a", 0), ("a", 1), ("a_1", 2), ("a", 1)]).1 =
    ["a", "a_1", "a_1_2", "a_1_1"] := by decide +kernel

end NameTable

end ShaderReflect
