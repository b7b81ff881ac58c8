import ShaderReflect.Word

/-!
# Sets of IDs

An `IdSet` is a strictly ascending list of IDs. The order is part of the type, so a set is known by
its members (`IdSet.ext_mem`) and is listed in ascending order whatever order it was filled in.

It stands for two kinds of sets. Functions and resources that are reached are listed in ascending
order (specification, 4.4), so for these sets the order is meant. The callees and accesses of a
function and the announced pointers have no order of their own; where it can show in which order
these are gone through, that is a parameter (`Visits`).

* `mem_insert`, `mem_insertAll`, `mem_ofList` and `mem_filter` say what each operation holds.
* `IdSet.ext_mem`: two sets with the same members are equal.
-/

namespace ShaderReflect

/-- A set of IDs, listed in ascending order. -/
structure IdSet where
  /-- The members, in ascending order. -/
  ids : List Ident
  /-- The order is strict, so no member is listed twice. -/
  ascending : ids.Pairwise (· < ·)
deriving DecidableEq

/-- Put `x` at its place in an ascending list, once. -/
def insertAscending (x : Ident) : List Ident → List Ident
  | [] => [x]
  | y :: ys =>
    if x < y then x :: y :: ys
    else if x = y then y :: ys
    else y :: insertAscending x ys

theorem mem_insertAscending {x y : Ident} {ys : List Ident} :
    y ∈ insertAscending x ys ↔ y = x ∨ y ∈ ys := by
  induction ys with
  | nil => simp [insertAscending]
  | cons z zs ih =>
    unfold insertAscending
    split
    · simp
    · split
      · simp_all
      · simp only [List.mem_cons, ih]
        exact or_left_comm

theorem pairwise_insertAscending {x : Ident} {ys : List Ident} (h : ys.Pairwise (· < ·)) :
    (insertAscending x ys).Pairwise (· < ·) := by
  induction ys with
  | nil => simp [insertAscending]
  | cons z zs ih =>
    have hz := List.pairwise_cons.mp h
    unfold insertAscending
    split
    · rename_i hx
      refine List.pairwise_cons.mpr ⟨fun a ha => ?_, h⟩
      rcases List.mem_cons.mp ha with rfl | ha
      · exact hx
      · exact UInt32.lt_trans hx (hz.1 a ha)
    · split
      · exact h
      · rename_i hlt hne
        refine List.pairwise_cons.mpr ⟨fun a ha => ?_, ih hz.2⟩
        rcases mem_insertAscending.mp ha with rfl | ha
        · exact UInt32.lt_of_le_of_ne (UInt32.not_lt.mp hlt) fun e => hne e.symm
        · exact hz.1 a ha

namespace IdSet

instance : Membership Ident IdSet := ⟨fun s x => x ∈ s.ids⟩

instance (x : Ident) (s : IdSet) : Decidable (x ∈ s) := inferInstanceAs (Decidable (x ∈ s.ids))

theorem mem_iff {x : Ident} {s : IdSet} : x ∈ s ↔ x ∈ s.ids := Iff.rfl

/-- The set without members. -/
def empty : IdSet := ⟨[], List.Pairwise.nil⟩

instance : Inhabited IdSet := ⟨empty⟩

/-- The set with `x` added. -/
def insert (s : IdSet) (x : Ident) : IdSet :=
  ⟨insertAscending x s.ids, pairwise_insertAscending s.ascending⟩

/-- The set with every ID of a list added. -/
def insertAll (s : IdSet) (xs : List Ident) : IdSet := xs.foldl insert s

/-- The IDs of a list, in ascending order and once each. -/
def ofList (xs : List Ident) : IdSet := empty.insertAll xs

/-- The members that pass a test. -/
def filter (s : IdSet) (p : Ident → Bool) : IdSet := ⟨s.ids.filter p, s.ascending.filter p⟩

/-- The number of members. -/
def size (s : IdSet) : Nat := s.ids.length

@[simp] theorem not_mem_empty {x : Ident} : x ∉ empty := List.not_mem_nil

@[simp] theorem mem_insert {s : IdSet} {x y : Ident} : y ∈ s.insert x ↔ y = x ∨ y ∈ s :=
  mem_insertAscending

@[simp] theorem mem_insertAll {s : IdSet} {xs : List Ident} {y : Ident} :
    y ∈ s.insertAll xs ↔ y ∈ xs ∨ y ∈ s := by
  induction xs generalizing s with
  | nil => simp [insertAll]
  | cons x xs ih =>
    show y ∈ (s.insert x).insertAll xs ↔ _
    rw [ih, mem_insert, List.mem_cons]
    constructor
    · rintro (h | h | h) <;> simp [h]
    · rintro ((h | h) | h) <;> simp [h]

@[simp] theorem mem_ofList {xs : List Ident} {y : Ident} : y ∈ ofList xs ↔ y ∈ xs := by
  simp [ofList]

@[simp] theorem mem_filter {s : IdSet} {p : Ident → Bool} {y : Ident} :
    y ∈ s.filter p ↔ y ∈ s ∧ p y = true :=
  List.mem_filter

/-- Two strictly ascending lists with the same members are equal. -/
theorem eq_of_ascending {xs ys : List Ident} (hx : xs.Pairwise (· < ·))
    (hy : ys.Pairwise (· < ·)) (h : ∀ a, a ∈ xs ↔ a ∈ ys) : xs = ys := by
  induction xs generalizing ys with
  | nil =>
    cases ys with
    | nil => rfl
    | cons y ys => exact absurd ((h y).mpr (by simp)) (by simp)
  | cons x xs ih =>
    cases ys with
    | nil => exact absurd ((h x).mp (by simp)) (by simp)
    | cons y ys =>
      have hx' := List.pairwise_cons.mp hx
      have hy' := List.pairwise_cons.mp hy
      have hxy : x = y := by
        rcases List.mem_cons.mp ((h x).mp (by simp)) with e | hm
        · exact e
        · rcases List.mem_cons.mp ((h y).mpr (by simp)) with e | hm'
          · exact e.symm
          · exact absurd (UInt32.lt_trans (hy'.1 x hm) (hx'.1 y hm')) (UInt32.lt_irrefl y)
      subst hxy
      refine congrArg (x :: ·) (ih hx'.2 hy'.2 fun a => ?_)
      constructor
      · intro ha
        rcases List.mem_cons.mp ((h a).mp (List.mem_cons_of_mem x ha)) with e | hm
        · exact absurd (e ▸ hx'.1 a ha) (UInt32.lt_irrefl x)
        · exact hm
      · intro ha
        rcases List.mem_cons.mp ((h a).mpr (List.mem_cons_of_mem x ha)) with e | hm
        · exact absurd (e ▸ hy'.1 a ha) (UInt32.lt_irrefl x)
        · exact hm

/-- A set is known by its members. -/
theorem ext_mem {s t : IdSet} (h : ∀ a, a ∈ s ↔ a ∈ t) : s = t := by
  cases s with
  | mk xs hx =>
    cases t with
    | mk ys hy =>
      have : xs = ys := eq_of_ascending hx hy h
      subst this
      rfl

end IdSet

end ShaderReflect
