import Mathlib.Data.Finset.Card
import ShaderReflect.Layout.Arena

/-!
# Claimed names are free

Whatever names are taken, a name that is claimed is one that was not (`claim_not_mem`): the search
for a free variant looks at variants that are all different, and ends at one that it did not find
among the names. So the names that are given in a scope are distinct, at whatever positions they
are claimed (`nodup_claimEach`).

* `Tries`: the search with the names that it looks at, in a table that stays as it is.
  `exists_tries_firstFree`: the search that leaves a name out of the table when it finds it taken
  looks at the same names.
* `UniquelyNamed`: everything has a name, and no two things have the same one.

The table that leaves a name out once it has been found taken is the one of `firstFree`, whose
search ends for that reason. Nobody but that search sees it; what is claimed goes into the whole
table.
-/

namespace ShaderReflect

/-! ## Everything has a name of its own -/

/-- Everything has a name, and no two things have the same one. -/
structure UniquelyNamed (names : List (Option String)) : Prop where
  named : ∀ name ∈ names, name.isSome
  distinct : names.Nodup

instance (names : List (Option String)) : Decidable (UniquelyNamed names) :=
  decidable_of_iff ((∀ name ∈ names, name.isSome) ∧ names.Nodup)
    ⟨fun h => ⟨h.1, h.2⟩, fun h => ⟨h.named, h.distinct⟩⟩

theorem uniquelyNamed_map_some {names : List String} (h : names.Nodup) :
    UniquelyNamed (names.map some) where
  named name hm := by
    obtain ⟨s, -, rfl⟩ := List.mem_map.mp hm
    rfl
  distinct := h.map fun _ _ => Option.some.inj

/-- The name of a struct, which may be absent. -/
def TypeDesc.structName? {τ : Type} : TypeDesc τ → Option (Option String)
  | .struct name _ => some name
  | _ => none

/-- The names of the structs among types. -/
def structNames {τ : Type} (descs : List (TypeDesc τ)) : List (Option String) :=
  descs.filterMap TypeDesc.structName?

namespace NameTable

variable {name : String} {position : Nat} {t : NameTable}

/-! ## Variants -/

theorem toString_injective {m n : Nat} (h : toString m = toString n) : m = n := by
  have hdigits : Nat.toDigits 10 m = Nat.toDigits 10 n := by
    rw [← Nat.toList_repr, ← Nat.toList_repr]
    exact congrArg String.toList h
  rw [← Nat.ofDigitChars_ten_toDigits (n := m), hdigits, Nat.ofDigitChars_ten_toDigits]

theorem length_variant_zero_lt (name : String) (position k : Nat) :
    (variant name position 0).length < (variant name position (k + 1)).length := by
  have hdash : "_".length = 1 := rfl
  cases k <;> simp only [variant, String.length_append, hdash] <;> omega

theorem length_variant_one_lt (name : String) (position k : Nat) :
    (variant name position 1).length < (variant name position (k + 2)).length := by
  have hdash : "_".length = 1 := rfl
  simp only [variant, String.length_append, hdash]
  omega

/-- **No two variants of a name are alike.** -/
theorem variant_injective {j k : Nat} (h : variant name position j = variant name position k) :
    j = k := by
  have hlength := congrArg String.length h
  match j, k with
  | 0, 0 | 1, 1 => rfl
  | 0, k + 1 => exact absurd hlength (Nat.ne_of_lt (length_variant_zero_lt name position k))
  | j + 1, 0 => exact absurd hlength (Nat.ne_of_gt (length_variant_zero_lt name position j))
  | 1, k + 2 => exact absurd hlength (Nat.ne_of_lt (length_variant_one_lt name position k))
  | j + 2, 1 => exact absurd hlength (Nat.ne_of_gt (length_variant_one_lt name position j))
  | j + 2, k + 2 =>
    have hcount := toString_injective ((String.append_right_inj _).mp h)
    omega

/-! ## The first free variant -/

/-- The search from variant number `k` of a name on looks at the names `tried`, one after the other.
All of them are taken but the last one, which is `free`. -/
inductive Tries (taken : Finset String) (name : String) (position : Nat) :
    Nat → List String → String → Prop
  | found {k : Nat} (h : variant name position k ∉ taken) :
    Tries taken name position k [variant name position k] (variant name position k)
  | next {k : Nat} {tried : List String} {free : String} (h : variant name position k ∈ taken)
      (rest : Tries taken name position (k + 1) tried free) :
    Tries taken name position k (variant name position k :: tried) free

section

variable {taken taken' : Finset String} {k : Nat} {tried : List String} {free : String}

theorem Tries.not_mem (h : Tries taken name position k tried free) : free ∉ taken := by
  induction h with
  | found h => exact h
  | next _ _ ih => exact ih

theorem Tries.exists_eq_variant (h : Tries taken name position k tried free) :
    ∃ j, free = variant name position j := by
  induction h with
  | @found k _ => exact ⟨k, rfl⟩
  | next _ _ ih => exact ih

/-- A search depends only on which of the variants ahead of it are taken. -/
theorem Tries.congr (h : Tries taken name position k tried free)
    (hsame : ∀ j, k ≤ j → (variant name position j ∈ taken ↔ variant name position j ∈ taken')) :
    Tries taken' name position k tried free := by
  induction h with
  | found h => exact found fun hmem => h ((hsame _ (Nat.le_refl _)).mpr hmem)
  | next h _ ih =>
    exact next ((hsame _ (Nat.le_refl _)).mp h) (ih fun j hj => hsame j (Nat.le_of_succ_le hj))

end

/-- **The search ends.** A name that was found taken is left out of the table from then on, but all
variants ahead are different from it, so that the search goes on as in the whole table. -/
theorem exists_tries_firstFree (used : List String) (name : String) (position k : Nat) :
    ∃ tried, Tries used.toFinset name position k tried (firstFree used name position k) := by
  fun_induction firstFree used name position k with
  | case1 used k h ih =>
    obtain ⟨tried, htried⟩ := ih
    refine ⟨variant name position k :: tried, .next (List.mem_toFinset.mpr h) ?_⟩
    refine htried.congr fun j hj => ?_
    have hne : variant name position j ≠ variant name position k := fun heq => by
      have := variant_injective heq
      omega
    rw [List.mem_toFinset, List.mem_toFinset, List.mem_erase_of_ne hne]
  | case2 used k h => exact ⟨_, .found fun hmem => h (List.mem_toFinset.mp hmem)⟩

/-! ## Claims -/

/-- **A claimed name was free.** -/
theorem claim_not_mem (t : NameTable) (name : String) (position : Nat) :
    (t.claim name position).1 ∉ t.used := by
  obtain ⟨tried, search⟩ := exists_tries_firstFree t.used name position 0
  exact fun hused => search.not_mem (List.mem_toFinset.mpr hused)

/-- A claimed name is the one that is asked for or a variant of it. -/
theorem exists_claim_eq (t : NameTable) (name : String) (position : Nat) :
    ∃ k, (t.claim name position).1 = variant name position k := by
  obtain ⟨tried, search⟩ := exists_tries_firstFree t.used name position 0
  exact search.exists_eq_variant

theorem used_claim (t : NameTable) (name : String) (position : Nat) :
    (t.claim name position).2.used = (t.claim name position).1 :: t.used := rfl

/-- Claim names in order, each at a position of its own. -/
def claimEach (t : NameTable) : List (String × Nat) → List String × NameTable
  | [] => ([], t)
  | (name, position) :: requests =>
    let (free, t) := t.claim name position
    let (frees, t) := t.claimEach requests
    (free :: frees, t)

theorem length_claimEach (t : NameTable) (requests : List (String × Nat)) :
    (t.claimEach requests).1.length = requests.length := by
  induction requests generalizing t with
  | nil => rfl
  | cons request requests ih =>
    unfold claimEach
    exact congrArg (· + 1) (ih _)

/-- The names that are given are taken from then on. -/
theorem used_claimEach (t : NameTable) (requests : List (String × Nat)) :
    (t.claimEach requests).2.used = (t.claimEach requests).1.reverse ++ t.used := by
  induction requests generalizing t with
  | nil => rfl
  | cons request requests ih =>
    simp only [claimEach, ih, used_claim, List.reverse_cons, List.append_assoc,
      List.singleton_append]

/-- The names that are given were free before the first of them was claimed. -/
theorem not_mem_of_mem_claimEach {requests : List (String × Nat)} {free : String}
    (h : free ∈ (t.claimEach requests).1) : free ∉ t.used := by
  induction requests generalizing t with
  | nil => exact absurd h List.not_mem_nil
  | cons request requests ih =>
    rcases List.mem_cons.mp h with rfl | h
    · exact claim_not_mem t request.1 request.2
    · exact fun hused => ih h (List.mem_cons_of_mem _ hused)

/-- **No name is given twice.** -/
theorem nodup_claimEach (t : NameTable) (requests : List (String × Nat)) :
    (t.claimEach requests).1.Nodup := by
  induction requests generalizing t with
  | nil => exact List.nodup_nil
  | cons request requests ih =>
    -- the first name is taken when the others are claimed
    have hfirst : (t.claim request.1 request.2).1 ∉
        ((t.claim request.1 request.2).2.claimEach requests).1 :=
      fun h => not_mem_of_mem_claimEach h List.mem_cons_self
    exact List.nodup_cons.mpr ⟨hfirst, ih _⟩

/-- The names of a list are claimed at their places. -/
theorem claimFrom_eq (t : NameTable) (first : Nat) (names : List String) :
    t.claimFrom first names = t.claimEach (names.zipIdx first) := by
  induction names generalizing t first with
  | nil => rfl
  | cons name names ih => simp only [claimFrom, List.zipIdx_cons, claimEach, ih]

theorem length_claimAll (t : NameTable) (names : List String) :
    (t.claimAll names).1.length = names.length := by
  rw [claimAll, claimFrom_eq, length_claimEach, List.length_zipIdx]

theorem used_claimFrom (t : NameTable) (first : Nat) (names : List String) :
    (t.claimFrom first names).2.used = (t.claimFrom first names).1.reverse ++ t.used := by
  rw [claimFrom_eq, used_claimEach]

theorem nodup_used_claimFrom (h : t.used.Nodup) (first : Nat) (names : List String) :
    (t.claimFrom first names).2.used.Nodup := by
  rw [claimFrom_eq, used_claimEach]
  refine List.nodup_append.mpr ⟨List.nodup_reverse.mpr (nodup_claimEach t _), h, ?_⟩
  rintro free hfree _ hused rfl
  exact not_mem_of_mem_claimEach (List.mem_reverse.mp hfree) hused

/-- The names of a scope without other names. -/
theorem nodup_claimAll (names : List String) : (({} : NameTable).claimAll names).1.Nodup := by
  rw [claimAll, claimFrom_eq]
  exact nodup_claimEach {} _

end NameTable

theorem Source.length_memberNames (s : Source) (ms : List MemberDecl) :
    (s.memberNames ms).length = ms.length := by
  unfold memberNames
  split
  · rw [List.length_map, NameTable.length_claimAll, List.length_mapIdx]
  · rw [List.length_map]

end ShaderReflect
