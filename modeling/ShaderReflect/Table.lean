/-!
# First-come tables

A `Table κ α` keeps entries under distinct keys in the order in which they came. An entry is never
replaced: `insertNew?` refuses a key that is taken, and `insertFirst` keeps the entry that is there.
The former is for what may be declared once (specification, 4.2: duplicate result IDs are
malformed), the latter for names and decorations, of which the first one counts. That keys are
distinct is part of the type, so a look-up has one answer wherever it starts.

The order of entries means something for constants, which are evaluated in it. Other tables are
asked for the entry under a key, or gone through in the order of their keys or in one that is a
parameter (`Visits`), so the order that they have here does not show.

* `get?_insertNew?`, `get?_insertFirst`: what each way of adding does to look-ups.
* `mem_keys_iff`: the keys are those that `get?` answers.
-/

namespace ShaderReflect

/-- Entries under distinct keys, in the order in which they came. -/
structure Table (κ α : Type) where
  /-- The entries, oldest first. -/
  entries : List (κ × α) := []
  /-- No key has two entries. -/
  nodup : (entries.map Prod.fst).Nodup := by simp

namespace Table

variable {κ α β : Type}

/-- The table without entries. -/
def empty : Table κ α where

instance : Inhabited (Table κ α) := ⟨empty⟩

/-- The keys, oldest first. -/
def keys (t : Table κ α) : List κ := t.entries.map Prod.fst

/-- The number of entries. -/
def size (t : Table κ α) : Nat := t.entries.length

/-- Each entry changed in the light of its key. -/
def mapWithKey (t : Table κ α) (f : κ → α → β) : Table κ β where
  entries := t.entries.map fun e => (e.1, f e.1 e.2)
  nodup := by
    have h : (t.entries.map fun e => (e.1, f e.1 e.2)).map Prod.fst = t.entries.map Prod.fst := by
      simp [Function.comp_def]
    rw [h]
    exact t.nodup

variable [DecidableEq κ]

/-- The entry under a key. -/
def get? (t : Table κ α) (k : κ) : Option α := t.entries.lookup k

/-- Whether a key is taken. -/
def contains (t : Table κ α) (k : κ) : Bool := (t.get? k).isSome

/-- The key of no entry finds nothing, and only such a key. -/
theorem lookup_eq_none_iff {k : κ} {es : List (κ × α)} :
    es.lookup k = none ↔ k ∉ es.map Prod.fst := by
  rw [List.lookup_eq_none_iff]
  constructor
  · intro h hk
    obtain ⟨e, he, rfl⟩ := List.mem_map.mp hk
    simpa using h e he
  · intro h e he
    simp only [bne_iff_ne, ne_eq]
    rintro rfl
    exact h (List.mem_map_of_mem he)

/-- A key is taken exactly if it is among the keys. -/
theorem mem_keys_iff {t : Table κ α} {k : κ} : k ∈ t.keys ↔ t.contains k = true := by
  unfold contains keys get?
  rw [Option.isSome_iff_ne_none, ne_eq, lookup_eq_none_iff, Classical.not_not]

/-- The entry under a key is one of the entries. -/
theorem get?_eq_some_iff {t : Table κ α} {k : κ} {a : α} :
    t.get? k = some a ↔ (k, a) ∈ t.entries := by
  cases t with
  | mk es hes =>
    unfold get?
    simp only
    induction es with
    | nil => simp
    | cons e es ih =>
      cases e with
      | mk k' b =>
        have hnd := List.nodup_cons.mp hes
        by_cases h : k = k'
        · subst h
          simp only [List.lookup_cons_self, Option.some.injEq, List.mem_cons, Prod.mk.injEq,
            true_and]
          constructor
          · intro e
            exact Or.inl e.symm
          · rintro (e | hm)
            · exact e.symm
            · exact absurd (List.mem_map_of_mem (f := Prod.fst) hm) hnd.1
        · have h' : (k == k') = false := by simpa using h
          simp only [List.lookup_cons, h', List.mem_cons, Prod.mk.injEq, h, false_and, false_or]
          exact ih hnd.2

/-- Add an entry under a key that is not taken yet. -/
def insertNew? (t : Table κ α) (k : κ) (a : α) : Option (Table κ α) :=
  if h : t.get? k = none then
    some {
      entries := t.entries ++ [(k, a)]
      nodup := by
        have hk : k ∉ t.entries.map Prod.fst := lookup_eq_none_iff.mp h
        rw [List.map_append, List.nodup_append]
        refine ⟨t.nodup, by simp, fun x hx y hy => ?_⟩
        simp only [List.map_cons, List.map_nil, List.mem_singleton] at hy
        exact fun e => hk (hy ▸ e ▸ hx) }
  else none

/-- Add an entry, unless its key is taken. -/
def insertFirst (t : Table κ α) (k : κ) (a : α) : Table κ α := (t.insertNew? k a).getD t

/-- A key is refused exactly if it is taken. -/
theorem insertNew?_eq_none_iff {t : Table κ α} {k : κ} {a : α} :
    t.insertNew? k a = none ↔ t.contains k = true := by
  unfold insertNew? contains
  split <;> rename_i h <;> simp [h, Option.isSome_iff_ne_none]

theorem entries_insertNew? {t t' : Table κ α} {k : κ} {a : α} (h : t.insertNew? k a = some t') :
    t'.entries = t.entries ++ [(k, a)] ∧ t.get? k = none := by
  unfold insertNew? at h
  split at h
  · rename_i hk
    cases h
    exact ⟨rfl, hk⟩
  · cases h

/-- Adding under a new key changes the answer for that key alone. -/
theorem get?_insertNew? {t t' : Table κ α} {k k' : κ} {a : α}
    (h : t.insertNew? k a = some t') :
    t'.get? k' = if k' = k then some a else t.get? k' := by
  obtain ⟨he, hn⟩ := entries_insertNew? h
  unfold get? at *
  rw [he, List.lookup_append, List.lookup_cons, List.lookup_nil]
  by_cases hk : k' = k
  · simp [hk, hn]
  · have hk' : (k' == k) = false := by simpa using hk
    simp [hk, hk']

/-- The first entry under a key stays. -/
theorem get?_insertFirst {t : Table κ α} {k k' : κ} {a : α} :
    (t.insertFirst k a).get? k' = if k' = k then (t.get? k).or (some a) else t.get? k' := by
  unfold insertFirst
  cases h : t.insertNew? k a with
  | none =>
    have hc := insertNew?_eq_none_iff.mp h
    unfold contains at hc
    obtain ⟨b, hb⟩ := Option.isSome_iff_exists.mp hc
    by_cases hk : k' = k
    · simp [hk, hb]
    · simp [hk]
  | some t' =>
    obtain ⟨-, hn⟩ := entries_insertNew? h
    rw [Option.getD_some, get?_insertNew? h, hn]
    simp

end Table

end ShaderReflect
