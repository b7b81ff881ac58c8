import Mathlib.Data.List.Forall2
import ShaderReflect.Trace

/-!
# Computations that end with a result

A computation in `Except` ends with a result exactly if all of its steps do. The lemmas here take
such a computation apart, step by step (`bind_eq_ok_iff`) or item by item (`mapM_eq_ok_iff`,
`forM_eq_ok_iff`, `foldlM_invariant`, `foldlM_parts_iff`). A `Traced` computation is one in `Except`
as far as its result goes (`result_foldlM`, `result_forM_note`).

There are two directions for a failure. `exists_of_forM_eq_error` finds the item that a loop over a
list fails for, and `forM_bind_eq_error` takes a row of loops apart; neither says that it is the
first such item, since the list may be in any order.
-/

namespace ShaderReflect

section

variable {ε ε' α β ρ σ τ : Type}

@[simp] theorem ok_bind (a : α) (f : α → Except ε β) : Except.ok a >>= f = f a := rfl

@[simp] theorem error_bind (e : ε) (f : α → Except ε β) : Except.error e >>= f = .error e := rfl

@[simp] theorem map_ok (f : α → β) (a : α) : f <$> (Except.ok a : Except ε α) = .ok (f a) := rfl

@[simp] theorem pure_eq_ok (a : α) : (pure a : Except ε α) = .ok a := rfl

@[simp] theorem throw_eq_error (e : ε) : (throw e : Except ε α) = .error e := rfl

theorem bind_eq_ok_iff {x : Except ε α} {f : α → Except ε β} {b : β} :
    x >>= f = .ok b ↔ ∃ a, x = .ok a ∧ f a = .ok b := by
  cases x with
  | ok a => simp
  | error e => simp

theorem map_eq_ok_iff {f : α → β} {x : Except ε α} {b : β} :
    f <$> x = .ok b ↔ ∃ a, x = .ok a ∧ f a = b := by
  cases x with
  | ok a => simp
  | error e => simp

/-- Two computations look the same if both end with results that look the same, or both fail
alike. -/
theorem map_eq_map_iff {γ : Type} {f : α → γ} {g : β → γ} {x : Except ε α} {y : Except ε β} :
    f <$> x = g <$> y ↔
      (∃ a b, x = .ok a ∧ y = .ok b ∧ f a = g b) ∨ ∃ e, x = .error e ∧ y = .error e := by
  cases x with
  | ok a => cases y <;> simp
  | error e => cases y <;> simp [eq_comm]

/-- Computations that look the same go on to look the same if what follows does, for results that
look the same. -/
theorem map_bind_congr {γ δ α' β' : Type} {f : α → γ} {f' : α' → γ} {g : β → δ} {g' : β' → δ}
    {x : Except ε α} {x' : Except ε α'} {k : α → Except ε β} {k' : α' → Except ε β'}
    (hx : f <$> x = f' <$> x') (hk : ∀ a a', f a = f' a' → g <$> k a = g' <$> k' a') :
    g <$> (x >>= k) = g' <$> (x' >>= k') := by
  rcases map_eq_map_iff.mp hx with ⟨a, a', rfl, rfl, heq⟩ | ⟨e, rfl, rfl⟩
  · exact hk a a' heq
  · rfl

theorem map_bind_congr_right {δ β' : Type} {g : β → δ} {g' : β' → δ} (x : Except ε α)
    {k : α → Except ε β} {k' : α → Except ε β'} (hk : ∀ a, g <$> k a = g' <$> k' a) :
    g <$> (x >>= k) = g' <$> (x >>= k') := by
  cases x with
  | ok a => exact hk a
  | error e => rfl

/-- A check of a result that passes tells that there is a result. -/
theorem exists_eq_ok_of_any {x : Except ε α} {p : α → Bool} (h : x.toOption.any p = true) :
    ∃ a, x = .ok a ∧ p a = true := by
  cases x with
  | ok a => exact ⟨a, rfl, h⟩
  | error e => cases h

@[simp] theorem liftM_fault_ok (a : α) :
    (liftM (Except.ok a : Except Fault α) : Except Stop α) = .ok a := rfl

@[simp] theorem liftM_fault_error (e : Fault) :
    (liftM (Except.error e : Except Fault α) : Except Stop α) = .error (.fault e) := rfl

@[simp] theorem liftM_overflow_ok (a : α) :
    (liftM (Except.ok a : Except Overflow α) : Except Stop α) = .ok a := rfl

@[simp] theorem liftM_overflow_error (e : Overflow) :
    (liftM (Except.error e : Except Overflow α) : Except Stop α) = .error (.overflow e) := rfl

theorem liftM_fault_eq_ok_iff {x : Except Fault α} {a : α} :
    (liftM x : Except Stop α) = .ok a ↔ x = .ok a := by
  cases x with
  | ok b => simp
  | error e => simp

theorem liftM_overflow_eq_ok_iff {x : Except Overflow α} {a : α} :
    (liftM x : Except Stop α) = .ok a ↔ x = .ok a := by
  cases x with
  | ok b => simp
  | error e => simp

/-! ## Lists -/

theorem forM_eq_ok_iff {f : α → Except ε Unit} {xs : List α} :
    xs.forM f = .ok () ↔ ∀ x ∈ xs, f x = .ok () := by
  induction xs with
  | nil =>
    show (pure () : Except ε Unit) = .ok () ↔ _
    simp
  | cons x xs ih =>
    show (f x >>= fun _ => xs.forM f) = .ok () ↔ _
    rw [bind_eq_ok_iff, List.forall_mem_cons]
    constructor
    · rintro ⟨u, hx, hxs⟩
      exact ⟨hx, ih.mp hxs⟩
    · rintro ⟨hx, hxs⟩
      exact ⟨(), hx, ih.mpr hxs⟩

theorem forM_bind_eq_ok_iff {f : α → Except ε Unit} {xs : List α} {rest : PUnit → Except ε β}
    {b : β} : xs.forM f >>= rest = .ok b ↔ (∀ x ∈ xs, f x = .ok ()) ∧ rest () = .ok b := by
  rw [bind_eq_ok_iff, ← forM_eq_ok_iff]
  exact ⟨fun ⟨_, h, h'⟩ => ⟨h, h'⟩, fun ⟨h, h'⟩ => ⟨(), h, h'⟩⟩

/-- A run over a list fails at one of the items. -/
theorem exists_of_forM_eq_error {f : α → Except ε Unit} {xs : List α} {e : ε}
    (h : xs.forM f = .error e) : ∃ x ∈ xs, f x = .error e := by
  induction xs with
  | nil => cases h
  | cons x xs ih =>
    have h : (f x >>= fun _ => xs.forM f) = .error e := h
    cases hx : f x with
    | ok u =>
      rw [hx] at h
      obtain ⟨y, hy, he⟩ := ih h
      exact ⟨y, List.mem_cons_of_mem x hy, he⟩
    | error e' =>
      rw [hx] at h
      cases h
      exact ⟨x, List.mem_cons_self, hx⟩

theorem forM_bind_eq_error {f : α → Except ε Unit} {xs : List α} {rest : PUnit → Except ε β} {e : ε}
    (h : xs.forM f >>= rest = .error e) : (∃ x ∈ xs, f x = .error e) ∨ rest () = .error e := by
  cases hxs : xs.forM f with
  | ok u =>
    rw [hxs] at h
    exact .inr h
  | error e' =>
    rw [hxs] at h
    cases h
    exact .inl (exists_of_forM_eq_error hxs)

theorem mapM_eq_ok_iff {f : α → Except ε β} {xs : List α} {ys : List β} :
    xs.mapM f = .ok ys ↔ List.Forall₂ (fun x y => f x = .ok y) xs ys := by
  induction xs generalizing ys with
  | nil =>
    rw [List.mapM_nil, List.forall₂_nil_left_iff, pure_eq_ok, Except.ok.injEq]
    exact eq_comm
  | cons x xs ih =>
    rw [List.mapM_cons, bind_eq_ok_iff, List.forall₂_cons_left_iff]
    constructor
    · rintro ⟨y, hy, h⟩
      obtain ⟨zs, hzs, h⟩ := bind_eq_ok_iff.mp h
      cases h
      exact ⟨y, zs, hy, ih.mp hzs, rfl⟩
    · rintro ⟨y, zs, hy, hzs, rfl⟩
      exact ⟨y, hy, by rw [ih.mpr hzs]; rfl⟩

/-- Two lists that go together go together at every place. -/
theorem getElem?_eq_some_of_forall₂ {R : α → β → Prop} {xs : List α} {ys : List β}
    (h : List.Forall₂ R xs ys) {k : Nat} {y : β} (hy : ys[k]? = some y) :
    ∃ x, xs[k]? = some x ∧ R x y := by
  induction h generalizing k with
  | nil => cases hy
  | cons hx _ ih =>
    cases k with
    | zero =>
      cases hy
      exact ⟨_, rfl, hx⟩
    | succ k => exact ih hy

/-- There is a list that goes together with another one if there is an item for each item. -/
theorem exists_forall₂_iff {R : α → β → Prop} {xs : List α} :
    (∃ ys, List.Forall₂ R xs ys) ↔ ∀ x ∈ xs, ∃ y, R x y := by
  induction xs with
  | nil => simp
  | cons x xs ih =>
    rw [List.forall_mem_cons, ← ih]
    constructor
    · rintro ⟨_, h⟩
      cases h with
      | cons hx hxs => exact ⟨⟨_, hx⟩, _, hxs⟩
    · rintro ⟨⟨y, hy⟩, ys, hys⟩
      exact ⟨y :: ys, .cons hy hys⟩

/-- The result at a place is that of the item at the same place. -/
theorem exists_of_mapM_eq_ok {f : α → Except ε β} {xs : List α} {ys : List β}
    (h : xs.mapM f = .ok ys) {k : Nat} {y : β} (hy : ys[k]? = some y) :
    ∃ x, xs[k]? = some x ∧ f x = .ok y :=
  getElem?_eq_some_of_forall₂ (mapM_eq_ok_iff.mp h) hy

/-- Runs over a list look the same if they do for each item. -/
theorem map_mapM_congr {γ β' : Type} {f : α → Except ε β} {f' : α → Except ε β'} {g : β → γ}
    {g' : β' → γ} {xs : List α} (h : ∀ x ∈ xs, g <$> f x = g' <$> f' x) :
    List.map g <$> xs.mapM f = List.map g' <$> xs.mapM f' := by
  induction xs with
  | nil => rfl
  | cons x xs ih =>
    rw [List.forall_mem_cons] at h
    rw [List.mapM_cons, List.mapM_cons]
    refine map_bind_congr h.1 fun y y' hy => map_bind_congr (ih h.2) fun ys ys' hys => ?_
    simp only [pure_eq_ok, map_ok, List.map_cons, hy, hys]

/-- The results are those of the items. -/
theorem mem_iff_of_mapM_eq_ok {f : α → Except ε β} {xs : List α} {ys : List β}
    (h : xs.mapM f = .ok ys) {y : β} : y ∈ ys ↔ ∃ x ∈ xs, f x = .ok y := by
  rw [mapM_eq_ok_iff] at h
  induction h with
  | nil => simp
  | cons hx _ ih => simp [hx, ih, eq_comm]

/-- A run over a list ends with a result exactly if it does for each item. -/
theorem exists_mapM_eq_ok_iff {f : α → Except ε β} {xs : List α} :
    (∃ ys, xs.mapM f = .ok ys) ↔ ∀ x ∈ xs, ∃ y, f x = .ok y := by
  simp only [mapM_eq_ok_iff, exists_forall₂_iff]

/-- What holds at the start of a run over a list and survives each step holds at its end. -/
theorem foldlM_invariant {P : σ → Prop} {f : σ → α → Except ε σ} {xs : List α} {s t : σ}
    (h : xs.foldlM f s = .ok t) (hs : P s)
    (step : ∀ x ∈ xs, ∀ s s', P s → f s x = .ok s' → P s') : P t := by
  induction xs generalizing s with
  | nil =>
    cases h
    exact hs
  | cons x xs ih =>
    rw [List.foldlM_cons, bind_eq_ok_iff] at h
    obtain ⟨s', h₁, h₂⟩ := h
    exact ih h₂ (step x List.mem_cons_self s s' hs h₁) fun y hy =>
      step y (List.mem_cons_of_mem x hy)

/-- Each item of a run that ends with a result is a step from some state. -/
theorem exists_step_of_foldlM {f : σ → α → Except ε σ} {xs : List α} {s t : σ}
    (h : xs.foldlM f s = .ok t) {x : α} (hx : x ∈ xs) : ∃ s' t', f s' x = .ok t' := by
  obtain ⟨before, after, rfl⟩ := List.append_of_mem hx
  rw [List.foldlM_append, bind_eq_ok_iff] at h
  obtain ⟨s', -, h⟩ := h
  rw [List.foldlM_cons, bind_eq_ok_iff] at h
  obtain ⟨t', ht', -⟩ := h
  exact ⟨s', t', ht'⟩

/-- A run over a list fails exactly if an item fails after those before it have ended with a
result. -/
theorem foldlM_eq_error_iff {f : σ → α → Except ε σ} {xs : List α} {s : σ} {e : ε} :
    xs.foldlM f s = .error e ↔ ∃ before x after t, xs = before ++ x :: after ∧
      before.foldlM f s = .ok t ∧ f t x = .error e := by
  induction xs generalizing s with
  | nil => simp
  | cons y ys ih =>
    rw [List.foldlM_cons]
    cases hy : f s y with
    | error e' =>
      constructor
      · intro h
        exact ⟨[], y, ys, s, rfl, rfl, hy.trans h⟩
      · rintro ⟨before, x, after, t, hsplit, ht, he⟩
        cases before with
        | nil =>
          cases hsplit
          cases ht
          exact hy.symm.trans he
        | cons z before =>
          cases hsplit
          rw [List.foldlM_cons, hy] at ht
          cases ht
    | ok s' =>
      rw [ok_bind, ih]
      constructor
      · rintro ⟨before, x, after, t, rfl, ht, he⟩
        exact ⟨y :: before, x, after, t, rfl, by rw [List.foldlM_cons, hy]; exact ht, he⟩
      · rintro ⟨before, x, after, t, hsplit, ht, he⟩
        cases before with
        | nil =>
          cases hsplit
          cases ht
          rw [hy] at he
          cases he
        | cons z before =>
          cases hsplit
          rw [List.foldlM_cons, hy] at ht
          exact ⟨before, x, after, t, rfl, ht, he⟩

/-- A run over a list ends with a result if no item can fail. -/
theorem exists_foldlM_eq_ok {f : σ → α → Except ε σ} {xs : List α} {s : σ}
    (h : ∀ x ∈ xs, ∀ t e, f t x ≠ .error e) : ∃ t, xs.foldlM f s = .ok t := by
  cases hrun : xs.foldlM f s with
  | ok t => exact ⟨t, rfl⟩
  | error e =>
    obtain ⟨before, x, after, t, rfl, -, he⟩ := foldlM_eq_error_iff.mp hrun
    exact absurd he (h x (List.mem_append_right _ List.mem_cons_self) t e)

/-- Runs over a list are the same if their steps are. -/
theorem foldlM_congr {f f' : σ → α → Except ε σ} {xs : List α} {s : σ}
    (h : ∀ x ∈ xs, ∀ t, f t x = f' t x) : xs.foldlM f s = xs.foldlM f' s := by
  induction xs generalizing s with
  | nil => rfl
  | cons x xs ih =>
    rw [List.forall_mem_cons] at h
    simp only [List.foldlM_cons, h.1, ih h.2]

/-- What a run over a list adds to a part of the state is what its items add. -/
theorem foldlM_append (part : σ → List β) {add : α → Option β} {f : σ → α → Except ε σ}
    {xs : List α} {s t : σ} (h : xs.foldlM f s = .ok t)
    (step : ∀ x ∈ xs, ∀ s s', f s x = .ok s' → part s' = part s ++ (add x).toList) :
    part t = part s ++ xs.filterMap add := by
  induction xs generalizing s with
  | nil =>
    cases h
    exact (List.append_nil _).symm
  | cons x xs ih =>
    rw [List.foldlM_cons, bind_eq_ok_iff] at h
    obtain ⟨s', h₁, h₂⟩ := h
    rw [ih h₂ fun y hy => step y (List.mem_cons_of_mem x hy), step x List.mem_cons_self s s' h₁,
      List.append_assoc, List.filterMap_cons]
    cases add x <;> rfl

/-- A run over a list, of which some items change one part of the state and the others change the
other part, is two runs. -/
theorem foldlM_parts_iff {p : α → Bool} {mk : σ → τ → ρ} {step : ρ → α → Except ε ρ}
    {f : σ → α → Except ε σ} {g : τ → α → Except ε τ} {xs : List α} {s : σ} {t : τ} {r : ρ}
    (hf : ∀ x, p x = true → ∀ s t, step (mk s t) x = (mk · t) <$> f s x)
    (hg : ∀ x, p x = false → ∀ s t, step (mk s t) x = mk s <$> g t x) :
    xs.foldlM step (mk s t) = .ok r ↔ ∃ s' t', (xs.filter p).foldlM f s = .ok s' ∧
      (xs.filter (!p ·)).foldlM g t = .ok t' ∧ r = mk s' t' := by
  induction xs generalizing s t with
  | nil =>
    constructor
    · intro h
      cases h
      exact ⟨s, t, rfl, rfl, rfl⟩
    · rintro ⟨s', t', hs, ht, rfl⟩
      cases hs
      cases ht
      rfl
  | cons x xs ih =>
    rw [List.foldlM_cons, bind_eq_ok_iff]
    cases hx : p x with
    | true =>
      rw [hf x hx, List.filter_cons_of_pos hx, List.filter_cons_of_neg (by simp [hx])]
      simp only [map_eq_ok_iff, List.foldlM_cons, bind_eq_ok_iff]
      constructor
      · rintro ⟨_, ⟨s₁, hs₁, rfl⟩, h⟩
        obtain ⟨s', t', hs', ht', rfl⟩ := ih.mp h
        exact ⟨s', t', ⟨s₁, hs₁, hs'⟩, ht', rfl⟩
      · rintro ⟨s', t', ⟨s₁, hs₁, hs'⟩, ht', rfl⟩
        exact ⟨_, ⟨s₁, hs₁, rfl⟩, ih.mpr ⟨s', t', hs', ht', rfl⟩⟩
    | false =>
      rw [hg x hx, List.filter_cons_of_neg (by simp [hx]), List.filter_cons_of_pos (by simp [hx])]
      simp only [map_eq_ok_iff, List.foldlM_cons, bind_eq_ok_iff]
      constructor
      · rintro ⟨_, ⟨t₁, ht₁, rfl⟩, h⟩
        obtain ⟨s', t', hs', ht', rfl⟩ := ih.mp h
        exact ⟨s', t', hs', ⟨t₁, ht₁, ht'⟩, rfl⟩
      · rintro ⟨s', t', hs', ⟨t₁, ht₁, ht'⟩, rfl⟩
        exact ⟨_, ⟨t₁, ht₁, rfl⟩, ih.mpr ⟨s', t', hs', ht', rfl⟩⟩

end

/-! ## Traced computations -/

namespace Traced

variable {α β σ : Type}

@[simp] theorem result_liftM_fault (x : Except Fault α) :
    (liftM x : Traced α).result = (liftM x : Except Stop α) := rfl

@[simp] theorem result_liftM_stop (x : Except Stop α) : (liftM x : Traced α).result = x := rfl

theorem result_foldlM (f : σ → α → Traced σ) (xs : List α) (s : σ) :
    (xs.foldlM f s).result = xs.foldlM (fun s x => (f s x).result) s := by
  induction xs generalizing s with
  | nil => rfl
  | cons x xs ih => simp only [List.foldlM_cons, result_bind, ih]

theorem result_forM {f : α → Traced Unit} {xs : List α} (h : ∀ x ∈ xs, (f x).result = .ok ()) :
    (xs.forM f).result = .ok () := by
  induction xs with
  | nil => rfl
  | cons x xs ih =>
    rw [List.forall_mem_cons] at h
    show (f x >>= fun _ => xs.forM f).result = .ok ()
    rw [result_bind, h.1, ok_bind, ih h.2]

theorem result_forM_note (events : List Event) : (events.forM note).result = .ok () :=
  result_forM fun _ _ => rfl

end Traced

end ShaderReflect
