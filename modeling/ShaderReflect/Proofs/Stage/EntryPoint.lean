import Mathlib.Data.List.Zip
import ShaderReflect.Proofs.Layout.Names
import ShaderReflect.Proofs.Layout.Unfolding
import ShaderReflect.Stage.Assembly

/-!
# Names and order do not depend on types

Items are put in order and given names without looking at the types that they refer to. So it does
not matter how they refer to types (`map_sortByOrder`, `EntryPoint.map_withUniqueNames`), and no
reference changes (`EntryPoint.refs_withUniqueNames`). Nor does it matter for the order of items
which others there are (`filter_sortByOrder`). The order is strict if the items differ in what they
are ordered by (`pairwise_sortByOrder`).

Sorting is by triples of numbers that items are told apart by: set, binding and ID for descriptors,
location, component and ID for interface variables.
-/

namespace ShaderReflect

variable {τ σ : Type}

/-! ## Ways of referring that agree -/

/-- The types that a block of push constants refers to. -/
def PushConstant.refs (p : PushConstant τ) : List τ := p.type :: p.members.map (·.type)

theorem MemberDesc.map_congr {f g : τ → σ} {m : MemberDesc τ} (h : f m.type = g m.type) :
    m.map f = m.map g := by
  rw [MemberDesc.map, h]
  rfl

theorem PushConstant.map_congr {f g : τ → σ} {p : PushConstant τ} (h : ∀ i ∈ p.refs, f i = g i) :
    p.map f = p.map g := by
  have hm : p.members.map (·.map f) = p.members.map (·.map g) :=
    List.map_congr_left fun m hm => MemberDesc.map_congr
      (h _ (List.mem_cons_of_mem _ (List.mem_map_of_mem (f := MemberDesc.type) hm)))
  rw [PushConstant.map, h _ List.mem_cons_self, hm]
  rfl

theorem Descriptor.map_congr {f g : τ → σ} {d : Descriptor τ} (h : f d.type = g d.type) :
    d.map f = d.map g := by
  rw [Descriptor.map, h]
  rfl

theorem InterfaceVar.map_congr {f g : τ → σ} {v : InterfaceVar τ} (h : f v.type = g v.type) :
    v.map f = v.map g := by
  rw [InterfaceVar.map, h]
  rfl

theorem SpecConstantVar.map_congr {f g : τ → σ} {c : SpecConstantVar τ} (h : f c.type = g c.type) :
    c.map f = c.map g := by
  rw [SpecConstantVar.map, h]
  rfl

namespace EntryPoint

/-- The references of an entry point are those of its descriptors, push constant blocks, inputs,
outputs and constants. -/
theorem mem_refs {e : EntryPoint τ} {i : τ} : i ∈ e.refs ↔
    (∃ d ∈ e.descriptors, d.type = i) ∨ (∃ p ∈ e.pushConstants, i ∈ p.refs) ∨
    (∃ v ∈ e.inputs, v.type = i) ∨ (∃ v ∈ e.outputs, v.type = i) ∨
    ∃ c ∈ e.specConstants, c.type = i := by
  unfold refs PushConstant.refs
  simp only [List.mem_append, List.mem_map, List.mem_flatMap, or_assoc]

theorem map_congr {f g : τ → σ} {e : EntryPoint τ} (h : ∀ i ∈ e.refs, f i = g i) :
    e.map f = e.map g := by
  have hd : e.descriptors.map (·.map f) = e.descriptors.map (·.map g) :=
    List.map_congr_left fun d hd => Descriptor.map_congr (h _ (mem_refs.mpr (.inl ⟨d, hd, rfl⟩)))
  have hp : e.pushConstants.map (·.map f) = e.pushConstants.map (·.map g) :=
    List.map_congr_left fun p hp => PushConstant.map_congr fun i hi =>
      h i (mem_refs.mpr (.inr (.inl ⟨p, hp, hi⟩)))
  have hi : e.inputs.map (·.map f) = e.inputs.map (·.map g) :=
    List.map_congr_left fun v hv => InterfaceVar.map_congr
      (h _ (mem_refs.mpr (.inr (.inr (.inl ⟨v, hv, rfl⟩)))))
  have ho : e.outputs.map (·.map f) = e.outputs.map (·.map g) :=
    List.map_congr_left fun v hv => InterfaceVar.map_congr
      (h _ (mem_refs.mpr (.inr (.inr (.inr (.inl ⟨v, hv, rfl⟩))))))
  have hc : e.specConstants.map (·.map f) = e.specConstants.map (·.map g) :=
    List.map_congr_left fun c hc => SpecConstantVar.map_congr
      (h _ (mem_refs.mpr (.inr (.inr (.inr (.inr ⟨c, hc, rfl⟩))))))
  simp only [EntryPoint.map, hd, hp, hi, ho, hc]

end EntryPoint

/-! ## Order -/

/-- Items are put in order by what a change of theirs keeps. -/
theorem map_sortByOrder {α β : Type} {order : α → Word × Word × Word}
    {order' : β → Word × Word × Word} {f : α → β} (h : ∀ x, order' (f x) = order x)
    (items : List α) :
    (sortByOrder order items).map f = sortByOrder order' (items.map f) :=
  List.map_mergeSort fun x _ y _ => by rw [h x, h y]

theorem mem_sortByOrder {α : Type} {order : α → Word × Word × Word} {items : List α} {x : α} :
    x ∈ sortByOrder order items ↔ x ∈ items :=
  List.mem_mergeSort

theorem precedes_trans {x y z : Word × Word × Word} (h : precedes x y = true)
    (h' : precedes y z = true) : precedes x z = true := by
  simp only [precedes, decide_eq_true_eq, UInt32.lt_iff_toNat_lt, UInt32.le_iff_toNat_le,
    ← UInt32.toNat_inj] at *
  omega

theorem precedes_total (x y : Word × Word × Word) : (precedes x y || precedes y x) = true := by
  simp only [precedes, Bool.or_eq_true, decide_eq_true_eq, UInt32.lt_iff_toNat_lt,
    UInt32.le_iff_toNat_le, ← UInt32.toNat_inj]
  omega

/-- A triple of words comes before another one in lexicographic order. -/
def Before (x y : Word × Word × Word) : Prop :=
  x.1 < y.1 ∨ x.1 = y.1 ∧ (x.2.1 < y.2.1 ∨ x.2.1 = y.2.1 ∧ x.2.2 < y.2.2)

/-- Of two different triples, the one that precedes the other comes before it. -/
theorem before_of_precedes {x y : Word × Word × Word} (h : precedes x y = true) (hne : x ≠ y) :
    Before x y := by
  simp only [precedes, Before, ne_eq, Prod.ext_iff, decide_eq_true_eq, UInt32.lt_iff_toNat_lt,
    UInt32.le_iff_toNat_le, ← UInt32.toNat_inj] at *
  omega

section

variable {α : Type} {order : α → Word × Word × Word}

theorem precedes_trans_order (order : α → Word × Word × Word) (a b c : α) :
    precedes (order a) (order b) = true → precedes (order b) (order c) = true →
      precedes (order a) (order c) = true :=
  precedes_trans

theorem precedes_total_order (order : α → Word × Word × Word) (a b : α) :
    (precedes (order a) (order b) || precedes (order b) (order a)) = true :=
  precedes_total (order a) (order b)

/-- Items are in order once they have been put in order. -/
theorem sorted_sortByOrder (order : α → Word × Word × Word) (xs : List α) :
    (sortByOrder order xs).Pairwise fun x y => precedes (order x) (order y) = true :=
  List.pairwise_mergeSort (precedes_trans_order order) (precedes_total_order order) xs

/-- An item is put between the items that it does not precede and those that it precedes. -/
theorem sortByOrder_cons (order : α → Word × Word × Word) (x : α) (xs : List α) :
    ∃ before after, sortByOrder order (x :: xs) = before ++ x :: after ∧
      sortByOrder order xs = before ++ after ∧
      before = (sortByOrder order xs).filter (fun y => !precedes (order x) (order y)) ∧
      after = (sortByOrder order xs).filter (fun y => precedes (order x) (order y)) := by
  obtain ⟨before, after, hsort, hrest, hbefore⟩ := List.mergeSort_cons
    (precedes_trans_order order) (precedes_total_order order) x xs
  have hafter : ∀ y ∈ after, precedes (order x) (order y) = true := by
    have hsorted := sorted_sortByOrder order (x :: xs)
    rw [sortByOrder, hsort, List.pairwise_append, List.pairwise_cons] at hsorted
    exact hsorted.2.1.1
  have hnone : before.filter (fun y => precedes (order x) (order y)) = [] :=
    List.filter_eq_nil_iff.mpr fun y hy => by simpa using hbefore y hy
  have hnone' : after.filter (fun y => !precedes (order x) (order y)) = [] :=
    List.filter_eq_nil_iff.mpr fun y hy => by simp [hafter y hy]
  refine ⟨before, after, hsort, hrest, ?_, ?_⟩
  · rw [sortByOrder, hrest, List.filter_append, List.filter_eq_self.mpr hbefore, hnone',
      List.append_nil]
  · rw [sortByOrder, hrest, List.filter_append, List.filter_eq_self.mpr hafter, hnone,
      List.nil_append]

/-- **Items can be left out before the others are put in order**, or after that. -/
theorem filter_sortByOrder (q : α → Bool) (xs : List α) :
    (sortByOrder order xs).filter q = sortByOrder order (xs.filter q) := by
  induction xs with
  | nil => simp only [sortByOrder, List.mergeSort_nil, List.filter_nil]
  | cons x xs ih =>
    obtain ⟨before, after, hcons, -, hbefore, hafter⟩ := sortByOrder_cons order x xs
    obtain ⟨before', after', hcons', hrest', hbefore', hafter'⟩ :=
      sortByOrder_cons order x (xs.filter q)
    -- Both parts around `x` are filters of the rest, and filters commute.
    have hcomm : ∀ p : α → Bool, ((sortByOrder order xs).filter p).filter q =
        (sortByOrder order (xs.filter q)).filter p := by
      intro p
      rw [← ih, List.filter_filter, List.filter_filter]
      simp only [Bool.and_comm]
    rw [hcons, List.filter_append, List.filter_cons, hbefore, hafter, hcomm, hcomm, ← hbefore',
      ← hafter']
    by_cases hx : q x = true
    · rw [if_pos hx, List.filter_cons_of_pos hx, hcons']
    · rw [if_neg hx, List.filter_cons_of_neg hx, hrest']

/-- **Items with different triples are put in strictly ascending order.** -/
theorem pairwise_sortByOrder {xs : List α} (h : (xs.map order).Nodup) :
    (sortByOrder order xs).Pairwise fun x y => Before (order x) (order y) := by
  have hne : (sortByOrder order xs).Pairwise fun x y => order x ≠ order y := by
    have hperm : ((sortByOrder order xs).map order).Perm (xs.map order) :=
      (List.mergeSort_perm xs _).map order
    exact List.pairwise_map.mp (hperm.nodup_iff.mpr h)
  exact ((sorted_sortByOrder _ xs).and hne).imp fun ⟨hle, hne⟩ => before_of_precedes hle hne

/-- What looks like items that are put in order has their triples. -/
theorem perm_of_map_order {β : Type} {order' : β → Word × Word × Word} {xs : List α} {ys : List β}
    (h : ys.map order' = (sortByOrder order xs).map order) :
    (ys.map order').Perm (xs.map order) := by
  rw [h]
  exact (List.mergeSort_perm _ _).map order

/-- What looks like items that are put in order is in strictly ascending order, if their triples are
different. -/
theorem pairwise_of_map_order {β : Type} {order' : β → Word × Word × Word} {xs : List α}
    {ys : List β} (h : ys.map order' = (sortByOrder order xs).map order)
    (hnodup : (xs.map order).Nodup) : ys.Pairwise fun y y' => Before (order' y) (order' y') := by
  rw [← List.pairwise_map (f := order'), h, List.pairwise_map]
  exact pairwise_sortByOrder hnodup

end

/-! ## Names -/

namespace EntryPoint

section

variable {α β : Type} {name : α → Option String} {fallback : α → String}
  {rename : String → α → α} {items : List α} {t : NameTable}

/-- Items are named by what a change of theirs keeps. -/
theorem nameItems_map {name' : β → Option String} {fallback' : β → String}
    {rename' : String → β → β} (f : α → β) (hn : ∀ x, name' (f x) = name x)
    (hb : ∀ x, fallback' (f x) = fallback x) (hr : ∀ s x, rename' s (f x) = f (rename s x)) :
    nameItems name' fallback' rename' t (items.map f) =
      ((nameItems name fallback rename t items).1.map f,
        (nameItems name fallback rename t items).2) := by
  have hnames : ((items.map f).map fun x => (name' x).getD (fallback' x)) =
      items.map fun x => (name x).getD (fallback x) := by
    rw [List.map_map]
    exact List.map_congr_left fun x _ => by rw [Function.comp_apply, hn, hb]
  unfold nameItems
  simp only [hnames, List.zipWith_map_right, List.map_zipWith, hr]

/-- Naming changes nothing but names. -/
theorem map_nameItems (f : α → β) (hf : ∀ s x, f (rename s x) = f x) :
    (nameItems name fallback rename t items).1.map f = items.map f := by
  unfold nameItems
  simp only [List.map_zipWith, hf]
  rw [← List.map_uncurry_zip_eq_zipWith]
  show ((_ : List String).zip items).map (f ∘ Prod.snd) = _
  rw [← List.map_map, List.map_snd_zip (by rw [NameTable.length_claimAll, List.length_map])]

end

/-- **Names do not depend on how types are referred to.** -/
theorem map_withUniqueNames (f : τ → σ) (e : EntryPoint τ) :
    e.withUniqueNames.map f = (e.map f).withUniqueNames := by
  unfold withUniqueNames EntryPoint.map
  simp only
  rw [nameItems_map (Descriptor.map f), nameItems_map (PushConstant.map f),
    nameItems_map (InterfaceVar.map f), nameItems_map (InterfaceVar.map f),
    nameItems_map (SpecConstantVar.map f)]
  all_goals intros; rfl

/-- Naming changes nothing but the names of descriptors. -/
theorem map_descriptors_withUniqueNames {α : Type} (f : Descriptor τ → α)
    (hf : ∀ name d, f { d with name := some name } = f d) (e : EntryPoint τ) :
    e.withUniqueNames.descriptors.map f = e.descriptors.map f :=
  map_nameItems f hf

/-- Naming changes nothing but the names of push constant blocks. -/
theorem map_pushConstants_withUniqueNames {α : Type} (f : PushConstant τ → α)
    (hf : ∀ name p, f { p with name := some name } = f p) (e : EntryPoint τ) :
    e.withUniqueNames.pushConstants.map f = e.pushConstants.map f :=
  map_nameItems f hf

/-- **Naming changes no reference.** -/
theorem refs_withUniqueNames (e : EntryPoint τ) : e.withUniqueNames.refs = e.refs := by
  unfold refs withUniqueNames
  simp only [List.flatMap_def]
  rw [map_nameItems (Descriptor.type (τ := τ)),
    map_nameItems (fun p : PushConstant τ => p.type :: p.members.map (·.type)),
    map_nameItems (InterfaceVar.type (τ := τ)), map_nameItems (InterfaceVar.type (τ := τ)),
    map_nameItems (SpecConstantVar.type (τ := τ))]
  all_goals intros; rfl

end EntryPoint

end ShaderReflect
