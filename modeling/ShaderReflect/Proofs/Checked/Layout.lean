import ShaderReflect.Proofs.Checked.Specialization
import ShaderReflect.Proofs.Layout.Stored
import ShaderReflect.Proofs.Reflection

/-!
# No trap where sizes fit

Declared types are put into the arena with operations that trap: entries are looked up by place, and
sizes are added and multiplied in 64 bits. Every look-up succeeds, as places refer to what is in the
arena. So what traps is a size that leaves its range, and that happens only to what does not fit.

The specification leaves open what happens then. What fits is told in natural numbers, by recursion
over declared types (`Source.Fits`), without a word about the arena or about the order in which
sizes are computed.

Results:
* `memberSize_eq`, `concretize_eq`: types are described without a trap, unless a size overflows.
* `materialize_eq`: types are put into the arena as without operations that trap; a trap stands for
  an overflow.
* `sizes_exact`: sizes are exact, and what fits does not trap.
-/

namespace ShaderReflect.Checked

/-! ## Overflows are traps -/

section

variable {α β σ : Type}

/-- A run that traps where a computation overflows. -/
def trapping (x : Except Stop α) : Run α :=
  x.mapError fun
    | .fault e => .fault e
    | .overflow _ => .trap .arithmetic

theorem trapping_bind (x : Except Stop α) (f : α → Except Stop β) :
    trapping (x >>= f) = trapping x >>= fun a => trapping (f a) := by
  cases x <;> rfl

theorem trapping_map (f : α → β) (x : Except Stop α) : trapping (f <$> x) = f <$> trapping x := by
  cases x <;> rfl

/-- A computation with sizes that traps where it overflows. -/
def overflowing (x : Except Overflow α) : Except Trap α := x.mapError fun _ => .arithmetic

theorem liftM_overflowing (x : Except Overflow α) :
    (liftM (overflowing x) : Run α) = trapping (liftM x) := by
  cases x <;> rfl

theorem overflowing_bind (x : Except Overflow α) (f : α → Except Overflow β) :
    overflowing (x >>= f) = overflowing x >>= fun a => overflowing (f a) := by
  cases x <;> rfl

/-- A run over a list traps where a step overflows, if the steps do as long as something holds that
they keep. -/
theorem foldlM_trapping {P : σ → Prop} {f : σ → α → Run σ} {g : σ → α → Except Stop σ}
    (heq : ∀ s x, P s → f s x = trapping (g s x)) (hkeep : ∀ s x t, P s → g s x = .ok t → P t)
    (xs : List α) {s : σ} (hs : P s) : xs.foldlM f s = trapping (xs.foldlM g s) := by
  induction xs generalizing s with
  | nil => rfl
  | cons x xs ih =>
    rw [List.foldlM_cons, List.foldlM_cons, trapping_bind, heq s x hs]
    cases hg : g s x with
    | ok t => exact ih (hkeep s x t hs hg)
    | error e => rfl

end

/-! ## Sizes -/

/-- The product of two sizes. -/
def mulSize (a b : Nat) : Except Trap Nat :=
  if a * b < Bounded.sizeCeiling then .ok (a * b) else .error .arithmetic

/-- A size that may be absent, times a count. -/
def scale (size : Option Nat) (count : Word) : Except Trap (Option Nat) :=
  match size with
  | some n => return some (← mulSize n count.toNat)
  | none => return none

/-- The size of the type at a place. -/
def sizeAt (a : Arena) (i : TypeIdx) : Except Trap (Option Nat) := do
  return (← index a.entries i).size

/-- The description at a place. -/
def descAt (a : Arena) (i : TypeIdx) : Except Trap (TypeDesc TypeIdx) := do
  return (← index a.entries i).desc

/-- The size of a member. -/
def memberSize (a : Arena) (i : TypeIdx) (m : MemberDecl) : Except Trap (Option Nat) := do
  match ← descAt a i, m.matrixStride with
  | .matrix column count, some stride =>
    match m.matrixOrder, ← descAt a column with
    | some .rowMajor, .vector _ rows => return some (← mulSize stride.toNat rows.toNat)
    | _, _ => return some (← mulSize stride.toNat count.toNat)
  | _, _ => sizeAt a i

/-- The sum of sizes from the left, up to the first one that is absent. -/
def sumSizes : Nat → List (Option Nat) → Except Trap (Option Nat)
  | total, [] => return some total
  | _, none :: _ => return none
  | total, some n :: rest => do sumSizes (← addSize total n) rest

/-- The size of a struct. -/
def structSize (ms : List (MemberDesc TypeIdx)) : Except Trap (Option Nat) :=
  if ms.all (·.offset.isSome) then do
    let ends ← ms.mapM fun m => addSize (m.offset.getD 0) (m.size.getD 0)
    return some (ends.foldl max 0)
  else sumSizes 0 (ms.map (·.size))

/-! ## Putting types into the arena -/

variable (words : List Word) (s : Source)

/-- The description of a member. -/
def describeMember (a : Arena) (m : MemberDecl) (name : Option String) :
    Run (MemberDesc TypeIdx) := do
  let type ← total (a.place m.type)
  let size ← memberSize a type m
  return {
    name := name
    offset := m.offset.map UInt32.toNat
    type := type
    size := size
    matrixStride := m.matrixStride.map UInt32.toNat
    matrixOrder := m.matrixOrder
    access := Access.ofDecorations? m.nonWritable m.nonReadable }

/-- The description of a declared type whose operands are in the arena, with its size. -/
def concretize (a : Arena) (id : Ident) : TypeDecl → Run (TypeDesc TypeIdx × Option Nat)
  | .void => return (.void, none)
  | .bool => return (.bool, ← scalarSize .bool)
  | .int width signed => return (.int width signed, ← scalarSize (.int width signed))
  | .float width => return (.float width, ← scalarSize (.float width))
  | .vector element count => do
    let element ← total (a.place element)
    return (.vector element count, ← scale (← sizeAt a element) count)
  | .matrix column count => do
    let column ← total (a.place column)
    return (.matrix column count, ← scale (← sizeAt a column) count)
  | .array element length stride => do
    let element ← total (a.place element)
    let length ← arrayLength words s.specialization s.graph length
    let size ← match stride with
      | some stride => scale (some stride.toNat) length
      | none => scale (← sizeAt a element) length
    return (.array element length (stride.map UInt32.toNat), size)
  | .runtimeArray element stride => do
    return (.runtimeArray (← total (a.place element)) (stride.map UInt32.toNat), none)
  | .struct name members _ => do
    let members ← (members.zip (s.memberNames members)).mapM fun (m, name) =>
      describeMember a m name
    return (.struct name members, ← structSize members)
  | .pointer storage pointee => return (.pointer storage (← total (a.place pointee)), none)
  | .deviceAddress _ => return (.deviceAddress, some 8)
  | .image unit form => return (.image (← total (a.place unit)) form, none)
  | .sampler => return (.sampler, none)
  | .sampledImage image => return (.combinedImageSampler (← total (a.place image)), none)
  | .accelStruct => return (.accelStruct, none)
  | .unreported => throw (.fault (.unsupported (.type id)))

/-- Put a declared type at its place, once its operands are in the arena. -/
def put (a : Arena) (id : Ident) (decl : TypeDecl) : Run (TypeIdx × Arena) := do
  let (desc, size) ← concretize words s a id decl
  let (i, a) := a.intern s.uniqueNames desc size
  return (i, { a with places := a.places.insertFirst id i })

/-- Put a declared type, and all that it is built from to a depth, into the arena. -/
def materializeTo : Nat → Arena → Ident → Run (TypeIdx × Arena)
  | 0, a, id => do return (← total (a.place id), a)
  | depth + 1, a, id =>
    match a.places.get? id with
    | some i => .ok (i, a)
    | none => do
      let decl ← total (s.graph.type id)
      let a ← decl.operands.reverse.foldlM
        (fun a operand => Prod.snd <$> materializeTo depth a operand) a
      put words s a id decl

/-- Put a declared type, and all that it is built from, into the arena. -/
def materialize (a : Arena) (id : Ident) : Run (TypeIdx × Arena) :=
  materializeTo words s s.graph.typeOrder.length a id

/-! ## Look-ups succeed -/

section

variable {words s} {a : Arena} {id : Ident} {decl : TypeDecl} {i : TypeIdx}

theorem sizeAt_eq (hi : i < a.entries.length) : sizeAt a i = .ok (a.size? i) := by
  rw [sizeAt, index, Arena.size?, List.getElem?_eq_getElem hi]
  rfl

theorem descAt_eq (hi : i < a.entries.length) :
    ∃ desc, a.desc? i = some desc ∧ descAt a i = .ok desc := by
  rw [descAt, index, Arena.desc?, List.getElem?_eq_getElem hi]
  exact ⟨_, rfl, rfl⟩

/-- The columns of a matrix are in the arena. -/
theorem column_lt (h : s.Holds a) {column : TypeIdx} {count : Word}
    (hd : a.desc? i = some (.matrix column count)) : column < a.entries.length := by
  obtain ⟨e, he, hdesc⟩ := Option.map_eq_some_iff.mp hd
  have hlt := (List.getElem?_eq_some_iff.mp he).1
  rcases h.faithful e (List.mem_of_getElem? he) with hkey | ⟨-, name, name', ms, -, hstruct⟩
  · have hkeys : a.keys[i]? = some (.matrix column count) := by
      rw [Arena.keys, List.getElem?_map, he, Option.map_some, ← hkey, hdesc]
    exact Nat.lt_trans (h.grounded i _ hkeys column List.mem_cons_self) hlt
  · rw [hdesc] at hstruct
    cases hstruct

/-- A product of two numbers of 32 bits is a size. -/
theorem mulSize_words (x y : Word) : mulSize x.toNat y.toNat = .ok (x.toNat * y.toNat) :=
  if_pos (Nat.mul_lt_mul'' x.toNat_lt y.toNat_lt)

theorem memberSize_eq (h : s.Holds a) (hi : i < a.entries.length) (m : MemberDecl) :
    memberSize a i m = .ok (Source.memberSize a i m) := by
  obtain ⟨desc, hd, hdesc⟩ := descAt_eq hi
  unfold memberSize Source.memberSize
  rw [hd, hdesc, ok_bind]
  cases desc with
  | matrix column count =>
    cases m.matrixStride with
    | none => exact sizeAt_eq hi
    | some stride =>
      obtain ⟨desc, hd, hdesc⟩ := descAt_eq (column_lt h hd)
      simp only [hd, hdesc, ok_bind, mulSize_words]
      cases m.matrixOrder with
      | none => rfl
      | some order => cases order <;> cases desc <;> rfl
  | _ => exact sizeAt_eq hi

/-! ## Traps are overflows -/

theorem addSize_eq (x y : Nat) :
    addSize x y = overflowing (Bounded.add Bounded.sizeCeiling x y) := by
  unfold addSize Bounded.add
  split <;> rfl

theorem mulSize_eq (x y : Nat) :
    mulSize x y = overflowing (Bounded.mul Bounded.sizeCeiling x y) := by
  unfold mulSize Bounded.mul
  split <;> rfl

theorem scale_eq (size : Option Nat) (count : Word) :
    scale size count = overflowing (Bounded.mul? Bounded.sizeCeiling size count.toNat) := by
  cases size with
  | none => rfl
  | some n =>
    rw [scale, mulSize_eq, Bounded.mul?]
    cases Bounded.mul Bounded.sizeCeiling n count.toNat <;> rfl

theorem sumSizes_eq (sum : Nat) (sizes : List (Option Nat)) :
    sumSizes sum sizes = overflowing (TypeDesc.sumSizes sum sizes) := by
  induction sizes generalizing sum with
  | nil => rfl
  | cons size sizes ih =>
    cases size with
    | none => rfl
    | some n =>
      rw [sumSizes, TypeDesc.sumSizes, overflowing_bind, addSize_eq]
      exact congrArg _ (funext ih)

/-- A sum can overflow before it turns out to be absent. -/
example : sumSizes 0 [some 0x8000000000000000, some 0x8000000000000000, none] =
    .error .arithmetic := by
  decide

theorem mapM_memberEnd (ms : List (MemberDesc TypeIdx)) :
    (ms.mapM fun m => addSize (m.offset.getD 0) (m.size.getD 0)) =
      overflowing (ms.mapM TypeDesc.memberEnd) := by
  induction ms with
  | nil => rfl
  | cons m ms ih =>
    rw [List.mapM_cons, List.mapM_cons, overflowing_bind, addSize_eq, ih]
    refine congrArg _ (funext fun n => ?_)
    rw [overflowing_bind]
    rfl

theorem structSize_eq (ms : List (MemberDesc TypeIdx)) :
    structSize ms = overflowing (TypeDesc.structSize ms) := by
  unfold structSize TypeDesc.structSize
  split
  · rw [mapM_memberEnd, overflowing_bind]
    rfl
  · exact sumSizes_eq 0 _

theorem describeMember_eq (h : s.Holds a) {m : MemberDecl} (hplace : a.place m.type = .ok i)
    (name : Option String) :
    describeMember a m name = .ok (Source.describeMember a m i name) := by
  have hsize := memberSize_eq h (h.placed m.type i (Source.place_eq_ok hplace)).1 m
  rw [describeMember, hplace, total_ok, ok_bind, hsize]
  rfl

/-- **The members of a struct are described without a trap.** -/
theorem mapM_describeMember (h : s.Holds a) {ms : List MemberDecl} {names : List (Option String)}
    (hlength : names.length = ms.length) :
    ((ms.zip names).mapM fun (m, name) => describeMember a m name) = total (do
      let places ← ms.mapM fun m => a.place m.type
      return ((ms.zip places).zip names).map fun ((m, type), name) =>
        Source.describeMember a m type name) := by
  induction ms generalizing names with
  | nil => rfl
  | cons m ms ih =>
    cases names with
    | nil => cases hlength
    | cons name names =>
      rw [List.zip_cons_cons, List.mapM_cons, List.mapM_cons, ih (Nat.succ.inj hlength)]
      cases hplace : a.place m.type with
      | error e =>
        simp only [describeMember, hplace]
        rfl
      | ok i =>
        simp only [describeMember_eq h hplace]
        cases ms.mapM fun m => a.place m.type <;> rfl

/-- **A declared type is described without a trap**, unless its size overflows. -/
theorem concretize_eq (hg : Graph.ofWords words = .ok s.graph) (h : s.Holds a) (id : Ident)
    (decl : TypeDecl) : concretize words s a id decl = trapping (do
      let desc ← s.describe a id decl
      let size ← desc.size a.size?
      return (desc, size)) := by
  have hsize : ∀ o i, a.place o = .ok i → sizeAt a i = .ok (a.size? i) := fun o i hi =>
    sizeAt_eq (h.placed o i (Source.place_eq_ok hi)).1
  cases decl with
  | vector e n | matrix e n =>
    rw [concretize, Source.describe]
    cases hplace : a.place e with
    | error e => rfl
    | ok i =>
      simp only [total_ok, ok_bind, hsize e i hplace, liftM_trap_ok, scale_eq, liftM_overflowing,
        liftM_fault_ok, pure_eq_ok, TypeDesc.size, trapping_bind]
      rfl
  | array e length stride =>
    rw [concretize, Source.describe, arrayLength_eq hg]
    cases hplace : a.place e with
    | error e => rfl
    | ok i =>
      cases s.specialization.arrayLength s.graph length with
      | error e => rfl
      | ok n =>
        cases stride with
        | none =>
          simp only [total_ok, ok_bind, hsize e i hplace, liftM_trap_ok, scale_eq,
            liftM_overflowing, liftM_fault_ok, pure_eq_ok, TypeDesc.size, trapping_bind]
          rfl
        | some stride =>
          simp only [total_ok, ok_bind, scale_eq, liftM_overflowing, liftM_fault_ok, pure_eq_ok,
            TypeDesc.size, trapping_bind]
          rfl
  | struct name ms b =>
    rw [concretize, mapM_describeMember h (s.length_memberNames ms), Source.describe,
      Source.describeMembers]
    cases ms.mapM fun m => a.place m.type with
    | error e => rfl
    | ok places =>
      simp only [total_ok, ok_bind, structSize_eq, liftM_overflowing, liftM_fault_ok, pure_eq_ok,
        TypeDesc.size, trapping_bind]
      rfl
  | runtimeArray e | pointer _ e | image e | sampledImage e =>
    rw [concretize, Source.describe]
    cases a.place e <;> rfl
  | bool | int | float =>
    rw [concretize, scalarSize_eq]
    rfl
  | _ => rfl

theorem put_eq (hg : Graph.ofWords words = .ok s.graph) (h : s.Holds a) (id : Ident)
    (decl : TypeDecl) : put words s a id decl = trapping (s.put a id decl) := by
  rw [put, Source.put, concretize_eq hg h]
  cases s.describe a id decl with
  | error e => rfl
  | ok desc =>
    simp only [liftM_fault_ok, ok_bind]
    cases desc.size a.size? <;> rfl

/-- Arenas are the same with operations that trap. The induction is on the depth; that an arena is
reached is kept by each operand that is put into it. -/
theorem materializeTo_eq (hg : Graph.ofWords words = .ok s.graph) (hs : s.Ordered) (d : Nat)
    (ha : s.Reached a) (id : Ident) :
    materializeTo words s d a id = trapping (s.materializeTo d a id) := by
  induction d generalizing a id with
  | zero =>
    rw [materializeTo, Source.materializeTo]
    cases a.place id <;> rfl
  | succ d ih =>
    rw [materializeTo, Source.materializeTo]
    cases a.places.get? id with
    | some i => rfl
    | none =>
      cases hdecl : s.graph.type id with
      | error e => rfl
      | ok decl =>
        have hkeep : ∀ (b : Arena) (o : Ident) (c : Arena), s.Reached b →
            Prod.snd <$> s.materializeTo d b o = .ok c → s.Reached c := fun b o c hb hc => by
          obtain ⟨r, hr, rfl⟩ := map_eq_ok_iff.mp hc
          exact Source.reached_materializeTo hb hr
        have hfold := foldlM_trapping (P := s.Reached)
          (f := fun b o => Prod.snd <$> materializeTo words s d b o)
          (g := fun b o => Prod.snd <$> s.materializeTo d b o)
          (fun b o hb => by rw [ih hb, trapping_map]) hkeep decl.operands.reverse ha
        simp only [total_ok, ok_bind, liftM_fault_ok, hfold, trapping_bind]
        cases hb : decl.operands.reverse.foldlM
            (fun b o => Prod.snd <$> s.materializeTo d b o) a with
        | error e => rfl
        | ok b =>
          have hb := foldlM_invariant (P := s.Reached) hb ha fun o _ x y hx hy => hkeep x o y hx hy
          exact put_eq hg (hb.holds hs) id decl

/-- **With operations that trap, types are put into the arena as without**, and a trap stands for an
overflow. -/
theorem materialize_eq (hg : Graph.ofWords words = .ok s.graph) (ha : s.Reached a) (id : Ident) :
    materialize words s a id = trapping (s.materialize a id) :=
  materializeTo_eq hg (Graph.orders_of_ofWords hg) _ ha id

/-! ## The result -/

/-- **Sizes are exact, and what fits does not trap.** Sizes of declared types satisfy the recursive
equations. In every arena that is reached, a declared type that has a place is stored with its size
and with those of its members, also where it shares the place with another one, and no other sizes
are stored. To put a type into such an arena ends with one, in which that type is stored, and shows
that the type fits. If a type fits, there is no trap. -/
theorem sizes_exact (hg : Graph.ofWords words = .ok s.graph) :
    (∀ id, s.sizeOf id = (s.graph.types.get? id).bind (s.sizeLayer s.sizeOf)) ∧
    ∀ a, s.Reached a →
      (∀ id i, a.places.get? id = some i → s.Stored a id i) ∧
      (∀ i < a.entries.length, (∃ id, s.Stored a id i) ∨
        ∃ image, a.tree i = .node (.combinedImageSampler image) ∧ a.size? i = none) ∧
      ∀ root,
        (∀ i b, materialize words s a root = .ok (i, b) →
          s.Reached b ∧ s.Stored b root i ∧ s.Fits root) ∧
        (s.Fits root → ∀ trap, materialize words s a root ≠ .error (.trap trap)) := by
  have hs : s.Ordered := Graph.orders_of_ofWords hg
  refine ⟨Source.sizeOf_eq hs, fun a ha => ⟨fun id i hi => ha.stored hs hi,
    fun i hi => ha.sizes hs hi, fun root => ?_⟩⟩
  rw [materialize_eq hg ha]
  rcases (Source.realizes_materialize hs (ha.holds hs) root).cases with
    ⟨⟨j, c⟩, hj, htree, hsound, -⟩ | ⟨e, he, htree⟩
  · rw [hj]
    constructor
    · rintro i b ⟨⟩
      exact ⟨Source.reached_materialize ha hj,
        hsound.holds.stored hs (hsound.inside j List.mem_cons_self) htree,
        Source.fits_of_tree hs htree⟩
    · rintro - trap ⟨⟩
  · rw [he]
    refine ⟨fun i b h => (by cases h), fun hfits trap htrap => ?_⟩
    cases e with
    | fault e => cases htrap
    | overflow e => exact Source.tree_ne_overflow hs hfits e htree

end

set_option maxRecDepth 100000 in
/-- The uniform block of the small binary holds four numbers of 32 bits, so it has 16 bytes. -/
theorem sample_sizes_exact : ∃ s i b, Graph.ofWords (sampleWords 1) = .ok s.graph ∧
    materialize (sampleWords 1) s {} 18 = .ok (i, b) ∧ b.size? i = some 16 ∧
    s.sizeOf 18 = some 16 ∧ s.Fits 18 := by
  obtain ⟨g, hg, hany⟩ := exists_eq_ok_of_any (x := Graph.ofWords (sampleWords 1))
    (p := fun g => (Specialization.apply g []).result.toOption.any fun σ =>
      (Source.materialize ⟨g, σ, true⟩ {} 18).toOption.any fun r => r.2.size? r.1 = some 16)
    (by decide +kernel)
  obtain ⟨σ, -, hany⟩ := exists_eq_ok_of_any hany
  obtain ⟨⟨i, b⟩, hr, hsize⟩ := exists_eq_ok_of_any hany
  have hsize := of_decide_eq_true hsize
  obtain ⟨-, hreached⟩ := sizes_exact (s := ⟨g, σ, true⟩) hg
  obtain ⟨-, -, hroots⟩ := hreached {} .empty
  have hrun : materialize (sampleWords 1) ⟨g, σ, true⟩ {} 18 = .ok (i, b) := by
    rw [materialize_eq hg .empty, hr]
    rfl
  obtain ⟨-, hstored, hfits⟩ := (hroots 18).1 i b hrun
  exact ⟨⟨g, σ, true⟩, i, b, hg, hrun, hsize, by rw [← hstored.size, hsize], hfits⟩

end ShaderReflect.Checked
