import ShaderReflect.Proofs.Graph
import ShaderReflect.Proofs.Reflection

/-!
# What does not depend on orders of visits

A run goes through some of what is declared in an order that the next run need not repeat
(`Visits`). All that this can change is which violation a binary is rejected for, among those that
its checks find, and in which order overrides are noted that no constant takes. Whether a binary is
reflected does not depend on it, and neither does the reflection.

The messages of faults name what is wrong, so two runs can reject one binary with different
messages. They are compared by `Config.EndAlike`: what one run ends with is what the other one ends
with, or both reject the binary as corrupted, each for a violation that the binary has.

Results:
* `Graph.Breaks`: a check of something that is declared finds a violation. Every rejection by
  `Graph.check` names one (`Graph.breaks_of_check`), in any order.
* `Corrupts`: a computation that fails only because the binary is to blame, as every check does
  (`Graph.Breaks.corrupted`). So all violations are of one kind.
* `Graph.ofWords_visits`: a binary has the same graph in two runs, or is rejected in both.
* `Specialization.result_apply_visits`: constants have the same values in two runs.
* `Config.reflect_visits`: two runs end alike. `Config.reflect_visits_eq_ok_iff` says the same of
  binaries that are reflected.
-/

namespace ShaderReflect

/-! ## Violations -/

/-- If the computation fails, the binary is to blame. -/
def Corrupts {α : Type} (x : Except Fault α) : Prop := ∀ f, x = .error f → ∃ c, f = .corrupted c

namespace Corrupts

variable {α β : Type}

theorem ok (a : α) : Corrupts (.ok a) := nofun

theorem error (c : Corruption) : Corrupts (.error (.corrupted c) : Except Fault α) := by
  rintro f ⟨⟩
  exact ⟨c, rfl⟩

theorem bind {x : Except Fault α} {k : α → Except Fault β} (hx : Corrupts x)
    (hk : ∀ a, Corrupts (k a)) : Corrupts (x >>= k) := by
  cases x with
  | ok a => exact hk a
  | error e =>
    rintro f ⟨⟩
    exact hx e rfl

theorem map {x : Except Fault α} (k : α → β) (hx : Corrupts x) : Corrupts (k <$> x) := by
  cases x with
  | ok a => exact .ok (k a)
  | error e =>
    rintro f ⟨⟩
    exact hx e rfl

theorem ite {p : Prop} [Decidable p] {x y : Except Fault α} (hx : Corrupts x) (hy : Corrupts y) :
    Corrupts (if p then x else y) := by
  split
  · exact hx
  · exact hy

theorem forM {xs : List α} {k : α → Except Fault Unit} (hk : ∀ a, Corrupts (k a)) :
    Corrupts (xs.forM k) := by
  intro f h
  obtain ⟨x, -, hx⟩ := exists_of_forM_eq_error h
  exact hk x f hx

end Corrupts

namespace Graph

variable {g : Graph} {id : Ident} {f : Fault} {v w : Visits}

theorem corrupts_type (g : Graph) (id : Ident) : Corrupts (g.type id) := by
  unfold type
  split
  · exact .ok _
  · exact .error _

theorem corrupts_constant (g : Graph) (id : Ident) : Corrupts (g.constant id) := by
  unfold constant
  split
  · exact .ok _
  · exact .error _

theorem corrupts_globalVar (g : Graph) (id : Ident) : Corrupts (g.globalVar id) := by
  unfold globalVar
  split
  · exact .ok _
  · exact .error _

theorem corrupts_checkType (g : Graph) (id : Ident) : Corrupts (g.checkType id) := by
  refine .bind (g.corrupts_type id) fun decl => ?_
  refine .bind (.forM fun operand => .map _ (g.corrupts_type operand)) fun _ => ?_
  split
  · exact .ite (.error _) (.ok _)
  · exact .map _ (g.corrupts_type _)
  · exact .ok _

theorem corrupts_checkForwardPointer (g : Graph) (id : Ident) :
    Corrupts (g.checkForwardPointer id) := by
  unfold checkForwardPointer
  split
  · exact .ok _
  · exact .ok _
  · exact .error _

theorem corrupts_checkConstant (g : Graph) (id : Ident) : Corrupts (g.checkConstant id) := by
  refine .bind (g.corrupts_constant id) fun decl => ?_
  refine .bind (.map _ (g.corrupts_type _)) fun _ => ?_
  split
  · exact .forM fun x => .ite (.error _) (.ok _)
  · exact .forM fun x => .bind (.ite (.error _) (.ok _)) fun _ => .ite (.error _) (.ok _)
  · exact .ok _

theorem corrupts_checkVariable (g : Graph) (id : Ident) : Corrupts (g.checkVariable id) := by
  refine .bind (g.corrupts_globalVar id) fun x => ?_
  refine .bind (g.corrupts_type _) fun decl => ?_
  split
  · exact .ok _
  · exact .error _

theorem corrupts_checkEntryPoint (g : Graph) (e : EntryPointDecl) :
    Corrupts (g.checkEntryPoint e) :=
  .ite (.ok _) (.error _)

theorem corrupts_checkCalls (g : Graph) (id : Ident) (callees : Visit) :
    Corrupts (g.checkCalls id callees) := by
  unfold checkCalls
  split
  · exact .ok _
  · exact .forM fun callee => .ite (.ok _) (.error _)

/-- A check of something that is declared finds a violation. -/
inductive Breaks (g : Graph) : Fault → Prop
  | type {id : Ident} {f : Fault} (hid : id ∈ g.types.keys) (h : g.checkType id = .error f) :
    Breaks g f
  | forwardPointer {id : Ident} {f : Fault} (hid : id ∈ g.forwardPointers)
    (h : g.checkForwardPointer id = .error f) : Breaks g f
  | constant {id : Ident} {f : Fault} (hid : id ∈ g.constants.keys)
    (h : g.checkConstant id = .error f) : Breaks g f
  | globalVar {id : Ident} {f : Fault} (hid : id ∈ g.globals.keys)
    (h : g.checkVariable id = .error f) : Breaks g f
  | entryPoint {e : EntryPointDecl} {f : Fault} (he : e ∈ g.annotations.entryPoints)
    (h : g.checkEntryPoint e = .error f) : Breaks g f
  | call {id : Ident} {f : Fault} (hid : id ∈ g.functions.keys) (callees : Visit)
    (h : g.checkCalls id callees = .error f) : Breaks g f

/-- Every violation makes the binary a corrupted one. -/
theorem Breaks.corrupted (h : g.Breaks f) : ∃ c, f = .corrupted c := by
  cases h with
  | type _ h => exact g.corrupts_checkType _ f h
  | forwardPointer _ h => exact g.corrupts_checkForwardPointer _ f h
  | constant _ h => exact g.corrupts_checkConstant _ f h
  | globalVar _ h => exact g.corrupts_checkVariable _ f h
  | entryPoint _ h => exact g.corrupts_checkEntryPoint _ f h
  | call _ callees h => exact g.corrupts_checkCalls _ callees f h

/-- **A rejection names a violation**, in whatever order the checks are made. -/
theorem breaks_of_check (h : g.check v = .error f) : g.Breaks f := by
  unfold check at h
  rcases forM_bind_eq_error h with ⟨id, hid, h⟩ | h
  · exact .type (IdSet.mem_ofList.mp (Visit.mem_order.mp hid)) h
  rcases forM_bind_eq_error h with ⟨id, hid, h⟩ | h
  · exact .forwardPointer (Visit.mem_order.mp hid) h
  rcases forM_bind_eq_error h with ⟨id, hid, h⟩ | h
  · exact .constant (IdSet.mem_ofList.mp (Visit.mem_order.mp hid)) h
  rcases forM_bind_eq_error h with ⟨id, hid, h⟩ | h
  · exact .globalVar (IdSet.mem_ofList.mp hid) h
  rcases forM_bind_eq_error h with ⟨e, he, h⟩ | h
  · exact .entryPoint he h
  obtain ⟨id, hid, h⟩ := exists_of_forM_eq_error h
  exact .call (IdSet.mem_ofList.mp (Visit.mem_order.mp hid)) _ h

/-- Whether the checks are passed does not depend on the order in which they are made. -/
theorem check_visits_eq_ok (w : Visits) (h : g.check v = .ok ()) : g.check w = .ok () :=
  check_eq_ok_iff.mpr (check_eq_ok_iff.mp h)

/-! ## Graphs -/

/-- What has been collected makes the same graph in two runs, or is rejected in both. -/
theorem ofDraft_visits (header : Header) (d : Draft) (v w : Visits) :
    ofDraft header d v = ofDraft header d w ∨ ∃ x y,
      (unchecked header d).Breaks (.corrupted x) ∧ (unchecked header d).Breaks (.corrupted y) ∧
      ofDraft header d v = .error (.corrupted x) ∧ ofDraft header d w = .error (.corrupted y) := by
  have hdraft : ∀ u, ofDraft header d u = ((unchecked header d).check u >>= fun _ =>
      (fun order => { unchecked header d with typeOrder := order }) <$>
        TypeOrder.sort d.annotatedTypes) := fun _ => rfl
  rw [hdraft v, hdraft w]
  cases hv : (unchecked header d).check v with
  | ok u => exact .inl (by rw [check_visits_eq_ok w hv])
  | error f =>
    cases hw : (unchecked header d).check w with
    | ok u =>
      rw [check_visits_eq_ok v hw] at hv
      cases hv
    | error f' =>
      obtain ⟨x, rfl⟩ := (breaks_of_check hv).corrupted
      obtain ⟨y, rfl⟩ := (breaks_of_check hw).corrupted
      exact .inr ⟨x, y, breaks_of_check hv, breaks_of_check hw, rfl, rfl⟩

/-- The binary has a violation that its graph is rejected for. -/
def Violates (words : List Word) (x : Corruption) : Prop :=
  ∃ header body d, Header.read words = .ok (header, body) ∧
    Draft.ofStream header.bound (Instruction.stream body) = .ok d ∧
    (unchecked header d).Breaks (.corrupted x)

/-- **The graph of a binary is the same in two runs**, or both reject the binary for violations that
it has. -/
theorem ofWords_visits (words : List Word) (v w : Visits) :
    ofWords words v = ofWords words w ∨ ∃ x y, Violates words x ∧ Violates words y ∧
      ofWords words v = .error (.corrupted x) ∧ ofWords words w = .error (.corrupted y) := by
  unfold ofWords ofBody
  cases hread : Header.read words with
  | error e => exact .inl rfl
  | ok p =>
    obtain ⟨header, body⟩ := p
    simp only [ok_bind]
    cases hd : Draft.ofStream header.bound (Instruction.stream body) with
    | error e => exact .inl rfl
    | ok d =>
      rcases ofDraft_visits header d v w with h | ⟨x, y, hx, hy, h⟩
      · exact .inl h
      · exact .inr ⟨x, y, ⟨header, body, d, hread, hd, hx⟩, ⟨header, body, d, hread, hd, hy⟩, h⟩

end Graph

/-! ## Reflections -/

/-- The values of constants are the same in two runs. -/
theorem Specialization.result_apply_visits (g : Graph) (os : List Override) (v w : Visits) :
    (apply g os v).result = (apply g os w).result := by
  have hnotes : ∀ (os : Overrides) (u : Visits),
      ((ignored g os u).forM fun specId => Traced.note (.overrideIgnored specId)).result =
        .ok () := fun os u => Traced.result_forM fun _ _ => rfl
  unfold apply
  simp only [Traced.result_bind, hnotes]

namespace Config

variable {c : Config} {v w : Visits} {words : List Word}

/-- What two runs on one configuration end with: the same, or both reject the binary, for violations
that it has. -/
inductive EndAlike {α : Type} (c : Config) : Except Stop α → Except Stop α → Prop
  | same (x : Except Stop α) : EndAlike c x x
  | violations {words : List Word} {x y : Corruption} (hwords : c.words = .ok words)
    (hx : Graph.Violates words x) (hy : Graph.Violates words y) :
    EndAlike c (.error (.fault (.corrupted x))) (.error (.fault (.corrupted y)))

namespace EndAlike

variable {α β : Type} {x y : Except Stop α}

/-- The binary matters, and not what is done with it. -/
theorem of_words_eq {d : Config} (hwords : d.words = c.words) (h : d.EndAlike x y) :
    c.EndAlike x y := by
  cases h with
  | same => exact .same _
  | violations hd hx hy => exact .violations (hwords ▸ hd) hx hy

theorem map (f : α → β) (h : c.EndAlike x y) : c.EndAlike (f <$> x) (f <$> y) := by
  cases h with
  | same => exact .same _
  | violations hwords hx hy => exact .violations hwords hx hy

/-- Runs that end alike end with the same results. -/
theorem eq_ok_iff (h : c.EndAlike x y) (a : α) : x = .ok a ↔ y = .ok a := by
  cases h with
  | same => exact Iff.rfl
  | violations => exact iff_of_false nofun nofun

end EndAlike

theorem result_reflect_of_no_words {f : Fault} (hwords : c.words = .error f) (v : Visits) :
    (c.reflect v).result = .error (.fault f) := by
  unfold reflect
  rw [Traced.result_bind, hwords]
  rfl

/-- The orders matter for the graph of a binary, and not for what is done with it. -/
theorem result_reflect_of_words (hwords : c.words = .ok words) (v : Visits) :
    (c.reflect v).result = ((liftM (Graph.ofWords words v) : Except Stop Graph) >>= fun g =>
      (Specialization.apply g c.overrides).result >>= fun specialization =>
      (c.entryPoints { graph := g, specialization, uniqueNames := c.uniqueNames }).result >>=
      fun p => .ok
        { header := g.header, types := p.arena.types, entryPoints := p.entryPoints }) := by
  unfold reflect Graph.load
  simp only [Traced.result_bind, Traced.result_liftM_fault, Traced.result_note, Traced.result_pure,
    hwords, bind_assoc, liftM_fault_ok, ok_bind,
    fun g => Specialization.result_apply_visits g c.overrides v {}]

/-- **Two runs end alike**, whatever orders they go through declarations in. -/
theorem reflect_visits (c : Config) (v w : Visits) :
    c.EndAlike (c.reflect v).result (c.reflect w).result := by
  cases hwords : c.words with
  | error e =>
    rw [result_reflect_of_no_words hwords, result_reflect_of_no_words hwords]
    exact .same _
  | ok words =>
    rw [result_reflect_of_words hwords v, result_reflect_of_words hwords w]
    rcases Graph.ofWords_visits words v w with h | ⟨x, y, hx, hy, hv, hw⟩
    · rw [h]
      exact .same _
    · rw [hv, hw]
      exact .violations hwords hx hy

/-- Whether a binary is reflected, and how, is the same in two runs. -/
theorem reflect_visits_eq_ok_iff (c : Config) (v w : Visits) (r : Reflection) :
    (c.reflect v).result = .ok r ↔ (c.reflect w).result = .ok r :=
  (c.reflect_visits v w).eq_ok_iff r

/-- If two ways of reflecting one binary have something in common in one run, they do in all. -/
theorem map_reflect_visits {α : Type} {f : Reflection → α} {d : Config}
    (hwords : d.words = c.words) (h : f <$> (c.reflect v).result = f <$> (d.reflect v).result) :
    f <$> (c.reflect w).result = f <$> (d.reflect w).result := by
  cases hc : c.words with
  | error e =>
    rw [result_reflect_of_no_words hc, result_reflect_of_no_words (hwords.trans hc)]
  | ok words =>
    have hd : d.words = .ok words := hwords.trans hc
    rw [result_reflect_of_words hc, result_reflect_of_words hd] at h ⊢
    rcases Graph.ofWords_visits words v w with heq | ⟨x, y, -, -, -, hw⟩
    · rw [← heq]
      exact h
    · simp only [hw, liftM_fault_error, error_bind]

/-- Of two forward pointers that are never declared, a run names the one that it comes to first. -/
example :
    let words := [magicNumber, 0x10300, 0, 8, 0, 0x30027, 1, 0, 0x30027, 2, 0]
    let c : Config := { binary := some words }
    let downwards : Visit := ⟨fun s => s.ids.reverse, fun s => s.ids.reverse_perm⟩
    (c.reflect).result = .error (.fault (.corrupted (.forwardPointerUndeclared 1))) ∧
      (c.reflect { forwardPointers := downwards }).result =
        .error (.fault (.corrupted (.forwardPointerUndeclared 2))) := by
  decide +kernel

end Config

end ShaderReflect
