import ShaderReflect.Proofs.Graph
import ShaderReflect.Proofs.Stage.Revision

/-!
# Entry points are independent

All entry points of a binary refer to types in one arena, which grows from one entry point to the
next. Nothing else passes between them: a binary can be reflected exactly if it can with each of its
entry points alone, and each is then described as if it were alone, once its references are written
out.

* `Config.reflects_iff`: a reflection, one instruction that declares an entry point at a time.
* `Config.reflect_onlyEntryPoint`: independence.

The binary with one of its entry points is made by leaving the other instructions out, and read
again from its words (`Config.onlyEntryPoint`), so the statement is about two runs from the start,
not about steps of one. With unique names there is no such result: structs are given names in the
order in which they are put into the arena, so a name may depend on the entry points before. A
binary without entry points is reflected to none, whether or not the rest of it could be described.
-/

namespace ShaderReflect

open Instruction

/-! ## One entry point of many -/

namespace Instruction

/-- The instructions without those that declare entry points other than the `k`-th one. -/
def keepEntryPoint : Nat → List Instruction → List Instruction
  | _, [] => []
  | k, i :: is =>
    if i.isEntryPoint then
      match k with
      | 0 => i :: is.filter (!·.isEntryPoint)
      | k + 1 => keepEntryPoint k is
    else i :: keepEntryPoint k is

theorem mem_of_mem_keepEntryPoint {k : Nat} {is : List Instruction} {i : Instruction}
    (h : i ∈ keepEntryPoint k is) : i ∈ is := by
  induction is generalizing k with
  | nil => exact h
  | cons j is ih =>
    unfold keepEntryPoint at h
    split at h
    · cases k with
      | zero =>
        rcases List.mem_cons.mp h with rfl | h
        · exact List.mem_cons_self
        · exact List.mem_cons_of_mem _ (List.mem_of_mem_filter h)
      | succ k => exact List.mem_cons_of_mem _ (ih h)
    · rcases List.mem_cons.mp h with rfl | h
      · exact List.mem_cons_self
      · exact List.mem_cons_of_mem _ (ih h)

/-- All other instructions are kept. -/
theorem filter_not_keepEntryPoint (k : Nat) (is : List Instruction) :
    (keepEntryPoint k is).filter (!·.isEntryPoint) = is.filter (!·.isEntryPoint) := by
  induction is generalizing k with
  | nil => rfl
  | cons i is ih =>
    unfold keepEntryPoint
    cases hi : i.isEntryPoint with
    | false => simp [hi, ih]
    | true => cases k <;> simp [hi, ih]

/-- Of those that declare entry points, the `k`-th one is kept, if there is one. -/
theorem filter_keepEntryPoint (k : Nat) (is : List Instruction) :
    (keepEntryPoint k is).filter (·.isEntryPoint) =
      (is.filter (·.isEntryPoint))[k]?.toList := by
  induction is generalizing k with
  | nil => rfl
  | cons i is ih =>
    unfold keepEntryPoint
    cases hi : i.isEntryPoint with
    | false => simp [hi, ih]
    | true => cases k <;> simp [hi, ih]

end Instruction

namespace Graph

/-- A binary that is left with its `k`-th entry point only. -/
def onlyEntryPoint (k : Nat) (words : List Word) : List Word :=
  rewriteBinary (keepEntryPoint k) words

theorem cut_onlyEntryPoint (k : Nat) (body : List Word) :
    cut (rewrite (keepEntryPoint k) body) = (keepEntryPoint k (cut body).1, (cut body).2) :=
  cut_rewrite fun i hi => encodable_of_mem_cut body i (mem_of_mem_keepEntryPoint hi)

theorem withoutEntryPoints_onlyEntryPoint (k : Nat) (words : List Word) :
    withoutEntryPoints (onlyEntryPoint k words) = withoutEntryPoints words :=
  rewriteBinary_rewriteBinary (fun body => by
    rw [rewrite, cut_onlyEntryPoint, filter_not_keepEntryPoint, rewrite]) words

theorem entryPointInstructions_onlyEntryPoint (k : Nat) (words : List Word) :
    entryPointInstructions (onlyEntryPoint k words) =
      (entryPointInstructions words)[k]?.toList := by
  unfold entryPointInstructions onlyEntryPoint
  rw [drop_rewriteBinary rfl, cut_onlyEntryPoint, filter_keepEntryPoint]

end Graph

/-! ## Reflections -/

/-- A source with other entry points. -/
def Source.withEntryPoints (s : Source) (decls : List EntryPointDecl) : Source :=
  { s with graph := s.graph.withEntryPoints decls }

theorem Source.revise_id (s : Source) (decls : List EntryPointDecl) :
    s.revise id s.graph.constants decls = s.withEntryPoints decls := by
  have h : s.specialization.specConstants.map (·.mark id) = s.specialization.specConstants :=
    (List.map_congr_left fun _ _ => rfl).trans (List.map_id _)
  rw [revise, h]
  rfl

namespace Config

variable {c : Config} {s base : Source} {words : List Word}

/-- A source is that of the binary without entry points, together with the entry points. -/
theorem source_iff_withoutEntryPoints : c.source words = .ok s ↔ ∃ base decls,
    c.source (Graph.withoutEntryPoints words) = .ok base ∧
    List.Forall₂ (Declares base.graph.header.bound) (Graph.entryPointInstructions words) decls ∧
    (∀ e ∈ decls, base.graph.checkEntryPoint e = .ok ()) ∧ s = base.withEntryPoints decls := by
  simp only [source_eq_ok_iff]
  constructor
  · rintro ⟨g, σ, hg, hσ, rfl⟩
    obtain ⟨base, decls, hbase, hdecls, hchecks, rfl⟩ := Graph.ofWords_iff_withoutEntryPoints.mp hg
    exact ⟨_, decls, ⟨base, σ, hbase, hσ, rfl⟩, hdecls, hchecks, rfl⟩
  · rintro ⟨_, decls, ⟨base, σ, hbase, hσ, rfl⟩, hdecls, hchecks, rfl⟩
    exact ⟨base.withEntryPoints decls, σ, Graph.ofWords_iff_withoutEntryPoints.mpr
      ⟨base, decls, hbase, hdecls, hchecks, rfl⟩, hσ, rfl⟩

theorem result_entryPoints_withEntryPoints (decls : List EntryPointDecl) :
    (c.entryPoints (s.withEntryPoints decls)).result =
      decls.foldlM (fun p e => (c.addEntryPoint s p e).result) {} := by
  have h := addEntryPoints_revise (c := c) (f := id) (s := s) ⟨rfl, fun _ => rfl⟩ decls decls {}
  have hid : (Progress.mark id : Progress → Progress) = id := funext Progress.mark_id
  rw [hid, id_map, Source.revise_id] at h
  rw [result_entryPoints]
  exact h

/-- What is said about the entry point that an instruction declares. -/
def Describes (c : Config) (base : Source) (i : Instruction) (t : EntryPoint TypeTree) : Prop :=
  ∃ e, i.Declares base.graph.header.bound e ∧ base.graph.checkEntryPoint e = .ok () ∧
    c.entryTree base e = .ok t

theorem forall₂_describes_iff {is : List Instruction} {ts : List (EntryPoint TypeTree)} :
    List.Forall₂ (c.Describes base) is ts ↔ ∃ decls,
      List.Forall₂ (Declares base.graph.header.bound) is decls ∧
      (∀ e ∈ decls, base.graph.checkEntryPoint e = .ok ()) ∧
      decls.mapM (c.entryTree base) = .ok ts := by
  simp only [mapM_eq_ok_iff]
  constructor
  · intro h
    induction h with
    | nil => exact ⟨[], .nil, fun e he => absurd he List.not_mem_nil, .nil⟩
    | cons hi _ ih =>
      obtain ⟨e, hdecl, hcheck, ht⟩ := hi
      obtain ⟨decls, hdecls, hchecks, hts⟩ := ih
      exact ⟨e :: decls, .cons hdecl hdecls, List.forall_mem_cons.mpr ⟨hcheck, hchecks⟩,
        .cons ht hts⟩
  · rintro ⟨decls, hdecls, hchecks, hts⟩
    induction hdecls generalizing ts with
    | nil =>
      cases hts
      exact .nil
    | cons hdecl _ ih =>
      rw [List.forall_mem_cons] at hchecks
      cases hts with
      | cons ht hts => exact .cons ⟨_, hdecl, hchecks.1, ht⟩ (ih hchecks.2 hts)

/-- Without names for structs, entry points are shown with the types that are reported. -/
theorem tree_view (hu : c.uniqueNames = false) (hbase : c.source words = .ok base)
    {p : Progress} (hp : Progress.view.Sound base p) :
    Progress.view.tree p = p.entryPoints.map (·.map (TypeTree.ofDescs p.arena.types)) := by
  have hbu : base.uniqueNames = false := (source_uniqueNames hbase).trans hu
  have htypes : p.arena.types = p.arena.keys := hp.holds.types_eq hbu
  rw [htypes]
  rfl

/-- **A reflection, one entry point at a time.** -/
theorem reflects_iff (hu : c.uniqueNames = false) {header : Header}
    {ts : List (EntryPoint TypeTree)} :
    (∃ r, c.reflect.result = .ok r ∧ r.header = header ∧ r.entryPoints.map (·.map r.tree) = ts) ↔
    ∃ words base, c.words = .ok words ∧ c.source (Graph.withoutEntryPoints words) = .ok base ∧
      base.graph.header = header ∧
      List.Forall₂ (c.Describes base) (Graph.entryPointInstructions words) ts := by
  simp only [forall₂_describes_iff]
  constructor
  · rintro ⟨r, hr, rfl, rfl⟩
    rw [result_reflect] at hr
    obtain ⟨words, hwords, hr⟩ := bind_eq_ok_iff.mp hr
    obtain ⟨s, hs, hr⟩ := bind_eq_ok_iff.mp hr
    obtain ⟨p, hp, hr⟩ := bind_eq_ok_iff.mp hr
    cases hr
    obtain ⟨base, decls, hbase, hdecls, hchecks, rfl⟩ := source_iff_withoutEntryPoints.mp hs
    rw [result_entryPoints_withEntryPoints] at hp
    rcases (realizes_addEntryPoints (c := c) (source_ordered hbase) decls).cases with
      ⟨q, hq, htrees, hsound, -⟩ | ⟨e, he, -⟩
    · rw [hp] at hq
      cases hq
      rw [tree_view hu hbase hsound] at htrees
      exact ⟨words, base, liftM_fault_eq_ok_iff.mp hwords, hbase, rfl, decls, hdecls, hchecks,
        htrees⟩
    · rw [hp] at he
      cases he
  · rintro ⟨words, base, hwords, hbase, rfl, decls, hdecls, hchecks, htrees⟩
    have hs := source_iff_withoutEntryPoints.mpr ⟨base, decls, hbase, hdecls, hchecks, rfl⟩
    rcases (realizes_addEntryPoints (c := c) (source_ordered hbase) decls).cases with
      ⟨p, hp, htrees', hsound, -⟩ | ⟨e, -, he⟩
    · rw [htrees] at htrees'
      cases htrees'
      refine ⟨{ header := base.graph.header, types := p.arena.types, entryPoints := p.entryPoints },
        ?_, rfl, (tree_view hu hbase hsound).symm⟩
      rw [result_reflect, hwords, liftM_fault_ok, ok_bind, hs, ok_bind,
        result_entryPoints_withEntryPoints, hp]
      rfl
    · rw [htrees] at he
      cases he

/-! ## Independence -/

/-- The number of instructions that declare entry points. -/
def entryPointCount (c : Config) : Nat :=
  (c.binary.elim [] Graph.entryPointInstructions).length

/-- The reflection of the binary that is left with its `k`-th entry point only. -/
def onlyEntryPoint (c : Config) (k : Nat) : Config :=
  { c with binary := c.binary.map (Graph.onlyEntryPoint k) }

theorem words_onlyEntryPoint (h : c.words = .ok words) (k : Nat) :
    (c.onlyEntryPoint k).words = .ok (Graph.onlyEntryPoint k words) := by
  obtain ⟨hbinary, hne⟩ := words_eq_ok_iff.mp h
  refine words_eq_ok_iff.mpr ⟨?_, rewriteBinary_ne_nil hne⟩
  show c.binary.map _ = _
  rw [hbinary, Option.map_some]

theorem exists_words_of_onlyEntryPoint {k : Nat} (h : (c.onlyEntryPoint k).words = .ok words) :
    ∃ whole, c.words = .ok whole ∧ words = Graph.onlyEntryPoint k whole := by
  obtain ⟨hbinary, hne⟩ := words_eq_ok_iff.mp h
  obtain ⟨whole, hwhole, rfl⟩ := Option.map_eq_some_iff.mp hbinary
  refine ⟨whole, words_eq_ok_iff.mpr ⟨hwhole, ?_⟩, rfl⟩
  rintro rfl
  exact hne rfl

/-- With one entry point only, nothing but that entry point has to be described. -/
theorem reflects_onlyEntryPoint_iff (hu : c.uniqueNames = false) {k : Nat} {header : Header}
    {ts : List (EntryPoint TypeTree)} :
    (∃ r, (c.onlyEntryPoint k).reflect.result = .ok r ∧ r.header = header ∧
      r.entryPoints.map (·.map r.tree) = ts) ↔
    ∃ words base, c.words = .ok words ∧ c.source (Graph.withoutEntryPoints words) = .ok base ∧
      base.graph.header = header ∧
      List.Forall₂ (c.Describes base) (Graph.entryPointInstructions words)[k]?.toList ts := by
  rw [reflects_iff (c := c.onlyEntryPoint k) hu]
  constructor
  · rintro ⟨_, base, hwords, hbase, hheader, hts⟩
    obtain ⟨words, hwhole, rfl⟩ := exists_words_of_onlyEntryPoint hwords
    rw [Graph.withoutEntryPoints_onlyEntryPoint] at hbase
    rw [Graph.entryPointInstructions_onlyEntryPoint] at hts
    exact ⟨words, base, hwhole, hbase, hheader, hts⟩
  · rintro ⟨words, base, hwords, hbase, hheader, hts⟩
    refine ⟨_, base, words_onlyEntryPoint hwords k, ?_, hheader, ?_⟩
    · rw [Graph.withoutEntryPoints_onlyEntryPoint]
      exact hbase
    · rw [Graph.entryPointInstructions_onlyEntryPoint]
      exact hts

theorem entryPointCount_eq (h : c.words = .ok words) :
    c.entryPointCount = (Graph.entryPointInstructions words).length := by
  rw [entryPointCount, (words_eq_ok_iff.mp h).1]
  rfl

theorem exists_reflect_onlyEntryPoint (hu : c.uniqueNames = false) {r : Reflection}
    (hr : c.reflect.result = .ok r) {k : Nat} {e : EntryPoint TypeIdx}
    (he : r.entryPoints[k]? = some e) :
    ∃ r', (c.onlyEntryPoint k).reflect.result = .ok r' ∧ r'.header = r.header ∧
      r'.entryPoints.map (·.map r'.tree) = [e.map r.tree] := by
  obtain ⟨words, base, hwords, hbase, hheader, hts⟩ := (reflects_iff hu).mp ⟨r, hr, rfl, rfl⟩
  obtain ⟨i, hi, ht⟩ := getElem?_eq_some_of_forall₂ hts (k := k) (y := e.map r.tree)
    (by rw [List.getElem?_map, he, Option.map_some])
  refine (reflects_onlyEntryPoint_iff hu).mpr ⟨words, base, hwords, hbase, hheader, ?_⟩
  rw [hi]
  exact .cons ht .nil

theorem exists_reflect_of_onlyEntryPoint (hu : c.uniqueNames = false) (hpos : 0 < c.entryPointCount)
    (h : ∀ k < c.entryPointCount, ∃ r, (c.onlyEntryPoint k).reflect.result = .ok r) :
    ∃ r, c.reflect.result = .ok r := by
  have hone : ∀ k < c.entryPointCount, ∃ words base, c.words = .ok words ∧
      c.source (Graph.withoutEntryPoints words) = .ok base ∧
      ∃ ts, List.Forall₂ (c.Describes base) (Graph.entryPointInstructions words)[k]?.toList ts := by
    intro k hk
    obtain ⟨r, hr⟩ := h k hk
    obtain ⟨words, base, hwords, hbase, -, hts⟩ :=
      (reflects_onlyEntryPoint_iff hu).mp ⟨r, hr, rfl, rfl⟩
    exact ⟨words, base, hwords, hbase, _, hts⟩
  -- All entry points are described from the same source, so that of the first one will do.
  obtain ⟨words, base, hwords, hbase, -⟩ := hone 0 hpos
  have heach : ∀ i ∈ Graph.entryPointInstructions words, ∃ t, c.Describes base i t := by
    intro i hi
    obtain ⟨k, hk, rfl⟩ := List.mem_iff_getElem.mp hi
    obtain ⟨words', base', hwords', hbase', hts⟩ :=
      hone k (by rw [entryPointCount_eq hwords]; exact hk)
    rw [hwords] at hwords'
    cases hwords'
    rw [hbase] at hbase'
    cases hbase'
    rw [List.getElem?_eq_getElem hk] at hts
    exact exists_forall₂_iff.mp hts _ List.mem_cons_self
  obtain ⟨ts, hts⟩ := exists_forall₂_iff.mpr heach
  obtain ⟨r, hr, -⟩ := (reflects_iff hu).mpr ⟨words, base, hwords, hbase, rfl, hts⟩
  exact ⟨r, hr⟩

/-- **Entry points are independent.** If a binary can be reflected, it can with each of its entry
points alone, and that entry point is then described alike once its references are written out. If
it can be reflected with each of its entry points alone, and there is one, it can with all. -/
theorem reflect_onlyEntryPoint (c : Config) (hu : c.uniqueNames = false) :
    (∀ r, c.reflect.result = .ok r → r.entryPoints.length = c.entryPointCount ∧
      ∀ k e, r.entryPoints[k]? = some e → ∃ r', (c.onlyEntryPoint k).reflect.result = .ok r' ∧
        r'.header = r.header ∧ r'.entryPoints.map (·.map r'.tree) = [e.map r.tree]) ∧
    (0 < c.entryPointCount →
      (∀ k < c.entryPointCount, ∃ r, (c.onlyEntryPoint k).reflect.result = .ok r) →
      ∃ r, c.reflect.result = .ok r) := by
  refine ⟨fun r hr => ⟨?_, fun k e he => exists_reflect_onlyEntryPoint hu hr he⟩,
    exists_reflect_of_onlyEntryPoint hu⟩
  obtain ⟨words, base, hwords, -, -, hts⟩ := (reflects_iff hu).mp ⟨r, hr, rfl, rfl⟩
  rw [entryPointCount_eq hwords, hts.length_eq, List.length_map]

set_option maxRecDepth 100000 in
/-- The small binary has two entry points, and each is described alike without the other one. -/
theorem sample_reflect_onlyEntryPoint : (sampleConfig 1).uniqueNames = false ∧
    ∃ r, (sampleConfig 1).reflect.result = .ok r ∧ r.entryPoints.length = 2 ∧
      ∀ k e, r.entryPoints[k]? = some e →
        ∃ r', ((sampleConfig 1).onlyEntryPoint k).reflect.result = .ok r' ∧
          r'.header = r.header ∧ r'.entryPoints.map (·.map r'.tree) = [e.map r.tree] := by
  obtain ⟨r, hr, hlength⟩ := exists_eq_ok_of_any (x := (sampleConfig 1).reflect.result)
    (p := fun r => r.entryPoints.length = 2) (by decide +kernel)
  exact ⟨rfl, r, hr, of_decide_eq_true hlength,
    ((reflect_onlyEntryPoint (sampleConfig 1) rfl).1 r hr).2⟩

end Config

end ShaderReflect
