import ShaderReflect.Proofs.Declared.Outline
import ShaderReflect.Proofs.Visits

/-!
# Skipped instructions

An instruction that is ignored may stand anywhere, and one that is not understood may stand in a
function (specification, 4.2). Neither is read, whatever its operands are, and a binary is reflected
as if it were not there: to the same reflection, or to the same fault.

* `Draft.ofStream_insert`: an item of a stream that leaves what has been collected as it is.
* `Graph.ofWords_insert`: a graph, or the fault that there is none for.
* `Config.reflect_binary_congr`: a reflection looks at the graph of a binary only.
* `Config.reflect_insert`: an instruction that is skipped.

The two binaries are compared in the same orders of visits, where the events agree as well, and in
orders of their own, where they end alike (`Config.EndAlike`). An instruction that is not understood
is in a function if, among the instructions before it, one that starts a function has not been
ended; the instructions before it need not be of a binary that can be reflected.
-/

namespace ShaderReflect

open Instruction

/-! ## Skipping -/

/-- An instruction is skipped if it stands behind the given ones: it is ignored wherever it stands,
or it is not understood and a function is open. -/
def Instruction.SkippedAfter (before : List Instruction) (i : Instruction) : Prop :=
  Role.ofOpcode? i.opcode = some .ignored ∨
    Role.ofOpcode? i.opcode = none ∧ inFunction before = true

instance (before : List Instruction) (i : Instruction) : Decidable (i.SkippedAfter before) :=
  inferInstanceAs (Decidable (_ ∨ _))

/-- The operands of an instruction that is skipped are not read. -/
theorem Statement.read_of_skippedAfter {before : List Instruction} {i : Instruction}
    (h : i.SkippedAfter before) (bound : Word) :
    Statement.read bound (inFunction before) i = .ok .ignored := by
  unfold Statement.read
  rcases h with hignored | ⟨hunknown, hopen⟩
  · rw [hignored]
    rfl
  · rw [hunknown, hopen]
    rfl

namespace Draft

variable {bound : Word} {d : Draft} {i : Instruction} {is : List Instruction}

/-- Behind the instructions that have been collected, one that is skipped changes nothing. -/
theorem addInstruction_of_skippedAfter (h : i.SkippedAfter is)
    (hd : is.foldlM (addInstruction bound) {} = .ok d) : d.addInstruction bound i = .ok d := by
  have hopen : d.declarations.current.isSome = inFunction is := isSome_current_foldlM hd
  unfold addInstruction
  rw [hopen, Statement.read_of_skippedAfter h]
  rfl

/-- An item may be inserted into a stream if it leaves what has been collected before it as it
is. -/
theorem ofStream_insert {before after : List (Except Fault Instruction)}
    {item : Except Fault Instruction}
    (h : ∀ d, before.foldlM (addItem bound) {} = .ok d → d.addItem bound item = .ok d) :
    ofStream bound (before ++ item :: after) = ofStream bound (before ++ after) := by
  unfold ofStream
  rw [List.foldlM_append, List.foldlM_append]
  -- A fault before the item is the fault of both streams.
  cases hbefore : before.foldlM (addItem bound) {} with
  | error e => rfl
  | ok d => rw [ok_bind, ok_bind, List.foldlM_cons, h d hbefore, ok_bind]

end Draft

/-! ## Binaries -/

/-- The header of a binary is read from its first five words. -/
theorem Header.read_append {head : List Word} (h : head.length = 5) (body : List Word) :
    Header.read (head ++ body) = (fun x => (x.1, body)) <$> Header.read head := by
  rcases head with _ | ⟨_, _ | ⟨_, _ | ⟨_, _ | ⟨_, _ | ⟨_, _ | ⟨_, _⟩⟩⟩⟩⟩⟩ <;> cases h
  simp only [List.cons_append, List.nil_append, Header.read]
  repeat' split
  all_goals rfl

/-- The graph of a binary with one instruction more that is skipped. -/
theorem Graph.ofWords_insert {head tail : List Word} {is : List Instruction} {i : Instruction}
    (hhead : head.length = 5) (his : ∀ j ∈ is, j.Encodable) (hi : i.Encodable)
    (hskipped : i.SkippedAfter is) (visits : Visits) :
    Graph.ofWords (head ++ is.flatMap words ++ i.words ++ tail) visits =
      Graph.ofWords (head ++ is.flatMap words ++ tail) visits := by
  have hstream : stream (is.flatMap words ++ (i.words ++ tail)) =
      is.map .ok ++ .ok i :: stream tail := by
    rw [stream_flatMap_words_append his, stream_of_next? (next?_words_append hi tail)]
  have hinsert : ∀ bound, Draft.ofStream bound (is.map .ok ++ .ok i :: stream tail) =
      Draft.ofStream bound (is.map .ok ++ stream tail) := by
    refine fun bound => Draft.ofStream_insert fun d hd => ?_
    rw [List.foldlM_map] at hd
    exact Draft.addInstruction_of_skippedAfter hskipped hd
  unfold Graph.ofWords Graph.ofBody
  simp only [List.append_assoc, Header.read_append hhead, bind_map_left, hstream,
    stream_flatMap_words_append his, hinsert]

namespace Config

variable {c : Config} {ws ws' : List Word}

/-- A reflection looks at the graph of a binary only. -/
theorem reflect_binary_congr {visits : Visits} (hne : ws ≠ []) (hne' : ws' ≠ [])
    (h : Graph.ofWords ws visits = Graph.ofWords ws' visits) :
    { c with binary := some ws }.reflect visits = { c with binary := some ws' }.reflect visits := by
  have hwords : { c with binary := some ws }.words = .ok ws := words_eq_ok_iff.mpr ⟨rfl, hne⟩
  have hwords' : { c with binary := some ws' }.words = .ok ws' :=
    words_eq_ok_iff.mpr ⟨rfl, hne'⟩
  have hload : Graph.load ws visits = Graph.load ws' visits := by
    unfold Graph.load
    rw [h]
  unfold reflect
  rw [hwords, hwords']
  show (Graph.load ws visits >>= _) = (Graph.load ws' visits >>= _)
  rw [hload]
  rfl

/-- **An instruction that is skipped changes nothing.** It may be inserted between any two
instructions of any binary, and at both ends: the binary is reflected to the same reflection, or to
the same fault, with the same notes, if declarations are gone through in the same orders. In any
orders, both binaries end alike: with the same reflection, or both are rejected, for violations that
they have. -/
theorem reflect_insert (c : Config) {head tail : List Word} {is : List Instruction}
    {i : Instruction} (hhead : head.length = 5) (his : ∀ j ∈ is, j.Encodable) (hi : i.Encodable)
    (hskipped : i.SkippedAfter is) :
    let extended : Config :=
      { c with binary := some (head ++ is.flatMap Instruction.words ++ i.words ++ tail) }
    let original : Config :=
      { c with binary := some (head ++ is.flatMap Instruction.words ++ tail) }
    (∀ v, extended.reflect v = original.reflect v) ∧
      ∀ v w, original.EndAlike (extended.reflect v).result (original.reflect w).result := by
  intro extended original
  have hne : ∀ body, head ++ body ≠ [] := by
    intro body hnil
    rw [(List.append_eq_nil_iff.mp hnil).1] at hhead
    cases hhead
  have hsame : ∀ v, extended.reflect v = original.reflect v := by
    intro v
    refine reflect_binary_congr ?_ ?_ (Graph.ofWords_insert hhead his hi hskipped v)
    · rw [List.append_assoc, List.append_assoc]
      exact hne _
    · rw [List.append_assoc]
      exact hne _
  refine ⟨hsame, fun v w => ?_⟩
  rw [hsame v]
  exact original.reflect_visits v w

set_option maxRecDepth 100000 in
/-- What is not understood in the body of the first shader of the small binary makes no difference,
in whatever orders its declarations are gone through. -/
theorem sample_reflect_insert : Role.ofOpcode? 248 = none ∧ ∃ r : Reflection,
    r.entryPoints.length = 2 ∧ (sampleConfig 1).reflect.result = .ok r ∧
    ∀ v, ({ sampleConfig 1 with
      binary := some ([magicNumber, 0x10300, 0, 64, 0] ++
        ((sampleBody 1).take 27).flatMap Instruction.words ++ (Instruction.mk 248 [5]).words ++
        ((sampleBody 1).drop 27).flatMap Instruction.words) }.reflect v).result = .ok r := by
  obtain ⟨r, hr, hlength⟩ := exists_eq_ok_of_any (x := (sampleConfig 1).reflect.result)
    (p := fun r => r.entryPoints.length = 2) (by decide +kernel)
  refine ⟨by decide, r, of_decide_eq_true hlength, hr, fun v => ?_⟩
  rw [(reflect_insert (sampleConfig 1) rfl (by decide) (by decide) (by decide)).1 v,
    List.append_assoc, ← List.flatMap_append, List.take_append_drop]
  exact (reflect_visits_eq_ok_iff (sampleConfig 1) v {} r).mpr hr

end Config

end ShaderReflect
