import ShaderReflect.Binary.Header
import ShaderReflect.Binary.Instruction
import ShaderReflect.Proofs.Outcome

/-!
# Binaries with other instructions

A body is cut into instructions, with what no instruction can be cut from left over at its end
(`Instruction.cut`); together they are the body (`flatMap_words_cut`). To rewrite a binary is to
write other instructions in the place of these and to leave the rest as it is.

* `next?_words_append`: what was written is read back.
* `stream_eq`: the stream of a body, by its instructions and what is left over.
* `cut_rewrite`: a rewritten body has the instructions that were written.

Binaries are rewritten where two of them are compared that differ in some instructions: without
other entry points, with other defaults, or with one more instruction. The header stays, so the ID
bound is that of both. A body that ends with a fault still ends with it.
-/

namespace ShaderReflect

namespace Instruction

variable {i : Instruction} {body rest tail : List Word} {is : List Instruction}

/-- The opcode and the length fit into the halves of the first word. -/
def Encodable (i : Instruction) : Prop := i.opcode.toNat < 0x10000 ∧ i.wordCount < 0x10000

instance (i : Instruction) : Decidable i.Encodable := inferInstanceAs (Decidable (_ ∧ _))

theorem next?_words_append (h : i.Encodable) (rest : List Word) :
    next? (i.words ++ rest) = some (.ok i, rest) := by
  obtain ⟨hop, hcount⟩ := h
  have hword : (UInt32.ofNat (i.wordCount * 0x10000 + i.opcode.toNat)).toNat =
      i.wordCount * 0x10000 + i.opcode.toNat := UInt32.toNat_ofNat_of_lt' (by
    show _ < 4294967296
    omega)
  have hdiv : (i.wordCount * 0x10000 + i.opcode.toNat) / 0x10000 = i.wordCount := by omega
  have hmod : (i.wordCount * 0x10000 + i.opcode.toNat) % 0x10000 = i.opcode.toNat := by omega
  have hlen : i.wordCount = i.operands.length + 1 := rfl
  rw [words, List.cons_append]
  unfold next?
  simp only [hword, hdiv, hmod, UInt32.ofNat_toNat]
  rw [if_neg (by omega), if_neg (by rw [List.length_append]; omega), hlen, Nat.add_sub_cancel,
    List.take_left, List.drop_left]

/-- An instruction that was cut off can be written, and was written where it was cut off. -/
theorem words_append_of_next? (h : next? body = some (.ok i, rest)) :
    i.Encodable ∧ i.words ++ rest = body := by
  cases body with
  | nil => cases h
  | cons first tail =>
    unfold next? at h
    simp only at h
    split at h
    · cases h
    · rename_i hzero
      split at h
      · cases h
      · rename_i hlong
        cases h
        have hfirst : first.toNat < 4294967296 := first.toNat_lt
        have hcount : (tail.take (first.toNat / 0x10000 - 1)).length + 1 =
            first.toNat / 0x10000 := by
          rw [List.length_take]
          omega
        have hop : (UInt32.ofNat (first.toNat % 0x10000)).toNat = first.toNat % 0x10000 :=
          UInt32.toNat_ofNat_of_lt' (by show _ < 4294967296; omega)
        refine ⟨⟨by rw [hop]; omega, by rw [wordCount, hcount]; omega⟩, ?_⟩
        rw [words, wordCount, hcount, hop, Nat.div_add_mod', UInt32.ofNat_toNat, List.cons_append,
          List.take_append_drop]

/-! ## Cutting a body -/

/-- The instructions of a body, and what is left over at its end. -/
def cut (body : List Word) : List Instruction × List Word :=
  match h : next? body with
  | some (.ok i, rest) =>
    have := length_lt_of_next? h
    (i :: (cut rest).1, (cut rest).2)
  | _ => ([], body)
termination_by body.length

theorem cut_of_next? (h : next? body = some (.ok i, rest)) :
    cut body = (i :: (cut rest).1, (cut rest).2) := by
  rw [cut]
  split
  · rename_i j rest' h'
    rw [h] at h'
    cases h'
    rfl
  · rename_i h'
    exact absurd h (h' i rest)

theorem cut_of_not_next? (h : ∀ i rest, next? body ≠ some (.ok i, rest)) :
    cut body = ([], body) := by
  rw [cut]
  split
  · rename_i j rest' h'
    exact absurd h' (h j rest')
  · rfl

/-- A body is cut step by step: an instruction is cut off, or the body is left over. -/
theorem cut_induction {P : List Word → Prop}
    (step : ∀ body i rest, next? body = some (.ok i, rest) → P rest → P body)
    (stop : ∀ body, (∀ i rest, next? body ≠ some (.ok i, rest)) → P body) (body : List Word) :
    P body := by
  induction body using cut.induct with
  | case1 body i rest h _ ih => exact step body i rest h ih
  | case2 body h => exact stop body h

/-- The instructions of a body with what is left over are the body. -/
theorem flatMap_words_cut (body : List Word) :
    (cut body).1.flatMap words ++ (cut body).2 = body := by
  induction body using cut_induction with
  | step body i rest h ih =>
    rw [cut_of_next? h, List.flatMap_cons, List.append_assoc, ih, (words_append_of_next? h).2]
  | stop body h => rw [cut_of_not_next? h]; rfl

theorem encodable_of_mem_cut (body : List Word) : ∀ i ∈ (cut body).1, i.Encodable := by
  induction body using cut_induction with
  | step body i rest h ih =>
    rw [cut_of_next? h]
    intro j hj
    rcases List.mem_cons.mp hj with rfl | hj
    · exact (words_append_of_next? h).1
    · exact ih j hj
  | stop body h =>
    rw [cut_of_not_next? h]
    exact fun _ h => absurd h List.not_mem_nil

/-- No instruction can be cut from what is left over. -/
theorem not_next?_cut (body : List Word) : ∀ i rest, next? (cut body).2 ≠ some (.ok i, rest) := by
  induction body using cut_induction with
  | step body i rest h ih => rwa [cut_of_next? h]
  | stop body h => rwa [cut_of_not_next? h]

/-- The instructions that were written are read back. -/
theorem cut_flatMap_words (h : ∀ i ∈ is, i.Encodable)
    (ht : ∀ i rest, next? tail ≠ some (.ok i, rest)) :
    cut (is.flatMap words ++ tail) = (is, tail) := by
  induction is with
  | nil => exact cut_of_not_next? ht
  | cons i is ih =>
    rw [List.forall_mem_cons] at h
    rw [List.flatMap_cons, List.append_assoc, cut_of_next? (next?_words_append h.1 _), ih h.2]

/-! ## The stream of a body -/

theorem stream_of_next? {item : Except Fault Instruction} (h : next? body = some (item, rest)) :
    stream body = item :: stream rest := by
  rw [stream]
  split
  · rename_i h'
    rw [h] at h'
    cases h'
  · rename_i item' rest' h'
    rw [h] at h'
    cases h'
    rfl

theorem stream_eq_nil (h : next? body = none) : stream body = [] := by
  rw [stream]
  split
  · rfl
  · rename_i h'
    rw [h] at h'
    cases h'

/-- **The stream of a body** is that of its instructions, and then that of what is left over. -/
theorem stream_eq (body : List Word) :
    stream body = (cut body).1.map .ok ++ stream (cut body).2 := by
  induction body using cut_induction with
  | step body i rest h ih => rw [stream_of_next? h, ih, cut_of_next? h]; rfl
  | stop body h => rw [cut_of_not_next? h]; rfl

/-- The instructions that were written come first in the stream. -/
theorem stream_flatMap_words_append (h : ∀ i ∈ is, i.Encodable) (tail : List Word) :
    stream (is.flatMap words ++ tail) = is.map .ok ++ stream tail := by
  induction is with
  | nil => rfl
  | cons i is ih =>
    rw [List.forall_mem_cons] at h
    rw [List.flatMap_cons, List.append_assoc, stream_of_next? (next?_words_append h.1 _), ih h.2]
    rfl

/-! ## Rewriting -/

/-- A body with other instructions in the place of its own. -/
def rewrite (f : List Instruction → List Instruction) (body : List Word) : List Word :=
  (f (cut body).1).flatMap words ++ (cut body).2

theorem cut_rewrite {f : List Instruction → List Instruction}
    (h : ∀ i ∈ f (cut body).1, i.Encodable) :
    cut (rewrite f body) = (f (cut body).1, (cut body).2) :=
  cut_flatMap_words h (not_next?_cut body)

/-- A binary with other instructions in the place of its own. -/
def rewriteBinary (f : List Instruction → List Instruction) : List Word → List Word
  | magic :: version :: generator :: bound :: schema :: body =>
    magic :: version :: generator :: bound :: schema :: rewrite f body
  | words => words

theorem read_rewriteBinary (f : List Instruction → List Instruction) (words : List Word) :
    Header.read (rewriteBinary f words) =
      (fun x => (x.1, rewrite f x.2)) <$> Header.read words := by
  unfold rewriteBinary
  split
  · simp only [Header.read]
    repeat' split
    all_goals rfl
  · rename_i h
    have hshort : ∀ x, Header.read words ≠ .ok x := by
      unfold Header.read
      split
      · exact absurd rfl (h _ _ _ _ _ _)
      · intro x hx
        cases hx
    cases hx : Header.read words with
    | ok x => exact absurd hx (hshort x)
    | error e => rfl

/-- What follows the header of a rewritten binary is rewritten. -/
theorem drop_rewriteBinary {f : List Instruction → List Instruction} (hf : f [] = [])
    (words : List Word) : (rewriteBinary f words).drop 5 = rewrite f (words.drop 5) := by
  have hnil : rewrite f [] = [] := by
    rw [rewrite, cut_of_not_next? (by simp [next?]), hf]
    rfl
  rcases words with _ | ⟨_, _ | ⟨_, _ | ⟨_, _ | ⟨_, _ | ⟨_, body⟩⟩⟩⟩⟩
  case cons.cons.cons.cons.cons => rfl
  all_goals exact hnil.symm

theorem rewriteBinary_ne_nil {f : List Instruction → List Instruction} {words : List Word}
    (h : words ≠ []) : rewriteBinary f words ≠ [] := by
  unfold rewriteBinary
  split
  · exact List.cons_ne_nil _ _
  · exact h

/-- A binary is rewritten twice as its body is. -/
theorem rewriteBinary_rewriteBinary {f g h : List Instruction → List Instruction}
    (hbody : ∀ body, rewrite g (rewrite f body) = rewrite h body) (words : List Word) :
    rewriteBinary g (rewriteBinary f words) = rewriteBinary h words := by
  rcases words with _ | ⟨_, _ | ⟨_, _ | ⟨_, _ | ⟨_, _ | ⟨_, body⟩⟩⟩⟩⟩
  case cons.cons.cons.cons.cons => simp only [rewriteBinary, hbody body]
  all_goals rfl

end Instruction

end ShaderReflect
