import ShaderReflect.Proofs.Binary.Literal
import ShaderReflect.Proofs.Closed

/-!
# Reads in sequence

The operands of an instruction are read one request after the other, and a request that fails does
not end the reading: the next one goes on from where it stopped. So each request is told by what it
takes off the unread operands, both when it is answered (`Request.Decodes`) and when it fails
(`Request.Fails`). These two leave no choice, and a whole run is a chain of them (`Request.Reads`).

* `Request.read_eq_ok_iff`, `Request.read_eq_error_iff`: one read, as the two descriptions say.
* `Request.reads_run`: a run is a chain of such reads.
* `Request.Reads.suffix`: whatever was read, what is unread is an end of the operands.
* `Request.eq_run_of_reads`: no other chain has the same requests and operands.
* `Request.reads_exact`: all of this together.

Specification, 4.1 (`Operands`). The requests are the seven kinds of reads, in any number and order.
`Statement` stops at the first one that fails; that a client may go on is why a read hands back what
it leaves even then. Enumerants are read of any enumeration.
-/

namespace ShaderReflect

variable {α : Type} {bound : Word}

/-! ## Requests -/

/-- A request for an operand, by the type of its answer. -/
inductive Request : Type → Type 1
  | word : Request Word
  | flag : Request Bool
  | ident : Request Ident
  | enumerant (α : Type) [Enumerant α] : Request α
  | string : Request String
  | list : Request (List Word)
  | idents : Request (List Ident)

namespace Request

/-- The read that answers a request, in a binary whose IDs are below a bound. -/
def read (bound : Word) : Request α → Read α
  | .word => Read.word
  | .flag => Read.flag
  | .ident => Read.ident bound
  | @enumerant α _ => Read.enumerant α
  | .string => Read.string
  | .list => Read.rest
  | .idents => Read.idents bound

/-- A request is answered by what the words stand for that it takes. Lists take all words there
are, a string those up to its NUL, anything else one word. -/
def Decodes (bound : Word) : Request α → (taken left : List Word) → α → Prop
  | .word, taken, _, w => taken = [w]
  | .flag, taken, _, b => ∃ w, taken = [w] ∧ (b = true ↔ w ≠ 0)
  | .ident, taken, _, id => taken = [id] ∧ InBound bound id
  | @enumerant _ _, taken, _, a => ∃ w, taken = [w] ∧ Enumerant.ofWord? w = some a
  | .string, taken, _, s => '\x00' ∉ s.toList ∧ ∃ padding : List UInt8, padding.length ≤ 3 ∧
      taken.flatMap Literal.bytes = Literal.utf8 s ++ 0 :: padding
  | .list, taken, left, ws => left = [] ∧ taken = ws
  | .idents, taken, left, ids => left = [] ∧ taken = ids ∧ ∀ id ∈ ids, InBound bound id

/-- The operands have run out, so that nothing is taken. -/
def RanOut (taken left : List Word) (f : Fault) : Prop :=
  taken = [] ∧ left = [] ∧ f = .corrupted .missingOperands

/-- A request fails with a fault and the words that it has taken by then. A word that is refused is
taken, as is a string that is not UTF-8; the end of a string is looked for before any word is. -/
def Fails (bound : Word) : Request α → (taken left : List Word) → Fault → Prop
  | .word, taken, left, f | .flag, taken, left, f => RanOut taken left f
  | .ident, taken, left, f => RanOut taken left f ∨
      ∃ id, taken = [id] ∧ ¬ InBound bound id ∧ f = .corrupted (.outOfBound id bound)
  | @enumerant α _, taken, left, f => RanOut taken left f ∨
      ∃ w, taken = [w] ∧ (∀ a : α, Enumerant.ofWord? w ≠ some a) ∧ f = .unsupported (.enumerant w)
  | .string, taken, left, f => RanOut taken left f ∨
      (taken = [] ∧ left ≠ [] ∧ (∀ w ∈ left, 0 ∉ Literal.bytes w) ∧
        f = .corrupted .unterminatedString) ∨
      ∃ bs padding : List UInt8, 0 ∉ bs ∧ (∀ s, Literal.utf8 s ≠ bs) ∧ padding.length ≤ 3 ∧
        taken.flatMap Literal.bytes = bs ++ 0 :: padding ∧ f = .corrupted .invalidString
  | .list, _, _, _ => False
  | .idents, taken, left, f => left = [] ∧ ∃ before id after, taken = before ++ id :: after ∧
      (∀ i ∈ before, InBound bound i) ∧ ¬ InBound bound id ∧ f = .corrupted (.outOfBound id bound)

end Request

/-! ## One read -/

namespace Read

variable {ws left : List Word} {f : Fault}

theorem checkIdent_of_inBound {id : Word} (h : InBound bound id) :
    checkIdent bound id = .ok () := by
  refine if_neg (not_or.mpr ⟨?_, UInt32.not_le.mpr h.2⟩)
  rintro rfl
  exact absurd h.1 (by decide)

theorem checkIdent_of_not_inBound {id : Word} (h : ¬ InBound bound id) :
    checkIdent bound id = .error (.corrupted (.outOfBound id bound)) := by
  by_cases hid : id = 0 ∨ bound ≤ id
  · exact if_pos hid
  · exact absurd (inBound_of_checkIdent (if_neg hid)) h

theorem checkIdent_eq_ok_iff {id : Word} : checkIdent bound id = .ok () ↔ InBound bound id :=
  ⟨inBound_of_checkIdent, checkIdent_of_inBound⟩

/-- A check of IDs stops at the first one that is refused. -/
theorem forM_checkIdent_eq_error_iff {ids : List Ident} :
    ids.forM (checkIdent bound) = .error f ↔ ∃ before id after, ids = before ++ id :: after ∧
      (∀ i ∈ before, InBound bound i) ∧ ¬ InBound bound id ∧
      f = .corrupted (.outOfBound id bound) := by
  induction ids with
  | nil =>
    refine iff_of_false (fun h => by cases h) ?_
    rintro ⟨before, id, after, h, -⟩
    simp at h
  | cons id ids ih =>
    show (checkIdent bound id >>= fun _ => ids.forM (checkIdent bound)) = .error f ↔ _
    by_cases hid : InBound bound id
    · rw [checkIdent_of_inBound hid, ok_bind, ih]
      constructor
      · rintro ⟨before, i, after, rfl, hbefore, hrest⟩
        exact ⟨id :: before, i, after, rfl, List.forall_mem_cons.mpr ⟨hid, hbefore⟩, hrest⟩
      · rintro ⟨before, i, after, heq, hbefore, hi, hf⟩
        cases before with
        | nil =>
          cases heq
          exact absurd hid hi
        | cons j before =>
          cases heq
          exact ⟨before, i, after, rfl, (List.forall_mem_cons.mp hbefore).2, hi, hf⟩
    · rw [checkIdent_of_not_inBound hid, error_bind]
      constructor
      · intro h
        cases h
        exact ⟨[], id, ids, rfl, by simp, hid, rfl⟩
      · rintro ⟨before, i, after, heq, hbefore, hi, rfl⟩
        cases before with
        | nil =>
          cases heq
          rfl
        | cons j before =>
          cases heq
          exact absurd (List.forall_mem_cons.mp hbefore).1 hid

section Single

variable {β : Type} {r : Read β} {a : β} {answer : Word → Except Fault β}

/-- A read takes one word and answers by that word alone; it fails if there is none. -/
structure Single (r : Read β) (answer : Word → Except Fault β) : Prop where
  cons : ∀ w rest, r (w :: rest) = (answer w, rest)
  nil : r [] = (.error (.corrupted .missingOperands), [])

theorem Single.eq_ok_iff (h : Single r answer) :
    r ws = (.ok a, left) ↔ ∃ taken, ws = taken ++ left ∧ ∃ w, taken = [w] ∧ answer w = .ok a := by
  cases ws with
  | nil =>
    rw [h.nil]
    refine iff_of_false (fun h => by cases h) ?_
    rintro ⟨taken, htaken, w, rfl, -⟩
    simp at htaken
  | cons w ws =>
    rw [h.cons, Prod.mk.injEq]
    constructor
    · rintro ⟨ha, rfl⟩
      exact ⟨[w], rfl, w, rfl, ha⟩
    · rintro ⟨taken, htaken, v, rfl, ha⟩
      cases htaken
      exact ⟨ha, rfl⟩

theorem Single.eq_error_iff (h : Single r answer) :
    r ws = (.error f, left) ↔ ∃ taken, ws = taken ++ left ∧
      (Request.RanOut taken left f ∨ ∃ w, taken = [w] ∧ answer w = .error f) := by
  cases ws with
  | nil =>
    rw [h.nil, Prod.mk.injEq]
    constructor
    · rintro ⟨hf, rfl⟩
      cases hf
      exact ⟨[], rfl, .inl ⟨rfl, rfl, rfl⟩⟩
    · rintro ⟨taken, htaken, ⟨-, rfl, rfl⟩ | ⟨w, rfl, -⟩⟩
      · exact ⟨rfl, rfl⟩
      · simp at htaken
  | cons w ws =>
    rw [h.cons, Prod.mk.injEq]
    constructor
    · rintro ⟨hf, rfl⟩
      exact ⟨[w], rfl, .inr ⟨w, rfl, hf⟩⟩
    · rintro ⟨taken, htaken, ⟨rfl, rfl, -⟩ | ⟨v, rfl, hf⟩⟩
      · simp at htaken
      · cases htaken
        exact ⟨hf, rfl⟩

theorem single_word : Single word .ok := ⟨fun _ _ => rfl, rfl⟩

theorem single_flag : Single flag fun w => .ok (decide (w ≠ 0)) := ⟨fun _ _ => rfl, rfl⟩

theorem single_ident (bound : Word) :
    Single (ident bound) fun w => (checkIdent bound w).map fun _ => w :=
  ⟨ident_cons bound, rfl⟩

theorem single_enumerant (α : Type) [Enumerant α] : Single (enumerant α) fun w =>
    (Enumerant.ofWord? w).elim (.error (.unsupported (.enumerant w))) .ok := by
  refine ⟨fun w rest => ?_, rfl⟩
  rw [enumerant, bind_of_ok (rfl : word (w :: rest) = (.ok w, rest))]
  cases (Enumerant.ofWord? w : Option α) <;> rfl

end Single

/-- IDs are checked when all words are taken. -/
theorem idents_eq (bound : Word) (ws : List Word) :
    idents bound ws = ((ws.forM (checkIdent bound)).map fun _ => ws, []) := by
  rw [idents, bind_of_ok (rfl : Read.rest ws = (.ok ws, []))]
  cases ws.forM (checkIdent bound) <;> rfl

/-- A string fails where there is no word, where no word holds a NUL, or where it ends but its bytes
are those of no string. -/
theorem string_eq_error_iff : string ws = (.error f, left) ↔ ∃ taken, ws = taken ++ left ∧
    Request.Fails bound .string taken left f := by
  simp only [Request.Fails]
  constructor
  · intro h
    unfold string at h
    cases ws with
    | nil =>
      cases h
      exact ⟨[], rfl, .inl ⟨rfl, rfl, rfl⟩⟩
    | cons w ws =>
      cases hsplit : Literal.split? (w :: ws) with
      | none =>
        rw [hsplit] at h
        cases h
        exact ⟨[], rfl, .inr (.inl ⟨rfl, by simp, Literal.split?_eq_none_iff.mp hsplit, rfl⟩)⟩
      | some x =>
        obtain ⟨bs, after⟩ := x
        rw [hsplit] at h
        dsimp only at h
        cases hdecode : Literal.decode? bs with
        | some s =>
          rw [hdecode] at h
          cases h
        | none =>
          rw [hdecode] at h
          cases h
          obtain ⟨hnul, p, padding, hp, hbytes, hpadding⟩ := Literal.split?_eq_some_iff.mp hsplit
          refine ⟨p, hp, .inr (.inr ⟨bs, padding, hnul, fun s hs => ?_, hpadding, hbytes, rfl⟩)⟩
          rw [Literal.decode?_eq_some_iff.mpr hs] at hdecode
          cases hdecode
  · rintro ⟨taken, rfl, ⟨rfl, rfl, rfl⟩ | ⟨rfl, hleft, hnul, rfl⟩ |
      ⟨bs, padding, hnul, hbs, hpadding, hbytes, rfl⟩⟩
    · rfl
    · rw [List.nil_append]
      have hsplit := Literal.split?_eq_none_iff.mpr hnul
      unfold string
      cases left with
      | nil => exact absurd rfl hleft
      | cons w left => rw [hsplit]
    · have hsplit := Literal.split?_append hnul hbytes hpadding left
      have hdecode : Literal.decode? bs = none :=
        Option.eq_none_iff_forall_ne_some.mpr fun s hs => hbs s (Literal.decode?_eq_some_iff.mp hs)
      unfold string
      cases taken with
      | nil => simp at hbytes
      | cons w taken =>
        rw [List.cons_append] at hsplit ⊢
        rw [hsplit]
        dsimp only
        rw [hdecode]

end Read

namespace Request

variable {ws left : List Word} {f : Fault} {a : α}

/-- **A request is answered** exactly by taking words that decode to the answer off the front. -/
theorem read_eq_ok_iff (r : Request α) : r.read bound ws = (.ok a, left) ↔
    ∃ taken, ws = taken ++ left ∧ r.Decodes bound taken left a := by
  cases r with
  | word =>
    rw [read, Read.single_word.eq_ok_iff]
    simp [Decodes]
  | flag =>
    rw [read, Read.single_flag.eq_ok_iff]
    have hflag : ∀ w : Word, decide (w ≠ 0) = a ↔ (a = true ↔ w ≠ 0) := fun w => by
      cases a <;> simp
    simp only [Decodes, Except.ok.injEq, hflag]
  | ident =>
    rw [read, (Read.single_ident bound).eq_ok_iff]
    have hident : ∀ w, ((Read.checkIdent bound w).map fun _ => w) = .ok a ↔
        w = a ∧ InBound bound w := fun w => by
      by_cases hw : InBound bound w
      · simp [Read.checkIdent_of_inBound hw, Except.map, hw]
      · simp [Read.checkIdent_of_not_inBound hw, Except.map, hw]
    simp only [hident, Decodes]
    refine exists_congr fun taken => and_congr_right fun _ => ⟨?_, ?_⟩
    · rintro ⟨w, rfl, rfl, hw⟩
      exact ⟨rfl, hw⟩
    · rintro ⟨rfl, ha⟩
      exact ⟨a, rfl, rfl, ha⟩
  | enumerant α =>
    rw [read, (Read.single_enumerant α).eq_ok_iff]
    refine exists_congr fun taken => and_congr_right fun _ => exists_congr fun w => ?_
    cases Enumerant.ofWord? (α := α) w <;> simp
  | string =>
    rw [read, Read.string_eq_ok_iff, Literal.split?_eq_some_iff, Literal.zero_mem_utf8_iff]
    simp only [Decodes]
    constructor
    · rintro ⟨hnul, taken, padding, rfl, hbytes, hpadding⟩
      exact ⟨taken, rfl, hnul, padding, hpadding, hbytes⟩
    · rintro ⟨taken, rfl, hnul, padding, hpadding, hbytes⟩
      exact ⟨hnul, taken, padding, rfl, hbytes, hpadding⟩
  | list =>
    simp only [read, Read.rest, Decodes, Prod.mk.injEq, Except.ok.injEq]
    constructor
    · rintro ⟨rfl, rfl⟩
      exact ⟨ws, by simp, rfl, rfl⟩
    · rintro ⟨taken, rfl, rfl, rfl⟩
      exact ⟨by simp, rfl⟩
  | idents =>
    have hidents : ((ws.forM (Read.checkIdent bound)).map fun _ => ws) = .ok a ↔
        ws = a ∧ ∀ id ∈ ws, InBound bound id := by
      have hcheck : ws.forM (Read.checkIdent bound) = .ok () ↔ _ := forM_eq_ok_iff
      simp only [Read.checkIdent_eq_ok_iff] at hcheck
      rw [← hcheck]
      cases ws.forM (Read.checkIdent bound) <;> simp [Except.map]
    simp only [read, Read.idents_eq, Prod.mk.injEq, hidents, Decodes]
    constructor
    · rintro ⟨⟨rfl, hws⟩, rfl⟩
      exact ⟨ws, by simp, rfl, rfl, hws⟩
    · rintro ⟨taken, rfl, rfl, rfl, ha⟩
      rw [List.append_nil]
      exact ⟨⟨rfl, ha⟩, rfl⟩

/-- **A request fails** exactly as the words it finds at the front make it. -/
theorem read_eq_error_iff (r : Request α) : r.read bound ws = (.error f, left) ↔
    ∃ taken, ws = taken ++ left ∧ r.Fails bound taken left f := by
  cases r with
  | word =>
    rw [read, Read.single_word.eq_error_iff]
    simp [Fails]
  | flag =>
    rw [read, Read.single_flag.eq_error_iff]
    simp [Fails]
  | ident =>
    rw [read, (Read.single_ident bound).eq_error_iff]
    refine exists_congr fun taken => and_congr_right fun _ => or_congr_right <|
      exists_congr fun w => and_congr_right fun _ => ?_
    by_cases hw : InBound bound w
    · simp [Read.checkIdent_of_inBound hw, Except.map, hw]
    · simp [Read.checkIdent_of_not_inBound hw, Except.map, hw, eq_comm]
  | enumerant α =>
    rw [read, (Read.single_enumerant α).eq_error_iff]
    refine exists_congr fun taken => and_congr_right fun _ => or_congr_right <|
      exists_congr fun w => and_congr_right fun _ => ?_
    cases Enumerant.ofWord? (α := α) w <;> simp [eq_comm]
  | string => exact Read.string_eq_error_iff
  | list => simp [read, Read.rest, Fails]
  | idents =>
    have hidents : ((ws.forM (Read.checkIdent bound)).map fun _ => ws) = .error f ↔
        ws.forM (Read.checkIdent bound) = .error f := by
      cases ws.forM (Read.checkIdent bound) <;> simp [Except.map]
    simp only [read, Read.idents_eq, Prod.mk.injEq, hidents, Read.forM_checkIdent_eq_error_iff,
      Fails]
    constructor
    · rintro ⟨h, rfl⟩
      exact ⟨ws, by simp, rfl, h⟩
    · rintro ⟨taken, rfl, rfl, h⟩
      rw [List.append_nil]
      exact ⟨h, rfl⟩

/-! ## Reads in sequence -/

/-- A request with what it yields, or the fault that it fails with. -/
structure Answer where
  {α : Type}
  request : Request α
  result : Except Fault α

/-- What was asked for. -/
def Answer.asked (a : Answer) : (α : Type) × Request α := ⟨a.α, a.request⟩

/-- The answers to requests that are made one after the other, and the operands that are unread
after them. -/
def run (bound : Word) : List ((α : Type) × Request α) → List Word → List Answer × List Word
  | [], ws => ([], ws)
  | ⟨_, r⟩ :: requests, ws =>
    let (result, left) := r.read bound ws
    let (answers, last) := run bound requests left
    (⟨r, result⟩ :: answers, last)

/-- Some operands, the answers to requests that are made of them one after the other, and the
operands that are unread in the end. -/
inductive Reads (bound : Word) : List Word → List Answer → List Word → Prop
  | done (ws : List Word) : Reads bound ws [] ws
  /-- The first request is answered, and the next one goes on with what it leaves. -/
  | answered {α : Type} {r : Request α} {taken left last : List Word} {a : α}
      {answers : List Answer} (h : r.Decodes bound taken left a)
      (rest : Reads bound left answers last) :
      Reads bound (taken ++ left) (⟨r, .ok a⟩ :: answers) last
  /-- The first request fails. The next one goes on where it stopped. -/
  | failed {α : Type} {r : Request α} {taken left last : List Word} {f : Fault}
      {answers : List Answer} (h : r.Fails bound taken left f)
      (rest : Reads bound left answers last) :
      Reads bound (taken ++ left) (⟨r, .error f⟩ :: answers) last

variable {requests : List ((α : Type) × Request α)} {ws last : List Word} {answers : List Answer}

/-- **A run is a chain of reads.** -/
theorem reads_run (bound : Word) (requests : List ((α : Type) × Request α)) (ws : List Word) :
    Reads bound ws (run bound requests ws).1 (run bound requests ws).2 := by
  induction requests generalizing ws with
  | nil => exact .done ws
  | cons q requests ih =>
    obtain ⟨α, r⟩ := q
    simp only [run]
    cases hread : r.read bound ws with
    | mk result left =>
      cases result with
      | ok a =>
        obtain ⟨taken, rfl, h⟩ := r.read_eq_ok_iff.mp hread
        exact .answered h (ih left)
      | error f =>
        obtain ⟨taken, rfl, h⟩ := r.read_eq_error_iff.mp hread
        exact .failed h (ih left)

/-- The requests of a run are those that were made. -/
theorem asked_run (bound : Word) (requests : List ((α : Type) × Request α)) (ws : List Word) :
    (run bound requests ws).1.map Answer.asked = requests := by
  induction requests generalizing ws with
  | nil => rfl
  | cons q requests ih => simp only [run, List.map_cons, Answer.asked, ih]

/-- A chain of reads is the run of its requests. -/
theorem eq_run_of_reads (h : Reads bound ws answers last) :
    run bound (answers.map Answer.asked) ws = (answers, last) := by
  induction h with
  | done ws => rfl
  | @answered α r taken left last a answers h rest ih =>
    have hread := r.read_eq_ok_iff.mpr ⟨taken, rfl, h⟩
    simp only [List.map_cons, Answer.asked, run, hread]
    rw [ih]
  | @failed α r taken left last f answers h rest ih =>
    have hread := r.read_eq_error_iff.mpr ⟨taken, rfl, h⟩
    simp only [List.map_cons, Answer.asked, run, hread]
    rw [ih]

/-- What a chain of reads leaves is an end of the operands. -/
theorem Reads.suffix (h : Reads bound ws answers last) : last <:+ ws := by
  induction h with
  | done ws => exact List.suffix_refl ws
  | answered _ _ ih => exact ih.trans (List.suffix_append _ _)
  | failed _ _ ih => exact ih.trans (List.suffix_append _ _)

/-- **Reads stay in bounds and go on predictably.** Requests that are made one after the other,
those that fail included, are answered by a chain of reads: each answer is what the words stand for
that its request takes off the unread operands, IDs in it being positive and below the bound, and
each failure has taken the words that its reason tells. The chain has the requests that were made
and no other chain has. At any time, what is unread is an end of the operands. -/
theorem reads_exact (bound : Word) (requests : List ((α : Type) × Request α)) (ws : List Word) :
    Reads bound ws (run bound requests ws).1 (run bound requests ws).2 ∧
    (run bound requests ws).1.map Answer.asked = requests ∧
    (∀ answers last, answers.map Answer.asked = requests → Reads bound ws answers last →
      (answers, last) = run bound requests ws) ∧
    ∀ k, (run bound (requests.take k) ws).2 <:+ ws := by
  refine ⟨reads_run bound requests ws, asked_run bound requests ws, ?_, fun k => ?_⟩
  · rintro answers last rfl h
    exact (eq_run_of_reads h).symm
  · exact (reads_run bound _ ws).suffix

/-- An ID that is out of bound is gone with its fault, the next word is read, and then there is none
left. -/
theorem sample_reads_exact :
    Reads 5 [9, 7] [⟨.ident, .error (.corrupted (.outOfBound 9 5))⟩, ⟨.word, .ok 7⟩,
      ⟨.flag, .error (.corrupted .missingOperands)⟩] [] ∧
    run 5 [⟨_, .ident⟩, ⟨_, .word⟩, ⟨_, .flag⟩] [9, 7] =
      ([⟨.ident, .error (.corrupted (.outOfBound 9 5))⟩, ⟨.word, .ok 7⟩,
        ⟨.flag, .error (.corrupted .missingOperands)⟩], []) := by
  obtain ⟨hreads, -, hunique, -⟩ := reads_exact 5 [⟨_, .ident⟩, ⟨_, .word⟩, ⟨_, .flag⟩] [9, 7]
  exact ⟨hreads, (hunique _ _ rfl hreads).symm⟩

end Request

end ShaderReflect
