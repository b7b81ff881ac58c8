import ShaderReflect.Proofs.Checked.Operation
import ShaderReflect.Proofs.Closed

/-!
# Decoding with operations that trap

Decoding cuts lists at places that the binary says. The definitions here do so by operations that
trap where there is no such place: the words of the header are looked up by their indices, the
operands of an instruction and what follows it are slices of the body, and what follows a string is
a slice of the operands.

* `readHeader_eq`, `next?_eq`, `stream_eq`, `string_eq`: no place is out of range.
* `graph_eq`: the graph of a binary is built without a trap.

Specification, 4.1 and 4.2. A trap here is what an index or slice out of range would be, so the
results say that there is none for any words, however they are malformed. Reads that only take the
next word have nothing to trap.
-/

namespace ShaderReflect.Checked

/-! ## Headers -/

/-- The number of words of a header. -/
def headerLength : Nat := 5

/-- Check the header of a binary; what follows it is the body. -/
def readHeader (words : List Word) : Run (Header × List Word) := do
  if words.length < headerLength then
    throw (.fault (.corrupted .shortHeader))
  let magic ← index words 0
  if magic ≠ magicNumber then
    throw (.fault (.corrupted (.magic magic)))
  let version ← index words 1
  if version &&& Header.versionPadding ≠ 0 then
    throw (.fault (.corrupted (.versionWord version)))
  let major := version.toNat / 0x10000 % 0x100
  let minor := version.toNat / 0x100 % 0x100
  if major ≠ Header.supportedMajor ∨ minor > Header.maxMinor then
    throw (.fault (.unsupported (.version major minor)))
  let bound ← index words 3
  if bound = 0 then
    throw (.fault (.corrupted .zeroBound))
  let generator ← index words 2
  let schema ← index words 4
  let body ← sliceFrom words headerLength
  return ({ magic, major, minor, generator, bound, schema }, body)

theorem readHeader_eq (words : List Word) : readHeader words = total (Header.read words) := by
  match words with
  | [] | [_] | [_, _] | [_, _, _] | [_, _, _, _] => rfl
  | magic :: version :: generator :: bound :: schema :: body =>
    have hlength : ¬ (magic :: version :: generator :: bound :: schema :: body).length <
        headerLength := by
      simp [headerLength]
    have hbody : sliceFrom (magic :: version :: generator :: bound :: schema :: body)
        headerLength = .ok body := sliceFrom_eq_ok (Nat.not_lt.mp hlength)
    simp only [readHeader, Header.read, if_neg hlength, hbody, index, List.getElem?_cons_zero,
      List.getElem?_cons_succ, liftM_trap_ok, ok_bind, pure_eq_ok, throw_eq_error]
    -- Both sides ask the same questions in the same order.
    repeat' split
    all_goals rfl

/-! ## Instructions -/

/-- The next instruction of a body, or the fault that ends it, with the rest of the body. -/
def next? (body : List Word) : Except Trap (Option (Except Fault Instruction × List Word)) :=
  match body with
  | [] => return none
  | first :: _ => do
    let count := first.toNat / 0x10000
    let opcode := UInt32.ofNat (first.toNat % 0x10000)
    if count = 0 then
      return some (.error (.corrupted (.zeroWordCount opcode)), [])
    else if count > body.length then
      return some (.error (.corrupted (.truncated opcode)), [])
    else
      let operands ← slice body 1 count
      let rest ← sliceFrom body count
      return some (.ok ⟨opcode, operands⟩, rest)

theorem next?_eq (body : List Word) : next? body = .ok (Instruction.next? body) := by
  cases body with
  | nil => rfl
  | cons first rest =>
    unfold next? Instruction.next?
    simp only [List.length_cons]
    by_cases hzero : first.toNat / 0x10000 = 0
    · rw [if_pos hzero, if_pos hzero]
      rfl
    · by_cases hlong : first.toNat / 0x10000 > rest.length + 1
      · rw [if_neg hzero, if_neg hzero, if_pos hlong, if_pos hlong]
        rfl
      · -- The count is at least one and at most the length of the body.
        obtain ⟨n, hn⟩ := Nat.exists_eq_succ_of_ne_zero hzero
        have hle : first.toNat / 0x10000 ≤ (first :: rest).length := Nat.not_lt.mp hlong
        rw [if_neg hzero, if_neg hzero, if_neg hlong, if_neg hlong,
          slice_eq_ok (Nat.one_le_iff_ne_zero.mpr hzero) hle, sliceFrom_eq_ok hle, hn]
        rfl

/-- The instructions of a body in order, ended by a fault if there is one. -/
def stream (body : List Word) : Except Trap (List (Except Fault Instruction)) :=
  match h : next? body with
  | .error t => .error t
  | .ok none => .ok []
  | .ok (some (item, rest)) =>
    have : rest.length < body.length := by
      rw [next?_eq, Except.ok.injEq] at h
      exact Instruction.length_lt_of_next? h
    (item :: ·) <$> stream rest
termination_by body.length

/-- **A body is cut into instructions** at places that it has. -/
theorem stream_eq (body : List Word) : stream body = .ok (Instruction.stream body) := by
  fun_induction stream body with
  | case1 body t h =>
    rw [next?_eq] at h
    cases h
  | case2 body h =>
    rw [next?_eq, Except.ok.injEq] at h
    rw [Instruction.stream_eq_nil h]
  | case3 body item rest h _ ih =>
    rw [next?_eq, Except.ok.injEq] at h
    rw [Instruction.stream_of_next? h, ih, map_ok]

/-! ## Strings -/

/-- A read from the front of the operands, unless it traps. -/
abbrev Reader (α : Type) := ExceptT Fault (StateT (List Word) (Except Trap)) α

namespace Reader

variable {α β : Type}

/-- A read that does not trap. -/
def total (r : Read α) : Reader α := fun ws => .ok (r ws)

/-- What a read yields on all operands of an instruction. -/
def run (r : Reader α) (operands : List Word) : Run α := do
  let (x, _) ← r operands
  Checked.total x

theorem total_pure (a : α) : total (pure a) = pure a := rfl

theorem total_bind (r : Read α) (f : α → Read β) :
    total (r >>= f) = total r >>= fun a => total (f a) := by
  funext ws
  simp only [total, bind, ExceptT.bind, ExceptT.mk, ExceptT.bindCont, StateT.bind, Except.bind]
  rcases r ws with ⟨e | a, left⟩ <;> rfl

theorem total_run (r : Read α) (operands : List Word) :
    (total r).run operands = Checked.total (r.run operands) := rfl

end Reader

/-- The bytes before the first NUL of a literal, with the number of words up to the one that holds
the NUL; nothing if no word holds one. -/
def scan? : List Word → Option (List UInt8 × Nat)
  | [] => none
  | w :: rest =>
    if 0 ∈ Literal.bytes w then
      some ((Literal.bytes w).takeWhile (· ≠ 0), 1)
    else
      (scan? rest).map fun (bs, count) => (Literal.bytes w ++ bs, count + 1)

/-- A literal has at most all of the words. -/
theorem length_le_of_scan? {ws : List Word} {bs : List UInt8} {count : Nat}
    (h : scan? ws = some (bs, count)) : count ≤ ws.length := by
  induction ws generalizing bs count with
  | nil => cases h
  | cons w rest ih =>
    unfold scan? at h
    split at h
    · cases h
      simp
    · obtain ⟨⟨bs', count'⟩, hrest, heq⟩ := Option.map_eq_some_iff.mp h
      cases heq
      exact Nat.succ_le_succ (ih hrest)

theorem split?_eq (ws : List Word) :
    Literal.split? ws = (scan? ws).map fun (bs, count) => (bs, ws.drop count) := by
  induction ws with
  | nil => rfl
  | cons w rest ih =>
    unfold Literal.split? scan?
    split
    · rfl
    · rw [ih, Option.map_map, Option.map_map]
      rfl

/-- The string literal at the front. -/
def string : Reader String := fun ws =>
  match ws, scan? ws with
  | [], _ => .ok (.error (.corrupted .missingOperands), ws)
  | _, none => .ok (.error (.corrupted .unterminatedString), ws)
  | _, some (bs, count) => do
    let rest ← sliceFrom ws count
    match Literal.decode? bs with
    | some s => return (.ok s, rest)
    | none => return (.error (.corrupted .invalidString), rest)

/-- **A string ends** within the operands. -/
theorem string_eq : string = Reader.total Read.string := by
  funext ws
  unfold string Reader.total Read.string
  rw [split?_eq]
  cases ws with
  | nil => rfl
  | cons w rest =>
    rcases h : scan? (w :: rest) with _ | ⟨bs, count⟩
    · rfl
    · simp only [Option.map_some]
      rw [sliceFrom_eq_ok (length_le_of_scan? h)]
      cases Literal.decode? bs <;> rfl

/-! ## Statements -/

/-- The operands of an entry point. -/
def readEntryPoint (bound : Word) : Reader Annotation := do
  let model ← .total (Read.enumerant ExecutionModel)
  let function ← .total (Read.ident bound)
  let name ← string
  let interface ← .total (Read.idents bound)
  return .entryPoint { name, model, function, interface }

/-- The operands of a name. -/
def readName (bound : Word) (isMember : Bool) : Reader Annotation := do
  let target ← .total (Statement.readTarget bound isMember)
  return .name target (← string)

/-- The statement of an instruction. Strings are read from entry points and names only. -/
def readStatement (bound : Word) (inBody : Bool) (i : Instruction) : Run Statement :=
  match Role.ofOpcode? i.opcode with
  | some .entryPoint => .annotate <$> (readEntryPoint bound).run i.operands
  | some .name => .annotate <$> (readName bound false).run i.operands
  | some .memberName => .annotate <$> (readName bound true).run i.operands
  | _ => total (Statement.read bound inBody i)

theorem readEntryPoint_eq (bound : Word) :
    readEntryPoint bound = .total (Statement.readEntryPoint bound) := by
  unfold readEntryPoint Statement.readEntryPoint
  simp only [string_eq, Reader.total_bind, Reader.total_pure]

theorem readName_eq (bound : Word) (isMember : Bool) :
    readName bound isMember = .total (Statement.readName bound isMember) := by
  unfold readName Statement.readName
  simp only [string_eq, Reader.total_bind, Reader.total_pure]

/-- **A statement is read** from the operands that there are. -/
theorem readStatement_eq (bound : Word) (inBody : Bool) (i : Instruction) :
    readStatement bound inBody i = total (Statement.read bound inBody i) := by
  unfold readStatement
  split
  · rename_i h
    rw [readEntryPoint_eq, Reader.total_run, ← total_map, Statement.read, h]
    rfl
  · rename_i h
    rw [readName_eq, Reader.total_run, ← total_map, Statement.read, h]
    rfl
  · rename_i h
    rw [readName_eq, Reader.total_run, ← total_map, Statement.read, h]
    rfl
  · rfl

/-! ## Graphs -/

/-- Collect an instruction. -/
def addInstruction (bound : Word) (d : Draft) (i : Instruction) : Run Draft := do
  let st ← readStatement bound d.declarations.current.isSome i
  total (d.addStatement st)

/-- Collect an item of the instruction stream, if it is an instruction. -/
def addItem (bound : Word) (d : Draft) (item : Except Fault Instruction) : Run Draft := do
  addInstruction bound d (← total item)

/-- Collect all items of an instruction stream. No function may be open at its end. -/
def draft (bound : Word) (items : List (Except Fault Instruction)) : Run Draft := do
  let d ← items.foldlM (addItem bound) {}
  if d.declarations.current.isSome then
    throw (.fault (.corrupted .unterminatedFunction))
  return d

/-- The graph of a binary. -/
def graph (words : List Word) : Run Graph := do
  let (header, body) ← readHeader words
  let items ← stream body
  let d ← draft header.bound items
  total (Graph.ofDraft header d)

theorem addInstruction_eq (bound : Word) (d : Draft) (i : Instruction) :
    addInstruction bound d i = total (d.addInstruction bound i) := by
  unfold addInstruction Draft.addInstruction
  rw [readStatement_eq, total_bind]

theorem addItem_eq (bound : Word) (d : Draft) (item : Except Fault Instruction) :
    addItem bound d item = total (d.addItem bound item) := by
  unfold addItem Draft.addItem
  simp only [addInstruction_eq, total_bind]

theorem draft_eq (bound : Word) (items : List (Except Fault Instruction)) :
    draft bound items = total (Draft.ofStream bound items) := by
  unfold draft Draft.ofStream
  rw [foldlM_total (addItem_eq bound), total_bind]
  refine congrArg _ (funext fun d => ?_)
  cases d.declarations.current <;> rfl

/-- **A graph is built** without a trap. -/
theorem graph_eq (words : List Word) : graph words = total (Graph.ofWords words) := by
  unfold graph Graph.ofWords Graph.ofBody
  simp only [readHeader_eq, stream_eq, draft_eq, liftM_trap_ok, ok_bind, total_bind]

end ShaderReflect.Checked
