import ShaderReflect.Bounded
import ShaderReflect.Proofs.Outcome

/-!
# Operations that trap

Some operations are not defined for all arguments: there is an item at a place of a list only if
the list is that long, and a number of 64 bits can be shifted by less than 64 places only. An
operation here *traps* where it is not defined, instead of giving a result of its own choice.

A `Run` is a computation that ends with a result or a fault unless it traps. One that cannot trap is
`total` of a computation without traps.

* `total_ne_trap`, `total_bind`, `foldlM_total`: what is total does not trap, and is made of steps
  that are total.
* `Agrees`: a run that ends like a computation with events, with neither a trap nor an overflow.
-/

namespace ShaderReflect.Checked

/-- An operation was to be carried out where it is not defined. -/
inductive Trap
  | index
  | slice
  | shift
  | arithmetic
  | bytes
deriving DecidableEq, Repr

/-! ## Lists -/

section

variable {α : Type} {xs : List α} {start stop : Nat}

/-- The item at a place of a list. -/
def index (xs : List α) (place : Nat) : Except Trap α :=
  match xs[place]? with
  | some x => .ok x
  | none => .error .index

/-- The items of a list from one place up to another one. -/
def slice (xs : List α) (start stop : Nat) : Except Trap (List α) :=
  if start ≤ stop ∧ stop ≤ xs.length then .ok ((xs.take stop).drop start) else .error .slice

/-- The items of a list from a place on. -/
def sliceFrom (xs : List α) (start : Nat) : Except Trap (List α) := slice xs start xs.length

theorem slice_eq_ok (hstart : start ≤ stop) (hstop : stop ≤ xs.length) :
    slice xs start stop = .ok ((xs.take stop).drop start) :=
  if_pos ⟨hstart, hstop⟩

theorem sliceFrom_eq_ok (h : start ≤ xs.length) : sliceFrom xs start = .ok (xs.drop start) := by
  rw [sliceFrom, slice_eq_ok h (Nat.le_refl _), List.take_length]

end

/-- The number that the first bytes stand for, the low-order one first. At most eight make one. -/
def readBytes (bytes : List UInt8) (count : Nat) : Except Trap Nat :=
  if 1 ≤ count ∧ count ≤ 8 ∧ count ≤ bytes.length then
    .ok (Scalar.numberOfBytes (bytes.take count))
  else .error .bytes

theorem readBytes_length {bytes : List UInt8} (hpos : 0 < bytes.length) (hle : bytes.length ≤ 8) :
    readBytes bytes bytes.length = .ok (Scalar.numberOfBytes bytes) := by
  rw [readBytes, if_pos ⟨hpos, hle, Nat.le_refl _⟩, List.take_length]

/-! ## Numbers -/

section

variable {bits : BitVec 64} {places a b : Nat}

/-- The bits moved up by some places. -/
def shiftLeft (bits : BitVec 64) (places : Nat) : Except Trap (BitVec 64) :=
  if places < 64 then .ok (bits <<< places) else .error .shift

/-- The bits moved down by some places. -/
def shiftRight (bits : BitVec 64) (places : Nat) : Except Trap (BitVec 64) :=
  if places < 64 then .ok (bits >>> places) else .error .shift

/-- The bits moved down by some places, with copies of the sign bit behind them. -/
def shiftRightSigned (bits : BitVec 64) (places : Nat) : Except Trap (BitVec 64) :=
  if places < 64 then .ok (bits.sshiftRight places) else .error .shift

/-- The difference of two numbers without sign. -/
def sub (a b : Nat) : Except Trap Nat := if b ≤ a then .ok (a - b) else .error .arithmetic

/-- The sum of two sizes. -/
def addSize (a b : Nat) : Except Trap Nat :=
  if a + b < Bounded.sizeCeiling then .ok (a + b) else .error .arithmetic

/-- A number of 64 bits, one of which is for the sign. -/
def IsSigned (n : Int) : Prop := -0x8000000000000000 ≤ n ∧ n < 0x8000000000000000

instance (n : Int) : Decidable (IsSigned n) := inferInstanceAs (Decidable (_ ∧ _))

/-- The sum of two numbers with sign. -/
def addSigned (a b : Int) : Except Trap Int :=
  if IsSigned (a + b) then .ok (a + b) else .error .arithmetic

theorem shiftLeft_eq_ok (h : places < 64) : shiftLeft bits places = .ok (bits <<< places) :=
  if_pos h

theorem shiftRight_eq_ok (h : places < 64) : shiftRight bits places = .ok (bits >>> places) :=
  if_pos h

theorem shiftRightSigned_eq_ok (h : places < 64) :
    shiftRightSigned bits places = .ok (bits.sshiftRight places) :=
  if_pos h

theorem sub_eq_ok (h : b ≤ a) : sub a b = .ok (a - b) := if_pos h

theorem addSize_eq_ok (h : a + b < Bounded.sizeCeiling) : addSize a b = .ok (a + b) := if_pos h

theorem addSigned_eq_ok {a b : Int} (h : IsSigned (a + b)) : addSigned a b = .ok (a + b) :=
  if_pos h

end

/-! ## Runs -/

/-- Why a computation with operations that trap ends without a result. -/
inductive Halt
  | fault (fault : Fault)
  | trap (trap : Trap)
deriving DecidableEq, Repr

/-- A computation that ends with a result or a fault, unless it traps. -/
abbrev Run (α : Type) := Except Halt α

instance : MonadLift (Except Trap) (Except Halt) := ⟨Except.mapError .trap⟩

section

variable {α β σ : Type}

/-- A computation that does not trap. -/
def total (x : Except Fault α) : Run α := x.mapError .fault

@[simp] theorem liftM_trap_ok (a : α) :
    (liftM (Except.ok a : Except Trap α) : Except Halt α) = .ok a := rfl

@[simp] theorem total_ok (a : α) : total (.ok a) = .ok a := rfl

@[simp] theorem total_error (e : Fault) : total (.error e : Except Fault α) = .error (.fault e) :=
  rfl

/-- What does not trap does not end with a trap. -/
theorem total_ne_trap (x : Except Fault α) (t : Trap) : total x ≠ .error (.trap t) := by
  cases x <;> simp

theorem total_bind (x : Except Fault α) (f : α → Except Fault β) :
    total (x >>= f) = total x >>= fun a => total (f a) := by
  cases x <;> rfl

theorem total_map (f : α → β) (x : Except Fault α) : total (f <$> x) = f <$> total x := by
  cases x <;> rfl

/-- A run over a list does not trap if no step of it does. -/
theorem foldlM_total {f : σ → α → Run σ} {f' : σ → α → Except Fault σ}
    (h : ∀ s x, f s x = total (f' s x)) (xs : List α) (s : σ) :
    xs.foldlM f s = total (xs.foldlM f' s) := by
  induction xs generalizing s with
  | nil => rfl
  | cons x xs ih =>
    rw [List.foldlM_cons, List.foldlM_cons, total_bind, h]
    exact congrArg _ (funext ih)

/-- A run ends like a computation that cannot trap: with the same result or the same fault, so with
neither a trap nor an overflow. -/
def Agrees (run : Run α) (x : Except Stop α) : Prop :=
  ∃ y : Except Fault α, run = total y ∧ x = liftM y

theorem agrees_total (y : Except Fault α) : Agrees (total y) (liftM y) := ⟨y, rfl, rfl⟩

theorem Agrees.bind {run : Run α} {x : Except Stop α} {f : α → Run β}
    {g : α → Except Stop β} (h : Agrees run x) (hf : ∀ a, Agrees (f a) (g a)) :
    Agrees (run >>= f) (x >>= g) := by
  obtain ⟨y, rfl, rfl⟩ := h
  cases y with
  | ok a => exact hf a
  | error e => exact ⟨.error e, rfl, rfl⟩

theorem foldlM_agrees {f : σ → α → Run σ} {g : σ → α → Except Stop σ}
    (h : ∀ s x, Agrees (f s x) (g s x)) (xs : List α) (s : σ) :
    Agrees (xs.foldlM f s) (xs.foldlM g s) := by
  induction xs generalizing s with
  | nil => exact agrees_total (.ok s)
  | cons x xs ih =>
    rw [List.foldlM_cons, List.foldlM_cons]
    exact (h s x).bind ih

end

end ShaderReflect.Checked
