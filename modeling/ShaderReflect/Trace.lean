import ShaderReflect.Fault
import ShaderReflect.Value.Scalar

/-!
# Traced computations

A `Traced` computation notes events on its way, and ends with a result or a stop. What was noted
before a stop stays noted. The specification (8) has the library log summaries of its stages, and
warnings about what it skipped: overrides for absent constants, images with several samplers, and
variables of a resource class that no descriptor can bind. `Event` lists what is logged, with a
`Severity` and a wording for each.

Events have no influence: no function looks at what has been noted, and the results of traced
computations are those of the same computations without events. So statements about results use
`result`, and the simp lemmas below take a computation to it step by step.

* `result_bind`, `result_pure`, `result_note`, `result_ofExcept`: the result of each step.
-/

namespace ShaderReflect

/-- How much an event matters. -/
inductive Severity
  | debug
  | info
  | warning
deriving DecidableEq, Repr

/-- Something worth noting about a computation. -/
inductive Event
  | graphBuilt (types constants globals functions : Nat)
  | overrideIgnored (specId : Word)
  | operationNotFolded (opcode : Opcode) (args : List Scalar)
  | constantsEvaluated (evaluated constants overridden : Nat)
  | entryPointReaches (name : String) (functions resources : Nat)
  | imageUncombined (image : Ident) (samplers : Nat)
  | imagesCombined (images samplers : Nat)
  | resourceIgnored (resource type : Ident)
  | entryPointAssembled (name : String) (descriptors pushConstants inputs outputs : Nat)
  | reflected (entryPoints : Nat)
  | reflectionDestroyed
deriving DecidableEq, Repr

namespace Event

/-- How much an event matters: something that was left out is worth a warning. -/
def severity : Event → Severity
  | .overrideIgnored _ | .imageUncombined _ _ | .resourceIgnored _ _ => .warning
  | .reflected _ => .info
  | _ => .debug

/-- The fields of a scalar by name. -/
def scalarFields : Scalar → String
  | .bool b => "Bool(" ++ (Scalar.bool b).text ++ ")"
  | .int width signed bits =>
    "Int \x7b nbit: " ++ toString width ++ ", is_signed: " ++ (Scalar.bool signed).text
      ++ ", bits: " ++ toString bits.toNat ++ " \x7d"
  | .float width bits =>
    "Float \x7b nbit: " ++ toString width ++ ", bits: " ++ toString bits.toNat ++ " \x7d"

/-- The wording of an event. -/
def message : Event → String
  | .graphBuilt t c v f =>
    s!"built module graph: {t} types, {c} constants, {v} variables, {f} functions"
  | .overrideIgnored s => s!"ignored specialization {s} absent from the module"
  | .operationNotFolded op args =>
    s!"cannot fold spec constant op {op} on [" ++ ", ".intercalate (args.map scalarFields) ++ "]"
  | .constantsEvaluated e c o => s!"evaluated {e} of {c} constants, {o} overridden"
  | .entryPointReaches name f r =>
    s!"entry point {name} reaches {f} functions and {r} resources"
  | .imageUncombined i n => s!"image {i} is sampled with {n} samplers; left uncombined"
  | .imagesCombined i s => s!"combined {i} images, removed {s} samplers"
  | .resourceIgnored v t =>
    s!"resource variable {v} of type {t} is not a descriptor; ignored"
  | .entryPointAssembled name d p i o =>
    s!"assembled entry point {name}: {d} descriptors, {p} push constants, {i} inputs, "
      ++ s!"{o} outputs"
  | .reflected n => s!"reflected {n} entry points"
  | .reflectionDestroyed => "destroyed reflection"

end Event

/-- A computation that notes events and ends with a result or a stop. -/
structure Traced (α : Type) where
  events : List Event
  result : Except Stop α

namespace Traced

variable {α β : Type}

/-- Run a computation after another one that has ended with a result. -/
def bind (x : Traced α) (f : α → Traced β) : Traced β :=
  match x.result with
  | .ok a => ⟨x.events ++ (f a).events, (f a).result⟩
  | .error e => ⟨x.events, .error e⟩

instance : Monad Traced where
  pure a := ⟨[], .ok a⟩
  bind := bind

/-- Note an event. -/
def note (e : Event) : Traced Unit := ⟨[e], .ok ()⟩

/-- A computation without events. -/
def ofExcept (x : Except Stop α) : Traced α := ⟨[], x⟩

instance : MonadLift (Except Stop) Traced := ⟨ofExcept⟩
instance : MonadLift (Except Fault) Traced := ⟨fun x => ofExcept (x.mapError Stop.fault)⟩

@[simp] theorem result_pure (a : α) : (pure a : Traced α).result = .ok a := rfl

@[simp] theorem result_note (e : Event) : (note e).result = .ok () := rfl

@[simp] theorem result_ofExcept (x : Except Stop α) : (ofExcept x).result = x := rfl

@[simp] theorem result_bind (x : Traced α) (f : α → Traced β) :
    (x >>= f).result = x.result >>= fun a => (f a).result := by
  show (bind x f).result = _
  unfold bind
  cases x.result <;> rfl

end Traced

end ShaderReflect
