import ShaderReflect.Enumerant

/-!
# Execution models and storage classes

The enumerations that say in which stage an entry point runs and in which memory a pointer points
(specification, 3), with the names under which they are reported. A binary that uses another number
for one of them is refused as unsupported.

Two classifications are made here and used from the analysis on: which stages are dispatched in
workgroups, and so may have a workgroup size, and which classes hold resources and which hold the
interface of a stage (specification, 4.4).
-/

namespace ShaderReflect

/-- A stage that an entry point runs in. -/
inductive ExecutionModel
  | vertex | tessellationControl | tessellationEvaluation | geometry | fragment | glCompute
  | kernel | taskNV | meshNV | rayGeneration | intersection | anyHit | closestHit | miss
  | callable | taskEXT | meshEXT
deriving DecidableEq, Repr

instance : Enumerant ExecutionModel where
  all := [
    .vertex, .tessellationControl, .tessellationEvaluation, .geometry, .fragment, .glCompute,
    .kernel, .taskNV, .meshNV, .rayGeneration, .intersection, .anyHit, .closestHit, .miss,
    .callable, .taskEXT, .meshEXT]
  code
    | .vertex => 0 | .tessellationControl => 1 | .tessellationEvaluation => 2 | .geometry => 3
    | .fragment => 4 | .glCompute => 5 | .kernel => 6 | .taskNV => 5267 | .meshNV => 5268
    | .rayGeneration => 5313 | .intersection => 5314 | .anyHit => 5315 | .closestHit => 5316
    | .miss => 5317 | .callable => 5318 | .taskEXT => 5364 | .meshEXT => 5365
  name
    | .vertex => "Vertex" | .tessellationControl => "TessellationControl"
    | .tessellationEvaluation => "TessellationEvaluation" | .geometry => "Geometry"
    | .fragment => "Fragment" | .glCompute => "GLCompute" | .kernel => "Kernel"
    | .taskNV => "TaskNV" | .meshNV => "MeshNV" | .rayGeneration => "RayGeneration"
    | .intersection => "Intersection" | .anyHit => "AnyHit" | .closestHit => "ClosestHit"
    | .miss => "Miss" | .callable => "Callable" | .taskEXT => "TaskEXT" | .meshEXT => "MeshEXT"

/-- Whether the stage is dispatched in workgroups. -/
def ExecutionModel.hasWorkgroups : ExecutionModel → Bool
  | .glCompute | .kernel | .taskNV | .meshNV | .taskEXT | .meshEXT => true
  | _ => false

/-- The kind of memory that a pointer points into. -/
inductive StorageClass
  | uniformConstant | input | uniform | output | workgroup | crossWorkgroup | privateData
  | function | generic | pushConstant | atomicCounter | image | storageBuffer | callableData
  | incomingCallableData | rayPayload | hitAttribute | incomingRayPayload | shaderRecordBuffer
  | physicalStorageBuffer | taskPayloadWorkgroup
deriving DecidableEq, Repr

instance : Enumerant StorageClass where
  all := [
    .uniformConstant, .input, .uniform, .output, .workgroup, .crossWorkgroup, .privateData,
    .function, .generic, .pushConstant, .atomicCounter, .image, .storageBuffer, .callableData,
    .incomingCallableData, .rayPayload, .hitAttribute, .incomingRayPayload, .shaderRecordBuffer,
    .physicalStorageBuffer, .taskPayloadWorkgroup]
  code
    | .uniformConstant => 0 | .input => 1 | .uniform => 2 | .output => 3 | .workgroup => 4
    | .crossWorkgroup => 5 | .privateData => 6 | .function => 7 | .generic => 8
    | .pushConstant => 9 | .atomicCounter => 10 | .image => 11 | .storageBuffer => 12
    | .callableData => 5328 | .incomingCallableData => 5329 | .rayPayload => 5338
    | .hitAttribute => 5339 | .incomingRayPayload => 5342 | .shaderRecordBuffer => 5343
    | .physicalStorageBuffer => 5349 | .taskPayloadWorkgroup => 5402
  name
    | .uniformConstant => "UniformConstant" | .input => "Input" | .uniform => "Uniform"
    | .output => "Output" | .workgroup => "Workgroup" | .crossWorkgroup => "CrossWorkgroup"
    | .privateData => "Private" | .function => "Function" | .generic => "Generic"
    | .pushConstant => "PushConstant" | .atomicCounter => "AtomicCounter" | .image => "Image"
    | .storageBuffer => "StorageBuffer" | .callableData => "CallableData"
    | .incomingCallableData => "IncomingCallableData" | .rayPayload => "RayPayload"
    | .hitAttribute => "HitAttribute" | .incomingRayPayload => "IncomingRayPayload"
    | .shaderRecordBuffer => "ShaderRecordBuffer"
    | .physicalStorageBuffer => "PhysicalStorageBuffer"
    | .taskPayloadWorkgroup => "TaskPayloadWorkgroup"

/-- Whether variables of the class are bound through descriptors or push constants. -/
def StorageClass.isResource : StorageClass → Bool
  | .uniform | .uniformConstant | .storageBuffer | .pushConstant => true
  | _ => false

/-- Whether variables of the class make up the interface of a stage. -/
def StorageClass.isInterface : StorageClass → Bool
  | .input | .output => true
  | _ => false

end ShaderReflect
