import ShaderReflect.Bounded
import ShaderReflect.IdSet
import ShaderReflect.Table
import ShaderReflect.Binary.Header
import ShaderReflect.Binary.Instruction
import ShaderReflect.Binary.Operands
import ShaderReflect.Declared.Constant
import ShaderReflect.Declared.Role
import ShaderReflect.Declared.Type
import ShaderReflect.Value.Fold
import ShaderReflect.Trace
import ShaderReflect.Declared.Annotations
import ShaderReflect.Declared.Declarations
import ShaderReflect.Declared.TypeOrder
import ShaderReflect.Specialization
import ShaderReflect.Stage.Pairing
import ShaderReflect.Reflection
import ShaderReflect.Handle
import ShaderReflect.Route
import ShaderReflect.Main
import ShaderReflect.Proofs.Outcome
import ShaderReflect.Proofs.Layout.Unfolding
import ShaderReflect.Proofs.Declared.TypeOrder
import ShaderReflect.Proofs.Layout.Concretization
import ShaderReflect.Proofs.Layout.Invariant
import ShaderReflect.Proofs.Layout.Materialization
import ShaderReflect.Proofs.Stage.EntryPoint
import ShaderReflect.Proofs.Stage.Trees
import ShaderReflect.Proofs.Reflection
import ShaderReflect.Proofs.Walk
import ShaderReflect.Proofs.Grounding
import ShaderReflect.Proofs.Stage.Combination
import ShaderReflect.Proofs.Binary.Rewriting
import ShaderReflect.Proofs.Binary.Decoding
import ShaderReflect.Proofs.Declared.Statement
import ShaderReflect.Proofs.Graph
import ShaderReflect.Proofs.Stage.Revision
import ShaderReflect.Proofs.EntryPoints
import ShaderReflect.Proofs.Value.Literal
import ShaderReflect.Proofs.Declared.Defaults
import ShaderReflect.Proofs.Overrides
import ShaderReflect.Proofs.Layout.Names
import ShaderReflect.Proofs.Layout.Freshness
import ShaderReflect.Proofs.Growth
import ShaderReflect.Proofs.UniqueNames
import ShaderReflect.Proofs.Canonical
import ShaderReflect.Proofs.Layout.Erasure
import ShaderReflect.Proofs.Erasure
import ShaderReflect.Proofs.Stage.Combining
import ShaderReflect.Proofs.Closed
import ShaderReflect.Proofs.ArrayLengths
import ShaderReflect.Proofs.Attribution
import ShaderReflect.Proofs.Extent
import ShaderReflect.Proofs.Queries
import ShaderReflect.Proofs.Declared.Outline
import ShaderReflect.Proofs.Interleaving
import ShaderReflect.Proofs.Skipping
import ShaderReflect.Proofs.DistinctIds
import ShaderReflect.Proofs.Mentions
import ShaderReflect.Proofs.Resources
import ShaderReflect.Proofs.Handle
import ShaderReflect.Proofs.CommandLine
import ShaderReflect.Proofs.Declared.Cycles
import ShaderReflect.Proofs.Stage.Reachability
import ShaderReflect.Proofs.Declared.Effect
import ShaderReflect.Proofs.DerivedPointers
import ShaderReflect.Proofs.Checked.Operation
import ShaderReflect.Proofs.Checked.Decoding
import ShaderReflect.Proofs.Checked.Evaluation
import ShaderReflect.Proofs.Checked.Specialization
import ShaderReflect.Proofs.Layout.Size
import ShaderReflect.Proofs.Layout.Stored
import ShaderReflect.Proofs.Checked.Layout
import ShaderReflect.Proofs.Value.Vector
import ShaderReflect.Proofs.Value.Folding
import ShaderReflect.Proofs.Value.Signs
import ShaderReflect.Proofs.Value.Normal
import ShaderReflect.Proofs.Specialization.Acceptance
import ShaderReflect.Proofs.Specialization.Recursion
import ShaderReflect.Proofs.Specialization.Dependence
import ShaderReflect.Proofs.Specialization.Readings
import ShaderReflect.Proofs.Binary.Literal
import ShaderReflect.Proofs.Declared.Members
import ShaderReflect.Proofs.Preorder
import ShaderReflect.Proofs.Paths
import ShaderReflect.Proofs.Containment
import ShaderReflect.Proofs.Binary.Requests
import ShaderReflect.Proofs.Binary.ByteOrder
import ShaderReflect.Proofs.Layout.Stack
import ShaderReflect.Proofs.Layout.Refinement
import ShaderReflect.Proofs.Interface
import ShaderReflect.Proofs.Stage.Pairing
import ShaderReflect.Proofs.Stage.Faults
import ShaderReflect.Proofs.WorkgroupSize
import ShaderReflect.Proofs.Declared.Decorations
import ShaderReflect.Proofs.Stage.AccessRights
