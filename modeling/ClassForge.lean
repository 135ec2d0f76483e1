import ClassForge.Emission.Operation
import ClassForge.Generator.Basic
import ClassForge.Proofs.Inspection.Instruction
import ClassForge.Proofs.Inspection.Boundaries
import ClassForge.Proofs.Inspection.Walk
import ClassForge.Proofs.ClassFile.Reading
import ClassForge.Proofs.Pool.Growth
import ClassForge.Proofs.Text.ModifiedUtf8
import ClassForge.Proofs.Pool.Reading
import ClassForge.Proofs.Pool.Resolution
import ClassForge.Proofs.Pool.Representation
import ClassForge.Proofs.ClassFile.Outline
import ClassForge.Proofs.ClassFile.RoundTrip
import ClassForge.Proofs.ClassFile.Locality
import ClassForge.Proofs.ClassFile.Attributes
import ClassForge.Proofs.ClassFile.Counts
import ClassForge.Proofs.Emission.Action
import ClassForge.Proofs.Emission.Step
import ClassForge.Proofs.Emission.Operations
import ClassForge.Proofs.Emission.Outcome
import ClassForge.Proofs.Emission.Conversion
import ClassForge.Proofs.Body.Patching
import ClassForge.Proofs.Emission.Layout
import ClassForge.Proofs.Emission.Acceptance
import ClassForge.Proofs.Emission.Accounting
import ClassForge.Proofs.Emission.Composition
import ClassForge.Proofs.Emission.Block
import ClassForge.Proofs.Emission.OperationBlocks
import ClassForge.Proofs.Adapter.Members
import ClassForge.Proofs.Adapter.Construction
import ClassForge.Proofs.Adapter.Feasibility
import ClassForge.Proofs.Adapter.Provenance
import ClassForge.Proofs.Machine.Basic
import ClassForge.Proofs.Machine.Linking
import ClassForge.Proofs.Machine.Operations
import ClassForge.Proofs.Machine.Literals
import ClassForge.Proofs.Machine.Contracts
import ClassForge.Proofs.Machine.Conversion
import ClassForge.Proofs.Machine.Arrays
import ClassForge.Proofs.Adapter.Slots
import ClassForge.Proofs.Adapter.Accessors
import ClassForge.Proofs.Adapter.Storing
import ClassForge.Proofs.Adapter.Tracing
import ClassForge.Proofs.Adapter.Execution
import ClassForge.Proofs.Adapter.Composition
import ClassForge.Proofs.Adapter.Shape
import ClassForge.Proofs.Adapter.Fields
import ClassForge.Proofs.Emission.LocalAllocation
import ClassForge.Proofs.Emission.Session
import ClassForge.Proofs.Adapter.Acceptance
import ClassForge.Proofs.Body.Branches
import ClassForge.Proofs.Emission.SourceLines
import ClassForge.Proofs.Inspection.Ranges
import ClassForge.Proofs.Inspection.Safety
import ClassForge.Proofs.Text.Shortest
import ClassForge.Proofs.Emission.Changes
import ClassForge.Proofs.Conversion.Typing
import ClassForge.Proofs.Conversion.StackEffect
import ClassForge.Proofs.Conversion.Casts
import ClassForge.Proofs.Inspection.EntryDepths
import ClassForge.Proofs.ClassFile.Consumption
import ClassForge.Proofs.Pool.DeclaredCount
import ClassForge.Proofs.ClassFile.Layout
import ClassForge.Proofs.ClassFile.DeclaredLengths
import ClassForge.Proofs.Emission.Pieces
import ClassForge.Proofs.Emission.Effects
import ClassForge.Proofs.Emission.Underflow
import ClassForge.Proofs.Inspection.LocalRange
import ClassForge.Proofs.Emission.LocalSlots
import ClassForge.Proofs.Generator.DumpPath
import ClassForge.Proofs.Generator.Names
import ClassForge.Proofs.Inspection.Worklist
