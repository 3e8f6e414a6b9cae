import StructuralTypes.Alias.Validate
import StructuralTypes.Call
import StructuralTypes.Checker.Explain
import StructuralTypes.Name
import StructuralTypes.Narrowing
import StructuralTypes.Proofs.Ty.Children
import StructuralTypes.Proofs.Ty.Equality
import StructuralTypes.Proofs.Compatibility.Justified
import StructuralTypes.Proofs.Compatibility.Run
import StructuralTypes.Proofs.Compatibility.Derivation
import StructuralTypes.Proofs.Compatibility.Coinduction
import StructuralTypes.Proofs.Ty.WellFormed
import StructuralTypes.Proofs.Ty.Equivalence
import StructuralTypes.Proofs.NormalForm.Types
import StructuralTypes.Proofs.NormalForm.Aliases
import StructuralTypes.Proofs.NormalForm.Inference
import StructuralTypes.Proofs.NormalForm.Engine
import StructuralTypes.Proofs.Freshness.Types
import StructuralTypes.Proofs.Freshness.Compatibility
import StructuralTypes.Proofs.Merge
import StructuralTypes.Proofs.ObjectLiteral.Checks
import StructuralTypes.Proofs.ObjectLiteral.Thorough
import StructuralTypes.Proofs.Ty.Congruence
import StructuralTypes.Proofs.Reordering.Aliases
import StructuralTypes.Proofs.Compatibility.Established
import StructuralTypes.Proofs.Reordering.Merge
import StructuralTypes.Proofs.Reordering.Compatibility
import StructuralTypes.Proofs.Compatibility.Literal
import StructuralTypes.Proofs.Inference.Observations
import StructuralTypes.Proofs.Narrowing.Values
import StructuralTypes.Proofs.Compatibility.Constituents
import StructuralTypes.Proofs.Checker.Reuse
import StructuralTypes.Proofs.Compatibility.Alternatives
import StructuralTypes.Proofs.Inference.Patterns
import StructuralTypes.Proofs.Call.Instances
import StructuralTypes.Proofs.NormalForm.Unions
import StructuralTypes.Proofs.Narrowing.Members
import StructuralTypes.Proofs.Narrowing.Names
import StructuralTypes.Proofs.Alias.Validation
import StructuralTypes.Proofs.Ty.Names
import StructuralTypes.Proofs.Ty.Regrouping
import StructuralTypes.Proofs.Ty.Composition
import StructuralTypes.Proofs.Compatibility.Intersections
import StructuralTypes.Proofs.Keyof.Steps
import StructuralTypes.Proofs.Alias.Extension
import StructuralTypes.Proofs.Compatibility.Scope
import StructuralTypes.Proofs.ObjectLiteral.Unions
import StructuralTypes.Proofs.Keyof.Concrete
import StructuralTypes.Proofs.Narrowing.Refinement
import StructuralTypes.Proofs.Checker.Explanation
import StructuralTypes.Proofs.Checker.Steps
import StructuralTypes.Proofs.Compatibility.Immediate
import StructuralTypes.Proofs.Narrowing.Partition
import StructuralTypes.Proofs.Narrowing.Repetition
import StructuralTypes.Proofs.Merge.Meet
import StructuralTypes.Proofs.Keyof.Merged
import StructuralTypes.Proofs.Alias.Resolution
import StructuralTypes.Proofs.Call.Explicit
import StructuralTypes.Proofs.Inference.Order
import StructuralTypes.Proofs.Ty.Substitution
import StructuralTypes.Proofs.Compatibility.Depth
import StructuralTypes.Proofs.Ty.Splicing
import StructuralTypes.Proofs.Alias.Nesting
import StructuralTypes.Proofs.Compatibility.Finite
import StructuralTypes.Proofs.Compatibility.Functions
import StructuralTypes.Proofs.Compatibility.Records
import StructuralTypes.Proofs.Freshness.Widening
import StructuralTypes.Proofs.ObjectLiteral.Excess
import StructuralTypes.Proofs.Widening.Literals
import StructuralTypes.Proofs.Render.Reading
import StructuralTypes.Proofs.Message
import StructuralTypes.Proofs.Walk.History
import StructuralTypes.Proofs.Keyof.Descent
import StructuralTypes.Proofs.Inference.Expansion
import StructuralTypes.Proofs.Ty.Occurrences
import StructuralTypes.Proofs.Alias.References
import StructuralTypes.Proofs.Mismatch
