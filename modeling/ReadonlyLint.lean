import ReadonlyLint.Main
import ReadonlyLint.Proofs.Effects
import ReadonlyLint.Proofs.Growth
import ReadonlyLint.Proofs.Propagation
import ReadonlyLint.Proofs.Subtree
import ReadonlyLint.Types.Survey
import ReadonlyLint.Proofs.Likeness
import ReadonlyLint.Proofs.VisitMap
import ReadonlyLint.Proofs.ArraySizes
import ReadonlyLint.Proofs.Coverage
import ReadonlyLint.Proofs.Members
import ReadonlyLint.Proofs.Noticed
import ReadonlyLint.Proofs.Parts
import ReadonlyLint.Proofs.Bodies
import ReadonlyLint.Proofs.Comments
import ReadonlyLint.Proofs.CommentsIgnored
import ReadonlyLint.Proofs.Verdicts
import ReadonlyLint.Proofs.Marked
import ReadonlyLint.Proofs.Malformed
import ReadonlyLint.Proofs.Resemblance
import ReadonlyLint.Proofs.Usage
import ReadonlyLint.Proofs.Qualified
import ReadonlyLint.Proofs.RefGetters
import ReadonlyLint.Proofs.Insertions
import ReadonlyLint.Proofs.DeclaredStorage
import ReadonlyLint.Proofs.Suggested
import ReadonlyLint.Proofs.SplitGroups
import ReadonlyLint.Proofs.Chains
import ReadonlyLint.Proofs.Explained
import ReadonlyLint.Proofs.Names
import ReadonlyLint.Proofs.ConstructorStorage
import ReadonlyLint.Proofs.Loops
import ReadonlyLint.Proofs.Representation
import ReadonlyLint.Proofs.Dependencies
import ReadonlyLint.Proofs.FixOffsets
import ReadonlyLint.Proofs.Directories
import ReadonlyLint.Proofs.FixedProjects
import ReadonlyLint.Proofs.WalkedFiles
import ReadonlyLint.Proofs.DryRuns
import ReadonlyLint.Proofs.Cancellation
import ReadonlyLint.Proofs.PointerCopies
import ReadonlyLint.Proofs.InertBodies
import ReadonlyLint.Proofs.Signatures
import ReadonlyLint.Proofs.Additions
import ReadonlyLint.Proofs.EdgeLog
import ReadonlyLint.Proofs.AccessPaths
import ReadonlyLint.Proofs.EvidencePlaces
import ReadonlyLint.Proofs.FixPlaces
import ReadonlyLint.Proofs.VisitedNodes
import ReadonlyLint.Proofs.EvaluatedParts
import ReadonlyLint.Proofs.BackingWrites
import ReadonlyLint.Proofs.Worklist
import ReadonlyLint.Proofs.ScopeHistory
import ReadonlyLint.Proofs.StyledText
