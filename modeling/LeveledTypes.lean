import LeveledTypes.CommandLine.Run
import LeveledTypes.Main
import LeveledTypes.Proofs.Archive.Damage
import LeveledTypes.Proofs.Conversion.Acyclic
import LeveledTypes.Proofs.Conversion.Cancellation
import LeveledTypes.Proofs.Conversion.Covariance
import LeveledTypes.Proofs.Conversion.Deferral
import LeveledTypes.Proofs.Conversion.Growth
import LeveledTypes.Proofs.Conversion.NormalForms
import LeveledTypes.Proofs.Descent
import LeveledTypes.Proofs.Elaboration.Declaration
import LeveledTypes.Proofs.Elaboration.Expression
import LeveledTypes.Proofs.Elaboration.Instance
import LeveledTypes.Proofs.Elaboration.Motives
import LeveledTypes.Proofs.Elaboration.Settling
import LeveledTypes.Proofs.Elaboration.Universes
import LeveledTypes.Proofs.Level.Completeness
import LeveledTypes.Proofs.Level.Minimality
import LeveledTypes.Proofs.Level.Reordering
import LeveledTypes.Proofs.Level.Substitution
import LeveledTypes.Proofs.Prelude.Computation
import LeveledTypes.Proofs.Reduction.Arguments
import LeveledTypes.Proofs.Reduction.Dependencies
import LeveledTypes.Proofs.Reduction.LetValues
import LeveledTypes.Proofs.Reduction.SplitBelow
import LeveledTypes.Proofs.Reduction.Transparency
import LeveledTypes.Proofs.Resolution.Imports
import LeveledTypes.Proofs.Scoping.Declaration
import LeveledTypes.Proofs.Search.Irrelevance
import LeveledTypes.Proofs.Session.Modularity
import LeveledTypes.Proofs.Session.Propagation
import LeveledTypes.Proofs.Session.Reuse
import LeveledTypes.Proofs.Session.Transparency
import LeveledTypes.Proofs.Term.Filling
