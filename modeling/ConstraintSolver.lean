import ConstraintSolver.Main
import ConstraintSolver.Proofs.Exactness
import ConstraintSolver.Proofs.Imposing
import ConstraintSolver.Proofs.Histories
import ConstraintSolver.Proofs.Sanity
import ConstraintSolver.Proofs.Restoring
import ConstraintSolver.Proofs.Vigilance
import ConstraintSolver.Proofs.Enumeration
import ConstraintSolver.Proofs.Completable
import ConstraintSolver.Proofs.Listing
import ConstraintSolver.Proofs.Refinement
import ConstraintSolver.Proofs.Prefixes
import ConstraintSolver.Proofs.Leaving
import ConstraintSolver.Proofs.Positioning
import ConstraintSolver.Proofs.Strength
import ConstraintSolver.Proofs.Negation
import ConstraintSolver.Proofs.Soundness
import ConstraintSolver.Proofs.Strand
import ConstraintSolver.Proofs.Agreement
import ConstraintSolver.Proofs.Supports
import ConstraintSolver.Proofs.Checking
import ConstraintSolver.Proofs.Locality
import ConstraintSolver.Proofs.Lexicographic
import ConstraintSolver.Proofs.Accounting
import ConstraintSolver.Proofs.Working
import ConstraintSolver.Proofs.Budgets
import ConstraintSolver.Proofs.Safety
import ConstraintSolver.Proofs.Guards
import ConstraintSolver.Proofs.Finality
import ConstraintSolver.Proofs.Merging
import ConstraintSolver.Proofs.Queueing
import ConstraintSolver.Proofs.Segments
import ConstraintSolver.Proofs.Preferences
import ConstraintSolver.Proofs.Requests
import ConstraintSolver.Proofs.Naming
import ConstraintSolver.Proofs.Catalogue
import ConstraintSolver.Proofs.Recursion
