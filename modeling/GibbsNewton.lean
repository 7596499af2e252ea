import GibbsNewton.Choice
import GibbsNewton.Decimal.Binary64
import GibbsNewton.Decimal.Read
import GibbsNewton.Decimal.Rounding
import GibbsNewton.Decimal.Text
import GibbsNewton.Equilibrium.Batch
import GibbsNewton.Equilibrium.Objective
import GibbsNewton.Equilibrium.Options
import GibbsNewton.Equilibrium.Problem
import GibbsNewton.Equilibrium.Record
import GibbsNewton.Equilibrium.Session
import GibbsNewton.Exports
import GibbsNewton.Fields
import GibbsNewton.Formula
import GibbsNewton.Formula.Json
import GibbsNewton.Json.Basic
import GibbsNewton.Json.Printer
import GibbsNewton.Json.Reader
import GibbsNewton.Kkt.Factorization
import GibbsNewton.Kkt.Solver
import GibbsNewton.Kkt.System
import GibbsNewton.Linear.LU
import GibbsNewton.Linear.LeastSquares
import GibbsNewton.Linear.QR
import GibbsNewton.Linear.Vec
import GibbsNewton.Memo
import GibbsNewton.Mixture.Basic
import GibbsNewton.Mixture.Derivative
import GibbsNewton.Mixture.Phase
import GibbsNewton.Optimum.Backend
import GibbsNewton.Optimum.Coefficients
import GibbsNewton.Optimum.Iterate
import GibbsNewton.Optimum.Minimiser
import GibbsNewton.Optimum.Newton
import GibbsNewton.Optimum.Options
import GibbsNewton.Optimum.Problem
import GibbsNewton.Optimum.Run
import GibbsNewton.Optimum.Trace
import GibbsNewton.Scalar
import GibbsNewton.Species.Library
import GibbsNewton.Species.Query
import GibbsNewton.Species.Record
import GibbsNewton.Table
import GibbsNewton.Tensor
import GibbsNewton.Text.Printable
import GibbsNewton.Text.Quoted
import GibbsNewton.Thermo.Fit
import GibbsNewton.Value.Basic
import GibbsNewton.Value.Key
import GibbsNewton.Value.Rounded
import GibbsNewton.Value.Tagged
import GibbsNewton.Value.Text
import GibbsNewton.Proofs.Traversal
import GibbsNewton.Proofs.Table
import GibbsNewton.Proofs.Memo
import GibbsNewton.Proofs.Value.Key
import GibbsNewton.Proofs.Exact
import GibbsNewton.Proofs.Decimal.Order
import GibbsNewton.Proofs.Linear.Real
import GibbsNewton.Proofs.Linear.Elimination
import GibbsNewton.Proofs.Linear.Reflection
import GibbsNewton.Proofs.Linear.Finite
import GibbsNewton.Proofs.Linear.LeastSquares
import GibbsNewton.Proofs.Kkt.Equations
import GibbsNewton.Proofs.Kkt.Splitting
import GibbsNewton.Proofs.Kkt.Factorization
import GibbsNewton.Proofs.Kkt.Calls
import GibbsNewton.Proofs.Kkt.Direction
import GibbsNewton.Proofs.Kkt.Definite
import GibbsNewton.Proofs.Kkt.Coordinates
import GibbsNewton.Proofs.Optimum.Course
import GibbsNewton.Proofs.Optimum.StepLength
import GibbsNewton.Proofs.Optimum.Interior
import GibbsNewton.Proofs.Optimum.Finite
import GibbsNewton.Proofs.Optimum.Ending
import GibbsNewton.Proofs.Optimum.RealRun
import GibbsNewton.Proofs.Optimum.LongestStep
import GibbsNewton.Proofs.Optimum.ConstraintResidual
import GibbsNewton.Proofs.Optimum.Gap
import GibbsNewton.Proofs.Optimum.Solved
import GibbsNewton.Proofs.Optimum.Lockstep
import GibbsNewton.Proofs.Optimum.Feasibility
import GibbsNewton.Proofs.Optimum.QuadraticProgram
import GibbsNewton.Proofs.Optimum.Recovery
import GibbsNewton.Proofs.Optimum.Resumed
import GibbsNewton.Proofs.Optimum.FixedPoint
import GibbsNewton.Proofs.Optimum.SideBySide
import GibbsNewton.Proofs.Optimum.Tilted
import GibbsNewton.Proofs.Optimum.Coordinates
import GibbsNewton.Proofs.Optimum.Reordered
import GibbsNewton.Proofs.Optimum.StrictStart
import GibbsNewton.Proofs.Optimum.Trace
import GibbsNewton.Proofs.Mixture.Partition
import GibbsNewton.Proofs.Mixture.Acceptance
import GibbsNewton.Proofs.Mixture.Evaluable
import GibbsNewton.Proofs.Mixture.Real
import GibbsNewton.Proofs.Mixture.Evaluation
import GibbsNewton.Proofs.Mixture.Convex
import GibbsNewton.Proofs.Mixture.Semidefinite
import GibbsNewton.Proofs.Mixture.Homogeneous
import GibbsNewton.Proofs.Mixture.Differentiable
import GibbsNewton.Proofs.Equilibrium.Objective
import GibbsNewton.Proofs.Equilibrium.Problem
import GibbsNewton.Proofs.Equilibrium.Derivatives
import GibbsNewton.Proofs.Equilibrium.NearOptimal
import GibbsNewton.Proofs.Equilibrium.Session
import GibbsNewton.Proofs.Equilibrium.Breakdown
import GibbsNewton.Proofs.Equilibrium.Feasibility
import GibbsNewton.Proofs.Equilibrium.MassAction
import GibbsNewton.Proofs.Equilibrium.ReferenceState
import GibbsNewton.Proofs.Equilibrium.Scaling
import GibbsNewton.Proofs.Equilibrium.Refusal
import GibbsNewton.Proofs.Equilibrium.Dependence
import GibbsNewton.Proofs.Equilibrium.Batch
import GibbsNewton.Proofs.Species.Coefficients
import GibbsNewton.Proofs.Species.Records
import GibbsNewton.Proofs.Species.Answers
import GibbsNewton.Proofs.Species.Calls
import GibbsNewton.Proofs.Species.Readings
import GibbsNewton.Proofs.Species.Potentials
import GibbsNewton.Proofs.Thermo.Consistent
import GibbsNewton.Proofs.Decimal.Rounding
import GibbsNewton.Proofs.Value.Parts
import GibbsNewton.Proofs.Value.Rounded
