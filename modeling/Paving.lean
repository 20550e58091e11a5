import Paving.Binary64.Directed
import Paving.Binary64.Order
import Paving.Decimal.Fixed
import Paving.Decimal.Reading
import Paving.Decimal.Shortest
import Paving.Interval.Backward
import Paving.Interval.Inclusion
import Paving.Box.InPlace
import Paving.Box.Inclusion
import Paving.Display
import Paving.Expr.Projection
import Paving.Constraint
import Paving.Search.Run
import Paving.Search.Log
import Paving.Search.Solver
import Paving.Demo
import Paving.CommandLine.Session
import Paving.Main
import Paving.Proofs.Binary64.Value
import Paving.Proofs.Interval.Points
import Paving.Proofs.Box.Points
import Paving.Proofs.Constraint
import Paving.Proofs.Search.Coverage
import Paving.Proofs.Search.Termination
import Paving.Proofs.Search.Tree
import Paving.Proofs.Binary64.Nearest
import Paving.Proofs.Binary64.Neighbours
import Paving.Proofs.Binary64.Rounded
import Paving.Proofs.Binary64.TwoSum
import Paving.Proofs.Binary64.Bounds
import Paving.Proofs.Binary64.Roundings
import Paving.Proofs.Binary64.Endpoints
import Paving.Proofs.Interval.Enclosure
import Paving.Proofs.Expr.Enclosure
import Paving.Proofs.Search.Roots
import Paving.Proofs.Binary64.Magnitudes
import Paving.Proofs.Expr.Magnitudes
import Paving.Proofs.Expr.Shape
import Paving.Proofs.Box.Measure
import Paving.Proofs.Search.Candidates
import Paving.Proofs.Binary64.Halfway
import Paving.Proofs.Binary64.Tightness
import Paving.Proofs.Interval.Bisection
import Paving.Proofs.Search.Failures
import Paving.Proofs.Search.Accounting
import Paving.Proofs.Search.Limits
import Paving.Proofs.Search.Mirror
import Paving.Proofs.Search.Capacity
import Paving.Proofs.Box.Tiling
import Paving.Proofs.Search.Truncation
import Paving.Proofs.Search.Tiling
import Paving.Proofs.Search.Refinement
import Paving.Proofs.Search.Filtering
import Paving.Proofs.Search.Observation
import Paving.Proofs.Search.Discarding
import Paving.Proofs.Binary64.Outward
import Paving.Proofs.Interval.Emptiness
import Paving.Proofs.Interval.History
import Paving.Proofs.Binary64.LostErrors
import Paving.Proofs.Binary64.Isotony
import Paving.Proofs.Interval.Sums
import Paving.Proofs.Interval.Isotony
import Paving.Proofs.Interval.Products
import Paving.Proofs.Interval.Exactness
import Paving.Proofs.Expr.Isotony
import Paving.Proofs.Box.Components
import Paving.Proofs.Box.InPlace
import Paving.Proofs.Box.History
import Paving.Proofs.Box.Halves
import Paving.Proofs.Box.Diameters
import Paving.Proofs.Interval.Lattice
import Paving.Proofs.Box.Lattice
import Paving.Proofs.Binary64.Reflection
import Paving.Proofs.Interval.Reflection
import Paving.Proofs.Interval.Setters
import Paving.Proofs.Binary64.Closest
import Paving.Proofs.Binary64.Successors
import Paving.Proofs.Decimal.Numerals
import Paving.Proofs.Decimal.Written
import Paving.Proofs.Display
