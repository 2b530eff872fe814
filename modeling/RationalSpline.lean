import RationalSpline.Scalar.Floating
import RationalSpline.Failure
import RationalSpline.Checked
import RationalSpline.ControlPoints
import RationalSpline.KnotVector.Basic
import RationalSpline.KnotVector.Uniform
import RationalSpline.KnotVector.Multiplicity
import RationalSpline.KnotVector.Style
import RationalSpline.KnotVector.SpanSearch
import RationalSpline.KnotVector.Basis
import RationalSpline.KnotVector.BasisArray
import RationalSpline.KnotVector.BasisDerivatives
import RationalSpline.KnotVector.DerivativeTable
import RationalSpline.Spline.Insertion
import RationalSpline.Spline.Removal
import RationalSpline.Spline.Elevation
import RationalSpline.Spline.Derivatives
import RationalSpline.Curve.Basic
import RationalSpline.Curve.Validity
import RationalSpline.Curve.Construction
import RationalSpline.Curve.Evaluation
import RationalSpline.GaussLegendre
import RationalSpline.Curve.Length
import RationalSpline.Curve.KnotEditing
import RationalSpline.Curve.Elevation
import RationalSpline.Curve.Weights
import RationalSpline.Curve.Reparameterization
import RationalSpline.Curve.Bezier
import RationalSpline.Curve.Append
import RationalSpline.Curve.Comparison
import RationalSpline.Space.Plane
import RationalSpline.Curve.Frames
import RationalSpline.Interpolation.Parameterization
import RationalSpline.Interpolation.LinearSystem
import RationalSpline.Interpolation.Curve
import RationalSpline.Curve.Polyline
import RationalSpline.Primitive.Ellipse
import RationalSpline.Primitive.Spiral
import RationalSpline.Decimal.Shortest
import RationalSpline.Json.Reader
import RationalSpline.Journal
import RationalSpline.Table.Json
import RationalSpline.Proofs.Exact
import RationalSpline.Proofs.BinomialTable
import RationalSpline.Proofs.PolarForm
import RationalSpline.Proofs.Coordinates
import RationalSpline.Proofs.KnotOrder
import RationalSpline.Proofs.CoxDeBoor
import RationalSpline.Proofs.Sound
import RationalSpline.Proofs.Pieces
import RationalSpline.Proofs.Insertion
import RationalSpline.Proofs.Clamping
import RationalSpline.Proofs.ElevatedForm
import RationalSpline.Proofs.Smoothness
import RationalSpline.Proofs.RaisedSegment
import RationalSpline.Proofs.RaisedShape
import RationalSpline.Proofs.RaisedSpline
import RationalSpline.Proofs.Arranged
import RationalSpline.Proofs.Breaks
import RationalSpline.Proofs.Uniqueness
import RationalSpline.Proofs.ClampedSpline
import RationalSpline.Proofs.Reach
import RationalSpline.Proofs.BentLine
import RationalSpline.Proofs.RaisedCurve
import RationalSpline.Proofs.Elevation
import RationalSpline.Proofs.ControlPolygon
import RationalSpline.Proofs.KnotChanges
import RationalSpline.Proofs.Regularity
import RationalSpline.Proofs.FractionalMap
import RationalSpline.Proofs.Splitting
import RationalSpline.Proofs.RemovedKnots
import RationalSpline.Proofs.Removal
import RationalSpline.Proofs.FullEnds
import RationalSpline.Proofs.RaisedHull
import RationalSpline.Proofs.Placement
import RationalSpline.Proofs.Splicing
import RationalSpline.Proofs.Joining
import RationalSpline.Proofs.Construction
import RationalSpline.Proofs.ClosedSpans
import RationalSpline.Proofs.Evaluation
import RationalSpline.Proofs.Validity
import RationalSpline.Proofs.SplitCurve
import RationalSpline.Proofs.UnitEnds
import RationalSpline.Proofs.SpanExtraction
import RationalSpline.Proofs.Segments
import RationalSpline.Proofs.Reparameterization
import RationalSpline.Proofs.RemovedInsertion
import RationalSpline.Proofs.TableHistory
import RationalSpline.Proofs.Runs
import RationalSpline.Proofs.EditedValidity
import RationalSpline.Proofs.ArrangedEdits
import RationalSpline.Proofs.FailedEdits
import RationalSpline.Proofs.ClampedEnds
import RationalSpline.Proofs.FloatingOrder
import RationalSpline.Proofs.AcceptedInsertions
import RationalSpline.Proofs.EndWeights
import RationalSpline.Proofs.ComposedMaps
import RationalSpline.Proofs.PointArray
import RationalSpline.Proofs.DerivativeTable
import RationalSpline.Proofs.DefinedDerivatives
import RationalSpline.Proofs.PolarDerivative
import RationalSpline.Proofs.Derivatives
import RationalSpline.Proofs.Admission
import RationalSpline.Proofs.LinearSystem
import RationalSpline.Proofs.Interpolation
import RationalSpline.Proofs.Distances
import RationalSpline.Proofs.Parameters
import RationalSpline.Proofs.Seam
import RationalSpline.Proofs.MirroredRemoval
import RationalSpline.Proofs.Direction
import RationalSpline.Proofs.Duplicates
import RationalSpline.Proofs.Rescaling
import RationalSpline.Proofs.LocalRemoval
import RationalSpline.Proofs.Associativity
import RationalSpline.Proofs.Greville
import RationalSpline.Proofs.BasisArray
import RationalSpline.Proofs.BasisFunctions
import RationalSpline.Proofs.GuardedDivision
import RationalSpline.Proofs.Padding
import RationalSpline.Proofs.SpanSearch
import RationalSpline.Proofs.ClosedPolyline
import RationalSpline.Proofs.PolylineLength
import RationalSpline.Proofs.BezierForm
import RationalSpline.Proofs.KnotStyle
import RationalSpline.Proofs.SpaceVectors
import RationalSpline.Proofs.Ellipse
import RationalSpline.Proofs.Frames
