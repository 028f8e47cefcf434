import Meristem.Document.Geometry
import Meristem.Grammar.Document
import Meristem.Instances.Document
import Meristem.Outline.Document
import Meristem.Proofs.Accounting
import Meristem.Proofs.Addition
import Meristem.Proofs.Balance
import Meristem.Proofs.Brackets
import Meristem.Proofs.Color
import Meristem.Proofs.Config
import Meristem.Proofs.Drafts
import Meristem.Proofs.Drawing.Continuity
import Meristem.Proofs.Drawing.Depth
import Meristem.Proofs.Drawing.Descent
import Meristem.Proofs.Drawing.Edits
import Meristem.Proofs.Drawing.Pruning
import Meristem.Proofs.Drawing.Undrawn
import Meristem.Proofs.Drawing.Unmatched
import Meristem.Proofs.Drawing.Visibility
import Meristem.Proofs.Drawing.Wobble
import Meristem.Proofs.Draws
import Meristem.Proofs.Exact.Choice
import Meristem.Proofs.Exact.Drawing
import Meristem.Proofs.Exact.Frame
import Meristem.Proofs.Exact.Rotation
import Meristem.Proofs.Exact.Segments
import Meristem.Proofs.Exact.ShortestArc
import Meristem.Proofs.Exact.Taper
import Meristem.Proofs.Exact.Turning
import Meristem.Proofs.Exact.Upright
import Meristem.Proofs.Grammar.Composition
import Meristem.Proofs.Grammar.Counts
import Meristem.Proofs.Grammar.Endomorphism
import Meristem.Proofs.Grammar.Generations
import Meristem.Proofs.Grammar.Size
import Meristem.Proofs.Grammar.Unruled
import Meristem.Proofs.NumberArray
import Meristem.Proofs.Outline
import Meristem.Proofs.Rounded.Approx
import Meristem.Proofs.Rounded.Choice
import Meristem.Proofs.Rounded.Compensated
import Meristem.Proofs.Rounded.Direction
import Meristem.Proofs.Rounded.Double
import Meristem.Proofs.Rounded.Drawing
import Meristem.Proofs.Rounded.Frame
import Meristem.Proofs.Rounded.Grid
import Meristem.Proofs.Rounded.Libm
import Meristem.Proofs.Rounded.Nearest
import Meristem.Proofs.Rounded.Operations
import Meristem.Proofs.Rounded.Rotation
import Meristem.Proofs.Rounded.Shares
import Meristem.Proofs.Rounded.Sum
import Meristem.Proofs.Rounded.Turtle
import Meristem.Proofs.Rules.Checking
import Meristem.Proofs.Rules.Failures
import Meristem.Proofs.Rules.Reading
import Meristem.Proofs.Rules.Table
import Meristem.Proofs.Scene
import Meristem.Proofs.Shares
import Meristem.Proofs.Viewing
import Meristem.Random.Document
import Meristem.Scene.Log
import Meristem.Species
import Meristem.Turtle.Document
