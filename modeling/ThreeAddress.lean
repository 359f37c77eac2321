import ThreeAddress.Main
import ThreeAddress.Proofs.Acceptance
import ThreeAddress.Proofs.Trees
import ThreeAddress.Proofs.Walk
import ThreeAddress.Proofs.Meaning
import ThreeAddress.Proofs.Effect
import ThreeAddress.Proofs.ProgramMeaning
import ThreeAddress.Proofs.Precedence
import ThreeAddress.Proofs.EquationMeaning
import ThreeAddress.Proofs.Spacing
import ThreeAddress.Proofs.FrontEnds
import ThreeAddress.Proofs.Locality
import ThreeAddress.Proofs.Prefixes
import ThreeAddress.Proofs.Rows
import ThreeAddress.Proofs.CanonicalTrees
import ThreeAddress.Proofs.Temporaries
import ThreeAddress.Proofs.Sessions
import ThreeAddress.Proofs.Lowerable
import ThreeAddress.Proofs.Pieces
import ThreeAddress.Proofs.Layout
import ThreeAddress.Proofs.Reprinting
import ThreeAddress.Proofs.Concatenation
import ThreeAddress.Proofs.Cursor
import ThreeAddress.Proofs.Destinations
import ThreeAddress.Proofs.Assignments
import ThreeAddress.Proofs.Scrolling
import ThreeAddress.Proofs.CommentSearch
import ThreeAddress.Proofs.Route
import ThreeAddress.Proofs.Postorder
import ThreeAddress.Proofs.SingleUse
import ThreeAddress.Proofs.Cleaning
import ThreeAddress.Proofs.Partition
import ThreeAddress.Proofs.Conservation
import ThreeAddress.Proofs.Outline
import ThreeAddress.Proofs.Height
import ThreeAddress.Proofs.Lexemes
import ThreeAddress.Proofs.LevelOrder
import ThreeAddress.Proofs.Segments
import ThreeAddress.Proofs.Depth
