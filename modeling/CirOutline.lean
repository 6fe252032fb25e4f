import CirOutline.CommandLine.Run
import CirOutline.Main
import CirOutline.Proofs.CommentTransparency
import CirOutline.Proofs.Compilation
import CirOutline.Proofs.Emission.BlockScope
import CirOutline.Proofs.Emission.KnownTypes
import CirOutline.Proofs.Emission.LoopCounters
import CirOutline.Proofs.Emission.MacroReach
import CirOutline.Proofs.Emission.ModeExclusion
import CirOutline.Proofs.Emission.ModeTracking
import CirOutline.Proofs.Emission.Printing
import CirOutline.Proofs.Emission.RunTimeWrites
import CirOutline.Proofs.Emission.TypeOrder
import CirOutline.Proofs.Expression.Arguments
import CirOutline.Proofs.Expression.Spacing
import CirOutline.Proofs.Layout.Offside
import CirOutline.Proofs.Layout.Progress
import CirOutline.Proofs.Layout.RoundTrip
import CirOutline.Proofs.Layout.WellFormed
import CirOutline.Proofs.LayoutInsensitivity
import CirOutline.Proofs.Token.Partition
import CirOutline.Proofs.Token.Placement
import CirOutline.Proofs.Token.NameTokens
import CirOutline.Proofs.Emission.Prototypes
import CirOutline.Proofs.Emission.MethodCode
import CirOutline.Proofs.CommandLine.FileEffects
import CirOutline.Proofs.SourceQuotation
import CirOutline.Proofs.Layout.Locality
import CirOutline.Proofs.Layout.FailedReading
import CirOutline.Proofs.CommandLine.Settings
import CirOutline.Proofs.Emission.DocComments
import CirOutline.Proofs.Layout.CallArguments
import CirOutline.Proofs.QuotedLine
import CirOutline.Proofs.Token.LineLocality
import CirOutline.Proofs.CommandLine.SourceKept
import CirOutline.Proofs.Layout.KeywordCase
