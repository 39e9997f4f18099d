import Cssom.Token.Cursor
import Cssom.Stylesheet.Edit
import Cssom.Stylesheet.InPlace
import Cssom.Main
import Cssom.Proofs.Reading.Progress
import Cssom.Proofs.SyntaxTree.Lossless
import Cssom.Proofs.Reading.Depth
import Cssom.Proofs.Reading.Termination
import Cssom.Proofs.Token.Ends
import Cssom.Proofs.Token.Pieces
import Cssom.Proofs.SyntaxTree.RoundTrip
import Cssom.Proofs.Reading.Outcome
import Cssom.Proofs.Recovery.Nesting
import Cssom.Proofs.Recovery.Slips
import Cssom.Proofs.Recovery.ClosingBrace
import Cssom.Proofs.Recovery.Preludes
import Cssom.Proofs.Token.Prefix
import Cssom.Proofs.Token.Special
import Cssom.Proofs.Token.Apart
import Cssom.Proofs.Token.Case
import Cssom.Proofs.Token.Spelling
import Cssom.Proofs.Token.Legible
import Cssom.Proofs.Printing.Ahead
import Cssom.Proofs.Printing.Steps
import Cssom.Proofs.Token.Shape
import Cssom.Proofs.Printing.Value
import Cssom.Proofs.Printing.Selector
import Cssom.Proofs.SyntaxTree.Unobserved
import Cssom.Proofs.SyntaxTree.Frames
import Cssom.Proofs.SyntaxTree.Shows
import Cssom.Proofs.SyntaxTree.Rules
import Cssom.Proofs.Reading.Cut
import Cssom.Proofs.Reading.CutParts
import Cssom.Proofs.Reading.Completion
import Cssom.Proofs.SyntaxTree.Alone
import Cssom.Proofs.Printing.Parts
import Cssom.Proofs.Printing.Declaration
import Cssom.Proofs.Printing.Media
import Cssom.Proofs.Printing.Lists
import Cssom.Proofs.Printing.Condition
import Cssom.Proofs.Printing.Keyframe
import Cssom.Proofs.Printing.Statement
import Cssom.Proofs.Printing.Group
import Cssom.Proofs.Printing.SingleSpaced
import Cssom.Proofs.Printing.Rule
import Cssom.Proofs.Printing.Stylesheet
import Cssom.Proofs.Token.Recut
import Cssom.Proofs.Reading.Erasure
import Cssom.Proofs.Reading.Likeness
import Cssom.Proofs.Reading.Names
import Cssom.Proofs.Reading.LikeParts
import Cssom.Proofs.Reading.LikeRules
import Cssom.Proofs.Reading.Places
import Cssom.Proofs.Reading.Placeholders
import Cssom.Proofs.SyntaxTree.Attempts
import Cssom.Proofs.Recovery.Kept
import Cssom.Proofs.Recovery.Silence
import Cssom.Proofs.Reading.Trivia
import Cssom.Proofs.Reading.Support
import Cssom.Proofs.Recovery.Balance
import Cssom.Proofs.Recovery.Declarations
import Cssom.Proofs.Recovery.DeclarationLists
import Cssom.Proofs.Printing.KeptTokens
import Cssom.Proofs.Printing.Unplaced
import Cssom.Proofs.Printing.Unknown
import Cssom.Proofs.Printing.Edited
import Cssom.Proofs.Reading.Values
import Cssom.Proofs.Reading.MediaLists
import Cssom.Proofs.Condition.NormalForm
import Cssom.Proofs.Token.Regular
import Cssom.Proofs.Token.Respaced
import Cssom.Proofs.Condition.ReadBack
import Cssom.Proofs.Condition.Chains
import Cssom.Proofs.Printing.Sources
import Cssom.Proofs.Media.ReadBack
import Cssom.Proofs.Value.Nesting
import Cssom.Proofs.Value.Acceptance
import Cssom.Proofs.Value.Lost
import Cssom.Proofs.Value.ReadBack
import Cssom.Proofs.Selector.Acceptance
import Cssom.Proofs.Token.Joined
import Cssom.Proofs.Selector.Printed
import Cssom.Proofs.Selector.ReadBack
import Cssom.Proofs.Token.Adjacent
import Cssom.Proofs.Declaration.ReadBack
import Cssom.Proofs.Rule.ReadBack
import Cssom.Proofs.Recovery.Declared
import Cssom.Proofs.Declaration.Blocks
import Cssom.Proofs.Reading.Silent
import Cssom.Proofs.Recovery.Tolerance
import Cssom.Proofs.Reading.SourceOrder
import Cssom.Proofs.Rule.Captured
import Cssom.Proofs.Printing.StandsFor
import Cssom.Proofs.Rule.UnknownReadBack
import Cssom.Proofs.Rule.AnimationName
import Cssom.Proofs.Token.SmallLetters
import Cssom.Proofs.Source.Line
import Cssom.Proofs.Diagnostic.Caret
import Cssom.Proofs.Stylesheet.InPlace
import Cssom.Proofs.Stylesheet.Atomic
import Cssom.Proofs.Recovery.Boundaries
import Cssom.Proofs.Reading.Lookahead
import Cssom.Proofs.Token.Stretch
