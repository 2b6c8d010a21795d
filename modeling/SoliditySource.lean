import SoliditySource.Position
import SoliditySource.Rune
import SoliditySource.Source.Utf8
import SoliditySource.Source.Buffer
import SoliditySource.Source.Feed
import SoliditySource.Error
import SoliditySource.Event
import SoliditySource.Fragment.Basic
import SoliditySource.Fragment.Reader
import SoliditySource.Token.Kind
import SoliditySource.Token.Spelling
import SoliditySource.Token.SizedType
import SoliditySource.Token.Basic
import SoliditySource.Token.Literal
import SoliditySource.Token.Reader
import SoliditySource.Tree.Name
import SoliditySource.Tree.Directive
import SoliditySource.Tree.TypeName
import SoliditySource.Tree.Expression
import SoliditySource.Tree.Function
import SoliditySource.Tree.Contract
import SoliditySource.Rule.Basic
import SoliditySource.Rule.Run
import SoliditySource.Grammar.Name
import SoliditySource.Grammar.Directive
import SoliditySource.Grammar.TypeName
import SoliditySource.Grammar.Expression
import SoliditySource.Grammar.Function
import SoliditySource.Grammar.Contract
import SoliditySource.Production
import SoliditySource.Session
import SoliditySource.Proofs.Source.Signal
import SoliditySource.Proofs.Source.WellFormed
import SoliditySource.Proofs.Source.Failures
import SoliditySource.Proofs.Source.Buffering
import SoliditySource.Proofs.Source.Text
import SoliditySource.Proofs.Fragment.Literal
import SoliditySource.Proofs.Fragment.Runes
import SoliditySource.Proofs.Token.Runes
import SoliditySource.Proofs.Token.Scan
import SoliditySource.Proofs.Rule.Follow
import SoliditySource.Proofs.Phrase.Basic
import SoliditySource.Proofs.Phrase.Predictive
import SoliditySource.Proofs.Phrase.Recognize
import SoliditySource.Proofs.Phrase.Lists
import SoliditySource.Proofs.Grammar.Phrases
import SoliditySource.Proofs.Grammar.Expression
import SoliditySource.Proofs.Grammar.Directive
import SoliditySource.Proofs.Grammar.Function
import SoliditySource.Proofs.Grammar.Contract
import SoliditySource.Proofs.Grammar.Construct
import SoliditySource.Proofs.Grammar.Sentences
import SoliditySource.Proofs.Parse.Acceptance
import SoliditySource.Proofs.Parse.Locality
import SoliditySource.Proofs.Token.Behind
import SoliditySource.Proofs.Reparse.Relocation
import SoliditySource.Proofs.Reparse.Moves
import SoliditySource.Proofs.Reparse.Slice
import SoliditySource.Proofs.Reparse.Tokens
import SoliditySource.Proofs.Reparse.Nodes
import SoliditySource.Proofs.Reparse.Segments
import SoliditySource.Proofs.Parse.Reparse
import SoliditySource.Proofs.Token.Lossless
import SoliditySource.Proofs.Token.Relayout
import SoliditySource.Proofs.Outline.Basic
import SoliditySource.Proofs.Outline.Trees
import SoliditySource.Proofs.Rule.Gathers
import SoliditySource.Proofs.Grammar.Stores
import SoliditySource.Proofs.Parse.Contents
import SoliditySource.Proofs.Outline.Spans
import SoliditySource.Proofs.Outline.Exact
import SoliditySource.Proofs.Parse.Spans
import SoliditySource.Proofs.Rule.Limit
import SoliditySource.Proofs.Grammar.Limits
import SoliditySource.Proofs.Session.Peeking
import SoliditySource.Proofs.Source.Breaking
import SoliditySource.Proofs.Session.Failures
import SoliditySource.Proofs.Rule.Mirrors
import SoliditySource.Proofs.Grammar.Mirrors
import SoliditySource.Proofs.Parse.Faces
import SoliditySource.Proofs.Token.Seam
import SoliditySource.Proofs.Parse.Concatenation
import SoliditySource.Proofs.Fragment.Account
import SoliditySource.Proofs.Session.Account
import SoliditySource.Proofs.Token.Quoting
import SoliditySource.Proofs.Rule.Leaves
import SoliditySource.Proofs.Grammar.Leaves
import SoliditySource.Proofs.Parse.Remaining
import SoliditySource.Proofs.Grammar.Quiet
import SoliditySource.Proofs.Parse.Story
import SoliditySource.Proofs.Fragment.Forms
import SoliditySource.Proofs.Fragment.Partition
import SoliditySource.Proofs.Token.Operators
import SoliditySource.Proofs.Token.Hex
import SoliditySource.Proofs.Token.Mistakes
import SoliditySource.Proofs.Fragment.Decoding
import SoliditySource.Proofs.Token.Sizes
import SoliditySource.Proofs.Session.Tokens
import SoliditySource.Proofs.Token.Formed
import SoliditySource.Proofs.Token.Words
import SoliditySource.Proofs.Parse.Positions
import SoliditySource.Proofs.Token.Refusals
import SoliditySource.Proofs.Rule.Refusals
import SoliditySource.Proofs.Grammar.Refusals
import SoliditySource.Proofs.Session.Refusals
import SoliditySource.Proofs.Token.Progress
import SoliditySource.Proofs.Parse.Progress
import SoliditySource.Proofs.Token.HexLiteral
