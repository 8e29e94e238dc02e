import Tokenizer.ByteReader
import Tokenizer.Category
import Tokenizer.CharClass
import Tokenizer.Command
import Tokenizer.Diagnostic
import Tokenizer.Diagnostic.Collect
import Tokenizer.Diagnostic.Report
import Tokenizer.Dump
import Tokenizer.FileTree
import Tokenizer.Highlight
import Tokenizer.Highlight.Listing
import Tokenizer.Language
import Tokenizer.Language.Registry
import Tokenizer.Line
import Tokenizer.Log
import Tokenizer.Log.Directive
import Tokenizer.Log.Filter
import Tokenizer.Main
import Tokenizer.Mode
import Tokenizer.Mode.Stack
import Tokenizer.Path
import Tokenizer.Pattern
import Tokenizer.Pattern.Code
import Tokenizer.Pattern.Comment
import Tokenizer.Pattern.Literal
import Tokenizer.Pattern.Number
import Tokenizer.Proofs.AsciiReading
import Tokenizer.Proofs.BackslashEdit
import Tokenizer.Proofs.ByteReading
import Tokenizer.Proofs.Checked
import Tokenizer.Proofs.ClosingEdit
import Tokenizer.Proofs.ClosingText
import Tokenizer.Proofs.Colouring
import Tokenizer.Proofs.CommentEnd
import Tokenizer.Proofs.CommentUnit
import Tokenizer.Proofs.Composition
import Tokenizer.Proofs.Cursor
import Tokenizer.Proofs.CursorOperation
import Tokenizer.Proofs.Diagnosis
import Tokenizer.Proofs.DumpReading
import Tokenizer.Proofs.Encoding
import Tokenizer.Proofs.Fault
import Tokenizer.Proofs.Filler
import Tokenizer.Proofs.Grammar
import Tokenizer.Proofs.Hole
import Tokenizer.Proofs.Isolation
import Tokenizer.Proofs.Layout
import Tokenizer.Proofs.LineRestart
import Tokenizer.Proofs.ListingReading
import Tokenizer.Proofs.Lookahead
import Tokenizer.Proofs.Matching
import Tokenizer.Proofs.Nesting
import Tokenizer.Proofs.Number
import Tokenizer.Proofs.NumberOrder
import Tokenizer.Proofs.Partition
import Tokenizer.Proofs.Patch
import Tokenizer.Proofs.Pointing
import Tokenizer.Proofs.QuoteEdit
import Tokenizer.Proofs.QuotedText
import Tokenizer.Proofs.ReaderOperation
import Tokenizer.Proofs.Reading
import Tokenizer.Proofs.Region
import Tokenizer.Proofs.Registration
import Tokenizer.Proofs.Relocation
import Tokenizer.Proofs.Renaming
import Tokenizer.Proofs.Restart
import Tokenizer.Proofs.Run
import Tokenizer.Proofs.Safety
import Tokenizer.Proofs.Seam
import Tokenizer.Proofs.Splice
import Tokenizer.Proofs.Stretch
import Tokenizer.Proofs.StringBody
import Tokenizer.Proofs.StringOpening
import Tokenizer.Proofs.Uniform
import Tokenizer.Proofs.Word
import Tokenizer.Rule
import Tokenizer.Rule.Listing
import Tokenizer.Rule.Table
import Tokenizer.Scan
import Tokenizer.Span
import Tokenizer.Stream
import Tokenizer.Text.Blank
import Tokenizer.Text.Combining
import Tokenizer.Text.Position
import Tokenizer.Text.Printable
import Tokenizer.Text.Quoted
import Tokenizer.Text.Width
import Tokenizer.Token
import Tokenizer.Vocabulary
