import Lookml.Text.Span
import Lookml.Text.Blank
import Lookml.Text.Word
import Lookml.Text.Visible
import Lookml.Text.Quoted
import Lookml.Number.Basic
import Lookml.Number.Numeral
import Lookml.Number.Shortest
import Lookml.Token.Basic
import Lookml.Token.Cursor
import Lookml.Fault
import Lookml.Lexeme
import Lookml.Diagnosis
import Lookml.Table
import Lookml.Event.Basic
import Lookml.Event.Stream
import Lookml.Event.Journal
import Lookml.Event.Reader
import Lookml.Tree.Basic
import Lookml.Tree.Emission
import Lookml.Tree.Assembly
import Lookml.Layout
import Lookml.Writer
import Lookml.Draft
import Lookml.Schema.Basic
import Lookml.Schema.Error
import Lookml.Schema.Declaration
import Lookml.Schema.Blueprint
import Lookml.Schema.Document
import Lookml.Conformance.Violation
import Lookml.Conformance.Checker
import Lookml.Pipeline
import Lookml.Node.Field
import Lookml.Node.Registry
import Lookml.Node.Tree
import Lookml.Node.Assembly
import Lookml.Node.Outline
import Lookml.Project.Basic
import Lookml.Project.Parts
import Lookml.Project.Schema
import Lookml.Project.Tree
import Lookml.Project.Read
import Lookml.Proofs.Number.Decimal
import Lookml.Proofs.Number.ReadBack
import Lookml.Proofs.Event.Balanced
import Lookml.Proofs.Event.Forest
import Lookml.Proofs.Table
import Lookml.Proofs.Conformance.Ground
import Lookml.Proofs.Schema.Built
import Lookml.Proofs.Conformance.Judging
import Lookml.Proofs.Conformance.Marking
import Lookml.Proofs.Conformance.Pruning
import Lookml.Proofs.Lexeme.Next
import Lookml.Proofs.Lexeme.Spelling
import Lookml.Proofs.Event.Spelled
import Lookml.Proofs.Reader.Sound
import Lookml.Proofs.Conformance.Watching
import Lookml.Proofs.Pipeline
import Lookml.Proofs.Grammar.Completeness
import Lookml.Proofs.Grammar.Soundness
import Lookml.Proofs.Event.ReadBack
import Lookml.Proofs.Writer.Items
import Lookml.Proofs.Writer.RoundTrip
import Lookml.Proofs.Tree.Pointwise
import Lookml.Proofs.Tree.Respelled
import Lookml.Proofs.Tree.Rebuild
import Lookml.Proofs.Tree.RoundTrip
import Lookml.Proofs.Conformance.Items
import Lookml.Proofs.Conformance.Keys
import Lookml.Proofs.Conformance.Conforming
import Lookml.Proofs.Tree.Assembled
import Lookml.Proofs.Schema.Loaded
import Lookml.Proofs.Conformance.Duplicates
import Lookml.Proofs.Tree.Forest
import Lookml.Proofs.Tree.Retold
import Lookml.Proofs.Tree.Reworded
import Lookml.Proofs.Conformance.CodeBlocks
import Lookml.Proofs.Schema.Redeclared
import Lookml.Proofs.Schema.Written
import Lookml.Proofs.Schema.Reloaded
import Lookml.Proofs.Schema.Called
import Lookml.Proofs.Schema.Guaranteed
import Lookml.Proofs.Schema.Reachable
import Lookml.Proofs.Tree.Heads
import Lookml.Proofs.Tree.Kept
import Lookml.Proofs.Tree.Suited
import Lookml.Proofs.Node.Made
import Lookml.Proofs.Reader.Bounded
import Lookml.Proofs.Project.Bundled
import Lookml.Proofs.Project.Assembled
import Lookml.Proofs.Project.Projected
import Lookml.Proofs.Project.Lossless
import Lookml.Proofs.Project.Read
import Lookml.Proofs.Token.Lossless
import Lookml.Proofs.Checked.Lexer
import Lookml.Proofs.Checked.Parser
import Lookml.Proofs.Reader.Comments
import Lookml.Proofs.Reader.Concatenated
import Lookml.Proofs.Reader.Immaterial
import Lookml.Proofs.Number.Reread
import Lookml.Proofs.Lexeme.Quoting
import Lookml.Proofs.Token.Numerals
import Lookml.Proofs.Reader.Stopped
import Lookml.Proofs.Reader.Completed
import Lookml.Proofs.Checked.Located
import Lookml.Proofs.Tree.Printed
import Lookml.Proofs.Tree.Bared
import Lookml.Proofs.Event.Replayed
import Lookml.Proofs.Event.Misplaced
import Lookml.Proofs.Journaled
import Lookml.Proofs.Schema.Faithful
import Lookml.Proofs.Tree.Uncommented
import Lookml.Proofs.Schema.Explored
import Lookml.Proofs.Conformance.Descending
import Lookml.Proofs.Node.Opened
import Lookml.Proofs.Conformance.Literals
import Lookml.Proofs.Writer.Calls
import Lookml.Proofs.Writer.Misused
import Lookml.Proofs.Writer.Named
