import SwiftOutline.Accessor
import SwiftOutline.Analysis
import SwiftOutline.Attribute
import SwiftOutline.Declaration
import SwiftOutline.Declaration.Inspection
import SwiftOutline.Declaration.Kind
import SwiftOutline.Declaration.Path
import SwiftOutline.Declaration.Placement
import SwiftOutline.Declaration.Reading
import SwiftOutline.Declaration.Variable
import SwiftOutline.Diagnostic
import SwiftOutline.Effects
import SwiftOutline.Event
import SwiftOutline.Expectation
import SwiftOutline.Expectation.Fact
import SwiftOutline.Fault
import SwiftOutline.Generic
import SwiftOutline.Grammar.Accessor
import SwiftOutline.Grammar.Attribute
import SwiftOutline.Grammar.Block
import SwiftOutline.Grammar.Clause
import SwiftOutline.Grammar.Declaration
import SwiftOutline.Grammar.Effect
import SwiftOutline.Grammar.Expression
import SwiftOutline.Grammar.Function
import SwiftOutline.Grammar.Group
import SwiftOutline.Grammar.Member
import SwiftOutline.Grammar.Rule
import SwiftOutline.Grammar.Type
import SwiftOutline.Grammar.Variable
import SwiftOutline.Kind
import SwiftOutline.Lexeme
import SwiftOutline.Lexeme.Lexer
import SwiftOutline.Located
import SwiftOutline.Modifier
import SwiftOutline.Parameter
import SwiftOutline.Parse
import SwiftOutline.Quoted
import SwiftOutline.Report
import SwiftOutline.Report.Snippet
import SwiftOutline.Sketch
import SwiftOutline.Tree
import SwiftOutline.Tree.Query
import SwiftOutline.Tree.Text
import SwiftOutline.TypeShape
import SwiftOutline.Unicode.Alphabetic
import SwiftOutline.Unicode.Blank
import SwiftOutline.Unicode.Identifier
import SwiftOutline.Unicode.Letter
import SwiftOutline.Unicode.Number
import SwiftOutline.Unicode.Range
import SwiftOutline.Unicode.Unprintable
import SwiftOutline.Unicode.Width
import SwiftOutline.Proofs.Building
import SwiftOutline.Proofs.Cursor
import SwiftOutline.Proofs.Look
import SwiftOutline.Proofs.Lossless
import SwiftOutline.Proofs.Content
import SwiftOutline.Proofs.Shape
import SwiftOutline.Proofs.Walk
import SwiftOutline.Proofs.Visit
import SwiftOutline.Proofs.Sites
import SwiftOutline.Proofs.Announced
import SwiftOutline.Proofs.Anchor
import SwiftOutline.Proofs.Moved
import SwiftOutline.Proofs.Insensitive
import SwiftOutline.Proofs.Pruned
import SwiftOutline.Proofs.Reached
import SwiftOutline.Proofs.Firm
import SwiftOutline.Proofs.Solid
import SwiftOutline.Proofs.Ordered
import SwiftOutline.Proofs.Boundary
import SwiftOutline.Proofs.Runaway
import SwiftOutline.Proofs.Local
import SwiftOutline.Proofs.Locality
import SwiftOutline.Proofs.Joint
import SwiftOutline.Proofs.Shifted
import SwiftOutline.Proofs.Appended
import SwiftOutline.Proofs.Parts
import SwiftOutline.Proofs.Regular
import SwiftOutline.Proofs.Slices
import SwiftOutline.Proofs.Tight
import SwiftOutline.Proofs.Every
import SwiftOutline.Proofs.Extent
import SwiftOutline.Proofs.Settable
import SwiftOutline.Proofs.Loops
import SwiftOutline.Proofs.Progress
import SwiftOutline.Proofs.Recording
import SwiftOutline.Proofs.Remembered
import SwiftOutline.Proofs.Seam
import SwiftOutline.Proofs.Phrase
import SwiftOutline.Proofs.Spelling
import SwiftOutline.Proofs.Enclosed
import SwiftOutline.Proofs.Alone
import SwiftOutline.Proofs.Annotation
import SwiftOutline.Proofs.Suffixed
import SwiftOutline.Proofs.Sugar
import SwiftOutline.Proofs.Readback
import SwiftOutline.Proofs.Shown
import SwiftOutline.Proofs.Wrapped
import SwiftOutline.Proofs.Complete
import SwiftOutline.Proofs.Legible
import SwiftOutline.Proofs.Borrowed
import SwiftOutline.Proofs.Labels
import SwiftOutline.Proofs.Thrown
import SwiftOutline.Proofs.GoesOn
import SwiftOutline.Proofs.Normalized
import SwiftOutline.Proofs.Frame
import SwiftOutline.Proofs.Framed
import SwiftOutline.Proofs.Reported
import SwiftOutline.Proofs.Nest
import SwiftOutline.Proofs.Braces
import SwiftOutline.Proofs.AttributeName
import SwiftOutline.Proofs.Retold
import SwiftOutline.Proofs.Retelling
import SwiftOutline.Proofs.Reread
import SwiftOutline.Proofs.Evened
import SwiftOutline.Proofs.TypeText
import SwiftOutline.Proofs.Bounds
import SwiftOutline.Proofs.Condition
import SwiftOutline.Proofs.Call
import SwiftOutline.Proofs.Partition
import SwiftOutline.Proofs.Isolated
import SwiftOutline.Proofs.Commented
import SwiftOutline.Proofs.Escaped
import SwiftOutline.Proofs.Trail
import SwiftOutline.Proofs.Filed
import SwiftOutline.Proofs.FunctionName
import SwiftOutline.Proofs.AccessorName
import SwiftOutline.Proofs.Matching
import SwiftOutline.Proofs.Listing
import SwiftOutline.Proofs.Summary
