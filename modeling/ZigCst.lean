import ZigCst.Chain
import ZigCst.CommandLine
import ZigCst.Diagnostic.Basic
import ZigCst.Diagnostic.Render
import ZigCst.Fault
import ZigCst.Folder
import ZigCst.KindSet
import ZigCst.Language
import ZigCst.Lexeme
import ZigCst.Literal.Decode
import ZigCst.Literal.Hex
import ZigCst.Literal.Multiline
import ZigCst.Literal.Quoted
import ZigCst.Main
import ZigCst.Parse
import ZigCst.Parser
import ZigCst.Scan
import ZigCst.Text.Basic
import ZigCst.Text.Blank
import ZigCst.Text.Lines
import ZigCst.Text.Printable
import ZigCst.Text.Quoted
import ZigCst.Text.Table
import ZigCst.Text.Utf8
import ZigCst.Token
import ZigCst.Trace.Basic
import ZigCst.Trace.Event
import ZigCst.Tree.Arena
import ZigCst.Tree.Basic
import ZigCst.Tree.Builder
import ZigCst.Tree.Node
import ZigCst.Tree.Printer
import ZigCst.Tree.Search
import ZigCst.Tree.Select
import ZigCst.Tree.Walk
import ZigCst.Vocabulary
import ZigCst.Workspace
import ZigCst.Zig.Escape
import ZigCst.Zig.Grammar.Basic
import ZigCst.Zig.Grammar.Branch
import ZigCst.Zig.Grammar.Clause
import ZigCst.Zig.Grammar.Declaration
import ZigCst.Zig.Grammar.Expression
import ZigCst.Zig.Grammar.Function
import ZigCst.Zig.Grammar.Statement
import ZigCst.Zig.Grammar.Type
import ZigCst.Zig.Kind
import ZigCst.Zig.Lexer
import ZigCst.Zig.Parse
import ZigCst.Zig.View
import ZigCst.Zon.Grammar
import ZigCst.Zon.Kind
import ZigCst.Zon.Lexer
import ZigCst.Zon.Parse
import ZigCst.Zon.View
import ZigCst.Proofs.Scaffold
import ZigCst.Proofs.Assembly
import ZigCst.Proofs.Storage
import ZigCst.Proofs.Growth
import ZigCst.Proofs.Replay
import ZigCst.Proofs.Refinement
import ZigCst.Proofs.Stream
import ZigCst.Proofs.Parsing
import ZigCst.Proofs.Soundness
import ZigCst.Proofs.ZigGrammar
import ZigCst.Proofs.ZonGrammar
import ZigCst.Proofs.Lossless
import ZigCst.Proofs.Exact
import ZigCst.Proofs.ZonRules
import ZigCst.Proofs.ZonTruncation
import ZigCst.Proofs.ZonLanguage
import ZigCst.Proofs.Escapes
import ZigCst.Proofs.Bare
import ZigCst.Proofs.Quoting
import ZigCst.Proofs.Trivia
import ZigCst.Proofs.ZonData
import ZigCst.Proofs.Diagnostics
import ZigCst.Proofs.Lockstep
import ZigCst.Proofs.Seam
import ZigCst.Proofs.ZigSteady
import ZigCst.Proofs.Rounds
import ZigCst.Proofs.Joining
import ZigCst.Proofs.Declarations
import ZigCst.Proofs.Braces
import ZigCst.Proofs.Statements
import ZigCst.Proofs.Bodies
import ZigCst.Proofs.SharedLexemes
import ZigCst.Proofs.Spans
import ZigCst.Proofs.Translation
import ZigCst.Proofs.Sublanguage
import ZigCst.Proofs.Marked
import ZigCst.Proofs.Pattern
import ZigCst.Proofs.ZigForms
import ZigCst.Proofs.ZonForms
import ZigCst.Proofs.Outline
import ZigCst.Proofs.ErrorNodes
import ZigCst.Proofs.Brackets
import ZigCst.Proofs.ZonShape
import ZigCst.Proofs.Precedence
import ZigCst.Proofs.InPlace
import ZigCst.Proofs.Operands
import ZigCst.Proofs.Duplicates
import ZigCst.Proofs.Congruence
import ZigCst.Proofs.ZigCongruence
import ZigCst.Proofs.Nesting
import ZigCst.Proofs.Guarded
import ZigCst.Proofs.Following
import ZigCst.Proofs.Announced
import ZigCst.Proofs.Names
import ZigCst.Proofs.Links
import ZigCst.Proofs.Handles
import ZigCst.Proofs.Search
import ZigCst.Proofs.Written
import ZigCst.Proofs.ZonNesting
import ZigCst.Proofs.Restarts
import ZigCst.Proofs.LineLocal
import ZigCst.Proofs.Spelling
import ZigCst.Proofs.Refusal
import ZigCst.Proofs.Navigation
import ZigCst.Proofs.Grouping
import ZigCst.Proofs.Layered
import ZigCst.Proofs.Delimited
import ZigCst.Proofs.MarkedLines
import ZigCst.Proofs.Slots
import ZigCst.Proofs.Excerpts
import ZigCst.Proofs.Characters
import ZigCst.Proofs.Returned
import ZigCst.Proofs.KindSets
import ZigCst.Proofs.Script
import ZigCst.Proofs.Machine
import ZigCst.Proofs.CallOrder
import ZigCst.Proofs.Framing
import ZigCst.Proofs.Agreement
import ZigCst.Proofs.Recorded
import ZigCst.Proofs.Bounded
import ZigCst.Proofs.ZonScript
import ZigCst.Proofs.ZigScript
import ZigCst.Proofs.ZigCalls
import ZigCst.Proofs.CallBounds
