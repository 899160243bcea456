import SolSyntax.Parsing
import SolSyntax.Terminal
import SolSyntax.Proofs.Outline
import SolSyntax.Proofs.Storage
import SolSyntax.Proofs.Lookahead
import SolSyntax.Proofs.Brackets
import SolSyntax.Proofs.Derivation
import SolSyntax.Proofs.Forward
import SolSyntax.Proofs.Growth
import SolSyntax.Proofs.Lockstep
import SolSyntax.Proofs.Steps
import SolSyntax.Proofs.Lists
import SolSyntax.Proofs.Questions
import SolSyntax.Proofs.Patterns
import SolSyntax.Proofs.Params
import SolSyntax.Proofs.Operands
import SolSyntax.Proofs.Exprs
import SolSyntax.Proofs.Decls
import SolSyntax.Proofs.Leaves
import SolSyntax.Proofs.Lexemes
import SolSyntax.Proofs.Modules
import SolSyntax.Proofs.Tokens
import SolSyntax.Proofs.FirstError
import SolSyntax.Proofs.Matching
import SolSyntax.Proofs.ClauseLines
import SolSyntax.Proofs.BinderLists
import SolSyntax.Proofs.Recovery
import SolSyntax.Proofs.Relocation
import SolSyntax.Proofs.Edges
import SolSyntax.Proofs.SideBySide
import SolSyntax.Proofs.Isolation
import SolSyntax.Proofs.Independence
import SolSyntax.Proofs.TrailingBreak
import SolSyntax.Proofs.Inversion
import SolSyntax.Proofs.Slots
import SolSyntax.Proofs.Ownership
import SolSyntax.Proofs.Making
import SolSyntax.Proofs.Construction
import SolSyntax.Proofs.Forest
import SolSyntax.Proofs.Pieces
import SolSyntax.Proofs.Tiling
import SolSyntax.Proofs.LiteralText
import SolSyntax.Proofs.Respelling
import SolSyntax.Proofs.IntegerWords
import SolSyntax.Proofs.Positions
import SolSyntax.Proofs.Extents
import SolSyntax.Proofs.Taking
import SolSyntax.Proofs.WrittenExprs
import SolSyntax.Proofs.WrittenDecls
import SolSyntax.Proofs.Spans
import SolSyntax.Proofs.ErrorPlaces
import SolSyntax.Proofs.Entering
import SolSyntax.Proofs.Steering
import SolSyntax.Proofs.Fork
import SolSyntax.Proofs.ForkBlocks
import SolSyntax.Proofs.ForkDecls
import SolSyntax.Proofs.ForkModules
import SolSyntax.Proofs.Insertion
import SolSyntax.Proofs.Expectations
import SolSyntax.Proofs.ParamSets
import SolSyntax.Proofs.Renaming
import SolSyntax.Proofs.LexedNames
import SolSyntax.Proofs.NameBlind
import SolSyntax.Proofs.LineEndings
import SolSyntax.Proofs.Recasting
import SolSyntax.Proofs.Rooting
import SolSyntax.Proofs.Impartial
import SolSyntax.Proofs.ValuesAsTypes
import SolSyntax.Proofs.Statements
import SolSyntax.Proofs.Interning
import SolSyntax.Proofs.Misses
import SolSyntax.Proofs.Rounding
import SolSyntax.Proofs.ShortestDigits
import SolSyntax.Proofs.UnicodeEscapes
import SolSyntax.Proofs.FloatWords
import SolSyntax.Proofs.FloatTokens
import SolSyntax.Proofs.Resumption
import SolSyntax.Proofs.Snippets
import SolSyntax.Proofs.LexFailures
