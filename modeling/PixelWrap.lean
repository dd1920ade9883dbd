import PixelWrap.Text.Basic
import PixelWrap.Text.Quoted
import PixelWrap.Text.Comment
import PixelWrap.Macro.Body
import PixelWrap.Macro.Table
import PixelWrap.Macro.Arguments
import PixelWrap.Macro.Expansion
import PixelWrap.Number.Digits
import PixelWrap.Condition.Expr
import PixelWrap.Condition.Token
import PixelWrap.Condition.Parser
import PixelWrap.Condition.Defined
import PixelWrap.Source.Location
import PixelWrap.Source.Item
import PixelWrap.Notice
import PixelWrap.Directive.Group
import PixelWrap.Directive.Basic
import PixelWrap.Preprocessed.Basic
import PixelWrap.Preprocessed.Error
import PixelWrap.Preprocessed.Run
import PixelWrap.Number.Binary
import PixelWrap.Token.Basic
import PixelWrap.Token.Lexer
import PixelWrap.Decl.Basic
import PixelWrap.Decl.Parser
import PixelWrap.Decl.Grammar
import PixelWrap.Shader.Model
import PixelWrap.Shader.Basic
import PixelWrap.Generate
import PixelWrap.File.Path
import PixelWrap.File.Tree
import PixelWrap.File.Output
import PixelWrap.Command.Arguments
import PixelWrap.Command.Run
import PixelWrap.Main
import PixelWrap.Proofs.Offsets
import PixelWrap.Proofs.Replacement
import PixelWrap.Proofs.Pieces
import PixelWrap.Proofs.Visits
import PixelWrap.Proofs.SourceMap
import PixelWrap.Proofs.Nesting
import PixelWrap.Proofs.Branches
import PixelWrap.Proofs.Outline
import PixelWrap.Proofs.Expressions
import PixelWrap.Proofs.Joins
import PixelWrap.Proofs.Inclusion
import PixelWrap.Proofs.Readers
import PixelWrap.Proofs.Lexemes
import PixelWrap.Proofs.Standalone
import PixelWrap.Proofs.Slices
import PixelWrap.Proofs.Rereading
import PixelWrap.Proofs.Plain
import PixelWrap.Proofs.Passages
import PixelWrap.Proofs.Idempotence
import PixelWrap.Proofs.Truncation
import PixelWrap.Proofs.Partition
import PixelWrap.Proofs.Parameters
import PixelWrap.Proofs.SourceOrder
import PixelWrap.Proofs.Rescan
import PixelWrap.Proofs.Printing
import PixelWrap.Proofs.Tiling
import PixelWrap.Proofs.Comments
import PixelWrap.Proofs.Words
import PixelWrap.Proofs.FunctionNames
import PixelWrap.Proofs.Machine
import PixelWrap.Proofs.Matching
import PixelWrap.Proofs.Bodies
import PixelWrap.Proofs.Written
import PixelWrap.Proofs.Blanking
import PixelWrap.Proofs.ShortCircuit
import PixelWrap.Proofs.Excerpts
import PixelWrap.Proofs.Numerals
import PixelWrap.Proofs.DefinedOperator
import PixelWrap.Proofs.Aliases
import PixelWrap.Proofs.OuterWords
import PixelWrap.Proofs.Identity
import PixelWrap.Proofs.Acyclic
import PixelWrap.Proofs.Substitution
import PixelWrap.Proofs.Quoting
import PixelWrap.Proofs.Semantics
import PixelWrap.Proofs.Occurrences
import PixelWrap.Proofs.Profiles
import PixelWrap.Proofs.ArgumentLists
import PixelWrap.Proofs.Mentions
import PixelWrap.Proofs.Intervals
import PixelWrap.Proofs.Overwriting
import PixelWrap.Proofs.ErrorPlaces
import PixelWrap.Proofs.Pasting
import PixelWrap.Proofs.Literals
