import MiniPascal.Analysis
import MiniPascal.Category
import MiniPascal.Command
import MiniPascal.DataType
import MiniPascal.Diagnostic
import MiniPascal.Dictionary.Basic
import MiniPascal.Dictionary.Builtin
import MiniPascal.Dictionary.Json
import MiniPascal.File
import MiniPascal.Goal.Basic
import MiniPascal.Goal.Lemmas
import MiniPascal.Goal.Reaction
import MiniPascal.Identifier
import MiniPascal.Json.Fault
import MiniPascal.Json.Misfit
import MiniPascal.Json.Text
import MiniPascal.Lexeme
import MiniPascal.Lexeme.Tokenize
import MiniPascal.Main
import MiniPascal.Proofs.Analysis.Append
import MiniPascal.Proofs.Analysis.Cut
import MiniPascal.Proofs.Analysis.Refuses
import MiniPascal.Proofs.Analysis.Step
import MiniPascal.Proofs.Analysis.Stop
import MiniPascal.Proofs.Analysis.Takes
import MiniPascal.Proofs.Analysis.Turns
import MiniPascal.Proofs.Analysis.Words
import MiniPascal.Proofs.Blocks.Mirror
import MiniPascal.Proofs.Blocks.Outline
import MiniPascal.Proofs.Blocks.Outlined
import MiniPascal.Proofs.Blocks.Stages
import MiniPascal.Proofs.Branches.Brackets
import MiniPascal.Proofs.Branches.Matching
import MiniPascal.Proofs.Comments.Backward
import MiniPascal.Proofs.Comments.Blame
import MiniPascal.Proofs.Comments.Deletion
import MiniPascal.Proofs.Comments.Stray
import MiniPascal.Proofs.Descent.Agreement
import MiniPascal.Proofs.Dictionary.Accepting
import MiniPascal.Proofs.Dictionary.Entries
import MiniPascal.Proofs.Dictionary.Loading
import MiniPascal.Proofs.Dictionary.Reading
import MiniPascal.Proofs.Dictionary.Truncated
import MiniPascal.Proofs.Flat.Accepts
import MiniPascal.Proofs.Flat.Derivation
import MiniPascal.Proofs.Flat.Operators
import MiniPascal.Proofs.Flat.Parts
import MiniPascal.Proofs.Flat.Tree
import MiniPascal.Proofs.Flat.Unambiguous
import MiniPascal.Proofs.Grammar.Acceptance
import MiniPascal.Proofs.Grammar.Leads
import MiniPascal.Proofs.Grammar.Nesting
import MiniPascal.Proofs.Grammar.Operators
import MiniPascal.Proofs.Grammar.Scoping
import MiniPascal.Proofs.Grammar.Tree
import MiniPascal.Proofs.Json.Strings
import MiniPascal.Proofs.Json.Unfinished
import MiniPascal.Proofs.Json.Written
import MiniPascal.Proofs.Literals
import MiniPascal.Proofs.Operands.Names
import MiniPascal.Proofs.Operands.Phrases
import MiniPascal.Proofs.Operands.Reading
import MiniPascal.Proofs.Output.Listing
import MiniPascal.Proofs.Output.Numbers
import MiniPascal.Proofs.Output.Rendering
import MiniPascal.Proofs.Reading.Agreement
import MiniPascal.Proofs.Reading.Blocks
import MiniPascal.Proofs.Reading.Phases
import MiniPascal.Proofs.Renaming.Keywords
import MiniPascal.Proofs.Renaming.Reports
import MiniPascal.Proofs.Renaming.Tables
import MiniPascal.Proofs.Scope.Arrangement
import MiniPascal.Proofs.Scope.Frames
import MiniPascal.Proofs.Scope.Growth
import MiniPascal.Proofs.Scope.History
import MiniPascal.Proofs.Scope.Resolution
import MiniPascal.Proofs.Scope.Restoring
import MiniPascal.Proofs.Text.Canonical
import MiniPascal.Proofs.Text.Endings
import MiniPascal.Proofs.Text.Lines
import MiniPascal.Proofs.Text.Pieces
import MiniPascal.Proofs.Text.Places
import MiniPascal.Proofs.Text.Printing
import MiniPascal.Proofs.Text.Scan
import MiniPascal.Scope.Basic
import MiniPascal.Scope.Lemmas
import MiniPascal.Text.Blank
import MiniPascal.Text.Normal
import MiniPascal.Text.Padding
