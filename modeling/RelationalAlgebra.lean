import RelationalAlgebra.Cell
import RelationalAlgebra.Cell.Order
import RelationalAlgebra.Cell.Reading
import RelationalAlgebra.CommandLine.Arguments
import RelationalAlgebra.CommandLine.LogFilter
import RelationalAlgebra.CommandLine.Pattern
import RelationalAlgebra.CommandLine.Pattern.Member
import RelationalAlgebra.CommandLine.Pattern.Reading
import RelationalAlgebra.CommandLine.Run
import RelationalAlgebra.Configuration
import RelationalAlgebra.Date
import RelationalAlgebra.Environment
import RelationalAlgebra.Failure
import RelationalAlgebra.Main
import RelationalAlgebra.Name
import RelationalAlgebra.Name.Map
import RelationalAlgebra.Number.Binary64
import RelationalAlgebra.Number.Decimal
import RelationalAlgebra.Number.Whole
import RelationalAlgebra.Predicate.Clause
import RelationalAlgebra.Predicate.Evaluation
import RelationalAlgebra.Predicate.Fault
import RelationalAlgebra.Predicate.Formula
import RelationalAlgebra.Predicate.Formula.Reading
import RelationalAlgebra.Predicate.Lexeme
import RelationalAlgebra.Predicate.Scalar
import RelationalAlgebra.Predicate.Token
import RelationalAlgebra.Program.Script
import RelationalAlgebra.Program.Step
import RelationalAlgebra.Query.Fault
import RelationalAlgebra.Query.Lexer
import RelationalAlgebra.Query.Operator
import RelationalAlgebra.Query.Parameter
import RelationalAlgebra.Query.Plan
import RelationalAlgebra.Query.Schema
import RelationalAlgebra.Query.Token
import RelationalAlgebra.Query.Tree
import RelationalAlgebra.Query.Tree.Reading
import RelationalAlgebra.Relation.Algebra
import RelationalAlgebra.Relation.Basic
import RelationalAlgebra.Relation.Fault
import RelationalAlgebra.Relation.Header
import RelationalAlgebra.Relation.Mutation
import RelationalAlgebra.Relation.Rows
import RelationalAlgebra.Relation.Table
import RelationalAlgebra.Rewrite.Optimizer
import RelationalAlgebra.Rewrite.Rule
import RelationalAlgebra.Rewrite.Schematic
import RelationalAlgebra.Rewrite.Structural
import RelationalAlgebra.Storage.Csv
import RelationalAlgebra.Storage.Directory
import RelationalAlgebra.Storage.Document
import RelationalAlgebra.Storage.FileSystem
import RelationalAlgebra.Storage.Files
import RelationalAlgebra.Storage.Format
import RelationalAlgebra.Storage.Json
import RelationalAlgebra.Storage.Path
import RelationalAlgebra.Storage.Toml.Document
import RelationalAlgebra.Storage.Toml.Literal
import RelationalAlgebra.Storage.Toml.Numeral
import RelationalAlgebra.Storage.Toml.Writing
import RelationalAlgebra.Text.Blank
import RelationalAlgebra.Text.Digit
import RelationalAlgebra.Text.Letter
import RelationalAlgebra.Text.Offset
import RelationalAlgebra.Text.Piece
import RelationalAlgebra.Text.Quoted
import RelationalAlgebra.Workspace
import RelationalAlgebra.Proofs.Cell.Comparison
import RelationalAlgebra.Proofs.Cell.Reading
import RelationalAlgebra.Proofs.Date
import RelationalAlgebra.Proofs.Environment
import RelationalAlgebra.Proofs.Name.Characters
import RelationalAlgebra.Proofs.Name.Entries
import RelationalAlgebra.Proofs.Name.Readers
import RelationalAlgebra.Proofs.Number.Binary64
import RelationalAlgebra.Proofs.Number.Layouts
import RelationalAlgebra.Proofs.Number.Overflow
import RelationalAlgebra.Proofs.Outcome
import RelationalAlgebra.Proofs.Predicate.Arithmetic
import RelationalAlgebra.Proofs.Predicate.Attributes
import RelationalAlgebra.Proofs.Predicate.Clauses
import RelationalAlgebra.Proofs.Predicate.Conjunctions
import RelationalAlgebra.Proofs.Predicate.Failures
import RelationalAlgebra.Proofs.Predicate.Grammar
import RelationalAlgebra.Proofs.Predicate.Numbers
import RelationalAlgebra.Proofs.Predicate.Parentheses
import RelationalAlgebra.Proofs.Predicate.Places
import RelationalAlgebra.Proofs.Predicate.Precedence
import RelationalAlgebra.Proofs.Predicate.Spelling
import RelationalAlgebra.Proofs.Predicate.Splicing
import RelationalAlgebra.Proofs.Predicate.Stretches
import RelationalAlgebra.Proofs.Predicate.Tiling
import RelationalAlgebra.Proofs.Predicate.Truth
import RelationalAlgebra.Proofs.Predicate.Words
import RelationalAlgebra.Proofs.Program.Factoring
import RelationalAlgebra.Proofs.Program.Names
import RelationalAlgebra.Proofs.Program.Ordered
import RelationalAlgebra.Proofs.Program.Printing
import RelationalAlgebra.Proofs.Program.Running
import RelationalAlgebra.Proofs.Program.Scripts
import RelationalAlgebra.Proofs.Query.Brackets
import RelationalAlgebra.Proofs.Query.Continuation
import RelationalAlgebra.Proofs.Query.Grammar
import RelationalAlgebra.Proofs.Query.Locality
import RelationalAlgebra.Proofs.Query.Meaning
import RelationalAlgebra.Proofs.Query.Parameters
import RelationalAlgebra.Proofs.Query.Predicates
import RelationalAlgebra.Proofs.Query.Printing
import RelationalAlgebra.Proofs.Query.Selections
import RelationalAlgebra.Proofs.Query.Separation
import RelationalAlgebra.Proofs.Query.Typing
import RelationalAlgebra.Proofs.Relation.Bounds
import RelationalAlgebra.Proofs.Relation.Cells
import RelationalAlgebra.Proofs.Relation.Changes
import RelationalAlgebra.Proofs.Relation.ColumnOrder
import RelationalAlgebra.Proofs.Relation.Contents
import RelationalAlgebra.Proofs.Relation.Division
import RelationalAlgebra.Proofs.Relation.Extent
import RelationalAlgebra.Proofs.Relation.Fitting
import RelationalAlgebra.Proofs.Relation.JoinLaws
import RelationalAlgebra.Proofs.Relation.Joins
import RelationalAlgebra.Proofs.Relation.Kinds
import RelationalAlgebra.Proofs.Relation.Laws
import RelationalAlgebra.Proofs.Relation.Matching
import RelationalAlgebra.Proofs.Relation.Mutations
import RelationalAlgebra.Proofs.Relation.Operators
import RelationalAlgebra.Proofs.Relation.Order
import RelationalAlgebra.Proofs.Relation.Recoding
import RelationalAlgebra.Proofs.Relation.Rows
import RelationalAlgebra.Proofs.Relation.SetOperators
import RelationalAlgebra.Proofs.Relation.Strict
import RelationalAlgebra.Proofs.Rewrite.Bounds
import RelationalAlgebra.Proofs.Rewrite.EvaluationFailures
import RelationalAlgebra.Proofs.Rewrite.ForeignNames
import RelationalAlgebra.Proofs.Rewrite.Guards
import RelationalAlgebra.Proofs.Rewrite.Invariants
import RelationalAlgebra.Proofs.Rewrite.Locality
import RelationalAlgebra.Proofs.Rewrite.Parameters
import RelationalAlgebra.Proofs.Rewrite.Preservation
import RelationalAlgebra.Proofs.Rewrite.Printing
import RelationalAlgebra.Proofs.Rewrite.Readability
import RelationalAlgebra.Proofs.Rewrite.Refinement
import RelationalAlgebra.Proofs.Rewrite.Replacement
import RelationalAlgebra.Proofs.Rewrite.Rewriting
import RelationalAlgebra.Proofs.Rewrite.Rules
import RelationalAlgebra.Proofs.Rewrite.Runs
import RelationalAlgebra.Proofs.Rewrite.SchemaFaults
import RelationalAlgebra.Proofs.Rewrite.Steps
import RelationalAlgebra.Proofs.Rewrite.Termination
import RelationalAlgebra.Proofs.Rewrite.Typing
import RelationalAlgebra.Proofs.Rewrite.Weight
import RelationalAlgebra.Proofs.Storage.Directory
import RelationalAlgebra.Proofs.Storage.FloatColumns
import RelationalAlgebra.Proofs.Storage.Rereading
import RelationalAlgebra.Proofs.Text.Pieces
import RelationalAlgebra.Proofs.Text.Trimming
import RelationalAlgebra.Proofs.Workspace.Effects
import RelationalAlgebra.Proofs.Workspace.Kinds
import RelationalAlgebra.Proofs.Workspace.Runs
import RelationalAlgebra.Proofs.Workspace.Sharing
import RelationalAlgebra.Proofs.Workspace.Store
