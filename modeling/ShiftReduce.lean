import ShiftReduce.Action
import ShiftReduce.Ascending
import ShiftReduce.Automaton.Basic
import ShiftReduce.Automaton.Build
import ShiftReduce.Automaton.Report
import ShiftReduce.Bits.Mask
import ShiftReduce.Bits.Matrix
import ShiftReduce.Closure
import ShiftReduce.Conflict.Basic
import ShiftReduce.Conflict.Report
import ShiftReduce.Error
import ShiftReduce.Generator.Basic
import ShiftReduce.Generator.Report
import ShiftReduce.Grammar.Basic
import ShiftReduce.Grammar.Declarations
import ShiftReduce.Grammar.Report
import ShiftReduce.Item
import ShiftReduce.Lexer.Basic
import ShiftReduce.Lexer.Machine
import ShiftReduce.Lexer.Report
import ShiftReduce.Lexer.Scanner
import ShiftReduce.Log
import ShiftReduce.Numbered
import ShiftReduce.Parser.Basic
import ShiftReduce.Parser.Report
import ShiftReduce.Parser.Tables
import ShiftReduce.Proofs.Automaton.Collection
import ShiftReduce.Proofs.Automaton.Groups
import ShiftReduce.Proofs.Automaton.Reachable
import ShiftReduce.Proofs.Automaton.Search
import ShiftReduce.Proofs.Bits.Lookups
import ShiftReduce.Proofs.Bits.Membership
import ShiftReduce.Proofs.Bits.Padding
import ShiftReduce.Proofs.Bits.Reachability
import ShiftReduce.Proofs.Closure.Least
import ShiftReduce.Proofs.Closure.Tables
import ShiftReduce.Proofs.Conflict.Agreement
import ShiftReduce.Proofs.Conflict.Cells
import ShiftReduce.Proofs.Conflict.Demands
import ShiftReduce.Proofs.Conflict.Faults
import ShiftReduce.Proofs.Conflict.Locality
import ShiftReduce.Proofs.Conflict.Meaning
import ShiftReduce.Proofs.Conflict.Rows
import ShiftReduce.Proofs.Folds
import ShiftReduce.Proofs.Generator.Values
import ShiftReduce.Proofs.Grammar.Consistency
import ShiftReduce.Proofs.Grammar.Derivation
import ShiftReduce.Proofs.Grammar.Faithful
import ShiftReduce.Proofs.Grammar.Lookups
import ShiftReduce.Proofs.Grammar.Numbering
import ShiftReduce.Proofs.Grammar.Statements
import ShiftReduce.Proofs.Grammar.WellFormed
import ShiftReduce.Proofs.Items
import ShiftReduce.Proofs.Lexer.Assembled
import ShiftReduce.Proofs.Lexer.Munch
import ShiftReduce.Proofs.Lexer.Partition
import ShiftReduce.Proofs.Lexer.Patterns
import ShiftReduce.Proofs.Lexer.Runs
import ShiftReduce.Proofs.Lexer.Tables
import ShiftReduce.Proofs.Operators.Climb
import ShiftReduce.Proofs.Operators.Declared
import ShiftReduce.Proofs.Operators.Precedence
import ShiftReduce.Proofs.Operators.Simulate
import ShiftReduce.Proofs.Operators.States
import ShiftReduce.Proofs.Parser.Acceptance
import ShiftReduce.Proofs.Parser.Addresses
import ShiftReduce.Proofs.Parser.Balance
import ShiftReduce.Proofs.Parser.Bounded
import ShiftReduce.Proofs.Parser.Completeness
import ShiftReduce.Proofs.Parser.Moves
import ShiftReduce.Proofs.Parser.Runs
import ShiftReduce.Proofs.Parser.Safety
import ShiftReduce.Proofs.Parser.Serves
import ShiftReduce.Proofs.Parser.Session
import ShiftReduce.Proofs.Parser.Stack
import ShiftReduce.Proofs.Parser.Trees
import ShiftReduce.Proofs.Parser.ValidPrefix
import ShiftReduce.Proofs.Regex.Closed
import ShiftReduce.Proofs.Regex.Combined
import ShiftReduce.Proofs.Regex.Determinized
import ShiftReduce.Proofs.Regex.Events
import ShiftReduce.Proofs.Regex.Joined
import ShiftReduce.Proofs.Regex.Language
import ShiftReduce.Proofs.Regex.Reached
import ShiftReduce.Proofs.Regex.Reads
import ShiftReduce.Proofs.Regex.Supported
import ShiftReduce.Proofs.Regex.Thompson
import ShiftReduce.Proofs.Substitution
import ShiftReduce.Proofs.Tables.Codes
import ShiftReduce.Proofs.Tables.Columns
import ShiftReduce.Proofs.Tables.Lookup
import ShiftReduce.Proofs.Tables.Lossless
import ShiftReduce.Proofs.Tables.Sharing
import ShiftReduce.Regex.Classes
import ShiftReduce.Regex.Compiler
import ShiftReduce.Regex.Expr
import ShiftReduce.Regex.Flaw
import ShiftReduce.Regex.Nfa
import ShiftReduce.Regex.OfPattern
import ShiftReduce.Regex.Pattern.Basic
import ShiftReduce.Regex.Pattern.Brackets
import ShiftReduce.Regex.Pattern.Escape
import ShiftReduce.Regex.Pattern.Group
import ShiftReduce.Regex.Pattern.Parse
import ShiftReduce.Regex.Pattern.Reader
import ShiftReduce.Regex.Ranges
import ShiftReduce.Regex.Subsets
import ShiftReduce.SliceTable
import ShiftReduce.Tables.Basic
import ShiftReduce.Tables.Report
import ShiftReduce.Template
import ShiftReduce.Text.Annotated
import ShiftReduce.Text.Blank
import ShiftReduce.Text.Folding
import ShiftReduce.Text.Position
import ShiftReduce.Text.Printed
import ShiftReduce.Text.Properties
import ShiftReduce.Text.Quoted
import ShiftReduce.Text.Table
import ShiftReduce.Word
