import OnePass.Position
import OnePass.Text.Ranges
import OnePass.Text.Alphabetic
import OnePass.Text.Combining
import OnePass.Text.Unprintable
import OnePass.Text.Quoted
import OnePass.Text.Lines
import OnePass.Text.EditDistance
import OnePass.Token
import OnePass.Grammar.Basic
import OnePass.Grammar.Sets
import OnePass.Grammar.Table
import OnePass.Grammar.Language
import OnePass.Input
import OnePass.Diagnostic
import OnePass.Lexer
import OnePass.Register
import OnePass.Symbols
import OnePass.Assembly.Instruction
import OnePass.Assembly.Line
import OnePass.Assembly.Target
import OnePass.Assembly.SourceMap
import OnePass.Emitter
import OnePass.Workspace
import OnePass.Trace
import OnePass.Session.Basic
import OnePass.Session.Actions
import OnePass.Session.Moves
import OnePass.Compile
import OnePass.Proofs.LanguageTable
import OnePass.Proofs.Tree
import OnePass.Proofs.Translation
import OnePass.Proofs.Lexing
import OnePass.Proofs.Derivation
import OnePass.Proofs.Analysis
import OnePass.Proofs.TableConstruction
import OnePass.Proofs.Parsing
import OnePass.Proofs.Snapshot
import OnePass.Proofs.ExpressionRun
import OnePass.Proofs.StatementRun
import OnePass.Proofs.Coherence
import OnePass.Proofs.Acquisition
import OnePass.Proofs.Refinement
import OnePass.Proofs.MoveRefinement
import OnePass.Proofs.Pushdown
import OnePass.Proofs.Prediction
import OnePass.Proofs.Emission
import OnePass.Proofs.Compilation
import OnePass.Proofs.Reached
import OnePass.Proofs.Termination
import OnePass.Proofs.SyntaxErrors
import OnePass.Proofs.Expectation
import OnePass.Proofs.Discipline
import OnePass.Proofs.RegisterUse
import OnePass.Proofs.Recycling
import OnePass.Proofs.Clients
import OnePass.Proofs.Blame
import OnePass.Proofs.Need
import OnePass.Proofs.Acceptance
import OnePass.Proofs.Declarations
import OnePass.Proofs.Slots
import OnePass.Proofs.Tracking
import OnePass.Proofs.Run
import OnePass.Proofs.Interpreter
import OnePass.Proofs.Machine
import OnePass.Proofs.Execution
import OnePass.Proofs.ExpressionExecution
import OnePass.Proofs.Placement
import OnePass.Proofs.StatementExecution
import OnePass.Proofs.Simulation
import OnePass.Proofs.Encoding
import OnePass.Proofs.ReadBack
import OnePass.Proofs.Labels
import OnePass.Proofs.Listing
import OnePass.Proofs.Preservation
import OnePass.Proofs.Frame
import OnePass.Proofs.Spelling
import OnePass.Proofs.Tokenization
import OnePass.Proofs.Reading
import OnePass.Proofs.Mapping
import OnePass.Proofs.Attribution
import OnePass.Proofs.Twins
import OnePass.Proofs.Lockstep
import OnePass.Proofs.Renaming
import OnePass.Proofs.LexicalErrors
import OnePass.Proofs.Aftermath
import OnePass.Proofs.StringConstants
import OnePass.Proofs.Provenance
import OnePass.Proofs.Suggestion
import OnePass.Proofs.SemanticErrors
import OnePass.Proofs.Permanence
import OnePass.Proofs.PhysicalLines
import OnePass.Proofs.Annotation
import OnePass.CommandLine
import OnePass.Main
