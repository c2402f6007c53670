import SymbolicAlgebra.Binary64
import SymbolicAlgebra.Catalog
import SymbolicAlgebra.Chain
import SymbolicAlgebra.ComplexFloat
import SymbolicAlgebra.Constants
import SymbolicAlgebra.Decimal.Basic
import SymbolicAlgebra.Decimal.Reader
import SymbolicAlgebra.Decimal.Rounding
import SymbolicAlgebra.Dictionary
import SymbolicAlgebra.Document.Basic
import SymbolicAlgebra.Document.Reader
import SymbolicAlgebra.Document.Value
import SymbolicAlgebra.Expr.Basic
import SymbolicAlgebra.Expr.Equality
import SymbolicAlgebra.Expr.Terms
import SymbolicAlgebra.Expr.Text
import SymbolicAlgebra.Expr.Traversal
import SymbolicAlgebra.Expr.Variables
import SymbolicAlgebra.Folding
import SymbolicAlgebra.Gamma
import SymbolicAlgebra.Log
import SymbolicAlgebra.Names
import SymbolicAlgebra.Number.Arithmetic
import SymbolicAlgebra.Number.Basic
import SymbolicAlgebra.Number.Functions
import SymbolicAlgebra.Polynomial
import SymbolicAlgebra.Program.Basic
import SymbolicAlgebra.Program.Compiler
import SymbolicAlgebra.Program.Evaluation
import SymbolicAlgebra.Program.Opcode
import SymbolicAlgebra.Proofs.Chain
import SymbolicAlgebra.Proofs.Document.Comments
import SymbolicAlgebra.Proofs.Document.Contents
import SymbolicAlgebra.Proofs.Document.Layout
import SymbolicAlgebra.Proofs.Document.Merging
import SymbolicAlgebra.Proofs.Document.Reading
import SymbolicAlgebra.Proofs.Document.RoundTrip
import SymbolicAlgebra.Proofs.Expr.Arithmetic
import SymbolicAlgebra.Proofs.Expr.Congruence
import SymbolicAlgebra.Proofs.Expr.Containment
import SymbolicAlgebra.Proofs.Expr.Keys
import SymbolicAlgebra.Proofs.Expr.Marks
import SymbolicAlgebra.Proofs.Expr.Reading
import SymbolicAlgebra.Proofs.Expr.Related
import SymbolicAlgebra.Proofs.Expr.Renaming
import SymbolicAlgebra.Proofs.Expr.Rewriting
import SymbolicAlgebra.Proofs.Expr.Sameness
import SymbolicAlgebra.Proofs.Expr.Simultaneous
import SymbolicAlgebra.Proofs.Expr.Substitution
import SymbolicAlgebra.Proofs.Expr.Variables
import SymbolicAlgebra.Proofs.Expr.Vocabulary
import SymbolicAlgebra.Proofs.Grouping
import SymbolicAlgebra.Proofs.Names
import SymbolicAlgebra.Proofs.Number.Canonical
import SymbolicAlgebra.Proofs.Number.Exact
import SymbolicAlgebra.Proofs.Number.Powers
import SymbolicAlgebra.Proofs.Polynomial.Canonical
import SymbolicAlgebra.Proofs.Polynomial.Degree
import SymbolicAlgebra.Proofs.Polynomial.Evaluation
import SymbolicAlgebra.Proofs.Program.Compilability
import SymbolicAlgebra.Proofs.Program.Correctness
import SymbolicAlgebra.Proofs.Program.Decoding
import SymbolicAlgebra.Proofs.Program.Errors
import SymbolicAlgebra.Proofs.Program.Slots
import SymbolicAlgebra.Proofs.Program.StackDepth
import SymbolicAlgebra.Proofs.Program.Substitution
import SymbolicAlgebra.Proofs.Program.Views
import SymbolicAlgebra.Proofs.Rational.Arithmetic
import SymbolicAlgebra.Proofs.Rational.Coefficients
import SymbolicAlgebra.Proofs.Rational.Exponentials
import SymbolicAlgebra.Proofs.Rational.Factorials
import SymbolicAlgebra.Proofs.Rational.Folding
import SymbolicAlgebra.Proofs.Rational.Identities
import SymbolicAlgebra.Proofs.Rational.Interpretation
import SymbolicAlgebra.Proofs.Rational.LongDivision
import SymbolicAlgebra.Proofs.Rational.Ordering
import SymbolicAlgebra.Proofs.Rational.Powers
import SymbolicAlgebra.Proofs.Rational.Range
import SymbolicAlgebra.Proofs.Rational.Reading
import SymbolicAlgebra.Proofs.Rational.Simplification
import SymbolicAlgebra.Proofs.Rational.Writing
import SymbolicAlgebra.Proofs.Rational.ZerothPowers
import SymbolicAlgebra.Proofs.Real.Interpretation
import SymbolicAlgebra.Proofs.Real.Trigonometry
import SymbolicAlgebra.Proofs.Rules.Balancing
import SymbolicAlgebra.Proofs.Rules.Common
import SymbolicAlgebra.Proofs.Rules.Exactness
import SymbolicAlgebra.Proofs.Rules.Exponentials
import SymbolicAlgebra.Proofs.Rules.LongDivision
import SymbolicAlgebra.Proofs.Rules.Matching
import SymbolicAlgebra.Proofs.Rules.Ordering
import SymbolicAlgebra.Proofs.Rules.Related
import SymbolicAlgebra.Proofs.Rules.Renaming
import SymbolicAlgebra.Proofs.Rules.Shape
import SymbolicAlgebra.Proofs.Rules.SortLevels
import SymbolicAlgebra.Proofs.Rules.Sorting
import SymbolicAlgebra.Proofs.Rules.Vocabulary
import SymbolicAlgebra.Proofs.Rules.ZeroDivisors
import SymbolicAlgebra.Proofs.Settings
import SymbolicAlgebra.Proofs.Simplifier.Arguments
import SymbolicAlgebra.Proofs.Simplifier.Compilation
import SymbolicAlgebra.Proofs.Simplifier.Idempotence
import SymbolicAlgebra.Proofs.Simplifier.Renaming
import SymbolicAlgebra.Proofs.Simplifier.Run
import SymbolicAlgebra.Proofs.Simplifier.Soundness
import SymbolicAlgebra.Proofs.Text.Blank
import SymbolicAlgebra.Proofs.Text.Pieces
import SymbolicAlgebra.Rules.Arithmetic
import SymbolicAlgebra.Rules.Collapse
import SymbolicAlgebra.Rules.Divisions
import SymbolicAlgebra.Rules.Exponentials
import SymbolicAlgebra.Rules.Factorials
import SymbolicAlgebra.Rules.Factors
import SymbolicAlgebra.Rules.LongDivision
import SymbolicAlgebra.Rules.Negatives
import SymbolicAlgebra.Rules.Ordering
import SymbolicAlgebra.Rules.Powers
import SymbolicAlgebra.Rules.Template
import SymbolicAlgebra.Rules.Trigonometry
import SymbolicAlgebra.Settings
import SymbolicAlgebra.Simplifier
import SymbolicAlgebra.Text.Blank
