import MathExpr.Failure
import MathExpr.Text.Blank
import MathExpr.Text.Case
import MathExpr.Text.Letter
import MathExpr.Text.Digit
import MathExpr.Real.Binary
import MathExpr.Real.Decimal
import MathExpr.Real.Reading
import MathExpr.Real.Functions
import MathExpr.Complex.Functions
import MathExpr.Number.Rounding
import MathExpr.Number.Counting
import MathExpr.Number.Written
import MathExpr.Matrix
import MathExpr.Value.Sets
import MathExpr.Token.Basic
import MathExpr.Tree.OfTokens
import MathExpr.Display.Source
import MathExpr.Display.Tex
import MathExpr.Display.Outline
import MathExpr.Table
import MathExpr.Draw
import MathExpr.Pattern.Basic
import MathExpr.Library.Primitive
import MathExpr.Signature
import MathExpr.Rule.Basic
import MathExpr.Scope
import MathExpr.Text.Template
import MathExpr.FreeNames
import MathExpr.Substitute
import MathExpr.Evaluate.Construct
import MathExpr.Evaluate
import MathExpr.Library.Functions
import MathExpr.Library.Rules
import MathExpr.Library.Scope
import MathExpr.Pattern.Matching
import MathExpr.Pattern.Empty
import MathExpr.Rule.Apply
import MathExpr.Rule.Empty
import MathExpr.Rule.Select
import MathExpr.Simplify
import MathExpr.Definitions
import MathExpr.Variables
import MathExpr.CustomFunction
import MathExpr.Marking
import MathExpr.CommandLine.Arguments
import MathExpr.CommandLine.Run
import MathExpr.Main
import MathExpr.Proofs.LowerCase
import MathExpr.Proofs.Outcome
import MathExpr.Proofs.Tables
import MathExpr.Proofs.Bindings
import MathExpr.Proofs.Trees
import MathExpr.Proofs.Replacement
import MathExpr.Proofs.FreeNames
import MathExpr.Proofs.Evaluation
import MathExpr.Proofs.BuiltIn
import MathExpr.Proofs.SubstitutionLemma
import MathExpr.Proofs.Rewriting
import MathExpr.Proofs.Quiet
import MathExpr.Proofs.NormalForm
import MathExpr.Proofs.Integers
import MathExpr.Proofs.Interpretation
import MathExpr.Proofs.Polynomials
import MathExpr.Proofs.Meaning
import MathExpr.Proofs.Calculation
import MathExpr.Proofs.ExactArithmetic
import MathExpr.Proofs.SoundRules
import MathExpr.Proofs.Magnitudes
import MathExpr.Proofs.PolynomialRules
import MathExpr.Proofs.ClosedArithmetic
import MathExpr.Proofs.Contents
import MathExpr.Proofs.Overloads
import MathExpr.Proofs.Kinds
import MathExpr.Proofs.Regrouping
import MathExpr.Proofs.Matching
import MathExpr.Proofs.CalculatedParts
import MathExpr.Proofs.SumRules
import MathExpr.Proofs.EvenSums
import MathExpr.Proofs.BasicRules
import MathExpr.Proofs.Spelling
import MathExpr.Proofs.Frames
import MathExpr.Proofs.Precedence
import MathExpr.Proofs.Infix
import MathExpr.Proofs.Dependencies
import MathExpr.Proofs.Agreement
import MathExpr.Proofs.Coincidence
import MathExpr.Proofs.DefinitionOrder
import MathExpr.Proofs.EvaluatedOnce
import MathExpr.Proofs.Renaming
import MathExpr.Proofs.CaseFolding
import MathExpr.Proofs.CaseInsensitivity
import MathExpr.Proofs.Registration
import MathExpr.Proofs.Judgement
import MathExpr.Proofs.ValuesAsLeaves
import MathExpr.Proofs.FiniteNumbers
import MathExpr.Proofs.Literals
import MathExpr.Proofs.SameExpression
import MathExpr.Proofs.Brackets
import MathExpr.Proofs.Nameless
import MathExpr.Proofs.Equivariance
import MathExpr.Proofs.Hygiene
import MathExpr.Proofs.Equality
import MathExpr.Proofs.SetAlgebra
import MathExpr.Proofs.OrderedMatching
import MathExpr.Proofs.LexicalGrammar
import MathExpr.Proofs.ImpliedProducts
import MathExpr.Proofs.LeftoverOperands
import MathExpr.Proofs.UsedNames
import MathExpr.Proofs.NamesApart
import MathExpr.Proofs.Rearrangement
import MathExpr.Proofs.OperandOrder
import MathExpr.Proofs.AnyOrder
import MathExpr.Proofs.ReplacementNames
import MathExpr.Proofs.QuotedTexts
import MathExpr.Proofs.PostfixOperators
import MathExpr.Proofs.Delimiters
import MathExpr.Proofs.Nesting
import MathExpr.Proofs.WrittenOperands
import MathExpr.Proofs.UnaryChains
import MathExpr.Proofs.FailingConditions
import MathExpr.Proofs.RemainingNames
import MathExpr.Proofs.FailureOrigins
import MathExpr.Proofs.Templates
import MathExpr.Proofs.InsertedTexts
import MathExpr.Proofs.OperationFailures
import MathExpr.Proofs.UnboundNames
import MathExpr.Proofs.SolvedDefinitions
import MathExpr.Proofs.EvaluationFailures
import MathExpr.Proofs.RepeatedSets
import MathExpr.Proofs.RuleSelection
import MathExpr.Proofs.NamedRulesets
import MathExpr.Proofs.Layers
import MathExpr.Proofs.Neighbours
import MathExpr.Proofs.Slices
import MathExpr.Proofs.DiscreteRanges
import MathExpr.Proofs.Factorisation
import MathExpr.Proofs.ContinuedFractions
import MathExpr.Proofs.RelativeErrors
import MathExpr.Proofs.Selections
import MathExpr.Proofs.NumberTexts
import MathExpr.Proofs.NameTexts
import MathExpr.Proofs.TexPieces
import MathExpr.Proofs.TexTemplates
import MathExpr.Proofs.WellBracketed
