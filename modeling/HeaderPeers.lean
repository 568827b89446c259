import HeaderPeers.Alias
import HeaderPeers.Attribute
import HeaderPeers.Build
import HeaderPeers.Class.Reader
import HeaderPeers.Class.Text
import HeaderPeers.CommandLine.Basic
import HeaderPeers.CommandLine.Reader
import HeaderPeers.CommandLine.Run
import HeaderPeers.Comment
import HeaderPeers.Container.Reader
import HeaderPeers.Container.Text
import HeaderPeers.Declaration
import HeaderPeers.Declarator.Parameters
import HeaderPeers.Declarator.Reader
import HeaderPeers.Declarator.Shape
import HeaderPeers.Diagnostic
import HeaderPeers.Directive.Constant
import HeaderPeers.Directive.Reader
import HeaderPeers.Dump.Json
import HeaderPeers.Dump.Record
import HeaderPeers.Enumeration.Basic
import HeaderPeers.Enumeration.Reader
import HeaderPeers.FileTree
import HeaderPeers.Function.Reader
import HeaderPeers.Function.Text
import HeaderPeers.LineFilter
import HeaderPeers.Location
import HeaderPeers.Main
import HeaderPeers.Namespace
import HeaderPeers.NativeType.Reader
import HeaderPeers.NativeType.Resolution
import HeaderPeers.Outline
import HeaderPeers.Path
import HeaderPeers.Pattern.Basic
import HeaderPeers.Pattern.CharSet
import HeaderPeers.Pattern.Reader
import HeaderPeers.Project.Basic
import HeaderPeers.Project.Reader
import HeaderPeers.Reading.Basic
import HeaderPeers.Reading.Skip
import HeaderPeers.Rule.Basic
import HeaderPeers.Rule.Builtin
import HeaderPeers.Rule.Name
import HeaderPeers.Rule.Table
import HeaderPeers.Scope
import HeaderPeers.Source
import HeaderPeers.Statement
import HeaderPeers.Template
import HeaderPeers.Text.Basic
import HeaderPeers.Text.Letter
import HeaderPeers.Text.Line
import HeaderPeers.Text.Upper
import HeaderPeers.Token.Basic
import HeaderPeers.Token.Keyword
import HeaderPeers.Token.Lexer
import HeaderPeers.Token.Number
import HeaderPeers.Toml.Reader
import HeaderPeers.Toml.Scalar
import HeaderPeers.Toml.Tree
import HeaderPeers.Toml.Value
import HeaderPeers.Variable.Accessor
import HeaderPeers.Variable.Reader
import HeaderPeers.Window.Basic
import HeaderPeers.Window.Conditional
import HeaderPeers.Window.Expansion
import HeaderPeers.Proofs.Conditional
import HeaderPeers.Proofs.Outline
import HeaderPeers.Proofs.Overload
import HeaderPeers.Proofs.Window.Search
import HeaderPeers.Proofs.Window.Termination
import HeaderPeers.Proofs.Lexer
import HeaderPeers.Proofs.LineNumbers
import HeaderPeers.Proofs.Reading.Invariant
import HeaderPeers.Proofs.Reading.Looking
import HeaderPeers.Proofs.Reading.Statements
import HeaderPeers.Proofs.Reading.Printing
import HeaderPeers.Proofs.RuleGrowth
import HeaderPeers.Proofs.Backtracking
import HeaderPeers.Proofs.Instances
import HeaderPeers.Proofs.WholeInput
import HeaderPeers.Proofs.RuleKeys
import HeaderPeers.Proofs.Respelling
import HeaderPeers.Proofs.Window.Thinning
import HeaderPeers.Proofs.Progress.Basic
import HeaderPeers.Proofs.Progress.Looking
import HeaderPeers.Proofs.RuleLayers
import HeaderPeers.Proofs.NameRules
import HeaderPeers.Proofs.MacroLines
import HeaderPeers.Proofs.AliasTarget
import HeaderPeers.Proofs.Access
import HeaderPeers.Proofs.HeaderSequence
import HeaderPeers.Proofs.Exclusion
import HeaderPeers.Proofs.Window.Transparency
import HeaderPeers.Proofs.Window.Idempotence
import HeaderPeers.Proofs.Window.Invocation
import HeaderPeers.Proofs.Progress.Declarators
import HeaderPeers.Proofs.Enumeration.Expression
import HeaderPeers.Proofs.Enumeration.Initializer
import HeaderPeers.Proofs.Reading.Visible
import HeaderPeers.Proofs.Enumeration.Counting
import HeaderPeers.Proofs.Function.Declarators
import HeaderPeers.Proofs.Function.Parameters
import HeaderPeers.Proofs.Function.Variants
import HeaderPeers.Proofs.NativeType.Words
import HeaderPeers.Proofs.NameKeys
import HeaderPeers.Proofs.Class.Body
import HeaderPeers.Proofs.Class.Constructors
import HeaderPeers.Proofs.Class.Flattening
import HeaderPeers.Proofs.Class.Unnamed
import HeaderPeers.Proofs.Class.UnnamedStatement
import HeaderPeers.Proofs.CodeText
import HeaderPeers.Proofs.Enumeration.Constants
import HeaderPeers.Proofs.Enumeration.Members
import HeaderPeers.Proofs.Enumeration.Rendering
import HeaderPeers.Proofs.Enumeration.ValueClass
import HeaderPeers.Proofs.Function.Alternatives
import HeaderPeers.Proofs.NativeType.Arguments
import HeaderPeers.Proofs.NativeType.Bound
import HeaderPeers.Proofs.NativeType.Candidates
import HeaderPeers.Proofs.Scope.Paths
import HeaderPeers.Proofs.Function.Defaults
import HeaderPeers.Proofs.ScopeLoop
import HeaderPeers.Proofs.Constant.Line
import HeaderPeers.Proofs.Constant.Translation
import HeaderPeers.Proofs.Constant.Concatenation
import HeaderPeers.Proofs.Constant.Types
import HeaderPeers.Proofs.Constant.Header
import HeaderPeers.Proofs.Recognizers
import HeaderPeers.Proofs.Variable.Items
import HeaderPeers.Proofs.Variable.Declared
import HeaderPeers.Proofs.Variable.Lists
import HeaderPeers.Proofs.Variable.Printed
import HeaderPeers.Proofs.Variable.Added
import HeaderPeers.Proofs.Variable.Single
import HeaderPeers.Proofs.Variable.Statements
import HeaderPeers.Proofs.NativeType.Builtin
import HeaderPeers.Proofs.Declarator.Front
import HeaderPeers.Proofs.Declarator.Dimensions
import HeaderPeers.Proofs.TokenTexts
import HeaderPeers.Proofs.Declarator.Marks
import HeaderPeers.Proofs.Declarator.CastText
import HeaderPeers.Proofs.Variable.Fundamental
import HeaderPeers.Proofs.Variable.Indices
import HeaderPeers.Proofs.AccessLabels
import HeaderPeers.Proofs.ParameterText
import HeaderPeers.Proofs.Function.Tail
import HeaderPeers.Proofs.LineFilter
import HeaderPeers.Proofs.TextParts
import HeaderPeers.Proofs.Comment
import HeaderPeers.Proofs.EndOfInput
import HeaderPeers.Proofs.IntegerLiteral
import HeaderPeers.Proofs.LineBreaks
import HeaderPeers.Proofs.Progress.Classes
import HeaderPeers.Proofs.Progress.Members
import HeaderPeers.Proofs.Progress.Statements
import HeaderPeers.Proofs.RuleForms
import HeaderPeers.Proofs.TemplateParameters
import HeaderPeers.Proofs.Unclosed
import HeaderPeers.Proofs.CommentRuns
import HeaderPeers.Proofs.Helpers
import HeaderPeers.Proofs.SourceLines
import HeaderPeers.Proofs.Window.Extent
import HeaderPeers.Proofs.Window.Locality
import HeaderPeers.Proofs.Indentation
import HeaderPeers.Proofs.IntegerDecoding
import HeaderPeers.Proofs.Scope.Shortening
