import CodecGen.Command.Execute
import CodecGen.Command.Flags
import CodecGen.Command.Notice
import CodecGen.Command.Verb
import CodecGen.Corpus.Block
import CodecGen.Corpus.Case
import CodecGen.Emit.Artifact
import CodecGen.Emit.Codec
import CodecGen.Emit.Declaration
import CodecGen.Emit.Expression
import CodecGen.Emit.Fault
import CodecGen.Emit.Line
import CodecGen.Emit.Naming
import CodecGen.Emit.Scope
import CodecGen.Emit.Stmt
import CodecGen.Files.Path
import CodecGen.Files.Replace
import CodecGen.Files.Tree
import CodecGen.Load
import CodecGen.Main
import CodecGen.Markup.Element
import CodecGen.Markup.Event
import CodecGen.Markup.Fault
import CodecGen.Markup.Lexeme
import CodecGen.Markup.Name
import CodecGen.ModuleSet
import CodecGen.Proofs.Accounts
import CodecGen.Proofs.Asides
import CodecGen.Proofs.Binding
import CodecGen.Proofs.BlockLocals
import CodecGen.Proofs.BracketBalance
import CodecGen.Proofs.Brackets
import CodecGen.Proofs.Building
import CodecGen.Proofs.CheckCommand
import CodecGen.Proofs.CodeBlocks
import CodecGen.Proofs.CodeLocals
import CodecGen.Proofs.CodeTokens
import CodecGen.Proofs.ComparedModules
import CodecGen.Proofs.Comparison
import CodecGen.Proofs.CompiledExpressions
import CodecGen.Proofs.Containment
import CodecGen.Proofs.CopiedFields
import CodecGen.Proofs.CorpusCases
import CodecGen.Proofs.Cuts
import CodecGen.Proofs.DeclarationOrder
import CodecGen.Proofs.Declarations
import CodecGen.Proofs.Declared
import CodecGen.Proofs.DeclaredLocals
import CodecGen.Proofs.DeclaredNames
import CodecGen.Proofs.DiagnosticPlaces
import CodecGen.Proofs.Digestible
import CodecGen.Proofs.Documents
import CodecGen.Proofs.Drafted
import CodecGen.Proofs.Emission
import CodecGen.Proofs.EmittedCode
import CodecGen.Proofs.EmittedExpressions
import CodecGen.Proofs.EmittedRequests
import CodecGen.Proofs.Encoding
import CodecGen.Proofs.EnumItems
import CodecGen.Proofs.EnumNumbers
import CodecGen.Proofs.ExpectedFaults
import CodecGen.Proofs.ExpressionGrammar
import CodecGen.Proofs.ExpressionLocals
import CodecGen.Proofs.FaultChecks
import CodecGen.Proofs.FaultPaths
import CodecGen.Proofs.FaultSites
import CodecGen.Proofs.FaultWalks
import CodecGen.Proofs.FieldCode
import CodecGen.Proofs.FileImports
import CodecGen.Proofs.FileTree
import CodecGen.Proofs.FinishedFiles
import CodecGen.Proofs.FreshTemporaries
import CodecGen.Proofs.Header
import CodecGen.Proofs.HeaderParts
import CodecGen.Proofs.HeaderSlot
import CodecGen.Proofs.HiddenCode
import CodecGen.Proofs.HiddenFields
import CodecGen.Proofs.ImportChains
import CodecGen.Proofs.ImportClosure
import CodecGen.Proofs.ImportCycles
import CodecGen.Proofs.IntegerText
import CodecGen.Proofs.Introduced
import CodecGen.Proofs.InvalidBytes
import CodecGen.Proofs.LaidOutContents
import CodecGen.Proofs.Layouts
import CodecGen.Proofs.LevelCode
import CodecGen.Proofs.LoadingRuns
import CodecGen.Proofs.Members
import CodecGen.Proofs.MessageLayout
import CodecGen.Proofs.ModuleTables
import CodecGen.Proofs.ModuleTexts
import CodecGen.Proofs.Nesting
import CodecGen.Proofs.NotePlaces
import CodecGen.Proofs.NumberedCode
import CodecGen.Proofs.NumberedLines
import CodecGen.Proofs.NumberedSource
import CodecGen.Proofs.Origin
import CodecGen.Proofs.OutputFiles
import CodecGen.Proofs.PendingCopies
import CodecGen.Proofs.Placeless
import CodecGen.Proofs.Positions
import CodecGen.Proofs.Preloading
import CodecGen.Proofs.QualifiedNames
import CodecGen.Proofs.ReaderSteps
import CodecGen.Proofs.Rendering
import CodecGen.Proofs.ReorderedContents
import CodecGen.Proofs.Reordering
import CodecGen.Proofs.Replacement
import CodecGen.Proofs.Resolved
import CodecGen.Proofs.ScopeDiscipline
import CodecGen.Proofs.Spans
import CodecGen.Proofs.Staging
import CodecGen.Proofs.StatedFields
import CodecGen.Proofs.Symmetry
import CodecGen.Proofs.TagPlaces
import CodecGen.Proofs.TemporaryNames
import CodecGen.Proofs.TypeNames
import CodecGen.Proofs.TypePaths
import CodecGen.Proofs.Unfolding
import CodecGen.Proofs.UnusedImports
import CodecGen.Proofs.UnusedLookups
import CodecGen.Proofs.Visits
import CodecGen.Proofs.WireOrder
import CodecGen.Proofs.WrittenCode
import CodecGen.Proofs.WrittenNames
import CodecGen.Resolve.Declaration
import CodecGen.Resolve.Diagnostic
import CodecGen.Resolve.Environment
import CodecGen.Resolve.Expression
import CodecGen.Resolve.Layout
import CodecGen.Resolve.Module
import CodecGen.Resolve.Noted
import CodecGen.Resolve.Spelling
import CodecGen.Schema.Expr
import CodecGen.Schema.Module
import CodecGen.Schema.Type
import CodecGen.Source
import CodecGen.Text.Characters
import CodecGen.Text.Integer
import CodecGen.Text.Quoted
import CodecGen.Text.UpperCase
import CodecGen.Text.Utf8
