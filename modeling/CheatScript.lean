import CheatScript.Text.Byte
import CheatScript.Text.Bytes
import CheatScript.Text.Numeral
import CheatScript.Text.Utf8
import CheatScript.Text.Width
import CheatScript.Text.Space
import CheatScript.Text.Upper
import CheatScript.Number.Rounding
import CheatScript.Number.Single
import CheatScript.Literal
import CheatScript.Token.Quote
import CheatScript.Token
import CheatScript.Command
import CheatScript.Fault
import CheatScript.Argument
import CheatScript.Definition
import CheatScript.Source
import CheatScript.Instruction.Operand
import CheatScript.Instruction.Table
import CheatScript.Instruction.Layout
import CheatScript.Instruction.Register
import CheatScript.Instruction.Kind
import CheatScript.Disassembly
import CheatScript.Assembly.Expansion
import CheatScript.Assembly.Encoding
import CheatScript.Assembler
import CheatScript.Assembly
import CheatScript.LittleEndian
import CheatScript.Text.Identifier
import CheatScript.Code
import CheatScript.Condition
import CheatScript.Condition.Grammar
import CheatScript.Fragment
import CheatScript.Statement
import CheatScript.Path
import CheatScript.FileTree
import CheatScript.FileTree.Change
import CheatScript.Journal
import CheatScript.Include
import CheatScript.Function
import CheatScript.Call
import CheatScript.Patch
import CheatScript.Rendering
import CheatScript.Scope.Basic
import CheatScript.Scope.Nesting
import CheatScript.Scope.Splitting
import CheatScript.Scope.Packing
import CheatScript.Compile
import CheatScript.Compiler
import CheatScript.Text.Printable
import CheatScript.Text.Quoted
import CheatScript.Number.Double
import CheatScript.Number.Shortest
import CheatScript.CodeFile
import CheatScript.Conversion
import CheatScript.Settings
import CheatScript.Settings.Toml
import CheatScript.Settings.Toml.Value
import CheatScript.Settings.Lua
import CheatScript.Settings.Lua.Expression
import CheatScript.Settings.Lua.NumberText
import CheatScript.Settings.Lua.Token
import CheatScript.Settings.File
import CheatScript.CommandLine.Flag
import CheatScript.CommandLine.LogFile
import CheatScript.CommandLine.Console
import CheatScript.CommandLine.Table
import CheatScript.CommandLine.Compiler
import CheatScript.CommandLine.Converter
import CheatScript.CommandLine.Clock
import CheatScript.Main
import CheatScript.Proofs.Outcome
import CheatScript.Proofs.SplitText
import CheatScript.Proofs.TextReading
import CheatScript.Proofs.ScopeWeight
import CheatScript.Proofs.ConditionClauses
import CheatScript.Proofs.ScopeMeaning
import CheatScript.Proofs.ScopeCapacity
import CheatScript.Proofs.DefinitionLookup
import CheatScript.Proofs.DefinitionOrder
import CheatScript.Proofs.SequentialDefinitions
import CheatScript.Proofs.CallExpansion
import CheatScript.Proofs.CodeLines
import CheatScript.Proofs.PatchLines
import CheatScript.Proofs.CompiledOutput
import CheatScript.Proofs.InstructionLayout
import CheatScript.Proofs.InstructionWords
import CheatScript.Proofs.Numerals
import CheatScript.Proofs.TrimmedText
import CheatScript.Proofs.PrintedLines
import CheatScript.Proofs.InstructionNames
import CheatScript.Proofs.PrintedNames
import CheatScript.Proofs.PrintedOperands
import CheatScript.Proofs.AssemblerForms
import CheatScript.Proofs.Reassembly
import CheatScript.Proofs.BranchTargets
import CheatScript.Proofs.LineCounts
import CheatScript.Proofs.IncludeExpansion
import CheatScript.Proofs.ConditionDrafts
import CheatScript.Proofs.CompilationOutcome
import CheatScript.Proofs.ConditionTypes
import CheatScript.Proofs.Passes
import CheatScript.Proofs.Provenance
import CheatScript.Proofs.RegisterMachine
import CheatScript.Proofs.AccessAddresses
import CheatScript.Proofs.CallArguments
import CheatScript.Proofs.SettledArguments
import CheatScript.Proofs.ConditionLines
import CheatScript.Proofs.ConditionTokens
import CheatScript.Proofs.KeptConditions
import CheatScript.Proofs.AssemblerRuns
import CheatScript.Proofs.CompilerRuns
import CheatScript.Proofs.HeaderLines
import CheatScript.Proofs.FunctionBlocks
import CheatScript.Proofs.ExtractionLoop
import CheatScript.Proofs.MacroExpansion
import CheatScript.Proofs.LineCode
import CheatScript.Proofs.LoadedNumbers
import CheatScript.Proofs.ImmediateOperands
import CheatScript.Proofs.StoredValues
import CheatScript.Proofs.PrintedSuffixes
import CheatScript.Proofs.CodeReading
import CheatScript.Proofs.ArgumentSums
import CheatScript.Proofs.PointerChains
import CheatScript.Proofs.JoinedTexts
import CheatScript.Proofs.WrittenBytes
import CheatScript.Proofs.DefinitionCycles
import CheatScript.Proofs.CleanedLines
import CheatScript.Proofs.LineComments
import CheatScript.Proofs.ArgumentLists
import CheatScript.Proofs.CodeFileRows
import CheatScript.Proofs.TokenSpans
import CheatScript.Proofs.ConvertedFiles
import CheatScript.Proofs.OrderBranches
import CheatScript.Proofs.UpperCase
import CheatScript.Proofs.SymbolFiles
import CheatScript.Proofs.QuotedReadings
import CheatScript.Proofs.LiteralValues
