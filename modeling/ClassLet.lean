import ClassLet.Assembly.Emitter
import ClassLet.Assembly.Encoding
import ClassLet.Assembly.Line
import ClassLet.Assembly.Listing
import ClassLet.Assembly.Opcode
import ClassLet.Compilation
import ClassLet.Diagnostic
import ClassLet.Diagnostic.Code
import ClassLet.Diagnostic.Link
import ClassLet.Diagnostic.Type
import ClassLet.Generation
import ClassLet.Generation.Emission
import ClassLet.Generation.Expression
import ClassLet.Linkage
import ClassLet.Linkage.ClassPlan
import ClassLet.Linkage.Environment
import ClassLet.Linkage.Expression
import ClassLet.Linkage.Pass
import ClassLet.Machine
import ClassLet.Machine.Memory
import ClassLet.NameMap
import ClassLet.Position
import ClassLet.Program
import ClassLet.Proofs.Assembly.AcceptedTexts
import ClassLet.Proofs.Assembly.DirectEncoding
import ClassLet.Proofs.Assembly.EmittedStreams
import ClassLet.Proofs.Assembly.FirstPass
import ClassLet.Proofs.Assembly.LabelNames
import ClassLet.Proofs.Assembly.LabelUses
import ClassLet.Proofs.Assembly.LineGrammar
import ClassLet.Proofs.Assembly.Placement
import ClassLet.Proofs.Assembly.Reading
import ClassLet.Proofs.Compilation.BuildGate
import ClassLet.Proofs.Compilation.BuiltRuns
import ClassLet.Proofs.Compilation.FarLabels
import ClassLet.Proofs.Generation.BodyNumbers
import ClassLet.Proofs.Generation.CompleteTrees
import ClassLet.Proofs.Generation.DeclarationCode
import ClassLet.Proofs.Generation.DispatchTables
import ClassLet.Proofs.Generation.EmittedBodies
import ClassLet.Proofs.Generation.ExpressionCode
import ClassLet.Proofs.Generation.ExpressionLabels
import ClassLet.Proofs.Generation.ForwardJumps
import ClassLet.Proofs.Generation.LinkedTrees
import ClassLet.Proofs.Generation.MethodLabels
import ClassLet.Proofs.Generation.ProgramCode
import ClassLet.Proofs.Generation.ProgramLines
import ClassLet.Proofs.Generation.SourceLines
import ClassLet.Proofs.Generation.Stretches
import ClassLet.Proofs.Hierarchy.Antisymmetry
import ClassLet.Proofs.Hierarchy.Chains
import ClassLet.Proofs.Hierarchy.CommonSupertypes
import ClassLet.Proofs.Hierarchy.DeclaredEdges
import ClassLet.Proofs.Hierarchy.Reachability
import ClassLet.Proofs.Hierarchy.SubtypeOrder
import ClassLet.Proofs.Lexical.Agreement
import ClassLet.Proofs.Lexical.ClassMembers
import ClassLet.Proofs.Lexical.Points
import ClassLet.Proofs.Lexical.Resolver
import ClassLet.Proofs.Linkage.ClassDeclaration
import ClassLet.Proofs.Linkage.NestedDeclarations
import ClassLet.Proofs.Linkage.Parameters
import ClassLet.Proofs.Linkage.PassRuns
import ClassLet.Proofs.Linkage.Places
import ClassLet.Proofs.Linkage.ScopeCalls
import ClassLet.Proofs.Linkage.Scopes
import ClassLet.Proofs.Linkage.Sequences
import ClassLet.Proofs.Locality.BodyPlaces
import ClassLet.Proofs.Locality.Gaps
import ClassLet.Proofs.Locality.IsolatedBodies
import ClassLet.Proofs.Locality.MethodOutlines
import ClassLet.Proofs.Machine.Blocks
import ClassLet.Proofs.Machine.Bodies
import ClassLet.Proofs.Machine.Configuration
import ClassLet.Proofs.Machine.HeapLayout
import ClassLet.Proofs.Machine.Instructions
import ClassLet.Proofs.Machine.Invariant
import ClassLet.Proofs.Machine.LeadingCells
import ClassLet.Proofs.Machine.Moves
import ClassLet.Proofs.Machine.Refinement
import ClassLet.Proofs.Machine.Runs
import ClassLet.Proofs.Machine.StraightLine
import ClassLet.Proofs.Machine.TrapAddresses
import ClassLet.Proofs.Machine.Traps
import ClassLet.Proofs.Members.ClassOrder
import ClassLet.Proofs.Members.ClassScan
import ClassLet.Proofs.Members.FieldTypes
import ClassLet.Proofs.Members.InheritedLayout
import ClassLet.Proofs.Members.Names
import ClassLet.Proofs.Members.Overrides
import ClassLet.Proofs.Members.Substitution
import ClassLet.Proofs.Members.TableEdits
import ClassLet.Proofs.Missing
import ClassLet.Proofs.Semantics.Evaluation
import ClassLet.Proofs.Simulation.CallFrames
import ClassLet.Proofs.Simulation.Calls
import ClassLet.Proofs.Simulation.Classes
import ClassLet.Proofs.Simulation.Comparisons
import ClassLet.Proofs.Simulation.CompiledRuns
import ClassLet.Proofs.Simulation.Constructions
import ClassLet.Proofs.Simulation.Declarations
import ClassLet.Proofs.Simulation.Expressions
import ClassLet.Proofs.Simulation.Frames
import ClassLet.Proofs.Simulation.HeapCells
import ClassLet.Proofs.Simulation.Members
import ClassLet.Proofs.Simulation.MemorySizes
import ClassLet.Proofs.Simulation.Names
import ClassLet.Proofs.Simulation.Operators
import ClassLet.Proofs.Simulation.Outcome
import ClassLet.Proofs.Simulation.PlainPrograms
import ClassLet.Proofs.Simulation.Programs
import ClassLet.Proofs.Simulation.SafeRuns
import ClassLet.Proofs.Simulation.States
import ClassLet.Proofs.Simulation.Traces
import ClassLet.Proofs.Simulation.Worlds
import ClassLet.Proofs.Text.Numerals
import ClassLet.Proofs.Text.Pieces
import ClassLet.Proofs.Text.SolidText
import ClassLet.Proofs.Typing.MissingParts
import ClassLet.Proofs.Typing.TypedExpressions
import ClassLet.Proofs.Written
import ClassLet.Storage
import ClassLet.Storage.Members
import ClassLet.Storage.Scope
import ClassLet.Target
import ClassLet.Text.Blank
import ClassLet.Text.Decimal
import ClassLet.Text.Split
import ClassLet.Ty
import ClassLet.Ty.Hierarchy
import ClassLet.Ty.Subtyping
import ClassLet.Typing
import ClassLet.Typing.Expression
