import Codegen.Fault
import Codegen.TypeTable
import Codegen.Value
import Codegen.Instr
import Codegen.Func
import Codegen.Func.Text
import Codegen.Module
import Codegen.Error
import Codegen.Func.Order
import Codegen.Func.Dominators
import Codegen.Func.Check
import Codegen.Storage
import Codegen.Source
import Codegen.Context
import Codegen.X86.Instr
import Codegen.X86.Cond
import Codegen.X86.Operands
import Codegen.X86.Select
import Codegen.X86.Compiler
import Codegen.Graph
import Codegen.Graph.Conversion
import Codegen.Graph.Builder
import Codegen.Graph.Check
import Codegen.Graph.Edit
import Codegen.Graph.Recipe
import Codegen.X86.Conversion
import Codegen.Pool
import Codegen.Config
import Codegen.Engine
import Codegen.Llvm.Name
import Codegen.Llvm.Problem
import Codegen.Llvm.Decimal
import Codegen.Llvm.IntText
import Codegen.Llvm.Type
import Codegen.Llvm.Float
import Codegen.Llvm.Const
import Codegen.Llvm.Module
import Codegen.Llvm.Token
import Codegen.Llvm.Parser.Basic
import Codegen.Llvm.Parser.Type
import Codegen.Llvm.Parser.Const
import Codegen.Llvm.Parser.Inst
import Codegen.Llvm.Parser.Module
import Codegen.Llvm.Resolve.Type
import Codegen.Llvm.Resolve.Const
import Codegen.Llvm.Resolve.Func
import Codegen.Llvm.Resolve.Module
import Codegen.Llvm.Import
import Codegen.Llvm.Edit
import Codegen.Flag
import Codegen.Command
import Codegen.Main
import Codegen.Proofs.Answer
import Codegen.Proofs.Construction
import Codegen.Proofs.Histories
import Codegen.Proofs.Paths
import Codegen.Proofs.DominatorTree
import Codegen.Proofs.Dominators
import Codegen.Proofs.WellFormed
import Codegen.Proofs.Assignment
import Codegen.Proofs.Machine
import Codegen.Proofs.Selection
import Codegen.Proofs.OperandTable
import Codegen.Proofs.Layout
import Codegen.Proofs.Words
import Codegen.Proofs.Availability
import Codegen.Proofs.Agreement
import Codegen.Proofs.Simulation
import Codegen.Proofs.Lockstep
import Codegen.Proofs.Closed
import Codegen.Proofs.Definedness
import Codegen.Proofs.Known
import Codegen.Proofs.Interning
import Codegen.Proofs.Queries
import Codegen.Proofs.Faults
import Codegen.Proofs.GraphMeaning
import Codegen.Proofs.CycleSearch
import Codegen.Proofs.GraphCheck
import Codegen.Proofs.Conversion
import Codegen.Proofs.Arrangement
import Codegen.Proofs.Drawing
import Codegen.Proofs.Chaining
import Codegen.Proofs.Leaves
import Codegen.Proofs.Immediates
import Codegen.Proofs.Importing
import Codegen.Proofs.Numbering
import Codegen.Proofs.Imported
import Codegen.Proofs.Complaints
import Codegen.Proofs.Literals
import Codegen.Proofs.Validity
import Codegen.Proofs.Tracking
import Codegen.Proofs.GraphBlocks
import Codegen.Proofs.Reuse
import Codegen.Proofs.Workers
import Codegen.Proofs.Acceptance
import Codegen.Proofs.Incomings
import Codegen.Proofs.Traversal
import Codegen.Proofs.Invocations
import Codegen.Proofs.Dependence
import Codegen.Proofs.Limits
import Codegen.Proofs.TypeText
import Codegen.Proofs.NodeLimit
import Codegen.Proofs.Sweeps
import Codegen.Proofs.Pool
