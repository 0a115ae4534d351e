import Nib.Infra.BitSet
import Nib.Infra.Dataflow
import Nib.Infra.Simulation
import Nib.Infra.Bytes
import Nib.Infra.Printf
import Nib.Bind.Preg
import Nib.Bind.Ir
import Nib.Bind.Cfg
import Nib.Bind.Liveness
import Nib.Bind.Igraph
import Nib.Bind.Alloc
import Nib.Bind.Params
import Nib.Infra.Stack
import Nib.Bind.Interrupt
import Nib.Bind.Spec.Interrupt
import Nib.Bind.Properties.Interrupt
import Nib.Bind.Ds
import Nib.Bind.Spec.Ds
import Nib.Bind.Properties.Ds
import Nib.Bind.Modules
import Nib.Bind.Place
import Nib.Bind.Spec.Live
import Nib.Bind.Spec.Params
import Nib.Bind.Spec.Placement
import Nib.Bind.Spec.Expansion
import Nib.Bind.Properties.Cfg
import Nib.Bind.Properties.Liveness
import Nib.Bind.Properties.Igraph
import Nib.Bind.Properties.Alloc
import Nib.Bind.Descriptor
import Nib.Bind.Properties.Descriptor
import Nib.Bind.Properties.Params
import Nib.Bind.Properties.Placement
import Nib.Bind.Properties.Expansion
import Nib.Bind.Globals
import Nib.Bind.Labels
import Nib.Bind.Spec.Labels
import Nib.Bind.Properties.Labels
import Nib.Asm.Text
import Nib.Asm.Lexer
import Nib.Asm.Symbols
import Nib.Asm.Parse
import Nib.Asm.Encode
import Nib.Asm.Instr
import Nib.Asm.Line
import Nib.Asm.Spec.Forms
import Nib.Asm.Spec.Data
import Nib.Asm.Spec.Segments
import Nib.Asm.Properties.Numerals
import Nib.Asm.Properties.Data
import Nib.Asm.Properties.Parse
import Nib.Asm.Properties.Length
import Nib.Asm.Properties.Symbols
import Nib.Asm.Properties.Layout
import Nib.Asm.Properties.Segments
import Nib.Asm.IntelHex
import Nib.Asm.Spec.IntelHex
import Nib.Asm.Properties.IntelHex
import Nib.Asm.Spec.WellFormed
import Nib.Asm.Properties.WellFormed
import Nib.Asm.Spec.Decode
import Nib.Asm.Spec.Override
import Nib.Asm.Properties.Override
import Nib.Asm.Properties.Decode
import Nib.Asm.Spec.Operation
import Nib.Asm.Properties.Operation
import Nib.Asm.Disassemble
import Nib.Asm.Spec.Duplicates
import Nib.Asm.Properties.Duplicates
import Nib.Asm.Spec.Reach
import Nib.Asm.Properties.Reach
import Nib.Asm.Spec.Branch
import Nib.Asm.Properties.Branch
import Nib.Asm.Spec.Disassemble
import Nib.Compile.Ast
import Nib.Compile.Nir
import Nib.Compile.State
import Nib.Compile.Types
import Nib.Compile.Memory
import Nib.Compile.Expr
import Nib.Compile.Assign
import Nib.Compile.Stmt
import Nib.Compile.Global
import Nib.Bind.Spec.Globals
import Nib.Bind.Properties.Globals
import Nib.Compile.Nif
import Nib.Compile.Spec.Interface
import Nib.Compile.Properties.Nif
import Nib.Compile.Properties.Interface
import Nib.Bind.Consts
import Nib.Bind.Spec.Strings
import Nib.Bind.Data
import Nib.Bind.Spec.Data
import Nib.Bind.Properties.Strings
import Nib.Compile.Spec.Lines
import Nib.Compile.Spec.Source
import Nib.Compile.Spec.Machine
import Nib.Compile.Spec.Variables
import Nib.Compile.Properties.Outline
import Nib.Compile.Properties.Place
import Nib.Compile.Properties.Control
import Nib.Compile.Properties.Source
import Nib.Compile.Properties.Scopes
import Nib.Compile.Properties.Growing
import Nib.Compile.Spec.Calls
import Nib.Compile.Properties.Calls
import Nib.Compile.Spec.FarValues
import Nib.Compile.Properties.FarValues
import Nib.Bind.Properties.Data
import Nib.Infra.CopyPass
import Nib.Bind.DataRefs
import Nib.Bind.Properties.DataRefs
import Nib.Bind.Remat
import Nib.Bind.Spec.Remat
import Nib.Bind.Properties.Remat
import Nib.Bind.Transfer
import Nib.Bind.Spec.Transfer
import Nib.Bind.Properties.Transfer
import Nib.Bind.Fold
import Nib.Bind.Spec.Fold
import Nib.Bind.Properties.Fold
import Nib.Build.Driver
import Nib.Build.Spec.UpToDate
import Nib.Build.Properties.UpToDate
import Nib.Build.Contents
import Nib.Build.Properties.Incremental
import Nib.Infra.Run
import Nib.Build.Table
import Nib.Build.Properties.Order
import Nib.Build.Scan
import Nib.Build.Spec.Scan
import Nib.Build.Properties.Scan
import Nib.Asm.Properties.Disassemble
import Nib.Asm.Properties.Tokens
import Nib.Asm.Spec.Closed
import Nib.Asm.Properties.Closed
import Nib.Asm.Spec.DbList
import Nib.Asm.Properties.DbList
import Nib.Infra.MoveSchedule
import Nib.Bind.Moves
import Nib.Bind.Spec.Moves
import Nib.Bind.Properties.Moves
import Nib.Bind.Properties.PlannedMoves
import Nib.Bind.Returns
import Nib.Bind.Spec.Returns
import Nib.Bind.Properties.Returns
import Nib.Bind.Shift
import Nib.Bind.Spec.Shift
import Nib.Bind.Properties.ShiftMoves
import Nib.Bind.Properties.Shift
import Nib.Bind.Extend
import Nib.Bind.Spec.Extend
import Nib.Bind.Properties.Extend
import Nib.Bind.PortIo
import Nib.Bind.Spec.PortIo
import Nib.Bind.Properties.PortExact
import Nib.Bind.Alu
import Nib.Bind.Spec.Alu
import Nib.Bind.Properties.Alu
import Nib.Compile.Properties.FlagChecks
import Nib.Compile.Properties.Folding
import Nib.Bind.Properties.Flow
import Nib.Bind.Properties.Entry
import Nib.Bind.Properties.Widths
import Nib.Bind.Properties.FlagInsns
import Nib.Asm.Properties.Image
import Nib.Compile.Properties.ConstEval
import Nib.Compile.Properties.Layout
import Nib.Bind.Properties.Bound
import Nib.Bind.Properties.FreeRegs
import Nib.Compile.Properties.Elements
import Nib.Compile.Properties.Addresses
import Nib.Bind.Properties.Spill
import Nib.Bind.Properties.Branch
