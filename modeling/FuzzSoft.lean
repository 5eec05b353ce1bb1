import FuzzSoft.Lib.Span
import FuzzSoft.Mmu.Bus
import FuzzSoft.Mmu.Cow
import FuzzSoft.Mmu.CowInv
import FuzzSoft.Mmu.CowRefines
import FuzzSoft.Lib.Run
import FuzzSoft.Mmu.Lockstep
import FuzzSoft.Riscv.Inst
import FuzzSoft.Riscv.Csr
import FuzzSoft.Lib.Comp
import FuzzSoft.Riscv.Cpu
import FuzzSoft.Riscv.Exec
import FuzzSoft.Riscv.ExecSim
import FuzzSoft.Platform.Machine
import FuzzSoft.Riscv.Tlb
import FuzzSoft.Riscv.Coherent
import FuzzSoft.Mmu.Access
import FuzzSoft.Platform.PageTables
import FuzzSoft.Cov.Bitmap
import FuzzSoft.Lib.Shares
import FuzzSoft.Fuzz.Parallel
import FuzzSoft.Mmu.Dirty
import FuzzSoft.Platform.Snapshot
import FuzzSoft.Platform.MachineSim
import FuzzSoft.Fuzz.Case
import FuzzSoft.Fuzz.Cmplog
import FuzzSoft.Riscv.Frame
import FuzzSoft.Platform.LrSc
import FuzzSoft.Prog.Corpus
import FuzzSoft.Prog.Syscalls
import FuzzSoft.Prog.Lower
import FuzzSoft.Prog.Rng
import FuzzSoft.Prog.Generate
import FuzzSoft.Prog.Programs
import FuzzSoft.Prog.Mutate
import FuzzSoft.Prog.Leaves
import FuzzSoft.Platform.SmpEdges
import FuzzSoft.Platform.SmpClock
import FuzzSoft.Mmu.Stamp
import FuzzSoft.San.Hooks
import FuzzSoft.San.Alloc
import FuzzSoft.Fuzz.RunCase
import FuzzSoft.Fuzz.Stamps
import FuzzSoft.Riscv.Retire
import FuzzSoft.Vec.System
import FuzzSoft.Fuzz.Returns
import FuzzSoft.Fuzz.Minimize
import FuzzSoft.Prog.Loaded
import FuzzSoft.Prog.Layout
import FuzzSoft.Riscv.Privilege
import FuzzSoft.Riscv.Granted
import FuzzSoft.Platform.Cells
import FuzzSoft.Platform.Faults
import FuzzSoft.Platform.GoldenWalk
import FuzzSoft.Riscv.Ordinary
import FuzzSoft.Platform.FastAccess
import FuzzSoft.Mmu.Untainted
import FuzzSoft.Platform.Instrumented
import FuzzSoft.Lib.Packed
import FuzzSoft.Vec.Mmu
import FuzzSoft.Vec.Lanes
import FuzzSoft.Vec.Independent
import FuzzSoft.Vec.Cpu
import FuzzSoft.Vec.Step
import FuzzSoft.Vec.Lockstep
import FuzzSoft.Riscv.Transparent
import FuzzSoft.Fuzz.Replay
import FuzzSoft.Lib.Heap
import FuzzSoft.San.Heap
import FuzzSoft.Vec.Scalar
import FuzzSoft.Lib.Quarantine
import FuzzSoft.San.Quarantine
import FuzzSoft.San.Refusal
import FuzzSoft.Riscv.TrapReturn
import FuzzSoft.Mmu.CowKeeps
import FuzzSoft.Vec.Batch
import FuzzSoft.Platform.Reservation
import FuzzSoft.Platform.BusFaults
import FuzzSoft.Platform.TrapValue
import FuzzSoft.Lib.Checked
import FuzzSoft.Riscv.Checked
import FuzzSoft.Platform.Overflow
import FuzzSoft.Platform.Shadow
import FuzzSoft.Platform.TaintCopy
import FuzzSoft.Lib.Pairing
import FuzzSoft.San.Pairing
import FuzzSoft.Platform.Twins
import FuzzSoft.Riscv.HartTwins
import FuzzSoft.Platform.TaintFlow
import FuzzSoft.Platform.TaintStores
import FuzzSoft.Platform.TaintSound
import FuzzSoft.Prog.Skeleton
import FuzzSoft.Riscv.TaintBytes
import FuzzSoft.Prog.Slots
import FuzzSoft.Lib.Cut
import FuzzSoft.Prog.Substitution
import FuzzSoft.Prog.Structs
import FuzzSoft.Prog.Image
import FuzzSoft.Prog.Conforms
import FuzzSoft.Prog.CStructs
import FuzzSoft.Fuzz.Subset
import FuzzSoft.Fuzz.Seeds
import FuzzSoft.Lib.Advance
import FuzzSoft.Lib.Catalog
import FuzzSoft.Prog.CorpusDir
import FuzzSoft.Lib.Words
import FuzzSoft.Fuzz.Signature
import FuzzSoft.Lib.Guarded
import FuzzSoft.Elf.Parse
import FuzzSoft.Elf.Load
import FuzzSoft.Platform.Mapping
import FuzzSoft.Lib.Pieces
import FuzzSoft.Elf.Build
import FuzzSoft.Mmu.SpanPaths
import FuzzSoft.Lib.Tally
import FuzzSoft.Lib.Floor
import FuzzSoft.Cov.Attribution
import FuzzSoft.Lib.X86
import FuzzSoft.Lib.Fragments
import FuzzSoft.Jit.Emit
import FuzzSoft.Jit.Chain
import FuzzSoft.Jit.Emitted
import FuzzSoft.Riscv.View
import FuzzSoft.Jit.Follows
import FuzzSoft.Jit.Access
import FuzzSoft.Jit.Steps
import FuzzSoft.Jit.Compiled
import FuzzSoft.Jit.Jumps
import FuzzSoft.Jit.Machines
import FuzzSoft.Lib.Fields
import FuzzSoft.Riscv.Asm
