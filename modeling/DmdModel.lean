import DmdModel.Runtime.Minfo.Basic
import DmdModel.Runtime.Minfo.Theorems.FindDeps
import DmdModel.Runtime.Minfo.Theorems.SortCtors
import DmdModel.Lib.OpenAddressing
import DmdModel.Runtime.NewAA.Basic
import DmdModel.Runtime.NewAA.Theorems.Table
import DmdModel.Runtime.NewAA.Theorems.Slots
import DmdModel.Lib.AssocMap
import DmdModel.Runtime.NewAA.Theorems.Resize
import DmdModel.Runtime.NewAA.Theorems.Operations
import DmdModel.Runtime.NewAA.Theorems.LazyValue
import DmdModel.Runtime.NewAA.Theorems.Copies
import DmdModel.Runtime.NewAA.Theorems.Refinement
import DmdModel.Lib.BoundaryTags
import DmdModel.Runtime.GC.Basic
import DmdModel.Runtime.GC.LargeObjectPool
import DmdModel.Lib.Lists
import DmdModel.Runtime.GC.Theorems.AllocPages
import DmdModel.Runtime.GC.Theorems.LargeObjectPool
import DmdModel.Runtime.GC.Theorems.LargeRuns
import DmdModel.Runtime.GC.Gcx
import DmdModel.Compiler.Backend.Block
import DmdModel.Compiler.Backend.BlockMerge
import DmdModel.Compiler.Backend.BlockOrder
import DmdModel.Compiler.Backend.DivCoeff
import DmdModel.Compiler.Backend.Semantics
import DmdModel.Compiler.Backend.LiveVars
import DmdModel.Compiler.Backend.Theorems.Accumlv
import DmdModel.Compiler.Backend.Theorems.Bltailmerge
import DmdModel.Compiler.Backend.Theorems.Merging
import DmdModel.Compiler.Backend.Theorems.DivCoeff
import DmdModel.Compiler.Backend.Theorems.Flowlv
import DmdModel.Compiler.Backend.Theorems.LiveVars
import DmdModel.Compiler.Backend.Theorems.Blident
import DmdModel.Compiler.Backend.Theorems.Compdfo
import DmdModel.Compiler.Backend.Theorems.Findloops
import DmdModel.Compiler.Backend.Theorems.Loops
import DmdModel.Runtime.RWMutex.Basic
import DmdModel.Runtime.RWMutex.Theorems.Exclusion
import DmdModel.Runtime.RWMutex.Theorems.Wakeups
import DmdModel.Compiler.Backend.Theorems.Blassertsplit
import DmdModel.Compiler.Backend.Theorems.BrcombineEdges
import DmdModel.Compiler.Backend.Theorems.Elimblks
import DmdModel.Compiler.Backend.Theorems.Brtailrecursion
import DmdModel.Compiler.Backend.Theorems.BrtailrecursionEdges
import DmdModel.Compiler.Backend.Theorems.FlowGraph
import DmdModel.Compiler.Backend.Cgelem.Eval
import DmdModel.Compiler.Root.BitArray
import DmdModel.Compiler.Root.StringTable
import DmdModel.Compiler.Root.Theorems.FindSlot
import DmdModel.Compiler.Root.Theorems.BitArray
import DmdModel.Compiler.Root.Theorems.StringTable
import DmdModel.Lib.ByteMemory
import DmdModel.Runtime.Container.HashTab
import DmdModel.Runtime.Container.Theorems.HashTab
import DmdModel.Runtime.Container.Theorems.Treap
import DmdModel.Runtime.GC.Bits
import DmdModel.Runtime.GC.BlockMeta
import DmdModel.Runtime.GC.PoolTable
import DmdModel.Runtime.GC.Theorems.Bits
import DmdModel.Runtime.GC.Theorems.BlockMeta
import DmdModel.Runtime.GC.Theorems.PoolTable
import DmdModel.Runtime.Utf.Apply
import DmdModel.Runtime.Utf.Theorems.Narrow
import DmdModel.Compiler.Backend.Cgelem.Theorems.Access
import DmdModel.Compiler.Backend.Cgelem.Theorems.Elcmp
import DmdModel.Compiler.Backend.Gother.Theorems.Ranges
import DmdModel.Runtime.GC.Theorems.Mark
import DmdModel.Compiler.Backend.Theorems.Cddiv
import DmdModel.Compiler.Root.Theorems.Utf
import DmdModel.Runtime.Dwarf.Theorems.LineProgram
import DmdModel.Compiler.Backend.Arm.Theorems.BitMasks
import DmdModel.Compiler.Backend.Cgelem.Theorems.LogLog
import DmdModel.Compiler.Backend.Theorems.Dvec
import DmdModel.Compiler.Backend.Theorems.DwarfEh
import DmdModel.Compiler.Constfold.Theorems.Cat
import DmdModel.Runtime.DwarfEh.Theorems.InFlight
import DmdModel.Runtime.Switch.Theorems.Switch
import DmdModel.Lib.Limbs
import DmdModel.Lib.NarrowWords
import DmdModel.Lib.Corners
import DmdModel.Compiler.Common.Theorems.Division
import DmdModel.Compiler.Constfold.Theorems.Integral
import DmdModel.Compiler.Constfold.Theorems.Complex
import DmdModel.Compiler.Intrange.Theorems.Cast
import DmdModel.Compiler.Intrange.Theorems.BitBounds
import DmdModel.Compiler.Intrange.Theorems.Bitwise
import DmdModel.Runtime.Bitop.Theorems.BitRange
import DmdModel.Runtime.Checkedint.Theorems.Overflow
import DmdModel.Runtime.Dwarf.Theorems.Leb128
import DmdModel.Compiler.Root.Theorems.Utf16
import DmdModel.Runtime.Parseoptions.Theorems.Parse
import DmdModel.Compiler.Common.Theorems.Blake3
import DmdModel.Compiler.Root.Theorems.Quoting
import DmdModel.Compiler.Root.Theorems.Expansion
import DmdModel.Compiler.Root.Theorems.Speller
import DmdModel.Runtime.Dwarf.Theorems.CompilationDirectory
import DmdModel.Runtime.Demangle.Theorems.BackRef
import DmdModel.Compiler.Intrange.Theorems.Tightness
import DmdModel.Runtime.Minfo.Theorems.CyclePath
import DmdModel.Compiler.Root.Theorems.Array
import DmdModel.Compiler.Root.Theorems.Aav
import DmdModel.Runtime.GC.Theorems.Gcx.Runs
import DmdModel.Runtime.GC.Theorems.LargeHeap
