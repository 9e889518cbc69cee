import Rebench.Text.Pattern
import Rebench.Text.Ascii
import Rebench.Refine.Source
import Rebench.Refine.Emission
import Rebench.Machine.Run
import Rebench.Refine.Listing
import Rebench.Refine.Addresses
import Rebench.Machine.Assembly
import Rebench.Refine.ControlFlow
import Rebench.Perf.Source
import Rebench.Perf.Buffers
import Rebench.Perf.Printing
import Rebench.Bench.Attribution
import Rebench.Machine.Memory
import Rebench.Reloc.Source
import Rebench.Reloc.Protection
import Rebench.Reloc.Script
import Rebench.Reloc.Relocations
import Rebench.Reloc.Sections
import Rebench.Reloc.Placement
import Rebench.Heap.Source
import Rebench.Heap.ZeroPages
import Rebench.Post.Source
import Rebench.Post.Lines
import Rebench.Post.Pairing
import Rebench.Post.Edits
import Rebench.Machine.Operand
import Rebench.Post.Operands
import Rebench.Post.Addresses
import Rebench.Post.Uses
import Rebench.Bootstrap.Blocks
import Rebench.Heap.FreshBlocks
import Rebench.Bootstrap.HeapStart
import Rebench.Bench.GemmTable
import Rebench.Heap.Calloc
import Rebench.Perf.Headings
import Rebench.Reloc.Image
import Rebench.Post.Stale
import Rebench.Post.Translation
import Rebench.Disass.Rows
import Rebench.Perf.Events
import Rebench.Refine.Report
import Rebench.Reloc.SectionTable
import Rebench.Machine.Control
import Rebench.Machine.Instructions
import Rebench.Pipeline.Runs
import Rebench.Refine.Concatenation
import Rebench.Bootstrap.Isolation
import Rebench.Pipeline.Exits
import Rebench.Pipeline.Layout
import Rebench.Pipeline.Linking
import Rebench.Pipeline.Renaming
import Rebench.Pipeline.Addresses
import Rebench.Bench.Table
import Rebench.Pipeline.Overlap
import Rebench.Pipeline.Ranges
