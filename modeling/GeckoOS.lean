import GeckoOS.Lib.Runs
import GeckoOS.Lib.CInt
import GeckoOS.Lib.Bytes
import GeckoOS.Lib.Chain
import GeckoOS.Lib.Scan
import GeckoOS.Lib.Programs
import GeckoOS.Boot.Multiboot2
import GeckoOS.Boot.Main
import GeckoOS.Mem.PhysicalMem
import GeckoOS.Mem.BlockBitmap
import GeckoOS.Mem.BlockRuns
import GeckoOS.Mem.MemoryInit
import GeckoOS.Mem.MaxAddress
import GeckoOS.Mem.Kmalloc
import GeckoOS.Mem.HeapTiling
import GeckoOS.Mem.HeapRuns
import GeckoOS.Mem.FreeList
import GeckoOS.Mem.Allocators
import GeckoOS.Mem.UsableRam
import GeckoOS.Mem.Paging
import GeckoOS.Mem.PageTree
import GeckoOS.Mem.PageMap
import GeckoOS.Net.Stack
import GeckoOS.Net.Bounds
import GeckoOS.Fs.Fat32
import GeckoOS.Fs.Image
import GeckoOS.Fs.Chains
import GeckoOS.Fs.Directory
import GeckoOS.Fs.Reading
import GeckoOS.Fs.Layout
import GeckoOS.Fs.Operations
import GeckoOS.Fs.Frames
import GeckoOS.Fs.Append
import GeckoOS.Fs.Isolation
import GeckoOS.Fs.LongReads
import GeckoOS.Fs.Names
import GeckoOS.Fs.WellFormed
import GeckoOS.Fs.RoundTrip
import GeckoOS.Fs.Atomicity
import GeckoOS.Fs.Lookups
import GeckoOS.Gk.State
import GeckoOS.Gk.Lexer
import GeckoOS.Gk.LexRoundTrip
import GeckoOS.Gk.Parser
import GeckoOS.Gk.Syntax
import GeckoOS.Gk.ParserSteps
import GeckoOS.Gk.ExprRoundTrip
import GeckoOS.Gk.Printer
import GeckoOS.Gk.StmtRoundTrip
import GeckoOS.Gk.SourceText
import GeckoOS.Gk.ParserCases
import GeckoOS.Gk.ParserTrees
import GeckoOS.Gk.ParserWalk
import GeckoOS.Gk.Interp
import GeckoOS.Gk.InterpSteps
import GeckoOS.Gk.ControlFlow
import GeckoOS.Gk.Locals
import GeckoOS.Gk.Refinement
import GeckoOS.Drivers.E1000
import GeckoOS.Drivers.Keyboard
import GeckoOS.Drivers.ReceiveRing
import GeckoOS.Drivers.TransmitRing
import GeckoOS.Editor.Buffer
import GeckoOS.Editor.TwoLists
import GeckoOS.Fs.Mirror
import GeckoOS.Gk.TokenStream
import GeckoOS.Net.Leaks
import GeckoOS.Terminal.Console
import GeckoOS.Terminal.Redraw
import GeckoOS.Fs.UniqueNames
import GeckoOS.Mem.AddressForest
import GeckoOS.Mem.FrameSupply
import GeckoOS.Mem.IdentityMap
import GeckoOS.Fs.Malformed
import GeckoOS.Fs.Mount
import GeckoOS.Fs.SectorSize
import GeckoOS.Fs.Writing
import GeckoOS.Fs.Files
import GeckoOS.Fs.Commands
import GeckoOS.Gk.Grammar
import GeckoOS.Gk.ParserGrammar
import GeckoOS.Mem.BlockSearch
import GeckoOS.Mem.Reservations
import GeckoOS.Mem.InitCount
import GeckoOS.Mem.HeapLimits
import GeckoOS.Mem.MmioWindows
import GeckoOS.Gk.IntText
import GeckoOS.Lib.Queries
import GeckoOS.Gk.Divisions
import GeckoOS.Gk.Activations
import GeckoOS.Gk.CallReads
import GeckoOS.Gk.Jumps
import GeckoOS.Gk.CallValues
import GeckoOS.Gk.Arity
import GeckoOS.Lib.Log
import GeckoOS.Lib.Unroll
import GeckoOS.Net.Checksum
import GeckoOS.Net.ArpCache
import GeckoOS.Net.Replies
import GeckoOS.Drivers.Pci
import GeckoOS.Drivers.PciBuses
import GeckoOS.Lib.Levels
import GeckoOS.Gk.Whitespace
import GeckoOS.Gk.Indentation
import GeckoOS.Gk.TextRange
import GeckoOS.Lib.Lines
import GeckoOS.Editor.VerticalMoves
import GeckoOS.Editor.KeyLoop
import GeckoOS.Terminal.Accesses
import GeckoOS.Lib.Text
import GeckoOS.Terminal.Input
import GeckoOS.Terminal.LineEditor
import GeckoOS.Terminal.EchoedInput
import GeckoOS.Lib.Forest
import GeckoOS.Drivers.PciWalk
import GeckoOS.Lib.Last
import GeckoOS.Drivers.AcpiTables
import GeckoOS.Drivers.Madt
import GeckoOS.Elf.Loader
import GeckoOS.Elf.FileBounds
import GeckoOS.Editor.Files
import GeckoOS.Process.Queue
import GeckoOS.Terminal.Visible
import GeckoOS.Drivers.Mouse
import GeckoOS.Terminal.MouseCursor
import GeckoOS.Lib.Gauge
import GeckoOS.Gk.ParserCursor
import GeckoOS.Gk.WideDefs
import GeckoOS.Net.Frames
import GeckoOS.Net.Segment
import GeckoOS.Net.Delivery
import GeckoOS.Net.Pings
import GeckoOS.Lib.Signals
import GeckoOS.Gk.Language
import GeckoOS.Gk.LanguageState
import GeckoOS.Gk.LanguageExprs
import GeckoOS.Gk.LanguageMeaning
import GeckoOS.Gk.EndToEnd
import GeckoOS.Lib.Contracts
import GeckoOS.Gk.Termination
import GeckoOS.Lib.Machines
import GeckoOS.Fs.Catalogue
import GeckoOS.Fs.CatalogueCalls
import GeckoOS.Fs.CatalogueRuns
import GeckoOS.Fs.Remount
import GeckoOS.Shell.FileCommands
import GeckoOS.Shell.Programs
import GeckoOS.Drivers.Ata
import GeckoOS.Drivers.Drives
