import Einherjar.Lib.Run
import Einherjar.Lib.Fuel
import Einherjar.Lib.Traced
import Einherjar.Lib.TailQueue
import Einherjar.Lib.Queue
import Einherjar.Lib.SharedLinks
import Einherjar.Lib.LooseQueue
import Einherjar.Lib.DoublyLinked
import Einherjar.Lib.MovingWalk
import Einherjar.Lib.RingBuffer
import Einherjar.Lib.Pieces
import Einherjar.Lib.ZeroTail
import Einherjar.Lib.Page
import Einherjar.Lib.ByteMemory
import Einherjar.Lib.Words
import Einherjar.Lib.LinkWords
import Einherjar.Lib.BitString
import Einherjar.Lib.Numeral
import Einherjar.Lib.Pyparsing
import Einherjar.Arch.Machine
import Einherjar.Arch.CpuContext
import Einherjar.Arch.ContextFrames
import Einherjar.Arch.Transfer
import Einherjar.Arch.WaitingThread
import Einherjar.Arch.ContextSwitch
import Einherjar.Arch.IrqStubs
import Einherjar.Arch.Preemption
import Einherjar.Arch.Exceptions
import Einherjar.Arch.Interrupts
import Einherjar.Arch.InterruptRouting
import Einherjar.Threading.Thread
import Einherjar.Threading.Scheduler
import Einherjar.Threading.ReadyQueue
import Einherjar.Threading.KernelRun
import Einherjar.Threading.NoLostThread
import Einherjar.Threading.Assertions
import Einherjar.Threading.RoundRobin
import Einherjar.Threading.Registry
import Einherjar.Memory.PhysicalMemory
import Einherjar.Memory.HeapCalls
import Einherjar.Memory.Partition
import Einherjar.Memory.Conservation
import Einherjar.Memory.Completeness
import Einherjar.Memory.Reuse
import Einherjar.Memory.LiveChunks
import Einherjar.Memory.BootLayout
import Einherjar.Memory.ReservedMemory
import Einherjar.Memory.DescriptorMemory
import Einherjar.Memory.FlatHeap
import Einherjar.Memory.FlatLists
import Einherjar.Threading.ThreadMemory
import Einherjar.Threading.Creation
import Einherjar.Threading.FlatCreation
import Einherjar.Io.Vga
import Einherjar.Io.Screen
import Einherjar.Io.ScreenTail
import Einherjar.Io.ScreenCalls
import Einherjar.Io.Console
import Einherjar.Colorforth.Code
import Einherjar.Colorforth.Packing
import Einherjar.Colorforth.Interpreter
import Einherjar.Colorforth.Display
import Einherjar.Colorforth.BlockWalk
import Einherjar.Colorforth.StackSafety
import Einherjar.Colorforth.Encoder
import Einherjar.Colorforth.Decoders
import Einherjar.Colorforth.NameGroups
import Einherjar.Colorforth.CellPacking
import Einherjar.Colorforth.TextCells
import Einherjar.Colorforth.CellTexts
import Einherjar.Colorforth.LetterNumbers
import Einherjar.Colorforth.NameEncoding
import Einherjar.Colorforth.WordCodec
import Einherjar.Colorforth.Converter
import Einherjar.Colorforth.Placement
import Einherjar.Colorforth.Totext
import Einherjar.Colorforth.Watched
import Einherjar.Colorforth.StackFrame
import Einherjar.Colorforth.Editor
import Einherjar.Colorforth.BlockReads
import Einherjar.Colorforth.TypedCommands
import Einherjar.Colorforth.EditorScreen
import Einherjar.Colorforth.Dictionary
import Einherjar.Colorforth.TypedNames
import Einherjar.Colorforth.Names
import Einherjar.Colorforth.Numbers
import Einherjar.Colorforth.PrintedNumbers
import Einherjar.Colorforth.PrintedTokens
import Einherjar.Colorforth.PrintedBlocks
import Einherjar.Colorforth.Grammar
import Einherjar.Colorforth.ReadBlocks
import Einherjar.Colorforth.BlockBody
import Einherjar.Colorforth.Segments
import Einherjar.Colorforth.Reencoding
import Einherjar.Colorforth.FaithfulBlocks
import Einherjar.Colorforth.TextRoundTrip
import Einherjar.Colorforth.CellDisplay
import Einherjar.Colorforth.ValueDisplay
import Einherjar.Colorforth.ShortNumbers
import Einherjar.Colorforth.RoundTrip
import Einherjar.Memory.FreeTraversal
import Einherjar.Io.ConsoleRead
import Einherjar.Io.ConsoleWrite
import Einherjar.Colorforth.HtmlExporter
import Einherjar.Io.Itoa
import Einherjar.Io.Printf
import Einherjar.Colorforth.CodeIndex
import Einherjar.Colorforth.EncoderTermination
import Einherjar.Colorforth.HtmlBlocks
import Einherjar.Colorforth.Loads
import Einherjar.Colorforth.KeyBounds
import Einherjar.Threading.Starvation
import Einherjar.Threading.MachineRun
import Einherjar.Arch.DescriptorTable
import Einherjar.Threading.InterruptedCreation
