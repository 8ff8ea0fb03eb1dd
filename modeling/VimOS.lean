import VimOS.Library.Run
import VimOS.Library.LinkedChain
import VimOS.Library.IntervalList
import VimOS.Library.PhaseRing
import VimOS.Library.Prog
import VimOS.Library.PageWalk
import VimOS.Library.PageTree
import VimOS.Library.ByteMemory
import VimOS.Library.StackMachine
import VimOS.Library.Signed32
import VimOS.Memory.MemList
import VimOS.Memory.FreeList
import VimOS.Memory.FreeWalk
import VimOS.Memory.Links
import VimOS.Memory.Coalesced
import VimOS.Memory.AllocRuns
import VimOS.Memory.AllocSafety
import VimOS.Memory.FirstFit
import VimOS.Memory.FreePages
import VimOS.Memory.FreeSafety
import VimOS.Memory.MemoryMap
import VimOS.Memory.Runs
import VimOS.Memory.InitMem
import VimOS.Memory.Reclaim
import VimOS.Memory.InitList
import VimOS.Memory.Served
import VimOS.Paging.Address
import VimOS.Paging.SetupPageMaps
import VimOS.Paging.PageCount
import VimOS.Paging.TreeUpdate
import VimOS.Paging.SetupRuns
import VimOS.Paging.DemandMapping
import VimOS.Paging.SharedRights
import VimOS.Paging.PageFault
import VimOS.Boot.PageTables
import VimOS.Boot.AddressMap
import VimOS.Boot.Reservations
import VimOS.Boot.KernelMap
import VimOS.Boot.LoadSegments
import VimOS.Boot.ElfHeaders
import VimOS.Interrupt.ExceptionStubs
import VimOS.Interrupt.Gates
import VimOS.Interrupt.Segments
import VimOS.Interrupt.ExceptionStack
import VimOS.Interrupt.Pic
import VimOS.Interrupt.Apic
import VimOS.Interrupt.InitInterrupt
import VimOS.Pci.Scan
import VimOS.Pci.Effects
import VimOS.Xhci.Trb
import VimOS.Xhci.Capabilities
import VimOS.Xhci.Scratchpad
import VimOS.Xhci.Slots
import VimOS.Xhci.Ring
import VimOS.Xhci.RingInv
import VimOS.Xhci.WriteRing
import VimOS.Xhci.RingDelivery
import VimOS.Xhci.Keyboard
import VimOS.Xhci.EventRing
import VimOS.Xhci.EventInv
import VimOS.Xhci.EventDelivery
import VimOS.Xhci.Enumeration
import VimOS.Xhci.PortStep
import VimOS.Xhci.PortRuns
import VimOS.Xhci.SlotPairing
import VimOS.Xhci.InputContext
import VimOS.Xhci.ControlTransfer
import VimOS.Xhci.DescriptorRead
import VimOS.Xhci.DescriptorBounds
import VimOS.Xhci.EndpointContexts
import VimOS.Xhci.ConfigurationParse
import VimOS.Xhci.MainLoop
import VimOS.Xhci.KeyboardFound
import VimOS.Xhci.EventEffects
import VimOS.Xhci.KeyReports
import VimOS.Xhci.StartUp
import VimOS.Xhci.StartUpSteps
import VimOS.Xhci.StartUpRuns
import VimOS.Stdlib.Number
import VimOS.Stdlib.Vsprintf
import VimOS.Stdlib.Format
import VimOS.Stdlib.SignedText
import VimOS.Console.Printk
import VimOS.Console.FrameBuffer
import VimOS.Console.Scroll
import VimOS.Console.PutString
import VimOS.Stdlib.Strings
import VimOS.Stdlib.Memcmp
import VimOS.Console.PutConsole
import VimOS.Console.CursorRuns
import VimOS.Console.Inputs
import VimOS.Console.PrintkRuns
import VimOS.Console.Picture
import VimOS.Console.PixelFormat
