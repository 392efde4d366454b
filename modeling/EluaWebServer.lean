import EluaWebServer.Lib.Transition
import EluaWebServer.Rpc.Exact
import EluaWebServer.Rfs.Transparent
import EluaWebServer.Sermux.RoundTrip
import EluaWebServer.Sermux.Link
import EluaWebServer.Sermux.Resync
import EluaWebServer.Lib.Chain
import EluaWebServer.Lib.Bitfield
import EluaWebServer.Lib.Memory
import EluaWebServer.Lib.Packed
import EluaWebServer.Salloc.Heap
import EluaWebServer.Salloc.Header
import EluaWebServer.Salloc.Blocks
import EluaWebServer.Salloc.Regions
import EluaWebServer.Salloc.Invariant
import EluaWebServer.Salloc.Realloc
import EluaWebServer.Salloc.Runs
import EluaWebServer.Salloc.Requests
import EluaWebServer.Devman.Table
import EluaWebServer.Charbuf.Buf
import EluaWebServer.Charbuf.Slots
import EluaWebServer.Charbuf.Capacity
import EluaWebServer.Charbuf.Interrupts
import EluaWebServer.Interrupt.Queue
import EluaWebServer.Interrupt.System
import EluaWebServer.Interrupt.Invariant
import EluaWebServer.Interrupt.Delivery
import EluaWebServer.Interrupt.Failing
import EluaWebServer.Romfs.Image
import EluaWebServer.Romfs.Lookup
import EluaWebServer.Romfs.Descriptors
import EluaWebServer.Romfs.Mkfs
import EluaWebServer.Lib.Bytes
import EluaWebServer.Lib.Ieee
import EluaWebServer.LuaRpc.Number
import EluaWebServer.LuaRpc.Value
import EluaWebServer.LuaRpc.Variable
import EluaWebServer.LuaRpc.Writing
import EluaWebServer.LuaRpc.Reading
import EluaWebServer.LuaRpc.RoundTrip
import EluaWebServer.LuaRpc.Dispatch
import EluaWebServer.LuaRpc.Reply
import EluaWebServer.Httpd.Expansion
import EluaWebServer.Lib.Json
import EluaWebServer.Lib.Decimal
import EluaWebServer.LuaJson.Stringify
import EluaWebServer.LuaJson.Validity
import EluaWebServer.Devman.Descriptors
import EluaWebServer.Rfs.Memory
import EluaWebServer.Httpd.Clients
import EluaWebServer.Lib.Crc
import EluaWebServer.Xmodem.Record
import EluaWebServer.Xmodem.Receive
import EluaWebServer.Uip.Appcall
import EluaWebServer.Uip.Send
import EluaWebServer.Uip.Terminal
import EluaWebServer.Uip.Receive
import EluaWebServer.Rfs.Pairing
import EluaWebServer.Lib.Rounding
import EluaWebServer.Lib.Stream
import EluaWebServer.LuaChunk.Proto
import EluaWebServer.LuaChunk.Dump
import EluaWebServer.LuaChunk.Undump
import EluaWebServer.LuaChunk.Format
import EluaWebServer.LuaChunk.Loading
import EluaWebServer.LuaChunk.Size
import EluaWebServer.LuaChunk.Fidelity
import EluaWebServer.Httpd.Output
import EluaWebServer.LuaRpc.Path
import EluaWebServer.Httpd.Params
import EluaWebServer.Httpd.RunElua
import EluaWebServer.Httpd.Query
import EluaWebServer.Vtmr.Timers
import EluaWebServer.Vtmr.Single
import EluaWebServer.Vtmr.Arming
import EluaWebServer.Vtmr.Cyclic
import EluaWebServer.Vtmr.History
import EluaWebServer.Vtmr.Match
import EluaWebServer.Uip.Psock
import EluaWebServer.Httpd.Request
import EluaWebServer.Rfs.Bounds
import EluaWebServer.LuaJson.Graph
import EluaWebServer.LuaJson.Cycles
import EluaWebServer.Adc.Device
import EluaWebServer.Adc.Calls
import EluaWebServer.Adc.Sequence
import EluaWebServer.Adc.Frames
import EluaWebServer.Adc.Pointers
import EluaWebServer.Adc.Request
import EluaWebServer.Adc.Serving
import EluaWebServer.Adc.Fetching
import EluaWebServer.Adc.Acquisition
import EluaWebServer.Newlib.Sbrk
import EluaWebServer.Sermux.Indexing
import EluaWebServer.Charbuf.Resize
import EluaWebServer.Lib.StringArray
import EluaWebServer.Rfs.Fullname
import EluaWebServer.Rfs.Chunks
import EluaWebServer.Rfs.ClientBounds
import EluaWebServer.LuaRpc.Nesting
import EluaWebServer.LuaRpc.Sending
import EluaWebServer.LuaRpc.AllOrNothing
import EluaWebServer.Newlib.Refused
import EluaWebServer.Bitarray.Elements
import EluaWebServer.Devman.Resolvers
import EluaWebServer.Bitarray.Store
import EluaWebServer.Bitarray.Listing
import EluaWebServer.Bitarray.New
import EluaWebServer.Bitarray.RoundTrip
import EluaWebServer.LuaJson.Quote
import EluaWebServer.Shell.Recv
import EluaWebServer.Shell.Tokens
import EluaWebServer.Linenoise.Prompt
import EluaWebServer.Linenoise.Frame
import EluaWebServer.LuaJson.ReadString
import EluaWebServer.LuaJson.Parse
import EluaWebServer.LuaJson.ParseBounds
import EluaWebServer.Lib.Slots
import EluaWebServer.Newlib.Fcntl
import EluaWebServer.Semifs.Descriptors
import EluaWebServer.LuaRotable.Iteration
import EluaWebServer.Adc.Smoothing
import EluaWebServer.Adc.Bulk
import EluaWebServer.Adc.Table
import EluaWebServer.Lib.Scanner
import EluaWebServer.Uip.Telnet
import EluaWebServer.Lib.Window
import EluaWebServer.Mmcfs.Open
import EluaWebServer.Newlib.StdTcp
import EluaWebServer.Newlib.Genstd
import EluaWebServer.Vtmr.Difference
import EluaWebServer.LuaAlloc.Limit
import EluaWebServer.Utils.DuffDevice
import EluaWebServer.Uart.Read
import EluaWebServer.Index.Names
import EluaWebServer.Tcp.InOrder
import EluaWebServer.Lib.OnesComplement
import EluaWebServer.Tcp.Packet
import EluaWebServer.Tcp.Options
import EluaWebServer.Tcp.Timeout
import EluaWebServer.LuaTable.Border
