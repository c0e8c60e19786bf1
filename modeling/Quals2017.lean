import Quals2017.Reeses.Lzss.RoundTrip
import Quals2017.Reeses.Lzss.Guest
import Quals2017.Reeses.Server.Rc4Coprocessor
import Quals2017.Reeses.Server.MmuFlat
import Quals2017.Reeses.Server.Mmu
import Quals2017.Reeses.Server.MmuHistory
import Quals2017.Reeses.Server.Mmap
import Quals2017.Lib.LittleEndian
import Quals2017.Lib.LockStep
import Quals2017.Reeses.Server.CpuCore
import Quals2017.Reeses.Server.Instructions
import Quals2017.Reeses.Server.Cpu
import Quals2017.Reeses.Server.DelaySlot
import Quals2017.Reeses.Meb.Format
import Quals2017.Reeses.Meb.Loader
import Quals2017.Reeses.Meb.Builder
import Quals2017.Reeses.Meb.RoundTrip
import Quals2017.Reeses.Meb.ZeroRegister
import Quals2017.Godzilla.BigInt
import Quals2017.Godzilla.Divide
import Quals2017.Godzilla.Power
import Quals2017.Faggin.Mcs4
import Quals2017.Faggin.Frame
import Quals2017.Faggin.Handlers
import Quals2017.Faggin.CallStack
import Quals2017.Faggin.Bounds
import Quals2017.Faggin.Cycles
import Quals2017.Babyint.Receiver
import Quals2017.Babyint.Text
import Quals2017.Lib.Interleave
import Quals2017.Babyint.Reassembly
import Quals2017.Godzilla.StreamData
import Quals2017.Godzilla.StreamQueue
import Quals2017.Lib.Bezout
import Quals2017.Lib.Montgomery
import Quals2017.Godzilla.Rsa
import Quals2017.Godzilla.ModExp
import Quals2017.Godzilla.Cipher
import Quals2017.Godzilla.Envelope
import Quals2017.Godzilla.EnvelopeRoundTrip
import Quals2017.Lib.ByteMem
import Quals2017.Lib.Linked
import Quals2017.Lib.Blocks
import Quals2017.Babyint.Malloc
import Quals2017.Babyint.MallocBlocks
import Quals2017.Babyint.MallocShape
import Quals2017.Babyint.MallocTake
import Quals2017.Babyint.MallocRuns
import Quals2017.Pegem.Subleq
import Quals2017.Empanada.Empma
import Quals2017.Empanada.EmpmaRuns
import Quals2017.Empanada.Proto
import Quals2017.Empanada.ProtoNodes
import Quals2017.Empanada.ProtoRuns
import Quals2017.Lib.Tiles
import Quals2017.Divided.Heap
import Quals2017.Divided.Buckets
import Quals2017.Divided.Calls
import Quals2017.Divided.HeapRuns
import Quals2017.Liberty.Compress
import Quals2017.Liberty.Decompress
import Quals2017.Liberty.Layers
import Quals2017.Liberty.Phases
import Quals2017.Liberty.RoundTrip
import Quals2017.Lib.Cbc
import Quals2017.Lib.Chunks
import Quals2017.Liberty.Ratchet
import Quals2017.Lib.Capped
import Quals2017.Hackermud.World
import Quals2017.Hackermud.Commands
import Quals2017.Hackermud.Places
import Quals2017.Hackermud.Moves
import Quals2017.Hackermud.Accounts
import Quals2017.Hackermud.Leaving
import Quals2017.Reeses.Server.TableBounds
import Quals2017.Reeses.Server.Dispatch
import Quals2017.Reeses.Server.HostFaults
import Quals2017.Reeses.Meb.Loaded
import Quals2017.Lib.Masks
import Quals2017.Reeses.Server.Unaligned
import Quals2017.Reeses.Lzss.OutputBound
import Quals2017.Jargon.Machine
import Quals2017.Jargon.Disassembler
import Quals2017.Awsno.Stores
import Quals2017.Awsno.ListLen
import Quals2017.Divided.Payloads
import Quals2017.Divided.Service
import Quals2017.Lib.Outcome
import Quals2017.Divided.Progress
import Quals2017.Divided.Revenue
import Quals2017.Godzilla.Arithmetic
import Quals2017.Godzilla.DivAssign
import Quals2017.Lib.Decimal
import Quals2017.Godzilla.Numerals
import Quals2017.Godzilla.ServerStream
import Quals2017.Lib.XorShift
import Quals2017.Reeses.Server.Prng
import Quals2017.Reeses.Sla.Rc4
import Quals2017.Lib.PackedBytes
import Quals2017.Babyint.CopyBounds
import Quals2017.Babyint.HexBounds
import Quals2017.Babyint.MallocSizes
import Quals2017.Babyint.DoubleList
import Quals2017.Babyint.DoubleListCalls
import Quals2017.Babyint.DoubleListRuns
import Quals2017.Lib.Recurrence
import Quals2017.Liberty.LayerRuns
import Quals2017.Empanada.SendMessage
import Quals2017.Pegem.Cells
import Quals2017.Lib.Nibbles
import Quals2017.Faggin.RamChars
import Quals2017.Faggin.Transfer
import Quals2017.Faggin.Addition
import Quals2017.Liberty.AesResponse
import Quals2017.Liberty.DictBounds
import Quals2017.Liberty.DictOverrun
import Quals2017.Lib.Wire
import Quals2017.Hackermud.Outcome
import Quals2017.Hackermud.Runs
import Quals2017.Hackermud.Persistence
import Quals2017.Hackermud.Records
import Quals2017.Hackermud.Once
import Quals2017.Hackermud.Logins
import Quals2017.Hackermud.Relogin
import Quals2017.Lib.Serial
import Quals2017.Faggin.Shifts
import Quals2017.Faggin.Subtraction
import Quals2017.Faggin.DecimalAddition
import Quals2017.Divided.Tea
import Quals2017.Divided.Numbers
import Quals2017.Divided.Stranded
import Quals2017.Awsno.Updates
import Quals2017.Lib.XorSwap
import Quals2017.Nekisahloth.Request
import Quals2017.Nekisahloth.Cipher
import Quals2017.Divided.Indices
import Quals2017.Lib.Turns
import Quals2017.Jargon.Listing
import Quals2017.Lib.Related
import Quals2017.Jargon.Cells
import Quals2017.Insanity.Interpreter
import Quals2017.Insanity.Operands
import Quals2017.Lib.Exchange
import Quals2017.Leo.Sort
import Quals2017.Leo.Download
import Quals2017.Hackermud.Scripts
import Quals2017.Hackermud.ExitDrops
import Quals2017.Hackermud.BitWriter
import Quals2017.Lib.Cancel
import Quals2017.Hackermud.Proofs
import Quals2017.Lib.Powers
import Quals2017.Hackermud.Levels
import Quals2017.Jargon.Numbers
import Quals2017.Lib.Digits
import Quals2017.Hackermud.Solver
import Quals2017.Hackermud.Challenge
import Quals2017.Hackermud.Mersenne
import Quals2017.Hackermud.Ranges
import Quals2017.Hackermud.Links
import Quals2017.Hackermud.Lists
import Quals2017.Liberty.Device
import Quals2017.Liberty.Delivery
import Quals2017.Pegem.PegGame
import Quals2017.Pegem.PegRuns
import Quals2017.Crackme.Generator
import Quals2017.Hackermud.Serving
import Quals2017.Hackermud.Sessions
import Quals2017.Hackermud.Rounds
