import Blockbench.Lib.Machine
import Blockbench.Lib.TicketPool
import Blockbench.Lib.Extent
import Blockbench.Lib.CInt
import Blockbench.Lib.Bytes
import Blockbench.Iob.Types
import Blockbench.Iob.Iodata
import Blockbench.Iob.Details
import Blockbench.Iob.Percentile
import Blockbench.Iob.LeastBucket
import Blockbench.Iofill.Output
import Blockbench.Ioload.Stats
import Blockbench.Ioload.Report
import Blockbench.Ioload.Output
import Blockbench.Ioload.Totals
import Blockbench.Iob.SameReport
import Blockbench.Iofill.Params
import Blockbench.Iofill.Init
import Blockbench.Iofill.IoThread
import Blockbench.Iofill.Fill
import Blockbench.Iofill.Region
import Blockbench.Iofill.Cover
import Blockbench.Iofill.DefaultCount
import Blockbench.Iofill.Stop
import Blockbench.Iofill.Inside
import Blockbench.Iofill.Aligned
import Blockbench.Iofill.Divisors
import Blockbench.Iofill.Length
import Blockbench.Lib.Stride
import Blockbench.Iofill.Pass
import Blockbench.Iofill.Skip
import Blockbench.Lib.Lap
import Blockbench.Iofill.Seek
import Blockbench.Iofill.Totals
import Blockbench.Lib.ForkJoin
import Blockbench.Iofill.Barrier
import Blockbench.Iofill.BarrierSound
import Blockbench.Ioload.Params
import Blockbench.Ioload.Init
import Blockbench.Ioload.DoIo
import Blockbench.Ioload.Inside
import Blockbench.Ioload.Pieces
import Blockbench.Ioload.Aligned
import Blockbench.Ioload.Rounds
import Blockbench.Ioload.RoundsSound
import Blockbench.Lib.Draw
import Blockbench.Ioload.Select
import Blockbench.Ioload.OptionOrder
import Blockbench.Ioload.Sleep
import Blockbench.Lib.Grid
import Blockbench.Ioload.Grid
import Blockbench.Ioload.SleepSize
import Blockbench.Iob.BucketOrder
import Blockbench.Lib.Ticker
import Blockbench.Iofill.Clock
import Blockbench.Iob.Rand64
import Blockbench.Lib.BigEndian
import Blockbench.Iob.Scsi
import Blockbench.Iob.Dedupdata
import Blockbench.Lib.Stores
import Blockbench.Iob.IodataFrame
import Blockbench.Iob.HcData
import Blockbench.Iofill.DetailsInit
import Blockbench.Iob.LatTable
import Blockbench.Ioload.CpuTime
import Blockbench.Ioload.Pace
import Blockbench.Lib.Volume
import Blockbench.Lib.Lcg
import Blockbench.Iob.Rand48
import Blockbench.Iob.Initdata
import Blockbench.Iob.DedupSet
import Blockbench.Iob.Sectors
import Blockbench.Iob.Compress
import Blockbench.Lib.Columns
import Blockbench.Iob.DetailsText
import Blockbench.Iob.Write
import Blockbench.Iofill.Disk
import Blockbench.Ioload.Disk
import Blockbench.Lib.Quiesce
import Blockbench.Lib.Blocks
import Blockbench.Iofill.WriteInject
import Blockbench.Iofill.Handshake
import Blockbench.Iofill.Rendezvous
import Blockbench.Iofill.Hang
import Blockbench.Iofill.Bursts
import Blockbench.Iofill.Status
import Blockbench.Iob.ScsiCommands
