import TimeShift.Lib.Machine
import TimeShift.Lib.Trace
import TimeShift.Lib.Cyclic
import TimeShift.Lib.Bytes
import TimeShift.Lib.SearchTree
import TimeShift.Lib.Tally
import TimeShift.Lib.Memory
import TimeShift.Glib
import TimeShift.Slot
import TimeShift.Cache.Basic
import TimeShift.Cache.Layout
import TimeShift.Cache.Session
import TimeShift.Cache.Effects
import TimeShift.Cache.Isolation
import TimeShift.Lib.Tiling
import TimeShift.Cache.Gapped
import TimeShift.Cache.Window
import TimeShift.Cache.Ring
import TimeShift.Cache.Storage
import TimeShift.Cache.Walk
import TimeShift.Cache.ReaderWindow
import TimeShift.Cache.Fifo
import TimeShift.Cache.Disk
import TimeShift.Cache.DiskReader
import TimeShift.Cache.Placed
import TimeShift.Cache.Lands
import TimeShift.Cache.SeekEnds
import TimeShift.Cache.Migration
import TimeShift.Cache.Recording
import TimeShift.Cache.Reader
import TimeShift.Cache.Drain
import TimeShift.Cache.Settled
import TimeShift.Cache.Numbering
import TimeShift.Cache.Accounting
import TimeShift.Cache.HasOffset
import TimeShift.Cache.FullCount
import TimeShift.Cache.Chunks
import TimeShift.Cache.Discont
import TimeShift.Cache.StartRecording
import TimeShift.Cache.Fullness
import TimeShift.Cache.LabelBounds
import TimeShift.Index
import TimeShift.Seeker
import TimeShift.TsIndexer
import TimeShift.Indexing
import TimeShift.PcrScan
import TimeShift.MappedBuffer
import TimeShift.Spacing
import TimeShift.TransportStream
import TimeShift.EqualTimes
import TimeShift.LastTime
import TimeShift.TimeSeek
import TimeShift.Pipeline
import TimeShift.Element.Basic
import TimeShift.Element.Loop
import TimeShift.Element.Steps
import TimeShift.Element.EndOfStream
import TimeShift.Element.Segments
import TimeShift.Element.Owners
import TimeShift.Element.Query
import TimeShift.Lookups
import TimeShift.WriterIndex
import TimeShift.WriterLookups
import TimeShift.Lib.Refinement
import TimeShift.Lib.Progress
import TimeShift.Lib.RefCount
import TimeShift.Cache.Controls
import TimeShift.Cache.Lifetime
import TimeShift.Cache.Stopping
import TimeShift.Cache.KeptFile
import TimeShift.Cache.Autoremove
import TimeShift.Element.Waiting
import TimeShift.Element.Sessions
import TimeShift.Element.Delivery
import TimeShift.Element.PlayingOut
import TimeShift.SeekerEvents
import TimeShift.Bin
import TimeShift.Playback
