import Oak.Undo.Command
import Oak.Lib.History
import Oak.Undo.Stack
import Oak.Lib.Machine
import Oak.Undo.Session
import Oak.Undo.Global
import Oak.Lib.OrdSet
import Oak.Lib.Reach
import Oak.Core.TimeRange
import Oak.Node.Id
import Oak.Node.Value
import Oak.Node.Core
import Oak.Node.Behavior
import Oak.Node.Graph
import Oak.Node.Slots
import Oak.Node.Arena
import Oak.Node.Invariant
import Oak.Node.GraphRun
import Oak.Lib.Walk
import Oak.Lib.Kahn
import Oak.Node.Traverser
import Oak.Node.Sweep
import Oak.Lib.Lane
import Oak.Node.Block
import Oak.Node.Copy
import Oak.Node.Heap
import Oak.Timeline.Util
import Oak.Timeline.Split
import Oak.Timeline.Common
import Oak.Timeline.Ripple
import Oak.Timeline.RippleRedo
import Oak.App.TrimClip
import Oak.Timeline.Trim
import Oak.Timeline.TrackList
import Oak.Timeline.Place
import Oak.Lib.Shift
import Oak.Node.Elements
import Oak.Node.Project
import Oak.Lib.RingBuffer
import Oak.Render.Intake
import Oak.Render.Slots
import Oak.Render.Segment
import Oak.Render.Dispatcher
import Oak.Render.Identity
import Oak.Render.Serving
import Oak.Render.Shutdown
import Oak.Render.SchedulerRun
import Oak.Render.Completion
import Oak.Lib.Json
import Oak.Render.Ipc
import Oak.Render.Answers
import Oak.Render.FrameCache
import Oak.Render.Pipeline
import Oak.Render.Ticket
import Oak.Core.Ratio
import Oak.Lib.Ranges
import Oak.Lib.Find
import Oak.Lib.Journal
import Oak.Render.StateFile
import Oak.Storage.Fragments
import Oak.Storage.Library
import Oak.Storage.Replay
import Oak.Storage.WriteThrough
import Oak.Node.Build
import Oak.Otio.Model
import Oak.Interchange.View
import Oak.Interchange.Load
import Oak.Interchange.Loaded
import Oak.Interchange.LoadedRun
import Oak.Interchange.Import
import Oak.Interchange.Sequential
import Oak.Interchange.Export
import Oak.Interchange.Save
import Oak.Interchange.Saved
import Oak.Lib.Decimal
import Oak.Otio.Fcpxml
import Oak.Otio.FcpxmlWrite
import Oak.Otio.FcpxmlPlaces
import Oak.Core.TimeRangeList
import Oak.Codec.AudioDecode
import Oak.Lib.Rounding
import Oak.Lib.Signal
import Oak.Codec.VideoDecode
import Oak.Task.Render
import Oak.Lib.Assoc
import Oak.Render.AudioMontage
import Oak.Task.Export
import Oak.Timeline.Marker
import Oak.App.BlockEdit
import Oak.App.RippleTrim
import Oak.App.Slide
import Oak.Timeline.Order
import Oak.Timeline.ReplaceGap
import Oak.Lib.Zones
import Oak.Timeline.MultiSplit
import Oak.Timeline.InsertGaps
import Oak.Timeline.Content
import Oak.Timeline.RippleTool
import Oak.Timeline.RipplePass
import Oak.Timeline.RippleUndo
import Oak.Timeline.RippleExact
import Oak.Node.TopologicalOrder
import Oak.Node.KeyframeTrack
import Oak.Node.SetValue
import Oak.Render.ClaimBatch
import Oak.Lib.BestApproximation
import Oak.Core.ReduceFraction
import Oak.Core.Fraction
import Oak.Timeline.TrackHistory
import Oak.Lib.Relabel
import Oak.Node.Transfer
import Oak.Node.CopyGraph
import Oak.Audio.Extract
import Oak.Worker.FrameCache
import Oak.Storage.SnapshotThread
import Oak.Storage.LibraryNames
import Oak.Storage.Address
import Oak.Render.AutoCacher
import Oak.Render.Posts
import Oak.Render.PlaybackCache
import Oak.Lib.Queue
import Oak.Render.SlotPool
import Oak.Lib.Pyramid
import Oak.Audio.Waveform
import Oak.Audio.WaveformLevels
import Oak.Audio.WaveformRun
import Oak.Timeline.Shown
import Oak.Timeline.AreaRestored
import Oak.Timeline.AreaUndo
import Oak.Timeline.RippleArea
import Oak.Timeline.RippleCleared
import Oak.Timeline.SplitUndo
import Oak.Lib.Text
import Oak.Core.XmlReader
import Oak.Core.SubtitleParams
import Oak.Lib.SortedMap
import Oak.Core.ConfigStore
import Oak.Lib.Bisect
import Oak.Lib.Hermite
import Oak.Plugin.ParamCurve
import Oak.Plugin.CurveJson
import Oak.Lib.Cursor
import Oak.Codec.Preset
import Oak.Codec.EncodingParams
import Oak.App.Frames
import Oak.App.ExportSettings
