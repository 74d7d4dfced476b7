import AspikePort.EarlyReturn
import AspikePort.OrderedMap
import AspikePort.NestedStore
import AspikePort.FallibleLoops
import AspikePort.LabelledRuns
import AspikePort.Tallies
import AspikePort.OwnedSlots
import AspikePort.UncheckedReads
import AspikePort.TruncatingReaders
import AspikePort.WrittenLists
import AspikePort.ErlangTerms
import AspikePort.KeptTexts
import AspikePort.ExternalTerms
import AspikePort.AnnouncedTerms
import AspikePort.EiBuffers
import AspikePort.ClientValues
import AspikePort.NifWorld
import AspikePort.ValueFormat
import AspikePort.FormatSafety
import AspikePort.CdtPut
import AspikePort.PutOperations
import AspikePort.PutAgreement
import AspikePort.TripleWrites
import AspikePort.CallFrames
import AspikePort.SyncCalls
import AspikePort.CharListStores
import AspikePort.AsyncCalls
import AspikePort.BatchAgreement
import AspikePort.SecondPasses
import AspikePort.Lifecycle
import AspikePort.OperationCounters
import AspikePort.NodeTallies
import AspikePort.RecordKeys
import AspikePort.RequestLimits
import AspikePort.GuardedSubmission
import AspikePort.ConnectionHistory
import AspikePort.ClientLifetime
import AspikePort.SegmentTags
import AspikePort.AsyncMachine
import AspikePort.AsyncOwnership
import AspikePort.RecordServer
import AspikePort.StoreCalls
import AspikePort.StoreRefinement
import AspikePort.RecordReads
import AspikePort.BinaryBins
import AspikePort.BinaryRemovals
import AspikePort.BytesOwnership
import AspikePort.MapRoundTrip
import AspikePort.PortServer
import AspikePort.PortDumps
import AspikePort.PortCalls
import AspikePort.PortPuts
import AspikePort.PortAgreement
import AspikePort.PortHandlers
import AspikePort.ReplyFrames
import AspikePort.RecordShapes
import AspikePort.PortReplies
import AspikePort.ArgumentLoops
import AspikePort.HandlerReplies
import AspikePort.FrameReplies
import AspikePort.PortCdtPuts
import AspikePort.FramedStreams
import AspikePort.PortFrames
import AspikePort.PortDispatch
import AspikePort.PortStores
import AspikePort.SyncPeaks
import AspikePort.CharData
import AspikePort.InfoRender
import AspikePort.InfoRoundTrip
import AspikePort.NamespaceBins
import AspikePort.NodeAddresses
import AspikePort.WorstHosts
import AspikePort.NodeObjects
import AspikePort.PutRepetitions
import AspikePort.AsyncHistories
import AspikePort.AsyncReads
import AspikePort.PortSessions
import AspikePort.PortConversations
import AspikePort.ReadPaths
import AspikePort.ReceivedRecords
import AspikePort.PortReads
import AspikePort.KeyServer
import AspikePort.KeyLedger
import AspikePort.KeyReads
import AspikePort.KeyAgreement
import AspikePort.ServedCalls
import AspikePort.SharedLedger
import AspikePort.InfoCalls
import AspikePort.CallbackCounters
import AspikePort.CallbackPeaks
import AspikePort.HostLists
