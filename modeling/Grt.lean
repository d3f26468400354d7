import Grt.TransitionSystem
import Grt.BinaryHeapOrder
import Grt.TimerHeap
import Grt.TimerInvariant
import Grt.TimerUpdate
import Grt.ModularOrbit
import Grt.TimerTermination
import Grt.TimerAllocation
import Grt.TimerStaleDelete
import Grt.LtaskQueue
import Grt.LtaskQueueFifo
import Grt.LtaskQueueSteps
import Grt.RefCountedMap
import Grt.LtaskHandleMap
import Grt.LtaskHandleMapGrowth
import Grt.LtaskHandleMapSearch
import Grt.LtaskHandleMapClients
import Grt.LtaskWorkerPool
import Grt.LtaskSchedule
import Grt.LtaskInterleaving
import Grt.LtaskTokens
import Grt.LtaskMutualExclusion
import Grt.LtaskTaskEnd
import Grt.LtaskAsserts
import Grt.LtaskChannelClose
import Grt.LtaskDelivery
import Grt.LtaskWakeup
import Grt.LtaskNoLostWakeup
import Grt.LtaskReferences
import Grt.LtaskNewTask
import Grt.LtaskSelect
import Grt.LtaskSend
import Grt.LtaskGrabtask
import Grt.LtaskWakeable
import Grt.LtaskSingleWorker
import Grt.LtaskTaskPlaces
import Grt.LtaskTaskConservation
import Grt.LittleEndian
import Grt.LtaskBlocks
import Grt.LtaskBlockStream
import Grt.LuaValue
import Grt.LtaskSerialize
import Grt.LtaskSerializeScalars
import Grt.LtaskSerializeTables
import Grt.LtaskSerializeLengths
import Grt.LtaskSerializeRoundTrip
import Grt.LtaskSerializeErrors
import Grt.LtaskSerializePayload
import Grt.LtaskSerializeDecoder
import Grt.AsyncBufferQueue
import Grt.AsyncConnection
import Grt.SocketLoader
import Grt.SystemCommand
import Grt.SocketService
import Grt.SocketPoll
import Grt.AsyncEventLoop
import Grt.AsyncRead
import Grt.HttpParse
import Grt.SocketReads
import Grt.SocketCloseMarks
import Grt.SelectPool
import Grt.SelectWait
import Grt.SimpleLock
import Grt.PieceStream
import Grt.SymbolMachine
import Grt.HttpParserState
import Grt.HttpParserSwitch
import Grt.HttpParserExecute
import Grt.HttpParserMachine
import Grt.HttpParserSound
import Grt.HttpParserMarks
import Grt.HttpParserHeaderLoops
import Grt.HttpParserInvariant
import Grt.HttpParserRefinement
import Grt.HttpParserRuns
import Grt.HttpParserFragments
import Grt.HttpParserMethods
import Grt.HttpParserNames
import Grt.DigitReader
import Grt.HttpParserLengths
import Grt.HttpParserBodies
import Grt.HttpParserTargets
import Grt.HttpParserRequests
import Grt.HttpParserCuts
