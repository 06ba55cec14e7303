import WebKit.Wtf.BitVectorAlgebra
import WebKit.Graphics.RegionQueries
import WebKit.Graphics.PlatformTimeRanges
import WebKit.ContentExtensions.IgnorePreviousRules
import WebKit.ContentExtensions.DFACombiner
import WebKit.Ipc.DispatchOrder
import WebKit.Ipc.SyncReplies
import WebKit.Ipc.WaitForMessage
import WebKit.Ipc.ArgumentDelivery
import WebKit.Bmalloc.SmallPageRuns
import WebKit.UIProcess.BackForwardListRuns
import WebKit.Storage.StorageMapRuns
import WebKit.Wtf.CheckedPrograms
import WebKit.Wtf.Lock
import WebKit.Wtf.ConditionRuns
import WebKit.Wtf.WordLockRuns
import WebKit.NetworkCache.FreshnessRuns
import WebKit.Dom.CollectionIndexCache
import WebKit.Wtf.MediaTime
import WebKit.Css.SelectorFilter
import WebKit.Css.NthChild
import WebKit.Runtime.MapDataRuns
import WebKit.Dfg.IntegerCheckCombiningCorrect
import WebKit.Dom.DocumentMarkers
import WebKit.ContentExtensions.TermGraph
import WebKit.ContentExtensions.DomainCache
import WebKit.Bytecode.UnlinkedInstructionStream
import WebKit.Yarr.Quantifiers
