import Lfmr.Proof.EbrCopy
import Lfmr.Proof.DurationWrap
import Lfmr.Proof.DurationItems
import Lfmr.Proof.ListRuns
import Lfmr.Proof.QueueRuns
import Lfmr.Proof.McsLockRuns
import Lfmr.Proof.SmrOrder
import Lfmr.Proof.HazardRuns
import Lfmr.Proof.HazardQueueRuns
import Lfmr.Proof.CountedQueueRuns
import Lfmr.Proof.OrderedSetIteration
import Lfmr.Proof.SymbolNames
import Lfmr.Proof.PartySequence
import Lfmr.Proof.PartyFlatten
import Lfmr.Proof.FieldRestrictions
import Lfmr.Proof.SubtypePreorder
import Lfmr.Proof.FreeVariableScopes
import Lfmr.Proof.FinishAwaits
import Lfmr.Proof.FutureRuns
import Lfmr.Proof.EncoreQueueRuns
import Lfmr.Proof.ArraySegment
import Lfmr.Proof.TreeSetRuns
import Lfmr.Proof.ClaimCounts
import Lfmr.Proof.UpdateScans
import Lfmr.Proof.LimboBooks
import Lfmr.Proof.StringDelete
import Lfmr.Proof.DeferredCountRuns
import Lfmr.Proof.RandomRange
import Lfmr.Proof.StringTrim
import Lfmr.Proof.RangeLoopRuns
import Lfmr.Proof.ExprChildren
import Lfmr.Proof.DesugarNormal
import Lfmr.Proof.ModuleImports
import Lfmr.Proof.LinearTypeCalls
