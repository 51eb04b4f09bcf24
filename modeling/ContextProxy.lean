import ContextProxy.Conversation.Replay
import ContextProxy.Conversation.Accounting
import ContextProxy.Store.Rivals
import ContextProxy.Context.ToolPairs
import ContextProxy.Capture.Deltas
import ContextProxy.Context.Diversity
import ContextProxy.Memory.ChunkUnits
import ContextProxy.Store.ToolResults
import ContextProxy.Memory.Isolation
import ContextProxy.Provider.Recovery
import ContextProxy.Store.Divergence
import ContextProxy.Observability.RetryAfter
import ContextProxy.Memory.ChunkText
import ContextProxy.Memory.Starvation
import ContextProxy.Observability.LogLines
import ContextProxy.Db.Migrations
import ContextProxy.Context.Greedy
import ContextProxy.Observability.BodyGuard
import ContextProxy.Context.CustomCalls
import ContextProxy.Api.SerialClient
import ContextProxy.Api.Preview
import ContextProxy.Api.Pinned
import ContextProxy.Observability.Evictions
import ContextProxy.Provider.Trips
