import EraConsensus.Roles
import EraConsensus.BlockStore.State
import EraConsensus.BlockStore.Store
import EraConsensus.BlockStore.System
import EraConsensus.BlockStore.Frontier
import EraConsensus.BlockStore.Persisted
import EraConsensus.BlockStore.Chain
import EraConsensus.BlockStore.Monotone
import EraConsensus.BlockStore.QueueBlock
import EraConsensus.BlockStore.Readback
import EraConsensus.BlockStore.Progress
import EraConsensus.BlockStore.Watch
import EraConsensus.Handshake.Message
import EraConsensus.Handshake.Call
import EraConsensus.Handshake.Network
import EraConsensus.Handshake.Auth
import EraConsensus.Handshake.Exchange
import EraConsensus.Handshake.Connection
import EraConsensus.Handshake.Pair
import EraConsensus.Testonly
