import Vapi.Lib.IntrusiveList
import Vapi.Lib.Run
import Vapi.Lib.Ragged
import Vapi.Lib.Paged
import Vapi.Lib.Json
import Vapi.Core.Sampling
import Vapi.Cache.Pool
import Vapi.Cache.Ledger
import Vapi.Cache.Refinement
import Vapi.Cache.PoolRun
import Vapi.Cache.PoolSpec
import Vapi.Cache.Hash
import Vapi.Engine.Sequence
import Vapi.Engine.Batch
import Vapi.Engine.Scheduler
import Vapi.Engine.Blocks
import Vapi.Engine.Pass
import Vapi.Engine.Plan
import Vapi.Engine.Validate
import Vapi.Engine.Commit
import Vapi.Engine.Exclusive
import Vapi.Engine.Operations
import Vapi.Engine.Lineage
import Vapi.Engine.Accounting
import Vapi.Engine.Fork
import Vapi.Engine.Progress
import Vapi.Engine.Wellformed
import Vapi.Engine.World
import Vapi.Engine.Sound
import Vapi.Engine.Children
import Vapi.Engine.Standing
import Vapi.Engine.Batches
import Vapi.Engine.Content
import Vapi.Engine.Stored
import Vapi.Structured.Document
import Vapi.Structured.Schema
import Vapi.Structured.Shape
import Vapi.Structured.Machine
import Vapi.Structured.Choices
import Vapi.Structured.Closing
import Vapi.Structured.Producible
import Vapi.Engine.Detokenize
import Vapi.Structured.Alike
import Vapi.Structured.Blurred
import Vapi.Structured.Masker
import Vapi.Structured.Masking
import Vapi.Cache.Eviction
import Vapi.Cache.Spill
import Vapi.Engine.Fading
import Vapi.Engine.Promotion
import Vapi.Engine.Queues
import Vapi.Engine.Spilled
import Vapi.Structured.Bucketed
import Vapi.Engine.Encoder
import Vapi.Gateway.Loss
import Vapi.Lib.Desk
import Vapi.Worker.Answers
import Vapi.Gateway.Api
import Vapi.Backend.Alone
import Vapi.Gateway.Agree
import Vapi.Gateway.CacheKey
import Vapi.Gateway.Recut
import Vapi.Gateway.Separation
import Vapi.Gateway.Usage
import Vapi.Worker.Composed
import Vapi.Backend.Candidates
import Vapi.Backend.Covered
import Vapi.Cache.Recency
import Vapi.Cache.SpillRun
import Vapi.Engine.Adopted
import Vapi.Engine.Crowding
import Vapi.Engine.Streaming
import Vapi.Worker.Slices
import Vapi.Engine.Routing
import Vapi.Engine.Shortened
import Vapi.Engine.Overtaking
import Vapi.Structured.Budget
import Vapi.Engine.RowLogprobs
import Vapi.Worker.Constraint
import Vapi.Worker.Reported
import Vapi.Engine.Provenance
import Vapi.Audio.Chunks
import Vapi.Engine.Layout
import Vapi.Gateway.Decisions
import Vapi.Tokenize.Roundtrip
import Vapi.Worker.Activation
import Vapi.Backend.Causal
import Vapi.Tokenize.Decision
import Vapi.Tokenize.Row
import Vapi.Backend.Dense
import Vapi.Gateway.Calls
import Vapi.Gateway.Spelled
import Vapi.Backend.Experts
import Vapi.Backend.Graphs
import Vapi.Backend.Spill
import Vapi.Engine.TopLogprobs
import Vapi.Gateway.QueueSlots
import Vapi.Structured.Unfolded
import Vapi.Tokenize.Template
import Vapi.Audio.Mel
import Vapi.Backend.TextAttention
import Vapi.Backend.Voxtral
import Vapi.Worker.Acknowledged
import Vapi.Engine.Found
import Vapi.Worker.Generator
import Vapi.Cache.Hex
import Vapi.Engine.Ends
import Vapi.Worker.Completes
import Vapi.Gateway.Awaited
import Vapi.Worker.Choices
import Vapi.Engine.Tokens
import Vapi.Worker.Alone
import Vapi.Worker.Answering
import Vapi.Worker.LastWords
import Vapi.Worker.Siblings
import Vapi.Backend.Drawn
import Vapi.Gateway.Transcriptions
import Vapi.Worker.Addressed
import Vapi.Gateway.Auth
