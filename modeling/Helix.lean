import Helix.Collectors.Deduper
import Helix.Collectors.Integrity
import Helix.Collectors.Monitor
import Helix.Consensus.Acceptance
import Helix.Consensus.Agreement
import Helix.Consensus.Bodies
import Helix.Consensus.Canonical
import Helix.Consensus.Certificates
import Helix.Consensus.Confluence
import Helix.Consensus.Conformance
import Helix.Consensus.Delivered
import Helix.Consensus.Delivery
import Helix.Consensus.Discipline
import Helix.Consensus.Effects
import Helix.Consensus.Engine
import Helix.Consensus.EnteringRound
import Helix.Consensus.Finality
import Helix.Consensus.Garbage
import Helix.Consensus.Genuine
import Helix.Consensus.History
import Helix.Consensus.InRound
import Helix.Consensus.Journal
import Helix.Consensus.JournalStore
import Helix.Consensus.Locks
import Helix.Consensus.Membership
import Helix.Consensus.Messages
import Helix.Consensus.Moves
import Helix.Consensus.Network
import Helix.Consensus.OneRound
import Helix.Consensus.Progress
import Helix.Consensus.Proposing
import Helix.Consensus.Recovery
import Helix.Consensus.Refinement
import Helix.Consensus.Reproposing
import Helix.Consensus.RoundChanging
import Helix.Consensus.RoundMessages
import Helix.Consensus.Rounds
import Helix.Consensus.Run
import Helix.Consensus.Schedule
import Helix.Consensus.Seals
import Helix.Consensus.Settling
import Helix.Consensus.Specification
import Helix.Consensus.Tallies
import Helix.Consensus.Terminal
import Helix.Consensus.Termination
import Helix.Consensus.Timing
import Helix.Consensus.Totality
import Helix.Consensus.ValidatorSet
import Helix.Consensus.Wire
import Helix.Domain.Binding
import Helix.Domain.Block
import Helix.Domain.Chain
import Helix.Domain.Confidentiality
import Helix.Domain.Crypto
import Helix.Domain.Encoding
import Helix.Domain.Inclusion
import Helix.Domain.Merkle
import Helix.Domain.Roots
import Helix.Library.Cut
import Helix.Library.Dict
import Helix.Library.Effect
import Helix.Library.Json
import Helix.Library.JsonText
import Helix.Library.LeafTree
import Helix.Library.Simulation
import Helix.Library.Text
import Helix.Library.TokenBucket
import Helix.Library.Value
import Helix.Library.Voting
import Helix.Node.Admission
import Helix.Node.Announcement
import Helix.Node.Application
import Helix.Node.BlockTable
import Helix.Node.Bootstrap
import Helix.Node.CatchUp
import Helix.Node.Changes
import Helix.Node.Commits
import Helix.Node.Discovery
import Helix.Node.Forks
import Helix.Node.Genuine
import Helix.Node.HttpCluster
import Helix.Node.Imports
import Helix.Node.Mempool
import Helix.Node.Model
import Helix.Node.Moves
import Helix.Node.RateLimit
import Helix.Node.Requests
import Helix.Node.Server
import Helix.Node.Stored
import Helix.Node.Timestamps
import Helix.Node.Transport
import Helix.Node.Votes
