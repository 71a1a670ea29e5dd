import HyperKitty.Lib.Exec
import HyperKitty.Lib.Text
import HyperKitty.Lib.Keyed
import HyperKitty.Lib.Bytes
import HyperKitty.Core.Error
import HyperKitty.Constraints.Unicode
import HyperKitty.Constraints.Lexer
import HyperKitty.Constraints.Ast
import HyperKitty.Constraints.Parser
import HyperKitty.Constraints.Layout
import HyperKitty.Constraints.Grammar
import HyperKitty.Constraints.Rendering
import HyperKitty.Lib.HashChain
import HyperKitty.Worm.Header
import HyperKitty.Worm.Record
import HyperKitty.Worm.Chain
import HyperKitty.Proofs.Ledger
import HyperKitty.Proofs.Tampering
import HyperKitty.Proofs.Decoding
import HyperKitty.Formalization.Registry
import HyperKitty.Formalization.Machine
import HyperKitty.Formalization.History
import HyperKitty.Proofs.Cursor
import HyperKitty.Proofs.Lexing
import HyperKitty.Proofs.Parsing
import HyperKitty.Proofs.Evaluation
import HyperKitty.Proofs.Compiling
import HyperKitty.Proofs.Naming
import HyperKitty.Proofs.Export
import HyperKitty.Proofs.Artifacts
import HyperKitty.Proofs.Correspondence
import HyperKitty.Lib.Floating
import HyperKitty.Lib.LittleEndian
import HyperKitty.Lib.Buffer
import HyperKitty.Lib.CString
import HyperKitty.Lib.Machine
import HyperKitty.Lib.Outcome
import HyperKitty.WormStorage.Entry
import HyperKitty.WormStorage.Frame
import HyperKitty.WormStorage.Ledger
import HyperKitty.Proofs.Framing
import HyperKitty.Proofs.Interchange
import HyperKitty.Proofs.EntryChains
import HyperKitty.Proofs.Files
import HyperKitty.Proofs.Overreads
import HyperKitty.Core.Glyph
import HyperKitty.Routing.Qra
import HyperKitty.Runtime.Validity
import HyperKitty.Runtime.Reconciliation
import HyperKitty.Runtime.RouteDecision
import HyperKitty.Kernel.Decide
import HyperKitty.Proofs.Reconciling
import HyperKitty.Proofs.Deciding
import HyperKitty.Proofs.Counting
import HyperKitty.Proofs.Bridging
import HyperKitty.Bus.Message
import HyperKitty.Proofs.Messages
import HyperKitty.Lib.Separator
import HyperKitty.Core.Types
import HyperKitty.Ere.Receipt
import HyperKitty.Proofs.Receipts
import HyperKitty.Lib.Forest
import HyperKitty.Ast.Inverted
import HyperKitty.Proofs.Weights
import HyperKitty.Proofs.Graphs
import HyperKitty.Lib.Posix
import HyperKitty.Parser.Tokenizer
import HyperKitty.Parser.Danger
import HyperKitty.Proofs.Detection
import HyperKitty.Pipeline.Master
import HyperKitty.Proofs.Screening
import HyperKitty.Lib.Search
import HyperKitty.Lib.Casing
import HyperKitty.Ere.Telemetry
import HyperKitty.Proofs.Hosts
import HyperKitty.Ere.Engine
import HyperKitty.Proofs.Laundering
import HyperKitty.Lib.Ring
import HyperKitty.Lib.SwapRemove
import HyperKitty.Bus.Connection
import HyperKitty.Proofs.Subscriptions
import HyperKitty.Bus.Broker
import HyperKitty.Proofs.Addressing
import HyperKitty.Bus.Interleaving
import HyperKitty.Lib.Mailboxes
import HyperKitty.Proofs.Delivery
import HyperKitty.Proofs.Uninterrupted
import HyperKitty.Lib.Checked
import HyperKitty.Lib.Account
import HyperKitty.Qlg.Sphere
import HyperKitty.Sla.Ledger
import HyperKitty.Sla.Exact
import HyperKitty.Wasm.Ledgers
import HyperKitty.Proofs.Accumulation
import HyperKitty.Proofs.WireLedgers
import HyperKitty.Proofs.Overflow
import HyperKitty.Proofs.Evolution
import HyperKitty.Isomorphism.Layers
import HyperKitty.Proofs.Sphere
import HyperKitty.Proofs.Impostors
import HyperKitty.Runtime.World
import HyperKitty.Runtime.Tick
import HyperKitty.Proofs.Ticks
import HyperKitty.Lib.Readable
import HyperKitty.Proofs.TickReceipts
import HyperKitty.Lib.Traversal
import HyperKitty.Routing.Pipeline
import HyperKitty.Proofs.Dispatching
import HyperKitty.Lib.Regex
import HyperKitty.Proofs.DynamicCalls
import HyperKitty.Lib.Knockout
import HyperKitty.Nand.Conflicts
import HyperKitty.Nand.Filter
import HyperKitty.Proofs.Knockouts
import HyperKitty.Proofs.Arrivals
import HyperKitty.Nand.Mask
import HyperKitty.Proofs.Masks
import HyperKitty.Lib.Binary
import HyperKitty.Nand.Boolean
import HyperKitty.Proofs.TruthTables
import HyperKitty.Validation.Graph
import HyperKitty.Proofs.Authority
import HyperKitty.Proofs.Balancing
import HyperKitty.Proofs.Positions
import HyperKitty.Lib.Decimal
import HyperKitty.Dsl.Lexer
import HyperKitty.Dsl.Layout
import HyperKitty.Proofs.Losses
import HyperKitty.Lib.FirstHit
import HyperKitty.Routing.Tensor
import HyperKitty.Proofs.Lifetimes
import HyperKitty.Gate.Context
import HyperKitty.Proofs.Gating
import HyperKitty.Lib.Scan
import HyperKitty.Spectral.Jacobian
import HyperKitty.Spectral.Jordan
import HyperKitty.Proofs.Lenses
import HyperKitty.Proofs.Spectra
import HyperKitty.Proofs.Idempotents
import HyperKitty.Lib.Spin
import HyperKitty.Jordan.SpinFactor
import HyperKitty.Proofs.SpinFactors
import HyperKitty.Lib.Strides
import HyperKitty.Proofs.Spans
import HyperKitty.Proofs.Keywords
import HyperKitty.Proofs.Iterations
import HyperKitty.Routing.Dispatch
import HyperKitty.Proofs.Batches
import HyperKitty.Jordan.Density
import HyperKitty.Lib.Averaging
import HyperKitty.Proofs.Densities
import HyperKitty.Jordan.Convergence
import HyperKitty.Proofs.Orbits
import HyperKitty.Lib.Partition
import HyperKitty.Jordan.Idempotent
import HyperKitty.Proofs.Peirce
import HyperKitty.Lib.Markup
import HyperKitty.Art.SceneGraph
import HyperKitty.Art.Renderer
import HyperKitty.Proofs.Injection
import HyperKitty.Lib.Sheffer
import HyperKitty.Nand.Primitive
import HyperKitty.Proofs.Lowering
import HyperKitty.Lib.Orbit
import HyperKitty.Witness.History
import HyperKitty.Proofs.Exhaustion
import HyperKitty.Kernel.Boundary
import HyperKitty.Proofs.Forwarding
import HyperKitty.Proofs.Expressible
import HyperKitty.Proofs.Rereading
import HyperKitty.Ast.Memory
import HyperKitty.Proofs.Releasing
import HyperKitty.Lib.Overwrite
import HyperKitty.Proofs.Worlds
import HyperKitty.Continuity.Environment
import HyperKitty.Graph.Adjacency
import HyperKitty.Proofs.Stores
import HyperKitty.Proofs.Pictures
import HyperKitty.Proofs.Recovery
import HyperKitty.Proofs.Symbols
import HyperKitty.Proofs.Stages
import HyperKitty.Proofs.Entitlement
import HyperKitty.Proofs.Leaks
import HyperKitty.Proofs.Associators
import HyperKitty.Proofs.Coverage
import HyperKitty.Proofs.Findings
