import EventRelay.Abi.Coerce
import EventRelay.Abi.Decode
import EventRelay.Abi.Encode
import EventRelay.Abi.Interface
import EventRelay.Abi.Kind
import EventRelay.Abi.Registry
import EventRelay.Abi.Specifier
import EventRelay.Abi.Value
import EventRelay.Bytes
import EventRelay.Chain.Activity
import EventRelay.Chain.Error
import EventRelay.Chain.Query
import EventRelay.Chain.Rlp
import EventRelay.Chain.Sending
import EventRelay.Chain.Transaction
import EventRelay.Chain.Waiting
import EventRelay.CommandLine.Likeness
import EventRelay.CommandLine.Reader
import EventRelay.CommandLine.Switch
import EventRelay.Config.Basic
import EventRelay.Config.Reader
import EventRelay.Config.Secret
import EventRelay.Decimal.Shortest
import EventRelay.Dispatch
import EventRelay.Endpoint
import EventRelay.Environment
import EventRelay.Environment.File
import EventRelay.FileTree
import EventRelay.Hash.Keccak
import EventRelay.Hash.Sha256
import EventRelay.Journal.Filter
import EventRelay.Journal.Line
import EventRelay.Journal.Moment
import EventRelay.Journal.Setup
import EventRelay.Json.Basic
import EventRelay.Json.Draft
import EventRelay.Json.Number
import EventRelay.Json.Reader
import EventRelay.Launch
import EventRelay.Log
import EventRelay.Log.Building
import EventRelay.Log.Filter
import EventRelay.Main
import EventRelay.Metrics.Address
import EventRelay.Metrics.Basic
import EventRelay.Path
import EventRelay.Proofs.Acceptance
import EventRelay.Proofs.Accounting
import EventRelay.Proofs.Attempt
import EventRelay.Proofs.Building
import EventRelay.Proofs.Callbacks
import EventRelay.Proofs.Calls
import EventRelay.Proofs.ChainOrder
import EventRelay.Proofs.Characters
import EventRelay.Proofs.Coercion
import EventRelay.Proofs.Contents
import EventRelay.Proofs.Counting
import EventRelay.Proofs.Course
import EventRelay.Proofs.Coverage
import EventRelay.Proofs.Declarations
import EventRelay.Proofs.Decoding
import EventRelay.Proofs.Delivery
import EventRelay.Proofs.Described
import EventRelay.Proofs.Digits
import EventRelay.Proofs.Ensemble
import EventRelay.Proofs.Envelopes
import EventRelay.Proofs.Fields
import EventRelay.Proofs.FirstBlock
import EventRelay.Proofs.Following
import EventRelay.Proofs.Foresight
import EventRelay.Proofs.Forwarding
import EventRelay.Proofs.Grammar
import EventRelay.Proofs.Independence
import EventRelay.Proofs.Landing
import EventRelay.Proofs.Launching
import EventRelay.Proofs.Literals
import EventRelay.Proofs.Misreading
import EventRelay.Proofs.Names
import EventRelay.Proofs.Nonces
import EventRelay.Proofs.Openings
import EventRelay.Proofs.Polling
import EventRelay.Proofs.Positions
import EventRelay.Proofs.Progress
import EventRelay.Proofs.Registry
import EventRelay.Proofs.Rehearsing
import EventRelay.Proofs.Respelling
import EventRelay.Proofs.Resumption
import EventRelay.Proofs.Rlp
import EventRelay.Proofs.Routes
import EventRelay.Proofs.Rules
import EventRelay.Proofs.Running
import EventRelay.Proofs.Selection
import EventRelay.Proofs.Sending
import EventRelay.Proofs.Shapes
import EventRelay.Proofs.Spellings
import EventRelay.Proofs.Stopping
import EventRelay.Proofs.Strings
import EventRelay.Proofs.Succession
import EventRelay.Proofs.Tasks
import EventRelay.Proofs.Timekeeping
import EventRelay.Proofs.Values
import EventRelay.Proofs.Waiting
import EventRelay.Receipt
import EventRelay.Rehearsal.Node
import EventRelay.Rehearsal.Stage
import EventRelay.Rehearsal.Walk
import EventRelay.Relay.Assembly
import EventRelay.Relay.Attempt
import EventRelay.Relay.Basic
import EventRelay.Relay.Following
import EventRelay.Relay.State
import EventRelay.Rpc.Exchange
import EventRelay.Rpc.Quantity
import EventRelay.Rpc.Record
import EventRelay.Rpc.Subscription
import EventRelay.Rule
import EventRelay.Secp256k1.Curve
import EventRelay.Secp256k1.Signing
import EventRelay.Service
import EventRelay.Text.Alphanumeric
import EventRelay.Text.Blank
import EventRelay.Text.Decimal
import EventRelay.Text.Duration
import EventRelay.Text.Hex
import EventRelay.Text.Utf8
import EventRelay.Url.Host
import EventRelay.Url.Punycode
import EventRelay.Url.Scheme
import EventRelay.Word
