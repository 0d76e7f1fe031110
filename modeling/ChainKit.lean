import ChainKit.Abi.Arena
import ChainKit.Abi.Builtin
import ChainKit.Abi.Codec.Decode
import ChainKit.Abi.Codec.Encode
import ChainKit.Abi.Config.Basic
import ChainKit.Abi.Config.Json
import ChainKit.Abi.Context
import ChainKit.Abi.Contract
import ChainKit.Abi.Document.Basic
import ChainKit.Abi.Document.Binary
import ChainKit.Abi.Document.Json
import ChainKit.Abi.Error
import ChainKit.Abi.Leaf
import ChainKit.Abi.Resolution
import ChainKit.Abi.SchemaError
import ChainKit.Abi.Standard
import ChainKit.Abi.Ty
import ChainKit.Abi.TypeTable
import ChainKit.AbiStore
import ChainKit.Bytes.Base58
import ChainKit.Bytes.Base64
import ChainKit.Bytes.Basic
import ChainKit.Bytes.Hex
import ChainKit.Bytes.Radix
import ChainKit.Checksum
import ChainKit.ClientError
import ChainKit.Curve.Basic
import ChainKit.Curve.Ecdsa
import ChainKit.Hash.Ripemd160
import ChainKit.Hash.Sha256
import ChainKit.Hash.Words
import ChainKit.Json.Basic
import ChainKit.Json.Numeral
import ChainKit.Json.Parser
import ChainKit.Json.Printer
import ChainKit.Json.Record
import ChainKit.Json.Source
import ChainKit.Key.Basic
import ChainKit.Key.Signing
import ChainKit.Key.Text
import ChainKit.Name
import ChainKit.Node.Basic
import ChainKit.Node.Message
import ChainKit.Number.Binary
import ChainKit.Number.Reading
import ChainKit.Number.Shortest
import ChainKit.Number.Whole
import ChainKit.Proofs.Abi.Arena.Closed
import ChainKit.Proofs.Abi.Canonical
import ChainKit.Proofs.Abi.Declared
import ChainKit.Proofs.Abi.Content
import ChainKit.Proofs.Abi.Context.Cached
import ChainKit.Proofs.Abi.Context.Operation
import ChainKit.Proofs.Abi.Context.Registry
import ChainKit.Proofs.Abi.Coverage
import ChainKit.Proofs.Abi.Decode
import ChainKit.Proofs.Abi.Delimiting
import ChainKit.Proofs.Abi.Depth
import ChainKit.Proofs.Abi.Document.Repacked
import ChainKit.Proofs.Abi.Document.Stored
import ChainKit.Proofs.Abi.Encode
import ChainKit.Proofs.Abi.Growth
import ChainKit.Proofs.Abi.Inheritance
import ChainKit.Proofs.Abi.Leaf.Composed
import ChainKit.Proofs.Abi.Leaf.Json
import ChainKit.Proofs.Abi.Leaf.Token
import ChainKit.Proofs.Abi.Leaf.Wire
import ChainKit.Proofs.Abi.Members
import ChainKit.Proofs.Abi.Plain
import ChainKit.Proofs.Abi.Reaches
import ChainKit.Proofs.Abi.Readable
import ChainKit.Proofs.Abi.Record
import ChainKit.Proofs.Abi.Reencode
import ChainKit.Proofs.Abi.Requests
import ChainKit.Proofs.Abi.Resolution.Bounds
import ChainKit.Proofs.Abi.Resolution.Finds
import ChainKit.Proofs.Abi.Resolution.Growth
import ChainKit.Proofs.Abi.Resolution.Lineage
import ChainKit.Proofs.Abi.Resolution.Meaning
import ChainKit.Proofs.Abi.Resolution.Memory
import ChainKit.Proofs.Abi.Resolution.Places
import ChainKit.Proofs.Abi.Resolution.Table
import ChainKit.Proofs.Abi.Resolution.WellFormed
import ChainKit.Proofs.Abi.RoundTrip
import ChainKit.Proofs.Abi.Unambiguous
import ChainKit.Proofs.Bytes.Base58
import ChainKit.Proofs.Bytes.Hex
import ChainKit.Proofs.Bytes.Radix
import ChainKit.Proofs.Json.Members
import ChainKit.Proofs.Json.Record
import ChainKit.Proofs.Key.Text
import ChainKit.Proofs.Name.Text
import ChainKit.Proofs.Preserving
import ChainKit.Proofs.Result
import ChainKit.Proofs.Resuming
import ChainKit.Proofs.Session.Draft
import ChainKit.Proofs.Session.Preparing
import ChainKit.Proofs.Session.Signing
import ChainKit.Proofs.Text.Decimal
import ChainKit.Proofs.Text.Utf8
import ChainKit.Proofs.Time.Calendar
import ChainKit.Proofs.Time.Text
import ChainKit.Proofs.Token.Asset
import ChainKit.Proofs.Token.Symbol
import ChainKit.Proofs.Transaction.Packed
import ChainKit.Proofs.Transaction.Repacked
import ChainKit.Proofs.Wire.Composed
import ChainKit.Proofs.Wire.Delimiting
import ChainKit.Proofs.Wire.Reading
import ChainKit.Proofs.Wire.Varint
import ChainKit.Session
import ChainKit.SortedMap
import ChainKit.Text.Blank
import ChainKit.Text.Decimal
import ChainKit.Text.Literal
import ChainKit.Text.Split
import ChainKit.Text.Utf8
import ChainKit.Time.Basic
import ChainKit.Time.Calendar
import ChainKit.Time.Text
import ChainKit.Token.Asset
import ChainKit.Token.ExtendedAsset
import ChainKit.Token.Symbol
import ChainKit.TokenContract
import ChainKit.Transaction.Action
import ChainKit.Transaction.Basic
import ChainKit.Transaction.Signer
import ChainKit.Wire.Reader
import ChainKit.Wire.Varint
import ChainKit.Proofs.Abi.Absent
import ChainKit.Proofs.Abi.Agreement
import ChainKit.Proofs.Abi.Items
import ChainKit.Proofs.Abi.Limits
import ChainKit.Proofs.Number.Shortest
import ChainKit.Proofs.Json.Numeral
import ChainKit.Proofs.Json.Nesting
import ChainKit.Proofs.Json.Written
import ChainKit.Proofs.Abi.Bounded
import ChainKit.Proofs.Session.Asking
import ChainKit.Proofs.Session.Payloads
import ChainKit.Proofs.Session.Settled
import ChainKit.Proofs.Name.Order
import ChainKit.Proofs.Name.Spelling
import ChainKit.Proofs.Token.Amount
import ChainKit.Proofs.Session.Storing
import ChainKit.Proofs.Time.Spelling
import ChainKit.Proofs.Abi.Leaf.Time
import ChainKit.Proofs.Key.Spelling
import ChainKit.Proofs.Key.Canonical
import ChainKit.Proofs.Bytes.Base64
import ChainKit.Proofs.Node.Message
import ChainKit.Proofs.Abi.Row
import ChainKit.Proofs.TokenContract
import ChainKit.Proofs.Bytes.Bits
import ChainKit.Proofs.Wire.Words
import ChainKit.Proofs.Wire.Exact
import ChainKit.Proofs.Wire.Located
import ChainKit.Proofs.Abi.Located
