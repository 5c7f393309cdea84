import Lightcycle.Lib.Run
import Lightcycle.Lib.Replay
import Lightcycle.Types.Basic
import Lightcycle.Codec.Block
import Lightcycle.Relayer.Cursor
import Lightcycle.Relayer.Engine
import Lightcycle.Relayer.EngineSpec
import Lightcycle.Relayer.Replay
import Lightcycle.Relayer.Finality
import Lightcycle.Relayer.Announce
import Lightcycle.Lib.SortedMap
import Lightcycle.Store.Cache
import Lightcycle.Relayer.Service
import Lightcycle.Relayer.Gap
import Lightcycle.Relayer.Upstream
import Lightcycle.Firehose.Encode
import Lightcycle.Firehose.Server
import Lightcycle.Firehose.Backfill
import Lightcycle.Firehose.Session
import Lightcycle.Firehose.Stitch
import Lightcycle.Lib.Join
import Lightcycle.Relayer.Ledger
import Lightcycle.Relayer.Survivor
import Lightcycle.Relayer.Watch
import Lightcycle.Firehose.Archiver
import Lightcycle.Firehose.Boundary
import Lightcycle.Firehose.Oracle
import Lightcycle.Firehose.Interference
import Lightcycle.Firehose.Reorg
import Lightcycle.Firehose.Resume
import Lightcycle.Relayer.Gate
import Lightcycle.Codec.TxInfo
import Lightcycle.Relayer.Fetcher
import Lightcycle.Firehose.Receipts
import Lightcycle.Relayer.Complete
import Lightcycle.Relayer.Panic
import Lightcycle.Relayer.Decision
import Lightcycle.Relayer.Coalesce
import Lightcycle.Relayer.Pending
import Lightcycle.Store.CacheSpec
import Lightcycle.Firehose.Archived
import Lightcycle.Lib.Words
import Lightcycle.Codec.Abi
import Lightcycle.Codec.AbiGrammar
import Lightcycle.Codec.AbiSignature
import Lightcycle.Codec.AbiDecode
import Lightcycle.Codec.Events
import Lightcycle.Lib.Protobuf
import Lightcycle.Lib.Schema
import Lightcycle.Codec.Messages
import Lightcycle.Codec.BlockId
import Lightcycle.Codec.WireBytes
import Lightcycle.Firehose.EncodeSpec
import Lightcycle.Firehose.Determines
import Lightcycle.Firehose.Fetch
import Lightcycle.Firehose.WireFinality
import Lightcycle.Firehose.Timestamp
import Lightcycle.Firehose.Cursors
import Lightcycle.Relayer.Replicas
import Lightcycle.Lib.Format
import Lightcycle.Codec.Contracts
import Lightcycle.Codec.ReceiptSpec
import Lightcycle.Relayer.Provenance
import Lightcycle.Firehose.Payload
import Lightcycle.Firehose.Rows
import Lightcycle.Relayer.Source
import Lightcycle.Relayer.Relay
import Lightcycle.Relayer.Worker
import Lightcycle.Firehose.Daemon
import Lightcycle.Firehose.Refine
import Lightcycle.Firehose.Sourced
import Lightcycle.Relayer.Atomic
import Lightcycle.Firehose.Retention
import Lightcycle.Firehose.Signed
import Lightcycle.Firehose.Fleet
import Lightcycle.Firehose.Reconnect
import Lightcycle.Firehose.Served
