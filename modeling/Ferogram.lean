import Ferogram.Lib.StableSort
import Ferogram.Lib.SortedVec
import Ferogram.Lib.Call
import Ferogram.Lib.Keystream
import Ferogram.Lib.Framing
import Ferogram.Connect.Frame
import Ferogram.Lib.FirstMatch
import Ferogram.Lib.Run
import Ferogram.Lib.ReorderBuffer
import Ferogram.Lib.Bytes
import Ferogram.Lib.Utf8
import Ferogram.Lib.Ige
import Ferogram.Msgbox.Deadlines
import Ferogram.Msgbox.AtMostOnce
import Ferogram.Msgbox.Restart
import Ferogram.Msgbox.Channels
import Ferogram.Msgbox.Workers
import Ferogram.Msgbox.Resume
import Ferogram.Client.Dispatch
import Ferogram.Session.Format
import Ferogram.Mtsender.Sender
import Ferogram.Mtsender.Resend
import Ferogram.Mtsender.Receive
import Ferogram.Mtsender.Frames
import Ferogram.Mtsender.Batch
import Ferogram.Mtsender.NewSession
import Ferogram.Mtproto.Encrypted
import Ferogram.Session.Versions
import Ferogram.Session.RoundTrip
import Ferogram.Mtproto.MsgIds
import Ferogram.Crypto.DataV2
import Ferogram.Mtproto.Unpack
import Ferogram.TlTypes.Codec
import Ferogram.TlTypes.RoundTrip
import Ferogram.Crypto.Srp
import Ferogram.Mtproto.Authentication
import Ferogram.Mtproto.KeyExchange
import Ferogram.Mtsender.Splits
import Ferogram.Lib.Splice
import Ferogram.Lib.Decimal
import Ferogram.Lib.TagStack
import Ferogram.Parsers.Entities
import Ferogram.Parsers.Markdown
import Ferogram.Parsers.MarkdownRead
import Ferogram.Parsers.MarkdownStyles
import Ferogram.Parsers.MarkdownSingle
import Ferogram.Lib.Replace
import Ferogram.Parsers.Html
import Ferogram.Parsers.HtmlRead
import Ferogram.Parsers.HtmlText
import Ferogram.Parsers.HtmlStack
import Ferogram.Parsers.HtmlNesting
import Ferogram.Mtsender.Pool
import Ferogram.Lib.Base64
import Ferogram.Session.StringSession
import Ferogram.Session.StringRoundTrip
import Ferogram.Lib.Sql
import Ferogram.Session.Sqlite
import Ferogram.Session.Backends
import Ferogram.Client.PeerCache
import Ferogram.Client.PeerConsistency
import Ferogram.Client.PeerRestart
import Ferogram.Client.Parts
import Ferogram.Client.Upload
import Ferogram.Client.PipelinedUpload
import Ferogram.Client.PipelinedDownload
import Ferogram.Parsers.Html5ever
import Ferogram.Parsers.HtmlForest
import Ferogram.Parsers.HtmlBackends
import Ferogram.Parsers.HtmlExact
import Ferogram.Client.DcMigration
import Ferogram.Fsm.Storage
import Ferogram.Client.Resumable
import Ferogram.Client.InitConnection
import Ferogram.Mtproto.Replay
import Ferogram.Mtsender.Step
import Ferogram.Mtsender.SenderLoop
import Ferogram.Mtsender.Silence
import Ferogram.Client.ConcurrentDownload
import Ferogram.TlGen.RoundTrip
import Ferogram.Client.ChannelDiff
import Ferogram.Client.DialogCursors
import Ferogram.Client.TransferLimits
import Ferogram.Lib.BlockScan
import Ferogram.Mtsender.CircuitBreaker
import Ferogram.Mtsender.ReadBuffer
import Ferogram.Mtsender.ScanBody
import Ferogram.Mtsender.ScanOrder
import Ferogram.Msgbox.Overflow
import Ferogram.Client.CdnDownload
import Ferogram.Client.PeerLookup
import Ferogram.Client.ResumableDownload
import Ferogram.Client.TransferError
import Ferogram.Client.UpdateStream
import Ferogram.Client.UploadAge
import Ferogram.Crypto.Factorize
import Ferogram.Crypto.Rsa
import Ferogram.Mtproto.Handshake
import Ferogram.Crypto.Aes
import Ferogram.Crypto.RsaPad
import Ferogram.Crypto.DequeBuffer
import Ferogram.Crypto.Obfuscated
import Ferogram.Connect.ClientHello
import Ferogram.Connect.Pfs
import Ferogram.Mtsender.ContainerWalk
import Ferogram.Parsers.HtmlSlices
import Ferogram.Parsers.MarkdownV1
import Ferogram.Parsers.EntitiesInside
import Ferogram.Parsers.RichMarkdown
import Ferogram.Parsers.RichHtml
import Ferogram.Parsers.RichEscapes
import Ferogram.Client.PeerRef
import Ferogram.Client.DialogFolders
import Ferogram.Client.DialogJoin
import Ferogram.Client.IterErrors
import Ferogram.Client.Conversation
import Ferogram.Middleware.RateLimit
import Ferogram.Filters.Flattening
import Ferogram.TlParser.Printing
import Ferogram.TlParser.Ids
import Ferogram.TlParser.Sections
import Ferogram.Mtproto.BindTempKey
import Ferogram.Fsm.Conversations
import Ferogram.Msgbox.ExactlyOnce
import Ferogram.Mtsender.Replies
import Ferogram.Client.DnsResolver
