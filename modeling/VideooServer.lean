import VideooServer.ByteText
import VideooServer.PercentCodec
import VideooServer.UrlParse
import VideooServer.OutputName
import VideooServer.HttpQuery
import VideooServer.RequestHops
import VideooServer.Utf8Text
import VideooServer.FormatVerbs
import VideooServer.JsonText
import VideooServer.JsonMarshal
import VideooServer.MultipartName
import VideooServer.UploadReply
import VideooServer.StepRuns
import VideooServer.FileWriters
import VideooServer.LexicalWalk
import VideooServer.FsServer
import VideooServer.EncodedName
import VideooServer.Upload
import VideooServer.InnerUpload
import VideooServer.InnerUploadRuns
import VideooServer.UploadRuns
import VideooServer.LastAction
import VideooServer.EncodeServer
import VideooServer.WrittenPaths
import VideooServer.EncodeRuns
import VideooServer.Pipeline
import VideooServer.HandlerRuns
import VideooServer.TextSearch
import VideooServer.MulticastQuery
import VideooServer.MulticastRelay
import VideooServer.MutualReferences
import VideooServer.RelayViews
import VideooServer.RelayLifecycle
import VideooServer.MulticastRuns
import VideooServer.RelayHandover
import VideooServer.FileService
import VideooServer.Playback
import VideooServer.AllowedDomains
import VideooServer.LivePackager
import VideooServer.PackagerRuns
import VideooServer.PackagerFaults
