import SimplestWeb.Lib.Machine
import SimplestWeb.Lib.ForkJoin
import SimplestWeb.Lib.OwnedHeap
import SimplestWeb.Lib.Outcome
import SimplestWeb.Lib.Framing
import SimplestWeb.Lib.Segments
import SimplestWeb.Lib.Buffer
import SimplestWeb.Lib.Octets
import SimplestWeb.Mongoose.Address
import SimplestWeb.Mongoose.HttpMessage
import SimplestWeb.Mongoose.Chunked
import SimplestWeb.Mongoose.MatchPrefix
import SimplestWeb.Mongoose.WsFrame
import SimplestWeb.Mongoose.UrlCoding
import SimplestWeb.Mongoose.UriPath
import SimplestWeb.Mongoose.LocalPath
import SimplestWeb.Mongoose.SendFile
import SimplestWeb.Mongoose.HttpRequest
import SimplestWeb.Mongoose.Net
import SimplestWeb.Mongoose.EventLoop
import SimplestWeb.Mongoose.FileResponse
import SimplestWeb.Mongoose.Websocket
import SimplestWeb.Mongoose.WsClient
import SimplestWeb.Mongoose.SsiBounds
import SimplestWeb.Mongoose.WsSafety
import SimplestWeb.Mongoose.Delivery
import SimplestWeb.Mongoose.Wiring
import SimplestWeb.Mongoose.Rewiring
import SimplestWeb.Mongoose.LoopSpec
import SimplestWeb.Mongoose.LoopInv
import SimplestWeb.Mongoose.Steady
import SimplestWeb.Mongoose.LoopSafe
import SimplestWeb.Mongoose.LoopEnd
import SimplestWeb.Minimal.Server
import SimplestWeb.Minimal.System
import SimplestWeb.Minimal.ServerInv
import SimplestWeb.Minimal.SystemInv
import SimplestWeb.Minimal.RunInv
import SimplestWeb.Minimal.Lifetime
import SimplestWeb.Minimal.ServerCount
import SimplestWeb.Minimal.Managers
import SimplestWeb.Minimal.Isolation
import SimplestWeb.Minimal.Shutdown
import SimplestWeb.Minimal.Safety
import SimplestWeb.Minimal.Teardown
import SimplestWeb.Minimal.Ports
import SimplestWeb.Minimal.Serving
import SimplestWeb.Minimal.Requests
import SimplestWeb.Mongoose.Ssi
