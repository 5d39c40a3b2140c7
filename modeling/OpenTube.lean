import OpenTube.Lib.Run
import OpenTube.Lib.Components
import OpenTube.Lib.Scan
import OpenTube.Lib.Vectored
import OpenTube.Lib.Slots
import OpenTube.Lib.Assoc
import OpenTube.Lib.Calendar
import OpenTube.Lib.Loop
import OpenTube.Common.Chars
import OpenTube.Common.Types
import OpenTube.Common.Numbers
import OpenTube.Common.Pool
import OpenTube.Http.Hex
import OpenTube.Http.Uri
import OpenTube.Http.Headers
import OpenTube.Http.Serve
import OpenTube.Http.HeaderBlock
import OpenTube.Http.Lifecycle
import OpenTube.Http.Output
import OpenTube.Http.Send
import OpenTube.Http.Delivery
import OpenTube.Http.Reception
import OpenTube.Http.Route
import OpenTube.Http.File
import OpenTube.Http.Accept
import OpenTube.Http.Segmentation
import OpenTube.Http.PostBody
import OpenTube.Http.Args
import OpenTube.Http.UrlEncoding
import OpenTube.Http.ArgBounds
import OpenTube.Http.Post
import OpenTube.Http.Handler
import OpenTube.Http.Multipart
import OpenTube.Http.Replay
import OpenTube.Http.Isolation
import OpenTube.Server.Descriptors
import OpenTube.Server.Keepalive
import OpenTube.Server.Events
import OpenTube.Server.CrossTalk
import OpenTube.Server.Registry
import OpenTube.Server.Memcache
import OpenTube.Http.Framing
import OpenTube.Server.WorkQueue
import OpenTube.Server.RateLimit
import OpenTube.Config.Parser
import OpenTube.Config.Print
import OpenTube.Template.Compile
import OpenTube.Template.Render
import OpenTube.Template.Blocks
import OpenTube.Template.Flatten
import OpenTube.Template.Variables
import OpenTube.Template.Nesting
import OpenTube.Template.Meaning
import OpenTube.Template.Cache
import OpenTube.Http.HeaderList
import OpenTube.Http.PathBuffer
import OpenTube.Http.Range
import OpenTube.Http.PostBounds
import OpenTube.Http.ArgGrammar
import OpenTube.Http.GzipPage
import OpenTube.Http.BufferLength
import OpenTube.Http.ScratchBuffers
import OpenTube.Server.SimLimit
import OpenTube.Server.Penalty
import OpenTube.Server.QueueBlock
import OpenTube.Server.KeepaliveBudget
import OpenTube.Lib.Block
import OpenTube.Server.CacheLayout
import OpenTube.Template.Assignment
import OpenTube.Template.Append
import OpenTube.Template.Substitution
import OpenTube.Template.Cursor
import OpenTube.Template.Include
import OpenTube.Template.Pieces
import OpenTube.Template.Forest
import OpenTube.Template.Slices
import OpenTube.Lib.CString
import OpenTube.Config.SettingPath
import OpenTube.Config.ListenAddress
import OpenTube.Server.DbServers
import OpenTube.Config.Passes
import OpenTube.Config.Termination
import OpenTube.Lib.ArrayTree
import OpenTube.Config.ParentLinks
import OpenTube.Config.Numbers
import OpenTube.Config.ErrorPlace
import OpenTube.Config.Document
import OpenTube.Config.Grammar
import OpenTube.Config.Acceptance
import OpenTube.Config.Comments
import OpenTube.Config.Transparency
import OpenTube.Config.Lookup
import OpenTube.Config.LookupPath
import OpenTube.Template.Expansion
import OpenTube.Http.PathText
import OpenTube.Common.Printing
import OpenTube.Common.Buffer
import OpenTube.Lib.Live
import OpenTube.Common.PoolMemory
import OpenTube.Server.LimitStorage
import OpenTube.Server.WebAllocator
import OpenTube.Http.ScriptRouting
import OpenTube.Config.KeepaliveTimeout
import OpenTube.Config.Load
import OpenTube.Lib.Unordered
import OpenTube.Server.SelectLoop
import OpenTube.Lib.BlockHash
import OpenTube.Web.Sha1
import OpenTube.Common.PoolRefinement
import OpenTube.Server.Supervisor
import OpenTube.Server.StaticContent
