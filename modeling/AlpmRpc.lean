import AlpmRpc.Server.Proof.TableRun
import AlpmRpc.Common.Frame
import AlpmRpc.Common.Emit
import AlpmRpc.Gen.Proof.ListArgs
import AlpmRpc.Gen.Proof.Positions
import AlpmRpc.Gen.Proof.Schema
import AlpmRpc.Server.Proof.Reply
import AlpmRpc.Client.Call
import AlpmRpc.Client.Proof.Cache
import AlpmRpc.Client.Proof.Link
import AlpmRpc.Session.Proof.Nest
import AlpmRpc.Session.Proof.Columns
import AlpmRpc.Session.Refs
import AlpmRpc.Session.Proof.RefCount
import AlpmRpc.Session.Proof.Destroy
import AlpmRpc.Session.Proof.Fleet
import AlpmRpc.Server.HandOut
import AlpmRpc.Server.Proof.Filing
import AlpmRpc.Server.Proof.Forest
import AlpmRpc.Client.Cache
import AlpmRpc.Session.Columns
import AlpmRpc.Session.Destroy
import AlpmRpc.Client.Link
import AlpmRpc.Session.Fleet
import AlpmRpc.Server.Gpgdir
import AlpmRpc.Server.Proof.Gpgdir
import AlpmRpc.Client.Memory
import AlpmRpc.Client.Proof.Memory
import AlpmRpc.Gen.Invalidate
import AlpmRpc.Gen.Proof.Invalidate
import AlpmRpc.Session.Coherence
import AlpmRpc.Session.Proof.Coherence
import AlpmRpc.Common.Proof.Framing
import AlpmRpc.Common.Proof.Base64
import AlpmRpc.Session.Bytes
import AlpmRpc.Client.Proof.Intern
import AlpmRpc.Session.Changelog
import AlpmRpc.Session.Proof.Changelog
import AlpmRpc.Session.PathStyle
import AlpmRpc.Session.Proof.PathStyle
import AlpmRpc.Server.Hooks
import AlpmRpc.Server.Proof.Hooks
import AlpmRpc.Session.Fetching
import AlpmRpc.Session.Proof.Fetching
import AlpmRpc.Gen.Keys
import AlpmRpc.Gen.Proof.Keys
import AlpmRpc.Lib.Growth
import AlpmRpc.Common.OutOfMemory
import AlpmRpc.Common.Proof.OutOfMemory
import AlpmRpc.Common.Proof.Splice
import AlpmRpc.Server.OutOfMemory
import AlpmRpc.Server.Proof.OutOfMemory
import AlpmRpc.Client.CacheKey
import AlpmRpc.Client.Proof.CacheKey
import AlpmRpc.Session.Callbacks
import AlpmRpc.Session.Proof.Callbacks
import AlpmRpc.Client.Mtree
import AlpmRpc.Client.Proof.Mtree
import AlpmRpc.Session.Endpoint
import AlpmRpc.Session.Proof.Endpoint
import AlpmRpc.Common.Links
import AlpmRpc.Common.Proof.Links
import AlpmRpc.Common.RawParser
import AlpmRpc.Lib.Checked
import AlpmRpc.Lib.Falter
import AlpmRpc.Lib.Keyed
import AlpmRpc.Common.Proof.RawParser
import AlpmRpc.Common.RawWriter
import AlpmRpc.Common.Proof.RawWriter
import AlpmRpc.Common.Proof.RawDoc
import AlpmRpc.Common.Proof.RawStarve
import AlpmRpc.Common.Proof.RawFrames
import AlpmRpc.Gen.Proof.Trampoline
import AlpmRpc.Lib.Simulation
import AlpmRpc.Session.Transit
import AlpmRpc.Common.Proof.WrittenBytes
import AlpmRpc.Session.Proof.Transit
import AlpmRpc.Lib.Sep
import AlpmRpc.Lib.Store
import AlpmRpc.Client.AlpmList
import AlpmRpc.Client.Proof.AlpmList
import AlpmRpc.Gen.Materialise
import AlpmRpc.Gen.Proof.Materialise
import AlpmRpc.Gen.Proof.Release
import AlpmRpc.Client.Proof.ListSort
import AlpmRpc.Client.Proof.ListOps
import AlpmRpc.Client.Proof.ListCalls
import AlpmRpc.Lib.Turns
import AlpmRpc.Session.Threads
import AlpmRpc.Session.Proof.Threads
import AlpmRpc.Lib.Search
import AlpmRpc.Common.Strings
import AlpmRpc.Server.Dispatch
import AlpmRpc.Client.FileList
