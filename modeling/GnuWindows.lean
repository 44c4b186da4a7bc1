import GnuWindows.Lib.BoundedStack
import GnuWindows.Lib.HashTrie
import GnuWindows.Lib.Hoare
import GnuWindows.Lib.TwoEnds
import GnuWindows.Lib.Search
import GnuWindows.PkgConfig.ParseProofs
import GnuWindows.PkgConfig.PathProofs
import GnuWindows.PkgConfig.Version
import GnuWindows.PkgConfig.Pkgs
import GnuWindows.PkgConfig.Buffer
import GnuWindows.PkgConfig.Traversal
import GnuWindows.PkgConfig.Bounds
import GnuWindows.PkgConfig.Depth
import GnuWindows.PkgConfig.Linkorder
import GnuWindows.PkgConfig.CleanOutput
import GnuWindows.PkgConfig.Dedup
import GnuWindows.PkgConfig.WideProofs
import GnuWindows.PkgConfig.Reread
import GnuWindows.Peports.Safety
import GnuWindows.PkgConfig.VersionOrder
import GnuWindows.PkgConfig.VersionTokens
import GnuWindows.PkgConfig.ExpandStack
import GnuWindows.PkgConfig.ParseErrors
import GnuWindows.PkgConfig.SearchList
import GnuWindows.PkgConfig.FilterArgs
import GnuWindows.PkgConfig.Relocate
import GnuWindows.PkgConfig.Joined
import GnuWindows.Peports.Unused
import GnuWindows.Peports.ImportTable
import GnuWindows.Peports.Status
import GnuWindows.Peports.Overlap
import GnuWindows.Peports.Paths
import GnuWindows.Peports.Readback
import GnuWindows.VcFilt.Console
import GnuWindows.VcFilt.Filter
import GnuWindows.Alias.Arguments
import GnuWindows.VcFilt.Failures
import GnuWindows.VcFilt.Main
import GnuWindows.Alias.Moduledir
import GnuWindows.Alias.Busybox
import GnuWindows.Lib.X86
import GnuWindows.Runtime.Chkstk
import GnuWindows.Runtime.Chkstk386
import GnuWindows.Runtime.Memory
import GnuWindows.Runtime.Strings
import GnuWindows.PkgConfig.Bindings
import GnuWindows.Lib.Scan
import GnuWindows.PkgConfig.CursorProofs
import GnuWindows.PkgConfig.Stream
import GnuWindows.PkgConfig.Arena
import GnuWindows.Lib.Transfer
import GnuWindows.PkgConfig.Delivery
import GnuWindows.PkgConfig.Lookup
import GnuWindows.Peports.Posix
import GnuWindows.Lib.Relate
import GnuWindows.PkgConfig.Shuffle
import GnuWindows.PkgConfig.Silence
import GnuWindows.PkgConfig.Frames
import GnuWindows.PkgConfig.Causes
import GnuWindows.PkgConfig.Locality
import GnuWindows.PkgConfig.Accepts
import GnuWindows.PkgConfig.Render
import GnuWindows.PkgConfig.Static
import GnuWindows.PkgConfig.Hidden
