import Jhalfs.Base.Machine
import Jhalfs.Base.Make
import Jhalfs.Base.Memo
import Jhalfs.Base.Assignments
import Jhalfs.Base.Position
import Jhalfs.Base.Search
import Jhalfs.Base.Loop
import Jhalfs.Base.Text
import Jhalfs.Base.ByteOrder
import Jhalfs.Base.Padded
import Jhalfs.Base.Shell
import Jhalfs.Base.ShellWords
import Jhalfs.Base.Cut
import Jhalfs.Base.Words
import Jhalfs.Base.Weave
import Jhalfs.Base.Glob
import Jhalfs.Scripts.Names
import Jhalfs.Deps.Entry
import Jhalfs.Deps.Files
import Jhalfs.Deps.Subgraph
import Jhalfs.Deps.PathTo
import Jhalfs.Deps.SeenText
import Jhalfs.Deps.CleanSubgraph
import Jhalfs.Deps.Runtime
import Jhalfs.Deps.Groups
import Jhalfs.Deps.LostEdges
import Jhalfs.Deps.Pass1
import Jhalfs.Deps.AfterEdges
import Jhalfs.Deps.Tree
import Jhalfs.Deps.CleanUp
import Jhalfs.Deps.Erase
import Jhalfs.Deps.EraseRun
import Jhalfs.Deps.Invariant
import Jhalfs.Deps.Moves
import Jhalfs.Deps.Frames
import Jhalfs.Deps.Preserve
import Jhalfs.Deps.Returns
import Jhalfs.Deps.Run
import Jhalfs.Deps.Termination
import Jhalfs.Deps.Browse
import Jhalfs.Deps.Order
import Jhalfs.Deps.Coverage
import Jhalfs.Deps.Cycles
import Jhalfs.Deps.TwoPass
import Jhalfs.Deps.BeforeLines
import Jhalfs.Deps.TreeFiles
import Jhalfs.Deps.Versions
import Jhalfs.Deps.Listing
import Jhalfs.Scripts.Ampersand
import Jhalfs.Scripts.Lines
import Jhalfs.Scripts.Escape
import Jhalfs.Scripts.Commands
import Jhalfs.Scripts.Install
import Jhalfs.Scripts.Brackets
import Jhalfs.Scripts.Sudo
import Jhalfs.Scripts.MakeJobs
import Jhalfs.Scripts.Destdir
import Jhalfs.Scripts.TestSuite
import Jhalfs.Scripts.Tracking
import Jhalfs.Lfs.Makefile
import Jhalfs.Lfs.Copies
import Jhalfs.Lfs.Passes
import Jhalfs.Lfs.Chain
import Jhalfs.Lfs.Complete
import Jhalfs.Lfs.Fresh
import Jhalfs.Lfs.Rebuild
import Jhalfs.Lfs.Rerun
import Jhalfs.Common.CheckVersion
import Jhalfs.Common.Download
import Jhalfs.Common.TrackFile
import Jhalfs.Scripts.Build
import Jhalfs.Book.XorgList
import Jhalfs.Book.ApplyList
import Jhalfs.Book.BuildOrder
import Jhalfs.Menu.Expr
import Jhalfs.Menu.Tokens
import Jhalfs.Menu.Parse
import Jhalfs.Menu.Print
import Jhalfs.Menu.ConfigFile
import Jhalfs.Menu.Kconfig
import Jhalfs.Menu.Depends
import Jhalfs.Menu.Invalidate
import Jhalfs.Menu.State
import Jhalfs.Menu.Values
import Jhalfs.Menu.Assign
import Jhalfs.Menu.Recorded
import Jhalfs.Menu.Reload
import Jhalfs.Common.Configuration
import Jhalfs.Book.Targets
import Jhalfs.Book.Request
