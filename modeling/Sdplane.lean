import Sdplane.L2.DataPath
import Sdplane.L2.Fdb
import Sdplane.L2.FollowRib
import Sdplane.L2.PacketOrder
import Sdplane.L2.Repeater
import Sdplane.L2.TapHandler
import Sdplane.L2.Vswitch
import Sdplane.Misc.Agree
import Sdplane.Misc.BinarySearch
import Sdplane.Misc.ByteMem
import Sdplane.Misc.ByteStore
import Sdplane.Misc.CString
import Sdplane.Misc.CarryLoop
import Sdplane.Misc.Channel
import Sdplane.Misc.CommonPrefix
import Sdplane.Misc.DoWhile
import Sdplane.Misc.Fairness
import Sdplane.Misc.ForEach
import Sdplane.Misc.Learned
import Sdplane.Misc.Ledger
import Sdplane.Misc.Mailbox
import Sdplane.Misc.NodeTree
import Sdplane.Misc.Numeral
import Sdplane.Misc.OnesSum
import Sdplane.Misc.PathList
import Sdplane.Misc.Qsbr
import Sdplane.Misc.QsbrOwned
import Sdplane.Misc.Ring
import Sdplane.Misc.Runs
import Sdplane.Misc.Simulates
import Sdplane.Misc.Snprintf
import Sdplane.Misc.Strtol
import Sdplane.Misc.Strtoul
import Sdplane.Misc.Words
import Sdplane.Misc.WrapRange
import Sdplane.Nettlp.Accept
import Sdplane.Nettlp.CplHeaders
import Sdplane.Nettlp.DmaArea
import Sdplane.Nettlp.DmaQueue
import Sdplane.Nettlp.DmaSession
import Sdplane.Nettlp.DmaWrite
import Sdplane.Nettlp.EmittedHeaders
import Sdplane.Nettlp.Frame
import Sdplane.Nettlp.Ipv4
import Sdplane.Nettlp.Mbuf
import Sdplane.Nettlp.MrdRange
import Sdplane.Nettlp.MwrBytes
import Sdplane.Nettlp.OverRead
import Sdplane.Nettlp.Psmem
import Sdplane.Nettlp.PsmemAlloc
import Sdplane.Nettlp.PsmemRead
import Sdplane.Nettlp.PsmemStore
import Sdplane.Nettlp.Reassembly
import Sdplane.Nettlp.Receive
import Sdplane.Nettlp.RequestHeader
import Sdplane.Nettlp.ResidualData
import Sdplane.Nettlp.Settings
import Sdplane.Nettlp.Worker
import Sdplane.Port.AllPorts
import Sdplane.Port.SnprintfFlags
import Sdplane.Rib.Bounds
import Sdplane.Rib.Check
import Sdplane.Rib.Heap
import Sdplane.Rib.Manager
import Sdplane.Rib.NextRib
import Sdplane.Rib.PortDesc
import Sdplane.Rib.QueueConfig
import Sdplane.Rib.Release
import Sdplane.Rib.RibQueue
import Sdplane.Rib.SharedRibs
import Sdplane.Rib.SharedSafety
import Sdplane.Rib.ThreadTable
import Sdplane.Rib.UpdateFrame
import Sdplane.Rib.Workers
import Sdplane.Thread.IndexSafety
import Sdplane.Thread.Info
import Sdplane.Thread.Progress
import Sdplane.Thread.Quit
import Sdplane.Thread.Registry
import Sdplane.Thread.Sound
import Sdplane.Tlp.Header
import Sdplane.Tlp.Support
import Sdplane.Zcmdsh.Abbreviation
import Sdplane.Zcmdsh.Alike
import Sdplane.Zcmdsh.Command
import Sdplane.Zcmdsh.CommandMatch
import Sdplane.Zcmdsh.CommandSpec
import Sdplane.Zcmdsh.CommandTree
import Sdplane.Zcmdsh.Completion
import Sdplane.Zcmdsh.Console
import Sdplane.Zcmdsh.DebugCmd
import Sdplane.Zcmdsh.Display
import Sdplane.Zcmdsh.Editor
import Sdplane.Zcmdsh.Edits
import Sdplane.Zcmdsh.Filled
import Sdplane.Zcmdsh.Formatters
import Sdplane.Zcmdsh.Fselect
import Sdplane.Zcmdsh.Help
import Sdplane.Zcmdsh.History
import Sdplane.Zcmdsh.InstallOrder
import Sdplane.Zcmdsh.InstallRun
import Sdplane.Zcmdsh.Keyfunc
import Sdplane.Zcmdsh.Line
import Sdplane.Zcmdsh.LineEditor
import Sdplane.Zcmdsh.Normal
import Sdplane.Zcmdsh.Prompt
import Sdplane.Zcmdsh.Refinement
import Sdplane.Zcmdsh.RestOfLine
import Sdplane.Zcmdsh.Script
import Sdplane.Zcmdsh.Session
import Sdplane.Zcmdsh.Shell
import Sdplane.Zcmdsh.SortedChildren
import Sdplane.Zcmdsh.Telnet
import Sdplane.Zcmdsh.TelnetState
import Sdplane.Zcmdsh.ValidatedWord
import Sdplane.Zcmdsh.VariableMatch
import Sdplane.Zcmdsh.Vector
import Sdplane.Zcmdsh.VectorSearch
import Sdplane.Zcmdsh.VectorWalk
import Sdplane.Zcmdsh.WindowSize
import Sdplane.Zcmdsh.Word
import Sdplane.Zcmdsh.WordBounds
import Sdplane.Zcmdsh.WordBracket
import Sdplane.Zcmdsh.WordMotion
