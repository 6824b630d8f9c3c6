import Cmogstored.BufferedOutput
import Cmogstored.Calls
import Cmogstored.ChunkParser
import Cmogstored.ChunkScan
import Cmogstored.ChunkSize
import Cmogstored.Decimal
import Cmogstored.Delivery
import Cmogstored.Docroot
import Cmogstored.Ends
import Cmogstored.Exit
import Cmogstored.ExitStep
import Cmogstored.Fdmap
import Cmogstored.File
import Cmogstored.FsckRuns
import Cmogstored.FsckSlots
import Cmogstored.HeadBacktrack
import Cmogstored.HeadFields
import Cmogstored.HeadInput
import Cmogstored.HeadLines
import Cmogstored.HeadNumbers
import Cmogstored.HeadScan
import Cmogstored.HeaderLine
import Cmogstored.HeadersApart
import Cmogstored.Http
import Cmogstored.HttpCommon
import Cmogstored.HttpConfined
import Cmogstored.HttpFrame
import Cmogstored.HttpFuel
import Cmogstored.HttpGet
import Cmogstored.HttpParser
import Cmogstored.HttpPut
import Cmogstored.HttpReply
import Cmogstored.HttpRule
import Cmogstored.Inherit
import Cmogstored.Interleave
import Cmogstored.Iostat
import Cmogstored.IostatLines
import Cmogstored.Ioutil
import Cmogstored.IoutilRuns
import Cmogstored.Lengths
import Cmogstored.LineCost
import Cmogstored.LineScan
import Cmogstored.LineText
import Cmogstored.MarkSweep
import Cmogstored.Master
import Cmogstored.Mgmt
import Cmogstored.MgmtCommands
import Cmogstored.MgmtConfined
import Cmogstored.MgmtDialogue
import Cmogstored.MgmtFraming
import Cmogstored.MgmtFsckOnly
import Cmogstored.MgmtParser
import Cmogstored.MgmtPrio
import Cmogstored.MgmtReference
import Cmogstored.MgmtRuns
import Cmogstored.MgmtScan
import Cmogstored.MgmtUnknown
import Cmogstored.Mkpath
import Cmogstored.Mkusage
import Cmogstored.Mounts
import Cmogstored.NumberWrites
import Cmogstored.Numeral
import Cmogstored.Offer
import Cmogstored.OpenFile
import Cmogstored.PartialPut
import Cmogstored.PartialPutRuns
import Cmogstored.PendingReply
import Cmogstored.Pidfile
import Cmogstored.Prog
import Cmogstored.ProgWp
import Cmogstored.PutPath
import Cmogstored.Quit
import Cmogstored.QuitAccounts
import Cmogstored.QuitWatchers
import Cmogstored.RangeReply
import Cmogstored.Reference
import Cmogstored.RequestLine
import Cmogstored.Respawn
import Cmogstored.Scan
import Cmogstored.Script
import Cmogstored.Server
import Cmogstored.ServerFsck
import Cmogstored.ServerOwners
import Cmogstored.ServerStep
import Cmogstored.ServerWorld
import Cmogstored.SoleOwner
import Cmogstored.Supervise
import Cmogstored.TryWrite
import Cmogstored.Types
import Cmogstored.UpgradeFails
import Cmogstored.Usage
import Cmogstored.WatcherLists
