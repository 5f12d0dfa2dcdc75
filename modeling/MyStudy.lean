import MyStudy.Lib.BlockMachine
import MyStudy.Lib.Bytes
import MyStudy.Lib.Components
import MyStudy.Lib.FreshNaming
import MyStudy.Lib.ComparisonSort
import MyStudy.Lib.FailingFold
import MyStudy.Lib.Program
import MyStudy.Lib.History
import MyStudy.Lib.Transition
import MyStudy.Lib.LineBuffer
import MyStudy.Lib.Base64
import MyStudy.Lib.Utf16
import MyStudy.Lib.SqlString
import MyStudy.Zn.Misc
import MyStudy.Zn.UntarUtils
import MyStudy.Zn.TarInternal
import MyStudy.Zn.Untar
import MyStudy.Zn.UntarSegmentation
import MyStudy.Zn.UntarRename
import MyStudy.Zn.UntarNumber
import MyStudy.Zn.TarArchive
import MyStudy.Zn.UntarContent
import MyStudy.Zn.UntarRoundTrip
import MyStudy.Zn.UntarSkipped
import MyStudy.Zn.UntarNoticed
import MyStudy.Zn.Metafile
import MyStudy.Zn.Utf7Convert
import MyStudy.Zn.FolderInfo
import MyStudy.Zn.Mailbox
import MyStudy.Zn.FilterSequence
import MyStudy.Zn.MailboxDump
import MyStudy.Zn.MailboxDumpFiles
import MyStudy.Zn.Cimap
import MyStudy.Zn.CimapAppend
import MyStudy.Zn.ImapGrammar
import MyStudy.Zn.ImapDialogue
import MyStudy.Zn.ImapPhase
import MyStudy.Zn.MailboxCreated
import MyStudy.Zn.MigrationDeleted
import MyStudy.Zn.CheckRequest
import MyStudy.Zn.MigrationQueue
import MyStudy.Zn.AccessDb
import MyStudy.Zn.NodeRouting
import MyStudy.Zn.Connection
import MyStudy.Zn.MainProcess
import MyStudy.Zn.RowClaim
import MyStudy.Zn.SerializedLines
import MyStudy.Zn.FolderSerialize
import MyStudy.Zn.MailboxSerialize
import MyStudy.Zn.ModifiedUtf7
import MyStudy.Zn.NetworkReqGenerator
import MyStudy.Zn.ImapLockstep
import MyStudy.Zn.FolderXml
import MyStudy.Zn.Server
import MyStudy.Zn.MailboxDumpFailures
import MyStudy.SimNsim.CommonTools
import MyStudy.SimNsim.Session
import MyStudy.SimNsim.Configuration
import MyStudy.SimNsim.Response
import MyStudy.SimNsim.ConfigText
import MyStudy.SimNsim.LoadConfig
import MyStudy.MailAuth.Mysql
import MyStudy.MailAuth.MailAuth4Nginx
import MyStudy.Lib.Heap
import MyStudy.Lib.FileProgram
import MyStudy.Lib.FileLogic
import MyStudy.Lib.FileOwners
import MyStudy.Lib.Linearizable
import MyStudy.Lib.FileMachine
import MyStudy.Lib.FileService
import MyStudy.Apue.Db
import MyStudy.Apue.DbRecord
import MyStudy.Apue.DbAccess
import MyStudy.Apue.DbParts
import MyStudy.Apue.DbCalls
import MyStudy.Apue.DbMap
import MyStudy.Apue.DbLayout
import MyStudy.Apue.DbAlone
import MyStudy.Apue.DbScan
import MyStudy.Apue.DbStops
import MyStudy.Apue.DbQuits
import MyStudy.Apue.DbConcurrent
import MyStudy.Zn.QueueCounts
import MyStudy.Zn.Dbserv
import MyStudy.Zn.CimapLiteral
import MyStudy.Lib.SortedCut
import MyStudy.Zn.MailboxLimit
import MyStudy.Zn.MetaRecord
import MyStudy.Zn.FolderPaths
import MyStudy.Zn.SentFolder
import MyStudy.Zn.MailTotals
import MyStudy.Lib.StrictWeakOn
import MyStudy.Zn.FolderPriority
import MyStudy.Zn.FolderVector
import MyStudy.Zn.UntarLongName
import MyStudy.Zn.SoapRequest
import MyStudy.Zn.ProcessMatcher
import MyStudy.Zn.RecycleFile
import MyStudy.SimNsim.CommandWords
import MyStudy.Zn.Gunzip
import MyStudy.Zn.Hostlist
import MyStudy.Lib.Sax
import MyStudy.Lib.Template
import MyStudy.Lib.Xml
import MyStudy.Lib.XmlTemplate
import MyStudy.Lib.XmlText
import MyStudy.Zn.LocalConfig
import MyStudy.Zn.ElementValue
import MyStudy.TestProject.CheckConnection
import MyStudy.TestProject.Longestpalindromic
import MyStudy.TestProject.CountAlpha
import MyStudy.TestProject.Crawl
import MyStudy.TestProject.FlatternDict
import MyStudy.TestProject.FeedDoves
import MyStudy.Lib.LockOrder
import MyStudy.Lib.Bystanders
import MyStudy.Apue.DbDeadlock
import MyStudy.Apue.DbOpened
import MyStudy.Lib.SemSet
import MyStudy.Apue.SemaphKept
import MyStudy.Apue.SemaphUnits
import MyStudy.Apue.Mutex2Lives
import MyStudy.Unp.RoundTrip
import MyStudy.Lib.Directory
import MyStudy.Apue.PrintdKept
import MyStudy.Lib.DoublyLinked
import MyStudy.Lib.Ipp
import MyStudy.Apue.PrintSubmit
import MyStudy.Apue.PrintdOrder
import MyStudy.Apue.PrintdList
import MyStudy.Apue.PrintdReceived
import MyStudy.Apue.Rwlock
import MyStudy.Apue.PrintdWorkers
import MyStudy.Lib.RingBuffer
import MyStudy.Unp.Serv05
import MyStudy.Unp.Serv08
import MyStudy.Unp.DgSendRecv
import MyStudy.Unp.Readline
