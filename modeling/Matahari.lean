import Matahari.Library.Transition
import Matahari.Library.FreshTable
import Matahari.Library.Brackets
import Matahari.Library.PartialState
import Matahari.Library.WeightedDraw
import Matahari.Library.Strtok
import Matahari.Library.CallSimulation
import Matahari.Library.UpwardGraph
import Matahari.Library.CString
import Matahari.Library.Lines
import Matahari.Library.Fuel
import Matahari.Mainloop
import Matahari.MainloopReaper
import Matahari.MainloopDispatch
import Matahari.MainloopTimers
import Matahari.ServicesAction
import Matahari.ServicesIdentity
import Matahari.ServicesEngine
import Matahari.ServicesOutput
import Matahari.ServicesRegistry
import Matahari.ServicesView
import Matahari.ServicesSteps
import Matahari.ServicesLifetime
import Matahari.ServicesCancel
import Matahari.ServicesSync
import Matahari.ServicesSystemd
import Matahari.ServiceAgent
import Matahari.ServiceReplies
import Matahari.ServiceEvents
import Matahari.DbusTypes
import Matahari.DbusMarshal
import Matahari.DbusMethod
import Matahari.DbusObject
import Matahari.DbusAgent
import Matahari.DbusNames
import Matahari.DbusQueries
import Matahari.DbusEffects
import Matahari.DbusRegistration
import Matahari.DbusReplies
import Matahari.DbusPaths
import Matahari.DbusCache
import Matahari.DbusSignals
import Matahari.DbusProperties
import Matahari.Utilities
import Matahari.Dnssrv
import Matahari.DnssrvWeights
import Matahari.BrokerFederation
import Matahari.ManagerInvoke
import Matahari.ManagerSession
import Matahari.SysconfigKeys
import Matahari.SysconfigLinux
import Matahari.SysconfigReplies
import Matahari.SysconfigOverlap
import Matahari.SysconfigStatus
import Matahari.SysconfigFiles
import Matahari.HostLinux
import Matahari.HostProfiles
import Matahari.HostUuid
import Matahari.HostUuidRuns
import Matahari.HostUuidCustom
import Matahari.Library.LastWrite
import Matahari.AgentParse
import Matahari.Library.OnDemand
import Matahari.ManagerSelection
import Matahari.Rpc
import Matahari.RpcAgent
import Matahari.ShellCommand
import Matahari.ShellGroups
import Matahari.ShellTermination
import Matahari.ShellCompletion
import Matahari.ShellCompletionPaths
import Matahari.ShellCompletionOffers
import Matahari.ShellViable
import Matahari.ShellTypes
import Matahari.ShellSelectClass
import Matahari.ShellModes
import Matahari.ShellDispatch
import Matahari.ShellProperties
import Matahari.ShellClassCommands
import Matahari.ShellScripts
import Matahari.ServicesGeneric
import Matahari.DbusSignatures
import Matahari.Library.Cursor
import Matahari.Library.Latch
import Matahari.Library.Alternatives
import Matahari.AgentConnect
import Matahari.AgentEvents
import Matahari.AgentOptions
import Matahari.MainloopGroups
import Matahari.MainloopSignals
import Matahari.MainloopSignalRuns
import Matahari.ServiceDbus
import Matahari.ServicesChild
