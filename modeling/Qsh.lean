import Qsh.Broker.RingBound
import Qsh.Client.ResumeStoreRuns
import Qsh.Session.InputTimes
import Qsh.Session.History
import Qsh.Session.DetachRuns
import Qsh.Broker.ActorRuns
import Qsh.Broker.ReaperRuns
import Qsh.Broker.Quota
import Qsh.Screen.NoResync
import Qsh.Screen.ResyncKept
import Qsh.Screen.EffectsOnce
import Qsh.Screen.Vs16Filter
import Qsh.Client.Epochs
import Qsh.Client.HistoryLine
import Qsh.Client.ScreenOrder
import Qsh.Client.PathWatch
import Qsh.Admission.Pace
import Qsh.Reverse.Names
import Qsh.Reverse.Publishing
import Qsh.Audit.Sink
import Qsh.Audit.FileSize
import Qsh.Audit.FailedRename
import Qsh.File.ListAll
import Qsh.File.Shape
import Qsh.Client.Utf16Input
import Qsh.File.Transfer
import Qsh.Acl.Roles
import Qsh.Trust.Store
import Qsh.Trust.Invites
import Qsh.Trust.InviteCode
import Qsh.Reverse.HubClaims
import Qsh.Reverse.Supervise
import Qsh.Reverse.HubReplies
import Qsh.Server.RemoteForwards
import Qsh.Server.Teardown
import Qsh.Tunnel.Stall
import Qsh.Adapt.Governor
import Qsh.Tunnel.Budget
import Qsh.Admission.GateRuns
