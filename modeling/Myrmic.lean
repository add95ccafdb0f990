import Myrmic.AuthoritativeRestore
import Myrmic.Handoff
import Myrmic.Transactions
import Myrmic.CommandStream
import Myrmic.Lifetime
import Myrmic.EventStream
import Myrmic.Registry
import Myrmic.RootDeaths
import Myrmic.FailedDeploys
import Myrmic.RestartPlanning
import Myrmic.RootRows
import Myrmic.PlacementDecisions
import Myrmic.Fencing
import Myrmic.RegistryTables
import Myrmic.ModuleStorage
import Myrmic.TapHandles
import Myrmic.QueryAnswers
import Myrmic.CellPump
import Myrmic.DispatcherSlots
import Myrmic.LoginSecrets
import Myrmic.GatewaySessions
import Myrmic.Onboarding
import Myrmic.SubjectRanges
import Myrmic.EffectiveBooleans
import Myrmic.ReplicaStatus
import Myrmic.Scans
import Myrmic.TablePaging
import Myrmic.SpawnGate
import Myrmic.EmbeddedMailbox
import Myrmic.ScopeTexts
import Myrmic.SignalSlots
import Myrmic.Fragmentation
import Myrmic.PinOwners
import Myrmic.Urls
