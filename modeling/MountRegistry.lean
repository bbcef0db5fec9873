import MountRegistry.Broker.Session
import MountRegistry.Commit.Completion
import MountRegistry.Commit.Script
import MountRegistry.Mount.Session
import MountRegistry.Service.Session
import MountRegistry.Settings.Basic
import MountRegistry.Store.Session
import MountRegistry.Proofs.Broker.Atomicity
import MountRegistry.Proofs.Broker.OwnWrites
import MountRegistry.Proofs.Broker.Spelling
import MountRegistry.Proofs.Capability
import MountRegistry.Proofs.Commit.Delivery
import MountRegistry.Proofs.Commit.ThreePhases
import MountRegistry.Proofs.Data.Effect
import MountRegistry.Proofs.Files.Change
import MountRegistry.Proofs.Mount.FailedCreation
import MountRegistry.Proofs.Mount.Incarnations
import MountRegistry.Proofs.Mount.RaceTurns
import MountRegistry.Proofs.Node.Feed
import MountRegistry.Proofs.Service.Statuses
import MountRegistry.Proofs.Source.Descent
import MountRegistry.Proofs.Source.Footprint
import MountRegistry.Proofs.Source.ImportGraph
import MountRegistry.Proofs.Source.Newest
import MountRegistry.Proofs.Source.Seeding
import MountRegistry.Proofs.Store.Announcements
import MountRegistry.Proofs.Store.Conformance
import MountRegistry.Proofs.Store.Independence
import MountRegistry.Proofs.Store.LogWindow
import MountRegistry.Proofs.Store.RootWrite
import MountRegistry.Proofs.Store.SerialHistory
import MountRegistry.Proofs.Store.Sharing
import MountRegistry.Proofs.Store.Staging
import MountRegistry.Proofs.Yang.Declaration
import MountRegistry.Proofs.Yang.Lines
import MountRegistry.Proofs.Yang.Writing
