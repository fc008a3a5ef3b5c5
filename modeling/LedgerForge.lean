import LedgerForge.Model.DoubleEntry
import LedgerForge.Engine.Payloads
import LedgerForge.Engine.Bulk
import LedgerForge.Policy.Narrowing
import LedgerForge.Chain.Agreement
import LedgerForge.Policy.Approvals
import LedgerForge.History.SnapshotAgreement
import LedgerForge.Engine.ActionRuns
import LedgerForge.Locks.MultiLocker
import LedgerForge.Metadata.Independence
import LedgerForge.Lineage.Retries
import LedgerForge.Lineage.ShadowHolds
import LedgerForge.Policy.Scopes
import LedgerForge.Reconciliation.Isolation
import LedgerForge.Reconciliation.Exclusivity
import LedgerForge.Model.Conservation
import LedgerForge.Model.RoundTrip
import LedgerForge.Lineage.Outbox
import LedgerForge.Files.Uploads
import LedgerForge.Batches.Outcomes
import LedgerForge.Hooks.Consistency
import LedgerForge.Monitors.Edits
import LedgerForge.Identities.Edits
import LedgerForge.Lineage.Allocation
import LedgerForge.Engine.Totals
import LedgerForge.Engine.HotLanes
import LedgerForge.Lineage.Naming
import LedgerForge.Identities.TokenFormats
import LedgerForge.Policy.Routes
import LedgerForge.Integrity.IntentLineage
