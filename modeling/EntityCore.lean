import EntityCore.Restart
import EntityCore.IndexedTree
import EntityCore.ReverseWrite
import EntityCore.NotificationLimits
import EntityCore.FormAgreement
import EntityCore.Reentrancy
import EntityCore.SealedSet
import EntityCore.DependencyAgreement
import EntityCore.FilledContexts
import EntityCore.PathForms
import EntityCore.MergeSelection
import EntityCore.DelegationLifetime
import EntityCore.CommonAncestor
import EntityCore.Uncommitted
import EntityCore.CasFailures
import EntityCore.RawSplice
import EntityCore.WireTotality
import EntityCore.RoleRevocation
import EntityCore.DelegateAcceptance
import EntityCore.SignatureCount
import EntityCore.SignerSetTimes
import EntityCore.HistoryQuery
import EntityCore.SnapshotDiff
import EntityCore.SnapshotShortcut
import EntityCore.TreePut
import EntityCore.TreeMerge
import EntityCore.CertMasking
import EntityCore.ContentVerification
import EntityCore.CheckedChunking
import EntityCore.ContentIngest
import EntityCore.TrieLookup
import EntityCore.PathRegisters
import EntityCore.RevocationRuns
import EntityCore.ClockCompare
