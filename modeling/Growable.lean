import Growable.Config
import Growable.Config.Document
import Growable.Config.Environment
import Growable.Crew
import Growable.ElementType
import Growable.Error
import Growable.Kind
import Growable.Lock.Flagged
import Growable.Lock.Gate
import Growable.Lock.Layout
import Growable.Lock.Monitor
import Growable.Lock.Roster
import Growable.Lock.Session
import Growable.Lock.Session.Flagged
import Growable.Lock.Session.Layout
import Growable.Lock.Session.Roster
import Growable.Lock.Session.Spin
import Growable.Lock.Session.Stamped
import Growable.Lock.Spin
import Growable.Lock.Stamped
import Growable.Machine
import Growable.Proofs.Alone
import Growable.Proofs.Config.Loading
import Growable.Proofs.Lock.Admission
import Growable.Proofs.Lock.Clients
import Growable.Proofs.Lock.Exclusion
import Growable.Proofs.Lock.Flagged
import Growable.Proofs.Lock.FlaggedAdmission
import Growable.Proofs.Lock.FlaggedRuns
import Growable.Proofs.Lock.Flags
import Growable.Proofs.Lock.LayoutRuns
import Growable.Proofs.Lock.Monitors
import Growable.Proofs.Lock.Peak
import Growable.Proofs.Lock.Roster
import Growable.Proofs.Lock.Sections
import Growable.Proofs.Lock.Serial
import Growable.Proofs.Lock.Solo
import Growable.Proofs.Lock.StampedRuns
import Growable.Proofs.Lock.Stance
import Growable.Proofs.Lock.Versions
import Growable.Proofs.Lock.Word
import Growable.Proofs.Operations
import Growable.Proofs.Runs
import Growable.Proofs.SharedArray.Alone.Gated
import Growable.Proofs.SharedArray.Alone.Monitored
import Growable.Proofs.SharedArray.Alone.Unguarded
import Growable.Proofs.SharedArray.Bare
import Growable.Proofs.SharedArray.Bounded
import Growable.Proofs.SharedArray.Gated.Appends
import Growable.Proofs.SharedArray.Gated.Calls
import Growable.Proofs.SharedArray.Gated.Cursor
import Growable.Proofs.SharedArray.Gated.Deposits
import Growable.Proofs.SharedArray.Gated.Finding
import Growable.Proofs.SharedArray.Gated.Prefix
import Growable.Proofs.SharedArray.Gated.Progress
import Growable.Proofs.SharedArray.Gated.Published
import Growable.Proofs.SharedArray.Gated.Reads
import Growable.Proofs.SharedArray.Gated.Refusals
import Growable.Proofs.SharedArray.Gated.Schedules
import Growable.Proofs.SharedArray.Gated.Setup
import Growable.Proofs.SharedArray.Gated.Stamps
import Growable.Proofs.SharedArray.Gated.Stance
import Growable.Proofs.SharedArray.Gated.Stores
import Growable.Proofs.SharedArray.Gated.Survival
import Growable.Proofs.SharedArray.Linearizability
import Growable.Proofs.SharedArray.Monitored
import Growable.Proofs.SharedArray.Parts
import Growable.Proofs.SharedArray.Reference
import Growable.Proofs.SharedArray.Strategy
import Growable.Proofs.SharedArray.Unguarded.Answers
import Growable.Proofs.SharedArray.Unguarded.Contents
import Growable.Proofs.SharedArray.Unguarded.Misuse
import Growable.Proofs.SharedArray.Unguarded.Progress
import Growable.Proofs.SharedArray.Unguarded.Reclaim
import Growable.Proofs.SharedArray.Unguarded.Steps
import Growable.Proofs.SharedArray.Unguarded.Whereabouts
import Growable.Proofs.SharedMap.Alone
import Growable.Proofs.SharedMap.Buckets
import Growable.Proofs.SharedMap.Inserts
import Growable.Proofs.SharedMap.Ledger
import Growable.Proofs.SharedMap.Order
import Growable.Proofs.SharedMap.Reference
import Growable.Proofs.SharedMap.Room
import Growable.Proofs.SharedMap.Sizing
import Growable.Proofs.SharedMap.Stages
import Growable.Proofs.SharedMap.Table
import Growable.Proofs.SharedMap.Tight
import Growable.Proofs.SharedMap.Visits
import Growable.Proofs.SharedMap.Walks
import Growable.Proofs.SharedMap.Winners
import Growable.Proofs.Text.Grammar
import Growable.Proofs.Threads
import Growable.Proofs.Waiting
import Growable.Record
import Growable.SharedArray.Basic
import Growable.SharedArray.Call
import Growable.SharedArray.Gated
import Growable.SharedArray.Monitored
import Growable.SharedArray.Strategy
import Growable.SharedArray.Unguarded
import Growable.SharedArray.Workload
import Growable.SharedMap.Basic
import Growable.SharedMap.Hasher
import Growable.SharedMap.Machine
import Growable.SharedMap.Sizing
import Growable.SharedMap.Workload
import Growable.Store
import Growable.Text.Blank
import Growable.Text.Document
import Growable.Text.Numeral
