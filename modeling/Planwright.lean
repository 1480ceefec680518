import Planwright.Workbench
import Planwright.Main
import Planwright.Proofs.Analysis.Count
import Planwright.Proofs.Analysis.Pinned
import Planwright.Proofs.Analysis.Visible
import Planwright.Proofs.Config.Setting
import Planwright.Proofs.Document.Accept
import Planwright.Proofs.Document.Fingerprint
import Planwright.Proofs.Document.Literal
import Planwright.Proofs.Engine.Fresh
import Planwright.Proofs.Engine.Statistics
import Planwright.Proofs.Graph.Drawing
import Planwright.Proofs.Graph.Label
import Planwright.Proofs.Ledger.Form
import Planwright.Proofs.Ledger.Owned
import Planwright.Proofs.Plan.Dump
import Planwright.Proofs.Plan.Resolve
import Planwright.Proofs.Report.Batch
import Planwright.Proofs.Rule.Meaning.Filter
import Planwright.Proofs.Rule.Meaning.Project
import Planwright.Proofs.Rule.Meaning.Split
import Planwright.Proofs.Rule.Merge
import Planwright.Proofs.Semantics.Hash
import Planwright.Proofs.Semantics.Substitution
import Planwright.Proofs.Variable.History
