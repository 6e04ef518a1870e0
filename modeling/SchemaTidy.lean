import SchemaTidy.Main
import SchemaTidy.Folder
import SchemaTidy.Proofs.Folder
import SchemaTidy.Proofs.Source.Recut
import SchemaTidy.Proofs.Source.Simultaneous
import SchemaTidy.Proofs.Source.Slices
import SchemaTidy.Proofs.Source.NewName
import SchemaTidy.Proofs.Source.Unquoted
import SchemaTidy.Proofs.Source.WrittenList
import SchemaTidy.Proofs.Yaml.Repeats
import SchemaTidy.Proofs.Yaml.Writable
import SchemaTidy.Proofs.Yaml.Written
import SchemaTidy.Proofs.Schema.LastEntry
import SchemaTidy.Proofs.Schema.ReadBody
import SchemaTidy.Proofs.Schema.References
import SchemaTidy.Proofs.Schema.SectionPlace
import SchemaTidy.Proofs.Schema.Hidden
import SchemaTidy.Proofs.Dedupe.Blocks
import SchemaTidy.Proofs.Dedupe.Discovery
import SchemaTidy.Proofs.Dedupe.Assignment
import SchemaTidy.Proofs.Dedupe.Settled
import SchemaTidy.Proofs.Dedupe.Effect
import SchemaTidy.Proofs.Dedupe.Spacing
import SchemaTidy.Proofs.Dedupe.Terminators
import SchemaTidy.Proofs.Dedupe.Unchanged
import SchemaTidy.Proofs.Dedupe.Untouched
import SchemaTidy.Proofs.Findings.Places
import SchemaTidy.Proofs.Findings.Completeness
import SchemaTidy.Proofs.Findings.Hints
import SchemaTidy.Proofs.Repair.Selection
import SchemaTidy.Proofs.Repair.Additive
import SchemaTidy.Proofs.Repair.Findings
import SchemaTidy.Proofs.Repair.Settled
import SchemaTidy.Proofs.Repair.Unneeded
import SchemaTidy.Proofs.Run
import SchemaTidy.Proofs.Settings.Load
import SchemaTidy.Proofs.Settings.ReadBack
import SchemaTidy.Proofs.Settings.Variables
