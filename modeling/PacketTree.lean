import PacketTree.CommandLine.Dissect
import PacketTree.Files.Tree
import PacketTree.Main
import PacketTree.Proofs.Dissection.SafeIndex
import PacketTree.Proofs.Dissection.Termination
import PacketTree.Proofs.Reassembly.Conservation
import PacketTree.Proofs.Reassembly.Repetition
import PacketTree.Proofs.Reassembly.SafeIndex
import PacketTree.Proofs.Session.Orderly
import PacketTree.Text.Utf8
import PacketTree.Proofs.Dissection.Containment
import PacketTree.Proofs.Dissection.Breakdown
import PacketTree.Proofs.Dissection.Isolation
import PacketTree.Proofs.Frame.History
import PacketTree.Proofs.Header.Fields
import PacketTree.Proofs.Protocol.Encoding
import PacketTree.Proofs.Protocol.Stack
import PacketTree.Proofs.Reassembly.Anchor
import PacketTree.Proofs.Capture.Classic
import PacketTree.Proofs.Capture.Sections
import PacketTree.Proofs.Frame.Walks
import PacketTree.Proofs.Reassembly.Extent
import PacketTree.Proofs.Dissection.Looks
import PacketTree.Proofs.Session.Lifecycle
import PacketTree.Proofs.Reassembly.Precedence
import PacketTree.Proofs.Reassembly.Reopening
import PacketTree.Proofs.Protocol.Lineage
import PacketTree.Proofs.Protocol.Truncation
import PacketTree.Proofs.Protocol.Options
import PacketTree.Proofs.Protocol.Boundary
import PacketTree.Proofs.Reassembly.Expiry
import PacketTree.Proofs.Text.Address
import PacketTree.Proofs.Protocol.StreamName
import PacketTree.Proofs.Dissection.Siblings
import PacketTree.Proofs.Namespace.RoundTrip
import PacketTree.Proofs.Namespace.Anchored
import PacketTree.Proofs.Report.RoundTrip
import PacketTree.Proofs.CommandLine.Dissect
import PacketTree.Proofs.Flow.History
import PacketTree.Proofs.Session.SettingsText
import PacketTree.Proofs.Bytes.Algebra
import PacketTree.Proofs.Lists.Replacement
import PacketTree.Proofs.Regex.Brackets
