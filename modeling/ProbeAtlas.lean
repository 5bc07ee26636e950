import ProbeAtlas.Main
import ProbeAtlas.Proofs.Outcome
import ProbeAtlas.Proofs.Census
import ProbeAtlas.Proofs.Layout
import ProbeAtlas.Proofs.Agreement
import ProbeAtlas.Proofs.Wiring
import ProbeAtlas.Proofs.Qualification
import ProbeAtlas.Proofs.ReportDocument
import ProbeAtlas.Proofs.ReportConsistency
import ProbeAtlas.Proofs.SignalLayout
import ProbeAtlas.Proofs.Hierarchy
import ProbeAtlas.Proofs.Provenance
import ProbeAtlas.Proofs.Flattening
import ProbeAtlas.Proofs.FlatContents
import ProbeAtlas.Proofs.Separation
import ProbeAtlas.Proofs.LiteralCodec
import ProbeAtlas.Proofs.Packing
import ProbeAtlas.Proofs.CrossCheck
import ProbeAtlas.Proofs.Connectivity
import ProbeAtlas.Proofs.RawText
import ProbeAtlas.Proofs.CoreCells
import ProbeAtlas.Proofs.CutAgreement
import ProbeAtlas.Proofs.Ascent
import ProbeAtlas.Proofs.PathPrediction
import ProbeAtlas.Proofs.WriteOnce
import ProbeAtlas.Proofs.Verdicts
import ProbeAtlas.Proofs.Decoding
import ProbeAtlas.Proofs.Enrolment
import ProbeAtlas.Proofs.Faults
import ProbeAtlas.Proofs.ModuleOrder
import ProbeAtlas.Proofs.Reordering
import ProbeAtlas.Proofs.InstanceNames
import ProbeAtlas.Proofs.Recursion
import ProbeAtlas.Proofs.Depths
import ProbeAtlas.Proofs.NetNumeral
import ProbeAtlas.Proofs.Denotation
import ProbeAtlas.Proofs.Climbing
import ProbeAtlas.Proofs.Cutting
import ProbeAtlas.Proofs.FullyWired
import ProbeAtlas.Proofs.CompleteCandidates
import ProbeAtlas.Proofs.DeepestRoot
import ProbeAtlas.Proofs.Renumbering
import ProbeAtlas.Proofs.OuterNames
import ProbeAtlas.Proofs.NetlistShape
import ProbeAtlas.Proofs.CoreOrder
import ProbeAtlas.Proofs.NamePreference
import ProbeAtlas.Proofs.SignalNames
