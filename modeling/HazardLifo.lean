import HazardLifo.History
import HazardLifo.Interleaved.Machine
import HazardLifo.Scenario.Script
import HazardLifo.Proofs.Interleaved.Linearization
import HazardLifo.Proofs.Interleaved.Places
import HazardLifo.Proofs.Interleaved.Renaming
import HazardLifo.Proofs.Interleaved.Tenure
import HazardLifo.Proofs.Interleaved.Exhaustion
import HazardLifo.Proofs.Interleaved.FirstClaims
import HazardLifo.Proofs.Interleaved.Gauge
import HazardLifo.Proofs.Interleaved.Sweep
import HazardLifo.Proofs.Interleaved.Passes
import HazardLifo.Proofs.Interleaved.Reclaim
import HazardLifo.Proofs.Interleaved.Retries
import HazardLifo.Proofs.Interleaved.Effort
import HazardLifo.Proofs.Interleaved.Survey
import HazardLifo.Proofs.Interleaved.Progress
import HazardLifo.Proofs.Histories.Chronicle
import HazardLifo.Proofs.Histories.Leases
import HazardLifo.Proofs.Histories.Pops
import HazardLifo.Proofs.Histories.Handles
import HazardLifo.Proofs.Histories.Operations
import HazardLifo.Proofs.Histories.Sound
import HazardLifo.Proofs.Histories.Steps
import HazardLifo.Proofs.Histories.Ownership
import HazardLifo.Proofs.Histories.References
import HazardLifo.Proofs.Histories.Effects
import HazardLifo.Proofs.Histories.Nodes
import HazardLifo.Proofs.Histories.Reclamation
import HazardLifo.Proofs.Histories.Caches
import HazardLifo.Proofs.Histories.Outcomes
import HazardLifo.Proofs.Histories.Conservation
import HazardLifo.Proofs.Histories.TearDown
import HazardLifo.Proofs.Histories.Aftermath
import HazardLifo.Proofs.Histories.Failures
import HazardLifo.Proofs.Histories.Agreement
import HazardLifo.Proofs.Histories.Bounds
import HazardLifo.Proofs.Histories.Holders
import HazardLifo.Proofs.Histories.Dealings
import HazardLifo.Proofs.Histories.Exits
import HazardLifo.Proofs.Histories.Alike
import HazardLifo.Proofs.Histories.Independence
import HazardLifo.Proofs.Histories.Dismantling
import HazardLifo.Proofs.Histories.Publications
import HazardLifo.Proofs.Histories.Log
import HazardLifo.Proofs.Histories.Usage
import HazardLifo.Proofs.Interleaved.Views
import HazardLifo.Proofs.Interleaved.Sequential
