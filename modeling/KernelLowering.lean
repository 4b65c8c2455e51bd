import KernelLowering.Main
import KernelLowering.Proofs.Address.Slicing
import KernelLowering.Proofs.Convergence.Descent
import KernelLowering.Proofs.Convergence.Stability
import KernelLowering.Proofs.Folding.Types
import KernelLowering.Proofs.Herd.Pipeline
import KernelLowering.Proofs.Integrity.Liveness
import KernelLowering.Proofs.Integrity.Outlining
import KernelLowering.Proofs.Kernel.Extents
import KernelLowering.Proofs.Kernel.TileSizes
import KernelLowering.Proofs.Listing.Renumbering
import KernelLowering.Proofs.Lowering.Views
import KernelLowering.Proofs.Simulation.Pipeline
import KernelLowering.Proofs.Tiling.Cover
import KernelLowering.Text.Sink
