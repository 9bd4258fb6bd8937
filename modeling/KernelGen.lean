import KernelGen.Code.Text
import KernelGen.Program.Substitution
import KernelGen.Session
import KernelGen.Proofs.Kernel.AsLoop
import KernelGen.Proofs.Kernel.Scalars
import KernelGen.Proofs.Slices.Lowering
import KernelGen.Proofs.Session.Scopes
import KernelGen.Proofs.Course.Spaces
import KernelGen.Proofs.Kernel.Effect
import KernelGen.Proofs.Meaning.Lowering
import KernelGen.Proofs.Slices.Tiling
import KernelGen.Proofs.Lowering.MapFree
import KernelGen.Proofs.Lowering.InPlace
import KernelGen.Proofs.Kernel.Structure
import KernelGen.Proofs.Likeness.Relevance
import KernelGen.Proofs.Likeness.Settings
import KernelGen.Proofs.Size.RowMajor
import KernelGen.Proofs.Kernel.Plans
import KernelGen.Proofs.Slices.Names
import KernelGen.Proofs.Program.Scoping
import KernelGen.Proofs.Program.Replacing
import KernelGen.Proofs.Slices.Composition
import KernelGen.Proofs.Lowering.Assignment
import KernelGen.Proofs.Program.Stopping
import KernelGen.Proofs.Text.Faithful
