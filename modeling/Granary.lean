import Granary.Blocks.Theorems
import Granary.Cfg.Theorems
import Granary.DataFlow.Theorems
import Granary.Fragments.Theorems
import Granary.Instructions.Theorems
import Granary.Interrupts.Theorems
import Granary.Kernel.Theorems
import Granary.Mangle.Theorems
import Granary.Policies.Theorems
import Granary.Registers.Theorems
import Granary.User.Theorems
import Granary.Watchpoints.Theorems
import Granary.Debug.Theorems
