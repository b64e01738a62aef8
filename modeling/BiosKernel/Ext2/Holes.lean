import BiosKernel.Ext2.BlockTree
import BiosKernel.Ext2.ReadCount

namespace BiosKernel
open ByteMem Checked MachineInt
set_option autoImplicit true

variable {fs : FilesystemData} {sb : Ext2SuperBlock}

end BiosKernel
