import BiosKernel.Ext2.ReadInode

/-! Where ext2 keeps an inode, and where the driver looks for it. -/

namespace BiosKernel
open ByteMem Checked MachineInt
set_option autoImplicit true

variable {fs : FilesystemData} {sb : Ext2SuperBlock}

end BiosKernel
