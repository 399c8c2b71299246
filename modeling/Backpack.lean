import Backpack.Boot.Selection
import Backpack.Shell.Test
import Backpack.Boot.Cmdline
import Backpack.Boot.InsertErrors
import Backpack.Boot.Modprobe
import Backpack.Boot.CopyToRam
import Backpack.Build.OrderTheorems
import Backpack.Build.SlackwareCacheTheorems
import Backpack.Build.PackageListsTheorems
import Backpack.Build.PackageCaches
import Backpack.Build.NewFiles
import Backpack.Build.Isolation
import Backpack.Layering
import Backpack.Rc.MountTheorems
import Backpack.Dufie.Labels
import Backpack.Dufie.SanitizeTables
import Backpack.Dufie.LoadDir
import Backpack.Dufie.DebianTheorems
import Backpack.Dufie.PortageTheorems
import Backpack.Dufie.Buffers
import Backpack.Pacman.Capture
import Backpack.Framed
import Backpack.Kernel.Branchman
import Backpack.Kernel.BranchmanTheorems
import Backpack.Kernel.Changes
import Backpack.Kernel.CheckEmpty
import Backpack.Kernel.CopyUp
import Backpack.Kernel.Readdir
import Backpack.Kernel.ReaddirTheorems
import Backpack.Kernel.Refinement
import Backpack.Packed
import Backpack.Squashfs.Blocks
import Backpack.Squashfs.Copy
import Backpack.Squashfs.Directories
import Backpack.Squashfs.Files
import Backpack.Squashfs.Inodes
import Backpack.Squashfs.Image
