import Kobalt.Arch.SignalFrame
import Kobalt.Flatfs.Listing
import Kobalt.Flatfs.DirFrame
import Kobalt.Flatfs.LinkRuns
import Kobalt.Flatfs.BtreeIter
import Kobalt.Flatfs.Reboot
import Kobalt.Kern.WaitQueue
import Kobalt.Kern.Hrtimer
import Kobalt.Kern.Ipi
import Kobalt.Kern.Amx
import Kobalt.Kapi.FdLaw
import Kobalt.Kapi.Spawn
import Kobalt.Kapi.Vec
import Kobalt.Kapi.Memfd
import Kobalt.Kapi.Eventfd
import Kobalt.Mm.Large
import Kobalt.Vfs.Route
import Kobalt.Tmpfs.Handles
import Kobalt.Tykid.Revoke
import Kobalt.Tykid.Iommu
import Kobalt.Tykid.Policy
import Kobalt.Tykid.Audit
import Kobalt.Tykid.Selector
import Kobalt.Tykid.Stage1
import Kobalt.Tools.Mkfs
import Kobalt.Net.Sha256
import Kobalt.Net.Aead
import Kobalt.Drivers.Random
