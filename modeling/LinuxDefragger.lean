import LinuxDefragger.Fat.UpdatePaths
import LinuxDefragger.Fat.JournalText
import LinuxDefragger.HfsPlus.History
import LinuxDefragger.Fat.JournalBounds
import LinuxDefragger.Ntfs.Analyser
import LinuxDefragger.Helper.Stops
import LinuxDefragger.Ntfs.MappingSpace
import LinuxDefragger.Ntfs.Placement
import LinuxDefragger.Fat.Codec
import LinuxDefragger.Native.WholeFiles
import LinuxDefragger.Exfat.Analyser
import LinuxDefragger.Exfat.Compact
import LinuxDefragger.Fat.GrowthComplete
import LinuxDefragger.Fat.LongNames
import LinuxDefragger.Fat.Maps
import LinuxDefragger.Fat.Mirrors
import LinuxDefragger.Gui.RangeAlgebra
import LinuxDefragger.Ntfs.BitmapExact
import LinuxDefragger.Ntfs.RunCopy
import LinuxDefragger.Fat.BulkCopy
import LinuxDefragger.Btrfs.KernelSearch
import LinuxDefragger.Gui.Overlays
import LinuxDefragger.Gui.LiveMap
import LinuxDefragger.Gui.Swap
import LinuxDefragger.Gui.Ext
import LinuxDefragger.Ntfs.BitmapPatches
import LinuxDefragger.Ntfs.RecoveryFrame
