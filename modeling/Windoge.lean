import Windoge.Lz4.BuildScript
import Windoge.Exec.Stray
import Windoge.Kernel.Exhaustion
import Windoge.Kernel.FullMachine
import Windoge.Script.Words
import Windoge.Kernel.UserAccess
import Windoge.Kernel.Turns
import Windoge.Script.Loops
import Windoge.Exfat.Listing
import Windoge.Exfat.Contents
import Windoge.Clock.Rtc
import Windoge.Exec.Launcher
import Windoge.Exec.Notes
import Windoge.Kernel.Settings
import Windoge.Lz4.Soundness
import Windoge.Shell.AndOr
import Windoge.Editor.Saving
import Windoge.Console.Print
import Windoge.Shell.DeleteCommand
import Windoge.Vfs.DriveLetters
import Windoge.Exfat.Format
import Windoge.Exfat.EntryUpdates
import Windoge.Vfs.Paths
import Windoge.Exfat.NewName
import Windoge.Exfat.Follow
import Windoge.Exfat.FirstFit
import Windoge.Console.Keyboard
import Windoge.Kernel.Power
