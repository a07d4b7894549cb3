import LearningOS.Heap.Gaps
import LearningOS.Frames.FirstFit
import LearningOS.Frames.Released
import LearningOS.Frames.Overlay
import LearningOS.Interrupt.Suspended
import LearningOS.Boot.HeapFrames
import LearningOS.Kernel.Files
import LearningOS.Fat.Directories
import LearningOS.Fat.Cache
import LearningOS.Fat.ReadFile
import LearningOS.Fat.Encoding
import LearningOS.Fat.Bounds
import LearningOS.Fat.Termination
import LearningOS.Fat.KeptNames
import LearningOS.Interrupt.Realization
import LearningOS.Io.Console
import LearningOS.Io.Syscall
import LearningOS.Proc.Resume
import LearningOS.Proc.RoundRobin
import LearningOS.Proc.ExitCodes
import LearningOS.Boot.Disk
import LearningOS.Fs.Paths
import LearningOS.Boot.Structures
import LearningOS.User.ElfImage
import LearningOS.User.StackArguments
import LearningOS.Fs.ReadExact
import LearningOS.Fs.WriteBounds
import LearningOS.Kernel.FileRuns
import LearningOS.Fs.Resolve
import LearningOS.User.CommandLine
import LearningOS.Io.FormatReads
import LearningOS.Io.SignedFields
import LearningOS.Io.Numerals
import LearningOS.Io.Modifiers
import LearningOS.Fat.EntryArray
import LearningOS.Io.Screen
import LearningOS.Io.Mouse
import LearningOS.Storage.AtaDevice
import LearningOS.Io.FormatPieces
import LearningOS.Fat.FileStore
import LearningOS.Interrupt.Irqs
import LearningOS.Io.InterruptedPops
import LearningOS.User.ShellSession
