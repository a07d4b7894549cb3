import LearningOS.Boot.HeapFrames
import LearningOS.Frames.Usable

namespace LearningOS
open ByteStore

section Range
variable {boot : Bytes} {mb kernelEnd start length : Nat} {entries : List MmapEntry}

end Range

end LearningOS
