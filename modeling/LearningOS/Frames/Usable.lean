import LearningOS.Frames.Reach

namespace LearningOS
open ByteStore

/-- The first byte behind a region of the map. -/
def MmapEntry.stop (e : MmapEntry) : Nat := e.addr + e.len

section Init
variable {boot : Bytes} {mb kernelEnd : Nat} {entries : List MmapEntry}

end Init

end LearningOS
