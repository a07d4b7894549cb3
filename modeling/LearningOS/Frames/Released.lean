import LearningOS.Frames.Usable

namespace LearningOS
open ByteStore

namespace MmapEntry

/-- A frame lies wholly inside a type-1 region. -/
def Holds (e : MmapEntry) (f : Nat) : Prop := e.type = 1 ∧ e.addr ≤ f * 4096 ∧ f * 4096 + 4096 ≤ e.stop

end MmapEntry

end LearningOS
