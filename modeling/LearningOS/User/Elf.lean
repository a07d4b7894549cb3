import LearningOS.Store.Footprint

namespace LearningOS
open ByteStore

def elfMagic : Nat := 0x464C457F

section Fields
variable (m : Bytes) (image ph : Nat)

def ehMagic : Nat := load32 (wrapped m) image

def ehEntry : Nat := load32 (wrapped m) (image + 24)

def ehPhoff : Nat := load32 (wrapped m) (image + 28)

def ehPhentsize : Nat := load16 (wrapped m) (image + 42)

def ehPhnum : Nat := load16 (wrapped m) (image + 44)

def phType : Nat := load32 (wrapped m) ph

def phOffset : Nat := load32 (wrapped m) (ph + 4)

def phVaddr : Nat := load32 (wrapped m) (ph + 8)

def phFilesz : Nat := load32 (wrapped m) (ph + 16)

def phMemsz : Nat := load32 (wrapped m) (ph + 20)

/-- The program header `ph` of the loop, for its counter `i`. -/
def phdrAt (i : Nat) : Nat := u32 (image + ehPhoff m image + i * ehPhentsize m image)

end Fields

/-- What `elf_load` leaves behind: the memory, the value it returns and the addresses it
has read. -/
structure ElfLoad where
  mem : Bytes
  ret : Int
  reads : List Nat

/-- The outcome with the addresses read before it. -/
def ElfLoad.reading (reads : List Nat) (r : ElfLoad) : ElfLoad := { r with reads := reads ++ r.reads }

/-- The two calls for a segment. Between them the header is read again, from the memory the
first has written. -/
def loadSegment (m : Bytes) (image ph : Nat) : Bytes :=
  let dest := phVaddr m ph
  let m := memcpy m dest (u32 (image + phOffset m ph)) (phFilesz m ph)
  if phMemsz m ph > phFilesz m ph then
    memset m (u32 (dest + phFilesz m ph)) 0 (phMemsz m ph - phFilesz m ph)
  else m

/-- The body of the loop: the memory it goes on with, or none where it returns. -/
def loadHeader (m : Bytes) (image size ph : Nat) : Option Bytes :=
  if phType m ph ≠ 1 then some m
  else if u32 (phOffset m ph + phFilesz m ph) > size then none
  else some (loadSegment m image ph)

/-- The addresses the body of the loop reads in a program header and in the contents of its
segment. -/
def headerReads (m : Bytes) (image size ph : Nat) : List Nat :=
  bytesAt ph 4 ++
    if phType m ph ≠ 1 then []
    else bytesAt (ph + 4) 4 ++ bytesAt (ph + 16) 4 ++
      if u32 (phOffset m ph + phFilesz m ph) > size then []
      else bytesAt (ph + 8) 4 ++ bytesAt (image + phOffset m ph) (phFilesz m ph) ++ bytesAt (ph + 20) 4

/-- The loop over the program headers from the counter `i` on, and what comes behind it. -/
def elfHeaders (image size entryOut : Nat) (m : Bytes) (i : Nat) : ElfLoad :=
  if i < ehPhnum m image then
    match loadHeader m image size (phdrAt m image i) with
    | none => ⟨m, -1, headerReads m image size (phdrAt m image i)⟩
    | some m' => (elfHeaders image size entryOut m' (i + 1)).reading (headerReads m image size (phdrAt m image i))
  else
    ⟨if entryOut ≠ 0 then store32 m entryOut (ehEntry m image) else m, 0, bytesAt (image + 24) 4⟩
termination_by 2 ^ 16 - i
decreasing_by
  have bound := load16_lt (wrapped m) (image + 44)
  unfold ehPhnum at *
  omega

/-- `phnum`, `phentsize` and `phoff` are read again for each header, at the addresses listed
here. -/
def elfLoad (m : Bytes) (image size entryOut : Nat) : ElfLoad :=
  if image = 0 ∨ size < 52 then ⟨m, -1, []⟩
  else if ehMagic m image ≠ elfMagic then ⟨m, -1, bytesAt image 4⟩
  else
    let checked := bytesAt image 4 ++ bytesAt (image + 28) 4 ++ bytesAt (image + 42) 4
    if u32 (ehPhoff m image + ehPhnum m image * ehPhentsize m image) > size then ⟨m, -1, checked⟩
    else (elfHeaders image size entryOut m 0).reading checked

end LearningOS
