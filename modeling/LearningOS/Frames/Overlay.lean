import LearningOS.Frames.MapWalks

namespace LearningOS
open ByteStore Links

/-- The words from an address on, as many as there are for the frames of 32-bit addresses. -/
def bitmapRam (m : Bytes) (bitmap i : Nat) : BitVec 32 :=
  if i < 2 ^ 15 then BitVec.ofNat 32 (load32 m (bitmap + 4 * i)) else 0#32

/-- The allocator that the globals and their memory stand for. -/
def FrameGlobals.frames (g : FrameGlobals) : Frames where
  frameBitmap := g.frameBitmap
  words := bitmapRam g.mem g.frameBitmap
  totalFrames := g.totalFrames
  usedFrames := g.usedFrames
  bitmapWords := g.bitmapWords
  placementAddr := g.placementAddr

section Words
variable {m m' : Bytes} {bitmap v k j : Nat}

theorem ofNat_or_mask (small : k < 32) : BitVec.ofNat 32 (v ||| 1 <<< k) = BitVec.ofNat 32 v ||| (1#32 <<< k) := by
  apply BitVec.eq_of_getLsbD_eq
  intro i less
  rw [BitVec.getLsbD_or, getLsbD_mask k i small, BitVec.getLsbD_ofNat, BitVec.getLsbD_ofNat, Nat.testBit_or,
    Nat.one_shiftLeft, Nat.testBit_two_pow]
  simp [less, eq_comm]

theorem ofNat_and_mask (small : k < 32) :
    BitVec.ofNat 32 (v &&& (0xFFFFFFFF ^^^ 1 <<< k)) = BitVec.ofNat 32 v &&& ~~~(1#32 <<< k) := by
  apply BitVec.eq_of_getLsbD_eq
  intro i less
  have ones : (0xFFFFFFFF : Nat).testBit i = true := by
    rw [show (0xFFFFFFFF : Nat) = 2 ^ 32 - 1 by rfl, Nat.testBit_two_pow_sub_one]
    simpa using less
  rw [BitVec.getLsbD_and, BitVec.getLsbD_not, getLsbD_mask k i small, BitVec.getLsbD_ofNat, BitVec.getLsbD_ofNat,
    Nat.testBit_and, Nat.testBit_xor, ones, Nat.one_shiftLeft, Nat.testBit_two_pow]
  by_cases same : k = i
  · simp [same]
  · simp [less, same, Ne.symm same]

theorem bitmapRam_store (inside : j < 2 ^ 15) :
    bitmapRam (store32 m (bitmap + 4 * j) v) bitmap = Function.update (bitmapRam m bitmap) j (BitVec.ofNat 32 v) := by
  funext i
  by_cases same : i = j
  · subst same
    rw [Function.update_self, bitmapRam, if_pos inside, load32_store32_same]
    exact BitVec.eq_of_toNat_eq (by simp)
  · rw [Function.update_of_ne same]
    unfold bitmapRam
    rw [load32_store32_other (by omega)]

end Words

/-- The same allocator, with a memory that differs in the words of some frames only. -/
structure BitsChanged (g g' : FrameGlobals) (touched : List Nat) (s : Frames) : Prop where
  frames : g'.frames = s
  outside : ∀ x, (∀ f ∈ touched, x < g.wordAddr f ∨ g.wordAddr f + 4 ≤ x) → g'.mem x = g.mem x

namespace BitsChanged
variable {g g' g'' : FrameGlobals} {s s' : Frames} {f w : Nat} {l l' : List Nat}

theorem refl (g : FrameGlobals) (l : List Nat) : BitsChanged g g l g.frames := ⟨rfl, fun _ _ => rfl⟩

theorem frameBitmap (changed : BitsChanged g g' l s) : g'.frameBitmap = s.frameBitmap :=
  congrArg Frames.frameBitmap changed.frames

theorem trans (first : BitsChanged g g' l s) (second : BitsChanged g' g'' l' s') (bitmap : g'.frameBitmap = g.frameBitmap) :
    BitsChanged g g'' (l ++ l') s' := by
  have same (f : Nat) : g'.wordAddr f = g.wordAddr f := by rw [FrameGlobals.wordAddr, bitmap, FrameGlobals.wordAddr]
  refine ⟨second.frames, fun x away => ?_⟩
  rw [second.outside x fun f later => by rw [same]; exact away f (List.mem_append_right _ later)]
  exact first.outside x fun f sooner => away f (List.mem_append_left _ sooner)

theorem wordAddr_eq (room : g.frameBitmap + 2 ^ 17 ≤ 2 ^ 32) (low : f < 2 ^ 20) :
    g.wordAddr f = g.frameBitmap + 4 * (f / 32) := u32_of_lt (by omega)

/-- Memory in front of the bitmap and behind the last word of the frames stays. -/
theorem beside (changed : BitsChanged g g' l s) (room : g.frameBitmap + 2 ^ 17 ≤ 2 ^ 32) (low : ∀ f ∈ l, f < 2 ^ 20)
    (words : ∀ f ∈ l, f / 32 < w) {x : Nat} (away : x < g.frameBitmap ∨ g.frameBitmap + 4 * w ≤ x) :
    g'.mem x = g.mem x := by
  refine changed.outside x fun f member => ?_
  have word := words f member
  rw [wordAddr_eq room (low f member)]
  omega

theorem testFrame_eq (room : g.frameBitmap + 2 ^ 17 ≤ 2 ^ 32) (low : f < 2 ^ 20) :
    testFrame g.frames f = g.testFrame f := by
  rw [LearningOS.testFrame_eq, FrameGlobals.testFrame, wordAddr_eq room low]
  simp only [FrameGlobals.frames, bitmapRam, if_pos (show f / 32 < 2 ^ 15 by omega), BitVec.getLsbD_ofNat,
    Nat.mod_lt f (show 32 > 0 by decide), decide_true, Bool.true_and, Nat.testBit, Nat.and_comm 1]

theorem setFrame (room : g.frameBitmap + 2 ^ 17 ≤ 2 ^ 32) (low : f < 2 ^ 20) :
    BitsChanged g (g.setFrame f) [f] (setFrame g.frames f) := by
  unfold FrameGlobals.setFrame LearningOS.setFrame
  rw [testFrame_eq room low]
  have word : f / 32 < 2 ^ 15 := by omega
  split
  · exact .refl g _
  · refine ⟨?_, fun x away => store32_outside (away f List.mem_cons_self)⟩
    rw [wordAddr_eq room low]
    simp only [FrameGlobals.frames, bitmapRam_store word, ofNat_or_mask (Nat.mod_lt f (by decide)), bitmapRam,
      if_pos word]

theorem clearFrame (room : g.frameBitmap + 2 ^ 17 ≤ 2 ^ 32) (low : f < 2 ^ 20) :
    BitsChanged g (g.clearFrame f) [f] (clearFrame g.frames f) := by
  unfold FrameGlobals.clearFrame LearningOS.clearFrame
  rw [testFrame_eq room low]
  have word : f / 32 < 2 ^ 15 := by omega
  split
  · refine ⟨?_, fun x away => store32_outside (away f List.mem_cons_self)⟩
    rw [wordAddr_eq room low]
    simp only [FrameGlobals.frames, bitmapRam_store word, ofNat_and_mask (Nat.mod_lt f (by decide)), bitmapRam,
      if_pos word]
  · exact .refl g _

/-- Frames of 32-bit addresses, one after the other. -/
theorem foldl {step : FrameGlobals → Nat → FrameGlobals} {step' : Frames → Nat → Frames}
    (each : ∀ g f, g.frameBitmap + 2 ^ 17 ≤ 2 ^ 32 → f < 2 ^ 20 → BitsChanged g (step g f) [f] (step' g.frames f))
    (bitmap : ∀ s f, (step' s f).frameBitmap = s.frameBitmap) (room : g.frameBitmap + 2 ^ 17 ≤ 2 ^ 32)
    (low : ∀ f ∈ l, f < 2 ^ 20) : BitsChanged g (l.foldl step g) l (l.foldl step' g.frames) := by
  induction l generalizing g with
  | nil => exact .refl g _
  | cons f l ih =>
    have first := each g f room (low f List.mem_cons_self)
    have same : (step g f).frameBitmap = g.frameBitmap := first.frameBitmap.trans (bitmap g.frames f)
    have rest := ih (g := step g f) (by rwa [same]) fun f later => low f (List.mem_cons_of_mem _ later)
    rw [first.frames] at rest
    exact first.trans rest same

theorem reserveRegion (room : g.frameBitmap + 2 ^ 17 ≤ 2 ^ 32) (start length : Nat) :
    BitsChanged g (g.reserveRegion start length) (regionFrames start length) (reserveRegion g.frames start length) :=
  foldl (fun _ _ => setFrame) setFrame_frameBitmap room fun _ => regionFrames_low

theorem freeEntry (room : g.frameBitmap + 2 ^ 17 ≤ 2 ^ 32) (e : MmapEntry) :
    BitsChanged g (g.freeEntry e) (entryFrames e) (freeEntry g.frames e) := by
  unfold FrameGlobals.freeEntry LearningOS.freeEntry entryFrames
  split
  · exact foldl (fun _ _ => clearFrame) clearFrame_frameBitmap room fun _ => regionFrames_low
  · exact .refl g _

theorem freeEntry_frameBitmap (s : Frames) (e : MmapEntry) : (LearningOS.freeEntry s e).frameBitmap = s.frameBitmap := by
  unfold LearningOS.freeEntry
  split
  · exact (foldl_clearFrame_fields _ s).2.2
  · rfl

end BitsChanged

theorem mmapEntryAt_congr {m m' : Bytes} {a : Nat} (same : ∀ x, a ≤ x → x < a + 24 → m' x = m x) :
    mmapEntryAt m' a = mmapEntryAt m a := by
  unfold mmapEntryAt load64
  rw [load32_congr fun x lower upper => same x lower (by omega)]
  rw [load32_congr (a := a + 4) fun x lower upper => same x (by omega) (by omega)]
  rw [load32_congr (a := a + 4 + 4) fun x lower upper => same x (by omega) (by omega)]
  rw [load32_congr (a := a + 12) fun x lower upper => same x (by omega) (by omega)]
  rw [load32_congr (a := a + 12 + 4) fun x lower upper => same x (by omega) (by omega)]
  rw [load32_congr (a := a + 20) fun x lower upper => same x (by omega) (by omega)]

/-- The entries met from an address on do not meet the words of a bitmap. -/
def MapApart (m : Bytes) (stop bitmap words a : Nat) : Prop :=
  ∀ c, Reach (mapNext m stop) a c → c < stop → c + 24 ≤ bitmap ∨ bitmap + 4 * words ≤ c

section Apart
variable {m : Bytes} {stop bitmap words a : Nat}

theorem MapApart.next (apart : MapApart m stop bitmap words a) (inside : a < stop) :
    MapApart m stop bitmap words (nextEntry m a) :=
  fun c reach => apart c (.head (if_pos inside) reach)

/-- Entry after entry. -/
theorem mapApart_iff : MapApart m stop bitmap words a ↔
    (a < stop → (a + 24 ≤ bitmap ∨ bitmap + 4 * words ≤ a) ∧ MapApart m stop bitmap words (nextEntry m a)) := by
  constructor
  · exact fun apart inside => ⟨apart a (.refl _ a) inside, apart.next inside⟩
  · intro each c reach below
    rcases Relation.ReflTransGen.cases_head reach with rfl | ⟨b, link, rest⟩
    · exact (each below).1
    · unfold mapNext at link
      split at link
      · rename_i inside
        cases Option.some.inj link
        exact (each inside).2 c rest below
      · simp at link

end Apart

/-- A second walk whose entries do not meet the bitmap sees what the first one saw. -/
theorem freeWalk_frames {m : Bytes} {stop a limit w : Nat} {g : FrameGlobals} {entries : List MmapEntry}
    (room : g.frameBitmap + 2 ^ 17 ≤ 2 ^ 32)
    (same : ∀ x, x < g.frameBitmap ∨ g.frameBitmap + 4 * w ≤ x → g.mem x = m x)
    (apart : MapApart m stop g.frameBitmap w a) (walk : mmapWalk m stop limit a = some entries)
    (words : ∀ e ∈ entries, ∀ f ∈ entryFrames e, f / 32 < w) :
    ∃ g', FrameGlobals.freeWalk stop limit g a = some g' ∧
      BitsChanged g g' (entries.flatMap entryFrames) (entries.foldl freeEntry g.frames) := by
  induction limit generalizing a g entries with
  | zero => simp [mmapWalk] at walk
  | succ limit ih =>
    unfold mmapWalk at walk
    unfold FrameGlobals.freeWalk
    split at walk
    · rename_i inside
      obtain ⟨rest, later, rfl⟩ := Option.map_eq_some_iff.mp walk
      have away := (mapApart_iff.mp apart inside).1
      have read : mmapEntryAt g.mem a = mmapEntryAt m a := mmapEntryAt_congr fun x lower upper => same x (by omega)
      have cleared := BitsChanged.freeEntry room (mmapEntryAt m a)
      have bitmap : (g.freeEntry (mmapEntryAt m a)).frameBitmap = g.frameBitmap :=
        cleared.frameBitmap.trans (BitsChanged.freeEntry_frameBitmap g.frames _)
      have still (x : Nat) (outside : x < g.frameBitmap ∨ g.frameBitmap + 4 * w ≤ x) :
          (g.freeEntry (mmapEntryAt m a)).mem x = m x :=
        (cleared.beside room (fun _ => entryFrames_low) (words _ List.mem_cons_self) outside).trans (same x outside)
      have next : nextEntry (g.freeEntry (mmapEntryAt m a)).mem a = nextEntry m a := by
        unfold nextEntry
        rw [mmapEntryAt_congr fun x lower upper => still x (by omega)]
      rw [if_pos inside]
      simp only [read, next]
      obtain ⟨g', run, changed⟩ := ih (g := g.freeEntry (mmapEntryAt m a)) (by rwa [bitmap])
        (fun x outside => still x (by rwa [← bitmap])) (by rw [bitmap]; exact apart.next inside) later
        fun e member => words e (List.mem_cons_of_mem _ member)
      rw [cleared.frames] at changed
      exact ⟨g', run, cleared.trans changed bitmap⟩
    · rename_i outside
      cases Option.some.inj walk
      rw [if_neg outside]
      exact ⟨g, rfl, .refl g _⟩

/-- The filled bitmap stands for an allocator with every bit set. -/
theorem placeBitmap_frames (g : FrameGlobals) {kernelEnd : Nat} (entries : List MmapEntry)
    (room : bitmapAddr kernelEnd + 2 ^ 17 ≤ 2 ^ 32) :
    (g.placeBitmap kernelEnd entries).frames = allUsed entries kernelEnd (bitmapRam g.mem (bitmapAddr kernelEnd)) ∧
      ∀ x, x < bitmapAddr kernelEnd ∨ bitmapAddr kernelEnd + 4 * bitmapLength entries ≤ x →
        (g.placeBitmap kernelEnd entries).mem x = g.mem x := by
  have small := managedFrames_lt entries
  have length : bitmapLength entries = (managedFrames entries + 31) / 32 := rfl
  have filled : (g.placeBitmap kernelEnd entries).mem =
      paste g.mem (bitmapAddr kernelEnd) (List.replicate (bitmapLength entries * 4) 0xFF) := by
    rw [FrameGlobals.placeBitmap, u32_of_lt (by omega), memset_eq_paste (by omega)]
  refine ⟨?_, fun x outside => ?_⟩
  · unfold FrameGlobals.frames allUsed
    rw [filled]
    simp only [FrameGlobals.placeBitmap, Frames.mk.injEq, true_and, and_true]
    funext i
    split
    · rename_i inside
      have byte (k : Nat) (less : k < 4) : paste g.mem (bitmapAddr kernelEnd)
          (List.replicate (bitmapLength entries * 4) 0xFF) (bitmapAddr kernelEnd + 4 * i + k) = 0xFF := by
        rw [Nat.add_assoc]
        exact paste_inside (by rw [List.getElem?_replicate, if_pos (by omega)])
      have word : load32 (paste g.mem (bitmapAddr kernelEnd) (List.replicate (bitmapLength entries * 4) 0xFF))
          (bitmapAddr kernelEnd + 4 * i) = 0xFFFFFFFF := by
        unfold load32 load16
        rw [byte 1 (by decide), byte 2 (by decide), Nat.add_assoc _ 2 1, byte 3 (by decide), ← Nat.add_zero (_ + 4 * i),
          byte 0 (by decide)]
        rfl
      rw [bitmapRam, if_pos (by omega), word]
      rfl
    · rename_i behind
      unfold bitmapRam
      split
      · rw [load32_congr fun x lower upper => paste_outside (by rw [List.length_replicate]; omega)]
      · rfl
  · rw [filled]
    exact paste_outside (by rw [List.length_replicate]; omega)

theorem mbMmap_congr {m m' : Bytes} {mb : Nat} (same : ∀ x, mb + 44 ≤ x → x < mb + 52 → m' x = m x) :
    mbMmapAddr m' mb = mbMmapAddr m mb ∧ mbMmapLength m' mb = mbMmapLength m mb :=
  ⟨load32_congr fun x lower upper => same x (by omega) (by omega),
    load32_congr fun x lower upper => same x (by omega) (by omega)⟩

/-- The bitmap overlays no entry of the map and not the fields of the map in the information
structure: neither its own words nor those behind it that are written too before the last
read. -/
structure BitmapApart (m : Bytes) (mb kernelEnd : Nat) (entries : List MmapEntry) : Prop where
  room : bitmapAddr kernelEnd + 2 ^ 17 ≤ 2 ^ 32
  info : mb + 52 ≤ bitmapAddr kernelEnd ∨ bitmapAddr kernelEnd + 4 * bootWords kernelEnd entries ≤ mb + 44
  map : MapApart m (mmapEnd m mb) (bitmapAddr kernelEnd) (walkedWords entries) (mbMmapAddr m mb)

/-- The second walk after the first, in the memory with the bitmap. -/
theorem freeWalk_placed {g : FrameGlobals} {mb kernelEnd : Nat} {entries : List MmapEntry}
    (walk : mmapEntries g.mem mb = some entries) (apart : BitmapApart g.mem mb kernelEnd entries) :
    mbMmapAddr (g.placeBitmap kernelEnd entries).mem mb = mbMmapAddr g.mem mb ∧
      ∃ g', FrameGlobals.freeWalk (mmapEnd g.mem mb) mmapLimit (g.placeBitmap kernelEnd entries) (mbMmapAddr g.mem mb) =
        some g' ∧ BitsChanged (g.placeBitmap kernelEnd entries) g' (entries.flatMap entryFrames)
          (entries.foldl freeEntry (allUsed entries kernelEnd (bitmapRam g.mem (bitmapAddr kernelEnd)))) := by
  obtain ⟨allSet, away⟩ := placeBitmap_frames g entries apart.room
  have info := apart.info
  have short := bitmapLength_le entries
  have more : walkedWords entries ≤ bootWords kernelEnd entries := Nat.le_max_left _ _
  refine ⟨(mbMmap_congr fun x lower upper => away x (by omega)).1, ?_⟩
  rw [← allSet]
  exact freeWalk_frames (g := g.placeBitmap kernelEnd entries) apart.room (fun x outside => away x (by
    have bitmap : (g.placeBitmap kernelEnd entries).frameBitmap = bitmapAddr kernelEnd := rfl
    omega)) apart.map walk fun e member f inside => entryFrames_walked member inside

/-- Where the bitmap meets neither the information structure nor an entry of the map, the
second walk ends with the first. -/
theorem not_freeingRepeats {g : FrameGlobals} {mb kernelEnd : Nat} {entries : List MmapEntry}
    (walk : mmapEntries g.mem mb = some entries) (apart : BitmapApart g.mem mb kernelEnd entries) :
    ¬ FreeingRepeats g mb kernelEnd entries := by
  obtain ⟨start, g', run, _⟩ := freeWalk_placed walk apart
  have word : (g.placeBitmap kernelEnd entries).usedFrames < 2 ^ 32 := (managedFrames_lt entries).trans (by decide)
  unfold FreeingRepeats
  rw [start]
  exact (freeWalk_ends_iff word (mbMmapAddr_lt g.mem mb)).mp ⟨mmapLimit, g', run⟩

section Init
variable {g : FrameGlobals} {mb kernelEnd limit : Nat} {entries : List MmapEntry}

end Init

end LearningOS
