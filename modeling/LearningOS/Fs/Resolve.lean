import LearningOS.Fs.Paths
import LearningOS.Store.Scans

namespace LearningOS
open Pieces NulText

def vfsNameMax : Nat := 128

/-- What a resolution sees of a tree of nodes: the function behind each `finddir` pointer, none
for a null one, and `vfs_root`. -/
structure Vfs (N : Type) where
  finddir : N → Option (List UInt8 → Option N)
  vfsRoot : Option N

/-- The array `name`: what it holds, and where it has been written. -/
structure NameBuffer where
  chars : Nat → UInt8
  written : List Nat

/-- The locals of the component loop: the cursor as an index into the path. -/
structure Scan where
  p : Nat
  len : Nat
  name : NameBuffer

namespace NameBuffer

def set (b : NameBuffer) (i : Nat) (c : UInt8) : NameBuffer := ⟨Function.update b.chars i c, i :: b.written⟩

/-- The string in the array, up to its first NUL. -/
def string (b : NameBuffer) : List UInt8 := ((List.range vfsNameMax).map b.chars).takeWhile (· ≠ 0)

/-- The array begins with `bs`. -/
def Holds (b : NameBuffer) (bs : List UInt8) : Prop := (List.range bs.length).map b.chars = bs

/-- No index written is beyond the array. -/
def Inside (b : NameBuffer) : Prop := ∀ i ∈ b.written, i < vfsNameMax

end NameBuffer

def skipSlashes (path : List UInt8) (p : Nat) : Nat := skipWhile (· = slash) (by decide) path p

def copyComponent (path : List UInt8) (s : Scan) : Scan :=
  if charAt path s.p ≠ 0 ∧ charAt path s.p ≠ slash then
    if s.len + 1 < vfsNameMax then
      copyComponent path { p := s.p + 1, len := s.len + 1, name := s.name.set s.len (charAt path s.p) }
    else copyComponent path { s with p := s.p + 1 }
  else s
termination_by path.length - s.p
decreasing_by
  all_goals
    have inside := charAt_lt (And.left ‹_ ∧ _›)
    omega

namespace NameBuffer
variable {b : NameBuffer} {bs : List UInt8}

theorem Holds.set (holds : b.Holds bs) (c : UInt8) : (b.set bs.length c).Holds (bs ++ [c]) := by
  have front : (List.range bs.length).map (Function.update b.chars bs.length c) = bs := by
    conv_rhs => rw [← holds]
    refine List.map_congr_left fun i member => Function.update_of_ne (Nat.ne_of_lt ?_) _ _
    exact List.mem_range.mp member
  rw [Holds, List.length_append, List.length_singleton, List.range_succ, List.map_append, NameBuffer.set, front]
  simp

theorem Inside.set (inside : b.Inside) {i : Nat} (room : i < vfsNameMax) (c : UInt8) : (b.set i c).Inside := by
  intro j member
  rcases List.mem_cons.mp member with rfl | earlier
  · exact room
  · exact inside j earlier

theorem Holds.string (holds : b.Holds bs) (string : 0 ∉ bs) (room : bs.length < vfsNameMax) :
    (b.set bs.length 0).string = bs := by
  have closed := holds.set 0
  obtain ⟨rest, size⟩ := Nat.exists_eq_add_of_le (Nat.succ_le_of_lt room)
  rw [Holds, List.length_append, List.length_singleton] at closed
  rw [NameBuffer.string, size, List.range_add, List.map_append, closed, List.append_assoc,
    List.takeWhile_append_of_pos (by simpa using fun c member (zero : c = 0) => string (zero ▸ member))]
  simp

end NameBuffer

/-- What the component loop has done behind `done`, which was in the array already: the cursor is
at the next slash or at the end, and the array holds as much of the component as fits. -/
structure Copied (path : List UInt8) (s r : Scan) (done : List UInt8) : Prop where
  rest : path.drop r.p = (path.drop s.p).dropWhile (· ≠ slash)
  holds : r.name.Holds (done ++ ((path.drop s.p).takeWhile (· ≠ slash)).take (127 - done.length))
  len : r.len = (done ++ ((path.drop s.p).takeWhile (· ≠ slash)).take (127 - done.length)).length
  inside : r.name.Inside

theorem copyComponent_copied {path done : List UInt8} (string : 0 ∉ path) {s : Scan} (holds : s.name.Holds done)
    (len : s.len = done.length) (room : done.length < vfsNameMax) (inside : s.name.Inside) :
    Copied path s (copyComponent path s) done := by
  induction s using copyComponent.induct path generalizing done with
  | case1 s more fits ih =>
    have drop := drop_of_lt (charAt_lt more.1)
    have left : 127 - done.length = 127 - (done ++ [charAt path s.p]).length + 1 := by
      rw [vfsNameMax] at fits
      simp
      omega
    have next := holds.set (charAt path s.p)
    rw [← len] at next
    have copied := ih next (by simp [len]) (by simpa [← len] using fits) (inside.set (by omega) _)
    rw [copyComponent, if_pos more, if_pos fits]
    have rest := copied.rest
    have holds' := copied.holds
    have len' := copied.len
    dsimp only at rest holds' len'
    constructor
    · rw [rest, drop, List.dropWhile_cons_of_pos (by simpa using more.2)]
    · rw [drop, List.takeWhile_cons_of_pos (by simpa using more.2), left, List.take_succ_cons]
      simpa using holds'
    · rw [drop, List.takeWhile_cons_of_pos (by simpa using more.2), left, List.take_succ_cons]
      simpa using len'
    · exact copied.inside
  | case2 s more full ih =>
    have drop := drop_of_lt (charAt_lt more.1)
    have none : 127 - done.length = 0 := by
      rw [vfsNameMax] at full
      omega
    have copied := ih holds len room inside
    rw [copyComponent, if_pos more, if_neg full]
    have rest := copied.rest
    have holds' := copied.holds
    have len' := copied.len
    rw [none, List.take_zero] at holds' len'
    refine ⟨?_, by rwa [none, List.take_zero], by rwa [none, List.take_zero], copied.inside⟩
    rw [rest, drop, List.dropWhile_cons_of_pos (by simpa using more.2)]
  | case3 s stop =>
    rw [copyComponent, if_neg stop]
    rcases Nat.lt_or_ge s.p path.length with more | past
    · have drop := drop_of_lt more
      have at_slash : charAt path s.p = slash := by
        by_contra other
        exact stop ⟨fun zero => absurd ((charAt_eq_zero_iff string).mp zero) (by omega), other⟩
      have front : (path.drop s.p).takeWhile (· ≠ slash) = [] := by
        rw [drop, List.takeWhile_cons_of_neg (by simpa using at_slash)]
      rw [← List.append_nil done] at holds len
      refine ⟨?_, by rwa [front, List.take_nil], by rwa [front, List.take_nil], inside⟩
      rw [drop, List.dropWhile_cons_of_neg (by simpa using at_slash)]
    · have drop := List.drop_eq_nil_of_le past
      exact ⟨by rw [drop, List.dropWhile_nil], by simpa [drop] using holds, by simpa [drop] using len, inside⟩

namespace Vfs
variable {N : Type}

def vfsFinddir (v : Vfs N) (node : Option N) (name : List UInt8) : Option N :=
  node.bind fun n => (v.finddir n).bind fun f => f name

end Vfs

theorem copyComponent_forward (path : List UInt8) (s : Scan) : s.p ≤ (copyComponent path s).p := by
  induction s using copyComponent.induct path with
  | case1 s more fits ih =>
    rw [copyComponent, if_pos more, if_pos fits]
    exact Nat.le_of_succ_le ih
  | case2 s more full ih =>
    rw [copyComponent, if_pos more, if_neg full]
    exact Nat.le_of_succ_le ih
  | case3 s stop => rw [copyComponent, if_neg stop]

/-- A round of the loop of `vfs_resolve_path` moves the cursor on. -/
theorem round_forward {path : List UInt8} {s : Scan} (more : charAt path s.p ≠ 0) :
    s.p < skipSlashes path (copyComponent path s).p := by
  by_cases at_slash : charAt path s.p = slash
  · rw [copyComponent, if_neg (not_and_not_right.mpr fun _ => at_slash), skipSlashes, skipWhile,
      if_pos (decide_eq_true at_slash)]
    exact skipWhile_forward path (s.p + 1)
  · refine Nat.lt_of_lt_of_le ?_ (skipWhile_forward path _)
    rw [copyComponent, if_pos ⟨more, at_slash⟩]
    split
    · exact copyComponent_forward path { p := s.p + 1, len := s.len + 1, name := _ }
    · exact copyComponent_forward path { s with p := s.p + 1 }

namespace Vfs
variable {N : Type}

/-- The outer loop of `vfs_resolve_path`. -/
def walk (v : Vfs N) (path : List UInt8) (cur : N) (p : Nat) (name : NameBuffer) : Option N × NameBuffer :=
  if charAt path p = 0 then (some cur, name)
  else
    let copy := copyComponent path { p := p, len := 0, name := name }
    let stored := copy.name.set copy.len 0
    match v.vfsFinddir (some cur) stored.string with
    | none => (none, stored)
    | some cur => v.walk path cur (skipSlashes path copy.p) stored
termination_by path.length - p
decreasing_by
  have inside := charAt_lt ‹_›
  have forward := round_forward (s := { p := p, len := 0, name := name }) ‹_›
  dsimp only at forward
  omega

/-- `vfs_resolve_path` with what the stack holds before it, and the indices of `name` it writes. -/
def vfsResolvePath (v : Vfs N) (stack : Nat → UInt8) (path : Option (List UInt8)) : Option N × List Nat :=
  match path with
  | none => (none, [])
  | some path =>
    if charAt path 0 = 0 then (none, [])
    else
      match v.vfsRoot with
      | none => (none, [])
      | some cur =>
        let p := skipSlashes path 0
        if charAt path p = 0 then (some cur, [])
        else
          let (found, name) := v.walk path cur p { chars := stack, written := [] }
          (found, name.written)

/-- The lookup of one component. -/
def enterComponent (v : Vfs N) (cur : N) (component : List UInt8) : Option N :=
  v.vfsFinddir (some cur) (component.take 127)

/-- What a path stands for: its components entered one after the other from the root. -/
def resolved (v : Vfs N) (path : List UInt8) : Option N :=
  if path = [] then none else v.vfsRoot.bind ((pieces slash path).foldlM v.enterComponent)

theorem walk_correct (v : Vfs N) {path : List UInt8} (string : 0 ∉ path) (cur : N) {p : Nat} {name : NameBuffer}
    (start : (path.drop p).head? ≠ some slash) (inside : name.Inside) :
    (v.walk path cur p name).1 = (pieces slash (path.drop p)).foldlM v.enterComponent cur ∧
      (v.walk path cur p name).2.Inside := by
  induction size : path.length - p using Nat.strong_induction_on generalizing cur p name with
  | _ n ih =>
    rw [walk]
    by_cases ends : charAt path p = 0
    · rw [if_pos ends, List.drop_eq_nil_of_le ((charAt_eq_zero_iff string).mp ends), pieces_nil]
      exact ⟨rfl, inside⟩
    rw [if_neg ends]
    have more := charAt_lt ends
    have drop := drop_of_lt more
    have here : charAt path p ≠ slash := by simpa [drop] using start
    have forward := round_forward (s := { p := p, len := 0, name := name }) ends
    have copied : Copied path { p := p, len := 0, name := name } _ [] :=
      copyComponent_copied string rfl rfl (by decide) inside
    have first := pieces_cons here (path.drop (p + 1))
    rw [← drop] at first
    generalize copyComponent path { p := p, len := 0, name := name } = copy at copied forward
    obtain ⟨rest, holds, len, written⟩ := copied
    dsimp only at rest holds len forward
    rw [List.nil_append, List.length_nil, Nat.sub_zero] at holds len
    have short : (((path.drop p).takeWhile (· ≠ slash)).take 127).length < vfsNameMax :=
      Nat.lt_succ_of_le (List.length_take_le _ _)
    have plain : 0 ∉ ((path.drop p).takeWhile (· ≠ slash)).take 127 := fun member =>
      string (List.mem_of_mem_drop ((List.takeWhile_sublist _).mem (List.mem_of_mem_take member)))
    have stored := holds.string plain short
    have next : path.drop (skipSlashes path copy.p) =
        ((path.drop p).dropWhile (· ≠ slash)).dropWhile (· = slash) := by
      rw [skipSlashes, skipWhile_drop, rest]
    have within := written.set (i := copy.len) (len ▸ short) 0
    rw [← len] at stored
    rw [first, List.foldlM_cons, enterComponent, ← pieces_dropWhile ((path.drop p).dropWhile (· ≠ slash)),
      ← next]
    dsimp only
    rw [stored]
    cases v.vfsFinddir (some cur) (((path.drop p).takeWhile (· ≠ slash)).take 127) with
    | none => exact ⟨rfl, within⟩
    | some cur => exact ih _ (by omega) cur (next ▸ head?_skip slash _) within rfl

theorem vfsResolvePath_correct (v : Vfs N) (stack : Nat → UInt8) {path : List UInt8} (string : 0 ∉ path) :
    (v.vfsResolvePath stack (some path)).1 = v.resolved path ∧
      ∀ i ∈ (v.vfsResolvePath stack (some path)).2, i < vfsNameMax := by
  rw [vfsResolvePath, resolved]
  dsimp only
  by_cases empty : path = []
  · subst empty
    rw [if_pos (show charAt [] 0 = 0 from rfl), if_pos rfl]
    exact ⟨rfl, by simp⟩
  have nonempty : charAt path 0 ≠ 0 := by
    rw [Ne, charAt_eq_zero_iff string]
    exact Nat.not_le_of_lt (List.length_pos_of_ne_nil empty)
  rw [if_neg nonempty, if_neg empty]
  cases v.vfsRoot with
  | none => exact ⟨rfl, by simp⟩
  | some root =>
    dsimp only
    have drop : path.drop (skipSlashes path 0) = path.dropWhile (· = slash) := skipWhile_drop path 0
    rw [Option.bind_some, ← pieces_dropWhile path, ← drop]
    by_cases ends : charAt path (skipSlashes path 0) = 0
    · rw [if_pos ends, List.drop_eq_nil_of_le ((charAt_eq_zero_iff string).mp ends), pieces_nil]
      exact ⟨rfl, by simp⟩
    · rw [if_neg ends]
      exact v.walk_correct string root (drop ▸ head?_skip slash path) (by simp [NameBuffer.Inside])

/-- A resolution enters the components of the path one after the other, each by its first 127
characters; more slashes at an end of the path or next to another one change nothing, and
`name` is not written beyond its end. -/
theorem vfs_resolve_path_correct (v : Vfs N) (stack : Nat → UInt8) {path : List UInt8} (string : 0 ∉ path) :
    (v.vfsResolvePath stack (some path)).1 = v.resolved path ∧
      (∀ front back k, path = front ++ back → path ≠ [] →
        (front = [] ∨ back = [] ∨ front.getLast? = some slash ∨ back.head? = some slash) →
        (v.vfsResolvePath stack (some (front ++ (List.replicate k slash ++ back)))).1 =
          (v.vfsResolvePath stack (some path)).1) ∧
      ∀ i ∈ (v.vfsResolvePath stack (some path)).2, i < vfsNameMax := by
  obtain ⟨found, inside⟩ := v.vfsResolvePath_correct stack string
  refine ⟨found, fun front back k split nonempty next => ?_, inside⟩
  subst split
  have longer : 0 ∉ front ++ (List.replicate k slash ++ back) := by
    intro member
    rcases List.mem_append.mp member with early | member
    · exact string (List.mem_append_left _ early)
    rcases List.mem_append.mp member with slashes | late
    · exact absurd (List.eq_of_mem_replicate slashes) (by decide)
    · exact string (List.mem_append_right _ late)
  have nonempty' : front ++ (List.replicate k slash ++ back) ≠ [] := by
    intro empty
    obtain ⟨none, rest⟩ := List.append_eq_nil_iff.mp empty
    exact nonempty (by rw [none, (List.append_eq_nil_iff.mp rest).2, List.append_nil])
  rw [found, (v.vfsResolvePath_correct stack longer).1, resolved, resolved, if_neg nonempty, if_neg nonempty',
    pieces_pad k next]

/-- Numbers as nodes, each name leading on by its length. -/
def lengths : Vfs Nat := ⟨fun n => some fun name => some (n + name.length), some 0⟩

theorem vfs_resolve_path_correct_a :
    (lengths.vfsResolvePath (fun _ => 255) (some (ascii "/a/bc"))).1 = lengths.resolved (ascii "/a/bc") ∧
      (∀ front back k, ascii "/a/bc" = front ++ back → ascii "/a/bc" ≠ [] →
        (front = [] ∨ back = [] ∨ front.getLast? = some slash ∨ back.head? = some slash) →
        (lengths.vfsResolvePath (fun _ => 255) (some (front ++ (List.replicate k slash ++ back)))).1 =
          (lengths.vfsResolvePath (fun _ => 255) (some (ascii "/a/bc"))).1) ∧
      ∀ i ∈ (lengths.vfsResolvePath (fun _ => 255) (some (ascii "/a/bc"))).2, i < vfsNameMax :=
  lengths.vfs_resolve_path_correct _ (by decide)

end Vfs

/-- The tree of ramfs as the functions of `vfs.c` see it. -/
def Ramfs.vfs (fs : Ramfs) : Vfs (Fin 9) where
  finddir := fun n => if (fs.nodes n).finddir then some (ramfsFinddir fs n) else none
  vfsRoot := fs.vfsRoot

/-- Of a ramfs tree the resolution finds what the cursor over the rest of the path finds. -/
theorem Ramfs.vfsResolvePath_eq (fs : Ramfs) (stack : Nat → UInt8) {path : List UInt8} (string : 0 ∉ path) :
    (fs.vfs.vfsResolvePath stack (some path)).1 = vfsResolvePath fs path := by
  have step : fs.vfs.enterComponent = enter fs := by
    funext cur component
    simp only [Vfs.enterComponent, Vfs.vfsFinddir, Ramfs.vfs, enter, vfsFinddir, Option.bind_some]
    split <;> rfl
  rw [(fs.vfs.vfsResolvePath_correct stack string).1, Vfs.resolved, step]
  by_cases nonempty : path = []
  · rw [if_pos nonempty, vfsResolvePath, if_pos nonempty]
  · rw [if_neg nonempty]
    cases root : fs.vfsRoot with
    | none =>
      rw [vfsResolvePath, if_neg nonempty, root]
      simp [Ramfs.vfs, root]
    | some node =>
      rw [LearningOS.vfsResolvePath_eq root nonempty]
      simp [Ramfs.vfs, root]

end LearningOS
