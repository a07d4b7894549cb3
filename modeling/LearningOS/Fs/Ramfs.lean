import LearningOS.Heap.Model
import LearningOS.Store.Copy

namespace LearningOS
open ByteStore

/-- The `flags` of a node: `none` is the zero left by `memset`. -/
inductive NodeType
  | none
  | file
  | dir
deriving DecidableEq, Repr

/-- A `struct ramfs_node` with its `struct vfs_node`. Names are C strings without
their terminator, node pointers are indices into `nodes`, and a function pointer
is the ramfs function of its name or null. -/
structure RamfsNode where
  name : List UInt8
  flags : NodeType
  inode : Nat
  length : Nat
  impl : Option (Fin 9)
  read : Bool
  write : Bool
  readdir : Bool
  finddir : Bool
  children : Nat → Option (Fin 9)
  childCount : Nat
  data : Nat
  size : Nat
  ownsData : Bool

structure Dirent where
  name : List UInt8
  ino : Nat
deriving DecidableEq, Repr

/-- The globals of `ramfs.c` and the root pointer of `vfs.c`. -/
structure Ramfs where
  nodes : Fin 9 → RamfsNode
  nodeCount : Nat
  ramfsRoot : Option (Fin 9)
  vfsRoot : Option (Fin 9)

/-- The bytes of an ASCII literal. -/
def ascii (text : String) : List UInt8 := text.toList.map fun c => UInt8.ofNat c.toNat

def helloText : List UInt8 := ascii "hello from ramfs\n"

def Ramfs.setNode (fs : Ramfs) (i : Fin 9) (n : RamfsNode) : Ramfs := { fs with nodes := Function.update fs.nodes i n }

/-- A cleared node with its name, cut to 127 bytes, and its flags. -/
def blankNode (name : List UInt8) (flags : NodeType) : RamfsNode where
  name := name.take 127
  flags := flags
  inode := 0
  length := 0
  impl := none
  read := false
  write := false
  readdir := false
  finddir := false
  children := fun _ => none
  childCount := 0
  data := 0
  size := 0
  ownsData := false

/-- The tree before `ramfs_init`: zeroed globals. -/
def blankFs : Ramfs := ⟨fun _ => blankNode [] .none, 0, none, none⟩

def ramfsAllocNode (fs : Ramfs) (name : List UInt8) (flags : NodeType) : Ramfs × Option (Fin 9) :=
  if room : fs.nodeCount < 9 then
    let node : Fin 9 := ⟨fs.nodeCount, room⟩
    ({ fs.setNode node (blankNode name flags) with nodeCount := fs.nodeCount + 1 }, some node)
  else (fs, none)

/-- `ramfs_read`: the result and the bytes put into the caller's buffer. -/
def ramfsRead (m : Bytes) (fs : Ramfs) (node : Fin 9) (offset size : Nat) : Nat × List UInt8 :=
  match (fs.nodes node).impl with
  | none => (0, [])
  | some r =>
    let file := fs.nodes r
    if file.data = 0 ∨ offset ≥ file.size then (0, [])
    else
      let size := if u32 (offset + size) > file.size then file.size - offset else size
      (size, copyOut m (file.data + offset) size)

/-- The tail of `ramfs_write`, from the last test on. -/
def ramfsStore (h : Heap) (fs : Ramfs) (r : Fin 9) (offset : Nat) (buffer : List UInt8) : Heap × Ramfs × Nat :=
  let file := fs.nodes r
  if file.data = 0 then (h, fs, 0)
  else ({ h with mem := copyIn h.mem (file.data + offset) buffer }, fs, buffer.length)

/-- The growth of an owned file to `newSize`; `none` in the result is a failed
`kmalloc`. -/
def ramfsGrow (h : Heap) (fs : Ramfs) (r : Fin 9) (newSize : Nat) : Option (Heap × Option Ramfs × List FreeCall) :=
  let file := fs.nodes r
  (kmalloc h newSize).bind fun (h, newData) =>
    if newData = 0 then some (h, none, [])
    else
      let grown := fs.setNode r { file with data := newData, size := newSize, length := newSize }
      if file.data ≠ 0 ∧ file.size > 0 then
        let h := { h with mem := memcpy h.mem newData file.data file.size }
        (kfree h file.data).map fun h' => (h', some grown, [⟨h, file.data⟩])
      else some (h, some grown, [])

/-- `ramfs_write` of the bytes in the caller's buffer: the heap, the tree, the
result and the calls of `kfree`. -/
def ramfsWrite (h : Heap) (fs : Ramfs) (node : Fin 9) (offset : Nat) (buffer : List UInt8) :
    Option (Heap × Ramfs × Nat × List FreeCall) :=
  match (fs.nodes node).impl with
  | none => some (h, fs, 0, [])
  | some r =>
    let file := fs.nodes r
    let stored (h : Heap) (fs : Ramfs) (buffer : List UInt8) (frees : List FreeCall) :=
      let (h, fs, size) := ramfsStore h fs r offset buffer
      (h, fs, size, frees)
    if u32 (offset + buffer.length) > file.size then
      if file.ownsData then
        (ramfsGrow h fs r (u32 (offset + buffer.length))).map fun
          | (h, none, frees) => (h, fs, 0, frees)
          | (h, some grown, frees) => stored h grown buffer frees
      else if offset ≥ file.size then some (h, fs, 0, [])
      else some (stored h fs (buffer.take (file.size - offset)) [])
    else some (stored h fs buffer [])

def ramfsReaddir (fs : Ramfs) (node : Fin 9) (index : Nat) : Option Dirent :=
  (fs.nodes node).impl.bind fun r =>
    if index ≥ (fs.nodes r).childCount then none
    else ((fs.nodes r).children index).map fun child => ⟨(fs.nodes child).name.take 127, (fs.nodes child).inode⟩

/-- The first child with a name, with its index: the search of `ramfs_finddir`
and of `ramfs_unlink`. -/
def findChild (fs : Ramfs) (r : Fin 9) (name : List UInt8) : Option (Nat × Fin 9) :=
  (List.range (fs.nodes r).childCount).findSome? fun i =>
    ((fs.nodes r).children i).bind fun child => if (fs.nodes child).name = name then some (i, child) else none

def ramfsFinddir (fs : Ramfs) (node : Fin 9) (name : List UInt8) : Option (Fin 9) :=
  (fs.nodes node).impl.bind fun r => (findChild fs r name).map Prod.snd

def ramfsInit (fs : Ramfs) (helloData : Nat) : Ramfs :=
  let root := { blankNode (ascii "/") .dir with
    children := Function.update (fun _ => none) 0 (some 1), childCount := 1
    readdir := true, finddir := true, impl := some 0 }
  let file := { blankNode (ascii "hello.txt") .file with
    data := helloData, size := 17, ownsData := false, read := true, write := true, length := 17, impl := some 1 }
  { nodes := Function.update (Function.update fs.nodes 0 root) 1 file
    nodeCount := 2, ramfsRoot := some 0, vfsRoot := some 0 }

def ramfsAddChild (fs : Ramfs) (parent child : Fin 9) : Ramfs × Int :=
  let p := fs.nodes parent
  if p.childCount ≥ 16 then (fs, -1)
  else
    (fs.setNode parent
      { p with children := Function.update p.children p.childCount (some child), childCount := p.childCount + 1 }, 0)

/-- The common body of `ramfs_mkdir` and `ramfs_create`. -/
def ramfsMake (flags : NodeType) (fill : Fin 9 → RamfsNode → RamfsNode) (fs : Ramfs) (name : List UInt8) :
    Ramfs × Int :=
  match fs.ramfsRoot with
  | none => (fs, -1)
  | some root =>
    if name = [] then (fs, -1)
    else if (ramfsFinddir fs root name).isSome then (fs, -1)
    else
      match ramfsAllocNode fs name flags with
      | (fs, none) => (fs, -1)
      | (fs, some node) => ramfsAddChild (fs.setNode node (fill node (fs.nodes node))) root node

def fillDir (self : Fin 9) (n : RamfsNode) : RamfsNode := { n with readdir := true, finddir := true, impl := some self }

def fillFile (self : Fin 9) (n : RamfsNode) : RamfsNode :=
  { n with data := 0, size := 0, ownsData := true, read := true, write := true, length := 0, impl := some self }

def ramfsMkdir (fs : Ramfs) (name : List UInt8) : Ramfs × Int := ramfsMake .dir fillDir fs name

def ramfsCreate (fs : Ramfs) (name : List UInt8) : Ramfs × Int := ramfsMake .file fillFile fs name

/-- The shifting loop of `ramfs_unlink` and the clearing of the last slot. -/
def closeGap (p : RamfsNode) (i : Nat) : RamfsNode :=
  let shifted := (List.range' i (p.childCount - 1 - i)).foldl
    (fun c j => Function.update c j (c (j + 1))) p.children
  { p with children := Function.update shifted (p.childCount - 1) none, childCount := p.childCount - 1 }

/-- `ramfs_unlink`: the heap, the tree, the result and the calls of `kfree`. -/
def ramfsUnlink (h : Heap) (fs : Ramfs) (name : List UInt8) : Option (Heap × Ramfs × Int × List FreeCall) :=
  match fs.ramfsRoot with
  | none => some (h, fs, -1, [])
  | some root =>
    if name = [] then some (h, fs, -1, [])
    else
      match findChild fs root name with
      | none => some (h, fs, -1, [])
      | some (i, child) =>
        let node := fs.nodes child
        if node.flags = .dir ∧ node.childCount > 0 then some (h, fs, -1, [])
        else if node.ownsData ∧ node.data ≠ 0 then
          (kfree h node.data).map fun h' =>
            let fs := fs.setNode child { node with data := 0 }
            (h', fs.setNode root (closeGap (fs.nodes root) i), 0, [⟨h, node.data⟩])
        else some (h, fs.setNode root (closeGap (fs.nodes root) i), 0, [])

/-- `vfs_read` and its siblings: a null node or function pointer gives 0. -/
def vfsRead (m : Bytes) (fs : Ramfs) (node : Option (Fin 9)) (offset size : Nat) : Nat × List UInt8 :=
  match node with
  | none => (0, [])
  | some n => if (fs.nodes n).read then ramfsRead m fs n offset size else (0, [])

def vfsWrite (h : Heap) (fs : Ramfs) (node : Option (Fin 9)) (offset : Nat) (buffer : List UInt8) :
    Option (Heap × Ramfs × Nat × List FreeCall) :=
  match node with
  | none => some (h, fs, 0, [])
  | some n => if (fs.nodes n).write then ramfsWrite h fs n offset buffer else some (h, fs, 0, [])

def vfsReaddir (fs : Ramfs) (node : Option (Fin 9)) (index : Nat) : Option Dirent :=
  node.bind fun n => if (fs.nodes n).readdir then ramfsReaddir fs n index else none

def vfsFinddir (fs : Ramfs) (node : Option (Fin 9)) (name : List UInt8) : Option (Fin 9) :=
  node.bind fun n => if (fs.nodes n).finddir then ramfsFinddir fs n name else none

end LearningOS
