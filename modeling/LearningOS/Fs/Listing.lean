import LearningOS.Fs.Tree

namespace LearningOS
open ByteStore

/-- What a directory entry is: a file whose data may grow, the static file whose
data may not, or a directory. -/
inductive EntryKind
  | file
  | fixed
  | dir
deriving DecidableEq, Repr

structure Entry where
  name : List UInt8
  kind : EntryKind
  bytes : List UInt8
deriving DecidableEq, Repr

/-- The file system as its users see it: the entries of the root in order, and
how many more can ever be made. -/
structure Listing where
  entries : List Entry
  slots : Nat
deriving DecidableEq, Repr

/-- The calls on the file system. A node is named by how it was found: `none` is
the root, `some name` the node `vfs_finddir` finds there. -/
inductive FsOp
  | create (name : List UInt8)
  | mkdir (name : List UInt8)
  | unlink (name : List UInt8)
  | finddir (node : Option (List UInt8)) (name : List UInt8)
  | readdir (node : Option (List UInt8)) (index : Nat)
  | read (node : Option (List UInt8)) (offset size : Nat)
  | write (node : Option (List UInt8)) (offset : Nat) (buffer : List UInt8)

/-- What a caller sees: a return code, the flags, length and name of a node, a
directory entry, a count with the bytes read, or a count. -/
inductive FsResult
  | code (ret : Int)
  | node (found : Option (NodeType × Nat × List UInt8))
  | dirent (entry : Option Dirent)
  | bytes (count : Nat) (data : List UInt8)
  | count (n : Nat)
deriving DecidableEq, Repr

namespace Listing

def find (l : Listing) (name : List UInt8) : Option Entry := l.entries.find? fun e => e.name = name

/-- The first entry with a name gets new bytes. -/
def rewrite (name bytes : List UInt8) : List Entry → List Entry
  | [] => []
  | e :: es => if e.name = name then { e with bytes } :: es else e :: rewrite name bytes es

def make (l : Listing) (name : List UInt8) (kind : EntryKind) : Listing × FsResult :=
  if (l.find name).isSome ∨ l.slots = 0 then (l, .code (-1))
  else (⟨l.entries ++ [⟨name, kind, []⟩], l.slots - 1⟩, .code 0)

def remove (l : Listing) (name : List UInt8) : Listing × FsResult :=
  if (l.find name).isSome then ({ l with entries := l.entries.eraseP fun e => e.name = name }, .code 0)
  else (l, .code (-1))

def flagsOf (e : Entry) : NodeType := if e.kind = .dir then .dir else .file

def lookup (l : Listing) (name : List UInt8) : FsResult :=
  .node ((l.find name).map fun e => (flagsOf e, e.bytes.length, e.name))

def readEntry (l : Listing) (name : List UInt8) (offset size : Nat) : FsResult :=
  match l.find name with
  | none => .bytes 0 []
  | some e => .bytes ((e.bytes.drop offset).take size).length ((e.bytes.drop offset).take size)

/-- A write inside the bytes of a file always succeeds; one that grows it does
if memory is granted. The static file takes what fits. -/
def writeEntry (l : Listing) (granted : Bool) (name : List UInt8) (offset : Nat) (buffer : List UInt8) :
    Listing × FsResult :=
  match l.find name with
  | none => (l, .count 0)
  | some e =>
    match e.kind with
    | .dir => (l, .count 0)
    | .fixed =>
      let part := buffer.take (e.bytes.length - offset)
      ({ l with entries := rewrite name (splice e.bytes offset part) l.entries }, .count part.length)
    | .file =>
      if offset + buffer.length ≤ e.bytes.length ∨ granted = true then
        ({ l with entries := rewrite name (splice e.bytes offset buffer) l.entries }, .count buffer.length)
      else (l, .count 0)

/-- One call on the abstract file system; `granted` is the answer to the one
request for memory it may make. -/
def step (l : Listing) (granted : Bool) : FsOp → Listing × FsResult
  | .create name => l.make name .file
  | .mkdir name => l.make name .dir
  | .unlink name => l.remove name
  | .finddir none name => (l, l.lookup name)
  | .finddir (some _) _ => (l, .node none)
  | .readdir none index => (l, .dirent (l.entries[index]?.map fun e => ⟨e.name, 0⟩))
  | .readdir (some _) _ => (l, .dirent none)
  | .read none _ _ => (l, .bytes 0 [])
  | .read (some name) offset size => (l, l.readEntry name offset size)
  | .write none _ _ => (l, .count 0)
  | .write (some name) offset buffer => l.writeEntry granted name offset buffer

end Listing

/-- The calls the file system is specified for: names of 1 to 127 characters,
ranges that do not wrap, writes that start inside the file or at its end. -/
def FsOp.InDomain (l : Listing) : FsOp → Prop
  | .create name | .mkdir name | .unlink name => name ≠ [] ∧ name.length ≤ 127
  | .finddir _ _ | .readdir _ _ => True
  | .read _ offset size => offset + size < 2 ^ 32
  | .write node offset buffer => offset + buffer.length < 2 ^ 32 ∧
      ∀ name, node = some name → ∀ e, l.find name = some e → offset ≤ e.bytes.length

/-- The end of a written range fits in 32 bits. -/
def FsOp.NoWrap : FsOp → Prop
  | .write _ offset buffer => offset + buffer.length < 2 ^ 32
  | _ => True

/-- A write that grows a file leaves room for the rounding of `kmalloc`. -/
def FsOp.Fits (l : Listing) : FsOp → Prop
  | .write (some name) offset buffer => ∀ e, l.find name = some e → e.kind = .file →
      e.bytes.length < offset + buffer.length → offset + buffer.length ≤ 0xFFFFFFF8
  | _ => True

/-- The node a call is made on. -/
def nodeOf (fs : Ramfs) : Option (List UInt8) → Option (Fin 9)
  | none => fs.vfsRoot
  | some name => vfsFinddir fs fs.vfsRoot name

/-- One call on ramfs, through the functions of `vfs.c` where there is one. -/
def fsStep (h : Heap) (fs : Ramfs) : FsOp → Option (Heap × Ramfs × FsResult × List FreeCall)
  | .create name => let (fs, ret) := ramfsCreate fs name; some (h, fs, .code ret, [])
  | .mkdir name => let (fs, ret) := ramfsMkdir fs name; some (h, fs, .code ret, [])
  | .unlink name => (ramfsUnlink h fs name).map fun (h, fs, ret, frees) => (h, fs, .code ret, frees)
  | .finddir node name =>
    let found := vfsFinddir fs (nodeOf fs node) name
    some (h, fs, .node (found.map fun c => ((fs.nodes c).flags, (fs.nodes c).length, (fs.nodes c).name)), [])
  | .readdir node index => some (h, fs, .dirent (vfsReaddir fs (nodeOf fs node) index), [])
  | .read node offset size =>
    let (count, bytes) := vfsRead h.mem fs (nodeOf fs node) offset size
    some (h, fs, .bytes count bytes, [])
  | .write node offset buffer =>
    (vfsWrite h fs (nodeOf fs node) offset buffer).map fun (h, fs, n, frees) => (h, fs, .count n, frees)

/-- Whether `kmalloc` answers a request with a block. -/
def memoryGranted (h : Heap) (size : Nat) : Bool := (kmalloc h size).any fun r => r.2 ≠ 0

/-- Whether the request a call may make is granted. -/
def FsOp.granted (h : Heap) : FsOp → Bool
  | .write _ offset buffer => memoryGranted h (offset + buffer.length)
  | _ => false

def kindOf (n : RamfsNode) : EntryKind :=
  if n.flags = .dir then .dir else if n.ownsData then .file else .fixed

/-- The static file is the second node. -/
theorem TreeInv.fixed_first {hello : Nat} {fs : Ramfs} {kids : List (Fin 9)} (inv : TreeInv hello fs kids) {c : Fin 9}
    (member : c ∈ kids) (fixed : kindOf (fs.nodes c) = .fixed) : c = 1 := by
  rcases inv.kid c member with dir | file
  · simp [kindOf, dir.flags] at fixed
  · rcases file.data with ⟨owns, _⟩ | ⟨_, _, _, first⟩
    · simp [kindOf, file.flags, owns] at fixed
    · exact first

/-- The abstract entry of a node: its bytes are those its data pointer shows. -/
def entryOf (m : Bytes) (n : RamfsNode) : Entry := ⟨n.name, kindOf n, window m n.data n.size⟩

/-- The abstract view of the tree. -/
def listing (m : Bytes) (fs : Ramfs) : Listing :=
  ⟨(linkedNodes fs).map fun c => entryOf m (fs.nodes c), 9 - fs.nodeCount⟩

end LearningOS
