import LearningOS.Fs.Names
import LearningOS.Store.Pieces

namespace LearningOS
open ByteStore History Pieces

def slash : UInt8 := 47

/-- The outer loop of `vfs_resolve_path`, at a place in the path that is not a slash. -/
def vfsWalk (fs : Ramfs) (cur : Fin 9) (p : List UInt8) : Option (Fin 9) :=
  if p = [] then some cur
  else
    let name := (p.takeWhile (· ≠ slash)).take 127
    match vfsFinddir fs (some cur) name with
    | none => none
    | some cur => vfsWalk fs cur ((p.dropWhile (· ≠ slash)).dropWhile (· = slash))
termination_by p.length
decreasing_by exact skip_shorter slash ‹_›

def vfsResolvePath (fs : Ramfs) (path : List UInt8) : Option (Fin 9) :=
  if path = [] then none
  else
    match fs.vfsRoot with
    | none => none
    | some cur => vfsWalk fs cur (path.dropWhile (· = slash))

theorem vfsWalk_nil (fs : Ramfs) (cur : Fin 9) : vfsWalk fs cur [] = some cur := by
  rw [vfsWalk, if_pos rfl]

theorem vfsWalk_cons (fs : Ramfs) (cur : Fin 9) (x : UInt8) (rest : List UInt8) :
    vfsWalk fs cur (x :: rest) = (vfsFinddir fs (some cur) (((x :: rest).takeWhile (· ≠ slash)).take 127)).bind
      fun next => vfsWalk fs next (((x :: rest).dropWhile (· ≠ slash)).dropWhile (· = slash)) := by
  rw [vfsWalk, if_neg (List.cons_ne_nil x rest)]
  simp only
  cases vfsFinddir fs (some cur) (((x :: rest).takeWhile (· ≠ slash)).take 127) with
  | none => rfl
  | some next => rfl

/-- The lookup of one component in a node. -/
def enter (fs : Ramfs) (cur : Fin 9) (component : List UInt8) : Option (Fin 9) :=
  vfsFinddir fs (some cur) (component.take 127)

/-- The loop enters the pieces of the path between its slashes one after the other. -/
theorem vfsWalk_eq (fs : Ramfs) (cur : Fin 9) (p : List UInt8) (start : p.head? ≠ some slash) :
    vfsWalk fs cur p = (pieces slash p).foldlM (enter fs) cur := by
  induction size : p.length using Nat.strong_induction_on generalizing cur p with
  | _ n ih =>
    cases p with
    | nil =>
      rw [vfsWalk_nil, pieces_nil]
      rfl
    | cons x rest =>
      have here : x ≠ slash := by simpa using start
      have shorter := skip_shorter slash (List.cons_ne_nil x rest)
      rw [vfsWalk_cons, pieces_cons here, ← pieces_dropWhile ((x :: rest).dropWhile (· ≠ slash)), List.foldlM_cons]
      exact congrArg _ (funext fun next => ih _ (by omega) next _ (head?_skip slash _) rfl)

theorem vfsResolvePath_eq {fs : Ramfs} {root : Fin 9} {path : List UInt8} (vfsRoot : fs.vfsRoot = some root)
    (nonempty : path ≠ []) : vfsResolvePath fs path = (pieces slash path).foldlM (enter fs) root := by
  rw [vfsResolvePath, if_neg nonempty, vfsRoot]
  simp only
  rw [vfsWalk_eq fs root _ (head?_skip slash path), pieces_dropWhile]

namespace TreeInv
variable {hello : Nat} {fs : Ramfs} {kids : List (Fin 9)}

/-- Nothing is found below a child of the root. -/
theorem enter_kid (inv : TreeInv hello fs kids) {c : Fin 9} (member : c ∈ kids) (component : List UInt8) :
    enter fs c component = none := by
  rcases inv.kid c member with dir | file
  · simp [enter, vfsFinddir, ramfsFinddir, dir.finddir, dir.impl, findChild, dir.childCount]
  · simp [enter, vfsFinddir, file.finddir]

theorem enter_root (inv : TreeInv hello fs kids) (component : List UInt8) :
    enter fs 0 component = kids.find? fun c => (fs.nodes c).name = component.take 127 := by
  have found := inv.finddir_root (component.take 127)
  rwa [inv.vfsRoot] at found

/-- A path leads to a child of the root only by one component, whose first 127
characters are the name of that child and of none before it. -/
theorem resolve_kid (inv : TreeInv hello fs kids) {path : List UInt8} (nonempty : path ≠ []) {c : Fin 9}
    (member : c ∈ kids) : vfsResolvePath fs path = some c ↔
      ∃ component, pieces slash path = [component] ∧
        kids.find? (fun d => (fs.nodes d).name = component.take 127) = some c := by
  rw [vfsResolvePath_eq inv.vfsRoot nonempty]
  rcases pieces slash path with _ | ⟨first, _ | ⟨second, rest⟩⟩
  · have notRoot := inv.ne_root member
    simp [notRoot.symm]
  · simp [inv.enter_root]
  · refine iff_of_false ?_ (by simp)
    rw [List.foldlM_cons, inv.enter_root]
    cases found : kids.find? fun d => (fs.nodes d).name = first.take 127 with
    | none => simp
    | some d =>
      have stuck := inv.enter_kid (List.mem_of_find?_eq_some found) second
      simp [stuck]

end TreeInv

/-- A name that is read back from a path as it is stored: no slash in it, or
nothing but slashes behind its first 127 characters. -/
def PlainName (name : List UInt8) : Prop :=
  ∃ plain k, name = plain ++ List.replicate k slash ∧ slash ∉ plain ∧ (k = 0 ∨ 127 ≤ plain.length)

theorem PlainName.pieces {name : List UInt8} (plain : PlainName name) (nonempty : name ≠ []) :
    ∃ component, pieces slash name = [component] ∧ component.take 127 = name.take 127 := by
  obtain ⟨part, k, rfl, clear, long⟩ := plain
  have some : part ≠ [] := by
    rintro rfl
    rcases long with none | long
    · simp [none] at nonempty
    · simp at long
  cases k with
  | zero => exact ⟨part, by rw [List.replicate_zero, List.append_nil, pieces_plain some clear], by simp⟩
  | succ k =>
    have tail := pieces_append_sep some clear (List.replicate k slash)
    rw [pieces_replicate, ← List.replicate_succ] at tail
    have enough : 127 ≤ part.length := by omega
    exact ⟨part, tail, (List.take_append_of_le_length enough).symm⟩

theorem plainName_of_pieces {name component : List UInt8} (one : pieces slash name = [component])
    (stored : component.take 127 = name.take 127) : PlainName name := by
  obtain ⟨nonempty, clear, i, k, rfl⟩ := pieces_eq_singleton one
  cases i with
  | succ i =>
    obtain ⟨x, rest, rfl⟩ := List.exists_cons_of_ne_nil nonempty
    have first := congrArg List.head? stored
    simp only [List.replicate_succ, List.cons_append, List.take_succ_cons, List.head?_cons, Option.some.injEq] at first
    simp [first] at clear
  | zero =>
    refine ⟨component, k, by simp, clear, ?_⟩
    by_cases none : k = 0
    · exact Or.inl none
    · refine Or.inr (Nat.le_of_not_lt fun short => ?_)
      have lengths := congrArg List.length stored
      simp at lengths
      omega

/-- A call under which the first child of a name stays linked keeps it the first. -/
theorem TreeChange.find {hello : Nat} {fs fs' : Ramfs} {kids kids' : List (Fin 9)} {op : FsOp} {result : FsResult}
    (change : TreeChange hello fs kids op fs' result kids') (inv : TreeInv hello fs kids) {c : Fin 9}
    (stays : c ∈ kids') {name : List UInt8}
    (first : (kids.find? fun d => (fs.nodes d).name = name) = some c) :
    (kids'.find? fun d => (fs'.nodes d).name = name) = some c := by
  have renamed {l : List (Fin 9)} (same : ∀ d ∈ l, (fs'.nodes d).name = (fs.nodes d).name) :
      (l.find? fun d => (fs'.nodes d).name = name) = l.find? fun d => (fs.nodes d).name = name := by
    induction l with
    | nil => rfl
    | cons d l ih =>
      have here := same d List.mem_cons_self
      simp only [List.find?_cons, here, ih fun x member => same x (List.mem_cons_of_mem d member)]
  cases change with
  | kept _ _ same _ => rw [renamed same, first]
  | made _ _ _ _ _ _ _ _ same => rw [List.find?_append, renamed same, first, Option.some_or]
  | @removed pre gone post _ _ split _ tree _ same =>
    subst split
    rw [renamed same, List.find?_append]
    rw [List.find?_append, List.find?_cons] at first
    cases early : pre.find? fun d => (fs.nodes d).name = name with
    | some d =>
      rw [early] at first
      exact first
    | none =>
      rw [early, Option.none_or] at first
      split at first
      · cases Option.some.inj first
        exact absurd stays (List.nodup_cons.mp (List.nodup_middle.mp inv.nodup)).1
      · rw [Option.none_or, first]

/-- A name leads to a node, written as it is and written from the root. -/
def LeadsTo (fs : Ramfs) (name : List UInt8) (c : Fin 9) : Prop :=
  vfsResolvePath fs name = some c ∧ vfsResolvePath fs (slash :: name) = some c

theorem TreeInv.leadsTo_iff {hello : Nat} {fs : Ramfs} {kids : List (Fin 9)} (inv : TreeInv hello fs kids)
    {name : List UInt8} (nonempty : name ≠ []) {c : Fin 9} (member : c ∈ kids)
    (stored : (fs.nodes c).name = name.take 127) :
    LeadsTo fs name c ↔ PlainName name ∧ (kids.find? fun d => (fs.nodes d).name = name.take 127) = some c := by
  have rooted : vfsResolvePath fs (slash :: name) = some c ↔ vfsResolvePath fs name = some c := by
    rw [inv.resolve_kid (List.cons_ne_nil slash name) member, inv.resolve_kid nonempty member, pieces_sep]
  rw [LeadsTo, rooted, and_self, inv.resolve_kid nonempty member]
  constructor
  · rintro ⟨component, one, found⟩
    have hit := List.find?_some found
    rw [decide_eq_true_eq, stored] at hit
    exact ⟨plainName_of_pieces one hit.symm, hit ▸ found⟩
  · rintro ⟨plain, found⟩
    obtain ⟨component, one, same⟩ := plain.pieces nonempty
    exact ⟨component, one, same ▸ found⟩

/-- The last element of a list is found exactly if none before it is. -/
theorem find?_append_last {α : Type} {p : α → Bool} {l : List α} {a : α} (hit : p a = true) (notIn : a ∉ l) :
    (l ++ [a]).find? p = some a ↔ ∀ c ∈ l, ¬p c = true := by
  have last : [a].find? p = some a := List.find?_cons_of_pos hit
  rw [List.find?_append, last, ← List.find?_eq_none]
  constructor
  · intro found
    cases early : l.find? p with
    | none => rfl
    | some d =>
      rw [early] at found
      cases Option.some.inj found
      exact absurd (List.mem_of_find?_eq_some early) notIn
  · intro miss
    rw [miss, Option.none_or]

/-- The first child of a name is the first along a run, as long as it is linked. -/
theorem TreeInv.stays_first {hello : Nat} {fs later : Ramfs} {kids : List (Fin 9)}
    {recent : List (Ramfs × FsOp × FsResult)} {name : List UInt8} {c : Fin 9} (inv : TreeInv hello fs kids)
    (first : (kids.find? fun d => (fs.nodes d).name = name) = some c) (path : Path TreeStep fs recent later)
    (linked : ∀ e ∈ recent, c ∈ linkedNodes e.1) (stays : c ∈ linkedNodes later) :
    ∃ kids', TreeInv hello later kids' ∧ (kids'.find? fun d => (later.nodes d).name = name) = some c := by
  induction path with
  | done => exact ⟨kids, inv, first⟩
  | next path step ih =>
    obtain ⟨l, before, found⟩ := ih (fun e member => linked e (List.mem_cons_of_mem _ member))
      (linked _ List.mem_cons_self)
    obtain ⟨l', change⟩ := before.change step
    have still := change.tree
    rw [still.linked] at stays
    exact ⟨l', still, change.find before stays found⟩

/-- A node that a call has just made is reached by its name, until it is unlinked,
exactly if the name is read back as it is stored and no other node is stored under
its first 127 characters. -/
theorem ramfs_created_resolves_iff {hello : Nat} {fs fs' : Ramfs} {past : List (Ramfs × FsOp × FsResult)} {op : FsOp}
    {name : List UInt8} (run : FsRun hello fs past) (asks : op.newName = some name)
    (done : TreeStep fs (op, .code 0) fs') :
    ∃ new, linkedNodes fs' = linkedNodes fs ++ [new] ∧
      ((∀ later recent, Path TreeStep fs' recent later → (∀ e ∈ recent, new ∈ linkedNodes e.1) →
          new ∈ linkedNodes later → LeadsTo later name new) ↔
        PlainName name ∧ ∀ c ∈ linkedNodes fs, (fs.nodes c).name ≠ name.take 127) := by
  obtain ⟨kids, inv⟩ := FsRun.tree run
  obtain ⟨kids', change⟩ := inv.change done
  cases change with
  | kept _ _ _ reason =>
    have refused := (reason name asks).1
    simp at refused
  | removed unlink => simp [unlink, FsOp.newName] at asks
  | @made new other wanted nonempty fresh room tree count stored data same =>
    cases Option.some.inj (asks.symm.trans wanted)
    have inside : new ∈ kids ++ [new] := by simp
    have notIn : new ∉ kids := fun member => (List.nodup_append'.mp tree.nodup).2.2 member (by simp)
    refine ⟨new, by rw [tree.linked, inv.linked], ?_⟩
    rw [inv.linked]
    have first : ((kids ++ [new]).find? fun d => (fs'.nodes d).name = name.take 127) = some new ↔
        ∀ c ∈ kids, (fs.nodes c).name ≠ name.take 127 := by
      rw [find?_append_last (by simp [stored]) notIn]
      exact forall₂_congr fun c member => by simp [same c member]
    constructor
    · intro reached
      rw [← first]
      exact (tree.leadsTo_iff nonempty inside stored).mp
        (reached fs' [] (.done fs') (by simp) (by rw [tree.linked]; exact inside))
    · rintro ⟨plain, clear⟩ later recent path linked stays
      obtain ⟨l, inv', found⟩ := tree.stays_first (first.mpr clear) path linked stays
      have hit := List.find?_some found
      rw [decide_eq_true_eq] at hit
      exact (inv'.leadsTo_iff nonempty (List.mem_of_find?_eq_some found) hit).mpr ⟨plain, found⟩

/-- The call that makes a file named `a`, from the state `ramfs_init` leaves. -/
theorem create_a_step :
    TreeStep (ramfsInit blankFs 0) (.create (ascii "a"), .code 0) (ramfsCreate (ramfsInit blankFs 0) (ascii "a")).1 :=
  ⟨⟨fun _ => 0, 0, 0, 0⟩, _, [], rfl⟩

theorem ramfs_created_resolves_iff_a :
    ∃ new, linkedNodes (ramfsCreate (ramfsInit blankFs 0) (ascii "a")).1 = linkedNodes (ramfsInit blankFs 0) ++ [new] ∧
      ((∀ later recent, Path TreeStep (ramfsCreate (ramfsInit blankFs 0) (ascii "a")).1 recent later →
          (∀ e ∈ recent, new ∈ linkedNodes e.1) → new ∈ linkedNodes later → LeadsTo later (ascii "a") new) ↔
        PlainName (ascii "a") ∧
          ∀ c ∈ linkedNodes (ramfsInit blankFs 0), ((ramfsInit blankFs 0).nodes c).name ≠ (ascii "a").take 127) :=
  ramfs_created_resolves_iff (show FsRun 0 (ramfsInit blankFs 0) [] from .start ⟨blankFs, rfl⟩) rfl create_a_step

/-- A file named `a/b` is made, and no path leads to it. -/
theorem ramfs_created_not_resolved :
    ∃ fs past, FsRun 0 fs past ∧ past.map Prod.snd = [(.create (ascii "a/b"), .code 0)] ∧
      linkedNodes fs = [1, 2] ∧ (fs.nodes 2).name = ascii "a/b" ∧ vfsResolvePath fs (ascii "a/b") = none ∧
      vfsResolvePath fs (ascii "/a/b") = none := by
  obtain ⟨fs, past, run, calls, linked, name, missing, missingRooted⟩ :=
    FsRun.of_calls [(.create (ascii "a/b"), .code 0)]
      (P := fun fs => linkedNodes fs = [1, 2] ∧ (fs.nodes 2).name = ascii "a/b" ∧
        (pieces slash (ascii "a/b")).foldlM (enter fs) 0 = none ∧
        (pieces slash (ascii "/a/b")).foldlM (enter fs) 0 = none) (by decide +kernel)
  obtain ⟨kids, inv⟩ := FsRun.tree run
  exact ⟨fs, past, run, calls, linked, name, (vfsResolvePath_eq inv.vfsRoot (by decide)).trans missing,
    (vfsResolvePath_eq inv.vfsRoot (by decide)).trans missingRooted⟩

end LearningOS
