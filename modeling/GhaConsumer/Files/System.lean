import GhaConsumer.Files.Tree

/-!
# File system calls

The calls threads make on a tree of files, one atomic step each, with the
failures the outside may add. Reading a directory is not atomic: an entry
that stands from the `openDir` to the end is returned, one that comes or
goes meanwhile may or may not be (`Scan`). The clock is here too, for
files carry the time they were last changed.
-/

namespace Files

variable {Dir Name : Type} [DecidableEq Dir] [DecidableEq Name]

structure Path (Dir Name : Type) where
  dir : Dir
  name : Name
  deriving DecidableEq, Repr

inductive Errno where
  | notFound
  | alreadyExists
  | other
  deriving DecidableEq, Repr

/-- What `stat` tells of a file. -/
structure Meta where
  kind : Kind
  len : ℕ
  mtime : ℕ
  deriving DecidableEq, Repr

def Node.meta (n : Node) : Meta where
  kind := n.kind
  len := n.data.length
  mtime := n.mtime

/-- An entry as `readdir` returns it: its name, and its kind when it was
entered. -/
structure DirEntry (Name : Type) where
  name : Name
  kind : Kind
  deriving DecidableEq, Repr

/-- What `file_type` says is that the entry is no regular file. -/
def saysOther : Except Errno Kind → Bool
  | .ok (.other _) => true
  | _ => false

/-- A directory being read: the entries that must still come, and those
that may. -/
structure Scan (Dir Name : Type) where
  dir : Dir
  owed : List Name
  offered : List (DirEntry Name)

/-- The calls. A file that was opened is called by its inode. -/
inductive Op (Dir Name : Type) where
  | tryExists (p : Path Dir Name)
  /-- Rename that fails if the target exists. -/
  | renameNoClobber (p q : Path Dir Name)
  | rename (p q : Path Dir Name)
  | removeFile (p : Path Dir Name)
  /-- Open to read, without following a symlink. -/
  | openRead (p : Path Dir Name)
  | fstat (i : Ino)
  | lstat (p : Path Dir Name)
  | setModified (i : Ino) (time : ℕ)
  /-- Read at most `limit` bytes. -/
  | read (i : Ino) (limit : ℕ)
  /-- Open for writing a file that must not exist. -/
  | createNew (p : Path Dir Name)
  | writeAll (i : Ino) (data : Bytes)
  | syncAll (i : Ino)
  /-- Create or truncate, and write. -/
  | write (p : Path Dir Name) (data : Bytes)
  | openDir (d : Dir)
  | nextEntry
  | fileType (e : DirEntry Name)
  | now
  deriving DecidableEq, Repr

abbrev Resp : Op Dir Name → Type
  | .tryExists _ => Bool
  | .renameNoClobber .. | .rename .. | .removeFile _ | .setModified .. | .writeAll .. | .syncAll _
  | .write .. | .openDir _ => Except Errno Unit
  | .openRead _ | .createNew _ => Except Errno Ino
  | .fstat _ | .lstat _ => Except Errno Meta
  | .read .. => Except Errno Bytes
  | .nextEntry => Except Errno (Option (DirEntry Name))
  | .fileType _ => Except Errno Kind
  | .now => ℕ

/-- What the outside decides about a call: whether it fails, how much of
a failed write arrives, which entry a directory read returns. -/
structure Oracle (Name : Type) where
  fails : Bool
  amount : ℕ
  entry : Option (DirEntry Name)

/-- The files, the time in nanoseconds, and the directories threads are
reading. -/
structure State (Dir Name : Type) [DecidableEq Dir] [DecidableEq Name] where
  tree : Tree (Path Dir Name)
  now : ℕ
  scan : ℕ → Option (Scan Dir Name)

namespace Scan

/-- The entry `p` is gone. -/
def removed (p : Path Dir Name) (s : Scan Dir Name) : Scan Dir Name :=
  if s.dir = p.dir then { s with owed := s.owed.filter (· ≠ p.name) } else s

/-- The entry `p` is new. -/
def added (p : Path Dir Name) (k : Kind) (s : Scan Dir Name) : Scan Dir Name :=
  if s.dir = p.dir then { s with offered := ⟨p.name, k⟩ :: s.offered } else s

/-- The entry `e` has been returned. -/
def returned (e : DirEntry Name) (s : Scan Dir Name) : Scan Dir Name :=
  { s with owed := s.owed.filter (· ≠ e.name), offered := s.offered.erase e }

end Scan

namespace State

/-- The entries of a directory. -/
def list (s : State Dir Name) (d : Dir) : List (DirEntry Name) :=
  s.tree.entries.entries.filterMap fun e =>
    if e.1.dir = d then some ⟨e.1.name, (s.tree.node e.2).kind⟩ else none

/-- Tell every directory read of a change. -/
def tell (s : State Dir Name) (f : Scan Dir Name → Scan Dir Name) : State Dir Name :=
  { s with scan := fun t => (s.scan t).map f }

def create (s : State Dir Name) (p : Path Dir Name) (n : Node) : State Dir Name :=
  { s with tree := s.tree.create p n }.tell fun c => (c.removed p).added p n.kind

def unlink (s : State Dir Name) (p : Path Dir Name) : State Dir Name :=
  { s with tree := s.tree.unlink p }.tell (Scan.removed p)

def move (s : State Dir Name) (p q : Path Dir Name) : State Dir Name :=
  match s.tree.ino p with
  | none => s
  | some i =>
    { s with tree := s.tree.move p q }.tell fun c =>
      ((c.removed p).removed q).added q (s.tree.node i).kind

/-- The file at `p` with other contents, modified now. -/
def overwrite (s : State Dir Name) (i : Ino) (data : Bytes) : State Dir Name :=
  { s with tree := s.tree.setNode i { s.tree.node i with data := data, mtime := s.now } }

def stamp (s : State Dir Name) (i : Ino) (time : ℕ) : State Dir Name :=
  { s with tree := s.tree.setNode i { s.tree.node i with mtime := time } }

/-- Thread `t` is at `sc` in reading a directory. -/
def setScan (s : State Dir Name) (t : ℕ) (sc : Option (Scan Dir Name)) : State Dir Name :=
  { s with scan := Function.update s.scan t sc }

end State

/-- What an open finds, which does not follow a link. -/
def opened (t : Tree (Path Dir Name)) (p : Path Dir Name) : Except Errno Ino :=
  match t.ino p with
  | none => .error .notFound
  | some i => if (t.node i).kind.isLink then .error .other else .ok i

/-- A call of thread `t`. The one call that cannot go ahead is a directory
read asked to return what it may not. -/
def step (t : ℕ) : (o : Op Dir Name) → Oracle Name → State Dir Name →
    Option (Resp o × State Dir Name)
  | .tryExists p, q, s => some (!q.fails && s.tree.leads p, s)
  | .renameNoClobber p p', q, s =>
    if q.fails then some (.error .other, s)
    else match s.tree.ino p, s.tree.ino p' with
      | none, _ => some (.error .notFound, s)
      | some _, some _ => some (.error .alreadyExists, s)
      | some _, none => some (.ok (), s.move p p')
  | .rename p p', q, s =>
    if q.fails then some (.error .other, s)
    else if (s.tree.ino p).isNone then some (.error .notFound, s)
    else if s.tree.barred p p' then some (.error .other, s)
    else some (.ok (), s.move p p')
  | .removeFile p, q, s =>
    if q.fails then some (.error .other, s)
    else match s.tree.ino p with
      | none => some (.error .notFound, s)
      | some i =>
        if (s.tree.node i).kind = .other .directory then some (.error .other, s)
        else some (.ok (), s.unlink p)
  | .openRead p, q, s => some (if q.fails then .error .other else opened s.tree p, s)
  | .fstat i, q, s =>
    some (if q.fails then .error .other else .ok (s.tree.node i).meta, s)
  | .lstat p, q, s =>
    if q.fails then some (.error .other, s)
    else match s.tree.ino p with
      | none => some (.error .notFound, s)
      | some i => some (.ok (s.tree.node i).meta, s)
  | .setModified i time, q, s =>
    if q.fails then some (.error .other, s) else some (.ok (), s.stamp i time)
  | .read i limit, q, s =>
    some (if q.fails then .error .other else .ok ((s.tree.node i).data.take limit), s)
  | .createNew p, q, s =>
    if q.fails then some (.error .other, s)
    else match s.tree.ino p with
      | some _ => some (.error .alreadyExists, s)
      | none => some (.ok s.tree.next, s.create p ⟨.regular, [], s.now⟩)
  | .writeAll i data, q, s =>
    if q.fails then some (.error .other, s.overwrite i (data.take q.amount))
    else some (.ok (), s.overwrite i data)
  | .syncAll _, q, s => some (if q.fails then .error .other else .ok (), s)
  | .write p data, q, s =>
    if q.fails then some (.error .other, s)
    else match s.tree.ino p with
      | none => some (.ok (), s.create p ⟨.regular, data, s.now⟩)
      | some i =>
        if (s.tree.node i).kind = .other .directory then some (.error .other, s)
        else some (.ok (), s.overwrite i data)
  | .openDir d, q, s =>
    if q.fails then some (.error .other, s.setScan t none)
    else some (.ok (), s.setScan t (some ⟨d, (s.list d).map (·.name), s.list d⟩))
  | .nextEntry, q, s =>
    match s.scan t with
    | none => some (.error .other, s)
    | some sc =>
      if q.fails then some (.error .other, s)
      else match q.entry with
        | none => if sc.owed = [] then some (.ok none, s) else none
        | some e =>
          if e ∈ sc.offered then some (.ok (some e), s.setScan t (some (sc.returned e))) else none
  | .fileType e, q, s => some (if q.fails then .error .other else .ok e.kind, s)
  | .now, _, s => some (s.now, s)

/-- Thread `t` is gone, and so is its directory read. -/
def leave (t : ℕ) (s : State Dir Name) : State Dir Name := s.setScan t none

end Files
