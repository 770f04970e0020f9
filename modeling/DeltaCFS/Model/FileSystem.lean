import DeltaCFS.Model.Node

/-! # The file system under the client

The handlers act on the machine's own files through system calls. Names are entries of a finite
tree, regular files are inodes, so that two names of one file share their content. The calls check
what they find at their arguments; every other reason to fail (permissions, space, a missing parent
directory) is left to the caller's environment.
-/

namespace DeltaCFS

open Bytes

/-- What a name stands for. -/
inductive Entry where
  | dir
  | file (ino : ℕ)
deriving DecidableEq, Repr

/-- What a caller does to the content of a file. -/
inductive Change where
  | write (offset : ℕ) (data : Bytes)
  | truncate (size : ℕ)

def Change.apply (content : Bytes) : Change → Bytes
  | .write offset data => pwrite content offset data
  | .truncate size => resize size content

structure FileSystem where
  tree : List (Path × Entry)
  data : ℕ → Bytes
  nextIno : ℕ
  /-- `st_size` of a directory. -/
  dirSize : Path → ℕ

/-- Values of `errno`. -/
inductive Errno where
  | eperm | enoent | eio | ebadf | eacces | eexist | enotdir | eisdir | einval | enospc | enotempty
deriving DecidableEq, Repr

def Errno.code : Errno → ℕ
  | eperm => 1
  | enoent => 2
  | eio => 5
  | ebadf => 9
  | eacces => 13
  | eexist => 17
  | enotdir => 20
  | eisdir => 21
  | einval => 22
  | enospc => 28
  | enotempty => 39

namespace FileSystem

def entry (fs : FileSystem) (path : Path) : Option Entry := fs.tree.lookup path

/-- The content of a regular file. -/
def read (fs : FileSystem) (path : Path) : Option Bytes :=
  match fs.entry path with
  | some (.file ino) => some (fs.data ino)
  | _ => none

/-- `get_file_size`. -/
def getFileSize (fs : FileSystem) (path : Path) : ℤ :=
  match fs.entry path with
  | some (.file ino) => (fs.data ino).length
  | some .dir => fs.dirSize path
  | none => -1

def erase (fs : FileSystem) (path : Path) : FileSystem :=
  { fs with tree := fs.tree.filter fun item => item.1 ≠ path }

def insert (fs : FileSystem) (path : Path) (entry : Entry) : FileSystem :=
  { fs with tree := (path, entry) :: (fs.erase path).tree }

def setData (fs : FileSystem) (ino : ℕ) (content : Bytes) : FileSystem :=
  { fs with data := Function.update fs.data ino content }

/-- A new regular file. -/
def create (fs : FileSystem) (path : Path) (content : Bytes) : FileSystem :=
  { (fs.insert path (.file fs.nextIno)).setData fs.nextIno content with nextIno := fs.nextIno + 1 }

/-- `fopen(path, "wb+")` and the content written through it. -/
def store (fs : FileSystem) (path : Path) (content : Bytes) : Option FileSystem :=
  match fs.entry path with
  | some .dir => none
  | some (.file ino) => some (fs.setData ino content)
  | none => some (fs.create path content)

/-- `remove(3)` of a regular file. -/
def remove (fs : FileSystem) (path : Path) : FileSystem :=
  match fs.entry path with
  | some (.file _) => fs.erase path
  | _ => fs

/-! ## System calls -/

/-- `open(path, O_CREAT | O_EXCL | O_WRONLY)`. -/
def openExcl (fs : FileSystem) (path : Path) : Except Errno FileSystem :=
  if (fs.entry path).isSome then .error .eexist else .ok (fs.create path [])

def mkdir (fs : FileSystem) (path : Path) : Except Errno FileSystem :=
  if (fs.entry path).isSome then .error .eexist else .ok (fs.insert path .dir)

/-- The name lies below the directory. -/
def isBelow (dir path : Path) : Bool := (dir ++ [47]).isPrefixOf path

def hasChildren (fs : FileSystem) (dir : Path) : Bool := fs.tree.any fun item => isBelow dir item.1

def rmdir (fs : FileSystem) (path : Path) : Except Errno FileSystem :=
  match fs.entry path with
  | none => .error .enoent
  | some (.file _) => .error .enotdir
  | some .dir => if fs.hasChildren path then .error .enotempty else .ok (fs.erase path)

/-- A regular file gets another name. -/
def move (fs : FileSystem) (source target : Path) (ino : ℕ) : FileSystem :=
  (fs.erase source).insert target (.file ino)

/-- A directory gets another name, and everything below it with it. -/
def moveDir (fs : FileSystem) (source target : Path) : FileSystem :=
  { fs with tree := (fs.erase target).tree.map fun item =>
      if item.1 = source ∨ isBelow source item.1 then (target ++ item.1.drop source.length, item.2) else item }

/-- `rename(2)`: two names of one file are left as they are. -/
def rename (fs : FileSystem) (source target : Path) : Except Errno FileSystem :=
  match fs.entry source, fs.entry target with
  | none, _ => .error .enoent
  | some (.file _), some .dir => .error .eisdir
  | some (.file ino), some (.file other) => .ok (if ino = other then fs else fs.move source target ino)
  | some (.file ino), none => .ok (fs.move source target ino)
  | some .dir, some (.file _) => .error .enotdir
  | some .dir, some .dir =>
    if source = target then .ok fs
    else if isBelow source target then .error .einval
    else if fs.hasChildren target then .error .enotempty
    else .ok (fs.moveDir source target)
  | some .dir, none => if isBelow source target then .error .einval else .ok (fs.moveDir source target)

def link (fs : FileSystem) (source target : Path) : Except Errno FileSystem :=
  match fs.entry source, fs.entry target with
  | none, _ => .error .enoent
  | some .dir, _ => .error .eperm
  | some (.file _), some _ => .error .eexist
  | some (.file ino), none => .ok (fs.insert target (.file ino))

def truncate (fs : FileSystem) (path : Path) (size : ℕ) : Except Errno FileSystem :=
  match fs.entry path with
  | none => .error .enoent
  | some .dir => .error .eisdir
  | some (.file ino) => .ok (fs.setData ino (resize size (fs.data ino)))

/-- `pwrite(2)` through a descriptor that was opened on the name, and is -1 if there is no such
regular file. -/
def pwriteAt (fs : FileSystem) (path : Path) (offset : ℕ) (data : Bytes) : Except Errno FileSystem :=
  match fs.entry path with
  | some (.file ino) => .ok (fs.setData ino (pwrite (fs.data ino) offset data))
  | _ => .error .ebadf

/-- `chmod`, `lchown` and `utimes` change nothing the client reads. -/
def setattr (fs : FileSystem) (path : Path) : Except Errno FileSystem :=
  if (fs.entry path).isSome then .ok fs else .error .enoent

end FileSystem

end DeltaCFS
