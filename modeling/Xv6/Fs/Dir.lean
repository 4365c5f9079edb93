import Xv6.Fs.Basic

/-!
# Directories and path names (`kernel/fs.c`, `kernel/string.c`)

A C string is the list of its bytes before the terminating NUL; bytes read
past the end of the list are that NUL. `name[DIRSIZ]` of a directory entry is
a list of `DIRSIZ` bytes, in which a shorter name is padded with NULs.
-/
namespace Xv6.Fs

def DIRSIZ : Nat := 14

/-- `sizeof(struct dirent)` -/
def DESIZE : Nat := 16

structure Dirent where
  inum : Nat
  name : List UInt8
  deriving DecidableEq, Repr

/-- The bytes of a `struct dirent` as read from a directory. -/
def Dirent.decode (b : List UInt8) : Dirent :=
  { inum := (b.getD 0 0).toNat + 256 * (b.getD 1 0).toNat, name := (b.drop 2).take DIRSIZ }

/-- and as written; `inum` is a `ushort`. -/
def Dirent.encode (de : Dirent) (i : Nat) : UInt8 :=
  if i < 2 then Bytes.leByte de.inum i else de.name.getD (i - 2) 0

/-- mirrors kernel/string.c:60-68 -/
def strncmp : Nat → List UInt8 → List UInt8 → Int
  | 0, _, _ => 0
  | n + 1, p, q =>
    if p.headD 0 ≠ 0 ∧ p.headD 0 = q.headD 0 then strncmp n p.tail q.tail
    else (p.headD 0).toNat - (q.headD 0).toNat

/-- The `n` bytes that `strncpy(s, t, n)` stores.
mirrors kernel/string.c:70-81 -/
def strncpy : Nat → List UInt8 → List UInt8
  | 0, _ => []
  | n + 1, t => if t.headD 0 = 0 then List.replicate (n + 1) 0 else t.headD 0 :: strncpy n t.tail

/-- mirrors kernel/fs.c:543-547 -/
def namecmp (s t : List UInt8) : Int := strncmp DIRSIZ s t

/-- The loop of `dirlookup`, from `off` on.
mirrors kernel/fs.c:560-572 -/
def lookupLoop (sb : Superblock) (dp : Fin NINODE) (name : List UInt8) :
    Nat → Nat → M (Option (Fin NINODE × Nat))
  | 0, _ => pure none
  | passes + 1, off => do
    let i ← getInode dp
    if off < i.d.size then do
      let r ← readi sb dp none (UInt32.ofNat off) (UInt32.ofNat DESIZE)
      if r.1 ≠ DESIZE then Prog.panic .dirlookupRead
      else if (Dirent.decode r.2).inum = 0 then lookupLoop sb dp name passes (off + DESIZE)
      else if namecmp name (Dirent.decode r.2).name = 0 then do
        let ip ← iget (Dirent.decode r.2).inum
        pure (some (ip, off))
      else lookupLoop sb dp name passes (off + DESIZE)
    else pure none

/-- The inode of the entry called `name`, and the offset of the entry.
mirrors kernel/fs.c:551-575 -/
def dirlookup (sb : Superblock) (dp : Fin NINODE) (name : List UInt8) : M (Option (Fin NINODE × Nat)) := do
  let i ← getInode dp
  if i.d.type ≠ .dir then Prog.panic .dirlookupNotDir
  else lookupLoop sb dp name (i.d.size / DESIZE + 1) 0

/-- The offset of the first empty entry, or the end.
mirrors kernel/fs.c:593-598 -/
def emptyLoop (sb : Superblock) (dp : Fin NINODE) : Nat → Nat → M Nat
  | 0, off => pure off
  | passes + 1, off => do
    let i ← getInode dp
    if off < i.d.size then do
      let r ← readi sb dp none (UInt32.ofNat off) (UInt32.ofNat DESIZE)
      if r.1 ≠ DESIZE then Prog.panic .dirlinkRead
      else if (Dirent.decode r.2).inum = 0 then pure off
      else emptyLoop sb dp passes (off + DESIZE)
    else pure off

/-- `dirlink` once the name is known to be new.
mirrors kernel/fs.c:592-605 -/
def dirappend (sb : Superblock) (dp : Fin NINODE) (name : List UInt8) (inum : Nat) : M Int := do
  let i ← getInode dp
  let off ← emptyLoop sb dp (i.d.size / DESIZE + 1) 0
  let r ← writei sb dp (Dirent.encode ⟨inum, strncpy DIRSIZ name⟩) none (UInt32.ofNat off)
    (UInt32.ofNat DESIZE)
  if r ≠ DESIZE then pure (-1) else pure 0

/-- mirrors kernel/fs.c:579-606 -/
def dirlink (sb : Superblock) (dp : Fin NINODE) (name : List UInt8) (inum : Nat) : M Int := do
  match ← dirlookup sb dp name with
  | some (ip, _) => do
    iput sb ip
    pure (-1)
  | none => dirappend sb dp name inum

/-! ## Paths -/

/-- `'/'` -/
def SLASH : UInt8 := 47

/-- The rest of the path, without leading slashes, and the next element.
mirrors kernel/fs.c:622-645 -/
def skipelem (path : List UInt8) : Option (List UInt8 × List UInt8) :=
  let path := path.dropWhile (· = SLASH)
  if path = [] then none
  else some ((path.dropWhile (· ≠ SLASH)).dropWhile (· = SLASH), (path.takeWhile (· ≠ SLASH)).take DIRSIZ)

/-- The loop of `namex`; every pass takes an element off the path.
mirrors kernel/fs.c:661-683 -/
def namexLoop (sb : Superblock) (nameiparent : Bool) :
    Nat → Fin NINODE → List UInt8 → List UInt8 → M (Option (Fin NINODE × List UInt8))
  | 0, _, _, _ => pure none
  | passes + 1, ip, path, name =>
    match skipelem path with
    | none =>
      if nameiparent then do
        iput sb ip
        pure none
      else pure (some (ip, name))
    | some (path, name) => do
      ilock ip
      let i ← getInode ip
      if i.d.type ≠ .dir then do
        iunlockput sb ip
        pure none
      else if nameiparent ∧ path = [] then do
        iunlock ip
        pure (some (ip, name))
      else do
        match ← dirlookup sb ip name with
        | none => do
          iunlockput sb ip
          pure none
        | some (next, _) => do
          iunlockput sb ip
          namexLoop sb nameiparent passes next path name

/-- Where the path starts: the root or the current directory. -/
def namexStart (cwd : Fin NINODE) (path : List UInt8) : M (Fin NINODE) :=
  if path.head? = some SLASH then iget ROOTINO else idup cwd

/-- mirrors kernel/fs.c:651-684 -/
def namex (sb : Superblock) (cwd : Fin NINODE) (path : List UInt8) (nameiparent : Bool) :
    M (Option (Fin NINODE × List UInt8)) := do
  let ip ← namexStart cwd path
  namexLoop sb nameiparent (path.length + 1) ip path []

/-- mirrors kernel/fs.c:686-691 -/
def namei (sb : Superblock) (cwd : Fin NINODE) (path : List UInt8) : M (Option (Fin NINODE)) := do
  let r ← namex sb cwd path false
  pure (r.map Prod.fst)

/-- mirrors kernel/fs.c:693-697 -/
def nameiparent (sb : Superblock) (cwd : Fin NINODE) (path : List UInt8) :
    M (Option (Fin NINODE × List UInt8)) :=
  namex sb cwd path true

end Xv6.Fs
