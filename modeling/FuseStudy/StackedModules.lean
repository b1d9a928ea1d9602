import FuseStudy.CString

/-! The file system modules lib/modules/subdir.c and lib/modules/iconv.c: each operation converts its
path and calls the next file system. -/
namespace FuseStudy.StackedModules
open CString

abbrev Path := Option Bytes

/- A call of a fuse_fs_ function: its paths, and its other arguments as numbers (a pointer is a number too). -/
inductive Call
  | getattr (path : Path) (stbuf fi : Int)
  | access (path : Path) (mask : Int)
  | opendir (path : Path) (fi : Int)
  | releasedir (path : Path) (fi : Int)
  | mknod (path : Path) (mode rdev : Int)
  | mkdir (path : Path) (mode : Int)
  | unlink (path : Path)
  | rmdir (path : Path)
  | symlink (target path : Path)
  | rename (source dest : Path) (flags : Int)
  | link (source dest : Path)
  | chmod (path : Path) (mode fi : Int)
  | chown (path : Path) (uid gid fi : Int)
  | truncate (path : Path) (size fi : Int)
  | utimens (path : Path) (ts fi : Int)
  | create (path : Path) (mode fi : Int)
  | open (path : Path) (fi : Int)
  | readBuf (path : Path) (bufp size offset fi : Int)
  | writeBuf (path : Path) (buf offset fi : Int)
  | statfs (path : Path) (stbuf : Int)
  | flush (path : Path) (fi : Int)
  | release (path : Path) (fi : Int)
  | fsync (path : Path) (isdatasync fi : Int)
  | fsyncdir (path : Path) (isdatasync fi : Int)
  | setxattr (path : Path) (name value size flags : Int)
  | getxattr (path : Path) (name value size : Int)
  | listxattr (path : Path) (list size : Int)
  | removexattr (path : Path) (name : Int)
  | lock (path : Path) (fi cmd lock : Int)
  | flock (path : Path) (fi op : Int)
  | bmap (path : Path) (blocksize idx : Int)
  | lseek (path : Path) (off whence fi : Int)
  deriving DecidableEq, Repr

/- What an operation of a module did: the calls of the next file system and its own value. -/
structure Outcome where
  calls : List Call
  value : Int
  deriving DecidableEq, Repr

def enomem : Int := 12

def eilseq : Int := 84

structure Subdir where
  base : Bytes
  deriving DecidableEq, Repr

/- `alloc` is whether malloc finds memory. The length of the block is unsigned in the source, and
the paths that get here are below 4 GiB. -/
def subdirAddpath (d : Subdir) (alloc : Bool) : Path → Except Int Path
  | none => .ok none
  | some path =>
    if alloc then
      let path := if path.head? = some 47 then path.tail else path
      let newpath := d.base ++ path
      .ok (some (if newpath = [] then ascii "." else newpath))
    else .error (-enomem)

/- What iconv makes of a string: all of it, or nothing after so many bytes. -/
inductive Converted
  | all (out : Bytes)
  | stops (after : Nat)
  deriving DecidableEq, Repr

/- The calls of iconv_convpath on one string: `left` is how much of it is still unread at each E2BIG
and `grows` whether realloc finds memory then. -/
structure Converter where
  conv : Bytes → Converted
  alloc : Bool
  left : Nat → Nat
  grows : Nat → Bool

/- The bytes that have to fit before iconv ends for good. -/
def Converted.need : Converted → Nat
  | .all out => out.length
  | .stops after => after

def convLoop (c : Converter) (res : Converted) (turn newpathlen : Nat) : Except Int Path :=
  if res.need ≤ newpathlen then
    match res with
    | .all out => .ok (some out)
    | .stops _ => .error (-eilseq)
  else if c.grows turn then convLoop c res (turn + 1) (newpathlen + (c.left turn + 1) * 4)
  else .error (-enomem)
  termination_by res.need - newpathlen
  decreasing_by omega

def iconvConvpath (c : Converter) : Path → Except Int Path
  | none => .ok none
  | some path => if c.alloc then convLoop c (c.conv path) 0 (path.length * 4) else .error (-enomem)

variable (conv : Nat → Path → Except Int Path) (next : Call → Int)

def onPath (path : Path) (call : Path → Call) : Outcome :=
  match conv 0 path with
  | .error err => ⟨[],err⟩
  | .ok newpath => ⟨[call newpath],next (call newpath)⟩

def onPaths (source dest : Path) (call : Path → Path → Call) : Outcome :=
  match conv 0 source with
  | .error err => ⟨[],err⟩
  | .ok newfrom =>
    match conv 1 dest with
    | .error err => ⟨[],err⟩
    | .ok newto => ⟨[call newfrom newto],next (call newfrom newto)⟩

/- An off_t that was put into an int on its way. -/
def intOf (o : Outcome) : Outcome := {o with value := o.value.bmod (2 ^ 32)}

/-! The operations of subdir.c; `conv` is subdir_addpath for the first and the second path. -/

def subdirGetattr (path : Path) (stbuf fi : Int) : Outcome := onPath conv next path (.getattr · stbuf fi)

def subdirAccess (path : Path) (mask : Int) : Outcome := onPath conv next path (.access · mask)

def subdirOpendir (path : Path) (fi : Int) : Outcome := onPath conv next path (.opendir · fi)

def subdirReleasedir (path : Path) (fi : Int) : Outcome := onPath conv next path (.releasedir · fi)

def subdirMknod (path : Path) (mode rdev : Int) : Outcome := onPath conv next path (.mknod · mode rdev)

def subdirMkdir (path : Path) (mode : Int) : Outcome := onPath conv next path (.mkdir · mode)

def subdirUnlink (path : Path) : Outcome := onPath conv next path .unlink

def subdirRmdir (path : Path) : Outcome := onPath conv next path .rmdir

def subdirSymlink (target path : Path) : Outcome := onPath conv next path (.symlink target ·)

def subdirRename (source dest : Path) (flags : Int) : Outcome := onPaths conv next source dest (.rename · · flags)

def subdirLink (source dest : Path) : Outcome := onPaths conv next source dest .link

def subdirChmod (path : Path) (mode fi : Int) : Outcome := onPath conv next path (.chmod · mode fi)

def subdirChown (path : Path) (uid gid fi : Int) : Outcome := onPath conv next path (.chown · uid gid fi)

def subdirTruncate (path : Path) (size fi : Int) : Outcome := onPath conv next path (.truncate · size fi)

def subdirUtimens (path : Path) (ts fi : Int) : Outcome := onPath conv next path (.utimens · ts fi)

def subdirCreate (path : Path) (mode fi : Int) : Outcome := onPath conv next path (.create · mode fi)

def subdirOpen (path : Path) (fi : Int) : Outcome := onPath conv next path (.open · fi)

def subdirReadBuf (path : Path) (bufp size offset fi : Int) : Outcome :=
  onPath conv next path (.readBuf · bufp size offset fi)

def subdirWriteBuf (path : Path) (buf offset fi : Int) : Outcome := onPath conv next path (.writeBuf · buf offset fi)

def subdirStatfs (path : Path) (stbuf : Int) : Outcome := onPath conv next path (.statfs · stbuf)

def subdirFlush (path : Path) (fi : Int) : Outcome := onPath conv next path (.flush · fi)

def subdirRelease (path : Path) (fi : Int) : Outcome := onPath conv next path (.release · fi)

def subdirFsync (path : Path) (isdatasync fi : Int) : Outcome := onPath conv next path (.fsync · isdatasync fi)

def subdirFsyncdir (path : Path) (isdatasync fi : Int) : Outcome := onPath conv next path (.fsyncdir · isdatasync fi)

def subdirSetxattr (path : Path) (name value size flags : Int) : Outcome :=
  onPath conv next path (.setxattr · name value size flags)

def subdirGetxattr (path : Path) (name value size : Int) : Outcome :=
  onPath conv next path (.getxattr · name value size)

def subdirListxattr (path : Path) (list size : Int) : Outcome := onPath conv next path (.listxattr · list size)

def subdirRemovexattr (path : Path) (name : Int) : Outcome := onPath conv next path (.removexattr · name)

def subdirLock (path : Path) (fi cmd lock : Int) : Outcome := onPath conv next path (.lock · fi cmd lock)

def subdirFlock (path : Path) (fi op : Int) : Outcome := onPath conv next path (.flock · fi op)

def subdirBmap (path : Path) (blocksize idx : Int) : Outcome := onPath conv next path (.bmap · blocksize idx)

def subdirLseek (path : Path) (off whence fi : Int) : Outcome :=
  intOf (onPath conv next path fun newpath => .lseek newpath off whence fi)

def subdirOper : Call → Outcome
  | .getattr path stbuf fi => subdirGetattr conv next path stbuf fi
  | .access path mask => subdirAccess conv next path mask
  | .opendir path fi => subdirOpendir conv next path fi
  | .releasedir path fi => subdirReleasedir conv next path fi
  | .mknod path mode rdev => subdirMknod conv next path mode rdev
  | .mkdir path mode => subdirMkdir conv next path mode
  | .unlink path => subdirUnlink conv next path
  | .rmdir path => subdirRmdir conv next path
  | .symlink target path => subdirSymlink conv next target path
  | .rename source dest flags => subdirRename conv next source dest flags
  | .link source dest => subdirLink conv next source dest
  | .chmod path mode fi => subdirChmod conv next path mode fi
  | .chown path uid gid fi => subdirChown conv next path uid gid fi
  | .truncate path size fi => subdirTruncate conv next path size fi
  | .utimens path ts fi => subdirUtimens conv next path ts fi
  | .create path mode fi => subdirCreate conv next path mode fi
  | .open path fi => subdirOpen conv next path fi
  | .readBuf path bufp size offset fi => subdirReadBuf conv next path bufp size offset fi
  | .writeBuf path buf offset fi => subdirWriteBuf conv next path buf offset fi
  | .statfs path stbuf => subdirStatfs conv next path stbuf
  | .flush path fi => subdirFlush conv next path fi
  | .release path fi => subdirRelease conv next path fi
  | .fsync path isdatasync fi => subdirFsync conv next path isdatasync fi
  | .fsyncdir path isdatasync fi => subdirFsyncdir conv next path isdatasync fi
  | .setxattr path name value size flags => subdirSetxattr conv next path name value size flags
  | .getxattr path name value size => subdirGetxattr conv next path name value size
  | .listxattr path list size => subdirListxattr conv next path list size
  | .removexattr path name => subdirRemovexattr conv next path name
  | .lock path fi cmd lock => subdirLock conv next path fi cmd lock
  | .flock path fi op => subdirFlock conv next path fi op
  | .bmap path blocksize idx => subdirBmap conv next path blocksize idx
  | .lseek path off whence fi => subdirLseek conv next path off whence fi

/-! The operations of iconv.c; `conv` is iconv_convpath. -/

def iconvGetattr (path : Path) (stbuf fi : Int) : Outcome := onPath conv next path (.getattr · stbuf fi)

def iconvAccess (path : Path) (mask : Int) : Outcome := onPath conv next path (.access · mask)

def iconvOpendir (path : Path) (fi : Int) : Outcome := onPath conv next path (.opendir · fi)

def iconvReleasedir (path : Path) (fi : Int) : Outcome := onPath conv next path (.releasedir · fi)

def iconvMknod (path : Path) (mode rdev : Int) : Outcome := onPath conv next path (.mknod · mode rdev)

def iconvMkdir (path : Path) (mode : Int) : Outcome := onPath conv next path (.mkdir · mode)

def iconvUnlink (path : Path) : Outcome := onPath conv next path .unlink

def iconvRmdir (path : Path) : Outcome := onPath conv next path .rmdir

def iconvSymlink (target path : Path) : Outcome := onPaths conv next target path .symlink

def iconvRename (source dest : Path) (flags : Int) : Outcome := onPaths conv next source dest (.rename · · flags)

def iconvLink (source dest : Path) : Outcome := onPaths conv next source dest .link

def iconvChmod (path : Path) (mode fi : Int) : Outcome := onPath conv next path (.chmod · mode fi)

def iconvChown (path : Path) (uid gid fi : Int) : Outcome := onPath conv next path (.chown · uid gid fi)

def iconvTruncate (path : Path) (size fi : Int) : Outcome := onPath conv next path (.truncate · size fi)

def iconvUtimens (path : Path) (ts fi : Int) : Outcome := onPath conv next path (.utimens · ts fi)

def iconvCreate (path : Path) (mode fi : Int) : Outcome := onPath conv next path (.create · mode fi)

def iconvOpenFile (path : Path) (fi : Int) : Outcome := onPath conv next path (.open · fi)

def iconvReadBuf (path : Path) (bufp size offset fi : Int) : Outcome :=
  onPath conv next path (.readBuf · bufp size offset fi)

def iconvWriteBuf (path : Path) (buf offset fi : Int) : Outcome := onPath conv next path (.writeBuf · buf offset fi)

def iconvStatfs (path : Path) (stbuf : Int) : Outcome := onPath conv next path (.statfs · stbuf)

def iconvFlush (path : Path) (fi : Int) : Outcome := onPath conv next path (.flush · fi)

def iconvRelease (path : Path) (fi : Int) : Outcome := onPath conv next path (.release · fi)

def iconvFsync (path : Path) (isdatasync fi : Int) : Outcome := onPath conv next path (.fsync · isdatasync fi)

def iconvFsyncdir (path : Path) (isdatasync fi : Int) : Outcome := onPath conv next path (.fsyncdir · isdatasync fi)

def iconvSetxattr (path : Path) (name value size flags : Int) : Outcome :=
  onPath conv next path (.setxattr · name value size flags)

def iconvGetxattr (path : Path) (name value size : Int) : Outcome := onPath conv next path (.getxattr · name value size)

def iconvListxattr (path : Path) (list size : Int) : Outcome := onPath conv next path (.listxattr · list size)

def iconvRemovexattr (path : Path) (name : Int) : Outcome := onPath conv next path (.removexattr · name)

def iconvLock (path : Path) (fi cmd lock : Int) : Outcome := onPath conv next path (.lock · fi cmd lock)

def iconvFlock (path : Path) (fi op : Int) : Outcome := onPath conv next path (.flock · fi op)

def iconvBmap (path : Path) (blocksize idx : Int) : Outcome := onPath conv next path (.bmap · blocksize idx)

def iconvLseek (path : Path) (off whence fi : Int) : Outcome :=
  intOf (onPath conv next path fun newpath => .lseek newpath off whence fi)

def iconvOper : Call → Outcome
  | .getattr path stbuf fi => iconvGetattr conv next path stbuf fi
  | .access path mask => iconvAccess conv next path mask
  | .opendir path fi => iconvOpendir conv next path fi
  | .releasedir path fi => iconvReleasedir conv next path fi
  | .mknod path mode rdev => iconvMknod conv next path mode rdev
  | .mkdir path mode => iconvMkdir conv next path mode
  | .unlink path => iconvUnlink conv next path
  | .rmdir path => iconvRmdir conv next path
  | .symlink target path => iconvSymlink conv next target path
  | .rename source dest flags => iconvRename conv next source dest flags
  | .link source dest => iconvLink conv next source dest
  | .chmod path mode fi => iconvChmod conv next path mode fi
  | .chown path uid gid fi => iconvChown conv next path uid gid fi
  | .truncate path size fi => iconvTruncate conv next path size fi
  | .utimens path ts fi => iconvUtimens conv next path ts fi
  | .create path mode fi => iconvCreate conv next path mode fi
  | .open path fi => iconvOpenFile conv next path fi
  | .readBuf path bufp size offset fi => iconvReadBuf conv next path bufp size offset fi
  | .writeBuf path buf offset fi => iconvWriteBuf conv next path buf offset fi
  | .statfs path stbuf => iconvStatfs conv next path stbuf
  | .flush path fi => iconvFlush conv next path fi
  | .release path fi => iconvRelease conv next path fi
  | .fsync path isdatasync fi => iconvFsync conv next path isdatasync fi
  | .fsyncdir path isdatasync fi => iconvFsyncdir conv next path isdatasync fi
  | .setxattr path name value size flags => iconvSetxattr conv next path name value size flags
  | .getxattr path name value size => iconvGetxattr conv next path name value size
  | .listxattr path list size => iconvListxattr conv next path list size
  | .removexattr path name => iconvRemovexattr conv next path name
  | .lock path fi cmd lock => iconvLock conv next path fi cmd lock
  | .flock path fi op => iconvFlock conv next path fi op
  | .bmap path blocksize idx => iconvBmap conv next path blocksize idx
  | .lseek path off whence fi => iconvLseek conv next path off whence fi

def convertCall (linkText : Bool) : Call → Except Int Call
  | .getattr path stbuf fi => do return .getattr (← conv 0 path) stbuf fi
  | .access path mask => do return .access (← conv 0 path) mask
  | .opendir path fi => do return .opendir (← conv 0 path) fi
  | .releasedir path fi => do return .releasedir (← conv 0 path) fi
  | .mknod path mode rdev => do return .mknod (← conv 0 path) mode rdev
  | .mkdir path mode => do return .mkdir (← conv 0 path) mode
  | .unlink path => do return .unlink (← conv 0 path)
  | .rmdir path => do return .rmdir (← conv 0 path)
  | .symlink target path => do
    if linkText then return .symlink target (← conv 0 path)
    else return .symlink (← conv 0 target) (← conv 1 path)
  | .rename source dest flags => do return .rename (← conv 0 source) (← conv 1 dest) flags
  | .link source dest => do return .link (← conv 0 source) (← conv 1 dest)
  | .chmod path mode fi => do return .chmod (← conv 0 path) mode fi
  | .chown path uid gid fi => do return .chown (← conv 0 path) uid gid fi
  | .truncate path size fi => do return .truncate (← conv 0 path) size fi
  | .utimens path ts fi => do return .utimens (← conv 0 path) ts fi
  | .create path mode fi => do return .create (← conv 0 path) mode fi
  | .open path fi => do return .open (← conv 0 path) fi
  | .readBuf path bufp size offset fi => do return .readBuf (← conv 0 path) bufp size offset fi
  | .writeBuf path buf offset fi => do return .writeBuf (← conv 0 path) buf offset fi
  | .statfs path stbuf => do return .statfs (← conv 0 path) stbuf
  | .flush path fi => do return .flush (← conv 0 path) fi
  | .release path fi => do return .release (← conv 0 path) fi
  | .fsync path isdatasync fi => do return .fsync (← conv 0 path) isdatasync fi
  | .fsyncdir path isdatasync fi => do return .fsyncdir (← conv 0 path) isdatasync fi
  | .setxattr path name value size flags => do return .setxattr (← conv 0 path) name value size flags
  | .getxattr path name value size => do return .getxattr (← conv 0 path) name value size
  | .listxattr path list size => do return .listxattr (← conv 0 path) list size
  | .removexattr path name => do return .removexattr (← conv 0 path) name
  | .lock path fi cmd lock => do return .lock (← conv 0 path) fi cmd lock
  | .flock path fi op => do return .flock (← conv 0 path) fi op
  | .bmap path blocksize idx => do return .bmap (← conv 0 path) blocksize idx
  | .lseek path off whence fi => do return .lseek (← conv 0 path) off whence fi

def through (next : Call → Int) : Except Int Call → Outcome
  | .error err => ⟨[],err⟩
  | .ok call => ⟨[call],next call⟩

variable {conv next}

theorem onPathThrough {path : Path} {call : Path → Call} :
    onPath conv next path call = through next (do return call (← conv 0 path)) := by
  unfold onPath
  cases conv 0 path <;> rfl

theorem onPathsThrough {source dest : Path} {call : Path → Path → Call} :
    onPaths conv next source dest call = through next (do return call (← conv 0 source) (← conv 1 dest)) := by
  unfold onPaths
  cases conv 0 source with
  | error err => rfl
  | ok newfrom => cases conv 1 dest <;> rfl

theorem intOfSame {o : Outcome} : intOf o = o ↔ -2 ^ 31 ≤ o.value ∧ o.value < 2 ^ 31 := by
  obtain ⟨calls,value⟩ := o
  simp only [intOf,Outcome.mk.injEq,true_and]
  constructor
  · intro same
    have low := Int.le_bmod (x := value) (m := 2 ^ 32) (by decide)
    have high := Int.bmod_lt (x := value) (m := 2 ^ 32) (by decide)
    omega
  · rintro ⟨low,high⟩
    exact Int.bmod_eq_of_le (by omega) (by omega)

def Call.isLseek : Call → Bool
  | .lseek .. => true
  | _ => false

/- The answer of an lseek goes through an int. -/
def narrow (call : Call) (o : Outcome) : Outcome := if call.isLseek then intOf o else o

theorem subdirThrough {call : Call} :
    subdirOper conv next call = narrow call (through next (convertCall conv true call)) := by
  cases call with
  | rename source dest flags => exact onPathsThrough
  | link source dest => exact onPathsThrough
  | lseek path off whence fi => exact congrArg intOf onPathThrough
  | _ => exact onPathThrough

theorem iconvThrough {call : Call} :
    iconvOper conv next call = narrow call (through next (convertCall conv false call)) := by
  cases call with
  | symlink target path => exact onPathsThrough
  | rename source dest flags => exact onPathsThrough
  | link source dest => exact onPathsThrough
  | lseek path off whence fi => exact congrArg intOf onPathThrough
  | _ => exact onPathThrough

/- A module of the stack with what its memory and its conversion do to the first and the second path. -/
inductive Module
  | subdir (d : Subdir) (alloc : Nat → Bool)
  | iconv (c : Nat → Converter)

def Module.pathConv : Module → Nat → Path → Except Int Path
  | .subdir d alloc => fun i => subdirAddpath d (alloc i)
  | .iconv c => fun i => iconvConvpath (c i)

def Module.convert : Module → Call → Except Int Call
  | .subdir d alloc => convertCall (Module.pathConv (.subdir d alloc)) true
  | .iconv c => convertCall (Module.pathConv (.iconv c)) false

def Module.oper : Module → (Call → Int) → Call → Outcome
  | .subdir d alloc => subdirOper (Module.pathConv (.subdir d alloc))
  | .iconv c => iconvOper (Module.pathConv (.iconv c))

theorem operThrough {m : Module} {call : Call} : m.oper next call = narrow call (through next (m.convert call)) := by
  cases m with
  | subdir d alloc => exact subdirThrough
  | iconv c => exact iconvThrough

theorem addpathError {d : Subdir} {alloc : Bool} {path : Path} {err : Int}
    (failed : subdirAddpath d alloc path = .error err) :
    err = -enomem := by
  unfold subdirAddpath at failed
  split at failed
  · cases failed
  · split at failed
    · cases failed
    · cases failed
      rfl

theorem convLoopError {c : Converter} {res : Converted} {turn newpathlen : Nat} {err : Int}
    (failed : convLoop c res turn newpathlen = .error err) : err = -enomem ∨ err = -eilseq := by
  fun_induction convLoop c res turn newpathlen with
  | case1 turn newpathlen fits out => cases failed
  | case2 turn newpathlen fits after =>
    cases failed
    exact .inr rfl
  | case3 turn newpathlen short grows ih => exact ih failed
  | case4 turn newpathlen short grows =>
    cases failed
    exact .inl rfl

theorem convpathError {c : Converter} {path : Path} {err : Int} (failed : iconvConvpath c path = .error err) :
    err = -enomem ∨ err = -eilseq := by
  unfold iconvConvpath at failed
  split at failed
  · cases failed
  · split at failed
    · exact convLoopError failed
    · cases failed
      exact .inl rfl

theorem convError {m : Module} {i : Nat} {path : Path} {err : Int} (failed : m.pathConv i path = .error err) :
    err = -enomem ∨ err = -eilseq := by
  cases m with
  | subdir d alloc => exact .inl (addpathError failed)
  | iconv c => exact convpathError failed

theorem lseekConvert {m : Module} {path : Path} {off whence fi : Int} :
    m.convert (.lseek path off whence fi) = do return .lseek (← m.pathConv 0 path) off whence fi := by
  cases m <;> rfl

/- Every operation is passed through as it is, but for offsets that an int has no room for. -/
theorem moduleTransparent (m : Module) (next : Call → Int) (call : Call) :
    m.oper next call = through next (m.convert call) ↔
      ∀ newcall, call.isLseek = true → m.convert call = .ok newcall → -2 ^ 31 ≤ next newcall ∧
        next newcall < 2 ^ 31 := by
  rw [operThrough,narrow]
  by_cases seek : call.isLseek = true
  · rw [if_pos seek,intOfSame]
    cases converted : m.convert call with
    | ok newcall =>
      constructor
      · intro fits newcall' _ same
        cases same
        exact fits
      · exact fun fits => fits newcall seek rfl
    | error err =>
      have known : err = -enomem ∨ err = -eilseq := by
        cases call with
        | lseek path off whence fi =>
          rw [lseekConvert] at converted
          cases first : m.pathConv 0 path with
          | ok newpath =>
            rw [first] at converted
            cases converted
          | error err' =>
            rw [first] at converted
            cases converted
            exact convError first
        | _ => cases seek
      constructor
      · intro _ newcall _ same
        cases same
      · intro _
        rcases known with rfl | rfl
        · exact (by decide : (-2 : Int) ^ 31 ≤ -enomem ∧ -enomem < 2 ^ 31)
        · exact (by decide : (-2 : Int) ^ 31 ≤ -eilseq ∧ -eilseq < 2 ^ 31)
  · rw [if_neg seek]
    exact ⟨fun _ _ set => absurd set seek,fun _ => rfl⟩

/- The end of a file of 4 GiB and 5 bytes, seen through subdir. -/
theorem lseekTruncated :
    let m : Module := .subdir ⟨ascii "/srv/"⟩ fun _ => true
    let next : Call → Int := fun _ => 4294967301
    let call : Call := .lseek (some (ascii "/f")) 0 2 0
    let newcall : Call := .lseek (some (ascii "/srv/f")) 0 2 0
    m.convert call = .ok newcall ∧ m.oper next call = ⟨[newcall],5⟩ ∧
      through next (m.convert call) = ⟨[newcall],4294967301⟩ := by
  decide +kernel

end FuseStudy.StackedModules
