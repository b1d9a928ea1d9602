import FuseStudy.StoreLookups
import FuseStudy.TreeLocks

/-! READDIR and READDIRPLUS. The user's readdir hands its entries to a filler one by one. An
entry with an offset goes straight into the buffer of the reply, entries without are kept in
a list from which this and later replies are cut. In plus mode each entry is looked up as it
is put into the buffer. -/
namespace FuseStudy.NodeStore
open CString LinearHash

structure Stat where
  ino : Nat
  mode : Nat
  deriving DecidableEq

def fillDirPlusFlag : Nat := 2

/- One call of the filler. The flag tells whether the user's readdir goes on although the
filler has returned 1. -/
structure Fill where
  name : Name
  stat : Option Stat
  off : Int
  flags : Nat
  insists : Bool
  deriving DecidableEq

structure Direntry where
  name : Name
  flags : Nat
  stat : Stat
  deriving DecidableEq

/- An entry of the reply buffer, nodeid and generation being those of entry_out in plus mode. -/
structure Packed where
  nodeid : Ino
  generation : Nat
  ino : Nat
  off : Int
  type : Nat
  name : Name
  deriving DecidableEq

structure Dh where
  first : List Direntry
  contents : List Packed
  len : Nat
  size : Nat
  needlen : Nat
  filled : Bool
  error : Int
  nodeid : Ino
  deriving DecidableEq

structure InoConf where
  useIno : Bool
  readdirIno : Bool

inductive Reply
  | err (error : Int)
  | buf (contents : List Packed)

def direntAlign (x : Nat) : Nat := (x + 7) / 8 * 8

def nameOffset : Nat := 24

def nameOffsetDirentplus : Nat := 152

def direntSize (plus : Bool) (name : Name) : Nat :=
  direntAlign ((if plus then nameOffsetDirentplus else nameOffset) + name.length)

def isDotOrDotdot (name : Name) : Bool := name == ascii "." || name == ascii ".."

def plusFlag (flags : Nat) : Bool := flags / 2 % 2 == 1

def knownFlags (flags : Nat) : Bool := flags == 0 || flags == fillDirPlusFlag

def Fuse.lookupNodeid (s : Fuse) (parent : Ino) (name : Name) : Nat :=
  match (s.lookupNode parent name).bind s.heap with
  | some n => n.nodeid
  | none => unknownIno

def Fuse.extendContents (s : Fuse) (dh : Dh) (minsize : Nat) : Fuse × Dh × Bool :=
  if dh.size < minsize then
    let (grown,s) := s.takeMem
    if grown then (s,{dh with size := growBuf 32 (if dh.size = 0 then 1024 else dh.size) minsize},true)
    else (s,{dh with error := -enomem},false)
  else (s,dh,true)

def Fuse.addDirentryToDh (s : Fuse) (dh : Dh) (name : Name) (stat : Stat) (flags : Nat) : Fuse × Dh × Bool :=
  let (allocated,s) := s.takeMem
  if allocated then
    let (copied,s) := s.takeMem
    if copied then (s,{dh with first := dh.first ++ [⟨name,flags,stat⟩]},false)
    else (s,{dh with error := -enomem},true)
  else (s,{dh with error := -enomem},true)

/- The id and the generation of the node, none when memory ran out. -/
def Fuse.doLookup (s : Fuse) (nodeid : Ino) (name : Name) : Except Fault (Fuse × Option (Ino × Nat)) := do
  let (s,found) ← s.findNode nodeid (some name)
  match found with
  | none => .ok (s,none)
  | some p =>
    let n ← s.deref p
    .ok (s,some (n.nodeid,n.generation))

def InoConf.setStat (conf : InoConf) (nodeid : Ino) (stat : Stat) : Stat :=
  if conf.useIno then stat else {stat with ino := nodeid}

/- fuse_add_direntry and fuse_add_direntry_plus write only what fits. -/
def Dh.add (dh : Dh) (plus : Bool) (entry : Packed) : Dh × Bool :=
  if dh.needlen < dh.len + direntSize plus entry.name then (dh,true)
  else ({dh with contents := dh.contents ++ [entry], len := dh.len + direntSize plus entry.name},false)

def fileType (mode : Nat) : Nat := mode % 2 ^ 16 / 2 ^ 12

def Fuse.fillStat (s : Fuse) (conf : InoConf) (dh : Dh) (fill : Fill) : Stat :=
  let given := fill.stat.getD ⟨unknownIno,0⟩
  if conf.useIno then given
  else ⟨if conf.readdirIno then s.lookupNodeid dh.nodeid fill.name else unknownIno,given.mode⟩

def Fuse.fillDir (s : Fuse) (conf : InoConf) (dh : Dh) (fill : Fill) : Except Fault (Fuse × Dh × Bool) :=
  if !knownFlags fill.flags then .ok (s,{dh with error := -eio},true)
  else
    let stat := s.fillStat conf dh fill
    if fill.off ≠ 0 then
      if dh.filled ∨ dh.first ≠ [] then .ok (s,{dh with error := -eio},true)
      else match s.extendContents dh dh.needlen with
        | (s,dh,false) => .ok (s,dh,true)
        | (s,dh,true) => .ok (s,dh.add false ⟨0,0,stat.ino,fill.off,fileType stat.mode,fill.name⟩)
    else .ok (s.addDirentryToDh {dh with filled := true} fill.name stat fill.flags)

def Fuse.fillDirPlus (s : Fuse) (conf : InoConf) (dh : Dh) (fill : Fill) : Except Fault (Fuse × Dh × Bool) :=
  if !knownFlags fill.flags then .ok (s,{dh with error := -eio},true)
  else
    let stat := if fill.stat.isSome ∧ plusFlag fill.flags then fill.stat.getD ⟨0,0⟩ else s.fillStat conf dh fill
    if fill.off ≠ 0 then
      if dh.filled ∨ dh.first ≠ [] then .ok (s,{dh with error := -eio},true)
      else match s.extendContents dh dh.needlen with
        | (s,dh,false) => .ok (s,dh,true)
        | (s,dh,true) =>
          if fill.stat.isSome && plusFlag fill.flags && !isDotOrDotdot fill.name then do
            let (s,looked) ← s.doLookup dh.nodeid fill.name
            match looked with
            | none => .ok (s,{dh with error := -enomem},true)
            | some (nodeid,generation) =>
              let stat := conf.setStat nodeid stat
              .ok (s,dh.add true ⟨nodeid,generation,stat.ino,fill.off,fileType stat.mode,fill.name⟩)
          else .ok (s,dh.add true ⟨0,0,stat.ino,fill.off,fileType stat.mode,fill.name⟩)
    else .ok (s.addDirentryToDh {dh with filled := true} fill.name stat fill.flags)

def fillAll (filler : Fuse → Dh → Fill → Except Fault (Fuse × Dh × Bool)) :
    Fuse → Dh → List Fill → Except Fault (Fuse × Dh)
  | s, dh, [] => .ok (s,dh)
  | s, dh, fill :: fills => do
    let (s,dh,full) ← filler s dh fill
    if full && !fill.insists then .ok (s,dh) else fillAll filler s dh fills

/- What the environment of the request decides: the error of get_path, and the calls and the
result of the user's readdir. -/
structure Directory where
  pathErr : Int
  fills : List Fill
  res : Int

def Dh.restart (dh : Dh) (needlen : Nat) : Dh :=
  {dh with first := [], contents := [], len := 0, error := 0, needlen := needlen, filled := false}

def Fuse.readdirFill (s : Fuse) (conf : InoConf) (plus : Bool) (size : Nat) (dh : Dh) (user : Directory) :
    Except Fault (Fuse × Dh × Int) :=
  if user.pathErr ≠ 0 then .ok (s,dh,user.pathErr)
  else do
    let filler := fun s dh fill => if plus then Fuse.fillDirPlus s conf dh fill else Fuse.fillDir s conf dh fill
    let (s,dh) ← fillAll filler s (dh.restart (size % 2 ^ 32)) user.fills
    let err := if user.res ≠ 0 then user.res else dh.error
    .ok (s,if err ≠ 0 then {dh with filled := false} else dh,err)

def packedIn (plus : Bool) : Nat → List Packed → List Packed
  | _, [] => []
  | len, entry :: rest =>
    if direntSize plus entry.name ≤ len then entry :: packedIn plus (len - direntSize plus entry.name) rest else []

/- The loop over the list. Lengths are unsigned and wrap around, and then the reply ends sooner. -/
def fillList (conf : InoConf) (plus : Bool) : Fuse → Dh → Int → List Direntry → Except Fault (Fuse × Dh × Int)
  | s, dh, _, [] => .ok (s,dh,0)
  | s, dh, pos, de :: rest => do
    let looks := plus && plusFlag de.flags && !isDotOrDotdot de.name
    let (s,looked) ← if looks then s.doLookup dh.nodeid de.name else .ok (s,some (0,0))
    match looked with
    | none => .ok (s,{dh with error := -enomem},1)
    | some (nodeid,generation) =>
      let stat := if looks then conf.setStat nodeid de.stat else de.stat
      let entlen := direntSize plus de.name
      let newlen := (dh.len + entlen % 2 ^ 32) % 2 ^ 32
      if dh.needlen < newlen then .ok (s,dh,0)
      else
        let entry : Packed := ⟨nodeid,generation,stat.ino,pos + 1,fileType stat.mode,de.name⟩
        let contents :=
          if entlen ≤ dh.needlen - dh.len then dh.contents ++ [entry] else packedIn plus newlen dh.contents
        fillList conf plus s {dh with contents := contents, len := newlen} (pos+1) rest

def Fuse.readdirFillFromList (s : Fuse) (conf : InoConf) (plus : Bool) (dh : Dh) (off : Int) :
    Except Fault (Fuse × Dh × Int) :=
  match s.extendContents {dh with len := 0, contents := []} dh.needlen with
  | (s,dh,false) => .ok (s,dh,dh.error)
  | (s,dh,true) => fillList conf plus s dh (min off.toNat dh.first.length) (dh.first.drop off.toNat)

/- Directory contents are refreshed on rewinddir. -/
def Dh.rewind (dh : Dh) (off : Int) : Dh := if off = 0 then {dh with filled := false} else dh

def Fuse.readdirCommon (s : Fuse) (conf : InoConf) (plus : Bool) (size : Nat) (off : Int) (dh : Dh)
    (user : Directory) : Except Fault (Fuse × Dh × Reply) := do
  let dh := dh.rewind off
  let (s,dh,err) ← if dh.filled then .ok (s,dh,0) else s.readdirFill conf plus size dh user
  if err ≠ 0 then .ok (s,dh,.err err)
  else if dh.filled then do
    let (s,dh,err) ← s.readdirFillFromList conf plus {dh with needlen := size % 2 ^ 32} off
    .ok (s,dh,if err ≠ 0 then .err err else .buf dh.contents)
  else .ok (s,dh,.buf dh.contents)

def Fuse.libReaddirplus (s : Fuse) (conf : InoConf) (size : Nat) (off : Int) (dh : Dh) (user : Directory) :
    Except Fault (Fuse × Dh × Reply) :=
  s.readdirCommon conf true size off dh user

end FuseStudy.NodeStore
