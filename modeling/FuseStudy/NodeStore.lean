import FuseStudy.CString
import FuseStudy.LinearHash

/-! The node table of the high-level library: nodes in a heap, found by id and by
(parent id, name) through two linear hash tables, with a count of the kernel's lookups and
a count of the references that keep a node in memory. Every allocation asks the stream
`memory`; abort, a failed assert and a bad pointer are faults. -/
namespace FuseStudy.NodeStore
open CString LinearHash

abbrev Ino := Nat

abbrev Ptr := Nat

abbrev Name := Bytes

structure Node where
  nodeid : Ino
  generation : Nat
  refctr : Nat
  parent : Option Ptr
  name : Option Name
  nlookup : Nat
  openCount : Int
  isHidden : Bool
  treelock : Int
  deriving DecidableEq

structure Conf where
  remember : Int
  nullpathOk : Bool
  hardRemove : Bool

structure Fuse where
  heap : Ptr → Option Node
  -- the next pointer alloc_node returns; a freed pointer never comes back
  brk : Ptr
  nameTable : Table Ptr
  idTable : Table Ptr
  lruTable : List Ptr
  ctr : Nat
  generation : Nat
  hidectr : Nat
  conf : Conf
  memory : Nat → Bool

inductive Fault
  | getNode | unhashName | unrefNode | deleteLocked | forgetCount | unlinkCount | cleanCount
  | needLock | writeLost | readLost | openCount | nullPointer | freedPointer | idsExhausted | diverges
  deriving DecidableEq

def rootId : Ino := 1

def unknownIno : Ino := 0xffffffff

def minTable : Nat := 8192

def inlineName : Nat := 32

def Fuse.lruEnabled (s : Fuse) : Bool := decide (0 < s.conf.remember)

def Fuse.takeMem (s : Fuse) : Bool × Fuse := (s.memory 0,{s with memory := fun i => s.memory (i+1)})

def Fuse.put (s : Fuse) (p : Ptr) (n : Node) : Fuse := {s with heap := Function.update s.heap p (some n)}

@[simp] theorem putSelf (s : Fuse) (p : Ptr) (n : Node) : (s.put p n).heap p = some n :=
  Function.update_self ..

theorem putOther {p q : Ptr} (other : q ≠ p) (s : Fuse) (n : Node) : (s.put p n).heap q = s.heap q :=
  Function.update_of_ne other ..

def Fuse.deref (s : Fuse) (p : Ptr) : Except Fault Node :=
  match s.heap p with
  | some n => .ok n
  | none => .error .freedPointer

def idKey (ino : Ino) : Nat := ino % 2 ^ 32 * 2654435761 % 2 ^ 32

def nameKey (parent : Ino) (name : Name) : Nat :=
  name.foldl (fun hash b => (hash * 31 + b.toNat) % 2 ^ 64) parent

def Fuse.idHash (s : Fuse) (p : Ptr) : Nat :=
  match s.heap p with
  | some n => idKey n.nodeid
  | none => 0

/- The id of the parent and the name of a node that has both. -/
def entryOf (heap : Ptr → Option Node) (p : Ptr) : Option (Ino × Name) := do
  let n ← heap p
  let name ← n.name
  let q ← n.parent
  let parent ← heap q
  some (parent.nodeid,name)

def Fuse.entry (s : Fuse) : Ptr → Option (Ino × Name) := entryOf s.heap

def Fuse.nameHash (s : Fuse) (p : Ptr) : Nat :=
  match s.entry p with
  | some e => nameKey e.1 e.2
  | none => 0

def Fuse.getNodeNocheck (s : Fuse) (nodeid : Ino) : Option Ptr :=
  find s.idTable (idKey nodeid) (fun p => ((s.heap p).map Node.nodeid) = some nodeid)

def Fuse.getNode (s : Fuse) (nodeid : Ino) : Except Fault Ptr :=
  match s.getNodeNocheck nodeid with
  | some p => .ok p
  | none => .error .getNode

def Fuse.lookupNode (s : Fuse) (parent : Ino) (name : Name) : Option Ptr :=
  find s.nameTable (nameKey parent name) (fun p => s.entry p = some (parent,name))

def Fuse.removeNodeLru (s : Fuse) (p : Ptr) : Fuse := {s with lruTable := s.lruTable.erase p}

def Fuse.setForgetTime (s : Fuse) (p : Ptr) : Fuse := {s with lruTable := s.lruTable.erase p ++ [p]}

def Fuse.freeNode (s : Fuse) (p : Ptr) : Fuse := {s with heap := Function.update s.heap p none}

def Fuse.unhashId (s : Fuse) (p : Ptr) : Fuse :=
  match unchain s.idHash s.idTable p with
  | none => s
  | some table =>
    let (realloc,s) := s.takeMem
    {s with idTable := release minTable realloc table}

def Fuse.hashId (s : Fuse) (p : Ptr) : Fuse :=
  let (realloc,s) := s.takeMem
  {s with idTable := insert s.idHash realloc s.idTable p}

/- unhash_name, delete_node and unref_node call each other up the chain of parents. The
table is shrunk only after the whole cascade has come back. -/
def unhashNameWith (unref : Fuse → Ptr → Except Fault Fuse) (s : Fuse) (p : Ptr) : Except Fault Fuse := do
  let n ← s.deref p
  match n.name,n.parent with
  | none,_ => .ok s
  | some _,none => .error .nullPointer
  | some _,some parent =>
    match unchain s.nameHash s.nameTable p with
    | none => .error .unhashName
    | some table =>
      let s ← unref {s with nameTable := table} parent
      let n ← s.deref p
      let (realloc,s) := (s.put p {n with name := none, parent := none}).takeMem
      .ok {s with nameTable := release minTable realloc s.nameTable}

def deleteNodeWith (unref : Fuse → Ptr → Except Fault Fuse) (s : Fuse) (p : Ptr) : Except Fault Fuse := do
  let n ← s.deref p
  if n.treelock ≠ 0 then .error .deleteLocked
  else
    let s ← unhashNameWith unref s p
    let s := if s.lruEnabled then s.removeNodeLru p else s
    .ok ((s.unhashId p).freeNode p)

def unrefLoop : Nat → Fuse → Ptr → Except Fault Fuse
  | 0, _, _ => .error .diverges
  | fuel+1, s, p => do
    let n ← s.deref p
    if n.refctr = 0 then .error .unrefNode
    else
      let s := s.put p {n with refctr := n.refctr - 1}
      if n.refctr = 1 then deleteNodeWith (unrefLoop fuel) s p else .ok s

/- Each node of a cascade has its last reference dropped, so no more nodes than there are
pointers take part. -/
def Fuse.unrefNode (s : Fuse) (p : Ptr) : Except Fault Fuse := unrefLoop (s.brk+1) s p

def Fuse.unhashName (s : Fuse) (p : Ptr) : Except Fault Fuse := unhashNameWith Fuse.unrefNode s p

def Fuse.deleteNode (s : Fuse) (p : Ptr) : Except Fault Fuse := deleteNodeWith Fuse.unrefNode s p

/- The flag tells whether the name could be copied. -/
def Fuse.hashName (s : Fuse) (p : Ptr) (parentid : Ino) (name : Name) : Except Fault (Fuse × Bool) := do
  let parent ← s.getNode parentid
  let (copied,s) := if name.length < inlineName then (true,s) else s.takeMem
  if copied then
    let n ← s.deref parent
    let s := s.put parent {n with refctr := n.refctr + 1}
    let n ← s.deref p
    let (realloc,s) := (s.put p {n with name := some name, parent := some parent}).takeMem
    .ok ({s with nameTable := insert s.nameHash realloc s.nameTable p},true)
  else
    let n ← s.deref p
    .ok (s.put p {n with name := none},false)

def nextIdLoop : Nat → Fuse → Except Fault Fuse
  | 0, _ => .error .idsExhausted
  | fuel+1, s =>
    let ctr := (s.ctr + 1) % 2 ^ 32
    let s := {s with
      ctr := ctr
      generation := if ctr = 0 then (s.generation + 1) % 2 ^ 32 else s.generation}
    if ctr = 0 ∨ ctr = unknownIno ∨ (s.getNodeNocheck ctr).isSome then nextIdLoop fuel s else .ok s

/- After a full turn of the counter every id is known to be taken and the source loops
for ever. -/
def Fuse.nextId (s : Fuse) : Except Fault Fuse := nextIdLoop (2 ^ 32) s

def Node.incNlookup (n : Node) : Node :=
  {n with
    refctr := if n.nlookup = 0 then n.refctr + 1 else n.refctr
    nlookup := n.nlookup + 1}

def Node.zero : Node := ⟨0,0,0,none,none,0,0,false,0⟩

def Fuse.findNode (s : Fuse) (parent : Ino) (name : Option Name) : Except Fault (Fuse × Option Ptr) := do
  let found ← match name with
    | none => (s.getNode parent).map some
    | some name => .ok (s.lookupNode parent name)
  match found,name with
  | some p,_ =>
    let n ← s.deref p
    let s := if s.lruEnabled ∧ n.nlookup = 1 then s.removeNodeLru p else s
    .ok (s.put p n.incNlookup,some p)
  | none,none => .error .nullPointer
  | none,some name =>
    let (allocated,s) := s.takeMem
    if allocated then
      let p := s.brk
      let s ← ({s with brk := p + 1}.put p Node.zero).nextId
      let n := {Node.zero with nodeid := s.ctr, generation := s.generation}
      let s := s.put p (if s.conf.remember ≠ 0 then n.incNlookup else n)
      let (s,hashed) ← s.hashName p parent name
      if hashed then
        let s := s.hashId p
        let n ← s.deref p
        .ok (s.put p n.incNlookup,some p)
      else .ok (s.freeNode p,none)
    else .ok (s,none)

/- The loop of forget_node waits as long as this holds. -/
def Fuse.forgetWaits (s : Fuse) (nodeid : Ino) (nlookup : Nat) : Except Fault Bool :=
  if nodeid = rootId then .ok false
  else do
    let p ← s.getNode nodeid
    let n ← s.deref p
    .ok (decide (n.nlookup = nlookup ∧ n.treelock ≠ 0))

/- forget_node once it need not wait. -/
def Fuse.forgetNode (s : Fuse) (nodeid : Ino) (nlookup : Nat) : Except Fault Fuse :=
  if nodeid = rootId then .ok s
  else do
    let p ← s.getNode nodeid
    let n ← s.deref p
    if n.nlookup < nlookup then .error .forgetCount
    else
      let left := n.nlookup - nlookup
      let s := s.put p {n with nlookup := left}
      if left = 0 then s.unrefNode p
      else if s.lruEnabled ∧ left = 1 then .ok (s.setForgetTime p)
      else .ok s

def Fuse.unlinkNode (s : Fuse) (p : Ptr) : Except Fault Fuse :=
  if s.conf.remember ≠ 0 then do
    let n ← s.deref p
    if n.nlookup ≤ 1 then .error .unlinkCount
    else (s.put p {n with nlookup := n.nlookup - 1}).unhashName p
  else s.unhashName p

def Fuse.removeNode (s : Fuse) (dir : Ino) (name : Name) : Except Fault Fuse :=
  match s.lookupNode dir name with
  | some p => s.unlinkNode p
  | none => .ok s

def eio : Int := 5

def ebusy : Int := 16

def enomem : Int := 12

def Fuse.renameNode (s : Fuse) (olddir : Ino) (oldname : Name) (newdir : Ino) (newname : Name)
    (hide : Bool) : Except Fault (Fuse × Int) :=
  match s.lookupNode olddir oldname,s.lookupNode newdir newname with
  | none,_ => .ok (s,0)
  | some p,newnode => do
    if newnode.isSome ∧ hide then .ok (s,-ebusy)
    else
      let s ← match newnode with
        | some q => s.unlinkNode q
        | none => .ok s
      let s ← s.unhashName p
      let (s,hashed) ← s.hashName p newdir newname
      if hashed then
        if hide then
          let n ← s.deref p
          .ok (s.put p {n with isHidden := true},0)
        else .ok (s,0)
      else .ok (s,-enomem)

/- One side of exchange_node: nothing to do for a name without a node. -/
def Fuse.unhashNode (s : Fuse) : Option Ptr → Except Fault Fuse
  | some p => s.unhashName p
  | none => .ok s

def Fuse.hashNode (s : Fuse) (node : Option Ptr) (dir : Ino) (name : Name) : Except Fault (Fuse × Bool) :=
  match node with
  | some p => s.hashName p dir name
  | none => .ok (s,true)

def Fuse.exchangeNode (s : Fuse) (olddir : Ino) (oldname : Name) (newdir : Ino) (newname : Name) :
    Except Fault (Fuse × Int) := do
  let oldnode := s.lookupNode olddir oldname
  let newnode := s.lookupNode newdir newname
  let s ← s.unhashNode oldnode
  let s ← s.unhashNode newnode
  let (s,hashed) ← s.hashNode oldnode newdir newname
  if hashed then
    let (s,hashed) ← s.hashNode newnode olddir oldname
    if hashed then .ok (s,0) else .ok (s,-enomem)
  else .ok (s,-enomem)

def nextLru (lru : List Ptr) (p : Ptr) : Option Ptr := (lru.dropWhile (· ≠ p)).tail.head?

/- aged tells of which nodes more than conf.remember seconds have passed since they were
put on the list. The next element is read before the current one is dropped. -/
def cleanLoop (aged : Ptr → Bool) : Nat → Fuse → Option Ptr → Except Fault Fuse
  | _, s, none => .ok s
  | 0, _, some _ => .error .diverges
  | fuel+1, s, some p => do
    let next := nextLru s.lruTable p
    let n ← s.deref p
    if aged p then
      if n.nlookup ≠ 1 then .error .cleanCount
      else if 1 < n.refctr then cleanLoop aged fuel s next
      else
        let s ← (s.put p {n with nlookup := 0}).unhashName p
        let s ← s.unrefNode p
        cleanLoop aged fuel s next
    else .ok s

def Fuse.cleanCache (s : Fuse) (aged : Ptr → Bool) : Except Fault Fuse :=
  cleanLoop aged s.lruTable.length s s.lruTable.head?

def rootNode : Node := ⟨rootId,0,1,none,some (ascii "/"),1,0,false,0⟩

def emptyTree (conf : Conf) (memory : Nat → Bool) : Fuse where
  heap := Function.update (fun _ => none) 0 (some rootNode)
  brk := 1
  nameTable := init minTable
  idTable := init minTable
  lruTable := []
  ctr := 0
  generation := 0
  hidectr := 0
  conf := conf
  memory := memory

def fuseNew (conf : Conf) (memory : Nat → Bool) : Fuse := (emptyTree conf memory).hashId 0

end FuseStudy.NodeStore
