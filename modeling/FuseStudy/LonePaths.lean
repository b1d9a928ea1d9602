import FuseStudy.Deadlocks
import FuseStudy.PinnedNodes

/-! Which requests wait for a path with another one in hand: only the copy of a file range does,
and not even that one when nodes without a path are fine with the file system. -/
namespace FuseStudy.NodeStore
open CString LinearHash Script

variable {α β : Type} {conf : Conf} {hs : List Held} {i : Instr}

def Instr.aside (i : Instr) : Bool := !i.isPath && !i.frees

theorem asideHolds (aside : i.aside = true) (r : i.Result) (hs : List Held) : i.holds r hs = hs := by
  cases i <;> first | rfl | cases aside

/- Neither touches a path nor a count of a node, and answers nobody. -/
def Instr.minor : Instr → Bool
  | .getPath _ | .getPath2 .. | .freePath _ | .freePath2 .. | .findNode .. | .forgetNode .. | .openNode
      _ | .releaseNode _ |
    .reply _ => false
  | _ => true

def Only (ok : Instr → Bool) : Prog α → Prop
  | .done _ => True
  | .act i next => ok i = true ∧ ∀ r, Only ok (next r)

variable {ok ok' : Instr → Bool}

theorem onlyAsk (is : ok i = true) : Only ok (ask i) := ⟨is,fun _ => trivial⟩

theorem Only.bind {prog : Prog α} {f : α → Prog β} (only : Only ok prog) (rest : ∀ a, Only ok (f a)) :
    Only ok (prog >>= f) := by
  induction prog with
  | done a => exact rest a
  | act i next ih => exact ⟨only.1,fun r => ih r (only.2 r)⟩

theorem Only.imp {prog : Prog α} (only : Only ok prog) (also : ∀ i, ok i = true → ok' i = true) : Only ok' prog := by
  induction prog with
  | done a => trivial
  | act i next ih => exact ⟨also i only.1,fun r => ih r (only.2 r)⟩

theorem stillAsk (aside : i.aside = true) : Only Instr.aside (ask i) := onlyAsk aside

theorem minorAside (i : Instr) (minor : i.minor = true) : i.aside = true := by
  cases i <;> first | rfl | cases minor

theorem Only.still {prog : Prog α} (only : Only Instr.minor prog) : Only Instr.aside prog := only.imp minorAside

/-! Parts of requests that only call the file system and move names. -/

theorem minorFs (op : FsOp) (path : Option Bytes) : Only Instr.minor (fs op path) := onlyAsk rfl

theorem minorUnpin (dot : Option Ptr) : Only Instr.minor (unpin dot) := by
  cases dot with
  | none => trivial
  | some dot => exact onlyAsk rfl

theorem minorCalls (path : Option Bytes) (calls : List FsOp) : Only Instr.minor (fsCalls path calls) := by
  induction calls with
  | nil => trivial
  | cons op rest ih =>
    refine (minorFs op path).bind fun err => ?_
    split
    · exact ih
    · trivial

theorem minorFlush (ino : Ino) (path : Option Bytes) : Only Instr.minor (fuseFlushCommon ino path) := by
  refine (minorFs _ _).bind fun err => (minorFs _ _).bind fun errlock => ?_
  split
  · trivial
  · exact Only.bind (onlyAsk rfl) fun _ => trivial

theorem minorHiddenName (failctr : Nat) (dir : Ino) (name : Name) : Only Instr.minor (hiddenName failctr dir name) := by
  induction failctr with
  | zero => trivial
  | succ failctr ih =>
    refine Only.bind (onlyAsk rfl) fun r => ?_
    match r with
    | .none => trivial
    | some (_,.error _) => trivial
    | some (newname,.ok newpath) =>
      refine (minorFs _ _).bind fun res => ?_
      split
      · trivial
      · split
        · exact ih
        · trivial

theorem minorHide (path : Bytes) (dir : Ino) (name : Name) : Only Instr.minor (hideNode path dir name) := by
  refine (minorHiddenName 10 dir name).bind fun r => ?_
  match r with
  | .none => trivial
  | some (newname,newpath) =>
    refine Only.bind (onlyAsk rfl) fun err => ?_
    split
    · exact onlyAsk rfl
    · trivial

theorem minorIsOpen (dir : Ino) (name : Name) : Only Instr.minor (isOpenSoft conf dir name) := by
  unfold isOpenSoft
  split
  · trivial
  · exact onlyAsk rfl

theorem minorUnlinkHidden (parent : Ino) (wnode : Option Ptr) : Only Instr.minor (unlinkHidden parent wnode) := by
  refine Only.bind (onlyAsk rfl) fun hidden => Only.bind (onlyAsk rfl) fun isopen => ?_
  split
  · trivial
  · refine Only.bind (onlyAsk rfl) fun nodeid => Only.bind (onlyAsk rfl) fun peeked => ?_
    cases peeked with
    | error err => trivial
    | ok path =>
      refine (minorFs _ _).bind fun err => ?_
      split
      · exact Only.bind (onlyAsk rfl) fun _ => Only.bind (onlyAsk rfl) fun _ => trivial
      · trivial

theorem minorUnlink (parent : Ino) (name : Name) (held : Held) :
    Only Instr.minor (unlinkLocked conf parent name held) := by
  refine (minorIsOpen parent name).bind fun isopen => ?_
  split
  · refine (minorHide _ _ _).bind fun err => ?_
    split
    · exact minorUnlinkHidden _ _
    · trivial
  · refine (minorFs _ _).bind fun err => ?_
    split
    · exact Only.bind (onlyAsk rfl) fun _ => trivial
    · trivial

theorem minorRename (olddir : Ino) (oldname : Name) (newdir : Ino) (newname : Name) (exchange : Bool)
    (oldpath newpath : Bytes) :
    Only Instr.minor (renameLocked conf olddir oldname newdir newname exchange oldpath newpath) := by
  refine Only.bind ?_ fun isopen => Only.bind ?_ fun err => ?_
  · split
    · trivial
    · exact minorIsOpen _ _
  · split
    · exact minorHide _ _ _
    · trivial
  · split
    · refine Only.bind (onlyAsk rfl) fun err => ?_
      split
      · split
        · exact onlyAsk rfl
        · exact onlyAsk rfl
      · trivial
    · trivial

/-! Parts that leave the paths alone. -/

theorem stillFs (op : FsOp) (path : Option Bytes) : Only Instr.aside (fs op path) := (minorFs op path).still

theorem stillUnpin (dot : Option Ptr) : Only Instr.aside (unpin dot) := (minorUnpin dot).still

theorem stillFlush (ino : Ino) (path : Option Bytes) : Only Instr.aside (fuseFlushCommon ino path) :=
  (minorFlush ino path).still

theorem stillReply (err : Int) : Only Instr.aside (replyErr err) := (stillAsk rfl).bind fun _ => trivial

theorem stillLookup (nodeid : Ino) (name : Option Name) : Only Instr.aside (doLookup nodeid name) := by
  refine (stillAsk rfl).bind fun r => ?_
  cases r <;> trivial

theorem stillLookupPath (nodeid : Ino) (name : Option Name) (path : Bytes) :
    Only Instr.aside (lookupPath nodeid name path) := by
  refine (stillFs _ _).bind fun res => ?_
  split
  · exact stillLookup nodeid name
  · trivial

theorem stillEntry (entry : Except Int Ino) : Only Instr.aside (replyEntry entry) := by
  cases entry with
  | error err => exact stillReply err
  | ok ino =>
    refine (stillAsk rfl).bind fun res => ?_
    split
    · exact stillAsk rfl
    · trivial

theorem stillForgets (forgets : List (Ino × Nat)) : Only Instr.aside (doForgets forgets) := by
  induction forgets with
  | nil => trivial
  | cons forget rest ih => exact (stillAsk rfl).bind fun _ => ih

theorem stillLookups (nodeid : Ino) (names : List Name) : Only Instr.aside (doLookups nodeid names) := by
  induction names with
  | nil => trivial
  | cons name rest ih =>
    refine (stillLookup nodeid (some name)).bind fun r => ?_
    cases r with
    | error err => trivial
    | ok ino => exact ih

theorem stillMknod (parent : Ino) (name : Name) (path : Bytes) (regular : Bool) :
    Only Instr.aside (mknodLocked parent name path regular) := by
  refine Only.bind ?_ fun first => ?_
  · split
    · refine (stillFs _ _).bind fun err => ?_
      split
      · exact (stillLookupPath _ _ _).bind fun entry => (stillFs _ _).bind fun _ => trivial
      · trivial
    · trivial
  · cases first with
    | ok ino => trivial
    | error err =>
      dsimp only
      split
      · refine (stillFs _ _).bind fun err => ?_
        split
        · exact stillLookupPath _ _ _
        · trivial
      · trivial

theorem stillCreate (parent : Ino) (name : Name) (path : Bytes) (regular : Bool) :
    Only Instr.aside (createLocked parent name path regular) := by
  refine (stillFs _ _).bind fun err => ?_
  split
  · refine (stillLookupPath _ _ _).bind fun entry => ?_
    cases entry with
    | error err => exact (stillFs _ _).bind fun _ => trivial
    | ok ino =>
      dsimp only
      split
      · trivial
      · exact (stillFs _ _).bind fun _ => (stillAsk rfl).bind fun _ => trivial
  · trivial

/- A path is asked for again only if none was there when nodes without one are fine. -/
theorem stillRelease (ino : Ino) {path : Option Bytes} (has : path ≠ none ∨ conf.nullpathOk = false) :
    Only Instr.aside (fuseDoRelease conf ino path) := by
  refine (stillFs _ _).bind fun _ => (stillAsk rfl).bind fun last => ?_
  split
  · cases path with
    | some path => exact (stillFs _ _).bind fun _ => trivial
    | none =>
      have never : conf.nullpathOk = false := has.resolve_left fun no => no rfl
      simp only [never,Bool.false_eq_true,if_false]
      trivial
  · trivial

/-! The requests. -/

def loneRule : Discipline Instr Instr.Result (List Held) where
  may hs i := i.isPath = true → hs = []
  after hs i r hs' := hs' = i.holds r hs

variable {post : α → List Held → Prop}

theorem Only.keepsLone {prog : Prog α} (still : Only Instr.aside prog) (done : ∀ a, post a hs) :
    Keeps loneRule post prog hs := by
  induction prog with
  | done a => exact done a
  | act i next ih =>
    obtain ⟨aside,rest⟩ := still
    refine ⟨fun path => ?_,?_⟩
    · rw [Instr.aside,path] at aside
      cases aside
    · rintro r _ rfl
      rw [asideHolds aside]
      exact ih r (rest r)

theorem Only.first {prog : Prog β} {f : β → Prog α} (still : Only Instr.aside prog)
    (rest : ∀ b, Keeps loneRule post (f b) hs) :
    Keeps loneRule post (prog >>= f) hs := Keeps.bind (still.keepsLone rest)

def Lone (prog : Prog α) (hs : List Held) : Prop := Keeps loneRule (fun _ _ => True) prog hs

theorem Lone.bind {prog : Prog β} {f : β → Prog α} (first : Lone prog hs) (rest : ∀ b hs, Lone (f b) hs) :
    Lone (prog >>= f) hs :=
  Keeps.bind (first.imp fun b hs _ => rest b hs)

theorem Only.lone {prog : Prog α} (still : Only Instr.aside prog) : Lone prog hs := still.keepsLone fun _ => trivial

theorem Only.then {prog : Prog β} {f : β → Prog α} (still : Only Instr.aside prog) (rest : ∀ b, Lone (f b) hs) :
    Lone (prog >>= f) hs :=
  still.first rest

theorem loneTake (want : Want) : Lone (ask (.getPath want)) [] := ⟨fun _ => rfl,fun _ _ _ => trivial⟩

theorem loneTake2 (want1 want2 : Want) : Lone (ask (.getPath2 want1 want2)) [] := ⟨fun _ => rfl,fun _ _ _ => trivial⟩

theorem loneGive (held : Held) : Lone (ask (.freePath held)) hs := ⟨(fun no => by cases no),fun _ _ _ => trivial⟩

theorem loneGive2 (held1 held2 : Held) : Lone (ask (.freePath2 held1 held2)) hs :=
  ⟨(fun no => by cases no),fun _ _ _ => trivial⟩

theorem loneFree (held : Option Held) : Lone (freePath held) hs := by
  cases held with
  | none => trivial
  | some held => exact loneGive held

theorem loneNullok (ino : Ino) : Lone (getPathNullok conf ino) [] := by
  unfold getPathNullok
  split
  · trivial
  · refine (loneTake _).bind fun r hs => ?_
    cases r <;> trivial

theorem loneMaybe (nullok : Option Conf) (ino : Ino) : Lone (match nullok with
    | some conf => getPathNullok conf ino
    | none => do
      match ← getPath ino with
      | .ok held => pure (.ok (some held))
      | .error err => pure (.error err)) [] := by
  cases nullok with
  | some conf => exact loneNullok ino
  | none =>
    refine (loneTake _).bind fun r hs => ?_
    cases r <;> trivial

theorem loneWithPath (nullok : Option Conf) (ino : Ino) (calls : List FsOp) : Lone (withPath nullok ino calls) [] := by
  refine (loneMaybe nullok ino).bind fun r hs => ?_
  cases r with
  | error err => trivial
  | ok held => exact (minorCalls _ _).still.then fun err => (loneFree held).bind fun _ _ => trivial

theorem lonePathRequest (nullok : Option Conf) (ino : Ino) (calls : List FsOp) :
    Lone (pathRequest nullok ino calls) [] :=
  (loneWithPath nullok ino calls).bind fun err _ => (stillReply err).lone

theorem loneOrNull (ino : Ino) : Lone (pathOrNull conf ino) [] := by
  refine (loneNullok ino).bind fun r hs => ?_
  cases r <;> trivial

theorem loneLookupEntry (negative : Bool) (parent : Ino) (name : Option Name) (dot : Option Ptr) :
    Lone (lookupEntry negative parent name dot) [] := by
  refine (loneTake _).bind fun r hs => ?_
  cases r with
  | error err => exact ((stillUnpin dot).bind fun _ => stillReply err).lone
  | ok held =>
    refine (stillLookupPath _ _ _).then fun entry => (loneGive held).bind fun _ _ => (stillUnpin dot).then fun _ => ?_
    cases entry with
    | error err => exact (stillEntry _).lone
    | ok ino => exact (stillEntry _).lone

theorem loneLookup (negative : Bool) (parent : Ino) (name : Name) : Lone (fuseLibLookup negative parent name) [] := by
  unfold fuseLibLookup
  split
  · refine (stillAsk (i := .pinNode parent) rfl).then fun r => ?_
    cases r with
    | none => exact (stillEntry _).lone
    | some dot => exact loneLookupEntry _ _ _ _
  · split
    · exact (stillAsk (i := .parentId parent) rfl).then fun parent => loneLookupEntry _ _ _ _
    · exact loneLookupEntry _ _ _ _

theorem loneMakeEntry (parent : Ino) (name : Name) (op : FsOp) : Lone (makeEntry parent name op) [] := by
  refine (loneTake _).bind fun r hs => ?_
  cases r with
  | error err => exact (stillReply err).lone
  | ok held =>
    refine (stillFs _ _).then fun err => ?_
    split
    · exact (stillLookupPath _ _ _).then fun entry => (loneGive held).bind fun _ _ => (stillEntry entry).lone
    · exact (loneGive held).bind fun _ _ => (stillReply _).lone

theorem loneMknod (parent : Ino) (name : Name) (regular : Bool) : Lone (fuseLibMknod parent name regular) [] := by
  refine (loneTake _).bind fun r hs => ?_
  cases r with
  | error err => exact (stillReply err).lone
  | ok held => exact (stillMknod _ _ _ _).then fun entry => (loneGive held).bind fun _ _ => (stillEntry entry).lone

theorem loneUnlink (parent : Ino) (name : Name) : Lone (fuseLibUnlink conf parent name) [] := by
  refine (loneTake _).bind fun r hs => ?_
  cases r with
  | error err => exact (stillReply err).lone
  | ok held => exact (minorUnlink _ _ _).still.then fun err => (loneGive held).bind fun _ _ => (stillReply err).lone

theorem loneRmdir (parent : Ino) (name : Name) : Lone (fuseLibRmdir parent name) [] := by
  refine (loneTake _).bind fun r hs => ?_
  cases r with
  | error err => exact (stillReply err).lone
  | ok held =>
    refine (stillFs _ _).then fun err => ?_
    split
    · exact (stillAsk (i := .removeNode parent name) rfl).then fun _ => (loneGive held).bind fun _ _ =>
        (stillReply 0).lone
    · exact (loneGive held).bind fun _ _ => (stillReply _).lone

theorem loneRename (olddir : Ino) (oldname : Name) (newdir : Ino) (newname : Name) (exchange : Bool) :
    Lone (fuseLibRename conf olddir oldname newdir newname exchange) [] := by
  refine (loneTake2 _ _).bind fun r hs => ?_
  cases r with
  | error err => exact (stillReply err).lone
  | ok held => exact (minorRename _ _ _ _ _ _ _).still.then fun err => (loneGive2 _ _).bind fun _ _ =>
      (stillReply err).lone

theorem loneLink (ino newparent : Ino) (newname : Name) : Lone (fuseLibLink ino newparent newname) [] := by
  refine (loneTake2 _ _).bind fun r hs => ?_
  cases r with
  | error err => exact (stillReply err).lone
  | ok held =>
    refine (stillAsk (i := .callback .link (some held.1.path) (some held.2.path)) rfl).then fun err => ?_
    split
    · exact (stillLookupPath _ _ _).then fun entry => (loneGive2 _ _).bind fun _ _ => (stillEntry entry).lone
    · exact (loneGive2 _ _).bind fun _ _ => (stillReply _).lone

theorem loneDoRelease (ino : Ino) (path : Option Bytes) : Lone (fuseDoRelease conf ino path) [] := by
  refine (stillFs _ _).then fun _ => (stillAsk (i := .releaseNode ino) rfl).then fun last => ?_
  split
  · cases path with
    | some path => exact (stillFs _ _).then fun _ => trivial
    | none =>
      dsimp only
      split
      · refine (loneTake _).bind fun r hs => ?_
        cases r with
        | error err => trivial
        | ok held => exact (stillFs _ _).then fun _ => loneGive held
      · trivial
  · trivial

theorem loneReleaseRequest (ino : Ino) (flush : Bool) : Lone (fuseLibRelease conf ino flush) [] := by
  have flushed : ∀ path, Only Instr.aside (if flush then fuseFlushCommon ino path else pure 0) := by
    intro path
    split
    · exact stillFlush ino path
    · trivial
  cases nullok : conf.nullpathOk with
  | true =>
    have none : pathOrNull conf ino = pure none := by
      unfold pathOrNull getPathNullok
      rw [nullok]
      rfl
    unfold fuseLibRelease
    rw [none]
    refine (flushed _).then fun err => (loneDoRelease ino _).bind fun _ _ => (loneFree _).bind fun _ _ =>
      (stillReply _).lone
  | false =>
    refine (loneOrNull ino).bind fun held hs => (flushed _).then fun err => ?_
    exact (stillRelease ino (.inr nullok)).then fun _ => (loneFree held).bind fun _ _ => (stillReply _).lone

theorem loneCreate (parent : Ino) (name : Name) (regular : Bool) :
    Lone (fuseLibCreate conf parent name regular) [] := by
  refine (loneTake _).bind fun r hs => ?_
  cases r with
  | error err => exact (stillReply err).lone
  | ok held =>
    refine (stillCreate _ _ _ _).then fun entry => ?_
    cases entry with
    | error err => exact (stillReply err).then fun _ => loneGive held
    | ok ino =>
      refine (stillAsk (i := .openNode ino) rfl).then fun _ => (stillAsk (i := .reply 0) rfl).then fun res => ?_
      split
      · refine (stillRelease ino (.inl (Option.some_ne_none _))).then fun _ => ?_
        exact (stillAsk (i := .forgetNode ino 1) rfl).then fun _ => loneGive held
      · exact loneGive held

theorem loneOpen (ino : Ino) : Lone (fuseLibOpen conf ino) [] := by
  refine (loneTake _).bind fun r hs => ?_
  cases r with
  | error err => exact (stillReply err).lone
  | ok held =>
    refine (stillFs _ _).then fun err => ?_
    split
    · refine (stillAsk (i := .openNode ino) rfl).then fun _ => (stillAsk (i := .reply 0) rfl).then fun res => ?_
      split
      · exact (stillRelease ino (.inl (Option.some_ne_none _))).then fun _ => loneGive held
      · exact loneGive held
    · exact (stillReply _).then fun _ => loneGive held

theorem loneOpendir (ino : Ino) (allocated : Bool) : Lone (fuseLibOpendir ino allocated) [] := by
  unfold fuseLibOpendir
  split
  · refine (loneTake _).bind fun r hs => ?_
    cases r with
    | error err => exact (stillReply err).lone
    | ok held =>
      refine (stillFs _ _).then fun err => (stillAsk (i := .reply err) rfl).then fun res => ?_
      split
      · exact (stillFs _ _).then fun _ => loneGive held
      · exact loneGive held
  · exact (stillReply _).lone

theorem loneReaddir (nullok : Option Conf) (ino nodeid : Ino) (filled : Bool) (during late : List Name) :
    Lone (fuseReaddirCommon nullok ino nodeid filled during late) [] := by
  unfold fuseReaddirCommon
  split
  · exact ((stillLookups nodeid late).bind fun _ => stillReply 0).lone
  · refine (loneMaybe nullok ino).bind fun r hs => ?_
    cases r with
    | error err => exact (stillReply err).lone
    | ok held =>
      refine (stillLookups nodeid during).then fun _ => (stillFs _ _).then fun err => (loneFree held).bind fun _ _ => ?_
      split
      · exact ((stillLookups nodeid late).bind fun _ => stillReply 0).lone
      · exact (stillReply _).lone

theorem loneCopy (nodeidIn nodeidOut : Ino) (nullok : conf.nullpathOk = true) :
    Lone (fuseLibCopyFileRange conf nodeidIn nodeidOut) [] := by
  have none : ∀ ino, getPathNullok conf ino = pure (.ok none) := by
    intro ino
    unfold getPathNullok
    rw [nullok]
    rfl
  unfold fuseLibCopyFileRange
  rw [none,none]
  refine (stillAsk (i := .callback .copyFileRange (pathString .none) (pathString .none)) rfl).then fun res => ?_
  exact (stillReply _).then fun _ => trivial

def Request.copies : Request → Bool
  | .copyFileRange .. => true
  | _ => false

theorem requestLone (request : Request) (plain : request.copies = true → conf.nullpathOk = true) :
    Lone (request.script conf) [] := by
  cases request with
  | lookup negative parent name => exact loneLookup _ _ _
  | forget ino nlookup => exact ((stillAsk rfl).bind fun _ => stillReply 0).lone
  | forgetMulti forgets => exact ((stillForgets forgets).bind fun _ => stillReply 0).lone
  | getattr fi ino =>
    refine (loneWithPath _ _ _).bind fun err _ => ?_
    split
    · exact ((stillAsk rfl).bind fun _ => stillReply 0).lone
    · exact (stillReply _).lone
  | setlk ino =>
    refine (loneWithPath _ _ _).bind fun err _ => ?_
    split
    · exact ((stillAsk rfl).bind fun _ => stillReply 0).lone
    · exact (stillReply _).lone
  | getlk ino conflict =>
    refine (stillAsk (i := .getNode ino) rfl).then fun _ => ?_
    split
    · exact (stillReply 0).lone
    · exact lonePathRequest _ _ _
  | mknod parent name regular => exact loneMknod _ _ _
  | mkdir parent name => exact loneMakeEntry _ _ _
  | symlink parent name => exact loneMakeEntry _ _ _
  | unlink parent name => exact loneUnlink _ _
  | rmdir parent name => exact loneRmdir _ _
  | rename olddir oldname newdir newname exchange => exact loneRename _ _ _ _ _
  | link ino newparent newname => exact loneLink _ _ _
  | create parent name regular => exact loneCreate _ _ _
  | openFile ino => exact loneOpen _
  | opendir ino allocated => exact loneOpendir _ _
  | readdir nullok ino nodeid filled during late => exact loneReaddir _ _ _ _ _ _
  | flush ino =>
    exact (loneOrNull ino).bind fun held hs => (stillFlush ino _).then fun err =>
      (loneFree held).bind fun _ _ => (stillReply err).lone
  | release ino flushes => exact loneReleaseRequest _ _
  | releasedir ino =>
    exact (loneOrNull ino).bind fun held hs => (stillFs _ _).then fun _ => (loneFree held).bind fun _ _ =>
      (stillReply 0).lone
  | statfs ino =>
    change Lone (fuseLibStatfs ino) []
    unfold fuseLibStatfs
    split
    · exact ((stillFs _ _).bind fun err => stillReply err).lone
    · exact lonePathRequest _ _ _
  | getxattr ino allocated =>
    change Lone (fuseLibGetxattr ino allocated) []
    unfold fuseLibGetxattr
    split
    · exact lonePathRequest _ _ _
    · exact (stillReply _).lone
  | listxattr ino allocated =>
    change Lone (fuseLibListxattr ino allocated) []
    unfold fuseLibListxattr
    split
    · exact lonePathRequest _ _ _
    · exact (stillReply _).lone
  | ioctl ino unrestricted allocated =>
    change Lone (fuseLibIoctl conf ino unrestricted allocated) []
    unfold fuseLibIoctl
    split
    · exact (stillReply _).lone
    · split
      · exact lonePathRequest _ _ _
      · exact (stillReply _).lone
  | copyFileRange nodeidIn nodeidOut => exact loneCopy _ _ (plain rfl)
  | _ => exact lonePathRequest _ _ _

/-! Runs without such copies. -/

variable {y y' : Sys} {t : Thread} {memory : Nat → Bool}

/- File ranges are copied only where nodes without a path are fine, and no name is renamed onto
itself, into its own subtree or over its own ancestor. -/
inductive Uncopied (conf : Conf) (memory : Nat → Bool) : Sys → Prop
  | start : Uncopied conf memory (Sys.start conf memory)
  | step {y y' : Sys} {action : Action} (before : Uncopied conf memory y) (allowed : y.allowed action)
      (plain : ∀ request, action = .arrive request → request.copies = true → y.fuse.conf.nullpathOk = true)
      (ran : y.step action = .ok y') (apart : y'.apart) : Uncopied conf memory y'

theorem Uncopied.runOf (run : Uncopied conf memory y) : RunOf conf memory Sys.apart y := by
  induction run with
  | start => exact .start
  | step _ allowed _ ran apart ih => exact .step ih allowed ran apart

def Sys.keepsLone (y : Sys) : Prop := ∀ t ∈ y.threads, Lone t.prog t.holds

theorem loneKept : KeptByMoves Sys.keepsLone := by
  intro y y' _ moves lone t mem
  cases moves with
  | served at_ is ran phase lockq =>
    rcases List.mem_or_eq_of_mem_set mem with old | rfl
    · exact lone t old
    · have asked := lone _ (List.mem_of_getElem? at_)
      rw [is] at asked
      exact asked.2 _ _ rfl
  | refused => exact lone t mem
  | @rephased k u at_ phase lockq =>
    rcases List.mem_or_eq_of_mem_set mem with old | rfl
    · exact lone t old
    · exact lone u (List.mem_of_getElem? at_)
  | cleaned => exact lone t mem

theorem Uncopied.keepsLone (run : Uncopied conf memory y) : y.keepsLone := by
  induction run with
  | start => exact fun t no => absurd no List.not_mem_nil
  | step before allowed plain ran _ ih =>
    refine before.runOf.reachable.coherent.stepKeeps loneKept (fun request arrives t mem => ?_) ran ih
    rcases List.mem_append.mp mem with old | new
    · exact ih t old
    · rw [List.mem_singleton.mp new]
      exact requestLone request (plain request arrives)

def Action.copies : Action → Bool
  | .arrive request => request.copies
  | _ => false

theorem stepsUncopied {actions : List Action} (run : Uncopied conf memory y)
    (plain : (actions.all fun action => !action.copies) = true)
    (keeps : y.keepsTo (fun y => y.threads.all fun t => !t.goesOn Instr.isPair) actions = true)
    (ran : y.steps actions = .ok y') :
    Uncopied conf memory y' := by
  induction actions generalizing y with
  | nil =>
    cases ran
    exact run
  | cons action actions ih =>
    simp only [Sys.keepsTo,Bool.and_eq_true] at keeps
    obtain ⟨allowed,rest⟩ := keeps
    rw [List.all_cons,Bool.and_eq_true] at plain
    cases first : y.step action with
    | error fault =>
      simp only [Sys.steps,first] at ran
      cases ran
    | ok y₁ =>
      simp only [Sys.steps,first] at ran
      rw [first] at rest
      simp only [Bool.and_eq_true] at rest
      refine ih (.step run allowed ?_ first (apartSo rest.1)) plain.2 rest.2 ran
      rintro request rfl copies
      have never : (!request.copies) = true := plain.1
      rw [copies] at never
      cases never

end FuseStudy.NodeStore
