import FuseStudy.PathDiscipline

/-! Every request keeps to the rules for paths and nodes, whatever it is answered. -/
namespace FuseStudy.NodeStore
open CString Script

variable {α : Type} {post : α → Ghost → Prop} {g : Ghost}

theorem keepsGetPath {want : Want} {f : Except Int Held → Prog α} (few : g.holds.length ≤ 1) (wants : g.wants want)
    (error : ∀ err, Keeps pathRule post (f (.error err)) g)
    (got : ∀ held, held.want = want →
      Keeps pathRule post (f (.ok held)) ⟨g.entries,held :: g.holds,g.pins,learn g.facts want held⟩) :
    Keeps pathRule post (ask (.getPath want) >>= f) g := by
  refine keepsAsk ⟨few,wants⟩ fun r tells => ?_
  cases r with
  | error err => exact error err
  | ok held => exact got held tells

theorem keepsReadPath {nodeid : Ino} {name : Option Name} {f : Except Int Held → Prog α} (few : g.holds.length ≤ 1)
    (error : ∀ err, Keeps pathRule post (f (.error err)) g)
    (got : ∀ held, held.want.nodeid = nodeid → Keeps pathRule post (f (.ok held)) {g with holds := held :: g.holds}) :
    Keeps pathRule post (ask (.getPath ⟨nodeid,name,false⟩) >>= f) g :=
  keepsGetPath few nofun error fun held want => got held (by rw [want])

theorem keepsFree {held : Held} {f : Unit → Prog α} (mem : held ∈ g.holds)
    (rest : Keeps pathRule post (f ()) ⟨g.entries,g.holds.erase held,g.pins,forgotten⟩) :
    Keeps pathRule post (ask (.freePath held) >>= f) g :=
  keepsAsk mem fun _ _ => rest

theorem keepsFreeLast {held : Held} {post : Unit → Ghost → Prop} (mem : held ∈ g.holds)
    (rest : post () ⟨g.entries,g.holds.erase held,g.pins,forgotten⟩) : Keeps pathRule post (ask (.freePath held)) g :=
  keepsLast mem fun _ _ => rest

def heldPaths (held : Option Held) (holds : List Held) : List Held := held.toList ++ holds

theorem freePathKeeps {held : Option Held} {post : Unit → Ghost → Prop} {holds : List Held}
    (is : g.holds = heldPaths held holds) (rest : ∀ facts, post () ⟨g.entries,holds,g.pins,facts⟩) :
    Keeps pathRule post (freePath held) g := by
  obtain ⟨entries,_,pins,facts⟩ := g
  cases is
  cases held with
  | none => exact rest facts
  | some held =>
    refine keepsFreeLast List.mem_cons_self ?_
    change post () ⟨entries,(held :: holds).erase held,pins,forgotten⟩
    rw [List.erase_cons_head]
    exact rest forgotten

theorem pathNullokKeeps {conf : Conf} {nodeid : Ino} {post : Except Int (Option Held) → Ghost → Prop}
    (few : g.holds.length ≤ 1) (error : ∀ err, post (.error err) g)
    (got : ∀ held, post (.ok held) {g with holds := heldPaths held g.holds}) :
    Keeps pathRule post (getPathNullok conf nodeid) g := by
  unfold getPathNullok
  split
  · exact got none
  · refine keepsReadPath few (fun err => ?_) (fun held _ => got (some held))
    simp only
    split
    · exact got none
    · exact error err

theorem pathForKeeps {nullok : Option Conf} {ino : Ino} {post : Except Int (Option Held) → Ghost → Prop}
    (few : g.holds.length ≤ 1) (error : ∀ err, post (.error err) g)
    (got : ∀ held, post (.ok held) {g with holds := heldPaths held g.holds}) :
    Keeps pathRule post (match nullok with
      | some conf => getPathNullok conf ino
      | none => do
        match ← getPath ino with
        | .ok held => pure (.ok (some held))
        | .error err => pure (.error err)) g := by
  cases nullok with
  | some conf => exact pathNullokKeeps few error got
  | none => exact keepsReadPath few error (fun held _ => got (some held))

theorem fsCallsKeeps {path : Option Bytes} {calls : List FsOp} {post : Int → Ghost → Prop} (rest : ∀ err, post err g) :
    Keeps pathRule post (fsCalls path calls) g := by
  induction calls with
  | nil => exact rest 0
  | cons op calls ih =>
    refine keepsFs fun err => ?_
    split
    · exact ih
    · exact rest err

theorem withPathKeeps {nullok : Option Conf} {ino : Ino} {calls : List FsOp} {post : Int → Ghost → Prop}
    (few : g.holds.length ≤ 1) (rest : ∀ err facts, post err {g with facts := facts}) :
    Keeps pathRule post (withPath nullok ino calls) g := by
  refine Keeps.bind (pathForKeeps few (fun err => rest err g.facts) fun held => ?_)
  refine Keeps.bind (fsCallsKeeps fun err => ?_)
  exact Keeps.bind (freePathKeeps rfl (rest err))

def Ghost.idle (g : Ghost) : Prop := g.holds = [] ∧ g.pins = []

theorem Ghost.idle.few (idle : g.idle) : g.holds.length ≤ 1 := by
  rw [idle.1]
  exact Nat.zero_le 1

theorem pathRequestKeeps (nullok : Option Conf) (ino : Ino) (calls : List FsOp) (idle : g.idle) :
    Keeps pathRule Empty (pathRequest nullok ino calls) g :=
  Keeps.bind (withPathKeeps idle.few fun _ _ => keepsReply idle)

theorem getNodeThenKeeps {ino : Ino} {f : Unit → Prog α} (rest : Keeps pathRule post (f ()) g) :
    Keeps pathRule post (ask (.getNode ino) >>= f) g :=
  keepsAsk trivial fun _ _ => rest

theorem fuseLibGetattrKeeps (conf : Conf) (fi : Bool) (ino : Ino) (idle : g.idle) :
    Keeps pathRule Empty (fuseLibGetattr conf fi ino) g := by
  refine Keeps.bind (withPathKeeps idle.few fun err facts => ?_)
  split
  · exact getNodeThenKeeps (keepsReply idle)
  · exact keepsReply idle

theorem fuseLibSetlkKeeps (conf : Conf) (ino : Ino) (idle : g.idle) :
    Keeps pathRule Empty (fuseLibSetlk conf ino) g := by
  refine Keeps.bind (withPathKeeps idle.few fun err facts => ?_)
  split
  · exact getNodeThenKeeps (keepsReply idle)
  · exact keepsReply idle

theorem fuseLibGetlkKeeps (conf : Conf) (ino : Ino) (conflict : Bool) (idle : g.idle) :
    Keeps pathRule Empty (fuseLibGetlk conf ino conflict) g := by
  refine getNodeThenKeeps ?_
  split
  · exact keepsReply idle
  · exact pathRequestKeeps _ _ _ idle

theorem pathOrNullKeeps {conf : Conf} {ino : Ino} {post : Option Held → Ghost → Prop} (few : g.holds.length ≤ 1)
    (got : ∀ held, post held {g with holds := heldPaths held g.holds}) : Keeps pathRule post (pathOrNull conf ino) g :=
  Keeps.bind (pathNullokKeeps few (fun _ => got none) got)

theorem flushCommonKeeps {ino : Ino} {path : Option Bytes} {post : Int → Ghost → Prop} (rest : ∀ err, post err g) :
    Keeps pathRule post (fuseFlushCommon ino path) g := by
  refine keepsFs fun err => keepsFs fun errlock => ?_
  split
  · exact rest err
  · exact getNodeThenKeeps (rest _)

theorem fuseLibFlushKeeps (conf : Conf) (ino : Ino) (idle : g.idle) :
    Keeps pathRule Empty (fuseLibFlush conf ino) g := by
  refine Keeps.bind (pathOrNullKeeps idle.few fun held => ?_)
  refine Keeps.bind (flushCommonKeeps fun err => ?_)
  exact Keeps.bind (freePathKeeps rfl fun facts => keepsReply idle)

theorem fuseLibReleasedirKeeps (conf : Conf) (ino : Ino) (idle : g.idle) :
    Keeps pathRule Empty (fuseLibReleasedir conf ino) g := by
  refine Keeps.bind (pathOrNullKeeps idle.few fun held => keepsFs fun _ => ?_)
  exact Keeps.bind (freePathKeeps rfl fun facts => keepsReply idle)

theorem fuseLibOpendirKeeps (ino : Ino) (allocated : Bool) (idle : g.idle) :
    Keeps pathRule Empty (fuseLibOpendir ino allocated) g := by
  unfold fuseLibOpendir
  split
  · refine keepsReadPath idle.few (fun _ => keepsReply idle) fun held _ => keepsFs fun err =>
      keepsAsk trivial fun res _ => ?_
    have last : ∀ facts, Empty () ⟨g.entries,(held :: g.holds).erase held,g.pins,facts⟩ :=
      fun _ => ⟨by rw [List.erase_cons_head]; exact idle.1,idle.2⟩
    split
    · exact keepsFs fun _ => keepsFreeLast List.mem_cons_self (last _)
    · exact keepsFreeLast List.mem_cons_self (last _)
  · exact keepsReply idle

/-! Lookups. A name that the request itself unlinks or renames is never looked up. -/

def Ghost.looks (g : Ghost) (parent : Ino) (name : Option Name) : Prop := ∀ nm, name = some nm → (parent,nm) ∉ g.entries

theorem doLookupKeeps {nodeid : Ino} {name : Option Name} {post : Except Int Ino → Ghost → Prop}
    (looks : g.looks nodeid name) (rest : ∀ r, post r g) : Keeps pathRule post (doLookup nodeid name) g := by
  refine keepsAsk looks fun r _ => ?_
  cases r with
  | none => exact rest _
  | some ino => exact rest _

theorem lookupPathKeeps {nodeid : Ino} {name : Option Name} {path : Bytes} {post : Except Int Ino → Ghost → Prop}
    (looks : g.looks nodeid name) (rest : ∀ r, post r g) : Keeps pathRule post (lookupPath nodeid name path) g := by
  refine keepsFs fun res => ?_
  split
  · exact doLookupKeeps looks rest
  · exact rest _

theorem replyEntryKeeps {entry : Except Int Ino} {post : Unit → Ghost → Prop} (done : post () g) :
    Keeps pathRule post (replyEntry entry) g := by
  cases entry with
  | error err => exact keepsReply done
  | ok ino =>
    refine keepsAsk trivial fun res _ => ?_
    split
    · exact keepsLast (i := .forgetNode ino 1) Nat.one_pos fun _ _ => done
    · exact done

theorem freeThenKeeps {held : Held} {f : Unit → Prog α} {holds : List Held} (is : g.holds = held :: holds)
    (rest : ∀ facts, Keeps pathRule post (f ()) ⟨g.entries,holds,g.pins,facts⟩) :
    Keeps pathRule post (ask (.freePath held) >>= f) g := by
  refine keepsFree (by rw [is]; exact List.mem_cons_self) ?_
  rw [is,List.erase_cons_head]
  exact rest forgotten

theorem freeLastKeeps {held : Held} {post : Unit → Ghost → Prop} {holds : List Held} (is : g.holds = held :: holds)
    (rest : ∀ facts, post () ⟨g.entries,holds,g.pins,facts⟩) : Keeps pathRule post (ask (.freePath held)) g := by
  refine keepsFreeLast (by rw [is]; exact List.mem_cons_self) ?_
  rw [is,List.erase_cons_head]
  exact rest forgotten

theorem unpinKeeps {dot : Option Ptr} {post : Unit → Ghost → Prop} (is : g.pins = dot.toList)
    (rest : ∀ facts, post () ⟨g.entries,g.holds,[],facts⟩) : Keeps pathRule post (unpin dot) g := by
  obtain ⟨entries,holds,_,facts⟩ := g
  cases is
  cases dot with
  | none => exact rest facts
  | some dot =>
    refine keepsLast (i := .unpinNode dot) List.mem_cons_self fun _ _ => ?_
    change post () ⟨entries,holds,([dot] : List Ptr).erase dot,facts⟩
    rw [List.erase_cons_head]
    exact rest facts

theorem lookupEntryKeeps {negative : Bool} {parent : Ino} {name : Option Name} {dot : Option Ptr}
    (holds : g.holds = []) (pins : g.pins = dot.toList) (entries : g.entries = []) :
    Keeps pathRule Empty (lookupEntry negative parent name dot) g := by
  refine keepsReadPath (by rw [holds]; exact Nat.zero_le 1) (fun err => ?_) fun held _ => ?_
  · exact Keeps.bind (unpinKeeps pins fun facts => keepsReply ⟨holds,rfl⟩)
  · have looks : ({g with holds := held :: g.holds} : Ghost).looks parent name := by
      intro nm _
      rw [entries]
      exact List.not_mem_nil
    refine Keeps.bind (lookupPathKeeps looks fun entry => freeThenKeeps rfl fun facts => ?_)
    refine Keeps.bind (unpinKeeps pins fun facts => ?_)
    cases entry with
    | error err => exact replyEntryKeeps ⟨holds,rfl⟩
    | ok ino => exact replyEntryKeeps ⟨holds,rfl⟩

theorem fuseLibLookupKeeps (negative : Bool) (parent : Ino) (name : Name) (idle : g.idle) (entries : g.entries = []) :
    Keeps pathRule Empty (fuseLibLookup negative parent name) g := by
  unfold fuseLibLookup
  split
  · refine keepsAsk trivial fun r _ => ?_
    cases r with
    | none => exact replyEntryKeeps idle
    | some dot =>
      refine lookupEntryKeeps idle.1 ?_ entries
      change dot :: g.pins = [dot]
      rw [idle.2]
  · split
    · exact keepsAsk trivial fun r _ => lookupEntryKeeps idle.1 idle.2 entries
    · exact lookupEntryKeeps idle.1 idle.2 entries

theorem doForgetsKeeps {forgets : List (Ino × Nat)} {post : Unit → Ghost → Prop}
    (some : forgets.all fun forget => decide (0 < forget.2)) (done : post () g) :
    Keeps pathRule post (doForgets forgets) g := by
  induction forgets with
  | nil => exact done
  | cons forget rest ih =>
    rw [List.all_cons,Bool.and_eq_true,decide_eq_true_eq] at some
    exact keepsAsk some.1 fun _ _ => ih some.2

theorem doLookupsKeeps {nodeid : Ino} {names : List Name} {post : Unit → Ghost → Prop} (entries : g.entries = [])
    (done : post () g) : Keeps pathRule post (doLookups nodeid names) g := by
  induction names with
  | nil => exact done
  | cons name rest ih =>
    have looks : g.looks nodeid (some name) := by
      intro nm _
      rw [entries]
      exact List.not_mem_nil
    refine Keeps.bind (doLookupKeeps looks fun r => ?_)
    cases r with
    | error err => exact done
    | ok ino => exact ih

theorem fuseReaddirCommonKeeps (nullok : Option Conf) (ino nodeid : Ino) (filled : Bool)
    (during late : List Name) (idle : g.idle) (entries : g.entries = []) :
    Keeps pathRule Empty (fuseReaddirCommon nullok ino nodeid filled during late) g := by
  unfold fuseReaddirCommon
  split
  · exact Keeps.bind (doLookupsKeeps entries (keepsReply idle))
  · refine Keeps.bind (pathForKeeps idle.few (fun err => keepsReply idle) fun held => ?_)
    refine Keeps.bind (doLookupsKeeps entries (keepsFs fun err => ?_))
    refine Keeps.bind (freePathKeeps rfl fun facts => ?_)
    split
    · exact Keeps.bind (doLookupsKeeps entries (keepsReply idle))
    · exact keepsReply idle

theorem makeEntryKeeps (parent : Ino) (name : Name) (op : FsOp) (idle : g.idle) (entries : g.entries = []) :
    Keeps pathRule Empty (makeEntry parent name op) g := by
  refine keepsReadPath idle.few (fun err => keepsReply idle) fun held _ => keepsFs fun err => ?_
  split
  · refine Keeps.bind (lookupPathKeeps (fun nm _ => by rw [entries]; exact List.not_mem_nil) fun entry => ?_)
    exact freeThenKeeps rfl fun facts => replyEntryKeeps idle
  · exact freeThenKeeps rfl fun facts => keepsReply idle

theorem mknodSecondKeeps {parent : Ino} {name : Name} (path : Bytes) {post : Except Int Ino → Ghost → Prop}
    (looks : g.looks parent (some name)) (rest : ∀ r, post r g) (r : Except Int Ino) : Keeps pathRule post (match r with
      | .ok ino => pure (.ok ino)
      | .error err => if err = -enosys then do
          let err ← fs .mknod (some path)
          if err = 0 then lookupPath parent (some name) path else pure (.error err)
        else pure (.error err)) g := by
  cases r with
  | ok ino => exact rest _
  | error err =>
    simp only
    split
    · refine keepsFs fun err => ?_
      split
      · exact lookupPathKeeps looks rest
      · exact rest _
    · exact rest _

theorem mknodLockedKeeps {parent : Ino} {name : Name} {path : Bytes} {regular : Bool}
    {post : Except Int Ino → Ghost → Prop} (entries : g.entries = []) (rest : ∀ r, post r g) :
    Keeps pathRule post (mknodLocked parent name path regular) g := by
  have looks : g.looks parent (some name) := fun nm _ => by rw [entries]; exact List.not_mem_nil
  have second := mknodSecondKeeps path looks rest
  refine Keeps.bind ?_
  cases regular with
  | false => exact keepsPure' (second (.error (-enosys)))
  | true =>
    refine keepsFs fun err => ?_
    split
    · exact Keeps.bind (lookupPathKeeps looks fun entry => keepsFs fun _ => keepsPure' (second entry))
    · exact keepsPure' (second (.error err))

theorem fuseLibMknodKeeps (parent : Ino) (name : Name) (regular : Bool) (idle : g.idle) (entries : g.entries = []) :
    Keeps pathRule Empty (fuseLibMknod parent name regular) g := by
  refine keepsReadPath idle.few (fun err => keepsReply idle) fun held _ => ?_
  refine Keeps.bind (mknodLockedKeeps entries fun entry => ?_)
  exact freeThenKeeps rfl fun facts => replyEntryKeeps idle

/-! Requests on two paths, and those that open and close files. -/

theorem keepsReadPaths {want1 want2 : Want} {f : Except Int (Held × Held) → Prog α} (none : g.holds = [])
    (reads1 : want1.write = false) (reads2 : want2.write = false)
    (error : ∀ err, Keeps pathRule post (f (.error err)) g)
    (got : ∀ held1 held2, Keeps pathRule post (f (.ok (held1,held2))) {g with holds := [held1,held2]}) :
    Keeps pathRule post (ask (.getPath2 want1 want2) >>= f) g := by
  obtain ⟨nodeid1,name1,_⟩ := want1
  obtain ⟨nodeid2,name2,_⟩ := want2
  cases reads1
  cases reads2
  refine keepsAsk ⟨none,nofun,nofun⟩ fun r _ => ?_
  cases r with
  | error err => exact error err
  | ok both =>
    have rest := got both.1 both.2
    obtain ⟨entries,_,pins,facts⟩ := g
    cases none
    exact rest

theorem freeBothKeeps {held1 held2 : Held} {f : Unit → Prog α} (is : g.holds = [held1,held2])
    (rest : ∀ facts, Keeps pathRule post (f ()) ⟨g.entries,[],g.pins,facts⟩) :
    Keeps pathRule post (ask (.freePath2 held1 held2) >>= f) g := by
  have left : g.holds.erase held1 = [held2] := by rw [is,List.erase_cons_head]
  refine keepsAsk ⟨by rw [is]; exact List.mem_cons_self,by rw [left]; exact List.mem_singleton_self _⟩ fun _ _ => ?_
  change Keeps pathRule post (f ()) ⟨g.entries,(g.holds.erase held1).erase held2,g.pins,forgotten⟩
  rw [left,List.erase_cons_head]
  exact rest forgotten

theorem fuseLibLinkKeeps (ino newparent : Ino) (newname : Name) (idle : g.idle) (entries : g.entries = []) :
    Keeps pathRule Empty (fuseLibLink ino newparent newname) g := by
  refine keepsReadPaths idle.1 rfl rfl (fun err => keepsReply idle) fun held1 held2 => keepsAsk trivial fun err _ => ?_
  split
  · refine Keeps.bind (lookupPathKeeps (fun nm _ => ?_) fun entry => ?_)
    · change (newparent,nm) ∉ g.entries
      rw [entries]
      exact List.not_mem_nil
    · exact freeBothKeeps rfl fun facts => replyEntryKeeps ⟨rfl,idle.2⟩
  · exact freeBothKeeps rfl fun facts => keepsReply ⟨rfl,idle.2⟩

theorem fuseDoReleaseKeeps {conf : Conf} {ino : Ino} {path : Option Bytes} {post : Unit → Ghost → Prop}
    (few : g.holds.length ≤ 1) (done : ∀ facts, post () {g with facts := facts}) :
    Keeps pathRule post (fuseDoRelease conf ino path) g := by
  refine keepsFs fun _ => keepsAsk trivial fun hidden _ => ?_
  cases hidden with
  | false => exact done g.facts
  | true =>
    cases path with
    | some path => exact keepsFs fun _ => done g.facts
    | none =>
      simp only [if_true]
      split
      · refine keepsReadPath few (fun err => done g.facts) fun held _ => keepsFs fun _ => ?_
        exact freeLastKeeps rfl done
      · exact done g.facts

theorem fuseLibReleaseKeeps (conf : Conf) (ino : Ino) (flush : Bool) (idle : g.idle) :
    Keeps pathRule Empty (fuseLibRelease conf ino flush) g := by
  refine Keeps.bind (pathOrNullKeeps idle.few fun held => ?_)
  have few : (heldPaths held g.holds).length ≤ 1 := by
    rw [idle.1]
    cases held <;> simp [heldPaths]
  have rest : ∀ err : Int, Keeps pathRule Empty (do
      fuseDoRelease conf ino (pathString held)
      freePath held
      replyErr (if err = -enosys then 0 else err)) {g with holds := heldPaths held g.holds} := by
    intro err
    refine Keeps.bind (fuseDoReleaseKeeps few fun facts => ?_)
    exact Keeps.bind (freePathKeeps rfl fun facts => keepsReply idle)
  cases flush with
  | false => exact rest 0
  | true => exact Keeps.bind (flushCommonKeeps rest)

theorem createLockedKeeps {parent : Ino} {name : Name} {path : Bytes} {regular : Bool}
    {post : Except Int Ino → Ghost → Prop} (entries : g.entries = []) (rest : ∀ r, post r g) :
    Keeps pathRule post (createLocked parent name path regular) g := by
  refine keepsFs fun err => ?_
  split
  · refine Keeps.bind (lookupPathKeeps (fun nm _ => by rw [entries]; exact List.not_mem_nil) fun r => ?_)
    cases r with
    | error err => exact keepsFs fun _ => rest _
    | ok ino =>
      simp only
      split
      · exact rest _
      · exact keepsFs fun _ => keepsAsk Nat.one_pos fun _ _ => rest _
  · exact rest _

theorem fuseLibCreateKeeps (conf : Conf) (parent : Ino) (name : Name) (regular : Bool) (idle : g.idle)
    (entries : g.entries = []) :
    Keeps pathRule Empty (fuseLibCreate conf parent name regular) g := by
  refine keepsReadPath idle.few (fun err => keepsReply idle) fun held _ => ?_
  have one : ({g with holds := held :: g.holds} : Ghost).holds.length ≤ 1 := by simp [idle.1]
  refine Keeps.bind (createLockedKeeps entries fun r => ?_)
  cases r with
  | error err => exact keepsReplyThen (freeLastKeeps rfl fun facts => idle)
  | ok ino =>
    refine keepsAsk trivial fun _ _ => keepsAsk trivial fun res _ => ?_
    split
    · refine Keeps.bind (fuseDoReleaseKeeps one fun facts => keepsAsk Nat.one_pos fun _ _ => ?_)
      exact freeLastKeeps rfl fun facts => idle
    · exact freeLastKeeps rfl fun facts => idle

theorem fuseLibOpenKeeps (conf : Conf) (ino : Ino) (idle : g.idle) : Keeps pathRule Empty (fuseLibOpen conf ino) g := by
  refine keepsReadPath idle.few (fun err => keepsReply idle) fun held _ => keepsFs fun err => ?_
  have one : ({g with holds := held :: g.holds} : Ghost).holds.length ≤ 1 := by simp [idle.1]
  split
  · refine keepsAsk trivial fun _ _ => keepsAsk trivial fun res _ => ?_
    split
    · exact Keeps.bind (fuseDoReleaseKeeps one fun facts => freeLastKeeps rfl fun facts => idle)
    · exact freeLastKeeps rfl fun facts => idle
  · exact keepsReplyThen (freeLastKeeps rfl fun facts => idle)

theorem freeEarlierKeeps {first later : Option Held} {post : Unit → Ghost → Prop} {holds : List Held}
    (is : g.holds = heldPaths later (heldPaths first holds))
    (rest : ∀ facts, post () ⟨g.entries,heldPaths later holds,g.pins,facts⟩) :
    Keeps pathRule post (freePath first) g := by
  obtain ⟨entries,_,pins,facts⟩ := g
  cases is
  cases first with
  | none => exact rest facts
  | some first =>
    have left : (heldPaths later (first :: holds)).erase first = heldPaths later holds := by
      cases later with
      | none =>
        change (first :: holds).erase first = holds
        rw [List.erase_cons_head]
      | some later =>
        change (later :: first :: holds).erase first = later :: holds
        by_cases same : later = first
        · rw [same,List.erase_cons_head]
        · rw [List.erase_cons_tail (by simpa using same),List.erase_cons_head]
    refine keepsFreeLast (by simp [heldPaths]) ?_
    change post () ⟨entries,(heldPaths later (first :: holds)).erase first,pins,forgotten⟩
    rw [left]
    exact rest forgotten

theorem fuseLibCopyFileRangeKeeps (conf : Conf) (nodeidIn nodeidOut : Ino) (idle : g.idle) :
    Keeps pathRule Empty (fuseLibCopyFileRange conf nodeidIn nodeidOut) g := by
  refine Keeps.bind (pathNullokKeeps idle.few (fun err => keepsReply idle) fun pathIn => ?_)
  have one : (heldPaths pathIn g.holds).length ≤ 1 := by
    rw [idle.1]
    cases pathIn <;> simp [heldPaths]
  refine Keeps.bind (pathNullokKeeps one (fun err => ?_) fun pathOut => keepsAsk trivial fun res _ => keepsReplyThen ?_)
  · exact Keeps.bind (freePathKeeps rfl fun facts => keepsReply idle)
  · refine Keeps.bind (freeEarlierKeeps rfl fun facts => ?_)
    exact freePathKeeps rfl fun facts => idle

/-! Requests that unlink or rename: they know what is in their entries until they give the
paths back. -/

theorem hiddenNameKeeps {failctr : Nat} {dir : Ino} {oldname : Name} {post : Option (Name × Bytes) → Ghost → Prop}
    (none : post none g) (got : ∀ newname path, newname ≠ oldname → post (some (newname,path)) g) :
    Keeps pathRule post (hiddenName failctr dir oldname) g := by
  induction failctr with
  | zero => exact none
  | succ failctr ih =>
    refine keepsAsk trivial fun r tells => ?_
    match r with
    | .none => exact none
    | some (_,.error _) => exact none
    | some (newname,.ok path) =>
      refine keepsFs fun res => ?_
      split
      · exact got newname path tells
      · split
        · exact ih
        · exact none

/- What a request knows once the node in one of its entries is hidden. -/
structure Hidden (g : Ghost) (dir : Ino) (name hidden : Name) (facts : Facts) : Prop where
  other : hidden ≠ name
  known : ∀ e, g.facts e ≠ none → facts e ≠ none
  moved : ∀ w, g.facts (dir,name) = some (some w) →
    facts (dir,hidden) = some (some w) ∧ facts (dir,name) = some none
  alone : g.facts (dir,name) = some none → facts = g.facts

theorem hideNodeKeeps {path : Bytes} {dir : Ino} {name : Name} {post : Int → Ghost → Prop}
    (known : g.facts (dir,name) ≠ none) (mine : (dir,name) ∈ g.entries) (inside : g.inside dir)
    (failed : ∀ err facts, err ≠ 0 → post err {g with facts := facts})
    (hid : ∀ hidden facts, Hidden g dir name hidden facts → post 0 {g with facts := facts}) :
    Keeps pathRule post (hideNode path dir name) g := by
  refine Keeps.bind (hiddenNameKeeps (failed _ g.facts (by decide)) fun hidden newpath other => ?_)
  refine keepsAsk trivial fun err _ => ?_
  split
  · refine keepsLast (i := .renameNode dir name dir hidden true)
      ⟨known,fun _ => ⟨fun same => other (congrArg Prod.snd same).symm,mine⟩,nofun,inside,inside⟩ fun err _ => ?_
    change post err {g with facts := Instr.facts (.renameNode dir name dir hidden true) err g.facts}
    by_cases done : err = 0
    · subst done
      refine hid hidden _ ?_
      have away : (dir,hidden) ≠ (dir,name) := fun same => other (congrArg Prod.snd same)
      cases fact : g.facts (dir,name) with
      | none => exact absurd fact known
      | some node =>
        cases node with
        | none =>
          simp only [Instr.facts,and_self,if_true,fact]
          exact ⟨other,fun _ is => is,fun w is => (by rw [fact] at is; cases is),fun _ => rfl⟩
        | some w =>
          simp only [Instr.facts,and_self,if_true,fact]
          refine ⟨other,fun e is => ?_,fun w' is => ?_,fun is => (by rw [fact] at is; cases is)⟩
          · by_cases here : e = (dir,name)
            · rw [here,Function.update_self]
              nofun
            · rw [Function.update_of_ne here]
              by_cases there : e = (dir,hidden)
              · rw [there,Function.update_self]
                nofun
              · rwa [Function.update_of_ne there]
          · rw [fact] at is
            cases is
            rw [Function.update_of_ne away,Function.update_self,Function.update_self]
            exact ⟨rfl,rfl⟩
    · exact failed err _ done
  · next not => exact failed err g.facts not

theorem isOpenSoftKeeps {conf : Conf} {dir : Ino} {name : Name} {post : Bool → Ghost → Prop}
    (rest : ∀ isopen, (isopen = true → g.facts (dir,name) ≠ some none) → post isopen g) :
    Keeps pathRule post (isOpenSoft conf dir name) g := by
  unfold isOpenSoft
  split
  · exact rest false nofun
  · exact keepsLast (i := .isOpen dir name) trivial fun isopen tells => rest isopen tells

theorem unlinkHiddenKeeps {parent : Ino} {w : Ptr} {hidden : Name} {post : Int → Ghost → Prop}
    (fact : g.facts (parent,hidden) = some (some w)) (inside : g.inside parent)
    (rest : ∀ err facts, post err {g with facts := facts}) : Keeps pathRule post (unlinkHidden parent (some w)) g := by
  refine keepsAsk trivial fun name _ => keepsAsk trivial fun isopen _ => ?_
  split
  · exact rest 0 g.facts
  · refine keepsAsk trivial fun nodeid _ => keepsAsk trivial fun r _ => ?_
    cases r with
    | error err => exact rest 0 g.facts
    | ok path =>
      refine keepsFs fun err => ?_
      split
      · refine keepsAsk trivial fun again tells => ?_
        have same : hidden = again := tells _ fact
        refine keepsAsk (i := .removeNode parent again) ⟨?_,inside⟩ fun _ _ => rest 0 _
        change g.facts (parent,again) ≠ none
        rw [← same,fact]
        nofun
      · exact rest err g.facts

theorem unlinkLockedKeeps {conf : Conf} {parent : Ino} {name : Name} {held : Held} {post : Int → Ghost → Prop}
    (fact : g.facts (parent,name) = some held.wnode) (mine : (parent,name) ∈ g.entries)
    (inside : g.inside parent) (rest : ∀ err facts, post err {g with facts := facts}) :
    Keeps pathRule post (unlinkLocked conf parent name held) g := by
  have known : g.facts (parent,name) ≠ none := by rw [fact]; nofun
  refine Keeps.bind (isOpenSoftKeeps fun isopen open_ => ?_)
  split
  · next is =>
    cases node : held.wnode with
    | none => exact absurd (fact.trans (congrArg some node)) (open_ is)
    | some w =>
      refine Keeps.bind (hideNodeKeeps known mine inside (fun err facts failed => ?_) fun hidden facts hid => ?_)
      · rw [if_neg failed]
        exact rest err facts
      · rw [if_pos rfl]
        exact unlinkHiddenKeeps (hid.moved w (fact.trans (congrArg some node))).1 inside rest
  · refine keepsFs fun err => ?_
    split
    · exact keepsAsk ⟨known,inside⟩ fun _ _ => rest 0 _
    · exact rest err g.facts

theorem keepsWrlock {parent : Ino} {name : Name} {f : Except Int Held → Prog α} (few : g.holds.length ≤ 1)
    (mine : (parent,name) ∈ g.entries) (error : ∀ err, Keeps pathRule post (f (.error err)) g)
    (got : ∀ held facts, held.want.nodeid = parent → facts (parent,name) = some held.wnode →
      Keeps pathRule post (f (.ok held)) ⟨g.entries,held :: g.holds,g.pins,facts⟩) :
    Keeps pathRule post (getPathWrlock parent name >>= f) g :=
  keepsGetPath few (fun _ => ⟨name,rfl,mine⟩) error fun held want =>
    got held _ (by rw [want]) (Function.update_self ..)

theorem fuseLibUnlinkKeeps (conf : Conf) (parent : Ino) (name : Name) (idle : g.idle)
    (mine : (parent,name) ∈ g.entries) :
    Keeps pathRule Empty (fuseLibUnlink conf parent name) g := by
  refine keepsWrlock idle.few mine (fun err => keepsReply idle) fun held facts dir fact => ?_
  refine Keeps.bind (unlinkLockedKeeps fact mine ⟨held,List.mem_cons_self,dir⟩ fun err facts => ?_)
  exact freeThenKeeps rfl fun facts => keepsReply idle

theorem fuseLibRmdirKeeps (parent : Ino) (name : Name) (idle : g.idle) (mine : (parent,name) ∈ g.entries) :
    Keeps pathRule Empty (fuseLibRmdir parent name) g := by
  refine keepsWrlock idle.few mine (fun err => keepsReply idle) fun held facts dir fact => keepsFs fun err => ?_
  split
  · refine keepsAsk (i := .removeNode parent name) ⟨?_,⟨held,List.mem_cons_self,dir⟩⟩ fun _ _ => ?_
    · change facts (parent,name) ≠ none
      rw [fact]
      nofun
    · exact freeThenKeeps rfl fun facts => keepsReply idle
  · exact freeThenKeeps rfl fun facts => keepsReply idle

theorem renameLockedKeeps {conf : Conf} {olddir newdir : Ino} {oldname newname : Name} {exchange : Bool}
    {oldpath newpath : Bytes} {post : Int → Ghost → Prop} (old : g.facts (olddir,oldname) ≠ none)
    (new : g.facts (newdir,newname) ≠ none) (mine : (newdir,newname) ∈ g.entries)
    (distinct : Distinct g.facts (olddir,oldname) (newdir,newname)) (insideOld : g.inside olddir)
    (insideNew : g.inside newdir) (rest : ∀ err facts, post err {g with facts := facts}) :
    Keeps pathRule post (renameLocked conf olddir oldname newdir newname exchange oldpath newpath) g := by
  -- the second half, with or without a hidden target
  have rename : ∀ facts : Facts, facts (olddir,oldname) ≠ none → facts (newdir,newname) ≠ none →
      Distinct facts (olddir,oldname) (newdir,newname) → Keeps pathRule post (do
        let err ← ask (.callback .rename (some oldpath) (some newpath))
        if err = 0 then
          if exchange then ask (.exchangeNode olddir oldname newdir newname)
          else ask (.renameNode olddir oldname newdir newname false)
        else pure err) {g with facts := facts} := by
    intro facts old new distinct
    refine keepsAsk trivial fun err _ => ?_
    split
    · split
      · exact keepsLast (i := .exchangeNode olddir oldname newdir newname) ⟨old,new,distinct,insideOld,insideNew⟩
          fun err _ => rest err _
      · exact keepsLast (i := .renameNode olddir oldname newdir newname false)
          ⟨old,nofun,fun _ => ⟨new,distinct⟩,insideOld,insideNew⟩ fun err _ => rest err _
    · exact rest err facts
  have hide : ∀ isopen : Bool, (isopen = true → g.facts (newdir,newname) ≠ some none) → Keeps pathRule post (do
      let err ← (if isopen then hideNode newpath newdir newname else pure 0)
      if err = 0 then
        let err ← ask (.callback .rename (some oldpath) (some newpath))
        if err = 0 then
          if exchange then ask (.exchangeNode olddir oldname newdir newname)
          else ask (.renameNode olddir oldname newdir newname false)
        else pure err
      else pure err) g := by
    intro isopen open_
    cases isopen with
    | false =>
      refine Keeps.bind (keepsPure' ?_)
      rw [if_pos rfl]
      exact rename g.facts old new distinct
    | true =>
      refine Keeps.bind (hideNodeKeeps new mine insideNew (fun err facts failed => ?_) fun hidden facts hid => ?_)
      · rw [if_neg failed]
        exact rest err facts
      · rw [if_pos rfl]
        refine rename facts (hid.known _ old) (hid.known _ new) ?_
        obtain ⟨node,fact⟩ := Option.ne_none_iff_exists'.mp new
        cases node with
        | none => exact absurd fact (open_ rfl)
        | some w =>
          intro p is same
          rw [same,(hid.moved w fact).2] at is
          cases is
  have first : ∀ {post : Bool → Ghost → Prop},
      (∀ isopen, (isopen = true → g.facts (newdir,newname) ≠ some none) → post isopen g) →
      Keeps pathRule post (if exchange then pure false else isOpenSoft conf newdir newname) g := by
    intro post rest
    split
    · exact rest false nofun
    · exact isOpenSoftKeeps rest
  exact Keeps.bind (first hide)

theorem fuseLibRenameKeeps (conf : Conf) (olddir : Ino) (oldname : Name) (newdir : Ino) (newname : Name)
    (exchange : Bool) (idle : g.idle) (mineOld : (olddir,oldname) ∈ g.entries)
    (mineNew : (newdir,newname) ∈ g.entries) :
    Keeps pathRule Empty (fuseLibRename conf olddir oldname newdir newname exchange) g := by
  refine keepsAsk ⟨idle.1,fun _ => ⟨oldname,rfl,mineOld⟩,fun _ => ⟨newname,rfl,mineNew⟩⟩ fun r tells => ?_
  cases r with
  | error err => exact keepsReply idle
  | ok both =>
    obtain ⟨held1,held2⟩ := both
    obtain ⟨want1,want2,apart⟩ := tells
    let facts := Function.update (Function.update g.facts (olddir,oldname) (some held1.wnode))
      (newdir,newname) (some held2.wnode)
    have new : facts (newdir,newname) = some held2.wnode := Function.update_self ..
    have old : facts (olddir,oldname) ≠ none := by
      by_cases same : (olddir,oldname) = (newdir,newname)
      · rw [same,new]
        nofun
      · have here : facts (olddir,oldname) = some held1.wnode :=
          (Function.update_of_ne same ..).trans (Function.update_self ..)
        rw [here]
        nofun
    have distinct : Distinct facts (olddir,oldname) (newdir,newname) := by
      intro p is same
      have none := apart rfl rfl (congrArg Prod.fst same) (congrArg (fun e => some e.2) same)
      rw [same,new,none] at is
      cases is
    change Keeps pathRule Empty _ ⟨g.entries,held1 :: held2 :: g.holds,g.pins,facts⟩
    have known : facts (newdir,newname) ≠ none := by
      rw [new]
      nofun
    refine Keeps.bind (renameLockedKeeps old known mineNew distinct ⟨held1,by simp,by rw [want1]⟩
      ⟨held2,by simp,by rw [want2]⟩ fun err facts => ?_)
    exact freeBothKeeps (by rw [idle.1]) fun facts => keepsReply ⟨rfl,idle.2⟩

theorem requestKeeps (conf : Conf) {request : Request} (forgets : request.forgetsSome) :
    Keeps pathRule Empty (request.script conf) ⟨request.entries,[],[],forgotten⟩ := by
  have idle : ∀ entries : List (Ino × Name), (⟨entries,[],[],forgotten⟩ : Ghost).idle := fun _ => ⟨rfl,rfl⟩
  cases request with
  | lookup negative parent name => exact fuseLibLookupKeeps negative parent name (idle _) rfl
  | forget ino nlookup =>
    have some : 0 < nlookup := of_decide_eq_true forgets
    exact keepsAsk some fun _ _ => keepsReply (idle _)
  | forgetMulti forgets' => exact Keeps.bind (doForgetsKeeps forgets (keepsReply (idle _)))
  | getattr fi ino => exact fuseLibGetattrKeeps conf fi ino (idle _)
  | setattr fi ino mode owner size times => exact pathRequestKeeps _ _ _ (idle _)
  | access ino => exact pathRequestKeeps _ _ _ (idle _)
  | readlink ino => exact pathRequestKeeps _ _ _ (idle _)
  | mknod parent name regular => exact fuseLibMknodKeeps parent name regular (idle _) rfl
  | mkdir parent name => exact makeEntryKeeps parent name _ (idle _) rfl
  | unlink parent name => exact fuseLibUnlinkKeeps conf parent name (idle _) List.mem_cons_self
  | rmdir parent name => exact fuseLibRmdirKeeps parent name (idle _) List.mem_cons_self
  | symlink parent name => exact makeEntryKeeps parent name _ (idle _) rfl
  | rename olddir oldname newdir newname exchange =>
    exact fuseLibRenameKeeps conf olddir oldname newdir newname exchange (idle _) List.mem_cons_self
      (List.mem_cons_of_mem _ List.mem_cons_self)
  | link ino newparent newname => exact fuseLibLinkKeeps ino newparent newname (idle _) rfl
  | create parent name regular => exact fuseLibCreateKeeps conf parent name regular (idle _) rfl
  | openFile ino => exact fuseLibOpenKeeps conf ino (idle _)
  | read ino => exact pathRequestKeeps _ _ _ (idle _)
  | writeBuf ino => exact pathRequestKeeps _ _ _ (idle _)
  | flush ino => exact fuseLibFlushKeeps conf ino (idle _)
  | release ino flushes => exact fuseLibReleaseKeeps conf ino flushes (idle _)
  | fsync ino => exact pathRequestKeeps _ _ _ (idle _)
  | opendir ino allocated => exact fuseLibOpendirKeeps ino allocated (idle _)
  | readdir nullok ino nodeid filled during late =>
      exact fuseReaddirCommonKeeps _ ino nodeid filled during late (idle _) rfl
  | releasedir ino => exact fuseLibReleasedirKeeps conf ino (idle _)
  | fsyncdir ino => exact pathRequestKeeps _ _ _ (idle _)
  | statfs ino =>
    change Keeps pathRule Empty (fuseLibStatfs ino) _
    unfold fuseLibStatfs
    split
    · exact keepsFs fun err => keepsReply (idle _)
    · exact pathRequestKeeps _ _ _ (idle _)
  | setxattr ino => exact pathRequestKeeps _ _ _ (idle _)
  | getxattr ino allocated =>
    cases allocated with
    | false => exact keepsReply (idle _)
    | true => exact pathRequestKeeps _ _ _ (idle _)
  | listxattr ino allocated =>
    cases allocated with
    | false => exact keepsReply (idle _)
    | true => exact pathRequestKeeps _ _ _ (idle _)
  | removexattr ino => exact pathRequestKeeps _ _ _ (idle _)
  | getlk ino conflict => exact fuseLibGetlkKeeps conf ino conflict (idle _)
  | setlk ino => exact fuseLibSetlkKeeps conf ino (idle _)
  | flock ino => exact pathRequestKeeps _ _ _ (idle _)
  | bmap ino => exact pathRequestKeeps _ _ _ (idle _)
  | ioctl ino unrestricted allocated =>
    cases unrestricted with
    | true => exact keepsReply (idle _)
    | false =>
      cases allocated with
      | false => exact keepsReply (idle _)
      | true => exact pathRequestKeeps _ _ _ (idle _)
  | poll ino => exact pathRequestKeeps _ _ _ (idle _)
  | fallocate ino => exact pathRequestKeeps _ _ _ (idle _)
  | copyFileRange nodeidIn nodeidOut => exact fuseLibCopyFileRangeKeeps conf nodeidIn nodeidOut (idle _)
  | lseek ino => exact pathRequestKeeps _ _ _ (idle _)

end FuseStudy.NodeStore
