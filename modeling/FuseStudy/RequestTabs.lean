import FuseStudy.LonePaths
import FuseStudy.NodeTallies

/-! What a request owes: the lookups and opens that it has taken and not yet told the kernel of,
and those that the kernel gave back with it. Whatever it is answered, nothing of it is left in
the end. -/
namespace FuseStudy.NodeStore
open CString Script

variable {α β : Type} {conf : Conf} {i : Instr} {ino parent : Ino}

/- entry and opened wait for the reply, forgets and release for the node table. -/
structure Tab where
  entry : Option Ino
  opened : Option Ino
  forgets : List (Ino × Nat)
  release : Option Ino
  -- the node whose open file the request is about
  file : Option Ino
  deriving DecidableEq

def Request.tab : Request → Tab
  | .forget ino nlookup => ⟨none,none,[(ino,nlookup)],none,none⟩
  | .forgetMulti forgets => ⟨none,none,forgets,none,none⟩
  | .openFile ino => ⟨none,none,[],none,some ino⟩
  | .release ino _ => ⟨none,none,[],some ino,some ino⟩
  | _ => ⟨none,none,[],none,none⟩

def Tab.clear (t : Tab) : Prop := t.entry = none ∧ t.opened = none ∧ t.forgets = [] ∧ t.release = none

/- The kernel has taken the reply, and with it what it tells of. -/
def Instr.hands : (i : Instr) → i.Result → Bool
  | .reply err, answer => decide (err = 0 ∧ answer ≠ -enoent)
  | _, _ => false

def Tab.after (t : Tab) : (i : Instr) → i.Result → Tab
  | .findNode .., some ino => {t with entry := some ino}
  | .forgetNode ino nlookup, _ => if t.entry = some ino then {t with entry := none}
      else {t with forgets := t.forgets.erase (ino,nlookup)}
  | .openNode ino, _ => {t with opened := some ino}
  | .releaseNode ino, _ => if t.opened = some ino then {t with opened := none} else {t with release := none}
  | .reply err, answer => if err = 0 ∧ answer ≠ -enoent then {t with entry := none, opened := none} else t
  | _, _ => t

/- A node is looked up or opened for one reply at a time, an error is answered with nothing in
hand, and only what is in hand is given back, the open before the lookup. -/
def Tab.may (t : Tab) : Instr → Prop
  | .findNode .. => t.entry = none
  | .forgetNode ino nlookup => if t.entry = some ino then nlookup = 1 ∧ t.opened = none else (ino,nlookup) ∈ t.forgets
  | .openNode ino => t.opened = none ∧ (t.entry = some ino ∨ t.file = some ino)
  | .releaseNode ino => t.opened = some ino ∨ t.release = some ino
  | .reply err => err = 0 ∨ t.entry = none ∧ t.opened = none
  | _ => True

/- No node has the id zero. -/
def Instr.numbers : (i : Instr) → i.Result → Prop
  | .findNode .., some ino => ino ≠ 0
  | _, _ => True

def tabRule : Discipline Instr Instr.Result Tab where
  may := Tab.may
  after t i r t' := i.numbers r ∧ t' = t.after i r

variable {t : Tab} {post : α → Tab → Prop} {last : Unit → Tab → Prop}

theorem tabAsk {f : i.Result → Prog α} (may : t.may i)
    (rest : ∀ r, i.numbers r → Keeps tabRule post (f r) (t.after i r)) :
    Keeps tabRule post (ask i >>= f) t := by
  refine ⟨may,?_⟩
  rintro r _ ⟨numbered,rfl⟩
  exact rest r numbered

/-! Most instructions leave the tab as it is. -/

def Instr.tabled : Instr → Bool
  | .findNode .. | .forgetNode .. | .openNode _ | .releaseNode _ => true
  | _ => false

def Instr.mild (i : Instr) : Bool := !i.tabled

def Instr.calm : Instr → Bool
  | .reply _ => false
  | i => i.mild

theorem minorCalm (i : Instr) (minor : i.minor = true) : i.calm = true := by
  cases i <;> first | rfl | cases minor

theorem calmMild (i : Instr) (calm : i.calm = true) : i.mild = true := by
  cases i <;> first | rfl | cases calm

theorem Only.calm {prog : Prog α} (only : Only Instr.minor prog) : Only Instr.calm prog := only.imp minorCalm

theorem Only.mild {prog : Prog α} (only : Only Instr.calm prog) : Only Instr.mild prog := only.imp calmMild

theorem calmMay (calm : i.calm = true) (t : Tab) : t.may i := by
  cases i <;> trivial

theorem calmAfter (calm : i.calm = true) (t : Tab) (r : i.Result) : t.after i r = t := by
  cases i <;> first | rfl | cases calm

theorem Only.tab {prog : Prog α} (only : Only Instr.calm prog) (done : ∀ a, post a t) : Keeps tabRule post prog t := by
  induction prog with
  | done a => exact done a
  | act i next ih =>
    refine ⟨calmMay only.1 t,?_⟩
    rintro r _ ⟨_,rfl⟩
    rw [calmAfter only.1]
    exact ih r (only.2 r)

def Tab.blank (t : Tab) : Prop := t.entry = none ∧ t.opened = none

theorem mildMay (mild : i.mild = true) (blank : t.blank) : t.may i ∧ ∀ r, t.after i r = t := by
  cases i with
  | reply err =>
    refine ⟨.inr blank,fun answer => ?_⟩
    obtain ⟨entry,opened,forgets,release,file⟩ := t
    obtain ⟨none,none'⟩ := blank
    cases none
    cases none'
    exact ite_self _
  | findNode | forgetNode | openNode | releaseNode => cases mild
  | _ => exact ⟨trivial,fun _ => rfl⟩

theorem Only.tabBlank {prog : Prog α} (only : Only Instr.mild prog) (blank : t.blank) (done : ∀ a, post a t) :
    Keeps tabRule post prog t := by
  induction prog with
  | done a => exact done a
  | act i next ih =>
    refine ⟨(mildMay only.1 blank).1,?_⟩
    rintro r _ ⟨_,rfl⟩
    rw [(mildMay only.1 blank).2]
    exact ih r (only.2 r)

theorem Only.thenTab {prog : Prog β} {f : β → Prog α} (only : Only Instr.calm prog)
    (rest : ∀ b, Keeps tabRule post (f b) t) :
    Keeps tabRule post (prog >>= f) t := Keeps.bind (only.tab rest)

theorem tabThen {prog : Prog β} {f : β → Prog α} {mid : β → Tab → Prop} (first : Keeps tabRule mid prog t)
    (rest : ∀ b t', mid b t' → Keeps tabRule post (f b) t') : Keeps tabRule post (prog >>= f) t :=
  Keeps.bind (first.imp rest)

/-! Requests that count nothing. -/

theorem calmReply (err : Int) : Only Instr.mild (replyErr err) := Only.bind (onlyAsk rfl) fun _ => trivial

theorem calmFree (held : Option Held) : Only Instr.calm (freePath held) := by
  cases held with
  | none => trivial
  | some held => exact onlyAsk rfl

theorem calmNullok (ino : Ino) : Only Instr.calm (getPathNullok conf ino) := by
  unfold getPathNullok
  split
  · trivial
  · refine Only.bind (onlyAsk rfl) fun r => ?_
    cases r <;> trivial

theorem calmMaybe (nullok : Option Conf) (ino : Ino) : Only Instr.calm (match nullok with
    | some conf => getPathNullok conf ino
    | none => do
      match ← getPath ino with
      | .ok held => pure (.ok (some held))
      | .error err => pure (.error err)) := by
  cases nullok with
  | some conf => exact calmNullok ino
  | none =>
    refine Only.bind (onlyAsk rfl) fun r => ?_
    cases r <;> trivial

theorem calmWithPath (nullok : Option Conf) (ino : Ino) (calls : List FsOp) :
    Only Instr.calm (withPath nullok ino calls) := by
  refine (calmMaybe nullok ino).bind fun r => ?_
  cases r with
  | error err => trivial
  | ok held => exact (minorCalls _ _).calm.bind fun err => (calmFree held).bind fun _ => trivial

theorem calmOrNull (ino : Ino) : Only Instr.calm (pathOrNull conf ino) := by
  refine (calmNullok ino).bind fun r => ?_
  cases r <;> trivial

theorem mildPathRequest (nullok : Option Conf) (ino : Ino) (calls : List FsOp) :
    Only Instr.mild (pathRequest nullok ino calls) :=
  (calmWithPath nullok ino calls).mild.bind fun err => calmReply err

/-! Requests that look a node up for their reply. -/

def Tab.with (t : Tab) : Except Int Ino → Tab
  | .ok ino => {t with entry := some ino}
  | .error _ => t

def Numbered : Except Int Ino → Prop
  | .ok ino => ino ≠ 0
  | .error _ => True

theorem tabDoLookup (nodeid : Ino) (name : Option Name) (blank : t.blank) :
    Keeps tabRule (fun entry t' => Numbered entry ∧ t' = t.with entry) (doLookup nodeid name) t := by
  refine tabAsk blank.1 fun r numbered => ?_
  cases r with
  | none => exact ⟨trivial,rfl⟩
  | some ino => exact ⟨numbered,rfl⟩

theorem tabLookupPath (nodeid : Ino) (name : Option Name) (path : Bytes) (blank : t.blank) :
    Keeps tabRule (fun entry t' => Numbered entry ∧ t' = t.with entry) (lookupPath nodeid name path) t := by
  refine (minorFs _ _).calm.thenTab fun res => ?_
  split
  · exact tabDoLookup nodeid name blank
  · exact ⟨trivial,rfl⟩

theorem tabReplyEntry {entry : Except Int Ino} (blank : t.blank) (numbered : Numbered entry) :
    Keeps tabRule (fun _ t' => t' = t) (replyEntry entry) (t.with entry) := by
  obtain ⟨_,_,forgets,release,file⟩ := t
  obtain ⟨rfl,rfl⟩ := blank
  cases entry with
  | error err => exact (calmReply err).tabBlank ⟨rfl,rfl⟩ fun _ => rfl
  | ok ino =>
    refine tabAsk (.inl rfl) fun (res : Int) _ => ?_
    by_cases gone : res = -enoent
    · have stays : Tab.after (Tab.with ⟨none,none,forgets,release,file⟩ (.ok ino))
          (.reply 0) res = ⟨some ino,none,forgets,release,file⟩ :=
        if_neg fun both => both.2 gone
      rw [stays,if_pos ⟨gone,numbered⟩]
      refine ⟨?_,?_⟩
      · exact (if_pos rfl).mpr ⟨rfl,rfl⟩
      · rintro r _ ⟨_,rfl⟩
        exact if_pos rfl
    · have handed : Tab.after (Tab.with ⟨none,none,forgets,release,file⟩ (.ok ino))
          (.reply 0) res = ⟨none,none,forgets,release,file⟩ :=
        if_pos ⟨rfl,gone⟩
      rw [handed,if_neg fun both => gone both.1]
      exact rfl

theorem tabReplyEntries {entry : Except Int Ino} (blank : t.blank) (numbered : Numbered entry) (done : ∀ a, last a t) :
    Keeps tabRule last (replyEntry entry) (t.with entry) := by
  refine (tabReplyEntry blank numbered).imp ?_
  rintro a _ rfl
  exact done a

theorem tabReplyNegative (blank : t.blank) (err : Int) (negative : Bool) (done : ∀ a, last a t) :
    Keeps tabRule last (replyEntry (if err = -enoent ∧ negative then .ok 0 else .error err)) t := by
  refine Only.tabBlank ?_ blank done
  split
  · refine Only.bind (onlyAsk rfl) fun res => ?_
    rw [if_neg fun both => both.2 rfl]
    trivial
  · exact calmReply err

theorem tabLookupEntry (negative : Bool) (parent : Ino) (name : Option Name) (dot : Option Ptr)
    (blank : t.blank) (done : ∀ a, last a t) :
    Keeps tabRule last (lookupEntry negative parent name dot) t := by
  refine Only.thenTab (onlyAsk rfl) fun r => ?_
  cases r with
  | error err => exact Only.tabBlank ((minorUnpin dot).calm.mild.bind fun _ => calmReply err) blank done
  | ok held =>
    refine tabThen (tabLookupPath parent name held.path blank) ?_
    rintro entry _ ⟨numbered,rfl⟩
    refine Only.thenTab (onlyAsk rfl) fun _ => (minorUnpin dot).calm.thenTab fun _ => ?_
    cases entry with
    | error err => exact tabReplyNegative blank err negative done
    | ok ino => exact tabReplyEntries blank numbered done

theorem tabFuseLibLookup (negative : Bool) (parent : Ino) (name : Name) (blank : t.blank) (done : ∀ a, last a t) :
    Keeps tabRule last (fuseLibLookup negative parent name) t := by
  unfold fuseLibLookup
  split
  · refine Only.thenTab (onlyAsk rfl) fun r => ?_
    cases r with
    | none => exact (calmReply _).tabBlank blank done
    | some dot => exact tabLookupEntry _ _ _ _ blank done
  · split
    · exact Only.thenTab (onlyAsk rfl) fun parent => tabLookupEntry _ _ _ _ blank done
    · exact tabLookupEntry _ _ _ _ blank done

theorem tabMakeEntry (parent : Ino) (name : Name) (op : FsOp) (blank : t.blank) (done : ∀ a, last a t) :
    Keeps tabRule last (makeEntry parent name op) t := by
  refine Only.thenTab (onlyAsk rfl) fun r => ?_
  cases r with
  | error err => exact (calmReply err).tabBlank blank done
  | ok held =>
    refine (minorFs _ _).calm.thenTab fun err => ?_
    split
    · refine tabThen (tabLookupPath parent (some name) held.path blank) ?_
      rintro entry _ ⟨numbered,rfl⟩
      exact Only.thenTab (onlyAsk rfl) fun _ => tabReplyEntries blank numbered done
    · exact Only.thenTab (onlyAsk rfl) fun _ => (calmReply err).tabBlank blank done

/- A file that was created and looked up is not made with mknod again. -/
theorem tabMknodLocked (parent : Ino) (name : Name) (path : Bytes) (regular : Bool) (blank : t.blank) :
    Keeps tabRule (fun entry t' => Numbered entry ∧ t' = t.with entry) (mknodLocked parent name path regular) t := by
  have first : Keeps tabRule (fun entry t' => Numbered entry ∧ t' = t.with entry) (if regular then do
      let err ← fs .create (some path)
      if err = 0 then
        let entry ← lookupPath parent (some name) path
        let _ ← fs .release (some path)
        pure entry
      else pure (.error err)
    else pure (.error (-enosys))) t := by
    split
    · refine (minorFs _ _).calm.thenTab fun err => ?_
      split
      · refine tabThen (tabLookupPath parent (some name) path blank) ?_
        rintro entry _ ⟨numbered,rfl⟩
        exact (minorFs _ _).calm.thenTab fun _ => ⟨numbered,rfl⟩
      · exact ⟨trivial,rfl⟩
    · exact ⟨trivial,rfl⟩
  refine tabThen first ?_
  rintro entry _ ⟨numbered,rfl⟩
  cases entry with
  | ok ino => exact ⟨numbered,rfl⟩
  | error err =>
    dsimp only
    split
    · refine (minorFs _ _).calm.thenTab fun err => ?_
      split
      · exact tabLookupPath parent (some name) path blank
      · exact ⟨trivial,rfl⟩
    · exact ⟨trivial,rfl⟩

theorem tabFuseLibMknod (parent : Ino) (name : Name) (regular : Bool) (blank : t.blank) (done : ∀ a, last a t) :
    Keeps tabRule last (fuseLibMknod parent name regular) t := by
  refine Only.thenTab (onlyAsk rfl) fun r => ?_
  cases r with
  | error err => exact (calmReply err).tabBlank blank done
  | ok held =>
    refine tabThen (tabMknodLocked parent name held.path regular blank) ?_
    rintro entry _ ⟨numbered,rfl⟩
    exact Only.thenTab (onlyAsk rfl) fun _ => tabReplyEntries blank numbered done

theorem tabFuseLibLink (ino newparent : Ino) (newname : Name) (blank : t.blank) (done : ∀ a, last a t) :
    Keeps tabRule last (fuseLibLink ino newparent newname) t := by
  refine Only.thenTab (onlyAsk rfl) fun r => ?_
  cases r with
  | error err => exact (calmReply err).tabBlank blank done
  | ok held =>
    refine Only.thenTab (onlyAsk rfl) fun err => ?_
    split
    · refine tabThen (tabLookupPath newparent (some newname) held.2.path blank) ?_
      rintro entry _ ⟨numbered,rfl⟩
      exact Only.thenTab (onlyAsk rfl) fun _ => tabReplyEntries blank numbered done
    · exact Only.thenTab (onlyAsk rfl) fun _ => (calmReply err).tabBlank blank done

/-! Requests that open and close files. -/

def Tab.closed (t : Tab) (ino : Ino) : Tab := t.after (.releaseNode ino) false

theorem closedRelease (other : t.opened ≠ some ino) : t.closed ino = {t with release := none} := if_neg other

theorem tabDoRelease (ino : Ino) (path : Option Bytes) (may : t.may (.releaseNode ino))
    (done : ∀ a, last a (t.closed ino)) :
    Keeps tabRule last (fuseDoRelease conf ino path) t := by
  refine (minorFs _ _).calm.thenTab fun _ => tabAsk may fun hidden _ => ?_
  change Keeps tabRule last _ (t.closed ino)
  split
  · cases path with
    | some path => exact (minorFs _ _).calm.thenTab fun _ => done ()
    | none =>
      dsimp only
      split
      · refine Only.thenTab (onlyAsk rfl) fun r => ?_
        cases r with
        | error err => exact done ()
        | ok held => exact (minorFs _ _).calm.thenTab fun _ => Only.tab (onlyAsk rfl) done
      · exact done ()
  · exact done ()

theorem tabFuseLibOpen (ino : Ino) (blank : t.blank) (file : t.file = some ino) (done : ∀ a, last a t) :
    Keeps tabRule last (fuseLibOpen conf ino) t := by
  obtain ⟨_,_,forgets,release,_⟩ := t
  obtain ⟨rfl,rfl⟩ := blank
  cases file
  refine Only.thenTab (onlyAsk rfl) fun r => ?_
  cases r with
  | error err => exact (calmReply err).tabBlank ⟨rfl,rfl⟩ done
  | ok held =>
    refine (minorFs _ _).calm.thenTab fun err => ?_
    split
    · refine tabAsk ⟨rfl,.inr rfl⟩ fun _ _ => tabAsk (.inl rfl) fun (res : Int) _ => ?_
      by_cases gone : res = -enoent
      · have stays : Tab.after ⟨none,some ino,forgets,release,some ino⟩
            (.reply 0) res = ⟨none,some ino,forgets,release,some ino⟩ :=
          if_neg fun both => both.2 gone
        rw [if_pos gone]
        change Keeps tabRule last _ (Tab.after ⟨none,some ino,forgets,release,some ino⟩ (.reply 0) res)
        rw [stays]
        have closed :
          Tab.closed ⟨none,some ino,forgets,release,some ino⟩ ino = ⟨none,none,forgets,release,some ino⟩ := if_pos rfl
        refine Keeps.bind (tabDoRelease ino _ (.inl rfl) fun _ => ?_)
        rw [closed]
        exact Only.tab (onlyAsk rfl) done
      · have handed :
            Tab.after ⟨none,some ino,forgets,release,some ino⟩ (.reply 0) res = ⟨none,none,forgets,release,some ino⟩ :=
          if_pos ⟨rfl,gone⟩
        rw [if_neg gone]
        change Keeps tabRule last _ (Tab.after ⟨none,some ino,forgets,release,some ino⟩ (.reply 0) res)
        rw [handed]
        exact Only.tab (onlyAsk rfl) done
    · exact Only.tabBlank ((calmReply err).bind fun _ => onlyAsk rfl) ⟨rfl,rfl⟩ done

/- What a successful create leaves in hand is a lookup and, later, an open of the same node. -/
theorem tabCreateLocked (name : Name) (path : Bytes) (regular : Bool) (blank : t.blank) :
    Keeps tabRule (fun entry t' => Numbered entry ∧ t' = t.with entry) (createLocked parent name path regular) t := by
  refine (minorFs _ _).calm.thenTab fun err => ?_
  split
  · refine tabThen (tabLookupPath parent (some name) path blank) ?_
    rintro entry _ ⟨numbered,rfl⟩
    cases entry with
    | error err => exact (minorFs _ _).calm.thenTab fun _ => ⟨trivial,rfl⟩
    | ok ino =>
      dsimp only
      split
      · exact ⟨numbered,rfl⟩
      · obtain ⟨_,_,forgets,release,file⟩ := t
        obtain ⟨rfl,rfl⟩ := blank
        refine (minorFs _ _).calm.thenTab fun _ => tabAsk ((if_pos rfl).mpr ⟨rfl,rfl⟩) fun _ _ => ⟨trivial,?_⟩
        exact if_pos rfl
  · exact ⟨trivial,rfl⟩

theorem tabFuseLibCreate (name : Name) (regular : Bool) (blank : t.blank) (done : ∀ a, last a t) :
    Keeps tabRule last (fuseLibCreate conf parent name regular) t := by
  refine Only.thenTab (onlyAsk rfl) fun r => ?_
  cases r with
  | error err => exact (calmReply err).tabBlank blank done
  | ok held =>
    refine tabThen (tabCreateLocked name held.path regular blank) ?_
    rintro entry _ ⟨numbered,rfl⟩
    obtain ⟨_,_,forgets,release,file⟩ := t
    obtain ⟨rfl,rfl⟩ := blank
    cases entry with
    | error err => exact Only.tabBlank ((calmReply err).bind fun _ => onlyAsk rfl) ⟨rfl,rfl⟩ done
    | ok ino =>
      refine tabAsk ⟨rfl,.inl rfl⟩ fun _ _ => tabAsk (.inl rfl) fun (res : Int) _ => ?_
      change Keeps tabRule last _ (Tab.after ⟨some ino,some ino,forgets,release,file⟩ (.reply 0) res)
      by_cases gone : res = -enoent
      · have stays : Tab.after ⟨some ino,some ino,forgets,release,file⟩
            (.reply 0) res = ⟨some ino,some ino,forgets,release,file⟩ :=
          if_neg fun both => both.2 gone
        have closed :
          Tab.closed ⟨some ino,some ino,forgets,release,file⟩ ino = ⟨some ino,none,forgets,release,file⟩ := if_pos rfl
        have forgot : Tab.after ⟨some ino,none,forgets,release,file⟩ (.forgetNode ino 1)
          () = ⟨none,none,forgets,release,file⟩ := if_pos rfl
        rw [stays,if_pos gone]
        refine Keeps.bind (tabDoRelease ino _ (.inl rfl) fun _ => ?_)
        rw [closed]
        refine tabAsk ((if_pos rfl).mpr ⟨rfl,rfl⟩) fun _ _ => ?_
        rw [forgot]
        exact Only.tab (onlyAsk rfl) done
      · have handed :
            Tab.after ⟨some ino,some ino,forgets,release,file⟩ (.reply 0) res = ⟨none,none,forgets,release,file⟩ :=
          if_pos ⟨rfl,gone⟩
        rw [handed,if_neg gone]
        exact Only.tab (onlyAsk rfl) done

theorem tabFuseLibRelease (ino : Ino) (flush : Bool) (blank : t.blank) (release : t.release = some ino)
    (done : ∀ a, last a {t with release := none}) : Keeps tabRule last (fuseLibRelease conf ino flush) t := by
  refine (calmOrNull ino).thenTab fun held => Only.thenTab ?_ fun err => ?_
  · split
    · exact (minorFlush ino _).calm
    · trivial
  · obtain ⟨_,_,forgets,_,file⟩ := t
    obtain ⟨rfl,rfl⟩ := blank
    cases release
    refine Keeps.bind (tabDoRelease ino _ (.inr rfl) fun _ => ?_)
    rw [closedRelease (Option.some_ne_none ino).symm]
    exact (calmFree held).thenTab fun _ => (calmReply _).tabBlank ⟨rfl,rfl⟩ done

/-! Requests that give lookups back. -/

theorem mayForget {nlookup : Nat} (other : t.entry ≠ some ino) (mem : (ino,nlookup) ∈ t.forgets) :
    t.may (.forgetNode ino nlookup) := by
  rw [Tab.may,if_neg other]
  exact mem

theorem afterForget {nlookup : Nat} (other : t.entry ≠ some ino) (r : Unit) :
    t.after (.forgetNode ino nlookup) r = {t with forgets := t.forgets.erase (ino,nlookup)} := if_neg other

theorem tabDoForgets {release file : Option Ino} (forgets : List (Ino × Nat))
    (done : last () ⟨none,none,[],release,file⟩) :
    Keeps tabRule last (doForgets forgets) ⟨none,none,forgets,release,file⟩ := by
  induction forgets with
  | nil => exact done
  | cons forget rest ih =>
    have apart := (Option.some_ne_none forget.1).symm
    refine tabAsk (mayForget apart List.mem_cons_self) fun _ _ => ?_
    rw [afterForget apart,List.erase_cons_head]
    exact ih

/-! All requests. READDIRPLUS takes lookups that its entries tell of, and is left out. -/

def Request.lists : Request → Bool
  | .readdir _ _ _ _ during late => during ≠ [] || late ≠ []
  | _ => false

def Request.counts : Request → Bool
  | .lookup .. | .forget .. | .forgetMulti _ | .mknod .. | .mkdir .. | .symlink .. | .link .. | .create
      .. | .openFile _ | .release .. => true
  | _ => false

theorem mildRequest (request : Request) (lists : request.lists = false) (counts : request.counts = false) :
    Only Instr.mild (request.script conf) := by
  have path : ∀ want : Want, Only Instr.calm (ask (.getPath want)) := fun want => onlyAsk rfl
  have path2 : ∀ want1 want2 : Want, Only Instr.calm (ask (.getPath2 want1 want2)) := fun want1 want2 => onlyAsk rfl
  have answered : ∀ (ino : Ino) (err : Int), Only Instr.mild (if err = 0 then do
      ask (.getNode ino)
      replyErr 0
    else replyErr err) := by
    intro ino err
    split
    · exact Only.bind (onlyAsk rfl) fun _ => calmReply 0
    · exact calmReply err
  cases request with
  | lookup | forget | forgetMulti | mknod | mkdir | symlink | link | create | openFile | release => cases counts
  | getattr fi ino => exact (calmWithPath _ _ _).mild.bind (answered ino)
  | setlk ino => exact (calmWithPath _ _ _).mild.bind (answered ino)
  | getlk ino conflict =>
    refine Only.bind (onlyAsk rfl) fun _ => ?_
    split
    · exact calmReply 0
    · exact mildPathRequest _ _ _
  | unlink parent name =>
    refine (path _).mild.bind fun r => ?_
    cases r with
    | error err => exact calmReply err
    | ok held => exact (minorUnlink _ _ _).calm.mild.bind fun err => Only.bind (onlyAsk rfl) fun _ => calmReply err
  | rmdir parent name =>
    refine (path _).mild.bind fun r => ?_
    cases r with
    | error err => exact calmReply err
    | ok held =>
      refine (minorFs _ _).calm.mild.bind fun err => ?_
      split
      · exact Only.bind (onlyAsk rfl) fun _ => Only.bind (onlyAsk rfl) fun _ => calmReply 0
      · exact Only.bind (onlyAsk rfl) fun _ => calmReply err
  | rename olddir oldname newdir newname exchange =>
    refine (path2 _ _).mild.bind fun r => ?_
    cases r with
    | error err => exact calmReply err
    | ok held => exact (minorRename _ _ _ _ _ _ _).calm.mild.bind fun err =>
        Only.bind (onlyAsk rfl) fun _ => calmReply err
  | flush ino =>
    refine (calmOrNull ino).mild.bind fun held => (minorFlush ino _).calm.mild.bind fun err => ?_
    exact (calmFree held).mild.bind fun _ => calmReply err
  | releasedir ino =>
    refine (calmOrNull ino).mild.bind fun held => (minorFs _ _).calm.mild.bind fun _ => ?_
    exact (calmFree held).mild.bind fun _ => calmReply 0
  | opendir ino allocated =>
    change Only Instr.mild (fuseLibOpendir ino allocated)
    unfold fuseLibOpendir
    split
    · refine (path _).mild.bind fun r => ?_
      cases r with
      | error err => exact calmReply err
      | ok held =>
        refine (minorFs _ _).calm.mild.bind fun err => Only.bind (onlyAsk rfl) fun res => ?_
        split
        · exact (minorFs _ _).calm.mild.bind fun _ => onlyAsk rfl
        · exact onlyAsk rfl
    · exact calmReply _
  | readdir nullok ino nodeid filled during late =>
    simp only [Request.lists,Bool.or_eq_false_iff,decide_eq_false_iff_not,ne_eq,not_not] at lists
    obtain ⟨rfl,rfl⟩ := lists
    change Only Instr.mild (fuseReaddirCommon _ ino nodeid filled [] [])
    unfold fuseReaddirCommon
    split
    · exact calmReply 0
    · refine (calmMaybe _ ino).mild.bind fun r => ?_
      cases r with
      | error err => exact calmReply err
      | ok held =>
        have nothing : Only Instr.mild (doLookups nodeid []) := trivial
        refine nothing.bind fun _ => (minorFs _ _).calm.mild.bind fun err => (calmFree held).mild.bind fun _ => ?_
        split
        · exact calmReply 0
        · exact calmReply err
  | statfs ino =>
    change Only Instr.mild (fuseLibStatfs ino)
    unfold fuseLibStatfs
    split
    · exact (minorFs _ _).calm.mild.bind calmReply
    · exact mildPathRequest _ _ _
  | getxattr ino allocated =>
    change Only Instr.mild (fuseLibGetxattr ino allocated)
    unfold fuseLibGetxattr
    split
    · exact mildPathRequest _ _ _
    · exact calmReply _
  | listxattr ino allocated =>
    change Only Instr.mild (fuseLibListxattr ino allocated)
    unfold fuseLibListxattr
    split
    · exact mildPathRequest _ _ _
    · exact calmReply _
  | ioctl ino unrestricted allocated =>
    change Only Instr.mild (fuseLibIoctl conf ino unrestricted allocated)
    unfold fuseLibIoctl
    split
    · exact calmReply _
    · split
      · exact mildPathRequest _ _ _
      · exact calmReply _
  | copyFileRange nodeidIn nodeidOut =>
    refine (calmNullok nodeidIn).mild.bind fun r => ?_
    cases r with
    | error err => exact calmReply err
    | ok pathIn =>
      refine (calmNullok nodeidOut).mild.bind fun r => ?_
      cases r with
      | error err => exact (calmFree pathIn).mild.bind fun _ => calmReply err
      | ok pathOut =>
        refine Only.bind (onlyAsk rfl) fun res => (calmReply _).bind fun _ => ?_
        exact (calmFree pathIn).mild.bind fun _ => (calmFree pathOut).mild
  | _ => exact mildPathRequest _ _ _

theorem requestTab (request : Request) (lists : request.lists = false) :
    Keeps tabRule (fun _ t => t.clear) (request.script conf) request.tab := by
  have clear : ∀ (_ : Unit), Tab.clear ⟨none,none,[],none,none⟩ := fun _ => ⟨rfl,rfl,rfl,rfl⟩
  cases counts : request.counts with
  | false =>
    have mild := @mildRequest conf request lists counts
    have none : request.tab = ⟨none,none,[],none,none⟩ := by
      cases request <;> first | rfl | cases counts
    rw [none]
    exact mild.tabBlank ⟨rfl,rfl⟩ clear
  | true =>
    cases request with
    | lookup negative parent name => exact tabFuseLibLookup _ _ _ ⟨rfl,rfl⟩ clear
    | forget ino nlookup => exact Keeps.bind (tabDoForgets [(ino,nlookup)] ((calmReply 0).tabBlank ⟨rfl,rfl⟩ clear))
    | forgetMulti forgets => exact Keeps.bind (tabDoForgets forgets ((calmReply 0).tabBlank ⟨rfl,rfl⟩ clear))
    | mknod parent name regular => exact tabFuseLibMknod _ _ _ ⟨rfl,rfl⟩ clear
    | mkdir parent name => exact tabMakeEntry _ _ _ ⟨rfl,rfl⟩ clear
    | symlink parent name => exact tabMakeEntry _ _ _ ⟨rfl,rfl⟩ clear
    | link ino newparent newname => exact tabFuseLibLink _ _ _ ⟨rfl,rfl⟩ clear
    | create parent name regular => exact tabFuseLibCreate _ _ ⟨rfl,rfl⟩ clear
    | openFile ino => exact tabFuseLibOpen ino ⟨rfl,rfl⟩ rfl fun _ => ⟨rfl,rfl,rfl,rfl⟩
    | release ino flushes => exact tabFuseLibRelease ino flushes ⟨rfl,rfl⟩ rfl fun _ => ⟨rfl,rfl,rfl,rfl⟩
    | _ => cases counts

end FuseStudy.NodeStore
