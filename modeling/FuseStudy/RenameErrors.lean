import FuseStudy.PinnedNodes

/-! Renames that end in an error. Up to the first rename that the file system is asked for, only
locks and counters have changed; when that one fails too nothing else ever does. -/
namespace FuseStudy.NodeStore
open CString LinearHash Script

variable {s s' s₂ : Fuse} {p : Ptr} {n : Node} {want : Want} {i : Instr} {answers : List Int}

def Node.unlocked (n : Node) : Node := {n with treelock := 0}

/- The nodes differ in their locks, and nothing that is looked up differs. -/
structure LocksOnly (s s' : Fuse) : Prop where
  nodes : ∀ p, (s'.heap p).map Node.unlocked = (s.heap p).map Node.unlocked
  names : s'.nameTable = s.nameTable
  ids : s'.idTable = s.idTable
  conf : s'.conf = s.conf

theorem LocksOnly.refl (s : Fuse) : LocksOnly s s := ⟨fun _ => rfl,rfl,rfl,rfl⟩

theorem LocksOnly.trans (first : LocksOnly s s') (second : LocksOnly s' s₂) : LocksOnly s s₂ :=
  ⟨fun p => (second.nodes p).trans (first.nodes p),second.names.trans first.names,second.ids.trans first.ids,
    second.conf.trans first.conf⟩

theorem LocksOnly.still (heap : s'.heap = s.heap) (names : s'.nameTable = s.nameTable) (ids : s'.idTable = s.idTable)
    (conf : s'.conf = s.conf) : LocksOnly s s' :=
  ⟨fun p => by rw [heap],names,ids,conf⟩

theorem LocksOnly.put (live : s.heap p = some n) (lock : Int) : LocksOnly s (s.put p {n with treelock := lock}) := by
  refine ⟨fun q => ?_,rfl,rfl,rfl⟩
  by_cases same : q = p
  · subst same
    rw [putSelf,live]
    rfl
  · rw [putOther same]

/-! The table of names and the ids, as others see them. -/

def Fuse.binding (s : Fuse) (dir : Ino) (name : Name) : Option Ino :=
  ((s.lookupNode dir name).bind s.heap).map Node.nodeid

def Fuse.hides (s : Fuse) (ino : Ino) : Bool := ((s.getNodeNocheck ino).bind s.heap).any Node.isHidden

theorem LocksOnly.field {α : Type} (only : LocksOnly s s') (f : Node → α)
    (blind : ∀ n : Node, f n.unlocked = f n) (p : Ptr) :
    (s'.heap p).map f = (s.heap p).map f := by
  have through : ∀ o : Option Node, o.map f = (o.map Node.unlocked).map f := by
    intro o
    cases o with
    | none => rfl
    | some n => exact congrArg some (blind n).symm
  rw [through,only.nodes p,← through]

theorem LocksOnly.entry (only : LocksOnly s s') : s'.entry = s.entry := by
  funext p
  have above := fun r => only.field Node.nodeid (fun _ => rfl) r
  have own := only.field (fun n => (n.name,n.parent)) (fun _ => rfl) p
  have split : ∀ heap : Ptr → Option Node,
    entryOf heap p = ((heap p).map fun n => (n.name,n.parent)).bind fun e => e.1.bind fun name =>
      e.2.bind fun r => ((heap r).map Node.nodeid).bind fun i => some (i,name) := by
    intro heap
    rw [entryViaId]
    cases heap p <;> rfl
  change entryOf s'.heap p = entryOf s.heap p
  rw [split,split,own]
  simp only [above]

theorem LocksOnly.lookup (only : LocksOnly s s') (dir : Ino) (name : Name) :
    s'.lookupNode dir name = s.lookupNode dir name := by
  simp only [Fuse.lookupNode,only.names,only.entry]

theorem LocksOnly.binding (only : LocksOnly s s') (dir : Ino) (name : Name) :
    s'.binding dir name = s.binding dir name := by
  unfold Fuse.binding
  rw [only.lookup]
  cases s.lookupNode dir name with
  | none => rfl
  | some p => exact only.field Node.nodeid (fun _ => rfl) p

theorem LocksOnly.hides (only : LocksOnly s s') (ino : Ino) : s'.hides ino = s.hides ino := by
  have found : s'.getNodeNocheck ino = s.getNodeNocheck ino := by
    simp only [Fuse.getNodeNocheck,only.ids,only.field Node.nodeid (fun _ => rfl)]
  unfold Fuse.hides
  rw [found]
  cases s.getNodeNocheck ino with
  | none => rfl
  | some p =>
    have flag := only.field Node.isHidden (fun _ => rfl) p
    have any : ∀ o : Option Node, o.any Node.isHidden = (o.map Node.isHidden).getD false := by
      intro o
      cases o <;> rfl
    simp only [Option.bind_some,any,flag]

/-! Paths are taken and given back. -/

theorem addNameLocks (bufsize : Nat) (path name : Bytes) : LocksOnly s (s.addName bufsize path name).1 := by
  unfold Fuse.addName
  dsimp only
  split <;> exact .still rfl rfl rfl rfl

theorem startBufLocks (name : Option Name) : LocksOnly s (s.startBuf name).1 := by
  cases name with
  | none => exact .refl s
  | some name => exact addNameLocks 256 [] name

theorem unlockLoopLocks (fuel : Nat) {node stop : Option Ptr} (ran : unlockLoop fuel s node stop = .ok s') :
    LocksOnly s s' := by
  induction fuel generalizing s node with
  | zero => cases ran
  | succ fuel ih =>
    unfold unlockLoop at ran
    split at ran
    · cases ran
      exact .refl _
    · split at ran
      · cases ran
      · obtain ⟨n,deref,ran⟩ := callBind ran
        split at ran
        · cases ran
          exact .refl _
        · split at ran
          · cases ran
          · exact (LocksOnly.put (derefLive deref) _).trans (ih ran)

theorem unlockPathLocks {nodeid : Ino} {wnode stop : Option Ptr}
    (ran : s.unlockPath nodeid wnode stop = .ok s') : LocksOnly s s' := by
  have loop : ∀ s₁ : Fuse,
      (s₁.getNode nodeid).bind (fun p => unlockLoop (s₁.brk + 1) s₁ (some p) stop) = .ok s' → LocksOnly s₁ s' := by
    intro s₁ ran
    obtain ⟨p,_,ran⟩ := callBind ran
    exact unlockLoopLocks _ ran
  unfold Fuse.unlockPath at ran
  cases wnode with
  | none => exact loop s ran
  | some w =>
    obtain ⟨n,deref,ran⟩ := callBind ran
    split at ran
    · cases ran
    · exact (LocksOnly.put (derefLive deref) 0).trans (loop _ ran)

theorem walkPathLocks (needLock : Bool) (fuel : Nat) {bufsize : Nat} {path : Bytes} {r : Except (Int × Ptr) Bytes}
    (ran : walkPath needLock fuel s p bufsize path = .ok (s',r)) : LocksOnly s s' := by
  induction fuel generalizing s p bufsize path with
  | zero => cases ran
  | succ fuel ih =>
    unfold walkPath at ran
    obtain ⟨n,deref,ran⟩ := callBind ran
    split at ran
    · cases ran
      exact .refl _
    · split at ran
      · next name parent _ _ =>
        obtain ⟨memory,added⟩ := addNameSpec s bufsize path name
        have grown : LocksOnly s {s with memory := memory} := .still rfl rfl rfl rfl
        rcases added with failed | ⟨size,added⟩
        · rw [failed] at ran
          cases ran
          exact grown
        · rw [added] at ran
          dsimp only at ran
          split at ran
          · split at ran
            · cases ran
              exact grown
            · have live : ({s with memory := memory} : Fuse).heap p = some n := derefLive deref
              exact (grown.trans (LocksOnly.put live _)).trans (ih ran)
          · exact grown.trans (ih ran)
      · cases ran
        exact .refl _

theorem lockWnodeLocks {r : Option (Option Ptr)} (ran : s.lockWnode want = .ok (s',r)) : LocksOnly s s' := by
  unfold Fuse.lockWnode at ran
  split at ran
  · cases ran
    exact .refl _
  · cases ran
  · split at ran
    · cases ran
      exact .refl _
    · obtain ⟨n,deref,ran⟩ := callBind ran
      have live := derefLive deref
      split at ran
      · cases ran
        split
        · exact LocksOnly.put live _
        · exact .refl _
      · cases ran
        exact LocksOnly.put live _

theorem tryGetPathLocks {needLock : Bool} {r : Except Int Held}
    (ran : s.tryGetPath want needLock = .ok (s',r)) : LocksOnly s s' := by
  have taken : LocksOnly s {s with memory := fun i => s.memory (i+1)} := .still rfl rfl rfl rfl
  unfold Fuse.tryGetPath Fuse.takeMem at ran
  dsimp only at ran
  split at ran
  · cases ran
    exact taken
  · have begun := startBufLocks (s := {s with memory := fun i => s.memory (i+1)}) want.name
    split at ran
    · next s₁ is =>
      rw [is] at begun
      cases ran
      exact taken.trans begun
    · next s₁ bufsize path is =>
      rw [is] at begun
      replace begun := taken.trans begun
      split at ran
      · cases ran
      · obtain ⟨⟨s₂,wnode⟩,locked,ran⟩ := callBind ran
        replace begun := begun.trans (lockWnodeLocks locked)
        dsimp only at ran
        cases wnode with
        | none =>
          cases ran
          exact begun
        | some wnode =>
          obtain ⟨p,_,ran⟩ := callBind ran
          obtain ⟨⟨s₃,walked⟩,walks,ran⟩ := callBind ran
          replace begun := begun.trans (walkPathLocks needLock _ walks)
          dsimp only at ran
          cases walked with
          | ok path =>
            cases ran
            exact begun
          | error stop =>
            obtain ⟨err,stopped⟩ := stop
            dsimp only at ran
            split at ran
            · obtain ⟨s₄,undone,ran⟩ := callBind ran
              cases ran
              exact begun.trans (unlockPathLocks undone)
            · cases ran
              exact begun

theorem tryGetPath2Locks {want1 want2 : Want} {r : Except Int (Held × Held)}
    (ran : s.tryGetPath2 want1 want2 = .ok (s',r)) :
    LocksOnly s s' := by
  unfold Fuse.tryGetPath2 at ran
  obtain ⟨⟨s₁,first⟩,tried,ran⟩ := callBind ran
  have begun := tryGetPathLocks tried
  dsimp only at ran
  cases first with
  | error err =>
    cases ran
    exact begun
  | ok held1 =>
    obtain ⟨⟨s₂,second⟩,tried,ran⟩ := callBind ran
    replace begun := begun.trans (tryGetPathLocks tried)
    dsimp only at ran
    cases second with
    | ok held2 =>
      cases ran
      exact begun
    | error err =>
      obtain ⟨s₃,undone,ran⟩ := callBind ran
      cases ran
      exact begun.trans (unlockPathLocks undone)

theorem peekPathLocks {ino : Ino} {name : Option Name} {r : Except Int Bytes}
    (ran : s.peekPath ino name = .ok (s',r)) : LocksOnly s s' := by
  obtain ⟨⟨s₁,tried⟩,result,ran⟩ := callBind ran
  cases ran
  exact tryGetPathLocks result

theorem hiddenLoopLocks {dir nodeid : Ino} {name : Name} (fuel : Nat)
    (ran : hiddenLoop dir nodeid fuel s = .ok (s',name)) :
    LocksOnly s s' := by
  induction fuel generalizing s with
  | zero => cases ran
  | succ fuel ih =>
    unfold hiddenLoop at ran
    dsimp only at ran
    have counted : LocksOnly s {s with hidectr := (s.hidectr + 1) % 2 ^ 32} := .still rfl rfl rfl rfl
    split at ran
    · exact counted.trans (ih ran)
    · cases ran
      exact counted

theorem hiddenNameLocks {dir : Ino} {oldname : Name} {r : Option (Name × Except Int Bytes)}
    (ran : s.hiddenName dir oldname = .ok (s',r)) :
    LocksOnly s s' := by
  unfold Fuse.hiddenName at ran
  split at ran
  · cases ran
    exact .refl _
  · obtain ⟨n,_,ran⟩ := callBind ran
    obtain ⟨⟨s₁,newname⟩,named,ran⟩ := callBind ran
    obtain ⟨⟨s₂,path⟩,peeked,ran⟩ := callBind ran
    cases ran
    exact (hiddenLoopLocks _ named).trans (peekPathLocks peeked)

def Instr.locks : Instr → Bool
  | .getPath2 .. | .freePath2 .. | .isOpen .. | .hiddenName .. | .callback .. | .reply _ => true
  | _ => false

theorem execLocks {answer : Int} {r : Option i.Result} (locks : i.locks = true)
    (ran : s.exec answer i = .ok (s',r)) : LocksOnly s s' := by
  cases i with
  | getPath2 want1 want2 =>
    obtain ⟨⟨s₁,tried⟩,result,ran⟩ := callBind ran
    cases ran
    exact tryGetPath2Locks result
  | freePath2 held1 held2 =>
    obtain ⟨s₁,first,ran⟩ := callBind ran
    obtain ⟨s₂,second,ran⟩ := callBind ran
    cases ran
    exact (unlockPathLocks first).trans (unlockPathLocks second)
  | isOpen dir name =>
    obtain ⟨open_,_,ran⟩ := callBind ran
    cases ran
    exact .refl _
  | hiddenName dir oldname =>
    obtain ⟨⟨s₁,found⟩,named,ran⟩ := callBind ran
    cases ran
    exact hiddenNameLocks named
  | callback op path path2 =>
    cases ran
    exact .refl _
  | reply err =>
    cases ran
    exact .refl _
  | _ => cases locks

/-! A request by itself. -/

structure RenameCall where
  oldpath : Option Bytes
  newpath : Option Bytes
  result : Int
  deriving DecidableEq

/- The renames that the file system was asked for, in order, and the answer to the request. -/
structure Served where
  fuse : Fuse
  renames : List RenameCall
  reply : Option Int

def Served.note (v : Served) : (i : Instr) → i.Result → Served
  | .callback .rename path path2, res => {v with renames := v.renames ++ [⟨path,path2,res⟩]}
  | .reply err, _ => {v with reply := some err}
  | _, _ => v

/- Each instruction takes one answer of the file system; nothing comes of a request that has to
wait. -/
def serve : Prog Unit → List Int → Served → Except Fault (Option Served)
  | .done _, _, v => .ok (some v)
  | .act i next, answers, v => do
    let (s,r) ← v.fuse.exec (answers.headD 0) i
    match r with
    | none => .ok none
    | some r => serve (next r) answers.tail ({v with fuse := s}.note i r)

/- The situation of a rename is the answer to its first rename. -/
def firstRename (g : Option Int) : (i : Instr) → i.Result → Option Int
  | .callback .rename .., res => g.or (some res)
  | _, _ => g

def renameRule : Discipline Instr Instr.Result (Option Int) where
  may g i := match i with
    | .callback .rename .. => g = none ∨ g = some 0
    | .renameNode .. | .exchangeNode .. => g = some 0
    | i => i.locks = true
  after g i r g' := g' = firstRename g i r

variable {g : Option Int} {conf : Conf} {v w : Served} {olddir newdir : Ino} {oldname newname : Name} {exchange : Bool}

theorem renameAsk {α : Type} {post : α → Option Int → Prop} {f : i.Result → Prog α} (may : renameRule.may g i)
    (rest : ∀ r, Keeps renameRule post (f r) (firstRename g i r)) : Keeps renameRule post (ask i >>= f) g := by
  refine ⟨may,?_⟩
  rintro r _ rfl
  exact rest r

theorem hiddenNameRenames (failctr : Nat) {post : Option (Name × Bytes) → Option Int → Prop} (dir : Ino) (name : Name)
    (found : ∀ r, post r g) : Keeps renameRule post (hiddenName failctr dir name) g := by
  induction failctr with
  | zero => exact found none
  | succ failctr ih =>
    refine renameAsk (i := .hiddenName dir name) rfl fun r => ?_
    match r with
    | .none => exact found none
    | some (_,.error _) => exact found none
    | some (newname,.ok newpath) =>
      refine renameAsk (i := .callback .getattr (some newpath) none) rfl fun res => ?_
      split
      · exact found _
      · split
        · exact ih
        · exact found none

theorem hideNodeRenames (path : Bytes) (dir : Ino) (name : Name) :
    Keeps renameRule (fun err g => err = 0 → g = some 0) (hideNode path dir name) none := by
  refine Keeps.bind (hiddenNameRenames 10 dir name fun r => ?_)
  match r with
  | .none => exact fun no => absurd no (by decide)
  | some (newname,newpath) =>
    refine renameAsk (i := .callback .rename (some path) (some newpath)) (.inl rfl) fun err => ?_
    split
    · next done =>
      subst done
      exact ⟨rfl,fun _ _ after => fun _ => after⟩
    · next failed => exact fun no => absurd no failed

theorem renameLockedRenames (oldpath newpath : Bytes) :
    Keeps renameRule (fun _ _ => True)
      (renameLocked conf olddir oldname newdir newname exchange oldpath newpath) none := by
  have asked : Keeps renameRule (fun _ g => g = none)
      (if exchange then pure false else isOpenSoft conf newdir newname) none := by
    split
    · rfl
    · unfold isOpenSoft
      split
      · rfl
      · exact ⟨rfl,fun _ _ after => after⟩
  refine Keeps.bind (asked.imp fun isopen g none => ?_)
  subst none
  have hidden : Keeps renameRule (fun err g => err = 0 → g = none ∨ g = some 0)
      (if isopen then hideNode newpath newdir newname else pure 0) none := by
    split
    · exact (hideNodeRenames newpath newdir newname).imp fun err g done zero => .inr (done zero)
    · exact fun _ => .inl rfl
  refine Keeps.bind (hidden.imp fun err g ready => ?_)
  split
  · next done =>
    refine renameAsk (i := .callback .rename (some oldpath) (some newpath)) (ready done) fun err => ?_
    split
    · next moved =>
      subst moved
      have first : g.or (some 0) = some 0 := by
        rcases ready done with rfl | rfl <;> rfl
      split
      · exact ⟨first,fun _ _ _ => trivial⟩
      · exact ⟨first,fun _ _ _ => trivial⟩
    · trivial
  · trivial

theorem fuseLibRenameRenames :
    Keeps renameRule (fun _ _ => True) (fuseLibRename conf olddir oldname newdir newname exchange) none := by
  refine renameAsk (i := .getPath2 ⟨olddir,some oldname,true⟩ ⟨newdir,some newname,true⟩) rfl fun r => ?_
  cases r with
  | error err => exact ⟨rfl,fun _ _ _ => trivial⟩
  | ok held =>
    refine Keeps.bind ((renameLockedRenames held.1.path held.2.path).imp fun err g _ => ?_)
    refine renameAsk (i := .freePath2 held.1 held.2) rfl fun _ => ?_
    exact ⟨rfl,fun _ _ _ => trivial⟩

/- What is known of a rename as long as its first rename has not succeeded. -/
structure Unrenamed (s : Fuse) (v : Served) (g : Option Int) : Prop where
  first : v.renames.head?.map RenameCall.result = g
  still : g ≠ some 0 → LocksOnly s v.fuse ∧ ∀ call ∈ v.renames, call.result ≠ 0

theorem Unrenamed.quiet {answer : Int} (fits : Unrenamed s v g) (locks : i.locks = true) {r : Option i.Result}
    (ran : v.fuse.exec answer i = .ok (s',r)) (reply : Option Int) : Unrenamed s ⟨s',v.renames,reply⟩ g :=
  ⟨fits.first,fun going => ⟨(fits.still going).1.trans (execLocks locks ran),(fits.still going).2⟩⟩

theorem stepUnrenamed {r : i.Result} {g' : Option Int} {answer : Int} (fits : Unrenamed s v g)
    (may : renameRule.may g i) (ran : v.fuse.exec answer i = .ok (s',some r))
    (after : renameRule.after g i r g') :
    Unrenamed s (({v with fuse := s'} : Served).note i r) g' := by
  cases i with
  | callback op path path2 =>
    cases op with
    | rename =>
      have asked : g = none ∨ g = some 0 := may
      have next : g' = g.or (some r) := after
      subst next
      have moves : LocksOnly v.fuse s' := execLocks (i := .callback .rename path path2) rfl ran
      refine Unrenamed.mk ?_ fun going => ?_
      · change (v.renames ++ [RenameCall.mk path path2 r]).head?.map RenameCall.result = _
        rw [List.head?_append,← fits.first]
        cases v.renames.head? <;> rfl
      · rcases asked with none | zero
        · subst none
          obtain ⟨only,earlier⟩ := fits.still fun no => by cases no
          refine And.intro (only.trans moves) fun call mem => ?_
          rcases List.mem_append.mp mem with old | new
          · exact earlier call old
          · rw [List.mem_singleton.mp new]
            exact fun zero => going (congrArg some zero)
        · subst zero
          exact absurd rfl going
    | _ =>
      cases after
      exact fits.quiet rfl ran _
  | renameNode olddir oldname newdir newname hide =>
    cases after
    exact ⟨fits.first,fun going => absurd may going⟩
  | exchangeNode olddir oldname newdir newname =>
    cases after
    exact ⟨fits.first,fun going => absurd may going⟩
  | getPath2 want1 want2 =>
    cases after
    exact fits.quiet may ran _
  | freePath2 held1 held2 =>
    cases after
    exact fits.quiet may ran _
  | isOpen dir name =>
    cases after
    exact fits.quiet may ran _
  | hiddenName dir name =>
    cases after
    exact fits.quiet may ran _
  | reply err =>
    cases after
    exact fits.quiet may ran _
  | _ => cases may

theorem serveUnrenamed {prog : Prog Unit} {answers : List Int}
    (keeps : Keeps renameRule (fun _ _ => True) prog g) (fits : Unrenamed s v g)
    (ran : serve prog answers v = .ok (some w)) : ∃ g, Unrenamed s w g := by
  induction prog generalizing v g answers with
  | done a =>
    cases ran
    exact ⟨g,fits⟩
  | act i next ih =>
    obtain ⟨may,rest⟩ := keeps
    rw [serve] at ran
    obtain ⟨⟨s₁,r⟩,step,ran⟩ := callBind ran
    cases r with
    | none => cases ran
    | some r => exact ih r (rest r _ rfl) (stepUnrenamed fits may step rfl) ran

/- The names and the hidden files are as before, and the file system has renamed nothing. -/
structure Served.unmoved (s : Fuse) (v : Served) : Prop where
  bindings : ∀ dir name, v.fuse.binding dir name = s.binding dir name
  hidden : ∀ ino, v.fuse.hides ino = s.hides ino
  renamed : ∀ call ∈ v.renames, call.result ≠ 0

def Served.fails (v : Served) : Prop := ∃ err, v.reply = some err ∧ err ≠ 0

/- A rename that fails leaves everything as it was just if its first rename was refused: that of
the file in its way to a hidden name, or else its own. -/
theorem failedRenamesUnmoved
    (ran : serve (fuseLibRename conf olddir oldname newdir newname exchange) answers ⟨s,[],none⟩ = .ok (some v)) :
    (v.fails → v.unmoved s) ↔ (v.fails → ∀ call, v.renames.head? = some call → call.result ≠ 0) := by
  constructor
  · intro atomic fails call first
    exact (atomic fails).renamed call (List.mem_of_head? first)
  · intro refused fails
    have start : Unrenamed s ⟨s,[],none⟩ none := ⟨rfl,fun _ => ⟨.refl s,fun call no => absurd no List.not_mem_nil⟩⟩
    obtain ⟨g,fits⟩ := serveUnrenamed fuseLibRenameRenames start ran
    have going : g ≠ some 0 := by
      rw [← fits.first]
      intro zero
      obtain ⟨call,first,result⟩ := Option.map_eq_some_iff.mp zero
      exact refused fails call first result
    obtain ⟨only,renamed⟩ := fits.still going
    exact ⟨only.binding,only.hides,renamed⟩

def servedSo (check : Served → Bool) (run : Except Fault (Option Served)) : Bool :=
  run.toOption.any fun v => v.any check

theorem servedIs {check : Served → Bool} {run : Except Fault (Option Served)} (passes : servedSo check run = true) :
    ∃ v, run = .ok (some v) ∧ check v = true := by
  obtain ⟨v,result,passes⟩ := ranSo passes
  cases v with
  | none => cases passes
  | some v => exact ⟨v,result,passes⟩

/- The one rename of an empty file system is refused. -/
theorem refusedRenameUnmoved :
    ∃ v, serve (fuseLibRename ⟨0,false,false⟩ 1 (ascii "a") 1 (ascii "b") false) [0,0,-13,0,0]
      ⟨fuseNew ⟨0,false,false⟩ fun _ => true,[],none⟩ = .ok (some v) ∧ v.fails ∧
        v.unmoved (fuseNew ⟨0,false,false⟩ fun _ => true) := by
  have passes :
    servedSo (fun v => decide (v.reply = some (-13)) && decide (v.renames.head?.map RenameCall.result = some (-13)))
      (serve (fuseLibRename ⟨0,false,false⟩ 1 (ascii "a") 1 (ascii "b") false) [0,0,-13,0,0]
        ⟨fuseNew ⟨0,false,false⟩ fun _ => true,[],none⟩) =
      true := by
    decide +kernel
  obtain ⟨v,ran,passes⟩ := servedIs passes
  simp only [Bool.and_eq_true,decide_eq_true_eq] at passes
  have fails : v.fails := ⟨-13,passes.1,by decide⟩
  refine ⟨v,ran,fails,(failedRenamesUnmoved ran).mpr (fun _ call first => ?_) fails⟩
  have result := passes.2
  rw [first] at result
  rw [Option.some.inj result]
  decide

def openTarget : List Action :=
  .arrive (.lookup false 1 (ascii "b")) :: List.replicate 5 (.run 0 0) ++ .arrive
    (.openFile 2) :: List.replicate 5 (.run 1 0)

/- It is hidden, and then the rename itself is refused. -/
theorem hiddenForNothing : ∃ y v, Reachable ⟨0,false,false⟩ (fun _ => true) y ∧
    serve (fuseLibRename ⟨0,false,false⟩ 1 (ascii "a") 1 (ascii "b") false)
      [0,0,0,-2,0,0,-13,0,0] ⟨y.fuse,[],none⟩ = .ok (some v) ∧
    v.fails ∧ y.fuse.binding 1 (ascii "b") = some 2 ∧ v.fuse.binding 1 (ascii "b") = none ∧
      y.fuse.hides 2 = false ∧ v.fuse.hides 2 = true ∧
    ∃ call ∈ v.renames, call.result = 0 := by
  have passes : ((Sys.start ⟨0,false,false⟩ fun _ => true).legal openTarget &&
      ((Sys.start ⟨0,false,false⟩ fun _ => true).steps openTarget).toOption.any (fun y =>
        decide (y.fuse.binding 1 (ascii "b") = some 2) && !y.fuse.hides 2 &&
        servedSo (fun v =>
          decide (v.reply = some (-13)) && decide (v.fuse.binding 1 (ascii "b") = none) && v.fuse.hides 2 &&
          v.renames.any fun call => decide (call.result = 0))
          (serve (fuseLibRename ⟨0,false,false⟩ 1 (ascii "a") 1 (ascii "b") false) [0,0,0,-2,0,0,-13,0,0]
            ⟨y.fuse,[],none⟩))) = true := by
    decide +kernel
  rw [Bool.and_eq_true] at passes
  obtain ⟨legal,passes⟩ := passes
  obtain ⟨y,result,passes⟩ := ranSo passes
  simp only [Bool.and_eq_true,Bool.not_eq_true',decide_eq_true_eq] at passes
  obtain ⟨⟨bound,shown⟩,passes⟩ := passes
  obtain ⟨v,ran,passes⟩ := servedIs passes
  simp only [Bool.and_eq_true,decide_eq_true_eq] at passes
  obtain ⟨⟨⟨reply,unbound⟩,hides⟩,renamed⟩ := passes
  obtain ⟨call,mem,zero⟩ := List.any_eq_true.mp renamed
  exact ⟨y,v,stepsReachable .start legal result,ran,⟨-13,reply,by decide⟩,bound,unbound,shown,hides,call,
    mem,of_decide_eq_true zero⟩

end FuseStudy.NodeStore
