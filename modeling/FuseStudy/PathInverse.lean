import FuseStudy.PathBytes
import Mathlib.Data.List.TakeWhile

/-! lookup_path_in_cache and try_get_path undo each other: a path is cut into its elements,
and the elements lead down from the root. -/
namespace FuseStudy.NodeStore
open CString LinearHash Forest StrCalls

/- strtok_r with one delimiter: the token and what is saved for the next call. -/
def strtokR (delim : UInt8) (s : Bytes) : Option (Bytes × Bytes) :=
  match s.dropWhile (fun b => b = delim) with
  | [] => none
  | b :: rest => some ((b :: rest).takeWhile (fun b => b ≠ delim),((b :: rest).dropWhile (fun b => b ≠ delim)).drop 1)

def lookupPathLoop : Nat → Fuse → Ino → Bytes → Except Fault (Except Int Ino)
  | 0, _, _, _ => .error .diverges
  | fuel+1, s, ino, tmp =>
    match strtokR slash tmp with
    | none => .ok (.ok ino)
    | some (pathElement,rest) =>
      match s.lookupNode ino pathElement with
      | none => .ok (.error (-enoent))
      | some p => do
        let n ← s.deref p
        lookupPathLoop fuel s n.nodeid rest

def Fuse.lookupPathInCache (s : Fuse) (path : Bytes) : Except Fault (Fuse × Except Int Ino) := do
  let (copied,s) := s.takeMem
  if copied then
    let found ← lookupPathLoop (path.length + 1) s rootId path
    .ok (s,found)
  else .ok (s,.error (-enomem))

def elements (path : Bytes) : List Name := (split slash path).filter (fun name => !name.isEmpty)

def rootedPath (names : List Name) : Bytes := slash :: joined slash names

theorem elementsSlash (path : Bytes) : elements (slash :: path) = elements path := by
  simp [elements,split]

theorem elementsName {name : Name} (plain : slash ∉ name) (some : name ≠ []) :
    elements name = [name] ∧ ∀ rest, elements (name ++ slash :: rest) = name :: elements rest := by
  have kept : (fun name : Name => !name.isEmpty) name = true := by simp [some]
  refine ⟨?_,fun rest => ?_⟩
  · rw [elements,splitField plain]
    exact List.filter_cons_of_pos kept
  · rw [elements,splitAppend plain]
    exact List.filter_cons_of_pos kept

theorem elementsString {names : List Name} (plain : ∀ name ∈ names, name ≠ [] ∧ slash ∉ name) :
    elements (rootedPath names) = names := by
  rw [rootedPath,elementsSlash]
  cases names with
  | nil => rfl
  | cons first rest =>
    rw [elements,splitPlainJoined (by simp) (fun name inside => (plain name inside).2)]
    exact List.filter_eq_self.mpr (fun name inside => by simp [(plain name inside).1])

theorem strtokElements (path : Bytes) :
    (strtokR slash path = none ∧ elements path = []) ∨
    ∃ name rest, strtokR slash path = some (name,rest) ∧ elements path = name :: elements rest ∧
      rest.length < path.length := by
  induction path with
  | nil => exact .inl ⟨rfl,rfl⟩
  | cons b path ih =>
    by_cases leading : b = slash
    · subst leading
      have same : strtokR slash (slash :: path) = strtokR slash path := by simp [strtokR]
      rw [same,elementsSlash]
      obtain none | ⟨name,rest,taken,cut,shorter⟩ := ih
      · exact .inl none
      · exact .inr ⟨name,rest,taken,cut,Nat.lt_succ_of_lt shorter⟩
    · right
      have visible : (b :: path).dropWhile (fun b => b = slash) = b :: path :=
        List.dropWhile_cons_of_neg (by simpa using leading)
      have front : ((b :: path).takeWhile (fun b => b ≠ slash)) = b :: path.takeWhile (fun b => b ≠ slash) :=
        List.takeWhile_cons_of_pos (by simpa using leading)
      have plain : slash ∉ (b :: path).takeWhile (fun b => b ≠ slash) := by
        intro inside
        have differs := List.mem_takeWhile_imp inside
        simp at differs
      have whole := List.takeWhile_append_dropWhile (p := fun b => decide (b ≠ slash)) (l := b :: path)
      refine ⟨_,_,by rw [strtokR,visible],?_,?_⟩
      · obtain ⟨one,more⟩ := elementsName plain (by rw [front]; exact List.cons_ne_nil _ _)
        have stops := List.head?_dropWhile_not (fun b => decide (b ≠ slash)) (b :: path)
        cases tail : (b :: path).dropWhile (fun b => decide (b ≠ slash)) with
        | nil =>
          rw [tail,List.append_nil] at whole
          rw [whole] at one ⊢
          exact one
        | cons c rest =>
          rw [tail] at whole stops
          have stop : c = slash := by simpa using stops
          subst stop
          conv => lhs; rw [← whole]
          exact more rest
      · have size := congrArg List.length whole
        rw [front] at size
        simp only [List.length_append,List.length_cons,List.length_drop] at size ⊢
        omega

variable {extra : Ptr → Nat} {s : Fuse} {p q top : Ptr} {n : Node} {l : List (Ptr × Name)} {path : Bytes}

def namesDown (l : List (Ptr × Name)) : List Name := l.reverse.map Prod.snd

/- The walk of lookup_path_in_cache over the elements. -/
def resolve (s : Fuse) : Ino → List Name → Except Fault (Except Int Ino)
  | ino, [] => .ok (.ok ino)
  | ino, name :: names =>
    match s.lookupNode ino name with
    | none => .ok (.error (-enoent))
    | some p => do
      let n ← s.deref p
      resolve s n.nodeid names

theorem lookupLoopResolves (fuel : Nat) {ino : Ino} (enough : path.length < fuel) :
    lookupPathLoop fuel s ino path = resolve s ino (elements path) := by
  induction fuel generalizing ino path with
  | zero => exact absurd enough (Nat.not_lt_zero _)
  | succ fuel ih =>
    unfold lookupPathLoop
    obtain ⟨none,empty⟩ | ⟨name,rest,taken,cut,shorter⟩ := strtokElements path
    · rw [none,empty]
      rfl
    · rw [taken,cut,resolve]
      cases found : s.lookupNode ino name with
      | none => simp only [found]
      | some p =>
        simp only [found]
        cases live : s.deref p with
        | error fault => simp only [bind,Except.bind]
        | ok n =>
          simp only [bind,Except.bind]
          exact ih (by omega)

theorem resolveAppend {ino mid : Ino} {first later : List Name} (down : resolve s ino first = .ok (.ok mid)) :
    resolve s ino (first ++ later) = resolve s mid later := by
  induction first generalizing ino with
  | nil =>
    cases down
    rfl
  | cons name first ih =>
    unfold resolve at down
    rw [List.cons_append,resolve]
    cases found : s.lookupNode ino name with
    | none =>
      rw [found] at down
      cases down
    | some p =>
      rw [found] at down
      obtain ⟨n,live,down⟩ := callBind down
      simp only [live,bind,Except.bind]
      exact ih down

theorem Steady.upLookup {name : Name} {d : Node} (steady : Steady extra s) (up : upOf s.heap p = some (name,q))
    (above : s.heap q = some d) : s.lookupNode d.nodeid name = some p := by
  obtain ⟨n,live,below,named,parent⟩ := upIff.mp up
  have plain : p ≠ 0 := by
    rintro rfl
    obtain ⟨r,atRoot,is,_⟩ := steady.shape.root
    rw [live] at atRoot
    cases atRoot
    exact below is
  have has : Has s.nameTable p := (steady.named live plain).mpr (by rw [named]; exact Option.some_ne_none _)
  exact (steady.toStore.lookupIff d.nodeid name).mpr ⟨has,entryIff.mpr ⟨n,q,d,live,named,parent,above,rfl⟩⟩

theorem Steady.resolveDown (steady : Steady extra s) (climb : Climb (upOf s.heap) p l top) (root : IsRoot s top)
    (live : s.heap p = some n) : resolve s rootId (namesDown l) = .ok (.ok n.nodeid) := by
  induction climb generalizing n with
  | here p =>
    obtain ⟨r,atRoot,is⟩ := root
    rw [live] at atRoot
    cases atRoot
    rw [is]
    rfl
  | @step p q stop name rest link above ih =>
    obtain ⟨d,at_⟩ := Option.ne_none_iff_exists'.mp (steady.upLive link)
    have first := ih root at_
    rw [namesDown,List.reverse_cons,List.map_append]
    have down : resolve s rootId (namesDown rest ++ [name]) = resolve s d.nodeid [name] := resolveAppend first
    refine down.trans ?_
    simp only [resolve,steady.upLookup link at_,derefOk live,bind,Except.bind]

theorem Steady.resolveUp {ino i : Ino} {names : List Name} (steady : Steady extra s)
    (found : s.getNodeNocheck ino = some p) (climb : Climb (upOf s.heap) p l top)
    (down : resolve s ino names = .ok (.ok i)) :
    ∃ q m, s.getNodeNocheck i = some q ∧ Climb (upOf s.heap) q m top ∧ namesDown m = namesDown l ++ names := by
  induction names generalizing ino p l with
  | nil =>
    cases down
    exact ⟨p,l,found,climb,(List.append_nil _).symm⟩
  | cons name names ih =>
    unfold resolve at down
    cases looked : s.lookupNode ino name with
    | none =>
      rw [looked] at down
      cases down
    | some w =>
      rw [looked] at down
      obtain ⟨n,live,down⟩ := callBind down
      have link := steady.lookupUp looked found
      have at_ : s.heap w = some n := by
        unfold Fuse.deref at live
        split at live
        · cases live
          assumption
        · cases live
      have next := (steady.toStore.getNodeIff n.nodeid).mpr ⟨(steady.alive w n at_).1,n,at_,rfl⟩
      obtain ⟨q,m,foundQ,climbQ,same⟩ := ih next (.step link climb) down
      refine ⟨q,m,foundQ,climbQ,?_⟩
      rw [same]
      simp [namesDown]

theorem climbOnly {m : List (Ptr × Name)} {stop : Ptr} (climb : Climb (upOf s.heap) p l top) (root : IsRoot s top)
    (other : Climb (upOf s.heap) p m stop) (end_ : upOf s.heap stop = none) : m = l ∧ stop = top :=
  Climb.unique other climb end_ root.top

theorem tryGetPathAnswers {want : Want} {needLock : Bool} (tree : Tree extra s) (ample : Ample s)
    (writes : want.write = true → needLock = true ∧ want.name ≠ none) (found : s.getNodeNocheck want.nodeid = some p)
    (climb : Climb (upOf s.heap) p l top) (root : IsRoot s top) :
    ∃ s' r, s.tryGetPath want needLock = .ok (s',r) ∧ ((needLock = true ∧ r = .error (-eagain) ∧ Busy s want) ∨
      ∃ wnode, r = .ok ⟨want,wnode,finishPath (pathAlong l (startPath want.name))⟩) := by
  cases needLock with
  | true =>
    obtain ⟨⟨s',r⟩,ran,tried⟩ | ⟨_,none⟩ := tryGetPathSpec tree (fun write => (writes write).2)
    · refine ⟨s',r,ran,?_⟩
      have plenty := (tryAmple ample ran).2
      have waits := fun again => tried.waits tree again
      cases tried with
      | granted memory found' climb' root' =>
        rw [found] at found'
        cases found'
        obtain ⟨rfl,_⟩ := climbOnly climb root climb' root'.top
        exact .inr ⟨_,rfl⟩
      | refused memory why =>
        obtain rfl | ⟨rfl,p',m,stop,found',climb',end_,below,_⟩ | ⟨rfl,_⟩ := why
        · exact absurd rfl plenty
        · rw [found] at found'
          cases found'
          obtain ⟨_,rfl⟩ := climbOnly climb root climb' end_
          exact absurd root below
        · exact .inl ⟨rfl,rfl,waits rfl⟩
      | marked => exact .inl ⟨rfl,rfl,waits rfl⟩
    · rw [none] at found
      cases found
  | false =>
    have reads : want.write = false := by
      cases write : want.write with
      | false => rfl
      | true => exact absurd (writes write).1 Bool.false_ne_true
    have later : Ample {s with memory := fun i => s.memory (i+1)} := fun i => ample (i+1)
    obtain ⟨memory,failed | ⟨bufsize,started⟩⟩ := startBufSpec s (fun i => s.memory (i+1)) want.name
    · have short : (({s with memory := fun i => s.memory (i+1)} : Fuse).startBuf want.name).2 ≠ none := by
        unfold Fuse.startBuf
        split
        · exact Option.some_ne_none _
        · exact (addNameAmple later ..).2
      exact absurd (congrArg Prod.snd failed) short
    have ample₁ : Ample (s.relock s.lock memory) := by
      have kept : Ample (({s with memory := fun i => s.memory (i+1)} : Fuse).startBuf want.name).1 := by
        unfold Fuse.startBuf
        split
        · exact later
        · exact (addNameAmple later ..).1
      rwa [started] at kept
    obtain ⟨_,n,live,_⟩ := (tree.toStore.getNodeIff want.nodeid).mp found
    have alive : s.heap p ≠ none := by rw [live]; exact Option.some_ne_none _
    obtain ⟨r,walk,walked⟩ := walkPathSpec false (s.brk+1) s.lock memory p bufsize (startPath want.name) tree alive
      (fun l stop climb => tree.climbShort alive climb)
    unfold Fuse.tryGetPath Fuse.takeMem
    rw [ample 0]
    simp only [Bool.not_true,Bool.false_eq_true,if_false,started,reads,false_and,Fuse.lockWnode,bind,Except.bind,
      getNodeOk ((getNodeRelock want.nodeid).trans found),show (s.relock s.lock memory).brk = s.brk from rfl,walk]
    cases walked with
    | arrived memory' climb' root' =>
      obtain ⟨rfl,_⟩ := climbOnly climb root climb' root'.top
      exact ⟨_,_,rfl,.inr ⟨_,rfl⟩⟩
    | stopped memory' climb' below blocked =>
      obtain ⟨rfl,end_⟩ | rfl | ⟨_,locks,_⟩ := blocked
      · obtain ⟨_,rfl⟩ := climbOnly climb root climb' end_
        exact absurd root below
      · exact absurd rfl ((walkAmple _ ample₁ walk).2 _)
      · cases locks

theorem pathAlongNames (l : List (Ptr × Name)) (path : Bytes) :
    pathAlong l path = (namesDown l).flatMap (fun name => slash :: name) ++ path := by
  induction l generalizing path with
  | nil => rfl
  | cons e l ih =>
    rw [pathAlong,ih]
    simp [namesDown]

theorem rootedFlat {names : List Name} (some : names ≠ []) :
    rootedPath names = names.flatMap (fun name => slash :: name) := by
  induction names with
  | nil => exact absurd rfl some
  | cons name names ih =>
    cases names with
    | nil => simp [rootedPath,joined]
    | cons next rest =>
      have later := ih (by simp)
      rw [rootedPath] at later
      rw [rootedPath,joinedCons slash name (by simp),later]
      rfl

theorem finishedPath (l : List (Ptr × Name)) (last : Option Name) :
    finishPath (pathAlong l (startPath last)) = rootedPath (namesDown l ++ last.toList) := by
  have whole : pathAlong l (startPath last) = (namesDown l ++ last.toList).flatMap (fun name => slash :: name) := by
    rw [pathAlongNames,List.flatMap_append]
    cases last <;> simp [startPath]
  rw [whole,finishPath]
  cases names : namesDown l ++ last.toList with
  | nil => rfl
  | cons name rest =>
    rw [rootedFlat (by simp)]
    exact if_neg (by simp)

/- A name is a C string that is not empty and has no slash in it. -/
def PlainName (name : Name) : Prop := name ≠ [] ∧ slash ∉ name ∧ 0 ∉ name

instance (name : Name) : Decidable (PlainName name) := by unfold PlainName; infer_instance

/- The root is called "/", which no path contains. -/
def PlainNames (s : Fuse) : Prop :=
  ∀ p n name, s.heap p = some n → n.nodeid ≠ rootId → n.name = some name → PlainName name

theorem climbPlain (plain : PlainNames s) (climb : Climb (upOf s.heap) p l top) : ∀ e ∈ l, PlainName e.2 := by
  induction climb with
  | here => exact fun e inside => absurd inside List.not_mem_nil
  | @step p q stop name rest link above ih =>
    intro e inside
    obtain rfl | later := List.mem_cons.mp inside
    · obtain ⟨n,live,below,named,_⟩ := upIff.mp link
      exact plain p n name live below named
    · exact ih e later

theorem pathAlongGrows (l : List (Ptr × Name)) (path : Bytes) : path.length ≤ (pathAlong l path).length := by
  rw [pathAlongNames,List.length_append]
  exact Nat.le_add_left ..

theorem fitsWhole (plain : PlainNames s) (climb : Climb (upOf s.heap) p l top) (root : IsRoot s top)
    (short : (pathAlong l path).length + 1 ≤ 0xffffffff) : Fits s p path := by
  intro m stop other
  refine ⟨fun e inside => (climbPlain plain other e inside).2.2,?_⟩
  obtain ⟨rest,same,_⟩ | ⟨rest,same,further⟩ := other.compare climb
  · have split : pathAlong l path = pathAlong rest (pathAlong m path) := by
      simp only [pathAlongNames,same,namesDown,List.reverse_append,List.map_append,List.flatMap_append,
        List.append_assoc]
    have grows := pathAlongGrows rest (pathAlong m path)
    rw [← split] at grows
    omega
  · cases further with
    | here =>
      rw [same,List.append_nil]
      exact short
    | step link _ =>
      rw [root.top] at link
      cases link

/- Paths and ids. The first part is about try_get_path, with or without locks; it answers with the path
whenever no lock is in the way. The other two take the path back to the id and any found path to its own. -/
theorem pathsInverse (junk : Junk) (tree : Tree extra s) (ample : Ample s) (plain : PlainNames s) :
    (∀ want needLock p l top, (want.write = true → needLock = true ∧ want.name ≠ none) →
      (∀ name, want.name = some name → PlainName name) → s.getNodeNocheck want.nodeid = some p →
      Climb (upOf s.heap) p l top → IsRoot s top → (rootedPath (namesDown l ++ want.name.toList)).length < 2 ^ 32 - 1 →
      ∃ s' r, s.tryGetPathBytes junk want needLock = .ok (s',r) ∧
        ((needLock = true ∧ r = .error (-eagain) ∧ Busy s want) ∨
        ∃ object wnode, r = .ok (object,wnode) ∧ Terminated object (rootedPath (namesDown l ++ want.name.toList)))) ∧
    (∀ nodeid p l top, s.getNodeNocheck nodeid = some p → Climb (upOf s.heap) p l top → IsRoot s top →
      ∃ s', s.lookupPathInCache (rootedPath (namesDown l)) = .ok (s',.ok nodeid)) ∧
    ∀ path s' nodeid, s.lookupPathInCache path = .ok (s',.ok nodeid) →
      ∃ p l top, s.getNodeNocheck nodeid = some p ∧ Climb (upOf s.heap) p l top ∧ IsRoot s top ∧
        namesDown l = elements path := by
  refine ⟨?_,?_,?_⟩
  · intro want needLock p l top writes named found climb root short
    obtain ⟨s',r,ran,answer⟩ := tryGetPathAnswers tree ample writes found climb root
    have whole := finishedPath l want.name
    have total : (pathAlong l (startPath want.name)).length + 1 ≤ 0xffffffff := by
      rw [← whole,finishPath] at short
      split at short
      · rename_i empty
        rw [empty]
        decide
      · omega
    have mirrors := tryGetPathMirrors junk tree needLock (fun write => (writes write).2)
      (fun name is => (named name is).2.2) (by have grows := pathAlongGrows l (startPath want.name); omega) (by
        intro p' found'
        rw [found] at found'
        cases found'
        exact fitsWhole plain climb root total)
    rw [ran] at mirrors
    generalize s.tryGetPathBytes junk want needLock = bytes at mirrors
    obtain ⟨locks,rfl,busy⟩ | ⟨wnode,rfl⟩ := answer
    · cases mirrors with
      | refused => exact ⟨_,_,rfl,.inl ⟨locks,rfl,busy⟩⟩
    · cases mirrors with
      | @granted _ _ object text => exact ⟨_,_,rfl,.inr ⟨object,wnode,rfl,whole ▸ text⟩⟩
  · intro nodeid p l top found climb root
    obtain ⟨_,n,live,rfl⟩ := (tree.toStore.getNodeIff nodeid).mp found
    have names : ∀ name ∈ namesDown l, name ≠ [] ∧ slash ∉ name := by
      intro name inside
      obtain ⟨e,mem,rfl⟩ := List.mem_map.mp inside
      have proper := climbPlain plain climb e (List.mem_reverse.mp mem)
      exact ⟨proper.1,proper.2.1⟩
    unfold Fuse.lookupPathInCache Fuse.takeMem
    rw [ample 0]
    have later : Tree extra {s with memory := fun i => s.memory (i+1)} := by
      have moved := tree.relock s.lock (fun i => s.memory (i+1))
      rwa [relockSelf] at moved
    have down := later.toSteady.resolveDown climb root live
    rw [← elementsString names] at down
    simp only [if_true,lookupLoopResolves _ (Nat.lt_succ_self _),down,bind,Except.bind]
    exact ⟨_,rfl⟩
  · intro path s' nodeid ran
    unfold Fuse.lookupPathInCache Fuse.takeMem at ran
    rw [ample 0] at ran
    simp only [if_true] at ran
    obtain ⟨r,down,ran⟩ := callBind ran
    cases ran
    rw [lookupLoopResolves _ (Nat.lt_succ_self _)] at down
    have later : Tree extra {s with memory := fun i => s.memory (i+1)} := by
      have moved := tree.relock s.lock (fun i => s.memory (i+1))
      rwa [relockSelf] at moved
    obtain ⟨r,atRoot,is,_⟩ := tree.shape.root
    have stands : IsRoot s 0 := ⟨r,atRoot,is⟩
    have found : s.getNodeNocheck rootId = some 0 :=
      (tree.toStore.getNodeIff rootId).mpr ⟨(tree.alive 0 r atRoot).1,r,atRoot,is⟩
    obtain ⟨q,m,foundQ,climb,names⟩ := later.toSteady.resolveUp found (.here 0) down
    exact ⟨q,m,0,foundQ,climb,stands,names⟩

def plainBelow (s : Fuse) : Bool :=
  (List.range s.brk).all fun p => (s.heap p).all fun n => n.nodeid = rootId || n.name.all fun name => PlainName name

theorem plainBelowNames (tree : Tree extra s) (checked : plainBelow s = true) : PlainNames s := by
  intro p n name live below named
  have good := List.all_eq_true.mp checked p (List.mem_range.mpr (tree.shape.lt live))
  rw [live,Option.all_some,named,Option.all_some] at good
  simpa [below] using good

theorem childInverse : ∃ s : Fuse, s.getNodeNocheck 3 = some 2 ∧
    Climb (upOf s.heap) 2 [(2,ascii "c"),(1,ascii "d")] 0 ∧
    (∃ s' r, s.tryGetPathBytes (fun _ _ => 7) ⟨3,some (ascii "x"),false⟩ false = .ok (s',r) ∧
      ∃ object wnode, r = .ok (object,wnode) ∧ Terminated object (ascii "/d/c/x")) ∧
    ∃ s', s.lookupPathInCache (ascii "/d/c") = .ok (s',.ok 3) := by
  have legal : (Sys.start ⟨0,false,false⟩ fun _ => true).legal moveBelowItself = true := by decide +kernel
  have passes : ((Sys.start ⟨0,false,false⟩ fun _ => true).steps moveBelowItself).toOption.any (fun y =>
      plainBelow y.fuse && y.fuse.getNodeNocheck 3 = some 2 && upOf y.fuse.heap 2 = some (ascii "c",1) &&
        upOf y.fuse.heap 1 = some (ascii "d",0)) = true := by
    decide +kernel
  obtain ⟨y,result,good⟩ := ranSo passes
  simp only [Bool.and_eq_true,decide_eq_true_eq] at good
  obtain ⟨⟨⟨plain,found⟩,up2⟩,up1⟩ := good
  have tree := (stepsReachable .start legal result).visited.coherent.world.tree
  have same := relockSelf y.fuse (fun _ => true)
  have ample := tree.relock y.fuse.lock (fun _ => true)
  rw [same] at ample
  have climb : Climb (upOf y.fuse.heap) 2 [(2,ascii "c"),(1,ascii "d")] 0 := .step up2 (.step up1 (.here 0))
  have root := tree.toSteady.rootStands
  have all := pathsInverse (fun _ _ => 7) ample (fun _ => rfl) (plainBelowNames ample plain)
  refine ⟨{y.fuse with memory := fun _ => true},found,climb,?_,?_⟩
  · obtain ⟨s',r,ran,locked | answer⟩ := all.1 ⟨3,some (ascii "x"),false⟩ false 2 _ 0
      (fun write => absurd write Bool.false_ne_true) (fun name is => by cases is; decide +kernel) found climb root
      (by decide +kernel)
    · exact absurd locked.1 Bool.false_ne_true
    · exact ⟨s',r,ran,answer⟩
  · exact all.2.1 3 2 _ 0 found climb root

end FuseStudy.NodeStore
