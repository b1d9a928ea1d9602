import FuseStudy.NetLink

/-! The path a request goes out with beside the object the kernel means. Object 0 is the
exported directory, a tree gives the entries of each directory. -/
namespace FuseStudy.NetPaths
open CString (Bytes)
open NetServer NetClient NetLink

abbrev Tree := Nat → Bytes → Option Nat

def exported : Nat := 0

def sentPath : Action → Option Bytes
  | .exchange requests _ => (requests.find? (fun r => r.1 = .path)).map (fun r => cString r.2)
  | _ => none

def components (path : Bytes) : List Bytes := (CString.split 47 path).filter (fun c => c ≠ [] ∧ c ≠ [46])

def walk (tree : Tree) : Nat → List Bytes → Option Nat
  | o,[] => some o
  | o,c :: rest => (tree o c).bind (fun below => walk tree below rest)

inductive Target where
  | object (o : Nat)
  | entry (dir : Nat) (name : Bytes)
  deriving DecidableEq, Repr

def Resolves (tree : Tree) (path : Bytes) : Target → Prop
  | .object o => walk tree exported (components path) = some o
  | .entry dir name => ∃ front, components path = front ++ [name] ∧ walk tree exported front = some dir

inductive Subject where
  | inode (ino : Nat)
  | child (parent : Nat) (name : Name)

def subject : Op → Subject
  | .lookup parent name => .child parent name
  | .getattr ino => .inode ino
  | .readdir ino _ _ _ _ => .inode ino
  | .open ino _ => .inode ino
  | .read ino _ _ => .inode ino
  | .create parent name _ => .child parent name
  | .mkdir parent name _ => .child parent name
  | .write ino _ _ _ => .inode ino
  | .unlink parent name => .child parent name
  | .rmdir parent name _ => .child parent name

/- known: the object an inode number was returned for. named: the name in the exported
directory it was last returned for, as long as nothing removed that name. shifted: data of a
write is in the server's queue, which it reads as further requests. -/
structure Scene where
  client : Client
  tree : Tree
  known : Nat → Option Nat
  named : Nat → Option Bytes
  shifted : Bool

/- A request and what comes of it: whether the server's call succeeds and the object it then
makes, the inode number in the answer, and the tree that a server out of step leaves. -/
structure Event where
  op : Op
  took : Bool
  made : Nat
  answer : Option Nat
  junk : Tree

def Tree.put (tree : Tree) (name : Bytes) (o : Option Nat) : Tree :=
  fun dir n => if dir = exported ∧ n = name then o else tree dir n

def Event.removes (e : Event) (path : Bytes) : Option Bytes :=
  match e.op with
  | .unlink .. => if e.took then some path else none
  | .rmdir .. => if e.took then some path else none
  | _ => none

/- The server's system calls on a path without directories. -/
def Event.serve (e : Event) (tree : Tree) (path : Bytes) : Tree :=
  match e.op with
  | .create .. => if e.took ∧ tree exported path = none then tree.put path (some e.made) else tree
  | .mkdir .. => if e.took ∧ tree exported path = none then tree.put path (some e.made) else tree
  | _ =>
    match e.removes path with
    | some name => tree.put name none
    | none => tree

def Event.shifts (e : Event) : Bool :=
  match e.op with
  | .write .. => true
  | _ => false

def Scene.sent (scene : Scene) (e : Event) : Option Bytes := sentPath (scene.client.op e.op).2

def Scene.left (scene : Scene) (e : Event) : Tree :=
  if scene.shifted || e.shifts then e.junk
  else match scene.sent e with
    | some path => e.serve scene.tree path
    | none => scene.tree

/- The entry that the inode number of the answer stands for. -/
def Event.answered (e : Event) (i : Nat) : Option (Nat × Bytes) :=
  match subject e.op with
  | .child parent name => if e.answer = some i then some (parent,name.bytes) else none
  | .inode _ => none

def Scene.step (scene : Scene) (e : Event) : Scene where
  client := (scene.client.op e.op).1
  tree := scene.left e
  known := fun i => match e.answered i with
    | some (parent,name) => (scene.known parent).bind (fun dir => scene.left e dir name)
    | none => scene.known i
  named := fun i =>
    if scene.shifted || e.shifts then none
    else match e.answered i with
      | some (parent,name) => if parent = rootId ∧ scene.left e exported name ≠ none then some name else none
      | none => (scene.named i).filter (fun name => (scene.sent e).bind e.removes ≠ some name)
  shifted := scene.shifted || e.shifts

def Scene.target (scene : Scene) (op : Op) : Option Target :=
  match subject op with
  | .inode ino => (scene.known ino).map .object
  | .child parent name => (scene.known parent).map (fun dir => .entry dir name.bytes)

/- The path of the request leads to what the kernel means by it. -/
def Agrees (scene : Scene) (op : Op) : Prop :=
  ∀ path, sentPath (scene.client.op op).2 = some path → ∃ target, scene.target op = some target ∧
    Resolves scene.tree path target

def Plain (name : Bytes) : Prop := name ≠ [] ∧ 47 ∉ name ∧ name ≠ [46] ∧ name ≠ [46,46]
instance (name : Bytes) : Decidable (Plain name) := by unfold Plain; infer_instance

structure Asked (scene : Scene) (e : Event) : Prop where
  plain : ∀ parent name, subject e.op = .child parent name → Plain name.bytes
  known : scene.target e.op ≠ none
  answer : e.answer ≠ some rootId

def NamedLast (scene : Scene) (ino : Nat) : Prop :=
  ∃ path, scene.client.path = some path ∧ scene.named ino = some path.bytes

def Follows (scene : Scene) : Op → Prop
  | .lookup parent _ => parent = rootId
  | .getattr ino => ino = rootId ∨ NamedLast scene ino
  | .readdir ino _ _ _ _ => ino = rootId ∨ NamedLast scene ino
  | .open ino _ => NamedLast scene ino
  | .read ino _ _ => NamedLast scene ino
  | .create parent _ _ => parent = rootId
  | .mkdir parent name _ => parent = rootId ∧ scene.client.path.map Path.toName = some name
  | .write ino _ _ _ => NamedLast scene ino
  | .unlink parent _ => parent = rootId
  | .rmdir parent name _ => parent = rootId ∧ scene.client.path.map Path.toName = some name

def Scene.start (tree : Tree) : Scene where
  client := ⟨none⟩
  tree := tree
  known := fun i => if i = rootId then some exported else none
  named := fun _ => none
  shifted := false

def sceneAfter (tree : Tree) (events : List Event) (k : Nat) : Scene :=
  (events.take k).foldl Scene.step (Scene.start tree)

theorem componentsPlain {name : Bytes} (plain : Plain name) : components name = [name] := by
  obtain ⟨ne,whole,notDot,-⟩ := plain
  rw [components,CString.splitField whole,List.filter_singleton]
  simp [ne,notDot]

structure Consistent (scene : Scene) : Prop where
  root : scene.known rootId = some exported
  path : ∀ path, scene.client.path = some path → Plain path.bytes
  named : ∀ i name, scene.named i = some name → Plain name ∧
    ∃ o, scene.known i = some o ∧ scene.tree exported name = some o

theorem startConsistent (tree : Tree) : Consistent (Scene.start tree) := by
  refine ⟨rfl,?_,?_⟩
  · intro path set
    cases set
  · intro i name given
    cases given

theorem serveKeeps (e : Event) {tree : Tree} {path name : Bytes} {o : Nat} (there : tree exported name = some o)
    (kept : e.removes path ≠ some name) : e.serve tree path exported name = some o := by
  have put {v : Option Nat} {p : Bytes} (other : p ≠ name) : tree.put p v exported name = some o := by
    rw [Tree.put,if_neg (fun same => other same.2.symm)]
    exact there
  have made : (if e.took ∧ tree exported path = none then tree.put path (some e.made) else tree) exported name =
      some o := by
    split
    · rename_i free
      refine put ?_
      rintro rfl
      cases free.2.symm.trans there
    · exact there
  cases op : e.op with
  | create parent name mode =>
    simp only [Event.serve,op]
    exact made
  | mkdir parent name mode =>
    simp only [Event.serve,op]
    exact made
  | _ =>
    simp only [Event.serve,op]
    cases gone : e.removes path with
    | none => exact there
    | some other =>
      refine put ?_
      rintro rfl
      exact kept gone

theorem lookupPathPlain {name : Name} (plain : Plain name.bytes) : (lookupPath name).bytes = name.bytes := by
  rw [lookupPath,dif_neg plain.1]

theorem stepPath {scene : Scene} {e : Event} (consistent : Consistent scene) (asked : Asked scene e) {path : Path}
    (set : (scene.step e).client.path = some path) : Plain path.bytes := by
  have same : (scene.step e).client = (scene.client.op e.op).1 := rfl
  rw [same] at set
  cases op : e.op with
  | lookup parent name =>
    rw [op] at set
    cases set
    have plain := asked.plain parent name (by rw [op]; rfl)
    rw [lookupPathPlain plain]
    exact plain
  | _ =>
    rw [op] at set
    exact consistent.path path set

theorem answeredSource {e : Event} {i parent : Nat} {name : Bytes} (answered : e.answered i = some (parent,name)) :
    e.answer = some i ∧ ∃ given, subject e.op = .child parent given ∧ given.bytes = name := by
  unfold Event.answered at answered
  split at answered
  · rename_i about
    split at answered
    · rename_i answer
      cases Option.some.inj answered
      exact ⟨answer,_,about,rfl⟩
    · cases answered
  · cases answered

theorem stepConsistent {scene : Scene} {e : Event} (consistent : Consistent scene) (asked : Asked scene e) :
    Consistent (scene.step e) := by
  refine ⟨?_,fun _ => stepPath consistent asked,?_⟩
  · cases answered : e.answered rootId with
    | some entry => exact absurd (answeredSource answered).1 asked.answer
    | none =>
      simp only [Scene.step,answered]
      exact consistent.root
  · intro i name given
    by_cases shifted : scene.shifted || e.shifts
    · simp only [Scene.step,if_pos shifted,reduceCtorEq] at given
    · simp only [Scene.step,if_neg shifted] at given ⊢
      cases answered : e.answered i with
      | some entry =>
        obtain ⟨parent,name'⟩ := entry
        simp only [answered] at given ⊢
        split at given
        · rename_i there
          cases Option.some.inj given
          obtain ⟨-,text,about,rfl⟩ := answeredSource answered
          obtain ⟨o,found⟩ := Option.ne_none_iff_exists'.mp there.2
          rw [there.1,consistent.root,Option.bind_some]
          exact ⟨asked.plain _ _ about,o,found,found⟩
        · cases given
      | none =>
        simp only [answered] at given ⊢
        obtain ⟨before,kept⟩ := Option.filter_eq_some_iff.mp given
        obtain ⟨plain,o,known,there⟩ := consistent.named i name before
        refine ⟨plain,o,known,?_⟩
        rw [Scene.left,if_neg shifted]
        cases sent : scene.sent e with
        | none => exact there
        | some path =>
          rw [sent,Option.bind_some] at kept
          exact serveKeeps e there (of_decide_eq_true kept)

/-! The path of a request whose condition holds. -/

theorem entryResolves {scene : Scene} (consistent : Consistent scene) {op : Op} {name : Name} {path : Bytes}
    (about : subject op = .child rootId name) (plain : Plain name.bytes) (same : path = name.bytes) :
    ∃ target, scene.target op = some target ∧ Resolves scene.tree path target := by
  refine ⟨.entry exported name.bytes,?_,[],?_,rfl⟩
  · rw [Scene.target,about]
    simp only [consistent.root,Option.map_some]
  · rw [same,componentsPlain plain]
    rfl

theorem objectResolves {scene : Scene} (consistent : Consistent scene) {op : Op} {ino : Nat} {path : Path}
    {sent : Bytes} (about : subject op = .inode ino) (last : scene.named ino = some path.bytes)
    (same : sent = path.bytes) : ∃ target, scene.target op = some target ∧ Resolves scene.tree sent target := by
  obtain ⟨plain,o,known,there⟩ := consistent.named ino path.bytes last
  refine ⟨.object o,?_,?_⟩
  · rw [Scene.target,about]
    simp only [known,Option.map_some]
  · rw [same,Resolves,componentsPlain plain,walk,there]
    rfl

theorem rootResolves {scene : Scene} (consistent : Consistent scene) {op : Op} (about : subject op = .inode rootId) :
    ∃ target, scene.target op = some target ∧ Resolves scene.tree dotSlash.bytes target := by
  refine ⟨.object exported,?_,rfl⟩
  rw [Scene.target,about]
  simp only [consistent.root,Option.map_some]

theorem sentPathIs {opcode : Purpose × Bytes} (first : opcode.1 = .opcode) (path : Bytes)
    (more : List (Purpose × Bytes)) (receive : Receive) :
    sentPath (.exchange (opcode :: (.path,path) :: more) receive) = some (cString path) := by
  rw [sentPath,List.find?_cons_of_neg (by rw [first]; simp),List.find?_cons_of_pos (by simp),Option.map_some]

theorem lastAgrees {scene : Scene} (consistent : Consistent scene) {op : Op} {ino : Nat}
    (about : subject op = .inode ino) (last : NamedLast scene ino)
    (sends : ∀ path, scene.client.path = some path → sentPath (scene.client.op op).2 = some path.bytes) :
    Agrees scene op := by
  obtain ⟨path,set,named⟩ := last
  intro sent out
  cases out.symm.trans (sends path set)
  exact objectResolves consistent about named rfl

theorem followsAgrees {scene : Scene} {e : Event} (consistent : Consistent scene) (asked : Asked scene e)
    (follows : Follows scene e.op) : Agrees scene e.op := by
  have plain := asked.plain
  generalize e.op = op at *
  have nul (path : Path) : cString (path.bytes ++ [0]) = path.bytes := cStringAppend path.noNul []
  have text (path : Path) : cString path.bytes = path.bytes := cStringSelf path.noNul
  cases op with
  | lookup parent name =>
    subst follows
    have named := plain _ name rfl
    intro sent out
    cases out.symm.trans (sentPathIs rfl (lookupPath name).bytes [] lookupReceive)
    exact entryResolves consistent rfl named ((text _).trans (lookupPathPlain named))
  | create parent name mode =>
    subst follows
    intro sent out
    cases out.symm.trans (sentPathIs rfl name.bytes [] createReceive)
    exact entryResolves consistent rfl (plain _ name rfl) (cStringSelf name.noNul)
  | unlink parent name =>
    subst follows
    intro sent out
    cases out.symm.trans (sentPathIs rfl name.bytes [] _)
    exact entryResolves consistent rfl (plain _ name rfl) (cStringSelf name.noNul)
  | mkdir parent name mode =>
    obtain ⟨rfl,last⟩ := follows
    intro sent out
    cases set : scene.client.path with
    | none =>
      rw [set] at last
      cases last
    | some path =>
      rw [set] at last
      cases Option.some.inj last
      simp only [Client.op,NetClient.fuseStudyMkdir,set] at out
      cases out.symm.trans (sentPathIs rfl path.bytes _ _)
      exact entryResolves consistent rfl (plain _ _ rfl) (text path)
  | rmdir parent name calloc =>
    obtain ⟨rfl,last⟩ := follows
    intro sent out
    cases set : scene.client.path with
    | none =>
      rw [set] at last
      cases last
    | some path =>
      rw [set] at last
      cases Option.some.inj last
      cases calloc with
      | false => cases out
      | true =>
        simp only [Client.op,NetClient.fuseStudyRmdir,set,if_true] at out
        cases out.symm.trans (sentPathIs rfl path.bytes _ _)
        exact entryResolves consistent rfl (plain _ _ rfl) (text path)
  | getattr ino =>
    by_cases root : ino = rootId
    · intro sent out
      simp only [Client.op,NetClient.fuseStudyGetattr,if_pos root] at out
      cases out
    · refine lastAgrees consistent rfl (follows.resolve_left root) ?_
      intro path set
      simp only [Client.op,NetClient.fuseStudyGetattr,if_neg root,set]
      rw [sentPathIs rfl,nul]
  | readdir ino size off calloc malloc =>
    cases calloc with
    | false =>
      intro sent out
      cases out
    | true =>
      have sends : sentPath (scene.client.op (.readdir ino size off true malloc)).2 =
          some (readdirPath scene.client ino).bytes := by
        simp only [Client.op,NetClient.fuseStudyReaddir,if_true]
        rw [sentPathIs rfl,nul]
      by_cases root : ino = rootId
      · intro sent out
        cases out.symm.trans sends
        rw [readdirPath,if_pos root]
        exact rootResolves consistent (by rw [subject,root])
      · refine lastAgrees consistent rfl (follows.resolve_left root) ?_
        intro path set
        rw [sends,readdirPath,if_neg root,set,Option.getD_some]
  | «open» ino flags =>
    refine lastAgrees consistent rfl follows ?_
    intro path set
    simp only [Client.op,NetClient.fuseStudyOpen,set]
    rw [sentPathIs rfl,nul]
  | read ino size off =>
    refine lastAgrees consistent rfl follows ?_
    intro path set
    simp only [Client.op,NetClient.fuseStudyRead,set]
    rw [sentPathIs rfl,text]
  | write ino memory size off =>
    refine lastAgrees consistent rfl follows ?_
    intro path set
    simp only [Client.op,NetClient.fuseStudyWrite,set]
    rw [sentPathIs rfl,text]

theorem afterSucc (tree : Tree) (events : List Event) {k : Nat} (lt : k < events.length) :
    sceneAfter tree events (k + 1) = (sceneAfter tree events k).step events[k] := by
  rw [sceneAfter,List.take_succ_eq_append_getElem lt,List.foldl_append]
  rfl

theorem afterConsistent (tree : Tree) (events : List Event)
    (asked : ∀ k (lt : k < events.length), Asked (sceneAfter tree events k) events[k]) {k : Nat}
    (le : k ≤ events.length) : Consistent (sceneAfter tree events k) := by
  induction k with
  | zero => exact startConsistent tree
  | succ k ih =>
    rw [afterSucc tree events le]
    exact stepConsistent (ih (Nat.le_of_succ_le le)) (asked k le)

theorem pathsAgree (tree : Tree) (events : List Event)
    (asked : ∀ k (lt : k < events.length), Asked (sceneAfter tree events k) events[k])
    (follows : ∀ k (lt : k < events.length), Follows (sceneAfter tree events k) events[k].op) :
    ∀ k (lt : k < events.length), Agrees (sceneAfter tree events k) events[k].op := by
  intro k lt
  exact followsAgrees (afterConsistent tree events asked lt.le) (asked k lt) (follows k lt)

def twoFiles : Tree := fun dir name =>
  if dir = exported ∧ name = [97] then some 1
  else if dir = exported ∧ name = [98] then some 2 else none

def nameA : Name := ⟨[97],by decide,by decide⟩
def nameB : Name := ⟨[98],by decide,by decide⟩

def asking (op : Op) (answer : Option Nat) : Event := ⟨op,true,0,answer,fun _ _ => none⟩

def lookupA : Event := asking (.lookup rootId nameA) (some 10)
def lookupB : Event := asking (.lookup rootId nameB) (some 11)
def attrA : Event := asking (.getattr 10) none

theorem lookupAsked {scene : Scene} {name : Name} {i : Nat} (plain : Plain name.bytes)
    (known : scene.known rootId = some exported) (other : i ≠ rootId) :
    Asked scene (asking (.lookup rootId name) (some i)) := by
  refine ⟨?_,?_,?_⟩
  · intro parent given about
    cases about
    exact plain
  · simp [Scene.target,asking,subject,known]
  · simpa [asking] using other

theorem attrAsked {scene : Scene} {i o : Nat} (known : scene.known i = some o) :
    Asked scene (asking (.getattr i) none) := by
  refine ⟨?_,?_,by simp [asking]⟩
  · intro parent given about
    cases about
  · simp [Scene.target,asking,subject,known]

theorem oneNameAgrees : Agrees (sceneAfter twoFiles [lookupA,attrA] 1) (.getattr 10) := by
  refine pathsAgree twoFiles [lookupA,attrA] ?_ ?_ 1 (by decide)
  · intro k lt
    match k,lt with
    | 0,_ => exact lookupAsked (by decide) rfl (by decide)
    | 1,_ => exact attrAsked (o := 1) rfl
  · intro k lt
    match k,lt with
    | 0,_ => exact rfl
    | 1,_ => exact .inr ⟨⟨nameA,by decide⟩,rfl,rfl⟩

/- The attributes of a are asked for after a lookup of b. -/
theorem laterLookupDisagrees :
    (∀ k (lt : k < [lookupA,lookupB,attrA].length),
      Asked (sceneAfter twoFiles [lookupA,lookupB,attrA] k) [lookupA,lookupB,attrA][k]) ∧
    ¬ Agrees (sceneAfter twoFiles [lookupA,lookupB,attrA] 2) attrA.op := by
  constructor
  · intro k lt
    match k,lt with
    | 0,_ => exact lookupAsked (by decide) rfl (by decide)
    | 1,_ => exact lookupAsked (by decide) rfl (by decide)
    | 2,_ => exact attrAsked (o := 1) rfl
  · intro agrees
    obtain ⟨target,meant,leads⟩ := agrees [98] rfl
    cases meant
    cases leads

end FuseStudy.NetPaths
