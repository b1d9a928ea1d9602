import FuseStudy.PathProtocol

/-! How every request goes about its paths: it gives back what it holds, keeps to the nodes
that it has write locked and ends with nothing in hand. -/
namespace FuseStudy.NodeStore
open CString Script

/- What a request knows about the entries it works on: the node there, or that there is
none. -/
abbrev Facts := Ino × Name → Option (Option Ptr)

structure Ghost where
  entries : List (Ino × Name)
  holds : List Held
  pins : List Ptr
  facts : Facts

def Ghost.inside (g : Ghost) (dir : Ino) : Prop := ∃ h ∈ g.holds, h.want.nodeid = dir

def Ghost.wants (g : Ghost) (want : Want) : Prop :=
  want.write = true → ∃ name, want.name = some name ∧ (want.nodeid,name) ∈ g.entries

/- One entry is not both source and target, unless nothing is there. -/
def Distinct (facts : Facts) (old new : Ino × Name) : Prop := ∀ p, facts old = some (some p) → old ≠ new

def May (g : Ghost) : Instr → Prop
  | .getPath want => g.holds.length ≤ 1 ∧ g.wants want
  | .getPath2 want1 want2 => g.holds = [] ∧ g.wants want1 ∧ g.wants want2
  | .freePath held => held ∈ g.holds
  | .freePath2 held1 held2 => held1 ∈ g.holds ∧ held2 ∈ g.holds.erase held1
  | .findNode parent name => ∀ nm, name = some nm → (parent,nm) ∉ g.entries
  | .forgetNode _ nlookup => 0 < nlookup
  | .removeNode dir name => g.facts (dir,name) ≠ none ∧ g.inside dir
  | .renameNode olddir oldname newdir newname hide => g.facts (olddir,oldname) ≠ none ∧
    (hide = true → (olddir,oldname) ≠ (newdir,newname) ∧ (olddir,oldname) ∈ g.entries) ∧
    (hide = false → g.facts (newdir,newname) ≠ none ∧ Distinct g.facts (olddir,oldname) (newdir,newname)) ∧
    g.inside olddir ∧ g.inside newdir
  | .exchangeNode olddir oldname newdir newname => g.facts (olddir,oldname) ≠ none ∧
    g.facts (newdir,newname) ≠ none ∧ Distinct g.facts (olddir,oldname) (newdir,newname) ∧
      g.inside olddir ∧ g.inside newdir
  | .unpinNode node => node ∈ g.pins
  | _ => True

def learn (facts : Facts) (want : Want) (held : Held) : Facts :=
  match want.write,want.name with
  | true,some name => Function.update facts (want.nodeid,name) (some held.wnode)
  | _,_ => facts

def forgotten : Facts := fun _ => none

/- What is known afterwards. A hidden node is found under its new name. -/
def Instr.facts : (i : Instr) → i.Result → Facts → Facts
  | .getPath want, .ok held, facts => learn facts want held
  | .getPath2 want1 want2, .ok (held1,held2), facts => learn (learn facts want1 held1) want2 held2
  | .freePath _, _, _ => forgotten
  | .freePath2 .., _, _ => forgotten
  | .removeNode .., _, _ => forgotten
  | .exchangeNode .., _, _ => forgotten
  | .renameNode olddir oldname newdir newname hide, err, facts =>
    if hide ∧ err = 0 then
      match facts (olddir,oldname) with
      | some (some w) =>
        Function.update (Function.update facts (newdir,newname) (some (some w))) (olddir,oldname) (some none)
      | _ => facts
    else forgotten
  | _, _, facts => facts

def Tells (g : Ghost) : (i : Instr) → i.Result → Prop
  | .getPath want, .ok held => held.want = want
  | .getPath2 want1 want2, .ok (held1,held2) => held1.want = want1 ∧ held2.want = want2 ∧
    (want1.write = true → want2.write = true → want1.nodeid = want2.nodeid → want1.name = want2.name →
      held2.wnode = none)
  | .isOpen dir name, isopen => isopen = true → g.facts (dir,name) ≠ some none
  | .hiddenName _ oldname, some (newname,_) => newname ≠ oldname
  | .nodeName (some p), name => ∀ e, g.facts e = some (some p) → e.2 = name
  | _, _ => True

def Ghost.next (g : Ghost) (i : Instr) (r : i.Result) : Ghost :=
  ⟨g.entries,i.holds r g.holds,i.pins r g.pins,i.facts r g.facts⟩

def pathRule : Discipline Instr Instr.Result Ghost where
  may := May
  after g i r g' := g' = g.next i r ∧ Tells g i r

def Empty : Unit → Ghost → Prop := fun _ g => g.holds = [] ∧ g.pins = []

variable {α : Type} {post : α → Ghost → Prop} {g : Ghost}

theorem keepsAsk {i : Instr} {f : i.Result → Prog α} (may : May g i)
    (rest : ∀ r, Tells g i r → Keeps pathRule post (f r) (g.next i r)) : Keeps pathRule post (ask i >>= f) g := by
  refine ⟨may,?_⟩
  rintro r _ ⟨rfl,tells⟩
  exact rest r tells

theorem keepsLast {i : Instr} {post : i.Result → Ghost → Prop} (may : May g i)
    (rest : ∀ r, Tells g i r → post r (g.next i r)) : Keeps pathRule post (ask i) g := by
  refine ⟨may,?_⟩
  rintro r _ ⟨rfl,tells⟩
  exact rest r tells

theorem keepsPure' {a : α} (done : post a g) : Keeps pathRule post (pure a : Prog α) g := done

theorem keepsFs {op : FsOp} {path : Option Bytes} {f : Int → Prog α} (rest : ∀ r, Keeps pathRule post (f r) g) :
    Keeps pathRule post (fs op path >>= f) g :=
  keepsAsk trivial fun r _ => rest r

theorem keepsReply {err : Int} {post : Unit → Ghost → Prop} (done : post () g) : Keeps pathRule post (replyErr err) g :=
  keepsAsk trivial fun _ _ => done

theorem keepsReplyThen {err : Int} {f : Unit → Prog α} (rest : Keeps pathRule post (f ()) g) :
    Keeps pathRule post (replyErr err >>= f) g :=
  Keeps.bind (keepsReply rest)

end FuseStudy.NodeStore
