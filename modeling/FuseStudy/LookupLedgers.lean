import FuseStudy.RequestTabs

/-! The kernel's account of the nodes beside the library's. The ledger counts the lookups and
opens that the kernel was told of and has not given back, and what the requests under way have
in hand. -/
namespace FuseStudy.NodeStore
open CString LinearHash Script

variable {s s' : Fuse} {p q : Ptr} {n : Node} {extra : Ptr → Nat} {more less ups downs : Ino → Nat}
    {i : Instr} {t : Tab} {ino : Ino}

/-! The counts of the nodes against a ledger by ids. -/

structure Lends (due : Ino → Nat) (s : Fuse) : Prop where
  nodes : ∀ p n, s.heap p = some n → p ≠ 0 → n.nlookup = due n.nodeid + s.own n
  absent : ∀ ino, ino ≠ rootId → (∀ p n, s.heap p = some n → n.nodeid ≠ ino) → due ino = 0

variable {due due' : Ino → Nat}

theorem Lends.titled (lends : Lends due s) : Titled s := by
  intro p n live plain remember name
  have own : s.own n = 1 := if_pos ⟨remember,name⟩
  have count := lends.nodes p n live plain
  omega

theorem Steady.rootApart (steady : Steady extra s) (live : s.heap p = some n) (plain : p ≠ 0) : n.nodeid ≠ rootId := by
  intro is
  obtain ⟨r,atRoot,rootIs,_⟩ := steady.shape.root
  exact plain (steady.idsApart live atRoot (is.trans rootIs.symm))

theorem Lends.tally (lends : Lends due s) (steady : Steady extra s) (tally : Tally more less ups downs s s')
    (enough : ∀ ino, ino ≠ rootId → less ino ≤ due ino)
    (balance : ∀ ino, ino ≠ rootId → due' ino + less ino = due ino + more ino) :
    Lends due' s' := by
  constructor
  · intro p n' live' plain
    cases was : s.heap p with
    | none =>
      obtain ⟨_,_,_,count,none,_,fresh⟩ := tally.made p n' was live'
      have other : n'.nodeid ≠ rootId := by
        obtain ⟨r,atRoot,rootIs,_⟩ := steady.shape.root
        exact fun is => fresh 0 r atRoot (rootIs.trans is.symm)
      have before := lends.absent n'.nodeid other fresh
      have after := balance n'.nodeid other
      omega
    | some n =>
      obtain ⟨id,_,_,count⟩ := tally.kept p n n' was live'
      have other := steady.rootApart was plain
      have before := lends.nodes p n was plain
      have after := balance n.nodeid other
      have least := enough n.nodeid other
      have now := count plain
      rw [id]
      omega
  · intro ino other none
    have balanced := balance ino other
    have untaken : more ino = 0 := by
      by_contra some
      obtain ⟨p,n',live',is⟩ := tally.taken ino (.inl some)
      exact none p n' live' is
    by_cases there : ∃ p n, s.heap p = some n ∧ n.nodeid = ino
    · obtain ⟨p,n,live,rfl⟩ := there
      cases now : s'.heap p with
      | none =>
        obtain ⟨plain,count⟩ := tally.gone p n live now
        have before := lends.nodes p n live plain
        have least := enough n.nodeid other
        omega
      | some n' => exact absurd (tally.kept p n n' live now).1 (none p n' now)
    · have before := lends.absent ino other fun p n live is => there ⟨p,n,live,is⟩
      omega

/-! The ledger. -/

def single (o : Option Ino) (ino : Ino) : Nat := if o = some ino then 1 else 0

theorem singleNone (ino : Ino) : single none ino = 0 := rfl

theorem singleOf (nodeid ino : Ino) : single (some nodeid) ino = if ino = nodeid then 1 else 0 := by
  simp only [single,Option.some.injEq,eq_comm]

def Tab.lent (t : Tab) (ino : Ino) : Nat :=
  single t.entry ino + (t.forgets.map fun f => if f.1 = ino then f.2 else 0).sum

def Tab.opens (t : Tab) (ino : Ino) : Nat := single t.opened ino + single t.release ino

structure Ledger where
  lookups : Ino → Nat
  opens : Ino → Nat
  tabs : List Tab

def Ledger.new : Ledger := ⟨fun _ => 0,fun _ => 0,[]⟩

def Ledger.lent (l : Ledger) (ino : Ino) : Nat := l.lookups ino + (l.tabs.map (Tab.lent · ino)).sum

def Ledger.opened (l : Ledger) (ino : Ino) : Nat := l.opens ino + (l.tabs.map (Tab.opens · ino)).sum

/- What the kernel gives back with a request it holds no more. -/
def Ledger.sends (l : Ledger) (request : Request) : Ledger :=
  ⟨fun ino => l.lookups ino - request.tab.lent ino,fun ino => l.opens ino - request.tab.opens ino,
    l.tabs ++ [request.tab]⟩

/- A reply that the kernel takes hands over what it tells of. -/
def Ledger.notes (l : Ledger) (k : Nat) (j : Instr) (r : j.Result) : Ledger :=
  match l.tabs[k]? with
  | none => l
  | some t => ⟨fun ino => l.lookups ino + if j.hands r then single t.entry ino else 0,
      fun ino => l.opens ino + if j.hands r then single t.opened ino else 0,l.tabs.set k (t.after j r)⟩

def Sys.carriesOut (y : Sys) (k : Nat) (answer : Int) : Option ((j : Instr) × j.Result) :=
  match y.threads[k]? with
  | none => none
  | some t =>
    match t.phase,t.prog with
    | .granted, _ => none
    | _, .done _ => none
    | phase, .act j _ =>
      if phase = .waiting ∧ j.isPath then none
      else
        match y.fuse.exec answer j with
        | .ok (_,some r) => some ⟨j,r⟩
        | _ => none

def Ledger.after (l : Ledger) (y : Sys) : Action → Ledger
  | .arrive request => l.sends request
  | .run k answer =>
    match y.carriesOut k answer with
    | none => l
    | some ⟨j,r⟩ => l.notes k j r
  | .clean _ => l

/- The kernel forgets no more than it holds, and of a directory it asks for the entries alone; no
name is lost for want of memory; the cleaner is left out. -/
def Ledger.fits (l : Ledger) (y : Sys) : Action → Bool
  | .arrive request => !request.lists && request.tab.forgets.all fun f =>
      f.1 == rootId || decide (request.tab.lent f.1 ≤ l.lookups f.1)
  | .run k answer =>
    match y.carriesOut k answer with
    | none => true
    | some ⟨j,r⟩ => j.names r
  | .clean _ => false

theorem Tab.erased {nlookup : Nat} {forgets : List (Ino × Nat)} (mem : (ino,nlookup) ∈ forgets) (at_ : Ino) :
    ((forgets.erase (ino,nlookup)).map fun f => if f.1 = at_ then f.2 else 0).sum + (if at_ = ino then nlookup else 0) =
      (forgets.map fun f => if f.1 = at_ then f.2 else 0).sum := by
  have perm := (List.perm_cons_erase mem).map fun f => if f.1 = at_ then f.2 else 0
  rw [perm.sum_eq,List.map_cons,List.sum_cons,Nat.add_comm]
  simp only [eq_comm]

/- One instruction moves counts between the tab, the node and the kernel, and loses none. -/
theorem Tab.balance (may : t.may i) (r : i.Result) (plain : ino ≠ rootId) :
    (t.after i r).lent ino + (if i.hands r then single t.entry ino else 0) + i.gives ino = t.lent ino +
    i.takes r ino := by
  cases i with
  | findNode parent name =>
    have none : t.entry = none := may
    cases r with
    | none => rfl
    | some found =>
      have before : t.lent ino = (t.forgets.map fun f => if f.1 = ino then f.2 else 0).sum := by
        rw [Tab.lent,none]
        exact Nat.zero_add _
      have after : (t.after (.findNode parent name) (some found)).lent ino =
          (if ino = found then 1 else 0) + t.lent ino := by
        rw [before]
        simp only [Tab.after,Tab.lent,single,Option.some.injEq,eq_comm]
      rw [after,Nat.add_comm _ (t.lent ino)]
      rfl
  | forgetNode nodeid nlookup =>
    have gives : (Instr.forgetNode nodeid nlookup).gives ino = if ino = nodeid then nlookup else 0 := by
      simp only [Instr.gives,and_iff_left plain]
    rw [gives]
    by_cases mine : t.entry = some nodeid
    · have one : nlookup = 1 ∧ t.opened = none := by simpa only [Tab.may,if_pos mine] using may
      have after : t.after (.forgetNode nodeid nlookup) r = {t with entry := none} := if_pos mine
      rw [after,one.1]
      simp only [Tab.lent,mine,singleNone,singleOf,Instr.hands,Instr.takes,Bool.false_eq_true,if_false]
      omega
    · have mem : (nodeid,nlookup) ∈ t.forgets := by simpa only [Tab.may,if_neg mine] using may
      have after : t.after
        (.forgetNode nodeid nlookup) r = {t with forgets := t.forgets.erase (nodeid,nlookup)} := if_neg mine
      have erased := Tab.erased mem ino
      rw [after]
      simp only [Tab.lent,Instr.hands,Instr.takes,Bool.false_eq_true,if_false]
      omega
  | reply err =>
    by_cases handed : err = 0 ∧ r ≠ -enoent
    · have hands : (Instr.reply err).hands r = true := decide_eq_true handed
      have after : t.after (.reply err) r = {t with entry := none, opened := none} := if_pos handed
      rw [hands,after]
      simp only [Tab.lent,singleNone,Instr.gives,Instr.takes,if_true]
      omega
    · have hands : (Instr.reply err).hands r = false := decide_eq_false handed
      have after : t.after (.reply err) r = t := if_neg handed
      rw [hands,after]
      rfl
  | openNode nodeid => rfl
  | releaseNode nodeid =>
    have same : (t.after (.releaseNode nodeid) r).lent ino = t.lent ino := by
      simp only [Tab.after,Tab.lent]
      split <;> rfl
    rw [same]
    rfl
  | _ => rfl

theorem Tab.backed (may : t.may i) : i.gives ino ≤ t.lent ino := by
  cases i with
  | forgetNode nodeid nlookup =>
    simp only [Instr.gives]
    split
    · next both =>
      by_cases mine : t.entry = some nodeid
      · have one : nlookup = 1 ∧ t.opened = none := by simpa only [Tab.may,if_pos mine] using may
        rw [Tab.lent,single,if_pos (by rw [both.1]; exact mine),one.1]
        omega
      · have mem : (nodeid,nlookup) ∈ t.forgets := by simpa only [Tab.may,if_neg mine] using may
        have erased := Tab.erased mem ino
        rw [if_pos both.1] at erased
        rw [Tab.lent]
        omega
    · exact Nat.zero_le _
  | _ => exact Nat.zero_le _

theorem sumSet {l : List Tab} {k : Nat} {u : Tab} (f : Tab → Nat) (at_ : l[k]? = some t) :
    ((l.set k u).map f).sum + f t = (l.map f).sum + f u := by
  obtain ⟨low,is⟩ := List.getElem?_eq_some_iff.mp at_
  have before := ((List.getElem_cons_eraseIdx_perm low).map f).sum_eq
  have low' : k < (l.set k u).length := by rwa [List.length_set]
  have after := ((List.getElem_cons_eraseIdx_perm low').map f).sum_eq
  rw [List.eraseIdx_set_eq,List.getElem_set_self,List.map_cons,List.sum_cons] at after
  rw [is,List.map_cons,List.sum_cons] at before
  omega

theorem sumLeast {l : List Tab} {k : Nat} (f : Tab → Nat) (at_ : l[k]? = some t) : f t ≤ (l.map f).sum := by
  have mem : f t ∈ l.map f := List.mem_map_of_mem (List.mem_of_getElem? at_)
  exact List.single_le_sum (fun _ _ => Nat.zero_le _) _ mem

variable {l l' : Ledger} {k : Nat}

theorem Ledger.notesAt (at_ : l.tabs[k]? = some t) (r : i.Result) : l.notes k i r =
    ⟨fun ino => l.lookups ino + if i.hands r then single t.entry ino else 0,
      fun ino => l.opens ino + if i.hands r then single t.opened ino else 0,l.tabs.set k (t.after i r)⟩ := by
  rw [Ledger.notes,at_]

theorem Ledger.notesLent (at_ : l.tabs[k]? = some t) (may : t.may i) (r : i.Result) (plain : ino ≠ rootId) :
    (l.notes k i r).lent ino + i.gives ino = l.lent ino + i.takes r ino := by
  have balance := Tab.balance may r plain
  have set := @sumSet _ _ _ (t.after i r) (Tab.lent · ino) at_
  rw [Ledger.notesAt at_]
  simp only [Ledger.lent]
  omega

theorem Ledger.notesCalm (calm : i.calm = true) (r : i.Result) : l.notes k i r = l := by
  cases at_ : l.tabs[k]? with
  | none => rw [Ledger.notes,at_]
  | some t =>
    have hands : i.hands r = false := by
      cases i <;> first | rfl | cases calm
    have same : l.tabs.set k t = l.tabs := by
      obtain ⟨low,is⟩ := List.getElem?_eq_some_iff.mp at_
      rw [← is]
      exact List.set_getElem_self low
    rw [Ledger.notesAt at_,hands,calmAfter calm,same]
    rfl

/-! Runs beside the ledger. -/

inductive Charged (fits : Ledger → Sys → Action → Bool) (conf : Conf) (memory : Nat → Bool) : Sys → Ledger → Prop
  | start : Charged fits conf memory (Sys.start conf memory) Ledger.new
  | step {y y' : Sys} {l : Ledger} {action : Action} (before : Charged fits conf memory y l)
      (allowed : y.allowed action)
      (fit : fits l y action) (ran : y.step action = .ok y') : Charged fits conf memory y' (l.after y action)

structure Balanced (l : Ledger) (y : Sys) : Prop where
  size : l.tabs.length = y.threads.length
  owes : ∀ (k : Nat) (u : Thread) (t : Tab), y.threads[k]? = some u → l.tabs[k]? = some t →
    Keeps tabRule (fun _ t => t.clear) u.prog t
  lends : Lends l.lent y.fuse
  numbered : ∀ p n, y.fuse.heap p = some n → n.nodeid ≠ 0

variable {y y' : Sys} {u : Thread} {next : i.Result → Prog Unit} {answer : Int} {r : i.Result}

theorem Balanced.tab (balanced : Balanced l y) (at_ : y.threads[k]? = some u) : ∃ t, l.tabs[k]? = some t := by
  obtain ⟨low,_⟩ := List.getElem?_eq_some_iff.mp at_
  exact ⟨_,List.getElem?_eq_getElem (balanced.size ▸ low)⟩

theorem Coherent.servedTally (coherent : Coherent y) (at_ : y.threads[k]? = some u)
    (is : u.prog = .act i next) (titled : Titled y.fuse) (names : i.names r)
    (ran : y.fuse.exec answer i = .ok (s,some r)) : Tally (i.takes r) i.gives i.opens i.closes y.fuse s := by
  have sane := coherent.sane k u at_
  obtain ⟨facts,keeps,knows⟩ := sane.knows
  rw [is] at keeps
  have running : u.finished = false := by rw [Thread.finished,is]
  exact @execTally _ _ _ _ (u.ghost facts) _ _ _ (coherent.split at_) knows keeps.1
    ⟨sane.pair,coherent.room at_ running⟩ titled names ran

theorem Relocked.level (relocked : Relocked s s') : Level s s' := by
  obtain ⟨locks,memory,rfl⟩ := relocked
  refine levelOf (fun p n live => ⟨_,relockAt live,rfl,rfl,fun _ => rfl⟩) fun p none => ?_
  simp only [Fuse.relock,none,Option.map_none]

theorem Tally.numbered (tally : Tally more less ups downs s s') (numbered : ∀ p n, s.heap p = some n → n.nodeid ≠ 0) :
    ∀ p n, s'.heap p = some n → n.nodeid ≠ 0 := by
  intro p n live
  cases was : s.heap p with
  | none => exact (tally.made p n was live).2.2.2.2.2.1
  | some m =>
    rw [(tally.kept p m n was live).1]
    exact numbered p m was

inductive Posted (l : Ledger) (y : Sys) : Ledger → Sys → Prop
  | served {k : Nat} {u : Thread} {i : Instr} {next : i.Result → Prog Unit} {s : Fuse} {r : i.Result}
      {answer : Int} (at_ : y.threads[k]? = some u)
      (is : u.prog = .act i next) (names : i.names r) (ran : y.fuse.exec answer i = .ok (s,some r))
        (phase : Phase) (lockq : List Nat) :
      Posted l y (l.notes k i r) ⟨s,y.threads.set k (u.take i next r phase),lockq⟩
  | refused {k : Nat} {u : Thread} {i : Instr} {next : i.Result → Prog Unit} {s : Fuse} {answer : Int}
      (at_ : y.threads[k]? = some u)
      (is : u.prog = .act i next) (ran : y.fuse.exec answer i = .ok (s,none)) : Posted l y l {y with fuse := s}
  | rephased {k : Nat} {u : Thread} (at_ : y.threads[k]? = some u) (phase : Phase) (lockq : List Nat) :
      Posted l y l ⟨y.fuse,y.threads.set k {u with phase := phase},lockq⟩

def KeptByPosts (P : Ledger → Sys → Prop) : Prop := ∀ l l' y y', Coherent y → Posted l y l' y' → P l y → P l' y'

variable {P : Ledger → Sys → Prop} {action : Action}

theorem pathCalm (path : i.isPath = true) (r : i.Result) : i.calm = true ∧ i.names r = true := by
  cases i <;> first | exact ⟨rfl,rfl⟩ | cases path

theorem Woken.posts (kept : KeptByPosts P) (woken : Woken y k y') (coherent : Coherent y) (holds : P l y) : P l y' := by
  cases woken with
  | idle => exact holds
  | signalled at_ => exact kept _ _ _ _ coherent (.rephased at_ _ _) holds
  | refused at_ _ is _ ran => exact kept _ _ _ _ coherent (.refused at_ is ran) holds
  | @granted t j next s r at_ waits is other ran =>
    obtain ⟨calm,names⟩ := pathCalm (coherent.waitsPath at_ waits is other) r
    have granted := kept _ _ _ _ coherent (.served at_ is names ran .granted y.lockq) holds
    rwa [Ledger.notesCalm calm] at granted

theorem passPosts {queue : List Nat} (kept : KeptByPosts P) (coherent : Coherent y)
    (ran : queue.foldlM Sys.wakeup y = .ok y') (holds : P l y) :
    P l y' := by
  induction queue generalizing y with
  | nil =>
    cases ran
    exact holds
  | cons k rest ih =>
    obtain ⟨y₁,first,rest⟩ := callBind ran
    have woken := wakeupSpec first
    exact ih (woken.coherent coherent) rest (woken.posts kept coherent holds)

theorem runPosts (kept : KeptByPosts P) (coherent : Coherent y) (fit : l.fits y (.run k answer) = true)
    (ran : y.run k answer = .ok y') (holds : P l y) : P (l.after y (.run k answer)) y' := by
  unfold Sys.run at ran
  simp only [Ledger.after]
  simp only [Ledger.fits] at fit
  cases at_ : y.threads[k]? with
  | none =>
    rw [at_] at ran
    cases ran
    simp only [Sys.carriesOut,at_]
    exact holds
  | some u =>
    rw [at_] at ran
    dsimp only at ran
    split at ran
    · next phase =>
      cases ran
      simp only [Sys.carriesOut,at_,phase]
      exact kept _ _ _ _ coherent (.rephased at_ _ _) holds
    · next done ungranted =>
      cases ran
      simp only [Sys.carriesOut,at_,done]
      exact holds
    · next i next is ungranted =>
      split at ran
      · next waits =>
        cases ran
        simp only [Sys.carriesOut,at_,is,waits.1,waits.2,and_self,if_true]
        exact holds
      · next served =>
        obtain ⟨⟨s,r⟩,exec,ran⟩ := callBind ran
        cases r with
        | none =>
          cases ran
          have nothing : y.carriesOut k answer = none := by simp only [Sys.carriesOut,at_,is,served,if_false,exec]
          rw [nothing]
          have refused := kept _ _ _ _ coherent (.refused at_ is exec) holds
          exact kept _ _ _ _ (coherent.refused at_ is exec).1
            (Posted.rephased (y := {y with fuse := s}) at_ .waiting _) refused
        | some r =>
          have carries : y.carriesOut k answer = some ⟨i,r⟩ := by simp only [Sys.carriesOut,at_,is,served,if_false,exec]
          rw [carries] at fit ⊢
          have posted := kept _ _ _ _ coherent (.served at_ is fit exec .running (y.lockq.erase k)) holds
          dsimp only at ran
          split at ran
          · next frees =>
            have serial : ∀ (j : Nat) (v : Thread), j ≠ k → y.threads[j]? = some v → v.finished = false →
                ∀ e ∈ v.entries, e ∉ i.makes := by
              intro _ _ _ _ _ e _
              rw [freesMakes frees]
              exact List.not_mem_nil
            exact passPosts kept
              (coherent.served at_ is exec serial (.inl rfl) (coherent.queue.leaves at_ rfl)) ran posted
          · cases ran
            exact posted

theorem Coherent.refusedOnly (coherent : Coherent y) (at_ : y.threads[k]? = some u) (is : u.prog = .act i next)
    (ran : y.fuse.exec answer i = .ok (s,none)) : Relocked y.fuse s := by
  have sane := coherent.sane k u at_
  obtain ⟨facts,keeps,_⟩ := sane.knows
  rw [is] at keeps
  have running : u.finished = false := by rw [Thread.finished,is]
  have waited : Waited (u.holds ++ y.others k) (u.pins ++ y.otherPins k) i y.fuse s :=
    @execWaits _ _ _ _ (u.ghost facts) _ _ (coherent.split at_) keeps.1 ⟨sane.pair,coherent.room at_ running⟩ ran
  exact waited.relocked

theorem balancedPosts : KeptByPosts Balanced := by
  intro l l' y y' coherent posted balanced
  have steady := coherent.world.tree.toSteady
  cases posted with
  | @rephased k u at_ phase lockq =>
    refine ⟨by rw [List.length_set]; exact balanced.size,?_,balanced.lends,balanced.numbered⟩
    intro j v t here tab
    rcases atSet here with ⟨rfl,rfl⟩ | ⟨_,before⟩
    · exact balanced.owes j u t at_ tab
    · exact balanced.owes j v t before tab
  | @refused k u i next s answer at_ is ran =>
    have level := (coherent.refusedOnly at_ is ran).level
    exact ⟨balanced.size,balanced.owes,
      balanced.lends.tally steady level (fun _ _ => Nat.zero_le _) fun _ _ => rfl,level.numbered balanced.numbered⟩
  | @served k u i next s r answer at_ is names ran phase lockq =>
    obtain ⟨t,tab⟩ := balanced.tab at_
    have owes := balanced.owes k u t at_ tab
    rw [is] at owes
    obtain ⟨may,rest⟩ := owes
    have tally := coherent.servedTally at_ is balanced.lends.titled names ran
    have numbered := tally.numbered balanced.numbered
    have found : i.numbers r := by
      cases i with
      | findNode parent name =>
        cases r with
        | none => trivial
        | some ino =>
          obtain ⟨p,n,live,rfl⟩ := tally.taken ino (.inl (by simp only [Instr.takes,if_true]; exact Nat.one_ne_zero))
          exact numbered p n live
      | _ => trivial
    refine ⟨?_,?_,?_,numbered⟩
    · rw [Ledger.notesAt tab]
      simp only [List.length_set]
      exact balanced.size
    · intro j v t' here tab'
      rw [Ledger.notesAt tab] at tab'
      rcases atSet here with ⟨rfl,rfl⟩ | ⟨other,before⟩
      · rw [List.getElem?_set_self (List.getElem?_eq_some_iff.mp tab).1] at tab'
        cases tab'
        exact rest r _ ⟨found,rfl⟩
      · rw [List.getElem?_set_ne (Ne.symm other)] at tab'
        exact balanced.owes j v t' before tab'
    · refine balanced.lends.tally steady tally ?_ fun ino plain => Ledger.notesLent tab may r plain
      intro ino _
      have least := sumLeast (Tab.lent · ino) tab
      have backed : i.gives ino ≤ t.lent ino := Tab.backed may
      rw [Ledger.lent]
      omega

theorem Ledger.sendsLent {request : Request} (enough : request.tab.lent ino ≤ l.lookups ino) :
    (l.sends request).lent ino = l.lent ino := by
  simp only [Ledger.lent,Ledger.sends,List.map_append,List.sum_append,List.map_cons,List.map_nil,
    List.sum_cons,List.sum_nil]
  omega

theorem unasked {request : Request} (none : ∀ f ∈ request.tab.forgets, f.1 ≠ ino) : request.tab.lent ino = 0 := by
  have entry : request.tab.entry = Option.none := by cases request <;> rfl
  have zero : (request.tab.forgets.map fun f => if f.1 = ino then f.2 else 0).sum = 0 := by
    refine List.sum_eq_zero fun v mem => ?_
    obtain ⟨f,there,rfl⟩ := List.mem_map.mp mem
    exact if_neg (none f there)
  rw [Tab.lent,zero,entry,singleNone]

theorem Ledger.enough {request : Request} (fit : l.fits y (.arrive request) = true) (plain : ino ≠ rootId) :
    request.tab.lent ino ≤ l.lookups ino := by
  simp only [Ledger.fits,Bool.and_eq_true,List.all_eq_true,Bool.or_eq_true,beq_iff_eq,decide_eq_true_eq] at fit
  by_cases asked : ∃ f ∈ request.tab.forgets, f.1 = ino
  · obtain ⟨f,mem,rfl⟩ := asked
    exact (fit.2 f mem).resolve_left plain
  · rw [unasked fun f mem is => asked ⟨f,mem,is⟩]
    exact Nat.zero_le _

theorem Balanced.sent {request : Request} (balanced : Balanced l y) (coherent : Coherent y)
    (fit : l.fits y (.arrive request) = true) :
    Balanced (l.sends request)
      {y with threads := y.threads ++ [⟨request.entries,request.script y.fuse.conf,[],[],.running⟩]} := by
  have lists : request.lists = false := by
    simp only [Ledger.fits,Bool.and_eq_true,Bool.not_eq_true'] at fit
    exact fit.1
  have size := balanced.size
  refine ⟨?_,?_,?_,balanced.numbered⟩
  · simp only [Ledger.sends,List.length_append,List.length_singleton,size]
  · intro j v t here tab
    simp only [Ledger.sends] at tab
    rcases Nat.lt_trichotomy j y.threads.length with low | rfl | high
    · rw [List.getElem?_append_left low] at here
      rw [List.getElem?_append_left (by rw [size]; exact low)] at tab
      exact balanced.owes j v t here tab
    · rw [← size,List.getElem?_concat_length] at tab
      rw [List.getElem?_concat_length] at here
      cases here
      cases tab
      exact requestTab request lists
    · rw [List.getElem?_eq_none (by rw [List.length_append]; exact high)] at here
      cases here
  · refine ⟨fun p n live plain => ?_,fun ino plain absent => ?_⟩
    · rw [Ledger.sendsLent (Ledger.enough fit (coherent.world.tree.toSteady.rootApart live plain))]
      exact balanced.lends.nodes p n live plain
    · rw [Ledger.sendsLent (Ledger.enough fit plain)]
      exact balanced.lends.absent ino plain absent

theorem stepPosts (kept : KeptByPosts P) (coherent : Coherent y) (fit : l.fits y action = true)
    (ran : y.step action = .ok y')
    (arrives : ∀ request, action = .arrive request →
      P (l.sends request)
        {y with threads := y.threads ++ [⟨request.entries,request.script y.fuse.conf,[],[],.running⟩]})
    (holds : P l y) : P (l.after y action) y' := by
  cases action with
  | arrive request =>
    cases ran
    exact arrives request rfl
  | run k answer => exact runPosts kept coherent fit ran holds
  | clean aged => cases fit

theorem startBalanced (conf : Conf) (memory : Nat → Bool) : Balanced Ledger.new (Sys.start conf memory) := by
  have alone : ∀ p n, (Sys.start conf memory).fuse.heap p = some n → p = 0 ∧ n = rootNode :=
    fun p n live => emptyTreeCell conf memory live
  refine ⟨rfl,(fun k u t at_ => by cases at_),
    ⟨fun p n live plain => absurd (alone p n live).1 plain,fun _ _ _ => rfl⟩,?_⟩
  intro p n live
  obtain ⟨_,rfl⟩ := alone p n live
  exact Nat.one_ne_zero

variable {conf : Conf} {memory : Nat → Bool} {fits : Ledger → Sys → Action → Bool}

theorem Charged.coherent (charged : Charged fits conf memory y l) : Coherent y := by
  induction charged with
  | start => exact startCoherent conf memory
  | step _ allowed _ ran ih => exact ih.step allowed ran

theorem Charged.balanced (charged : Charged fits conf memory y l)
    (only : ∀ l y action, fits l y action = true → l.fits y action = true) :
    Balanced l y := by
  induction charged with
  | start => exact startBalanced conf memory
  | step before allowed fit ran ih =>
    have coherent := before.coherent
    have fit := only _ _ _ fit
    refine stepPosts balancedPosts coherent fit ran ?_ ih
    rintro request rfl
    exact ih.sent coherent fit

def Sys.rests (y : Sys) : Prop := ∀ u ∈ y.threads, u.finished = true

theorem Balanced.clearAt (balanced : Balanced l y) (at_ : y.threads[k]? = some u) (tab : l.tabs[k]? = some t)
    (done : u.finished = true) : t.clear := by
  have owes := balanced.owes k u t at_ tab
  unfold Thread.finished at done
  split at done
  · next is =>
    rw [is] at owes
    exact owes
  · cases done

theorem Balanced.cleared (balanced : Balanced l y) (rests : y.rests) : ∀ t ∈ l.tabs, t.clear := by
  intro t mem
  obtain ⟨k,low,rfl⟩ := List.mem_iff_getElem.mp mem
  have low' : k < y.threads.length := balanced.size ▸ low
  exact balanced.clearAt (List.getElem?_eq_getElem low') (List.getElem?_eq_getElem low)
    (rests _ (List.getElem_mem low'))

theorem clearLent (clear : t.clear) (ino : Ino) : t.lent ino = 0 := by
  obtain ⟨entry,_,forgets,_⟩ := clear
  rw [Tab.lent,entry,forgets]
  rfl

theorem clearOpens (clear : t.clear) (ino : Ino) : t.opens ino = 0 := by
  obtain ⟨_,opened,_,release⟩ := clear
  rw [Tab.opens,opened,release]
  rfl

theorem Balanced.settled (balanced : Balanced l y) (rests : y.rests) (f : Tab → Nat)
    (clear : ∀ t, t.clear → f t = 0) : (l.tabs.map f).sum = 0 := by
  refine List.sum_eq_zero fun v mem => ?_
  obtain ⟨t,there,rfl⟩ := List.mem_map.mp mem
  exact clear t (balanced.cleared rests t there)

/- The library counts the lookups of a node as the kernel does, with the one of its own; what a
request under way has in hand is counted by its tab. A node that the kernel has looked up is there. -/
theorem lookupsAgree (charged : Charged Ledger.fits conf memory y l) :
    (∀ p n, y.fuse.heap p = some n → p ≠ 0 →
      n.nlookup = l.lent n.nodeid + y.fuse.own n ∧ (y.rests → n.nlookup = l.lookups n.nodeid + y.fuse.own n)) ∧
      ∀ ino, ino ≠ rootId → l.lookups ino ≠ 0 → ∃ p n, y.fuse.heap p = some n ∧ n.nodeid = ino := by
  have balanced := charged.balanced fun _ _ _ fit => fit
  refine ⟨fun p n live plain => ?_,fun ino plain known => ?_⟩
  · have count := balanced.lends.nodes p n live plain
    refine ⟨count,fun rests => ?_⟩
    rw [count,Ledger.lent,balanced.settled rests _ fun t clear => clearLent clear n.nodeid]
    rfl
  · by_contra none
    have nothing := balanced.lends.absent ino plain fun p n live is => none ⟨p,n,live,is⟩
    rw [Ledger.lent] at nothing
    omega

def Sys.charge (fits : Ledger → Sys → Action → Bool) : Sys → Ledger → List Action → Option (Sys × Ledger)
  | y, l, [] => some (y,l)
  | y, l, action :: actions =>
    if y.allowed action && fits l y action then
      match y.step action with
      | .ok y' => y'.charge fits (l.after y action) actions
      | .error _ => none
    else none

theorem chargeCharged {actions : List Action} (charged : Charged fits conf memory y l)
    (ran : y.charge fits l actions = some (y',l')) :
    Charged fits conf memory y' l' := by
  induction actions generalizing y l with
  | nil =>
    cases ran
    exact charged
  | cons action actions ih =>
    unfold Sys.charge at ran
    split at ran
    · next allowed =>
      rw [Bool.and_eq_true] at allowed
      split at ran
      · next y₁ step => exact ih (charged.step allowed.1 allowed.2 step) ran
      · cases ran
    · cases ran

/- A file is created twice: the first reply is taken, the second comes too late. -/
def createdTwice : List Action :=
  .arrive (.create 1 (ascii "a") true) :: List.replicate 9 (.run 0 0) ++ .arrive
    (.create 1 (ascii "a") true) :: List.replicate 5 (.run 1 0) ++
    .run 1 (-2) :: List.replicate 5 (.run 1 0)

theorem oneLookupOfTwo :
    ∃ y l p n, Charged Ledger.fits ⟨1,false,false⟩ (fun _ => true) y l ∧ y.rests ∧ y.fuse.heap p = some n ∧
    l.lookups n.nodeid = 1 ∧ n.nlookup = 2 := by
  have passes : ((Sys.start ⟨1,false,false⟩ fun _ => true).charge Ledger.fits Ledger.new createdTwice).any (fun (y,l) =>
      y.threads.all Thread.finished && (y.fuse.heap 1).any fun n =>
        l.lookups n.nodeid == 1 && y.fuse.own n == 1) = true := by
    decide +kernel
  simp only [Option.any_eq_true,Bool.and_eq_true,beq_iff_eq,List.all_eq_true] at passes
  obtain ⟨⟨y,l⟩,ran,rests,n,live,once,own⟩ := passes
  dsimp only at once own
  have charged := chargeCharged .start ran
  have count := ((lookupsAgree charged).1 1 n live (by decide)).2 rests
  exact ⟨y,l,1,n,charged,rests,live,once,by omega⟩

end FuseStudy.NodeStore
