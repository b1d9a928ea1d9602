import FuseStudy.LookupLedgers

/-! The kernel's account of open files. The kernel opens only what it has looked up, and forgets
a node only when all that it has opened of it is closed again. -/
namespace FuseStudy.NodeStore
open CString LinearHash Script

variable {s s' : Fuse} {p : Ptr} {n : Node} {extra : Ptr → Nat}
    {more less ups downs due' used used' : Ino → Nat} {i : Instr} {t : Tab}
  {ino : Ino} {l l' : Ledger} {k : Nat} {y y' : Sys} {u : Thread} {conf : Conf} {memory : Nat → Bool}

structure Opened (used : Ino → Nat) (s : Fuse) : Prop where
  nodes : ∀ p n, s.heap p = some n → n.openCount = used n.nodeid
  absent : ∀ ino, (∀ p n, s.heap p = some n → n.nodeid ≠ ino) → used ino = 0

/- A node that is open is not freed, for it has lookups. -/
theorem Opened.tally (counts : Opened used s) (tally : Tally more less ups downs s s')
    (root : ∃ p n, s'.heap p = some n ∧ n.nodeid = rootId) (lends' : Lends due' s')
    (kept : ∀ ino, used' ino ≠ 0 → due' ino ≠ 0 ∨ ino = rootId)
    (balance : ∀ ino, used' ino + downs ino = used ino + ups ino) : Opened used' s' := by
  have absent : ∀ ino, (∀ p n, s'.heap p = some n → n.nodeid ≠ ino) → used' ino = 0 := by
    intro ino none
    have other : ino ≠ rootId := by
      rintro rfl
      obtain ⟨p,n,live,is⟩ := root
      exact none p n live is
    by_contra some
    rcases kept ino some with lent | is
    · exact lent (lends'.absent ino other none)
    · exact other is
  refine ⟨?_,absent⟩
  intro p n' live'
  cases was : s.heap p with
  | none =>
    obtain ⟨_,none,still,_,_,_,fresh⟩ := tally.made p n' was live'
    have before := counts.absent n'.nodeid fresh
    have after := balance n'.nodeid
    omega
  | some n =>
    obtain ⟨id,closed,count,_⟩ := tally.kept p n n' was live'
    have before := counts.nodes p n was
    have after := balance n.nodeid
    rw [id]
    omega

/-! The tab of a request names the node of its file. -/

def Tab.tidy (t : Tab) : Prop :=
  (∀ ino, t.opened = some ino → t.entry = some ino ∨ t.file = some ino) ∧ ∀ ino, t.release = some ino →
    t.file = some ino

theorem Tab.tidied (tidy : t.tidy) (may : t.may i) (r : i.Result) : (t.after i r).tidy := by
  obtain ⟨opens,closes⟩ := tidy
  cases i with
  | findNode parent name =>
    cases r with
    | none => exact ⟨opens,closes⟩
    | some found =>
      have none : t.entry = none := may
      refine ⟨fun ino opened => .inr ?_,closes⟩
      refine (opens ino opened).resolve_left ?_
      rw [none]
      exact (Option.some_ne_none ino).symm
  | forgetNode nodeid nlookup =>
    by_cases mine : t.entry = some nodeid
    · have one : nlookup = 1 ∧ t.opened = none := by simpa only [Tab.may,if_pos mine] using may
      have after : t.after (.forgetNode nodeid nlookup) r = {t with entry := none} := if_pos mine
      rw [after]
      refine ⟨fun ino opened => ?_,closes⟩
      rw [one.2] at opened
      cases opened
    · have after : t.after
        (.forgetNode nodeid nlookup) r = {t with forgets := t.forgets.erase (nodeid,nlookup)} := if_neg mine
      rw [after]
      exact ⟨opens,closes⟩
  | openNode nodeid =>
    refine ⟨?_,closes⟩
    rintro _ ⟨⟩
    exact may.2
  | releaseNode nodeid =>
    by_cases mine : t.opened = some nodeid
    · have after : t.after (.releaseNode nodeid) r = {t with opened := none} := if_pos mine
      rw [after]
      exact ⟨fun _ no => (by cases no),closes⟩
    · have after : t.after (.releaseNode nodeid) r = {t with release := none} := if_neg mine
      rw [after]
      exact ⟨opens,fun _ no => (by cases no)⟩
  | reply err =>
    by_cases handed : err = 0 ∧ r ≠ -enoent
    · have after : t.after (.reply err) r = {t with entry := none, opened := none} := if_pos handed
      rw [after]
      exact ⟨fun _ no => (by cases no),closes⟩
    · have after : t.after (.reply err) r = t := if_neg handed
      rw [after]
      exact ⟨opens,closes⟩
  | _ => exact ⟨opens,closes⟩

theorem sameFile (t : Tab) (i : Instr) (r : i.Result) : (t.after i r).file = t.file := by
  cases i with
  | findNode parent name => cases r <;> rfl
  | forgetNode nodeid nlookup =>
    simp only [Tab.after]
    split <;> rfl
  | releaseNode nodeid =>
    simp only [Tab.after]
    split <;> rfl
  | reply err =>
    simp only [Tab.after]
    split <;> rfl
  | _ => rfl

theorem Tab.openBalance (may : t.may i) (r : i.Result) (ino : Ino) :
    (t.after i r).opens ino + (if i.hands r then single t.opened ino else 0) + i.closes ino = t.opens ino +
    i.opens ino := by
  cases i with
  | findNode parent name => cases r <;> rfl
  | forgetNode nodeid nlookup =>
    have same : (t.after (.forgetNode nodeid nlookup) r).opens ino = t.opens ino := by
      simp only [Tab.after,Tab.opens]
      split <;> rfl
    rw [same]
    rfl
  | openNode nodeid =>
    have none : t.opened = none := may.1
    simp only [Tab.after,Tab.opens,none,singleNone,singleOf,Instr.hands,Instr.closes,Instr.opens,
      Bool.false_eq_true,if_false]
    omega
  | releaseNode nodeid =>
    by_cases mine : t.opened = some nodeid
    · have after : t.after (.releaseNode nodeid) r = {t with opened := none} := if_pos mine
      rw [after]
      simp only [Tab.opens,mine,singleNone,singleOf,Instr.hands,Instr.closes,Instr.opens,Bool.false_eq_true,if_false]
      omega
    · have release : t.release = some nodeid := Or.resolve_left may mine
      have after : t.after (.releaseNode nodeid) r = {t with release := none} := if_neg mine
      rw [after]
      simp only [Tab.opens,release,singleNone,singleOf,Instr.hands,Instr.closes,Instr.opens,Bool.false_eq_true,if_false]
      omega
  | reply err =>
    by_cases handed : err = 0 ∧ r ≠ -enoent
    · have hands : (Instr.reply err).hands r = true := decide_eq_true handed
      have after : t.after (.reply err) r = {t with entry := none, opened := none} := if_pos handed
      rw [hands,after]
      simp only [Tab.opens,singleNone,Instr.closes,Instr.opens,if_true]
      omega
    · have hands : (Instr.reply err).hands r = false := decide_eq_false handed
      have after : t.after (.reply err) r = t := if_neg handed
      rw [hands,after]
      rfl
  | _ => rfl

/-! What the kernel promises about its open files. -/

/- A request under way is about an open file of the node. -/
def Ledger.busy (l : Ledger) (y : Sys) (ino : Ino) : Bool :=
  (y.threads.zip l.tabs).any fun (u,t) => !u.finished && t.file == some ino

def Ledger.settles (l : Ledger) (y : Sys) : Action → Bool
  | .arrive request =>
    (request.tab.file.all fun ino => ino == rootId || decide (0 < l.lookups ino)) &&
    (request.tab.release.all fun ino => decide (0 < l.opens ino)) &&
    request.tab.forgets.all fun f =>
      f.1 == rootId || decide (request.tab.lent f.1 < l.lookups f.1) || (l.opens f.1 == 0 && !l.busy y f.1)
  | _ => true

def Ledger.fitsOpens (l : Ledger) (y : Sys) (action : Action) : Bool := l.fits y action && l.settles y action

/- What is open was looked up. -/
structure Tidy (l : Ledger) (y : Sys) : Prop where
  tabs : ∀ t ∈ l.tabs, t.tidy
  known : ∀ ino, l.opens ino ≠ 0 → ino = rootId ∨ l.lookups ino ≠ 0
  busy : ∀ (k : Nat) (u : Thread) (t : Tab) (ino : Ino), y.threads[k]? = some u → l.tabs[k]? = some t →
    u.finished = false → t.file = some ino →
    ino = rootId ∨ l.lookups ino ≠ 0

theorem singleSome {o : Option Ino} (some : single o ino ≠ 0) : o = Option.some ino := by
  by_contra no
  exact some (if_neg no)

theorem Tidy.lent (tidy : Tidy l y) (balanced : Balanced l y) (opened : l.opened ino ≠ 0) :
    l.lent ino ≠ 0 ∨ ino = rootId := by
  have known : ino = rootId ∨ l.lookups ino ≠ 0 → l.lent ino ≠ 0 ∨ ino = rootId := by
    rintro (root | some)
    · exact .inr root
    · refine .inl ?_
      rw [Ledger.lent]
      omega
  by_cases held : l.opens ino = 0
  · obtain ⟨_,there,some⟩ : ∃ v ∈ l.tabs.map (Tab.opens · ino), v ≠ 0 := by
      by_contra none
      have zero : (l.tabs.map (Tab.opens · ino)).sum = 0 := List.sum_eq_zero fun v mem =>
        by_contra fun some => none ⟨v,mem,some⟩
      rw [Ledger.opened,held,zero] at opened
      exact opened rfl
    obtain ⟨t,mem,rfl⟩ := List.mem_map.mp there
    obtain ⟨k,low,rfl⟩ := List.mem_iff_getElem.mp mem
    have tab := List.getElem?_eq_getElem low
    obtain ⟨u,at_⟩ : ∃ u, y.threads[k]? = Option.some u := ⟨_,List.getElem?_eq_getElem (balanced.size ▸ low)⟩
    have running : u.finished = false := by
      cases done : u.finished with
      | false => rfl
      | true => exact absurd (clearOpens (balanced.clearAt at_ tab done) ino) some
    have file : l.tabs[k].entry ≠ Option.some ino → l.tabs[k].file = Option.some ino := by
      intro other
      by_cases opened : single l.tabs[k].opened ino = 0
      · refine (tidy.tabs _ mem).2 ino (singleSome ?_)
        rw [Tab.opens] at some
        omega
      · exact ((tidy.tabs _ mem).1 ino (singleSome opened)).resolve_left other
    by_cases entry : l.tabs[k].entry = Option.some ino
    · refine .inl ?_
      have least := sumLeast (Tab.lent · ino) tab
      have one : 1 ≤ l.tabs[k].lent ino := by
        rw [Tab.lent,single,if_pos entry]
        exact Nat.le_add_right _ _
      rw [Ledger.lent]
      omega
    · exact known (tidy.busy k _ _ ino at_ tab running (file entry))
  · exact known (tidy.known ino held)

theorem Ledger.notesOpened (at_ : l.tabs[k]? = some t) (may : t.may i) (r : i.Result) (ino : Ino) :
    (l.notes k i r).opened ino + i.closes ino = l.opened ino + i.opens ino := by
  have balance := Tab.openBalance may r ino
  have set := @sumSet _ _ _ (t.after i r) (Tab.opens · ino) at_
  rw [Ledger.notesAt at_]
  simp only [Ledger.opened]
  omega

theorem Tidy.noted {next : i.Result → Prog Unit} {r : i.Result} {phase : Phase} {lockq : List Nat} (tidy : Tidy l y)
    (at_ : y.threads[k]? = some u) (is : u.prog = .act i next) (tab : l.tabs[k]? = some t) (may : t.may i) :
    Tidy (l.notes k i r) ⟨s,y.threads.set k (u.take i next r phase),lockq⟩ := by
  have running : u.finished = false := by rw [Thread.finished,is]
  have clean := tidy.tabs t (List.mem_of_getElem? tab)
  have more : ∀ ino, ino = rootId ∨ l.lookups ino ≠ 0 → ino = rootId ∨ (l.notes k i r).lookups ino ≠ 0 := by
    intro ino
    refine Or.imp_right fun some => ?_
    rw [Ledger.notesAt tab]
    dsimp only
    omega
  constructor
  · intro v mem
    rw [Ledger.notesAt tab] at mem
    rcases List.mem_or_eq_of_mem_set mem with before | rfl
    · exact tidy.tabs v before
    · exact Tab.tidied clean may r
  · intro ino opened
    by_cases before : l.opens ino = 0
    · rw [Ledger.notesAt tab] at opened
      dsimp only at opened
      rw [before,Nat.zero_add] at opened
      have hands : i.hands r = true := by
        by_contra no
        exact opened (if_neg no)
      rw [if_pos hands] at opened
      rcases clean.1 ino (singleSome opened) with entry | file
      · refine .inr ?_
        have one : single t.entry ino = 1 := if_pos entry
        rw [Ledger.notesAt tab]
        dsimp only
        rw [if_pos hands,one]
        exact Nat.succ_ne_zero _
      · exact more ino (tidy.busy k u t ino at_ tab running file)
    · exact more ino (tidy.known ino before)
  · intro j v t' ino here tab' unfinished file
    rw [Ledger.notesAt tab] at tab'
    rcases atSet here with ⟨rfl,rfl⟩ | ⟨other,before⟩
    · rw [List.getElem?_set_self (List.getElem?_eq_some_iff.mp tab).1] at tab'
      cases tab'
      rw [sameFile] at file
      exact more ino (tidy.busy j u t ino at_ tab running file)
    · rw [List.getElem?_set_ne (Ne.symm other)] at tab'
      exact more ino (tidy.busy j v t' ino before tab' unfinished file)

structure Audited (l : Ledger) (y : Sys) : Prop where
  balanced : Balanced l y
  tidy : Tidy l y
  opened : Opened l.opened y.fuse

theorem Tally.root (tally : Tally more less ups downs s s') (steady : Steady extra s) :
    ∃ p n, s'.heap p = some n ∧ n.nodeid = rootId := by
  obtain ⟨r,atRoot,rootIs,_⟩ := steady.shape.root
  cases now : s'.heap 0 with
  | none => exact absurd rfl (tally.gone 0 r atRoot now).1
  | some n => exact ⟨0,n,now,(tally.kept 0 r n atRoot now).1.trans rootIs⟩

theorem auditedPosts : KeptByPosts Audited := by
  intro l l' y y' coherent posted kept
  have steady := coherent.world.tree.toSteady
  have balanced' := balancedPosts l l' y y' coherent posted kept.balanced
  cases posted with
  | @rephased k u at_ phase lockq =>
    refine ⟨balanced',⟨kept.tidy.tabs,kept.tidy.known,?_⟩,kept.opened⟩
    intro j v t ino here tab unfinished file
    rcases atSet here with ⟨rfl,rfl⟩ | ⟨_,before⟩
    · exact kept.tidy.busy j u t ino at_ tab unfinished file
    · exact kept.tidy.busy j v t ino before tab unfinished file
  | @refused k u i next s answer at_ is ran =>
    have level := (coherent.refusedOnly at_ is ran).level
    have tidy' : Tidy l {y with fuse := s} := ⟨kept.tidy.tabs,kept.tidy.known,kept.tidy.busy⟩
    exact ⟨balanced',tidy',
      kept.opened.tally level (level.root steady) balanced'.lends (fun _ some => tidy'.lent balanced' some)
        fun _ => rfl⟩
  | @served k u i next s r answer at_ is names ran phase lockq =>
    obtain ⟨t,tab⟩ := kept.balanced.tab at_
    have owes := kept.balanced.owes k u t at_ tab
    rw [is] at owes
    have tally := coherent.servedTally at_ is kept.balanced.lends.titled names ran
    have tidy' : Tidy (l.notes k i r) ⟨s,y.threads.set k (u.take i next r phase),lockq⟩ :=
      kept.tidy.noted at_ is tab owes.1
    refine ⟨balanced',tidy',
      kept.opened.tally tally (tally.root steady) balanced'.lends (fun _ some => tidy'.lent balanced' some) ?_⟩
    exact Ledger.notesOpened tab owes.1 r

theorem blankTab (request : Request) : request.tab.opened = none := by
  cases request <;> rfl

theorem forgetsAlone (request : Request) (file : request.tab.file ≠ none) : request.tab.forgets = [] := by
  cases request <;> first | rfl | exact absurd rfl file

theorem Ledger.busyAt (at_ : y.threads[k]? = some u) (tab : l.tabs[k]? = some t)
    (running : u.finished = false) (file : t.file = some ino) :
    l.busy y ino = true := by
  refine List.any_eq_true.mpr ⟨(u,t),List.mem_of_getElem? (i := k) ?_,?_⟩
  · rw [List.getElem?_zip_eq_some]
    exact ⟨at_,tab⟩
  · simp only [running,file,Bool.not_false,Bool.true_and,beq_self_eq_true]

/- What is open or in use keeps a lookup. -/
theorem Ledger.stays {request : Request} (settles : l.settles y (.arrive request) = true)
    (used : l.opens ino ≠ 0 ∨ l.busy y ino = true ∨ request.tab.file ≠ none)
    (known : ino = rootId ∨ l.lookups ino ≠ 0) :
    ino = rootId ∨ (l.sends request).lookups ino ≠ 0 := by
  simp only [Ledger.settles,Bool.and_eq_true,List.all_eq_true,decide_eq_true_eq,Bool.or_eq_true,beq_iff_eq,
    Bool.not_eq_true'] at settles
  obtain ⟨_,forgets⟩ := settles
  refine known.elim .inl fun some => ?_
  change ino = rootId ∨ l.lookups ino - request.tab.lent ino ≠ 0
  by_cases asked : ∃ f ∈ request.tab.forgets, f.1 = ino
  · obtain ⟨f,mem,rfl⟩ := asked
    rcases forgets f mem with (root | fewer) | ⟨closed,idle⟩
    · exact .inl root
    · exact .inr (Nat.sub_ne_zero_of_lt fewer)
    · rcases used with opened | busy | file
      · exact absurd closed opened
      · rw [idle] at busy
        cases busy
      · rw [forgetsAlone request file] at mem
        cases mem
  · rw [unasked fun f mem is => asked ⟨f,mem,is⟩]
    exact .inr some

theorem Ledger.opensEnough {request : Request} (settles : l.settles y (.arrive request) = true) (ino : Ino) :
    request.tab.opens ino ≤ l.opens ino := by
  simp only [Ledger.settles,Bool.and_eq_true,Option.all_eq_true,decide_eq_true_eq] at settles
  rw [Tab.opens,blankTab,singleNone,Nat.zero_add,single]
  split
  · next is => exact settles.1.2 ino is
  · exact Nat.zero_le _

theorem Ledger.sendsOpened {request : Request} (settles : l.settles y (.arrive request) = true) :
    (l.sends request).opened = l.opened := by
  funext ino
  have enough := Ledger.opensEnough settles ino
  simp only [Ledger.opened,Ledger.sends,List.map_append,List.sum_append,List.map_cons,List.map_nil,
    List.sum_cons,List.sum_nil]
  omega

theorem tidyTab (request : Request) : request.tab.tidy := by
  refine ⟨fun ino opened => ?_,fun ino release => ?_⟩
  · rw [blankTab] at opened
    cases opened
  · cases request <;> first | exact release | cases release

theorem Audited.sent {request : Request} (audited : Audited l y) (coherent : Coherent y)
    (fit : l.fitsOpens y (.arrive request) = true) :
    Audited (l.sends request)
      {y with threads := y.threads ++ [⟨request.entries,request.script y.fuse.conf,[],[],.running⟩]} := by
  rw [Ledger.fitsOpens,Bool.and_eq_true] at fit
  obtain ⟨fits,settles⟩ := fit
  obtain ⟨balanced,tidy,opened⟩ := audited
  have size := balanced.size
  refine ⟨balanced.sent coherent fits,⟨?_,?_,?_⟩,?_⟩
  · intro t mem
    rcases List.mem_append.mp mem with before | new
    · exact tidy.tabs t before
    · rw [List.mem_singleton.mp new]
      exact tidyTab request
  · intro ino some
    have before : l.opens ino ≠ 0 := fun zero => some (by change l.opens ino - _ = 0; rw [zero,Nat.zero_sub])
    exact Ledger.stays settles (.inl before) (tidy.known ino before)
  · intro j v t ino here tab running file
    simp only [Ledger.sends] at tab
    rcases Nat.lt_trichotomy j y.threads.length with low | rfl | high
    · rw [List.getElem?_append_left low] at here
      rw [List.getElem?_append_left (by rw [size]; exact low)] at tab
      exact Ledger.stays settles (.inr (.inl (Ledger.busyAt here tab running file)))
        (tidy.busy j v t ino here tab running file)
    · rw [← size,List.getElem?_concat_length] at tab
      cases tab
      have promised := settles
      simp only [Ledger.settles,Bool.and_eq_true,Option.all_eq_true,decide_eq_true_eq,Bool.or_eq_true,
        beq_iff_eq] at promised
      refine Ledger.stays settles (.inr (.inr ?_)) ((promised.1.1 ino file).imp_right Nat.pos_iff_ne_zero.mp)
      rw [file]
      exact Option.some_ne_none ino
    · rw [List.getElem?_eq_none (by rw [List.length_append]; exact high)] at here
      cases here
  · rw [Ledger.sendsOpened settles]
    exact opened

theorem startAudited (conf : Conf) (memory : Nat → Bool) : Audited Ledger.new (Sys.start conf memory) := by
  refine ⟨startBalanced conf memory,
    ⟨(fun t mem => by cases mem),fun ino opened => absurd rfl opened,fun k u t ino at_ => by cases at_⟩,?_,?_⟩
  · intro p n live
    obtain ⟨_,rfl⟩ := emptyTreeCell conf memory live
    rfl
  · exact fun _ _ => rfl

theorem Charged.audited (charged : Charged Ledger.fitsOpens conf memory y l) : Audited l y := by
  induction charged with
  | start => exact startAudited conf memory
  | step before allowed fit ran ih =>
    have coherent := before.coherent
    have both := fit
    rw [Ledger.fitsOpens,Bool.and_eq_true] at both
    refine stepPosts auditedPosts coherent both.1 ran ?_ ih
    rintro request rfl
    exact ih.sent coherent fit

/- The library counts the open files of a node as the kernel does. A node with an open file is
there. -/
theorem opensAgree (charged : Charged Ledger.fitsOpens conf memory y l) :
    (∀ p n, y.fuse.heap p = some n → n.openCount = l.opened n.nodeid ∧ (y.rests → n.openCount = l.opens n.nodeid)) ∧
      ∀ ino, l.opens ino ≠ 0 → ∃ p n, y.fuse.heap p = some n ∧ n.nodeid = ino := by
  have audited := charged.audited
  refine ⟨fun p n live => ?_,fun ino used => ?_⟩
  · have count := audited.opened.nodes p n live
    refine ⟨count,fun rests => ?_⟩
    rw [count,Ledger.opened,audited.balanced.settled rests _ fun t clear => clearOpens clear n.nodeid]
    rfl
  · by_contra none
    have nothing := audited.opened.absent ino fun p n live is => none ⟨p,n,live,is⟩
    rw [Ledger.opened] at nothing
    omega

theorem oneOpenOfTwo :
    ∃ y l p n, Charged Ledger.fitsOpens ⟨1,false,false⟩ (fun _ => true) y l ∧ y.rests ∧ y.fuse.heap p = some n ∧
    l.opens n.nodeid = 1 ∧ n.openCount = 1 := by
  have passes :
    ((Sys.start ⟨1,false,false⟩ fun _ => true).charge Ledger.fitsOpens Ledger.new createdTwice).any (fun (y,l) =>
      y.threads.all Thread.finished && (y.fuse.heap 1).any fun n => l.opens n.nodeid == 1) = true := by
    decide +kernel
  simp only [Option.any_eq_true,Bool.and_eq_true,beq_iff_eq,List.all_eq_true] at passes
  obtain ⟨⟨y,l⟩,ran,rests,n,live,once⟩ := passes
  dsimp only at once
  have charged := chargeCharged .start ran
  have count := ((opensAgree charged).1 1 n live).2 rests
  rw [once] at count
  exact ⟨y,l,1,n,charged,rests,live,once,count⟩

end FuseStudy.NodeStore
