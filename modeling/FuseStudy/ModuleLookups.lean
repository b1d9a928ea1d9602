import FuseStudy.ModuleRuns

/-! The builtin module subdir through a run of fuse_new and fuse_destroy. -/
namespace FuseStudy.ModuleLookups
open ModuleRegistry ModuleRuns

def sought : List (CString.Bytes × Push) → Registry → List CString.Bytes
  | [],_ => []
  | (name,e)::rest,r =>
    name :: match fusePushModule r e name with
      | (_,none) => []
      | (r,some _) => sought rest r

/- What the calls so far did to subdir: how many counts they took for good, and whether it was not
registered or its last count was given back. -/
structure History where
  held : Nat
  gone : Bool
  deriving DecidableEq, Repr

def History.push (h : History) (name : CString.Bytes) (had : Bool) : History :=
  if name = subdir then if had then {h with held := h.held + 1} else {h with gone := h.gone || h.held == 0} else h

def History.pushes : List (CString.Bytes × Push) → Registry → History → History
  | [],_,h => h
  | (name,e)::rest,r,h =>
    match fusePushModule r e name with
    | (_,none) => h.push name false
    | (r,some _) => History.pushes rest r (h.push name true)

/- The first fuse_new registers it, if there is memory. -/
def History.begun (h : History) (p : Process) (e : NewRun) : History := if p.registry.builtin then h else ⟨0,!e.memory⟩

def History.new (h : History) (p : Process) (e : NewRun) : History :=
  if e.options then
    if e.context then History.pushes e.list (registerBuiltin p.registry e) (h.begun p e) else h.begun p e
  else h

def seeks (p : Process) (e : NewRun) : Prop :=
  e.options = true ∧ e.context = true ∧ subdir ∈ sought e.list (registerBuiltin p.registry e)

structure Tracked (r : Registry) (h : History) : Prop where
  here : h.gone = false → ∃ m ∈ r.modules, r.mods m = ⟨subdir,none,h.held⟩ ∧ ∀ n ∈ r.modules,
    (r.mods n).name = subdir → n = m
  away : h.gone = true → ∀ m ∈ r.modules, (r.mods m).name ≠ subdir

structure Aside (r t : Registry) : Prop where
  kept : ∀ m ∈ r.modules, (r.mods m).name = subdir → m ∈ t.modules ∧ t.mods m = r.mods m
  only : ∀ m ∈ t.modules, (t.mods m).name = subdir → m ∈ r.modules ∧ t.mods m = r.mods m

theorem Aside.trans {r t u : Registry} (first : Aside r t) (second : Aside t u) : Aside r u := by
  constructor
  · intro m listed named
    obtain ⟨listed',same⟩ := first.kept m listed named
    obtain ⟨listed'',same'⟩ := second.kept m listed' (same ▸ named)
    exact ⟨listed'',same'.trans same⟩
  · intro m listed named
    obtain ⟨listed',same⟩ := second.only m listed named
    obtain ⟨listed'',same'⟩ := first.only m listed' (same ▸ named)
    exact ⟨listed'',same.trans same'⟩

theorem Tracked.aside {r t : Registry} {h : History} (tracked : Tracked r h) (step : Aside r t) : Tracked t h := by
  constructor
  · intro still
    obtain ⟨m,listed,value,single⟩ := tracked.here still
    obtain ⟨listed',same⟩ := step.kept m listed (by rw [value])
    refine ⟨m,listed',same.trans value,fun n other named => ?_⟩
    obtain ⟨before,same'⟩ := step.only n other named
    exact single n before (same' ▸ named)
  · intro gone m listed named
    obtain ⟨before,same⟩ := step.only m listed named
    exact tracked.away gone m before (same ▸ named)

theorem setAside {r : Registry} {m ctr : Nat} (other : (r.mods m).name ≠ subdir) : Aside r (r.setCtr m ctr) := by
  constructor
  · intro n listed named
    have apart : n ≠ m := fun same => other (same ▸ named)
    exact ⟨listed,setOther apart⟩
  · intro n listed named
    rw [setName] at named
    have apart : n ≠ m := fun same => other (same ▸ named)
    exact ⟨listed,setOther apart⟩

theorem putAside {r t : Registry} {m : Nat} (step : PutBack r t m) (other : (r.mods m).name ≠ subdir) : Aside r t := by
  constructor
  · intro n listed named
    have apart : n ≠ m := fun same => other (same ▸ named)
    refine ⟨(step.theirs n apart).mpr listed,?_⟩
    rw [step.mods,setOther apart]
  · intro n listed named
    rw [step.mods,setName] at named
    have apart : n ≠ m := fun same => other (same ▸ named)
    refine ⟨step.sub.subset listed,?_⟩
    rw [step.mods,setOther apart]

theorem addedAside {r t : Registry} {module : FuseModule} {held : List Nat} (step : Added r t module)
    (sound : Sound r held) (other : module.name ≠ subdir) : Aside r t := by
  have apart {m : Nat} (listed : m ∈ r.modules) : m ≠ r.next := fun same =>
    Nat.lt_irrefl r.next (sound.old r.next (same ▸ listed))
  constructor
  · intro m listed named
    rw [step.modules]
    exact ⟨List.mem_cons_of_mem _ listed,step.theirs m (apart listed)⟩
  · intro m listed named
    rw [step.modules] at listed
    rcases List.mem_cons.mp listed with rfl | before
    · exact absurd (step.mine ▸ named) other
    · exact ⟨before,step.theirs m (apart before)⟩

theorem gotAside {r t : Registry} {name : CString.Bytes} {m : Nat} {held : List Nat} (got : Got r name (t,some m))
    (sound : Sound r held) (other : name ≠ subdir) : Aside r t ∧ (t.mods m).name = name := by
  cases got with
  | found listed named => exact ⟨setAside (named.symm ▸ other),setName.trans named⟩
  | loaded absent step tried => exact ⟨addedAside step sound other,by rw [step.mine]⟩

theorem gotTried {r t : Registry} {name : CString.Bytes} {m : Option Nat} (got : Got r name (t,m)) :
    t.tried = r.tried ∧ (∃ m ∈ r.modules, (r.mods m).name = name) ∨
      t.tried = r.tried ++ [name] ∧ ∀ m ∈ r.modules, (r.mods m).name ≠ name := by
  cases got with
  | found listed named => exact .inl ⟨rfl,_,listed,named⟩
  | loaded absent step tried => exact .inr ⟨tried,absent⟩
  | missed absent => exact .inr ⟨rfl,absent⟩

theorem gotBuiltin {r t : Registry} {name : CString.Bytes} {m : Option Nat} (got : Got r name (t,m)) :
    t.builtin = r.builtin := by
  cases got with
  | found listed named => rfl
  | loaded absent step tried => exact step.builtin
  | missed absent => rfl

theorem pushedBuiltin {r t : Registry} {name : CString.Bytes} {m : Option Nat} {factory : Bool} {held : List Nat}
    (step : Pushed r name factory (t,m)) (sound : Sound r held) : t.builtin = r.builtin := by
  cases step with
  | held got => exact gotBuiltin got
  | missed got => exact gotBuiltin got
  | @refused u m got =>
    have inside := (got.sound sound).held m List.mem_cons_self
    exact (putBack (got.sound sound) inside).builtin.trans (gotBuiltin got)

theorem pushedTried {r t : Registry} {name : CString.Bytes} {m : Option Nat} {factory : Bool}
    {held : List Nat} (step : Pushed r name factory (t,m)) (sound : Sound r held) :
    t.tried = r.tried ∧ (∃ m ∈ r.modules, (r.mods m).name = name) ∨
      t.tried = r.tried ++ [name] ∧ ∀ m ∈ r.modules, (r.mods m).name ≠ name := by
  cases step with
  | held got => exact gotTried got
  | missed got => exact gotTried got
  | @refused u m got =>
    have inside := (got.sound sound).held m List.mem_cons_self
    rw [(putBack (got.sound sound) inside).tried]
    exact gotTried got

theorem pushTracked {r t : Registry} {name : CString.Bytes} {m : Option Nat} {factory : Bool}
    {held : List Nat} {h : History} (step : Pushed r name factory (t,m)) (sound : Sound r held)
    (tracked : Tracked r h) (there : name = subdir → h.gone = false) :
    Tracked t (h.push name m.isSome) := by
  by_cases same : name = subdir
  · have still := there same
    subst name
    obtain ⟨s,listed,value,single⟩ := tracked.here still
    have named : (r.mods s).name = subdir := by rw [value]
    rw [History.push,if_pos rfl]
    cases step with
    | @held u n got =>
      cases got with
      | found listed' named' =>
        have mineOnly := single n listed' named'
        subst n
        refine ⟨fun _ => ⟨s,listed,?_,fun k inside kNamed => single k inside (setName ▸ kNamed)⟩,fun gone => ?_⟩
        · rw [setSame,value]
          rfl
        · exact absurd (still.symm.trans gone) (by decide)
      | loaded absent added tried => exact absurd named (absent s listed)
    | missed got =>
      cases got with
      | missed absent => exact absurd named (absent s listed)
    | @refused u n got =>
      have counted := got.sound sound
      cases got with
      | loaded absent added tried => exact absurd named (absent s listed)
      | found listed' named' =>
        have mineOnly := single n listed' named'
        subst n
        have inside := counted.held s List.mem_cons_self
        have back := putBack counted inside
        have mine : ((r.setCtr s ((r.mods s).ctr + 1)).mods s) = ⟨subdir,none,h.held + 1⟩ := by rw [setSame,value]
        have remains := back.mine
        rw [mine] at remains
        constructor
        · intro left
          have some : 1 < h.held + 1 := by
            cases count : h.held with
            | zero => simp [still,count] at left
            | succ count => omega
          refine ⟨s,remains.mpr some,?_,fun k inside' kNamed => ?_⟩
          · rw [back.mods,setSame,mine]
            rfl
          · rw [back.mods,setName,setName] at kNamed
            exact single k (back.sub.subset inside') kNamed
        · intro gone k inside' kNamed
          have zero : h.held = 0 := by simpa [still] using gone
          rw [back.mods,setName,setName] at kNamed
          cases single k (back.sub.subset inside') kNamed
          have more := remains.mp inside'
          dsimp only at more
          omega
  · rw [History.push,if_neg same]
    cases step with
    | held got => exact tracked.aside (gotAside got sound same).1
    | missed got =>
      cases got with
      | missed absent => exact ⟨tracked.here,tracked.away⟩
    | @refused u n got =>
      obtain ⟨aside,named⟩ := gotAside got sound same
      have inside := (got.sound sound).held n List.mem_cons_self
      exact tracked.aside (aside.trans (putAside (putBack (got.sound sound) inside) (named.symm ▸ same)))

theorem pushGone {h : History} {name : CString.Bytes} : (h.push name true).gone = h.gone := by
  unfold History.push
  split <;> rfl

theorem pushedSound {r t : Registry} {name : CString.Bytes} {m : Option Nat} {factory : Bool} {held : List Nat}
    (step : Pushed r name factory (t,m)) (sound : Sound r held) : Sound t (m.toList ++ held) := by
  cases step with
  | held got => exact got.sound sound
  | refused got => exact (got.sound sound).put
  | missed got => exact got.missedSound sound

theorem triedGrows {l : List (CString.Bytes × Push)} {r : Registry} {held : List Nat} {name : CString.Bytes}
    (sound : Sound r held) (before : name ∈ r.tried) : name ∈ (pushAll l r).1.tried := by
  induction l generalizing r held with
  | nil => exact before
  | cons n l ih =>
    obtain ⟨name',e⟩ := n
    have step := pushed r e name'
    unfold pushAll
    generalize fusePushModule r e name' = result at step
    obtain ⟨t,m⟩ := result
    have grows : name ∈ t.tried := by
      rcases pushedTried step sound with ⟨same,-⟩ | ⟨more,-⟩
      · exact same.symm ▸ before
      · exact more.symm ▸ List.mem_append_left _ before
    cases m with
    | none => exact grows
    | some m => exact ih (pushedSound step sound) grows

theorem pushAllTracked {l : List (CString.Bytes × Push)} {r : Registry} {held : List Nat} {h : History}
    (sound : Sound r held) (tracked : Tracked r h) (there : subdir ∈ sought l r → h.gone = false) :
    Tracked (pushAll l r).1 (h.pushes l r) ∧ (subdir ∈ (pushAll l r).1.tried → subdir ∈ r.tried) := by
  induction l generalizing r held h with
  | nil => exact ⟨tracked,id⟩
  | cons n l ih =>
    obtain ⟨name,e⟩ := n
    have step := pushed r e name
    unfold pushAll History.pushes
    unfold sought at there
    generalize fusePushModule r e name = result at step there
    obtain ⟨t,m⟩ := result
    have first : name = subdir → h.gone = false := fun same => there (same ▸ List.mem_cons_self)
    have now := pushTracked step sound tracked first
    have next := pushedSound step sound
    have untried : subdir ∈ t.tried → subdir ∈ r.tried := by
      rcases pushedTried step sound with ⟨same,-⟩ | ⟨more,absent⟩
      · rw [same]
        exact id
      · rw [more]
        intro tried
        rcases List.mem_append.mp tried with before | same
        · exact before
        · have mine := (List.mem_singleton.mp same).symm
          obtain ⟨s,listed,value,-⟩ := tracked.here (first mine)
          exact absurd (by rw [value,mine]) (absent s listed)
    cases m with
    | none => exact ⟨now,untried⟩
    | some m =>
      obtain ⟨rest,tried⟩ := ih next now fun later => pushGone.trans (there (List.mem_cons_of_mem _ later))
      exact ⟨rest,fun later => untried (tried later)⟩

theorem pushAllTries {l : List (CString.Bytes × Push)} {r : Registry} {held : List Nat} {h : History}
    (sound : Sound r held) (tracked : Tracked r h) (gone : h.gone = true) (looked : subdir ∈ sought l r) :
    subdir ∈ (pushAll l r).1.tried := by
  induction l generalizing r held h with
  | nil => cases looked
  | cons n l ih =>
    obtain ⟨name,e⟩ := n
    have step := pushed r e name
    unfold pushAll
    unfold sought at looked
    generalize fusePushModule r e name = result at step looked
    obtain ⟨t,m⟩ := result
    by_cases mine : name = subdir
    · have tried : subdir ∈ t.tried := by
        rcases pushedTried step sound with ⟨-,m,listed,named⟩ | ⟨more,-⟩
        · exact absurd (named.trans mine) (tracked.away gone m listed)
        · rw [more,mine]
          exact List.mem_append_right _ List.mem_cons_self
      cases m with
      | none => exact tried
      | some m => exact triedGrows (pushedSound step sound) tried
    · have now := pushTracked step sound tracked fun same => absurd same mine
      have still : (h.push name m.isSome).gone = true := by rw [History.push,if_neg mine,gone]
      have later := (List.mem_cons.mp looked).resolve_left fun same => mine same.symm
      cases m with
      | none => cases later
      | some m => exact ih (pushedSound step sound) now still later

/- Before the first fuse_new there are no modules at all. -/
structure Builtin (r : Registry) (h : History) : Prop where
  before : r.builtin = false → r.modules = []
  after : r.builtin = true → Tracked r h
  untried : subdir ∉ r.tried

theorem begunTracked {p : Process} {h : History} (builtin : Builtin p.registry h)
    (sound : Sound p.registry (heldModules p.live)) (e : NewRun) :
    Tracked (registerBuiltin p.registry e) (h.begun p e) ∧ (registerBuiltin p.registry e).tried = p.registry.tried ∧
      (registerBuiltin p.registry e).builtin = true := by
  unfold registerBuiltin History.begun
  cases already : p.registry.builtin with
  | true => exact ⟨builtin.after already,rfl,already⟩
  | false =>
    have empty := builtin.before already
    rw [if_neg (by decide)]
    dsimp only
    have first : Tracked (fuseRegisterModule p.registry e.memory subdir none).1 ⟨0,!e.memory⟩ ∧
        (fuseRegisterModule p.registry e.memory subdir none).1.tried = p.registry.tried := by
      cases e.memory with
      | false => exact ⟨⟨fun still => absurd still (by decide),fun _ m listed =>
          absurd listed (by simp [fuseRegisterModule,empty])⟩,rfl⟩
      | true =>
        have added := registered p.registry subdir
        refine ⟨⟨fun _ =>
          ⟨p.registry.next,by rw [added.modules]; exact List.mem_cons_self,added.mine,fun m listed _ => ?_⟩,
          fun gone => absurd gone (by decide)⟩,rfl⟩
        rw [added.modules,empty] at listed
        exact List.mem_singleton.mp listed
    have second :
      Tracked (if e.haveIconv then (fuseRegisterModule (fuseRegisterModule p.registry e.memory subdir none).1
        e.iconvMemory iconv none).1 else (fuseRegisterModule p.registry e.memory subdir none).1) ⟨0,!e.memory⟩ ∧
        (if e.haveIconv then (fuseRegisterModule (fuseRegisterModule p.registry e.memory subdir none).1
        e.iconvMemory iconv none).1 else (fuseRegisterModule p.registry e.memory subdir none).1).tried =
          p.registry.tried := by
      split
      · cases e.iconvMemory with
        | false => exact first
        | true =>
          have other : iconv ≠ subdir := by decide
          have aside := addedAside (registered _ iconv) (sound.register e.memory subdir) other
          exact ⟨first.1.aside aside,first.2⟩
      · exact first
    exact ⟨⟨second.1.here,second.1.away⟩,second.2,rfl⟩

/- Runs in which nothing takes a module away from an instance, or subdir from a later fuse_new. -/
inductive Careful : Process → History → Prop
  | start : Careful start ⟨0,false⟩
  | new {p h} (before : Careful p h) (e : NewRun) (there : seeks p e → (h.begun p e).gone = false) :
      Careful (fuseNew p e) (h.new p e)
  | destroy {p h} (before : Careful p h) (f : Nat) (alone : ∀ g ∈ p.live, g.id ≠ f → g.modules = []) :
      Careful (fuseDestroy p f) ⟨0,true⟩

theorem pushAllBuiltin {l : List (CString.Bytes × Push)} {r : Registry} {held : List Nat} (sound : Sound r held) :
    (pushAll l r).1.builtin = r.builtin := by
  induction l generalizing r held with
  | nil => rfl
  | cons n l ih =>
    obtain ⟨name,e⟩ := n
    have step := pushed r e name
    unfold pushAll
    generalize fusePushModule r e name = result at step
    obtain ⟨t,m⟩ := result
    have same : t.builtin = r.builtin := pushedBuiltin step sound
    cases m with
    | none => exact same
    | some m => exact (ih (pushedSound step sound)).trans same

theorem newRegistry {p : Process} {e : NewRun} : (fuseNew p e).registry =
    if e.options then if e.context then (pushAll e.list (registerBuiltin p.registry e)).1
      else registerBuiltin p.registry e
    else p.registry := by
  unfold fuseNew
  split
  · dsimp only
    split
    · generalize pushAll e.list (registerBuiltin p.registry e) = result
      obtain ⟨r,modules⟩ := result
      cases modules with
      | none => rfl
      | some modules =>
        dsimp only
        split <;> rfl
    · rfl
  · rfl

theorem newBuiltin {p : Process} {h : History} (builtin : Builtin p.registry h)
    (sound : Sound p.registry (heldModules p.live)) (e : NewRun)
    (there : seeks p e → (h.begun p e).gone = false) : Builtin (fuseNew p e).registry (h.new p e) := by
  obtain ⟨tracked,tried,set⟩ := begunTracked builtin sound e
  rw [newRegistry]
  unfold History.new
  split
  · rename_i options
    split
    · rename_i context
      obtain ⟨after,same⟩ := pushAllTracked (sound.builtin e) tracked fun looked => there ⟨options,context,looked⟩
      have stays := (pushAllBuiltin (l := e.list) (sound.builtin e)).trans set
      exact ⟨fun clear => absurd (stays.symm.trans clear) (by decide),fun _ => after,fun loaded =>
        builtin.untried (tried ▸ same loaded)⟩
    · exact ⟨fun clear => absurd (set.symm.trans clear) (by decide),fun _ => tracked,fun loaded =>
        builtin.untried (tried ▸ loaded)⟩
  · exact builtin

theorem Careful.invariant {p : Process} {h : History} (careful : Careful p h) :
    Sound p.registry (heldModules p.live) ∧ Builtin p.registry h := by
  induction careful with
  | start => exact ⟨soundEmpty rfl,⟨fun _ => rfl,fun set => absurd set (by decide),List.not_mem_nil⟩⟩
  | new before e there ih => exact ⟨newSound ih.1 e,newBuiltin ih.2 ih.1 e there⟩
  | @destroy p h before f alone ih =>
    obtain ⟨empty,tried,builtin⟩ := destroyEmpty ih.1 f
    have none : heldModules (fuseDestroy p f).live = [] := by
      refine List.flatMap_eq_nil_iff.mpr fun g left => ?_
      obtain ⟨live,other⟩ := List.mem_filter.mp left
      exact alone g live (of_decide_eq_true other)
    rw [none]
    refine ⟨soundEmpty empty,⟨fun _ => empty,fun _ => ⟨fun still => absurd still (by decide),?_⟩,tried ▸ ih.2.untried⟩⟩
    intro _ m listed
    rw [empty] at listed
    cases listed

def Registered (p : Process) : Prop := ∀ f ∈ p.live, ∀ m ∈ f.modules, m ∈ p.registry.modules

/- Destroying an instance leaves the modules of the others registered with their counts. -/
def KeepsOthers (p : Process) (f : Nat) : Prop := ∀ g ∈ p.live, g.id ≠ f → ∀ m ∈ g.modules,
  m ∈ (fuseDestroy p f).registry.modules ∧ ((fuseDestroy p f).registry.mods m).ctr = (p.registry.mods m).ctr

theorem keepsIff {p : Process} (sound : Sound p.registry (heldModules p.live)) (f : Nat) :
    KeepsOthers p f ↔ ∀ g ∈ p.live, g.id ≠ f → g.modules = [] := by
  constructor
  · intro keeps g live other
    apply List.eq_nil_iff_forall_not_mem.mpr
    intro m taken
    have listed := (keeps g live other m taken).1
    rw [(destroyEmpty sound f).1] at listed
    cases listed
  · intro alone g live other m taken
    rw [alone g live other] at taken
    cases taken

theorem untriedIff {p : Process} {h : History} (builtin : Builtin p.registry h)
    (sound : Sound p.registry (heldModules p.live)) (e : NewRun) :
    subdir ∉ (fuseNew p e).registry.tried ↔ (seeks p e → (h.begun p e).gone = false) := by
  constructor
  · intro untried looked
    by_contra gone
    obtain ⟨options,context,inside⟩ := looked
    have tries := pushAllTries (sound.builtin e)
      (begunTracked builtin sound e).1 (Bool.eq_true_of_not_eq_false gone) inside
    rw [newRegistry,if_pos options,if_pos context] at untried
    exact untried tries
  · exact fun there => (newBuiltin builtin sound e there).untried

/- In a careful run all is kept, and each further call keeps it just when it is careful itself. -/
theorem registryKept (p : Process) (h : History) (careful : Careful p h) :
    Registered p ∧ subdir ∉ p.registry.tried ∧
      (∀ f, KeepsOthers p f ↔ ∀ g ∈ p.live, g.id ≠ f → g.modules = []) ∧
      (∀ e, Registered (fuseNew p e)) ∧
      ∀ e, subdir ∉ (fuseNew p e).registry.tried ↔ (seeks p e → (h.begun p e).gone = false) := by
  obtain ⟨sound,builtin⟩ := careful.invariant
  have listed {q : Process} (sound : Sound q.registry (heldModules q.live)) : Registered q := fun f live m taken =>
    sound.held m (List.mem_flatMap.mpr ⟨f,live,taken⟩)
  exact ⟨listed sound,builtin.untried,keepsIff sound,fun e => listed (newSound sound e),untriedIff builtin sound⟩

def plain (modules : Option CString.Bytes) : NewRun := ⟨true,modules,fun _ => ⟨false,true⟩,true,true,true,true,true⟩

theorem registryKeptTwo :
    let p := fuseNew (fuseNew start (plain (some subdir))) (plain (some (CString.ascii "iconv:subdir")))
    Registered p ∧ subdir ∉ p.registry.tried ∧ p.registry.modules.map (fun m => (p.registry.mods m).ctr) = [1,2] := by
  have first : Careful (fuseNew start (plain (some subdir))) ⟨1,false⟩ := .new .start (plain (some subdir)) fun _ => rfl
  have second := Careful.new first (plain (some (CString.ascii "iconv:subdir"))) fun _ => by decide +kernel
  exact ⟨(registryKept _ _ second).1,(registryKept _ _ second).2.1,by decide +kernel⟩

/- Destroying the second of two instances takes the module of the first away, and the next fuse_new
tries to load what was built in. -/
theorem registryLost :
    let p := fuseNew (fuseNew start (plain (some subdir))) (plain none)
    let q := fuseDestroy p 1
    q.live = [⟨0,[0]⟩] ∧ (p.registry.mods 0).name = subdir ∧ p.registry.modules = [1,0] ∧ q.registry.modules = [] ∧
      ¬Registered q ∧ (fuseNew q (plain (some subdir))).registry.tried = [subdir] ∧
      (fuseNew q (plain (some subdir))).live = q.live := by
  intro p q
  have live : q.live = [⟨0,[0]⟩] := by decide +kernel
  have none : q.registry.modules = [] := by decide +kernel
  refine ⟨live,by decide +kernel,by decide +kernel,none,?_,by decide +kernel,by decide +kernel⟩
  intro kept
  have listed := kept ⟨0,[0]⟩ (live ▸ List.mem_cons_self) 0 List.mem_cons_self
  rw [none] at listed
  cases listed

end FuseStudy.ModuleLookups
