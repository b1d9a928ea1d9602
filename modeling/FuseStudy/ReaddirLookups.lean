import FuseStudy.CacheRuns
import FuseStudy.Readdir
import Mathlib.Algebra.BigOperators.Group.Finset.Basic

/-! The lookups a READDIRPLUS request takes, against the entries of its reply. A lookup is
taken before it is known whether the entry fits and whether the request will succeed. -/
namespace FuseStudy.NodeStore
open CString LinearHash

variable {extra : Ptr → Nat} {s s' : Fuse} {p : Ptr} {n m : Node} {dh dh' : Dh} {conf : InoConf}

def Fuse.totalLookups (s : Fuse) : Nat := ∑ p ∈ Finset.range s.brk, ((s.heap p).map Node.nlookup).getD 0

structure Sound (extra : Ptr → Nat) (s : Fuse) : Prop extends Steady extra s where
  spare : ∀ p, s.brk ≤ p → extra p = 0
  nonzero : ∀ p n, s.heap p = some n → n.nodeid ≠ 0

theorem totalPut (low : p < s.brk) (live : s.heap p = some n) (lru : List Ptr) :
    ({s with lruTable := lru}.put p m).totalLookups + n.nlookup = s.totalLookups + m.nlookup := by
  have inside : p ∈ Finset.range s.brk := Finset.mem_range.mpr low
  have rest : ∀ q ∈ (Finset.range s.brk).erase p,
      ((({s with lruTable := lru}.put p m).heap q).map Node.nlookup).getD 0 = ((s.heap q).map Node.nlookup).getD 0 := by
    intro q mem
    rw [putOther (Finset.ne_of_mem_erase mem)]
  have before := Finset.add_sum_erase _ (fun q => ((s.heap q).map Node.nlookup).getD 0) inside
  have after := Finset.add_sum_erase _
    (fun q => ((({s with lruTable := lru}.put p m).heap q).map Node.nlookup).getD 0) inside
  rw [Finset.sum_congr rfl rest] at after
  simp only [putSelf,live,Option.map_some,Option.getD_some] at before after
  change ∑ q ∈ Finset.range s.brk, ((({s with lruTable := lru}.put p m).heap q).map Node.nlookup).getD 0 + _ = _
  rw [← after,Fuse.totalLookups,← before]
  have swap : ∀ a b c : Nat, a + b + c = c + b + a := by omega
  exact swap _ _ _

theorem totalGrown {brk : Nat} (fresh : ∀ p, s.brk ≤ p → s.heap p = none) (grown : s.brk ≤ brk) :
    ∑ p ∈ Finset.range brk, ((s.heap p).map Node.nlookup).getD 0 = s.totalLookups := by
  symm
  apply Finset.sum_subset (Finset.range_mono grown)
  intro q _ outside
  rw [fresh q (Nat.not_lt.mp (fun low => outside (Finset.mem_range.mpr low)))]
  rfl

structure Looked (extra : Ptr → Nat) (s : Fuse) (dir : Ino) (name : Name) (r : Fuse × Option (Ino × Nat)) : Prop where
  sound : Sound extra r.1
  conf : r.1.conf = s.conf
  total : r.1.totalLookups = s.totalLookups +
    if r.2 = none then 0 else if s.conf.remember ≠ 0 ∧ s.lookupNode dir name = none then 2 else 1
  nonzero : ∀ e, r.2 = some e → e.1 ≠ 0

theorem doLookupSpec {dir : Ino} {name : Name} {r : Fuse × Option (Ino × Nat)} (sound : Sound extra s)
    (ok : s.doLookup dir name = .ok r) : Looked extra s dir name r := by
  obtain ⟨⟨s',result⟩,found,ok⟩ := callBind ok
  have spec := (findNodeSpec sound.toSteady (sound.spare _ (Nat.le_refl _)) dir (some name)).good found
  cases spec with
  | @existing p n lru live known _ steady =>
    have there : s.lookupNode dir name ≠ none := by
      rcases known with ⟨no,_⟩ | ⟨nm,asked,found⟩
      · cases no
      · cases asked
        rw [found]
        nofun
    simp only [bind,Except.bind,derefOk (putSelf ..)] at ok
    cases ok
    refine ⟨⟨steady,sound.spare,?_⟩,rfl,?_,?_⟩
    · intro q k now
      rcases atUpdate now with ⟨rfl,rfl⟩ | ⟨_,was⟩
      · exact sound.nonzero q n live
      · exact sound.nonzero q k was
    · have total := totalPut (m := n.incNlookup) (sound.shape.lt live) live lru
      have one : n.incNlookup.nlookup = n.nlookup + 1 := rfl
      simp only [reduceCtorEq,if_false,there,and_false]
      omega
    · rintro _ ⟨⟩
      exact sound.nonzero p n live
  | @created nm s' n asked absent steady effect live brk _ lookups _ rest ids =>
    cases asked
    simp only [bind,Except.bind,derefOk live] at ok
    cases ok
    refine ⟨⟨steady,?_,?_⟩,effect.conf,?_,?_⟩
    · intro q above
      exact sound.spare q (Nat.le_trans effect.brk above)
    · intro q k now
      cases was : s.heap q with
      | some k₀ =>
        rw [(effect.kept q k₀ k was now).nodeid]
        exact sound.nonzero q k₀ was
      | none =>
        have above := (effect.new q k was now).1
        have low := steady.shape.lt now
        rw [brk] at low
        have here : q = s.brk := Nat.le_antisymm (Nat.le_of_lt_succ low) above
        subst here
        rw [live] at now
        cases now
        exact ids.2.1
    · have same : ∀ q ∈ Finset.range s.brk, ((s'.heap q).map Node.nlookup).getD 0 =
          ((s.heap q).map Node.nlookup).getD 0 := by
        intro q mem
        cases was : s.heap q with
        | some k =>
          obtain ⟨k',now⟩ := rest q k was
          have count := (effect.kept q k k' was now).nlookup
          simp only [now,Option.map_some,Option.getD_some,count]
          rfl
        | none =>
          cases now : s'.heap q with
          | none => rfl
          | some k => exact absurd (effect.new q k was now).1 (Nat.not_le.mpr (Finset.mem_range.mp mem))
      simp only [reduceCtorEq,if_false,absent,and_true]
      rw [Fuse.totalLookups,brk,Finset.sum_range_succ,Finset.sum_congr rfl same,live]
      simp only [Option.map_some,Option.getD_some,lookups]
      rfl
    · rintro _ ⟨⟩
      exact ids.2.1
  | @failed nm brk ctr generation memory asked absent steady grown =>
    cases ok
    refine ⟨⟨steady,fun q above => sound.spare q (Nat.le_trans grown above),sound.nonzero⟩,rfl,?_,nofun⟩
    exact totalGrown sound.shape.fresh grown

/- What one entry meets: it is looked up, then fits or not, perhaps with a new node; an error
is noted that becomes the answer; or neither. -/
inductive Turn
  | plain
  | looked (fits fresh : Bool)
  | refused
  deriving DecidableEq

def Turn.taken (remembers : Bool) : Turn → Nat
  | .looked _ fresh => if remembers && fresh then 2 else 1
  | _ => 0

def Turn.shown : Turn → Nat
  | .looked true _ => 1
  | _ => 0

def Dh.fits (dh : Dh) (name : Name) : Bool := decide (dh.len + direntSize true name ≤ dh.needlen)

def Fuse.lookTurn (s : Fuse) (dh : Dh) (name : Name) : Turn :=
  match s.doLookup dh.nodeid name with
  | .ok (_,none) => .refused
  | _ => .looked (dh.fits name) (s.lookupNode dh.nodeid name).isNone

def Fuse.fillTurn (s : Fuse) (dh : Dh) (fill : Fill) : Turn :=
  if !knownFlags fill.flags then .refused
  else if fill.off ≠ 0 then
    if dh.filled ∨ dh.first ≠ [] then .refused
    else match s.extendContents dh dh.needlen with
      | (_,_,false) => .refused
      | (s,dh,true) =>
        if fill.stat.isSome && plusFlag fill.flags && !isDotOrDotdot fill.name then s.lookTurn dh fill.name else .plain
  else if s.memory 0 && s.memory 1 then .plain
  else .refused

def fillTurns (conf : InoConf) : Fuse → Dh → List Fill → List Turn
  | _, _, [] => []
  | s, dh, fill :: fills => s.fillTurn dh fill :: match s.fillDirPlus conf dh fill with
    | .ok (s,dh,full) => if full && !fill.insists then [] else fillTurns conf s dh fills
    | .error _ => []

def listTurns : Fuse → Dh → List Direntry → List Turn
  | _, _, [] => []
  | s, dh, de :: rest =>
    let later := fun s =>
      if dh.fits de.name then listTurns s {dh with len := dh.len + direntSize true de.name} rest else []
    if plusFlag de.flags && !isDotOrDotdot de.name then
      s.lookTurn dh de.name :: match s.doLookup dh.nodeid de.name with
        | .ok (s,some _) => later s
        | _ => []
    else .plain :: later s

/- The first entry that does not fit does not make the sum of the lengths wrap round to one
that does. -/
def listUnwrapped : Fuse → Dh → List Direntry → Bool
  | _, _, [] => true
  | s, dh, de :: rest =>
    let later := fun s =>
      if dh.fits de.name then listUnwrapped s {dh with len := dh.len + direntSize true de.name} rest
      else decide (dh.needlen < (dh.len + direntSize true de.name) % 2 ^ 32)
    if plusFlag de.flags && !isDotOrDotdot de.name then
      match s.doLookup dh.nodeid de.name with
      | .ok (s,some _) => later s
      | _ => true
    else later s

def Dh.replied (dh : Dh) : Nat := dh.contents.countP (fun entry => entry.nodeid ≠ 0)

structure Counted (extra : Ptr → Nat) (s s' : Fuse) (dh dh' : Dh) (turns : List Turn) : Prop where
  sound : Sound extra s'
  conf : s'.conf = s.conf
  total : s'.totalLookups = s.totalLookups + (turns.map (Turn.taken (decide (s.conf.remember ≠ 0)))).sum
  shown : dh'.replied = dh.replied + (turns.map Turn.shown).sum
  error : dh'.error ≠ 0 ↔ dh.error ≠ 0 ∨ .refused ∈ turns

theorem Counted.nil (sound : Sound extra s) (dh : Dh) : Counted extra s s dh dh [] :=
  ⟨sound,rfl,rfl,rfl,by simp⟩

theorem Counted.cons {s₂ : Fuse} {dh₂ : Dh} {turn : Turn} {turns : List Turn} (first : Counted extra s s' dh dh' [turn])
    (rest : Counted extra s' s₂ dh' dh₂ turns) : Counted extra s s₂ dh dh₂ (turn :: turns) := by
  refine ⟨rest.sound,rest.conf.trans first.conf,?_,?_,?_⟩
  · rw [rest.total,first.total,first.conf]
    simp only [List.map_cons,List.map_nil,List.sum_cons,List.sum_nil]
    omega
  · rw [rest.shown,first.shown]
    simp only [List.map_cons,List.map_nil,List.sum_cons,List.sum_nil]
    omega
  · rw [rest.error,first.error,List.mem_singleton,List.mem_cons,or_assoc]

theorem Sound.memory (sound : Sound extra s) (memory : Nat → Bool) : Sound extra {s with memory := memory} :=
  ⟨sound.toSteady.memory memory,sound.spare,sound.nonzero⟩

theorem addReplied (dh : Dh) (entry : Packed) : (dh.add true entry).1.error = dh.error ∧
    (dh.add true entry).1.replied = dh.replied + if dh.fits entry.name ∧ entry.nodeid ≠ 0 then 1 else 0 := by
  unfold Dh.add Dh.fits Dh.replied
  split
  · rename_i full
    rw [if_neg (fun fits => absurd (of_decide_eq_true fits.1) (Nat.not_le.mpr full))]
    exact ⟨rfl,rfl⟩
  · rename_i room
    refine ⟨rfl,?_⟩
    simp only [List.countP_append,List.countP_singleton,Nat.not_lt.mp room,decide_true,true_and,decide_eq_true_eq]

theorem Looked.counted (dh : Dh) {name : Name} {r : Fuse × Option (Ino × Nat)}
    (looked : Looked extra s dh.nodeid name r) (ok : s.doLookup dh.nodeid name = .ok r) (known : r.2 ≠ none)
    (replied : dh'.replied = dh.replied + if dh.fits name then 1 else 0) (error : dh'.error = dh.error) :
    Counted extra s r.1 dh dh' [s.lookTurn dh name] := by
  have turn : s.lookTurn dh name = .looked (dh.fits name) (s.lookupNode dh.nodeid name).isNone := by
    obtain ⟨s',result⟩ := r
    cases result with
    | none => exact absurd rfl known
    | some e => rw [Fuse.lookTurn,ok]
  rw [turn]
  refine ⟨looked.sound,looked.conf,?_,?_,by simp [error]⟩
  · rw [looked.total,if_neg known]
    simp only [List.map_cons,List.map_nil,List.sum_cons,List.sum_nil,Turn.taken,Bool.and_eq_true,decide_eq_true_eq,
      Option.isNone_iff_eq_none,Nat.add_zero]
  · rw [replied]
    cases dh.fits name <;> rfl

theorem extendContentsSpec (s : Fuse) (dh : Dh) (minsize : Nat) : ∃ memory,
    (∃ size, s.extendContents dh minsize = ({s with memory := memory},{dh with size := size},true)) ∨
    s.extendContents dh minsize = ({s with memory := memory},{dh with error := -enomem},false) := by
  unfold Fuse.extendContents
  split
  · cases grown : s.memory 0 with
    | true => exact ⟨_,.inl ⟨_,by simp only [Fuse.takeMem,grown,if_true]; rfl⟩⟩
    | false => exact ⟨_,.inr (by simp only [Fuse.takeMem,grown,Bool.false_eq_true,if_false]; rfl)⟩
  · exact ⟨s.memory,.inl ⟨dh.size,rfl⟩⟩

theorem addDirentrySpec (s : Fuse) (dh : Dh) (name : Name) (stat : Stat) (flags : Nat) : ∃ memory,
    if s.memory 0 && s.memory 1 then s.addDirentryToDh dh name stat flags =
      ({s with memory := memory},{dh with first := dh.first ++ [⟨name,flags,stat⟩]},false)
    else s.addDirentryToDh dh name stat flags = ({s with memory := memory},{dh with error := -enomem},true) := by
  unfold Fuse.addDirentryToDh Fuse.takeMem
  cases s.memory 0 with
  | false => exact ⟨_,rfl⟩
  | true =>
    simp only [Bool.true_and,if_true]
    cases s.memory 1 with
    | false => exact ⟨_,rfl⟩
    | true => exact ⟨_,rfl⟩

inductive Filled (extra : Ptr → Nat) (s : Fuse) (dh : Dh) (fill : Fill) : Turn → Fuse × Dh × Bool → Prop
  | refused (memory : Nat → Bool) {error : Int} (filled : Bool) (bad : error ≠ 0) :
      Filled extra s dh fill .refused ({s with memory := memory},{dh with error := error, filled := filled},true)
  | listed (memory : Nat → Bool) (entry : Direntry) :
      Filled extra s dh fill .plain
        ({s with memory := memory},{dh with filled := true, first := dh.first ++ [entry]},false)
  | plain (memory : Nat → Bool) (size : Nat) (entry : Packed) (unknown : entry.nodeid = 0) :
      Filled extra s dh fill .plain ({s with memory := memory},{dh with size := size}.add true entry)
  | unfound {memory : Nat → Bool} {size : Nat} {r : Fuse × Option (Ino × Nat)}
      (looked : Looked extra {s with memory := memory} dh.nodeid fill.name r) (none : r.2 = none) :
      Filled extra s dh fill .refused (r.1,{dh with size := size, error := -enomem},true)
  | looked {memory : Nat → Bool} {size : Nat} {r : Fuse × Option (Ino × Nat)} {e : Ino × Nat} {entry : Packed}
      (ok : ({s with memory := memory} : Fuse).doLookup dh.nodeid fill.name = .ok r)
      (looked : Looked extra {s with memory := memory} dh.nodeid fill.name r)
      (known : r.2 = some e) (node : entry.nodeid = e.1) (called : entry.name = fill.name) :
      Filled extra s dh fill (({s with memory := memory} : Fuse).lookTurn {dh with size := size} fill.name)
        (r.1,{dh with size := size}.add true entry)

theorem fillDirPlusSpec {fill : Fill} {r : Fuse × Dh × Bool} (sound : Sound extra s)
    (ok : s.fillDirPlus conf dh fill = .ok r) : Filled extra s dh fill (s.fillTurn dh fill) r := by
  unfold Fuse.fillDirPlus at ok
  unfold Fuse.fillTurn
  by_cases unknown : (!knownFlags fill.flags) = true
  · rw [if_pos unknown] at ok ⊢
    cases ok
    exact .refused s.memory dh.filled (show -eio ≠ 0 by decide)
  rw [if_neg unknown] at ok ⊢
  simp only at ok
  generalize (if fill.stat.isSome ∧ plusFlag fill.flags then fill.stat.getD ⟨0,0⟩
    else s.fillStat conf dh fill) = stat at ok
  by_cases placed : fill.off ≠ 0
  · rw [if_pos placed] at ok ⊢
    by_cases mixed : dh.filled ∨ dh.first ≠ []
    · rw [if_pos mixed] at ok ⊢
      cases ok
      exact .refused s.memory dh.filled (show -eio ≠ 0 by decide)
    rw [if_neg mixed] at ok ⊢
    obtain ⟨memory,⟨size,extended⟩ | extended⟩ := extendContentsSpec s dh dh.needlen
    · rw [extended] at ok ⊢
      simp only at ok ⊢
      by_cases looks : (fill.stat.isSome && plusFlag fill.flags && !isDotOrDotdot fill.name) = true
      · rw [if_pos looks] at ok ⊢
        obtain ⟨⟨s',result⟩,looked,ok⟩ := callBind ok
        have spec := doLookupSpec (sound.memory memory) looked
        cases result with
        | none =>
          cases ok
          have turn : ({s with memory := memory} : Fuse).lookTurn {dh with size := size} fill.name = .refused := by
            simp only [Fuse.lookTurn,looked]
          rw [turn]
          exact .unfound spec rfl
        | some e =>
          cases ok
          exact .looked looked spec rfl rfl rfl
      · rw [if_neg looks] at ok ⊢
        cases ok
        exact .plain memory size _ rfl
    · rw [extended] at ok ⊢
      cases ok
      exact .refused memory dh.filled (show -enomem ≠ 0 by decide)
  · rw [if_neg placed] at ok ⊢
    cases ok
    obtain ⟨memory,added⟩ := addDirentrySpec s {dh with filled := true} fill.name stat fill.flags
    split at added
    · rename_i allocated
      rw [added,if_pos allocated]
      exact .listed memory ⟨fill.name,fill.flags,stat⟩
    · rename_i failed
      rw [added,if_neg failed]
      exact .refused memory true (show -enomem ≠ 0 by decide)

theorem Filled.counted {fill : Fill} {turn : Turn} {r : Fuse × Dh × Bool} (filled : Filled extra s dh fill turn r)
    (sound : Sound extra s) : Counted extra s r.1 dh r.2.1 [turn] := by
  cases filled with
  | refused memory _ bad => exact ⟨sound.memory memory,rfl,rfl,rfl,by simp [bad]⟩
  | listed memory _ => exact ⟨sound.memory memory,rfl,rfl,rfl,by simp⟩
  | plain memory size entry unknown =>
    have added := addReplied {dh with size := size} entry
    refine ⟨sound.memory memory,rfl,rfl,?_,by simp [added.1]⟩
    rw [added.2,if_neg (fun h => h.2 unknown)]
    rfl
  | unfound looked none =>
    have total := looked.total
    rw [if_pos none] at total
    exact ⟨looked.sound,looked.conf,total,rfl,by simp [enomem]⟩
  | @looked memory size r e entry ok looked known node called =>
    have added := addReplied {dh with size := size} entry
    have replied := added.2
    simp only [called,node,looked.nonzero e known,ne_eq,not_false_eq_true,and_true] at replied
    have counted := looked.counted {dh with size := size} ok (by rw [known]; nofun) replied added.1
    exact ⟨counted.sound,counted.conf,counted.total,counted.shown,counted.error⟩

theorem Filled.needlen {fill : Fill} {turn : Turn} {r : Fuse × Dh × Bool} (filled : Filled extra s dh fill turn r) :
    r.2.1.needlen = dh.needlen := by
  have added : ∀ (size : Nat) (entry : Packed),
      (({dh with size := size} : Dh).add true entry).1.needlen = dh.needlen := by
    intro size entry
    unfold Dh.add
    split <;> rfl
  cases filled with
  | refused => rfl
  | listed => rfl
  | plain memory size entry _ => exact added size entry
  | unfound => rfl
  | @looked _ size _ _ entry => exact added size entry

theorem fillAllCounted (fills : List Fill) {r : Fuse × Dh} (sound : Sound extra s)
    (ok : fillAll (fun s dh fill => if true then s.fillDirPlus conf dh fill else s.fillDir conf dh fill) s
      dh fills = .ok r) :
    Counted extra s r.1 dh r.2 (fillTurns conf s dh fills) ∧ r.2.needlen = dh.needlen := by
  induction fills generalizing s dh with
  | nil =>
    cases ok
    exact ⟨.nil sound dh,rfl⟩
  | cons fill fills ih =>
    obtain ⟨⟨s',dh',full⟩,first,ok⟩ := callBind ok
    simp only [if_true] at first
    have filled := fillDirPlusSpec sound first
    have counted := filled.counted sound
    have needlen := filled.needlen
    simp only [fillTurns,first]
    by_cases stops : (full && !fill.insists) = true
    · simp only [stops,if_true] at ok ⊢
      cases ok
      exact ⟨counted,needlen⟩
    · simp only [stops] at ok ⊢
      obtain ⟨rest,needlen'⟩ := ih counted.sound ok
      exact ⟨counted.cons rest,needlen'.trans needlen⟩

theorem listTurnsContents (entries : List Direntry) (s : Fuse) (dh : Dh) (contents : List Packed) :
    listTurns s {dh with contents := contents} entries = listTurns s dh entries := by
  induction entries generalizing s dh with
  | nil => rfl
  | cons de rest ih =>
    have later : ∀ s', listTurns s' {dh with contents := contents, len := dh.len + direntSize true de.name} rest =
        listTurns s' {dh with len := dh.len + direntSize true de.name} rest :=
      fun s' => ih s' {dh with len := dh.len + direntSize true de.name}
    simp only [listTurns,later]
    rfl

theorem listUnwrappedContents (entries : List Direntry) (s : Fuse) (dh : Dh) (contents : List Packed) :
    listUnwrapped s {dh with contents := contents} entries = listUnwrapped s dh entries := by
  induction entries generalizing s dh with
  | nil => rfl
  | cons de rest ih =>
    have later : ∀ s', listUnwrapped s' {dh with contents := contents, len := dh.len + direntSize true de.name} rest =
        listUnwrapped s' {dh with len := dh.len + direntSize true de.name} rest :=
      fun s' => ih s' {dh with len := dh.len + direntSize true de.name}
    simp only [listUnwrapped,later]
    rfl

theorem fillListCounted (entries : List Direntry) (dh : Dh) {pos : Int} {r : Fuse × Dh × Int} (sound : Sound extra s)
    (small : dh.needlen < 2 ^ 32) (within : dh.len ≤ dh.needlen) (unwrapped : listUnwrapped s dh entries = true)
    (ok : fillList conf true s dh pos entries = .ok r) :
    Counted extra s r.1 dh r.2.1 (listTurns s dh entries) ∧ (r.2.2 ≠ 0 ↔ .refused ∈ listTurns s dh entries) := by
  induction entries generalizing s dh pos with
  | nil =>
    cases ok
    exact ⟨.nil sound dh,by simp [listTurns]⟩
  | cons de rest ih =>
    -- the sum that wraps around is no smaller than the size, or none does
    have sum : dh.needlen < dh.len + direntSize true de.name →
        dh.needlen < (dh.len + direntSize true de.name) % 2 ^ 32 →
        dh.needlen < (dh.len + direntSize true de.name % 2 ^ 32) % 2 ^ 32 := by omega
    have whole : dh.len + direntSize true de.name ≤ dh.needlen →
        (dh.len + direntSize true de.name % 2 ^ 32) % 2 ^ 32 = dh.len + direntSize true de.name := by omega
    -- what comes after the lookup, if there is one
    have tail : ∀ {s' : Fuse} {turn : Turn} (entry : Packed), entry.name = de.name → turn ≠ .refused →
        (∀ dh', dh'.error = dh.error →
          dh'.replied = dh.replied + (if dh.fits de.name ∧ entry.nodeid ≠ 0 then 1 else 0) →
          Counted extra s s' dh dh' [turn]) →
        (if dh.fits de.name then listUnwrapped s' {dh with len := dh.len + direntSize true de.name} rest
          else decide (dh.needlen < (dh.len + direntSize true de.name) % 2 ^ 32)) = true →
        (if dh.needlen < (dh.len + direntSize true de.name % 2 ^ 32) % 2 ^ 32 then .ok (s',dh,0)
          else fillList conf true s' {dh with
            contents := if direntSize true de.name ≤ dh.needlen - dh.len then dh.contents ++ [entry]
              else packedIn true ((dh.len + direntSize true de.name % 2 ^ 32) % 2 ^ 32) dh.contents
            len := (dh.len + direntSize true de.name % 2 ^ 32) % 2 ^ 32} (pos+1) rest) = .ok r →
        Counted extra s r.1 dh r.2.1 (turn :: if dh.fits de.name then
          listTurns s' {dh with len := dh.len + direntSize true de.name} rest else []) ∧
        (r.2.2 ≠ 0 ↔ .refused ∈ turn :: if dh.fits de.name then
          listTurns s' {dh with len := dh.len + direntSize true de.name} rest else []) := by
      intro s' turn entry called answered counted unwrapped ok
      by_cases full : dh.needlen < dh.len + direntSize true de.name
      · have unfit : dh.fits de.name = false := decide_eq_false (Nat.not_le.mpr full)
        simp only [unfit,Bool.false_eq_true,if_false,decide_eq_true_eq] at unwrapped
        rw [if_pos (sum full unwrapped)] at ok
        cases ok
        have first := counted dh rfl (by simp [unfit])
        simp only [unfit]
        exact ⟨first,by simp [answered.symm]⟩
      · have fit : dh.fits de.name = true := decide_eq_true (Nat.not_lt.mp full)
        have total := whole (Nat.not_lt.mp full)
        rw [total,if_neg full,if_pos (by omega)] at ok
        rw [if_pos fit] at unwrapped
        have first := counted {dh with
          contents := dh.contents ++ [entry], len := dh.len + direntSize true de.name} rfl (by
            simp [Dh.replied,fit,List.countP_append,List.countP_singleton])
        have turns : listTurns s' {dh with
            contents := dh.contents ++ [entry], len := dh.len + direntSize true de.name} rest =
            listTurns s' {dh with len := dh.len + direntSize true de.name} rest :=
          listTurnsContents rest s' {dh with len := dh.len + direntSize true de.name} (dh.contents ++ [entry])
        have still := listUnwrappedContents rest s' {dh with len := dh.len + direntSize true de.name}
          (dh.contents ++ [entry])
        obtain ⟨second,error⟩ := ih {dh with
          contents := dh.contents ++ [entry], len := dh.len + direntSize true de.name} first.sound small
          (Nat.not_lt.mp full) (still.trans unwrapped) ok
        rw [turns] at second error
        simp only [fit,if_true]
        exact ⟨first.cons second,by rw [error,List.mem_cons,or_iff_right answered.symm]⟩
    rw [fillList] at ok
    rw [listTurns]
    rw [listUnwrapped] at unwrapped
    by_cases looks : (plusFlag de.flags && !isDotOrDotdot de.name) = true
    · simp only [Bool.true_and,looks,if_true] at ok unwrapped ⊢
      obtain ⟨⟨s',looked⟩,first,ok⟩ := callBind ok
      have spec := doLookupSpec sound first
      rw [first] at unwrapped ⊢
      cases looked with
      | none =>
        cases ok
        have turn : s.lookTurn dh de.name = .refused := by simp only [Fuse.lookTurn,first]
        simp only [turn]
        exact ⟨⟨spec.sound,spec.conf,spec.total,rfl,by simp [enomem]⟩,by simp⟩
      | some e =>
        have turn : s.lookTurn dh de.name = .looked (dh.fits de.name) (s.lookupNode dh.nodeid de.name).isNone := by
          simp only [Fuse.lookTurn,first]
        refine tail ⟨e.1,e.2,_,_,_,de.name⟩ rfl (by rw [turn]; nofun) ?_ unwrapped ok
        intro dh' error replied
        refine spec.counted dh first nofun ?_ error
        simpa only [spec.nonzero e rfl,ne_eq,not_false_eq_true,and_true] using replied
    · simp only [Bool.true_and,looks,Bool.false_eq_true,if_false] at ok unwrapped ⊢
      obtain ⟨_,⟨⟩,ok⟩ := callBind ok
      refine tail ⟨0,0,_,_,_,de.name⟩ rfl nofun ?_ unwrapped ok
      intro dh' error replied
      exact ⟨sound,rfl,rfl,by simpa [Turn.shown] using replied,by simp [error]⟩

/- The entries cut from the list, from the offset on. -/
def Fuse.listPhase (s : Fuse) (dh : Dh) (off : Int) : List Turn :=
  match s.extendContents {dh with len := 0, contents := []} dh.needlen with
  | (_,_,false) => [.refused]
  | (s,dh,true) => listTurns s dh (dh.first.drop off.toNat)

def Fuse.listPhaseUnwrapped (s : Fuse) (dh : Dh) (off : Int) : Bool :=
  match s.extendContents {dh with len := 0, contents := []} dh.needlen with
  | (_,_,false) => true
  | (s,dh,true) => listUnwrapped s dh (dh.first.drop off.toNat)

/- The turns of a request: those in the user's readdir, then those in the list when the reply
is cut from it. -/
structure Turns where
  filled : List Turn
  listed : Option (List Turn)

def Fuse.fillPhase (s : Fuse) (conf : InoConf) (size : Nat) (dh : Dh) (user : Directory) : List Turn :=
  if user.pathErr ≠ 0 then [.refused]
  else fillTurns conf s (dh.restart (size % 2 ^ 32)) user.fills ++ if user.res ≠ 0 then [Turn.refused] else []

def Fuse.readdirTurns (s : Fuse) (conf : InoConf) (size : Nat) (off : Int) (dh : Dh) (user : Directory) : Turns :=
  let dh := dh.rewind off
  if dh.filled then ⟨[],some (s.listPhase {dh with needlen := size % 2 ^ 32} off)⟩
  else ⟨s.fillPhase conf size dh user,match s.readdirFill conf true size dh user with
    | .ok (s,dh,err) => if err = 0 ∧ dh.filled then some (s.listPhase dh off) else none
    | .error _ => none⟩

/- The lengths wrap around only in the list. -/
def Fuse.readdirUnwrapped (s : Fuse) (conf : InoConf) (size : Nat) (off : Int) (dh : Dh) (user : Directory) : Bool :=
  let dh := dh.rewind off
  if dh.filled then s.listPhaseUnwrapped {dh with needlen := size % 2 ^ 32} off
  else match s.readdirFill conf true size dh user with
    | .ok (s,dh,err) => if err = 0 ∧ dh.filled then s.listPhaseUnwrapped dh off else true
    | .error _ => true

def Turn.isLooked : Turn → Bool
  | .looked _ _ => true
  | _ => false

/- A turn whose lookups the kernel will give back: it has an entry in the reply, and no lookup
of the library's own. -/
def Turn.kept (remembers : Bool) : Turn → Bool
  | .looked fits fresh => fits && !(remembers && fresh)
  | _ => true

def Turns.all (turns : Turns) : List Turn := turns.filled ++ turns.listed.getD []

def Turns.accounted (remembers : Bool) (turns : Turns) : Bool :=
  turns.all.all (fun turn => !turn.isLooked) ||
  (!turns.all.contains .refused && turns.all.all (Turn.kept remembers) &&
    (turns.listed.isNone || turns.filled.all (fun turn => !turn.isLooked)))

def Reply.entries : Reply → Nat
  | .err _ => 0
  | .buf contents => contents.countP (fun entry => entry.nodeid ≠ 0)

theorem takenZero (remembers : Bool) (turns : List Turn) :
    (turns.map (Turn.taken remembers)).sum = 0 ↔ turns.all (fun turn => !turn.isLooked) := by
  induction turns with
  | nil => simp
  | cons turn turns ih =>
    have one : turn.taken remembers = 0 ↔ !turn.isLooked := by
      cases turn with
      | looked fits fresh => cases fresh <;> cases remembers <;> simp [Turn.taken,Turn.isLooked]
      | plain => simp [Turn.taken,Turn.isLooked]
      | refused => simp [Turn.taken,Turn.isLooked]
    simp only [List.map_cons,List.sum_cons,List.all_cons,Bool.and_eq_true,Nat.add_eq_zero_iff,one,ih]

theorem shownTaken (remembers : Bool) (turns : List Turn) :
    (turns.map Turn.shown).sum ≤ (turns.map (Turn.taken remembers)).sum ∧
    ((turns.map (Turn.taken remembers)).sum = (turns.map Turn.shown).sum ↔ turns.all (Turn.kept remembers)) := by
  induction turns with
  | nil => simp
  | cons turn turns ih =>
    obtain ⟨most,same⟩ := ih
    have one : turn.shown ≤ turn.taken remembers ∧ (turn.taken remembers = turn.shown ↔ turn.kept remembers) := by
      cases turn with
      | looked fits fresh => cases fits <;> cases fresh <;> cases remembers <;> decide
      | plain => exact ⟨Nat.le_refl _,by simp [Turn.taken,Turn.shown,Turn.kept]⟩
      | refused => exact ⟨Nat.le_refl _,by simp [Turn.taken,Turn.shown,Turn.kept]⟩
    simp only [List.map_cons,List.sum_cons,List.all_cons,Bool.and_eq_true]
    rw [← same,← one.2]
    omega

theorem accountedIff (remembers : Bool) (turns : Turns) {entries : Nat}
    (failed : .refused ∈ turns.all → entries = 0)
    (answered : .refused ∉ turns.all → entries = ((turns.listed.getD turns.filled).map Turn.shown).sum) :
    (turns.all.map (Turn.taken remembers)).sum = entries ↔ turns.accounted remembers := by
  obtain ⟨filled,listed⟩ := turns
  have first := shownTaken remembers filled
  have none := takenZero remembers filled
  simp only [Turns.accounted,Turns.all,Bool.or_eq_true,Bool.and_eq_true,Bool.not_eq_true',List.contains_eq_mem,
    decide_eq_false_iff_not,List.map_append,List.sum_append,List.all_append] at failed answered ⊢
  by_cases refused : Turn.refused ∈ filled ++ listed.getD []
  · rw [failed refused,Nat.add_eq_zero_iff,none,takenZero]
    simp [refused]
  · have is := answered refused
    cases listed with
    | none =>
      simp only [Option.getD_none,List.append_nil,List.map_nil,List.sum_nil,List.all_nil,
        Option.isNone_none] at is refused ⊢
      rw [is,Nat.add_zero,first.2]
      have kept : filled.all (fun turn => !turn.isLooked) → filled.all (Turn.kept remembers) := by
        rw [← none,← first.2]
        omega
      simp only [refused,not_false_eq_true,true_and,and_true,true_or]
      tauto
    | some later =>
      have second := shownTaken remembers later
      have zero := takenZero remembers later
      simp only [Option.getD_some,Option.isNone_some,Bool.false_eq_true,false_or] at is refused ⊢
      simp only [refused,not_false_eq_true,true_and]
      rw [is,← none,← zero,← first.2,← second.2]
      omega

theorem listPhaseCounted (dh : Dh) {off : Int} {r : Fuse × Dh × Int} (sound : Sound extra s)
    (small : dh.needlen < 2 ^ 32) (unwrapped : s.listPhaseUnwrapped dh off = true)
    (ok : s.readdirFillFromList conf true dh off = .ok r) :
    Counted extra s r.1 {dh with len := 0, contents := []} r.2.1 (s.listPhase dh off) ∧
      (r.2.2 ≠ 0 ↔ .refused ∈ s.listPhase dh off) := by
  unfold Fuse.readdirFillFromList at ok
  unfold Fuse.listPhase
  unfold Fuse.listPhaseUnwrapped at unwrapped
  obtain ⟨memory,⟨size,extended⟩ | extended⟩ := extendContentsSpec s {dh with len := 0, contents := []} dh.needlen
  · rw [extended] at ok unwrapped ⊢
    obtain ⟨counted,error⟩ := fillListCounted (dh.first.drop off.toNat)
      {dh with len := 0, contents := [], size := size} (sound.memory memory) small (Nat.zero_le _)
      unwrapped ok
    exact ⟨⟨counted.sound,counted.conf,counted.total,counted.shown,counted.error⟩,error⟩
  · rw [extended] at ok ⊢
    cases ok
    exact ⟨⟨sound.memory memory,rfl,rfl,rfl,by simp [enomem]⟩,by simp [enomem]⟩

structure FillCounted (extra : Ptr → Nat) (s : Fuse) (size : Nat) (turns : List Turn) (r : Fuse × Dh × Int) : Prop where
  sound : Sound extra r.1
  conf : r.1.conf = s.conf
  total : r.1.totalLookups = s.totalLookups + (turns.map (Turn.taken (decide (s.conf.remember ≠ 0)))).sum
  error : r.2.2 ≠ 0 ↔ .refused ∈ turns
  shown : r.2.2 = 0 → r.2.1.replied = (turns.map Turn.shown).sum
  needlen : r.2.2 = 0 → r.2.1.needlen = size % 2 ^ 32

theorem readdirFillCounted {size : Nat} {user : Directory} {r : Fuse × Dh × Int} (sound : Sound extra s)
    (ok : s.readdirFill conf true size dh user = .ok r) :
    FillCounted extra s size (s.fillPhase conf size dh user) r := by
  unfold Fuse.readdirFill at ok
  unfold Fuse.fillPhase
  by_cases lost : user.pathErr ≠ 0
  · rw [if_pos lost] at ok ⊢
    cases ok
    exact ⟨sound,rfl,rfl,by simp [lost],fun none => absurd none lost,fun none => absurd none lost⟩
  rw [if_neg lost] at ok ⊢
  obtain ⟨⟨s₁,dh₁⟩,filled,ended⟩ := callBind ok
  obtain ⟨counted,needlen⟩ := fillAllCounted user.fills sound filled
  have begun := counted.error
  have total := counted.total
  have shown := counted.shown
  simp only at ended begun total shown
  generalize fillTurns conf s (dh.restart (size % 2 ^ 32)) user.fills = turns at begun total shown ⊢
  by_cases bad : user.res ≠ 0
  · simp only [if_pos bad] at ended ⊢
    cases ended
    refine ⟨counted.sound,counted.conf,?_,by simp [bad],fun none => absurd none bad,fun none => absurd none bad⟩
    simpa [Turn.taken] using total
  · simp only [if_neg bad,List.append_nil] at ended ⊢
    cases ended
    refine ⟨counted.sound,counted.conf,total,?_,?_,?_⟩
    · rw [begun]
      exact or_iff_right (fun h => h rfl)
    · intro fine
      rw [if_neg (not_not.mpr fine),shown]
      exact Nat.zero_add _
    · intro fine
      rw [if_neg (not_not.mpr fine)]
      exact needlen

/- The lookups a request takes are those of its turns, and its reply has an entry for those
that fit, unless the request fails or starts again from the list. -/
theorem readdirplusTurns {size : Nat} {off : Int} {user : Directory} {r : Fuse × Dh × Reply} (sound : Sound extra s)
    (unwrapped : s.readdirUnwrapped conf size off dh user = true)
    (ok : s.libReaddirplus conf size off dh user = .ok r) :
    r.1.totalLookups = s.totalLookups + ((s.readdirTurns conf size off dh user).all.map
      (Turn.taken (decide (s.conf.remember ≠ 0)))).sum ∧
    (.refused ∈ (s.readdirTurns conf size off dh user).all → r.2.2.entries = 0) ∧
    (.refused ∉ (s.readdirTurns conf size off dh user).all → r.2.2.entries =
      (((s.readdirTurns conf size off dh user).listed.getD (s.readdirTurns conf size off dh user).filled).map
        Turn.shown).sum) := by
  have whole : size % 2 ^ 32 < 2 ^ 32 := Nat.mod_lt _ (by decide)
  unfold Fuse.libReaddirplus Fuse.readdirCommon at ok
  unfold Fuse.readdirTurns
  unfold Fuse.readdirUnwrapped at unwrapped
  simp only at ok unwrapped ⊢
  generalize dh.rewind off = dh at ok unwrapped ⊢
  -- the reply cut from a list, whatever came before it
  have cut : ∀ {s₁ : Fuse} (dh₁ : Dh), Sound extra s₁ → dh₁.needlen = size % 2 ^ 32 →
    s₁.listPhaseUnwrapped dh₁ off = true →
      ((s₁.readdirFillFromList conf true dh₁ off).bind fun r =>
        .ok (r.1,r.2.1,if r.2.2 ≠ 0 then .err r.2.2 else .buf r.2.1.contents)) = .ok r →
      r.1.totalLookups = s₁.totalLookups + ((s₁.listPhase dh₁ off).map
        (Turn.taken (decide (s₁.conf.remember ≠ 0)))).sum ∧
      (.refused ∈ s₁.listPhase dh₁ off → r.2.2.entries = 0) ∧
      (.refused ∉ s₁.listPhase dh₁ off → r.2.2.entries = ((s₁.listPhase dh₁ off).map Turn.shown).sum) := by
    intro s₁ dh₁ sound₁ needlen unwrapped₁ ok
    obtain ⟨⟨s₂,dh₂,err⟩,listed,⟨⟩⟩ := callBind ok
    obtain ⟨counted,error⟩ := listPhaseCounted dh₁ sound₁ (needlen ▸ whole) unwrapped₁ listed
    refine ⟨counted.total,?_,?_⟩
    · intro refused
      simp only [if_pos (error.mpr refused),Reply.entries]
    · intro fine
      have shown := counted.shown
      simp only [Dh.replied,List.countP_nil,Nat.zero_add] at shown
      simp only [if_neg (mt error.mp fine),Reply.entries]
      exact shown
  by_cases cached : dh.filled
  · simp only [if_pos cached] at ok unwrapped ⊢
    obtain ⟨_,⟨⟩,ok⟩ := callBind ok
    simp only [ne_eq,not_true_eq_false,if_false,if_pos cached] at ok
    exact cut {dh with needlen := size % 2 ^ 32} sound rfl unwrapped ok
  · simp only [if_neg cached] at ok unwrapped ⊢
    obtain ⟨⟨s₁,dh₁,err⟩,filling,ok⟩ := callBind ok
    have counted := readdirFillCounted sound filling
    simp only [filling] at unwrapped ⊢
    by_cases failed : err ≠ 0
    · simp only [if_pos failed] at ok
      cases ok
      have refused := counted.error.mp failed
      simp only [show ¬ err = 0 from failed,false_and,if_false,Turns.all,Option.getD_none,List.append_nil]
      exact ⟨counted.total,fun _ => rfl,fun fine => absurd refused fine⟩
    · have fine := mt counted.error.mpr failed
      rw [not_not] at failed
      simp only [failed,ne_eq,not_true_eq_false,if_false] at ok
      by_cases listing : dh₁.filled
      · rw [if_pos listing] at ok
        rw [if_pos ⟨failed,listing⟩] at unwrapped
        have same : ({dh₁ with needlen := size % 2 ^ 32} : Dh) = dh₁ := by
          rw [← counted.needlen failed]
        simp only [same] at ok
        obtain ⟨total,refuses,answers⟩ := cut dh₁ counted.sound (counted.needlen failed) unwrapped ok
        simp only [failed,listing,and_self,if_true,Turns.all,Option.getD_some,List.mem_append,fine,false_or,
          List.map_append,List.sum_append]
        refine ⟨?_,refuses,answers⟩
        have before := counted.total
        have conf := counted.conf
        simp only at before conf
        rw [total,before,conf]
        exact Nat.add_assoc ..
      · rw [if_neg listing] at ok
        cases ok
        simp only [listing,Bool.false_eq_true,and_false,if_false,Turns.all,Option.getD_none,List.append_nil]
        exact ⟨counted.total,fun refused => absurd refused fine,fun _ => counted.shown failed⟩

/- A READDIRPLUS request whose lengths do not wrap around takes as many lookups as its reply has
entries with a node exactly when every looked up entry has its place in the reply. -/
theorem readdirplusAccounting (s : Fuse) (conf : InoConf) (size : Nat) (off : Int) (dh : Dh) (user : Directory)
    (r : Fuse × Dh × Reply) (sound : Sound extra s) (unwrapped : s.readdirUnwrapped conf size off dh user = true)
    (ok : s.libReaddirplus conf size off dh user = .ok r) :
    r.1.totalLookups = s.totalLookups + r.2.2.entries ↔
      (s.readdirTurns conf size off dh user).accounted (decide (s.conf.remember ≠ 0)) := by
  obtain ⟨total,failed,answered⟩ := readdirplusTurns sound unwrapped ok
  rw [← accountedIff _ _ failed answered,total]
  omega

theorem fuseNewSound (conf : Conf) (memory : Nat → Bool) : Sound (fun _ => 0) (fuseNew conf memory) := by
  refine ⟨fuseNewSteady conf memory,fun _ _ => rfl,?_⟩
  intro p n live
  obtain ⟨_,rfl⟩ := emptyTreeCell conf memory live
  decide

def rootHandle : Dh := ⟨[],[],0,0,0,false,0,rootId⟩

def twoFiles : Directory :=
  ⟨0,[⟨ascii "a",some ⟨5,0x8000⟩,1,2,false⟩,⟨ascii "b",some ⟨6,0x8000⟩,2,2,false⟩],0⟩

theorem twoFilesAccounted : ∃ r,
    (fuseNew ⟨0,false,false⟩ fun _ => true).libReaddirplus ⟨false,false⟩ 320 0 rootHandle twoFiles = .ok r ∧
    (r.1.totalLookups = (fuseNew ⟨0,false,false⟩ fun _ => true).totalLookups + r.2.2.entries ↔
      ((fuseNew ⟨0,false,false⟩ fun _ => true).readdirTurns ⟨false,false⟩ 320 0 rootHandle twoFiles).accounted
        (decide ((0 : Int) ≠ 0)) = true) := by
  have returns : ((fuseNew ⟨0,false,false⟩ fun _ => true).libReaddirplus ⟨false,false⟩ 320 0
      rootHandle twoFiles).toOption.isSome := by
    decide +kernel
  cases result : (fuseNew ⟨0,false,false⟩ fun _ => true).libReaddirplus ⟨false,false⟩ 320 0 rootHandle twoFiles with
  | error fault =>
    rw [result] at returns
    cases returns
  | ok r =>
    exact ⟨r,rfl,readdirplusAccounting _ _ 320 0 rootHandle twoFiles r (fuseNewSound _ _) (by decide +kernel)
      result⟩

/- Only the first of the two files fits into the reply, but both are looked up. -/
theorem secondFileLooked : ∃ r,
    (fuseNew ⟨0,false,false⟩ fun _ => true).libReaddirplus ⟨false,false⟩ 160 0 rootHandle twoFiles = .ok r ∧
    r.1.totalLookups = (fuseNew ⟨0,false,false⟩ fun _ => true).totalLookups + 2 ∧ r.2.2.entries = 1 := by
  have looked :
    (match (fuseNew ⟨0,false,false⟩ fun _ => true).libReaddirplus ⟨false,false⟩ 160 0 rootHandle twoFiles with
      | .ok r => r.1.totalLookups == (fuseNew ⟨0,false,false⟩ fun _ => true).totalLookups + 2 && r.2.2.entries == 1
      | .error _ => false) = true := by
    decide +kernel
  cases result : (fuseNew ⟨0,false,false⟩ fun _ => true).libReaddirplus ⟨false,false⟩ 160 0 rootHandle twoFiles with
  | error fault =>
    rw [result] at looked
    cases looked
  | ok r =>
    simp only [result,Bool.and_eq_true,beq_iff_eq] at looked
    exact ⟨r,rfl,looked⟩

end FuseStudy.NodeStore
