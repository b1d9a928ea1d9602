import FuseStudy.WorkerPool
import Mathlib.Data.List.Nodup
import Mathlib.Data.List.Count

/-! What holds of the worker pool in every reachable state: its counters before mt->exit is set, and who
releases each worker. -/
namespace FuseStudy.WorkerRuns
open WorkerPool

def busy (p : Pool) : Nat := p.listed.countP fun w => (p.workers w).pc == .processing false

def busyPc (pc : WorkerPc) : Nat := if pc == .processing false then 1 else 0

def releasers (p : Pool) (w : Nat) : List Releaser := p.released.filterMap fun r => if r.1 = w then some r.2 else none

/- Where a worker is: in the list, out of it by itself and then over, or taken out of it by the main thread. -/
inductive Fate (p : Pool) (w : Nat) : Prop
  | listed (inside : w ∈ p.listed) (own : (p.workers w).pc ≠ .unlinked ∧ (p.workers w).pc ≠ .gone)
      (none : releasers p w = [])
  | unlinked (pc : (p.workers w).pc = .unlinked) (out : w ∉ p.listed) (none : releasers p w = [])
  | itself (pc : (p.workers w).pc = .gone) (out : w ∉ p.listed) (one : releasers p w = [.itself])
  | joining (main : p.main = .freeing w) (pc : (p.workers w).pc = .ended) (out : w ∉ p.listed)
      (none : releasers p w = [])
  | joined (pc : (p.workers w).pc = .ended) (out : w ∉ p.listed) (one : releasers p w = [.main])

structure Placed (p : Pool) : Prop where
  nodup : p.listed.Nodup
  old : ∀ w ∈ p.listed, w < p.next
  fates : ∀ w < p.next, Fate p w
  unborn : ∀ w, p.next ≤ w → releasers p w = []
  freeing : ∀ w, p.main = .freeing w → w < p.next ∧ (p.workers w).pc = .ended ∧ w ∉ p.listed ∧ releasers p w = []

/- The counters, when `owed` has still to be given back to numavail. -/
structure Counted (c : Config) (p : Pool) (owed : Int) : Prop where
  numworker : p.numworker = p.listed.length
  numavail : p.numavail + owed = p.listed.length - busy p
  most : (p.listed.length : Int) ≤ c.maxThreads

/- What only the fields counted in `Placed` say stays true when the others change. -/
structure Alike (p q : Pool) : Prop where
  listed : q.listed = p.listed
  pcs : ∀ w, (q.workers w).pc = (p.workers w).pc
  next : q.next = p.next
  released : q.released = p.released
  freeing : ∀ w, q.main = .freeing w ↔ p.main = .freeing w

theorem Alike.releasers {p q : Pool} (same : Alike p q) (w : Nat) : releasers q w = releasers p w := by
  rw [WorkerRuns.releasers,same.released]
  rfl

theorem Fate.frame {p q : Pool} {w : Nat} (fate : Fate p w) (pc : (q.workers w).pc = (p.workers w).pc)
    (listed : w ∈ q.listed ↔ w ∈ p.listed) (entries : WorkerRuns.releasers q w = WorkerRuns.releasers p w)
    (main : p.main = .freeing w → q.main = .freeing w) : Fate q w := by
  cases fate with
  | listed inside own none => exact .listed (listed.mpr inside) (pc ▸ own) (entries.trans none)
  | unlinked at' out none => exact .unlinked (pc.trans at') (mt listed.mp out) (entries.trans none)
  | itself at' out one => exact .itself (pc.trans at') (mt listed.mp out) (entries.trans one)
  | joining freeing at' out none => exact .joining (main freeing) (pc.trans at') (mt listed.mp out) (entries.trans none)
  | joined at' out one => exact .joined (pc.trans at') (mt listed.mp out) (entries.trans one)

theorem Fate.inList {p : Pool} {w : Nat} (fate : Fate p w) (inside : w ∈ p.listed) : WorkerRuns.releasers p w = [] := by
  cases fate with
  | listed _ _ none => exact none
  | unlinked _ out _ => exact absurd inside out
  | itself _ out _ => exact absurd inside out
  | joining _ _ out _ => exact absurd inside out
  | joined _ out _ => exact absurd inside out

theorem Placed.alike {p q : Pool} (placed : Placed p) (same : Alike p q) : Placed q := by
  refine ⟨same.listed ▸ placed.nodup,?_,?_,?_,?_⟩
  · intro w inside
    rw [same.next]
    exact placed.old w (same.listed ▸ inside)
  · intro w born
    exact (placed.fates w (same.next ▸ born)).frame (same.pcs w) (by rw [same.listed]) (same.releasers w)
      (same.freeing w).mpr
  · intro w unborn
    rw [same.releasers w]
    exact placed.unborn w (same.next ▸ unborn)
  · intro w main
    obtain ⟨born,pc,out,none⟩ := placed.freeing w ((same.freeing w).mp main)
    rw [same.next,same.pcs w,same.listed,same.releasers w]
    exact ⟨born,pc,out,none⟩

theorem moveSame {p : Pool} {w : Nat} {pc : WorkerPc} : ((p.move w pc).workers w).pc = pc := by simp [Pool.move]

theorem moveOther {p : Pool} {w v : Nat} {pc : WorkerPc} (other : v ≠ w) : (p.move w pc).workers v = p.workers v :=
  Function.update_of_ne other _ _

theorem Placed.move {p : Pool} {w : Nat} {pc : WorkerPc} (placed : Placed p) (inside : w ∈ p.listed)
    (own : pc ≠ .unlinked ∧ pc ≠ .gone) : Placed (p.move w pc) := by
  have born := placed.old w inside
  refine ⟨placed.nodup,placed.old,?_,placed.unborn,?_⟩
  · intro v below
    by_cases same : v = w
    · subst v
      exact .listed inside (by rw [moveSame]; exact own) ((placed.fates w born).inList inside)
    · exact (placed.fates v below).frame (by rw [moveOther same]) Iff.rfl rfl id
  · intro v main
    obtain ⟨below,ended,out,none⟩ := placed.freeing v main
    have other : v ≠ w := fun same => out (same ▸ inside)
    exact ⟨below,by rw [moveOther other]; exact ended,out,none⟩

theorem Placed.running {p : Pool} {w : Nat} (placed : Placed p) (born : w < p.next)
    (runs : (p.workers w).pc ≠ .unlinked ∧ (p.workers w).pc ≠ .gone ∧ (p.workers w).pc ≠ .ended) : w ∈ p.listed := by
  cases placed.fates w born with
  | listed inside _ _ => exact inside
  | unlinked pc _ _ => exact absurd pc runs.1
  | itself pc _ _ => exact absurd pc runs.2.1
  | joining _ pc _ _ => exact absurd pc runs.2.2
  | joined pc _ _ => exact absurd pc runs.2.2

theorem busyApart {p : Pool} {w : Nat} (inside : w ∈ p.listed) :
    busy p = (p.listed.erase w).countP (fun v => (p.workers v).pc == .processing false) + busyPc (p.workers w).pc := by
  rw [busy,(List.perm_cons_erase inside).countP_eq,List.countP_cons]
  rfl

theorem busyOthers {p q : Pool} {w : Nat} (nodup : p.listed.Nodup)
    (others : ∀ v, v ≠ w → (q.workers v).pc = (p.workers v).pc) :
    (p.listed.erase w).countP (fun v => (q.workers v).pc == .processing false) =
      (p.listed.erase w).countP fun v => (p.workers v).pc == .processing false := by
  apply List.countP_congr
  intro v inside
  rw [others v (nodup.mem_erase_iff.mp inside).1]

theorem busyMove {p : Pool} {w : Nat} {pc : WorkerPc} (nodup : p.listed.Nodup) (inside : w ∈ p.listed) :
    busy (p.move w pc) + busyPc (p.workers w).pc = busy p + busyPc pc := by
  have others : ∀ v, v ≠ w → ((p.move w pc).workers v).pc = (p.workers v).pc := fun v other => by rw [moveOther other]
  have after : busy (p.move w pc) =
      (p.listed.erase w).countP (fun v => ((p.move w pc).workers v).pc == .processing false) + busyPc pc := by
    have apart : busy (p.move w pc) = _ := busyApart inside
    rwa [moveSame] at apart
  rw [after,busyOthers nodup others,busyApart inside]
  omega

theorem Counted.move {c : Config} {p : Pool} {w : Nat} {pc : WorkerPc} {owed : Int}
    (counted : Counted c p owed) (nodup : p.listed.Nodup) (inside : w ∈ p.listed) :
    Counted c (p.move w pc) (owed + busyPc (p.workers w).pc - busyPc pc) := by
  have moved : busy (p.move w pc) + busyPc (p.workers w).pc = busy p + busyPc pc := busyMove nodup inside
  have before := counted.numavail
  refine ⟨counted.numworker,?_,counted.most⟩
  show p.numavail + _ = (p.listed.length : Int) - busy (p.move w pc)
  omega

inductive Started (p : Pool) : Pool × Bool → Prop
  | failed {q} (alike : Alike p q) (numworker : q.numworker = p.numworker) (numavail : q.numavail = p.numavail)
      (exit : q.exit = p.exit) (main : q.main = p.main) : Started p (q,false)
  | born {q} (listed : q.listed = p.listed ++ [p.next]) (next : q.next = p.next + 1)
      (top : (q.workers p.next).pc = .top)
      (others : ∀ w, w ≠ p.next → q.workers w = p.workers w) (released : q.released = p.released)
      (numworker : q.numworker = p.numworker + 1) (numavail : q.numavail = p.numavail + 1)
      (exit : q.exit = p.exit) (main : q.main = p.main) : Started p (q,true)

theorem started (p : Pool) (e : Start) : Started p (fuseLoopStartThread p e) := by
  unfold fuseLoopStartThread
  split
  · dsimp only
    split
    · refine .born rfl rfl ?_ (fun w other => ?_) rfl rfl rfl rfl rfl
      · simp [cloneChan]
      · exact Function.update_of_ne other _ _
    · exact .failed ⟨rfl,fun _ => rfl,rfl,rfl,fun _ => Iff.rfl⟩ rfl rfl rfl rfl
  · exact .failed ⟨rfl,fun _ => rfl,rfl,rfl,fun _ => Iff.rfl⟩ rfl rfl rfl rfl

theorem Started.placed {p q : Pool} {ok : Bool} (step : Started p (q,ok)) (placed : Placed p) : Placed q := by
  cases step with
  | failed alike => exact placed.alike alike
  | born listed next top others released numworker numavail exit main =>
    have fresh : p.next ∉ p.listed := fun inside => Nat.lt_irrefl _ (placed.old _ inside)
    have entries (w : Nat) : releasers q w = releasers p w := by
      rw [releasers,released]
      rfl
    have listedIff {w : Nat} (older : w ≠ p.next) : w ∈ q.listed ↔ w ∈ p.listed := by
      rw [listed,List.mem_append,List.mem_singleton]
      exact or_iff_left older
    refine ⟨?_,?_,?_,?_,?_⟩
    · rw [listed]
      exact List.nodup_append.mpr ⟨placed.nodup,List.nodup_singleton _,fun w inside v new same =>
        fresh (List.mem_singleton.mp new ▸ same ▸ inside)⟩
    · intro w inside
      rw [next]
      rw [listed] at inside
      rcases List.mem_append.mp inside with before | new
      · exact Nat.lt_succ_of_lt (placed.old w before)
      · rw [List.mem_singleton.mp new]
        exact Nat.lt_succ_self _
    · intro w below
      rw [next] at below
      by_cases same : w = p.next
      · subst w
        refine .listed (by rw [listed]; exact List.mem_append_right _ List.mem_cons_self) (by rw [top]; decide) ?_
        rw [entries]
        exact placed.unborn _ (Nat.le_refl _)
      · have older : w < p.next := Nat.lt_of_le_of_ne (Nat.le_of_lt_succ below) same
        exact (placed.fates w older).frame (by rw [others w same]) (listedIff same) (entries w) main.trans
    · intro w unborn
      rw [entries]
      exact placed.unborn w (by omega)
    · intro w freeing
      obtain ⟨below,ended,before,none⟩ := placed.freeing w (main ▸ freeing)
      have same : w ≠ p.next := Nat.ne_of_lt below
      exact ⟨by omega,by rw [others w same]; exact ended,mt (listedIff same).mp before,(entries w).trans none⟩

theorem Started.busy {p q : Pool} {ok : Bool} (step : Started p (q,ok)) (placed : Placed p) : busy q = busy p := by
  cases step with
  | failed alike =>
    rw [WorkerRuns.busy,alike.listed]
    exact List.countP_congr fun w _ => by rw [alike.pcs w]
  | born listed next top others released numworker numavail exit main =>
    have fresh {w : Nat} (inside : w ∈ p.listed) : w ≠ p.next := fun same =>
      Nat.lt_irrefl p.next (placed.old p.next (same ▸ inside))
    have kept : p.listed.countP (fun w => (q.workers w).pc == .processing false) = WorkerRuns.busy p :=
      List.countP_congr fun w inside => by rw [others w (fresh inside)]
    rw [WorkerRuns.busy,listed,List.countP_append,kept,List.countP_singleton,top]
    rfl

theorem Started.counted {c : Config} {p q : Pool} {ok : Bool} {owed : Int} (step : Started p (q,ok)) (placed : Placed p)
    (counted : Counted c p owed) (room : p.numworker < c.maxThreads) : Counted c q owed := by
  have same := step.busy placed
  obtain ⟨work,avail,most⟩ := counted
  cases step with
  | failed alike numworker numavail =>
      exact ⟨by rw [numworker,alike.listed]; exact work,by rw [numavail,same,alike.listed]; exact avail,
        alike.listed ▸ most⟩
  | born listed next top others released numworker numavail exit main =>
    have longer : q.listed.length = p.listed.length + 1 := by rw [listed,List.length_append]; rfl
    exact ⟨by omega,by omega,by omega⟩

theorem releasersMore {p : Pool} {w v : Nat} {by' : Releaser} {l : List (Nat × Releaser)}
    (released : l = p.released ++ [(w,by')]) :
    l.filterMap (fun r => if r.1 = v then some r.2 else none) = releasers p v ++ if w = v then [by'] else [] := by
  rw [released,List.filterMap_append]
  by_cases same : w = v
  · simp [releasers,same]
  · simp [releasers,same]

theorem Placed.unlink {p q : Pool} {w : Nat} (placed : Placed p) (inside : w ∈ p.listed)
    (listed : q.listed = p.listed.erase w) (mine : (q.workers w).pc = .unlinked)
    (others : ∀ v, v ≠ w → q.workers v = p.workers v) (next : q.next = p.next)
    (released : q.released = p.released) (main : q.main = p.main) : Placed q := by
  have entries (v : Nat) : releasers q v = releasers p v := by
    rw [releasers,released]
    rfl
  have gone : w ∉ q.listed := by
    rw [listed]
    exact fun still => (placed.nodup.mem_erase_iff.mp still).1 rfl
  have listedIff {v : Nat} (other : v ≠ w) : v ∈ q.listed ↔ v ∈ p.listed := by
    rw [listed]
    exact List.mem_erase_of_ne other
  refine ⟨by rw [listed]; exact placed.nodup.erase w,?_,?_,?_,?_⟩
  · intro v still
    rw [next]
    rw [listed] at still
    exact placed.old v (List.mem_of_mem_erase still)
  · intro v below
    rw [next] at below
    by_cases same : v = w
    · subst v
      exact .unlinked mine gone ((entries w).trans ((placed.fates w below).inList inside))
    · exact (placed.fates v below).frame (by rw [others v same]) (listedIff same) (entries v) main.trans
  · intro v unborn
    rw [entries]
    exact placed.unborn v (next ▸ unborn)
  · intro v freeing
    obtain ⟨below,ended,before,none⟩ := placed.freeing v (main ▸ freeing)
    have same : v ≠ w := fun same => before (same ▸ inside)
    exact ⟨next ▸ below,by rw [others v same]; exact ended,mt (listedIff same).mp before,(entries v).trans none⟩

theorem Placed.freed {p : Pool} {w : Nat} (placed : Placed p) (born : w < p.next) (pc : (p.workers w).pc = .unlinked) :
    Placed ({p with released := p.released ++ [(w,Releaser.itself)]}.move w .gone) := by
  have entries (v : Nat) := releasersMore (p := p) (v := v) (w := w) (l := p.released ++ [(w,Releaser.itself)]) rfl
  have theirs {v : Nat} (other : v ≠ w) :
    releasers ({p with released := p.released ++ [(w,Releaser.itself)]}.move w .gone) v =
      releasers p v := by
    refine (entries v).trans ?_
    rw [if_neg (Ne.symm other),List.append_nil]
  have kept {v : Nat} (other : v ≠ w) :
    (({p with released := p.released ++ [(w,Releaser.itself)]} : Pool).move w .gone).workers v =
      p.workers v := Function.update_of_ne other _ _
  refine ⟨placed.nodup,placed.old,?_,?_,?_⟩
  · intro v below
    by_cases same : v = w
    · subst v
      cases placed.fates w below with
      | unlinked _ out none =>
        refine .itself moveSame out ((entries w).trans ?_)
        rw [none,if_pos rfl]
        rfl
      | listed _ own _ => exact absurd pc own.1
      | itself other _ _ => exact absurd (pc.symm.trans other) (by decide)
      | joining _ other _ _ => exact absurd (pc.symm.trans other) (by decide)
      | joined other _ _ => exact absurd (pc.symm.trans other) (by decide)
    · exact (placed.fates v below).frame (by rw [kept same]) Iff.rfl (theirs same) id
  · intro v unborn
    have other : v ≠ w := Nat.ne_of_gt (Nat.lt_of_lt_of_le born unborn)
    exact (theirs other).trans (placed.unborn v unborn)
  · intro v main
    obtain ⟨below,ended,out,none⟩ := placed.freeing v main
    have other : v ≠ w := fun same => absurd (pc.symm.trans (same ▸ ended)) (by decide)
    exact ⟨below,by rw [kept other]; exact ended,out,(theirs other).trans none⟩

theorem Placed.join {p : Pool} {w : Nat} {rest : List Nat} (placed : Placed p) (listed : p.listed = w :: rest)
    (pc : (p.workers w).pc = .ended) (idle : ∀ v, p.main ≠ .freeing v) :
    Placed {p with listed := rest, main := .freeing w} := by
  have inside : w ∈ p.listed := listed ▸ List.mem_cons_self
  have nodup := listed ▸ placed.nodup
  have gone : w ∉ rest := (List.nodup_cons.mp nodup).1
  have none := (placed.fates w (placed.old w inside)).inList inside
  have before {v : Nat} (later : v ∈ rest) : v ∈ p.listed := listed ▸ List.mem_cons_of_mem w later
  refine ⟨(List.nodup_cons.mp nodup).2,fun v later => placed.old v (before later),?_,placed.unborn,?_⟩
  · intro v below
    by_cases same : v = w
    · subst v
      exact .joining rfl pc gone none
    · have listedIff : v ∈ rest ↔ v ∈ p.listed := by
        rw [listed,List.mem_cons]
        exact (or_iff_right same).symm
      exact (placed.fates v below).frame rfl listedIff rfl fun main => absurd main (idle v)
  · intro v main
    cases main
    exact ⟨placed.old w inside,pc,gone,none⟩

theorem Placed.joined {p : Pool} {w : Nat} (placed : Placed p) (main : p.main = .freeing w) :
    Placed {p with released := p.released ++ [(w,Releaser.main)], main := .joining} := by
  obtain ⟨born,ended,gone,none⟩ := placed.freeing w main
  have entries (v : Nat) := releasersMore (p := p) (v := v) (w := w) (l := p.released ++ [(w,Releaser.main)]) rfl
  have theirs {v : Nat} (other : v ≠ w) :
    releasers {p with released := p.released ++ [(w,Releaser.main)], main := .joining} v =
      releasers p v := by
    refine (entries v).trans ?_
    rw [if_neg (Ne.symm other),List.append_nil]
  refine ⟨placed.nodup,placed.old,?_,?_,?_⟩
  · intro v below
    by_cases same : v = w
    · subst v
      refine .joined ended gone ((entries w).trans ?_)
      rw [none,if_pos rfl]
      rfl
    · refine (placed.fates v below).frame rfl Iff.rfl (theirs same) fun freeing => ?_
      rw [main] at freeing
      cases freeing
      exact absurd rfl same
  · intro v unborn
    have other : v ≠ w := Nat.ne_of_gt (Nat.lt_of_lt_of_le born unborn)
    exact (theirs other).trans (placed.unborn v unborn)
  · intro v freeing
    cases freeing

structure Sound (c : Config) (p : Pool) : Prop where
  placed : Placed p
  counted : p.exit = false → Counted c p 0
  least : p.exit = false → 0 < p.next → p.listed ≠ []
  starting : p.main = .starting → p.next = 0 ∧ p.exit = false
  waiting : p.main = .waiting → p.exit = false ∧ 0 < p.next
  joining : p.main = .joining → p.exit = true
  freeing : ∀ w, p.main = .freeing w → p.exit = true
  returned : p.main = .returned → p.listed = []

theorem Sound.keep {c : Config} {p q : Pool} (sound : Sound c p) (placed : Placed q) (main : q.main = p.main)
    (exit : q.exit = p.exit) (counted : q.exit = false → Counted c q 0)
    (some : q.exit = false → q.listed ≠ []) (next : 0 < p.next) (more : p.next ≤ q.next)
    (returned : q.main = .returned → q.listed = []) : Sound c q := by
  refine ⟨placed,counted,fun running _ => some running,?_,?_,?_,?_,returned⟩
  · intro starting
    exact absurd (sound.starting (main ▸ starting)).1 (Nat.ne_of_gt next)
  · intro waiting
    exact ⟨exit.trans (sound.waiting (main ▸ waiting)).1,Nat.lt_of_lt_of_le next more⟩
  · intro joining
    exact exit.trans (sound.joining (main ▸ joining))
  · intro w freeing
    exact exit.trans (sound.freeing w (main ▸ freeing))

theorem busyAlike {p q : Pool} (alike : Alike p q) : busy q = busy p := by
  rw [busy,alike.listed]
  exact List.countP_congr fun w _ => by rw [alike.pcs w]

theorem Sound.alike {c : Config} {p q : Pool} (sound : Sound c p) (alike : Alike p q)
    (numworker : q.numworker = p.numworker) (numavail : q.numavail = p.numavail) (exit : q.exit = p.exit)
    (main : q.main = p.main) : Sound c q := by
  refine ⟨sound.placed.alike alike,?_,?_,?_,?_,?_,?_,?_⟩
  · intro running
    obtain ⟨work,avail,most⟩ := sound.counted (exit ▸ running)
    exact ⟨by rw [numworker,alike.listed]; exact work,
      by rw [numavail,busyAlike alike,alike.listed]; exact avail,alike.listed ▸ most⟩
  · rw [exit,alike.next,alike.listed]
    exact sound.least
  · rw [main,exit,alike.next]
    exact sound.starting
  · rw [main,exit,alike.next]
    exact sound.waiting
  · rw [main,exit]
    exact sound.joining
  · rw [main,exit]
    exact sound.freeing
  · rw [main,alike.listed]
    exact sound.returned

theorem Sound.calm {c : Config} {p : Pool} {w : Nat} {pc : WorkerPc} (sound : Sound c p) (inside : w ∈ p.listed)
    (own : pc ≠ .unlinked ∧ pc ≠ .gone) (calm : busyPc (p.workers w).pc = busyPc pc) : Sound c (p.move w pc) := by
  have born := sound.placed.old w inside
  refine sound.keep (sound.placed.move inside own) rfl rfl ?_ ?_ (by omega) (Nat.le_refl _) sound.returned
  · intro running
    have moved : Counted c (p.move w pc) (0 + busyPc (p.workers w).pc - busyPc pc) :=
      (sound.counted running).move sound.placed.nodup inside
    rwa [calm,Int.zero_add,Int.sub_self] at moved
  · intro _ empty
    have inside' : w ∈ (p.move w pc).listed := inside
    rw [empty] at inside'
    cases inside'

theorem Sound.idle {c : Config} {p : Pool} (sound : Sound c p) {w : Nat} (inside : w ∈ p.listed) :
    p.main ≠ .returned := by
  intro returned
  rw [sound.returned returned] at inside
  cases inside

theorem countAlike {p : Pool} {isforget : Bool} {change : Int} : Alike p (countMessage p isforget change) :=
  ⟨rfl,fun _ => rfl,rfl,rfl,fun _ => Iff.rfl⟩

/- What a message owes to numavail: nothing when it is a forget. -/
theorem Counted.message {c : Config} {p : Pool} {isforget : Bool} {owed change : Int} (counted : Counted c p owed) :
    Counted c (countMessage p isforget change) (owed - if isforget then 0 else change) := by
  refine ⟨counted.numworker,?_,counted.most⟩
  have before := counted.numavail
  have same : busy (countMessage p isforget change) = busy p := rfl
  rw [same]
  cases isforget with
  | true =>
    show p.numavail + (owed - 0) = (p.listed.length : Int) - busy p
    omega
  | false =>
    show p.numavail + change + (owed - change) = (p.listed.length : Int) - busy p
    omega

structure Roomed (c : Config) (p q : Pool) (owed : Int) (w : Nat) : Prop where
  placed : Placed q
  counted : Counted c q owed
  exit : q.exit = p.exit
  main : q.main = p.main
  next : p.next ≤ q.next
  inside : w ∈ q.listed
  pc : (q.workers w).pc = (p.workers w).pc

theorem roomed {c : Config} {p : Pool} {owed : Int} {w : Nat} (placed : Placed p) (counted : Counted c p owed)
    (inside : w ∈ p.listed) (e : Start) : Roomed c p (makeRoom c p e) owed w := by
  unfold makeRoom
  split
  · rename_i room
    have step := started p e
    generalize fuseLoopStartThread p e = result at step
    obtain ⟨q,ok⟩ := result
    have counted' := step.counted placed counted room.2
    have placed' := step.placed placed
    cases step with
    | failed alike _ _ exit main =>
        exact ⟨placed',counted',exit,main,Nat.le_of_eq alike.next.symm,alike.listed ▸ inside,alike.pcs w⟩
    | born listed next top others released _ _ exit main =>
      have older : w ≠ p.next := Nat.ne_of_lt (placed.old w inside)
      exact ⟨placed',counted',exit,main,by show p.next ≤ q.next; omega,
        by rw [listed]; exact List.mem_append_left _ inside,by rw [others w older]⟩
  · exact ⟨placed,counted,rfl,rfl,Nat.le_refl _,inside,rfl⟩

theorem inListed {l : List Nat} {w : Nat} (inside : w ∈ l) : l ≠ [] := by
  rintro rfl
  cases inside

theorem Sound.take {c : Config} {p : Pool} {w : Nat} {isforget : Bool} (sound : Sound c p) (e : Start)
    (pc : (p.workers w).pc = .received isforget) (inside : w ∈ p.listed) : Sound c (takeMessage c p w isforget e) := by
  have born := sound.placed.old w inside
  unfold takeMessage
  split
  · exact sound.calm inside (by decide) (by rw [pc]; rfl)
  · rename_i running
    have counted : Counted c (countMessage p isforget (-1)) (0 - if isforget then 0 else -1) :=
      (sound.counted (Bool.eq_false_iff.mpr running)).message
    have made := roomed (sound.placed.alike countAlike) counted inside e
    refine sound.keep (made.placed.move made.inside (by cases isforget <;> decide)) made.main made.exit ?_
      ?_ (by omega) made.next ?_
    · intro _
      have moved : Counted c (Pool.move _ w (.processing isforget)) _ := made.counted.move made.placed.nodup made.inside
      rw [made.pc] at moved
      have settled : (0 - if isforget then 0 else -1) + (busyPc ((countMessage p isforget (-1)).workers w).pc : Int) -
          busyPc (.processing isforget) = 0 := by
        show (0 - if isforget then 0 else -1) + (busyPc (p.workers w).pc : Int) - busyPc (.processing isforget) = 0
        rw [pc]
        cases isforget <;> rfl
      rwa [settled] at moved
    · exact fun _ => inListed made.inside
    · intro returned
      exact absurd (made.main.symm.trans returned) (sound.idle inside)

theorem Sound.done {c : Config} {p : Pool} {w : Nat} {isforget : Bool} (sound : Sound c p)
    (pc : (p.workers w).pc = .processing isforget) (inside : w ∈ p.listed) : Sound c (messageDone c p w isforget) := by
  have born := sound.placed.old w inside
  have placed : Placed (countMessage p isforget 1) := sound.placed.alike countAlike
  have returned : (countMessage p isforget 1).main = .returned → (countMessage p isforget 1).listed = [] :=
    sound.returned
  have settled : (0 - if isforget then 0 else 1) + (busyPc (p.workers w).pc : Int) = 0 := by
    rw [pc]
    cases isforget <;> rfl
  -- The worker is no longer counted as busy wherever it goes.
  have counted (running : p.exit = false) {place : WorkerPc} (idle : busyPc place = 0) :
      Counted c ((countMessage p isforget 1).move w place) 0 := by
    have told : Counted c (countMessage p isforget 1) (0 - if isforget then 0 else 1) := (sound.counted running).message
    have moved : Counted c ((countMessage p isforget 1).move w place) _ := told.move sound.placed.nodup inside
    have kept : (0 - if isforget then 0 else 1) + (busyPc ((countMessage p isforget 1).workers w).pc : Int)
        - busyPc place = 0 := by
      rw [idle,Int.natCast_zero,Int.sub_zero]
      exact settled
    rwa [kept] at moved
  unfold messageDone
  dsimp only
  split
  · rename_i enough
    split
    · exact sound.keep (placed.move inside (by decide)) rfl rfl (fun running => counted running rfl)
        (fun _ => inListed inside)
        (by omega) (Nat.le_refl _) returned
    · rename_i running
      have open' : p.exit = false := Bool.eq_false_iff.mpr running
      have left : Counted c ((countMessage p isforget 1).move w .unlinked) 0 := counted open' rfl
      have mine : (((countMessage p isforget 1).move w .unlinked).workers w).pc = .unlinked := moveSame
      have apart : busy ((countMessage p isforget 1).move w .unlinked) =
          (p.listed.erase w).countP
            (fun v => (((countMessage p isforget 1).move w .unlinked).workers v).pc == .processing false) +
            busyPc (((countMessage p isforget 1).move w .unlinked).workers w).pc := busyApart inside
      rw [mine] at apart
      have shorter := List.length_erase_of_mem inside
      have many := left.numworker
      have more : 1 < p.numworker := enough.2.2
      have long : 1 < p.listed.length := by
        have same := (sound.counted open').numworker
        omega
      refine sound.keep (placed.unlink inside rfl moveSame (fun v other => moveOther other) rfl rfl rfl)
        rfl rfl ?_ ?_ (by omega) (Nat.le_refl _) ?_
      · intro _
        refine ⟨?_,?_,?_⟩
        · show (countMessage p isforget 1).numworker - 1 = ((p.listed.erase w).length : Int)
          have work : (countMessage p isforget 1).numworker = (p.listed.length : Int) := left.numworker
          omega
        · have avail : (countMessage p isforget 1).numavail + 0 = (p.listed.length : Int) - busy
              ((countMessage p isforget 1).move w .unlinked) :=
            left.numavail
          show (countMessage p isforget 1).numavail - 1 + 0 = ((p.listed.erase w).length : Int) -
            ((p.listed.erase w).countP fun v =>
              (((countMessage p isforget 1).move w .unlinked).workers v).pc == .processing false : Nat)
          have none : busyPc WorkerPc.unlinked = 0 := rfl
          omega
        · show ((p.listed.erase w).length : Int) ≤ c.maxThreads
          have most : (p.listed.length : Int) ≤ c.maxThreads := left.most
          omega
      · intro _ empty
        have zero : (p.listed.erase w).length = 0 := by
          have nothing : p.listed.erase w = [] := empty
          rw [nothing]
          rfl
        omega
      · intro main
        exact absurd main (sound.idle inside)
  · exact sound.keep (placed.move inside (by decide)) rfl rfl (fun running => counted running rfl)
      (fun _ => inListed inside)
      (by omega) (Nat.le_refl _) returned

theorem Sound.begin {c : Config} {p q : Pool} {ok : Bool} (sound : Sound c p) (room : 1 ≤ c.maxThreads)
    (main : p.main = .starting) (step : Started p (q,ok)) :
    Sound c {q with main := if ok then .waiting else .returned} := by
  obtain ⟨none,running⟩ := sound.starting main
  have empty : p.listed = [] := List.eq_nil_iff_forall_not_mem.mpr fun w inside => by
    have below := sound.placed.old w inside
    omega
  have work : p.numworker = 0 := by
    rw [(sound.counted running).numworker,empty]
    rfl
  have placed := step.placed sound.placed
  have counted := step.counted sound.placed (sound.counted running) (by omega)
  have same : q.main = .starting := by cases step with
    | failed _ _ _ _ kept => exact kept.trans main
    | born _ _ _ _ _ _ _ _ kept => exact kept.trans main
  cases step with
  | failed before _ _ exit _ =>
    have alike : Alike q {q with main := .returned} := ⟨rfl,fun _ => rfl,rfl,rfl,fun w => by rw [same]; exact
      ⟨fun freeing => (by cases freeing),fun freeing => (by cases freeing)⟩⟩
    have nobody : q.next = 0 := before.next.trans none
    refine ⟨placed.alike alike,fun _ => ⟨counted.numworker,counted.numavail,counted.most⟩,?_,?_,?_,?_,?_,?_⟩
    · exact fun _ (some : 0 < q.next) => absurd some (by omega)
    · exact fun other => (by cases other)
    · exact fun other => (by cases other)
    · exact fun other => (by cases other)
    · exact fun w other => (by cases other)
    · exact fun _ => before.listed.trans empty
  | born listed next _ _ _ _ _ exit _ =>
    have alike : Alike q {q with main := .waiting} := ⟨rfl,fun _ => rfl,rfl,rfl,fun w => by rw [same]; exact
      ⟨fun freeing => (by cases freeing),fun freeing => (by cases freeing)⟩⟩
    refine ⟨placed.alike alike,fun _ => ⟨counted.numworker,counted.numavail,counted.most⟩,?_,?_,?_,?_,?_,?_⟩
    · intro _ _ (nobody : q.listed = [])
      rw [listed] at nobody
      simp at nobody
    · exact fun other => (by cases other)
    · exact fun _ => ⟨exit.trans running,by rw [next]; exact Nat.succ_pos _⟩
    · exact fun other => (by cases other)
    · exact fun w other => (by cases other)
    · exact fun other => (by cases other)

theorem Sound.stop {c : Config} {p : Pool} (sound : Sound c p) (main : p.main = .waiting) : Sound c (stopPool p) := by
  have alike : Alike p (stopPool p) := by
    refine ⟨rfl,fun w => ?_,rfl,rfl,fun w => ?_⟩
    · show (if w ∈ p.listed then {p.workers w with cancelled := true} else p.workers w).pc = _
      split <;> rfl
    · rw [main]
      exact ⟨fun freeing => (by cases freeing),fun freeing => (by cases freeing)⟩
  refine ⟨sound.placed.alike alike,?_,?_,?_,?_,fun _ => rfl,fun _ _ => rfl,?_⟩
  · intro running
    cases running
  · intro running
    cases running
  all_goals
    intro other
    cases other

theorem Sound.join {c : Config} {p : Pool} {w : Nat} {rest : List Nat} (sound : Sound c p)
    (main : p.main = .joining) (listed : p.listed = w :: rest) (pc : (p.workers w).pc = .ended) :
    Sound c {p with listed := rest, main := .freeing w} := by
  have ended := sound.joining main
  refine ⟨sound.placed.join listed pc fun v freeing => (by rw [main] at freeing; cases freeing),?_,?_,?_,?_,
    ?_,fun _ _ => ended,?_⟩
  · intro running
    exact absurd (ended.symm.trans running) (by decide)
  · intro running
    exact absurd (ended.symm.trans running) (by decide)
  all_goals
    intro other
    cases other

theorem Sound.joined {c : Config} {p : Pool} {w : Nat} (sound : Sound c p) (main : p.main = .freeing w) :
    Sound c {p with released := p.released ++ [(w,Releaser.main)], main := .joining} := by
  have ended := sound.freeing w main
  refine ⟨sound.placed.joined main,?_,?_,?_,?_,fun _ => ended,fun _ _ => ended,?_⟩
  · intro running
    exact absurd (ended.symm.trans running) (by decide)
  · intro running
    exact absurd (ended.symm.trans running) (by decide)
  all_goals
    intro other
    cases other

theorem Sound.finish {c : Config} {p : Pool} (sound : Sound c p) (main : p.main = .joining) (empty : p.listed = []) :
    Sound c {p with main := .returned} := by
  have ended := sound.joining main
  have alike : Alike p {p with main := .returned} := ⟨rfl,fun _ => rfl,rfl,rfl,fun w => by rw [main]; exact
    ⟨fun freeing => (by cases freeing),fun freeing => (by cases freeing)⟩⟩
  refine ⟨sound.placed.alike alike,?_,?_,?_,?_,?_,?_,fun _ => empty⟩
  · intro running
    exact absurd (ended.symm.trans running) (by decide)
  · intro running
    exact absurd (ended.symm.trans running) (by decide)
  · intro other
    cases other
  · intro other
    cases other
  · intro other
    cases other
  · intro w other
    cases other

theorem Sound.free {c : Config} {p : Pool} {w : Nat} (sound : Sound c p) (born : w < p.next)
    (pc : (p.workers w).pc = .unlinked) :
    Sound c ({p with released := p.released ++ [(w,Releaser.itself)]}.move w .gone) := by
  have out : w ∉ p.listed := by
    cases sound.placed.fates w born with
    | listed _ own _ => exact absurd pc own.1
    | unlinked _ out _ => exact out
    | itself _ out _ => exact out
    | joining _ _ out _ => exact out
    | joined _ out _ => exact out
  have same : busy ({p with released := p.released ++ [(w,Releaser.itself)]}.move w .gone) = busy p :=
    List.countP_congr fun v inside => by
      have other : v ≠ w := fun same => out (same ▸ inside)
      rw [moveOther other]
  refine sound.keep (sound.placed.freed born pc) rfl rfl ?_ (fun running => sound.least running (by omega)) (by omega)
    (Nat.le_refl _) sound.returned
  intro running
  obtain ⟨work,avail,most⟩ := sound.counted running
  exact ⟨work,by rw [same]; exact avail,most⟩

theorem stepSound {c : Config} {p q : Pool} (room : 1 ≤ c.maxThreads) (sound : Sound c p) (e : Event)
    (next : p.step c e = some q) :
    Sound c q := by
  have runs {w : Nat} {pc : WorkerPc} (born : w < p.next) (at' : (p.workers w).pc = pc)
      (own : pc ≠ .unlinked ∧ pc ≠ .gone ∧ pc ≠ .ended) : w ∈ p.listed := sound.placed.running born (at' ▸ own)
  cases e with
  | begin e =>
    simp only [Pool.step] at next
    split at next
    · rename_i main
      cases next
      exact sound.begin room main (started p e)
    · cases next
  | wait interrupted =>
    simp only [Pool.step] at next
    split at next
    · cases next
      exact sound.alike ⟨rfl,fun _ => rfl,rfl,rfl,fun _ => Iff.rfl⟩ rfl rfl rfl rfl
    · cases next
  | stop =>
    simp only [Pool.step] at next
    split at next
    · rename_i main
      cases next
      exact sound.stop main.1
    · cases next
  | join =>
    simp only [Pool.step] at next
    split at next
    · rename_i w rest main listed
      split at next
      · rename_i pc
        cases next
        exact sound.join main listed pc
      · cases next
    · cases next
  | freeJoined =>
    simp only [Pool.step] at next
    split at next
    · rename_i w main
      cases next
      exact sound.joined main
    · cases next
  | finish =>
    simp only [Pool.step] at next
    split at next
    · rename_i main
      cases next
      exact sound.finish main.1 main.2
    · cases next
  | sessionExit =>
    cases next
    exact sound.alike ⟨rfl,fun _ => rfl,rfl,rfl,fun _ => Iff.rfl⟩ rfl rfl rfl rfl
  | enter w =>
    simp only [Pool.step] at next
    split at next
    · rename_i at'
      cases next
      have inside := runs at'.1 at'.2 (by decide)
      split
      · exact sound.calm inside (by decide) (by rw [at'.2]; rfl)
      · exact sound.calm inside (by decide) (by rw [at'.2]; rfl)
    · cases next
  | receive w res =>
    simp only [Pool.step] at next
    split at next
    · rename_i at'
      cases next
      have inside := runs at'.1 at'.2 (by decide)
      cases res with
      | intr => exact sound.calm inside (by decide) (by rw [at'.2]; rfl)
      | message isforget => exact sound.calm inside (by simp) (by rw [at'.2]; rfl)
      | nothing exits =>
        have quiet : Sound c {p with exited := p.exited || exits} :=
          sound.alike ⟨rfl,fun _ => rfl,rfl,rfl,fun _ => Iff.rfl⟩ rfl rfl rfl rfl
        exact quiet.calm inside (by decide) (by show busyPc (p.workers w).pc = _; rw [at'.2]; rfl)
      | failed err =>
        have quiet : Sound c {p with exited := true, error := err} :=
          sound.alike ⟨rfl,fun _ => rfl,rfl,rfl,fun _ => Iff.rfl⟩ rfl rfl rfl rfl
        exact quiet.calm inside (by decide) (by show busyPc (p.workers w).pc = _; rw [at'.2]; rfl)
    · cases next
  | cancel w =>
    simp only [Pool.step] at next
    split at next
    · rename_i at'
      cases next
      exact sound.calm (runs at'.1 at'.2.1 (by decide)) (by decide) (by rw [at'.2.1]; rfl)
    · cases next
  | take w e =>
    simp only [Pool.step] at next
    split at next
    · rename_i isforget at'
      split at next
      · rename_i born
        cases next
        exact sound.take e at' (runs born at' (by simp))
      · cases next
    · cases next
  | done w =>
    simp only [Pool.step] at next
    split at next
    · rename_i isforget at'
      split at next
      · rename_i born
        cases next
        exact sound.done at' (runs born at' (by simp))
      · cases next
    · cases next
  | post w =>
    simp only [Pool.step] at next
    split at next
    · rename_i at'
      cases next
      have inside := runs at'.1 at'.2 (by decide)
      have quiet : Sound c {p with finish := p.finish + 1} :=
        sound.alike ⟨rfl,fun _ => rfl,rfl,rfl,fun _ => Iff.rfl⟩ rfl rfl rfl rfl
      exact quiet.calm inside (by decide) (by show busyPc (p.workers w).pc = _; rw [at'.2]; rfl)
    · cases next
  | free w =>
    simp only [Pool.step] at next
    split at next
    · rename_i at'
      cases next
      exact sound.free at'.1 at'.2
    · cases next

theorem reachedSound {c : Config} {p : Pool} (room : 1 ≤ c.maxThreads) (reached : Reachable c p) : Sound c p := by
  induction reached with
  | start =>
    have nobody (w : Nat) : ¬w < (newPool c).next := Nat.not_lt_zero w
    refine ⟨⟨List.nodup_nil,fun w inside => absurd inside List.not_mem_nil,fun w below =>
      absurd below (nobody w),fun _ _ => rfl,?_⟩,
      fun _ => ⟨rfl,rfl,?_⟩,fun _ some => absurd some (nobody 0),fun _ => ⟨rfl,rfl⟩,?_,?_,?_,fun _ => rfl⟩
    · exact fun w other => (by cases other)
    · show (0 : Int) ≤ c.maxThreads
      omega
    · exact fun other => (by cases other)
    · exact fun other => (by cases other)
    · exact fun w other => (by cases other)
  | step before e next ih => exact stepSound room ih e next

theorem Placed.unreleased {p : Pool} {w : Nat} (placed : Placed p) (born : w < p.next)
    (pc : (p.workers w).pc = .unlinked) :
    releasers p w = [] := by
  cases placed.fates w born with
  | listed _ _ none => exact none
  | unlinked _ _ none => exact none
  | itself other _ _ => exact absurd (pc.symm.trans other) (by decide)
  | joining _ other _ _ => exact absurd (pc.symm.trans other) (by decide)
  | joined other _ _ => exact absurd (pc.symm.trans other) (by decide)

theorem Fate.released {p : Pool} {w : Nat} (fate : Fate p w) : (releasers p w).length ≤ 1 ∧
    (w ∉ p.listed → (p.workers w).pc ≠ .unlinked → p.main ≠ .freeing w → (releasers p w).length = 1) ∧
    (releasers p w = [.itself] → (p.workers w).pc = .gone) := by
  cases fate with
  | listed inside _ none =>
    rw [none]
    exact ⟨by decide,fun out => absurd inside out,fun one => (by cases one)⟩
  | unlinked pc _ none =>
    rw [none]
    exact ⟨by decide,fun _ other => absurd pc other,fun one => (by cases one)⟩
  | itself pc _ one =>
    rw [one]
    exact ⟨by decide,fun _ _ _ => rfl,fun _ => pc⟩
  | joining main _ _ none =>
    rw [none]
    exact ⟨by decide,fun _ _ other => absurd main other,fun one => (by cases one)⟩
  | joined _ _ one =>
    rw [one]
    exact ⟨by decide,fun _ _ _ => rfl,fun one => (by cases one)⟩

def runPool (c : Config) : List Event → Pool → Option Pool
  | [],p => some p
  | e::rest,p => (p.step c e).bind (runPool c rest)

theorem runReached {c : Config} {l : List Event} {p q : Pool} (before : Reachable c p) (run : runPool c l p = some q) :
    Reachable c q := by
  induction l generalizing p with
  | nil =>
    cases run
    exact before
  | cons e l ih =>
    obtain ⟨t,next,rest⟩ := Option.bind_eq_some_iff.mp run
    exact ih (before.step e next) rest

theorem poolHolds (c : Config) (p : Pool) (room : 1 ≤ c.maxThreads) (reached : Reachable c p) :
    (p.exit = false → 0 ≤ p.numavail ∧ p.numavail ≤ p.numworker ∧ p.numworker ≤ c.maxThreads ∧
      p.numworker = p.listed.length ∧ p.numavail = p.numworker - busy p ∧ (0 < p.next → 1 ≤ p.numworker)) ∧
    (p.main = .waiting → p.exit = false ∧ 0 < p.next) ∧
    ∀ w < p.next, (releasers p w).length ≤ 1 ∧ (releasers p w = [.itself] → (p.workers w).pc = .gone) ∧
      (p.main = .returned → (p.workers w).pc ≠ .unlinked → (releasers p w).length = 1) ∧
      ((p.workers w).pc = .unlinked → ∃ q, p.step c (.free w) = some q ∧ releasers q w = [.itself]) := by
  have sound := reachedSound room reached
  refine ⟨fun running => ?_,sound.waiting,fun w born => ?_⟩
  · obtain ⟨work,avail,most⟩ := sound.counted running
    have some := sound.least running
    have within : busy p ≤ p.listed.length := List.countP_le_length
    refine ⟨by omega,by omega,by omega,work,by omega,fun begun => ?_⟩
    have pos := List.length_pos_of_ne_nil (some begun)
    omega
  · obtain ⟨once,all,mine⟩ := (sound.placed.fates w born).released
    refine ⟨once,mine,fun main own => all ?_ own ?_,fun pc => ⟨_,if_pos ⟨born,pc⟩,?_⟩⟩
    · rw [sound.returned main]
      exact List.not_mem_nil
    · rw [main]
      exact fun other => (by cases other)
    · refine (releasersMore rfl).trans ?_
      rw [sound.placed.unreleased born pc,if_pos rfl]
      rfl

/- Two workers, one of them retiring after a message, and the end of the session. -/
theorem poolHoldsTwo :
    let c : Config := ⟨false,0,2⟩
    ∃ p, Reachable c p ∧ p.main = .returned ∧ p.next = 2 ∧ (releasers p 0).length = 1 ∧ (releasers p 1).length = 1 := by
  intro c
  have run : ∃ p,
    runPool c [.begin ⟨true,true,true⟩,.enter 0,.receive 0 (.message false),.take 0 ⟨true,true,true⟩,.done 0,
      .free 0,.enter 1,.receive 1 (.nothing true),.post 1,.stop,.join,.freeJoined,.finish]
        (newPool c) = some p ∧ p.main = .returned ∧
      p.next = 2 ∧ (p.workers 0).pc = .gone ∧ (p.workers 1).pc = .ended := ⟨_,rfl,rfl,rfl,rfl,rfl⟩
  obtain ⟨p,run,main,next,first,second⟩ := run
  have reached := runReached .start run
  have released := (poolHolds c p (by decide) reached).2.2
  exact ⟨p,reached,main,next,(released 0 (by omega)).2.2.1 main (by rw [first]; decide),
    (released 1 (by omega)).2.2.1 main (by rw [second]; decide)⟩

/- When the first thread cannot be started there is no worker. -/
theorem poolEmpty : ∃ p, Reachable ⟨false,-1,10⟩ p ∧ p.exit = false ∧ p.numworker = 0 ∧ p.main = .returned :=
  ⟨_,.step .start (.begin ⟨false,true,true⟩) rfl,rfl,rfl,rfl⟩

end FuseStudy.WorkerRuns
