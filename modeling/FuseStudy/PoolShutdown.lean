import FuseStudy.WorkerRuns
import Mathlib.Algebra.BigOperators.Group.List.Basic
import Mathlib.Algebra.Order.Ring.Nat

/-! The end of the worker pool. Once the main thread has set mt->exit, no thread can keep it from
coming back: each step of a thread brings it nearer to its end, and until the main thread has
returned there is a step to take. -/
namespace FuseStudy.PoolShutdown
open WorkerPool WorkerRuns

variable {c : Config} {p q : Pool} {w v : Nat}

/- How many steps a thread has left at most, when it finds the session left. -/
def WorkerPc.left : WorkerPc → Nat
  | .receiving | .processing _ => 3
  | .top => 2
  | .received _ | .leaving | .unlinked => 1
  | .ended | .gone => 0

def mainLeft (p : Pool) : Nat :=
  match p.main with
  | .freeing _ => 2 * p.listed.length + 2
  | .returned => 0
  | _ => 2 * p.listed.length + 1

def workersLeft (p : Pool) : Nat := ((List.range p.next).map fun w => WorkerPc.left (p.workers w).pc).sum

def left (p : Pool) : Nat := workersLeft p + mainLeft p

/- The main thread has left its loop, and has cancelled the threads that read the device. -/
structure Stopped (p : Pool) : Prop where
  exit : p.exit = true
  exited : p.exited = true
  main : p.main = .joining ∨ (∃ w, p.main = .freeing w) ∨ p.main = .returned
  cancelled : ∀ w ∈ p.listed, (p.workers w).pc = .receiving → (p.workers w).cancelled = true

theorem movedLeft {pc : WorkerPc} (born : w < p.next)
    (workers : ∀ v, v ≠ w → (q.workers v).pc = (p.workers v).pc) (next : q.next = p.next)
    (here : (q.workers w).pc = pc) :
    workersLeft q + WorkerPc.left (p.workers w).pc = workersLeft p + WorkerPc.left pc := by
  have apart : ∀ r : Pool, ((List.range p.next).map fun v => WorkerPc.left (r.workers v).pc).sum =
      WorkerPc.left
        (r.workers w).pc + (((List.range p.next).erase w).map fun v => WorkerPc.left (r.workers v).pc).sum := by
    intro r
    have perm := (List.perm_cons_erase (List.mem_range.mpr born)).map fun v => WorkerPc.left (r.workers v).pc
    rw [perm.sum_eq,List.map_cons,List.sum_cons]
  have others : ((List.range p.next).erase w).map (fun v => WorkerPc.left (q.workers v).pc) =
      ((List.range p.next).erase w).map fun v => WorkerPc.left (p.workers v).pc := by
    refine List.map_congr_left fun v mem => ?_
    rw [workers v (List.nodup_range.mem_erase_iff.mp mem).1]
  rw [workersLeft,workersLeft,next,apart q,apart p,others,here]
  omega

theorem nearer {pc : WorkerPc} (born : w < p.next)
    (workers : ∀ v, v ≠ w → (q.workers v).pc = (p.workers v).pc) (next : q.next = p.next)
    (here : (q.workers w).pc = pc) (less : WorkerPc.left pc < WorkerPc.left (p.workers w).pc)
    (main : mainLeft q = mainLeft p) : left q < left p := by
  have moved := movedLeft born workers next here
  rw [left,left,main]
  omega

theorem moveNearer {pc : WorkerPc} (born : w < p.next)
    (less : WorkerPc.left pc < WorkerPc.left (p.workers w).pc) : left (p.move w pc) < left p :=
  nearer born (fun _ other => congrArg Worker.pc (moveOther other)) rfl moveSame less rfl

theorem Stopped.unstarted (stopped : Stopped p) : p.main ≠ .starting ∧ p.main ≠ .waiting := by
  rcases stopped.main with main | ⟨w,main⟩ | main <;> rw [main] <;>
    exact ⟨(fun no => by cases no),fun no => by cases no⟩

theorem Stopped.moved {pc : WorkerPc} (stopped : Stopped p) (away : pc ≠ .receiving) : Stopped (p.move w pc) where
  exit := stopped.exit
  exited := stopped.exited
  main := stopped.main
  cancelled := by
    intro v listed reads
    by_cases same : v = w
    · subst same
      rw [moveSame] at reads
      exact absurd reads away
    · rw [moveOther same] at reads ⊢
      exact stopped.cancelled v listed reads

theorem Stopped.received {res : Received} (stopped : Stopped p) : Stopped (received p w res) := by
  cases res with
  | intr => exact stopped.moved fun no => by cases no
  | nothing exits =>
    have still : Stopped {p with exited := p.exited || exits} :=
      ⟨stopped.exit,by dsimp only; rw [stopped.exited,Bool.true_or],stopped.main,stopped.cancelled⟩
    exact still.moved fun no => by cases no
  | failed res =>
    have still : Stopped {p with exited := true, error := res} := ⟨stopped.exit,rfl,stopped.main,stopped.cancelled⟩
    exact still.moved fun no => by cases no
  | message isforget => exact stopped.moved fun no => by cases no

theorem receivedNearer {res : Received} (born : w < p.next) (pc : (p.workers w).pc = .receiving) :
    left (received p w res) < left p := by
  cases res with
  | intr => exact moveNearer born (by rw [pc]; decide)
  | nothing | failed | message =>
    refine nearer born (fun _ other => congrArg Worker.pc (moveOther other)) rfl moveSame ?_ rfl
    rw [pc]
    exact Nat.lt_of_sub_eq_succ rfl

theorem Stopped.step {e : Event} (stopped : Stopped p) (other : e ≠ .sessionExit) (next : p.step c e = some q) :
    Stopped q ∧ left q < left p := by
  obtain ⟨unstarted,unwaiting⟩ := stopped.unstarted
  cases e with
  | begin e =>
    simp only [Pool.step,if_neg unstarted] at next
    cases next
  | wait interrupted =>
    simp only [Pool.step,unwaiting,false_and,if_false] at next
    cases next
  | stop =>
    simp only [Pool.step,unwaiting,false_and,if_false] at next
    cases next
  | join =>
    simp only [Pool.step] at next
    split at next
    · next w rest main listed =>
      split at next <;> cases next
      refine ⟨⟨stopped.exit,stopped.exited,.inr (.inl ⟨w,rfl⟩),fun v mem =>
        stopped.cancelled v (listed ▸ List.mem_cons_of_mem w mem)⟩,?_⟩
      simp only [left,mainLeft,main,listed,List.length_cons]
      have same : workersLeft {p with listed := rest, main := .freeing w} = workersLeft p := rfl
      omega
    · cases next
  | freeJoined =>
    simp only [Pool.step] at next
    split at next
    · next w main =>
      cases next
      refine ⟨⟨stopped.exit,stopped.exited,.inl rfl,stopped.cancelled⟩,?_⟩
      simp only [left,mainLeft,main]
      exact Nat.lt_succ_self _
    · cases next
  | finish =>
    simp only [Pool.step] at next
    split at next
    · next main =>
      cases next
      refine ⟨⟨stopped.exit,stopped.exited,.inr (.inr rfl),stopped.cancelled⟩,?_⟩
      simp only [left,mainLeft,main.1]
      exact Nat.lt_succ_of_le (Nat.le_add_right _ _)
    · cases next
  | sessionExit => exact absurd rfl other
  | enter w =>
    simp only [Pool.step] at next
    split at next
    · next runs =>
      cases next
      rw [if_pos stopped.exited]
      exact ⟨stopped.moved (fun no => by cases no),moveNearer runs.1 (by rw [runs.2]; decide)⟩
    · cases next
  | receive w res =>
    simp only [Pool.step] at next
    split at next
    · next runs =>
      cases next
      exact ⟨stopped.received,receivedNearer runs.1 runs.2⟩
    · cases next
  | cancel w =>
    simp only [Pool.step] at next
    split at next
    · next runs =>
      cases next
      exact ⟨stopped.moved (fun no => by cases no),moveNearer runs.1 (by rw [runs.2.1]; decide)⟩
    · cases next
  | take w e =>
    simp only [Pool.step] at next
    split at next
    · next isforget pc =>
      split at next
      · next born =>
        cases next
        rw [takeMessage,if_pos stopped.exit]
        exact ⟨stopped.moved (fun no => by cases no),moveNearer born (by rw [pc]; exact Nat.one_pos)⟩
      · cases next
    · cases next
  | done w =>
    simp only [Pool.step] at next
    split at next
    · next isforget pc =>
      split at next
      · next born =>
        cases next
        have counted : Stopped (countMessage p isforget 1) :=
          ⟨stopped.exit,stopped.exited,stopped.main,stopped.cancelled⟩
        have nearer : ∀ to_, WorkerPc.left to_ < 3 →
          left ((countMessage p isforget 1).move w to_) < left p := fun to_ less =>
          moveNearer (p := countMessage p isforget 1) born
            (by change _ < WorkerPc.left (p.workers w).pc; rw [pc]; exact less)
        unfold messageDone
        dsimp only
        split
        · rw [if_pos counted.exit]
          exact ⟨counted.moved (fun no => by cases no),nearer .ended (by decide)⟩
        · exact ⟨counted.moved (fun no => by cases no),nearer .top (by decide)⟩
      · cases next
    · cases next
  | post w =>
    simp only [Pool.step] at next
    split at next
    · next runs =>
      cases next
      have still : Stopped {p with finish := p.finish + 1} :=
        ⟨stopped.exit,stopped.exited,stopped.main,stopped.cancelled⟩
      exact ⟨still.moved (fun no => by cases no),
        moveNearer (p := {p with finish := p.finish + 1}) runs.1 (by rw [runs.2]; decide)⟩
    · cases next
  | free w =>
    simp only [Pool.step] at next
    split at next
    · next runs =>
      cases next
      have still : Stopped {p with released := p.released ++ [(w,Releaser.itself)]} :=
        ⟨stopped.exit,stopped.exited,stopped.main,stopped.cancelled⟩
      refine ⟨still.moved (fun no => by cases no),?_⟩
      exact moveNearer (p := {p with released := p.released ++ [(w,Releaser.itself)]}) runs.1 (by rw [runs.2]; decide)
    · cases next

/-! Every pool whose mt->exit is set. -/

theorem startExit (p : Pool) (e : Start) : (fuseLoopStartThread p e).1.exit = p.exit := by
  have step := started p e
  generalize fuseLoopStartThread p e = result at step
  obtain ⟨q,ok⟩ := result
  cases step with
  | failed _ _ _ exit => exact exit
  | born _ _ _ _ _ _ _ exit => exact exit

theorem stepExit {e : Event} (other : e ≠ .stop) (next : p.step c e = some q) : q.exit = p.exit := by
  cases e with
  | stop => exact absurd rfl other
  | begin e =>
    simp only [Pool.step] at next
    split at next <;> cases next
    exact startExit p e
  | sessionExit =>
    cases next
    rfl
  | receive w res =>
    simp only [Pool.step] at next
    split at next <;> cases next
    cases res <;> rfl
  | take w e =>
    simp only [Pool.step] at next
    split at next
    · next isforget pc =>
      split at next <;> cases next
      unfold takeMessage
      split
      · rfl
      · change (makeRoom c (countMessage p isforget (-1)) e).exit = p.exit
        unfold makeRoom
        split
        · exact startExit _ e
        · rfl
    · cases next
  | done w =>
    simp only [Pool.step] at next
    split at next
    · split at next <;> cases next
      unfold messageDone
      dsimp only
      split
      · split <;> rfl
      · rfl
    · cases next
  | join | freeJoined =>
    simp only [Pool.step] at next
    split at next
    · first | (split at next <;> cases next <;> rfl) | (cases next; rfl)
    · cases next
  | wait | finish | enter | cancel | post | free =>
    simp only [Pool.step] at next
    split at next <;> cases next
    rfl

theorem stopStopped (exited : p.exited = true) : Stopped (stopPool p) where
  exit := rfl
  exited := exited
  main := .inl rfl
  cancelled := by
    intro w listed _
    simp only [stopPool]
    rw [if_pos (show w ∈ p.listed from listed)]

theorem reachedStopped (reached : Reachable c p) (exit : p.exit = true) : Stopped p := by
  induction reached with
  | start => cases exit
  | @step p q before e next ih =>
    by_cases stops : e = .stop
    · subst stops
      simp only [Pool.step] at next
      split at next
      · next waits =>
        cases next
        exact stopStopped waits.2
      · cases next
    · have stopped := ih ((stepExit stops next).symm.trans exit)
      by_cases again : e = .sessionExit
      · subst again
        cases next
        exact ⟨stopped.exit,rfl,stopped.main,stopped.cancelled⟩
      · exact (stopped.step again next).1

theorem Stopped.goes (stopped : Stopped p) (placed : Placed p) (unreturned : p.main ≠ .returned) :
    ∃ e, e ≠ .sessionExit ∧ p.step c e ≠ none := by
  rcases stopped.main with main | ⟨w,main⟩ | main
  · cases listed : p.listed with
    | nil => exact ⟨.finish,(fun no => by cases no),by simp [Pool.step,main,listed]⟩
    | cons w rest =>
      have inside : w ∈ p.listed := by rw [listed]; exact List.mem_cons_self
      have born := placed.old w inside
      cases pc : (p.workers w).pc with
      | ended => exact ⟨.join,(fun no => by cases no),by simp [Pool.step,main,listed,pc]⟩
      | top => exact ⟨.enter w,(fun no => by cases no),by simp [Pool.step,born,pc]⟩
      | receiving => exact ⟨.cancel w,(fun no => by cases no),by simp [Pool.step,born,pc,stopped.cancelled w inside pc]⟩
      | received isforget => exact ⟨.take w ⟨false,false,false⟩,(fun no => by cases no),by simp [Pool.step,born,pc]⟩
      | processing isforget => exact ⟨.done w,(fun no => by cases no),by simp [Pool.step,born,pc]⟩
      | leaving => exact ⟨.post w,(fun no => by cases no),by simp [Pool.step,born,pc]⟩
      | unlinked | gone =>
        cases placed.fates w born with
        | listed _ own => exact absurd pc (by first | exact own.1 | exact own.2)
        | unlinked _ out | itself _ out | joining _ _ out | joined _ out => exact absurd inside out
  · exact ⟨.freeJoined,(fun no => by cases no),by simp [Pool.step,main]⟩
  · exact absurd main unreturned

/- All that happens after the end was ordered, but for orders to end again, fits in the steps left. -/
theorem Stopped.run {l : List Event} (stopped : Stopped p) (ran : runPool c l p = some q) :
    Stopped q ∧ l.countP (fun e => decide (e ≠ .sessionExit)) + left q ≤ left p := by
  induction l generalizing p with
  | nil =>
    cases ran
    exact ⟨stopped,Nat.le_of_eq (Nat.zero_add _)⟩
  | cons e l ih =>
    obtain ⟨r,next,rest⟩ := Option.bind_eq_some_iff.mp ran
    rw [List.countP_cons]
    by_cases again : e = .sessionExit
    · subst again
      cases next
      have same : left {p with exited := true} = left p := rfl
      have still : Stopped {p with exited := true} := ⟨stopped.exit,rfl,stopped.main,stopped.cancelled⟩
      obtain ⟨end_,bound⟩ := ih still rest
      rw [same] at bound
      exact ⟨end_,by simpa using bound⟩
    · obtain ⟨stopped',nearer⟩ := stopped.step again next
      obtain ⟨end_,bound⟩ := ih stopped' rest
      refine ⟨end_,?_⟩
      rw [if_pos (decide_eq_true again)]
      omega

theorem fewLeft (pc : WorkerPc) : WorkerPc.left pc ≤ 3 := by
  cases pc <;> simp only [WorkerPc.left] <;> omega

theorem leftBound (placed : Placed p) : left p ≤ 5 * p.next + 2 := by
  have workers : ∀ n, ((List.range n).map fun w => WorkerPc.left (p.workers w).pc).sum ≤ 3 * n := by
    intro n
    induction n with
    | zero => exact Nat.le_refl 0
    | succ n ih =>
      have last := fewLeft (p.workers n).pc
      rw [List.range_succ,List.map_append,List.sum_append,List.map_singleton,List.sum_singleton]
      omega
  have all : workersLeft p ≤ 3 * p.next := workers p.next
  have fewer : p.listed.length ≤ p.next := by
    have sub := List.subperm_of_subset placed.nodup fun w mem => List.mem_range.mpr (placed.old w mem)
    rw [← List.length_range (n := p.next)]
    exact sub.length_le
  have main : mainLeft p ≤ 2 * p.listed.length + 2 := by
    unfold mainLeft
    split <;> omega
  rw [left]
  omega

/- Once mt->exit is set, every schedule of the threads ends within a number of steps, and where it
cannot go on the main thread has returned. -/
theorem shutdownEnds (room : 1 ≤ c.maxThreads) (reached : Reachable c p) (exit : p.exit = true) :
    (∀ l q, runPool c l p = some q → l.countP (fun e => decide (e ≠ .sessionExit)) ≤ 5 * p.next + 2) ∧
      ∀ l q, runPool c l p = some q → (∀ e, e ≠ .sessionExit → q.step c e = none) → q.main = .returned := by
  have stopped := reachedStopped reached exit
  have placed := (reachedSound room reached).placed
  refine ⟨fun l q ran => ?_,fun l q ran stuck => ?_⟩
  · have bound := (stopped.run ran).2
    have least := leftBound placed
    omega
  · by_contra unreturned
    have reached' := runReached reached ran
    obtain ⟨e,other,goes⟩ := (stopped.run ran).1.goes (c := c) (reachedSound room reached').placed unreturned
    exact goes (stuck e other)

/- The session is left while one thread processes a message and a second reads the device. -/
theorem twoWorkersEnd :
    let c : Config := ⟨false,-1,2⟩
    ∃ p, Reachable c p ∧ p.exit = true ∧ (p.workers 0).pc = .processing false ∧ (p.workers 1).pc = .receiving ∧
      ∀ l q, runPool c l p = some q → (∀ e, e ≠ .sessionExit → q.step c e = none) → q.main = .returned := by
  intro c
  have run : ∃ p,
    runPool c [.begin ⟨true,true,true⟩,.enter 0,.receive 0 (.message false),.take 0 ⟨true,true,true⟩,
      .enter 1,.sessionExit,.stop]
      (newPool c) = some p ∧ p.exit = true ∧ (p.workers 0).pc = .processing false ∧
        (p.workers 1).pc = .receiving := ⟨_,rfl,rfl,rfl,rfl⟩
  obtain ⟨p,run,exit,first,second⟩ := run
  have reached := runReached .start run
  exact ⟨p,reached,exit,first,second,(shutdownEnds (by decide) reached exit).2⟩

end FuseStudy.PoolShutdown
