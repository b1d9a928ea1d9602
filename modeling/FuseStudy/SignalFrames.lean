import Mathlib.Data.List.Basic
import Mathlib.Tactic.Common

/-! One request that may be interrupted by a signal. Its handler keeps a fuse_intr_data on its
stack, and the threads that read an INTERRUPT for it wait on that until the handler is done with
its callback. se->lock and f->lock are held within one step only; req->lock spans several, and a
thread that waits for the condition has given f->lock back. Requests share nothing else, so one
is taken by itself. -/
namespace FuseStudy.SignalFrames

inductive Fault
  -- the request is used after destroy_req, or its lock is held by then
  | freedRequest | heldLock
  -- d is used after its function has returned, or its condition is destroyed under a waiter
  | deadFrame | busyCond
  deriving DecidableEq

/- Where the handler stands: begun is after d is set up, registering and withdrawing are inside
of fuse_req_interrupt_func, finished is between the two halves of fuse_do_finish_interrupt. -/
inductive Pc
  | held | begun | registering | within | finished | withdrawing | withdrawn | left | freed
  deriving DecidableEq

/- A thread in find_interrupted that has found the request: calling is in fuse_interrupt about to
look at d, waiting is in pthread_cond_timedwait, leaving has come back from the function. -/
inductive Sig
  | found | calling | waiting | leaving | dropping | done
  deriving DecidableEq

inductive Holder
  | handler
  | signaller (i : Nat)
  deriving DecidableEq

structure Sys where
  pc : Pc
  live : Bool
  linked : Bool
  lock : Option Holder
  func : Bool
  interrupted : Bool
  refCnt : Nat
  -- d while it exists, with its field finished
  frame : Option Bool
  sigs : List Sig
  -- how often pthread_kill was called
  kills : Nat
  deriving DecidableEq

inductive Event
  | begin | register | self | finish | withdraw | unlocked | leave | free
  | find
  | mark (i : Nat)
  | turn (i : Nat)
  | wake (i : Nat)
  | unlock (i : Nat)
  | drop (i : Nat)
  deriving DecidableEq

def start : Sys := ⟨.held,true,true,none,false,false,1,none,[],0⟩

def Sys.move (s : Sys) (i : Nat) (g : Sig) : Sys := {s with sigs := s.sigs.set i g}

/- Every use of the request or of d goes through here. -/
def Sys.used (s t : Sys) : Except Fault Sys := if s.live then .ok t else .error .freedRequest

def Sys.framed (s : Sys) (next : Bool → Except Fault Sys) : Except Fault Sys :=
  match s.frame with
  | none => .error .deadFrame
  | some finished => next finished

def Sys.unref (s : Sys) : Except Fault Sys :=
  if s.live then
    if s.refCnt - 1 = 0 then
      if s.lock = none then .ok {s with refCnt := s.refCnt - 1, live := false} else .error .heldLock
    else .ok {s with refCnt := s.refCnt - 1}
  else .error .freedRequest

def broadcast (sigs : List Sig) : List Sig := sigs.map fun g => if g = .waiting then .calling else g

def Sys.handler (s : Sys) : Event → Option (Except Fault Sys)
  | .begin => if s.pc = .held then some (.ok {s with pc := .begun, frame := some false}) else none
  | .register =>
    if s.pc = .begun ∧ s.lock = none then
      some (s.used {s with pc := .registering, lock := some .handler, func := true})
    else none
  -- the function is called for a request that was interrupted before, and finds its own thread
  | .self =>
    if s.pc = .registering then
      some (if s.interrupted then s.framed fun _ => s.used {s with pc := .within, lock := none}
        else s.used {s with pc := .within, lock := none})
    else none
  | .finish =>
    if s.pc = .within then
      some (s.framed fun _ => .ok {s with pc := .finished, frame := some true, sigs := broadcast s.sigs})
    else none
  | .withdraw =>
    if s.pc = .finished ∧ s.lock = none then
      some (s.used {s with pc := .withdrawing, lock := some .handler, func := false})
    else none
  | .unlocked => if s.pc = .withdrawing then some (s.used {s with pc := .withdrawn, lock := none}) else none
  | .leave =>
    if s.pc = .withdrawn then
      some (if Sig.waiting ∈ s.sigs then .error .busyCond else .ok {s with pc := .left, frame := none})
    else none
  | .free =>
    if s.pc = .left then some ({s with pc := .freed, func := false, linked := false} : Sys).unref else none
  | _ => none

def Sys.signaller (s : Sys) : Event → Option (Except Fault Sys)
  | .find => if s.linked then some (s.used {s with refCnt := s.refCnt + 1, sigs := s.sigs ++ [.found]}) else none
  | .mark i =>
    if s.sigs[i]? = some .found ∧ s.lock = none then
      some (s.used {s.move i (if s.func then .calling else .leaving) with
        lock := some (.signaller i)
        interrupted := true})
    else none
  | .turn i =>
    if s.sigs[i]? = some .calling then
      some (s.framed fun finished =>
        .ok (if finished then s.move i .leaving else {s.move i .waiting with kills := s.kills + 1}))
    else none
  | .wake i =>
    if s.sigs[i]? = some .waiting then some (s.framed fun _ => .ok (s.move i .calling)) else none
  | .unlock i =>
    if s.sigs[i]? = some .leaving then some (s.used {s.move i .dropping with lock := none}) else none
  | .drop i => if s.sigs[i]? = some .dropping then some (s.move i .done).unref else none
  | _ => none

def Sys.step (s : Sys) (e : Event) : Option (Except Fault Sys) := (s.handler e).or (s.signaller e)

inductive Reached : Sys → Prop
  | start : Reached start
  | step {s s' : Sys} {e : Event} (before : Reached s) (ran : s.step e = some (.ok s')) : Reached s'

/-! What the places of the threads say about the data. -/

def Pc.frame : Pc → Option Bool
  | .begun | .registering | .within => some false
  | .finished | .withdrawing | .withdrawn => some true
  | _ => none

def Pc.func : Pc → Bool
  | .registering | .within | .finished => true
  | _ => false

def Pc.locks : Pc → Bool
  | .registering | .withdrawing => true
  | _ => false

def Pc.owns (p : Pc) : Bool := decide (p ≠ .freed)

def Sig.holds : Sig → Bool
  | .done => false
  | _ => true

def Sig.locks : Sig → Bool
  | .calling | .waiting | .leaving => true
  | _ => false

def Sig.calls : Sig → Bool
  | .calling | .waiting => true
  | _ => false

structure Sound (s : Sys) : Prop where
  frame : s.frame = s.pc.frame
  func : s.func = s.pc.func
  linked : s.linked = s.pc.owns
  live : s.live = decide (0 < s.refCnt)
  refs : s.refCnt = (if s.pc.owns then 1 else 0) + s.sigs.countP Sig.holds
  own : s.lock = some .handler ↔ s.pc.locks = true
  held : ∀ i, s.lock = some (.signaller i) ↔ ∃ g, s.sigs[i]? = some g ∧ g.locks = true
  calls : ∀ g ∈ s.sigs, g.calls = true → s.pc.func = true

theorem countSet {α : Type} {l : List α} {i : Nat} {a : α} (f : α → Bool) (at_ : l[i]? = some a) (b : α) :
    (l.set i b).countP f + (if f a then 1 else 0) = l.countP f + if f b then 1 else 0 := by
  obtain ⟨inside,here⟩ := List.getElem?_eq_some_iff.mp at_
  rw [List.countP_set inside,here]
  have positive : f a = true → 0 < l.countP f := fun yes => List.countP_pos_iff.mpr ⟨a,List.mem_of_getElem? at_,yes⟩
  split
  · next yes =>
    have := positive yes
    omega
  · omega

theorem startSound : Sound start :=
  ⟨rfl,rfl,rfl,rfl,rfl,by decide,fun i => by simp [start],fun g no => absurd no List.not_mem_nil⟩

variable {s s' : Sys} {e : Event} {i : Nat} {g : Sig}

theorem Sound.alive (sound : Sound s) (owns : s.pc.owns = true) : s.live = true := by
  rw [sound.live,decide_eq_true_eq,sound.refs,if_pos owns]
  omega

theorem Sound.aliveFor (sound : Sound s) (at_ : s.sigs[i]? = some g) (holds : g.holds = true) : s.live = true := by
  have counted : 0 < s.sigs.countP Sig.holds := List.countP_pos_iff.mpr ⟨g,List.mem_of_getElem? at_,holds⟩
  rw [sound.live,decide_eq_true_eq,sound.refs]
  omega

theorem Sound.uncalled (sound : Sound s) (func : s.pc.func = false) : ∀ g ∈ s.sigs, g.calls = false := by
  intro g mem
  cases calls : g.calls with
  | false => rfl
  | true =>
    have set := sound.calls g mem calls
    rw [func] at set
    cases set

theorem Sound.unheld (sound : Sound s) (lock : s.lock = none ∨ s.lock = some .handler) (i : Nat) :
    ¬ ∃ g, s.sigs[i]? = some g ∧ g.locks = true := by
  intro owner
  have held := (sound.held i).mpr owner
  rcases lock with none | handler
  · rw [none] at held
    cases held
  · rw [handler] at held
    cases held

theorem usedSound {t : Sys} (live : s.live = true) (sound : Sound t) : ∃ s', s.used t = .ok s' ∧ Sound s' :=
  ⟨t,if_pos live,sound⟩

theorem framedSound (finished : Bool) {next : Bool → Except Fault Sys} (frame : s.frame = some finished)
    (sound : ∃ s', next finished = .ok s' ∧ Sound s') : ∃ s', s.framed next = .ok s' ∧ Sound s' := by
  obtain ⟨s',ran,sound⟩ := sound
  exact ⟨s',by rw [Sys.framed,frame]; exact ran,sound⟩

theorem Sound.paces {p : Pc} (sound : Sound s) (unlocked : s.pc.locks = false ∧ p.locks = false)
    (owns : p.owns = s.pc.owns) (func : p.func = s.pc.func) : Sound {s with pc := p, frame := p.frame} where
  frame := rfl
  func := sound.func.trans func.symm
  linked := sound.linked.trans owns.symm
  live := sound.live
  refs := by rw [owns]; exact sound.refs
  own := by rw [unlocked.2]; rw [← unlocked.1]; exact sound.own
  held := sound.held
  calls := fun g mem calls => func.trans (sound.calls g mem calls)

theorem Sound.locks (sound : Sound s) (p : Pc) (lock : Option Holder) (before : s.lock = none ∨ s.lock = some .handler)
    (now : lock = if p.locks then some .handler else none) (owns : p.owns = s.pc.owns) (frame : p.frame = s.pc.frame)
    (func : ∀ g ∈ s.sigs, g.calls = true → p.func = true) : Sound {s with pc := p, lock := lock, func := p.func} where
  frame := sound.frame.trans frame.symm
  func := rfl
  linked := sound.linked.trans owns.symm
  live := sound.live
  refs := by rw [owns]; exact sound.refs
  own := by rw [now]; cases p.locks <;> simp
  held := by
    intro i
    refine ⟨fun held => ?_,fun owner => absurd owner (sound.unheld before i)⟩
    rw [now] at held
    split at held <;> cases held
  calls := func

theorem broadcastHolds (sigs : List Sig) : (broadcast sigs).countP Sig.holds = sigs.countP Sig.holds := by
  rw [broadcast,List.countP_map]
  congr 1
  funext g
  cases g <;> rfl

theorem broadcastAt :
    (broadcast s.sigs)[i]? = some g ↔ ∃ g', s.sigs[i]? = some g' ∧ g = if g' = .waiting then .calling else g' := by
  rw [broadcast,List.getElem?_map,Option.map_eq_some_iff]
  exact exists_congr fun g' => and_congr_right fun _ => eq_comm

theorem Sound.broadcasts (sound : Sound s) : Sound {s with sigs := broadcast s.sigs} where
  frame := sound.frame
  func := sound.func
  linked := sound.linked
  live := sound.live
  refs := by rw [broadcastHolds]; exact sound.refs
  own := sound.own
  held := by
    intro i
    refine (sound.held i).trans ⟨?_,?_⟩
    · rintro ⟨g,at_,locks⟩
      refine ⟨_,broadcastAt.mpr ⟨g,at_,rfl⟩,?_⟩
      split
      · rfl
      · exact locks
    · rintro ⟨g,at_,locks⟩
      obtain ⟨g',was,rfl⟩ := broadcastAt.mp at_
      refine ⟨g',was,?_⟩
      split at locks
      · next waits => rw [waits]; rfl
      · exact locks
  calls := by
    intro g mem calls
    obtain ⟨g',was,same⟩ := List.mem_map.mp mem
    subst same
    refine sound.calls g' was ?_
    split at calls
    · next waits => rw [waits]; rfl
    · exact calls

theorem Sound.unrefs {t : Sys} (live : t.live = decide (0 < t.refCnt)) (positive : 0 < t.refCnt)
    (idle : t.refCnt = 1 → t.lock = none)
    (sound : ∀ b, Sound {t with refCnt := t.refCnt - 1, live := b} ∨ b ≠ decide (0 < t.refCnt - 1)) :
    ∃ s', t.unref = .ok s' ∧ Sound s' := by
  have alive : t.live = true := live.trans (decide_eq_true positive)
  unfold Sys.unref
  rw [if_pos alive]
  split
  · next last =>
    rw [if_pos (idle (by omega))]
    refine ⟨_,rfl,(sound false).resolve_right ?_⟩
    rw [last]
    exact fun no => no rfl
  · next more =>
    have still := (sound true).resolve_right (by rw [decide_eq_true (by omega)]; exact fun no => no rfl)
    rw [← alive] at still
    exact ⟨_,rfl,still⟩

/- What becomes of req->lock when signaller i goes from one place to another. -/
inductive Passes (s : Sys) (i : Nat) (g g' : Sig) : Option Holder → Prop
  | same (locks : g'.locks = g.locks) : Passes s i g g' s.lock
  | takes (free : s.lock = none) (locks : g'.locks = true) : Passes s i g g' (some (.signaller i))
  | gives (locks : g.locks = true) (unlocks : g'.locks = false) : Passes s i g g' none

theorem Sound.signals {g' : Sig} {lock : Option Holder} (sound : Sound s) (at_ : s.sigs[i]? = some g)
    (passes : Passes s i g g' lock) (holds : g'.holds = g.holds) (calls : g'.calls = true → s.pc.func = true) :
    Sound {s.move i g' with lock := lock} where
  frame := sound.frame
  func := sound.func
  linked := sound.linked
  live := sound.live
  refs := by
    have counted := countSet Sig.holds at_ g'
    rw [holds] at counted
    change s.refCnt = _ + (s.sigs.set i g').countP Sig.holds
    rw [Nat.add_right_cancel counted]
    exact sound.refs
  own := by
    cases passes with
    | same => exact sound.own
    | takes free =>
      refine ⟨fun no => (by cases no),fun owner => ?_⟩
      have mine := sound.own.mpr owner
      rw [free] at mine
      cases mine
    | gives locks =>
      refine ⟨fun no => (by cases no),fun owner => ?_⟩
      have mine := sound.own.mpr owner
      have his := (sound.held i).mpr ⟨g,at_,locks⟩
      rw [his] at mine
      cases mine
  held := by
    intro j
    have inside := (List.getElem?_eq_some_iff.mp at_).1
    by_cases here : j = i
    · subst here
      have now : (s.sigs.set j g')[j]? = some g' := List.getElem?_set_self inside
      change lock = _ ↔ ∃ k, (s.sigs.set j g')[j]? = some k ∧ k.locks = true
      rw [now]
      cases passes with
      | same locks =>
        rw [sound.held j,at_]
        simp only [Option.some.injEq,exists_eq_left',locks]
      | takes _ locks => simp [locks]
      | gives _ unlocks => simp [unlocks]
    · change lock = _ ↔ ∃ k, (s.sigs.set i g')[j]? = some k ∧ k.locks = true
      rw [List.getElem?_set_ne (Ne.symm here)]
      cases passes with
      | same => exact sound.held j
      | takes free =>
        refine ⟨fun same => ?_,fun owner => ?_⟩
        · cases same
          exact absurd rfl here
        · have his := (sound.held j).mpr owner
          rw [free] at his
          cases his
      | gives locks =>
        refine ⟨fun no => (by cases no),fun owner => ?_⟩
        have his := (sound.held j).mpr owner
        have mine := (sound.held i).mpr ⟨g,at_,locks⟩
        rw [mine] at his
        cases his
        exact absurd rfl here
  calls := by
    intro k mem yes
    rcases List.mem_or_eq_of_mem_set mem with old | rfl
    · exact sound.calls k old yes
    · exact calls yes

theorem enabled {α : Type} {P : Prop} [Decidable P] {a b : α} (ran : (if P then some a else none) = some b) :
    P ∧ a = b := by
  split at ran
  · next holds => exact ⟨holds,Option.some.inj ran⟩
  · cases ran

theorem Sound.idle (sound : Sound s) (unlocked : s.pc.locks = false) (none : ∀ g ∈ s.sigs, g.locks = false) :
    s.lock = .none := by
  cases lock : s.lock with
  | none => rfl
  | some holder =>
    cases holder with
    | handler =>
      have mine := sound.own.mp lock
      rw [unlocked] at mine
      cases mine
    | signaller i =>
      obtain ⟨g,at_,locks⟩ := (sound.held i).mp lock
      rw [none g (List.mem_of_getElem? at_)] at locks
      cases locks

theorem locksHolds (g : Sig) : g.locks = true → g.holds = true := by
  cases g <;> decide

theorem Sound.last (sound : Sound s) (unlocked : s.pc.locks = false) (alone : s.sigs.countP Sig.holds = 0) :
    s.lock = none := by
  refine sound.idle unlocked fun g mem => ?_
  cases locks : g.locks with
  | false => rfl
  | true => exact absurd (locksHolds g locks) (List.countP_eq_zero.mp alone g mem)

theorem handlerSound {r : Except Fault Sys} (sound : Sound s) (ran : s.handler e = some r) :
    ∃ s', r = .ok s' ∧ Sound s' := by
  cases e with
  | begin =>
    obtain ⟨pc,rfl⟩ := enabled ran
    exact ⟨_,rfl,sound.paces (p := .begun) (by simp [pc,Pc.locks]) (by rw [pc]; rfl) (by rw [pc]; rfl)⟩
  | register =>
    obtain ⟨⟨pc,free⟩,rfl⟩ := enabled ran
    refine usedSound (sound.alive (by rw [pc]; rfl)) ?_
    exact sound.locks .registering (some .handler) (.inl free) rfl (by rw [pc]; rfl) (by rw [pc]; rfl) fun _ _ _ => rfl
  | self =>
    obtain ⟨pc,rfl⟩ := enabled ran
    have live := sound.alive (by rw [pc]; rfl)
    have mine : s.lock = some .handler := sound.own.mpr (by rw [pc]; rfl)
    have func : s.func = true := by rw [sound.func,pc]; rfl
    have on : Sound {s with pc := .within, lock := none} := by
      have moved := sound.locks .within none (.inr mine) rfl (by rw [pc]; rfl) (by rw [pc]; rfl) fun _ _ _ => rfl
      rwa [show ({s with pc := .within, lock := none, func := Pc.within.func} : Sys) =
        {s with pc := .within, lock := none} by
        rw [show Pc.within.func = s.func from func.symm]] at moved
    split
    · refine framedSound false ?_ (usedSound live on)
      rw [sound.frame,pc]
      rfl
    · exact usedSound live on
  | finish =>
    obtain ⟨pc,rfl⟩ := enabled ran
    refine framedSound false (by rw [sound.frame,pc]; rfl) ⟨_,rfl,?_⟩
    exact (sound.paces (p := .finished) (by simp [pc,Pc.locks]) (by rw [pc]; rfl) (by rw [pc]; rfl)).broadcasts
  | withdraw =>
    obtain ⟨⟨pc,free⟩,rfl⟩ := enabled ran
    refine usedSound (sound.alive (by rw [pc]; rfl)) ?_
    refine sound.locks .withdrawing (some .handler) (.inl free) rfl (by rw [pc]; rfl)
      (by rw [pc]; rfl) fun g mem calls => ?_
    -- whoever is in the function has req->lock
    obtain ⟨i,at_⟩ := List.mem_iff_getElem?.mp mem
    refine absurd ⟨g,at_,?_⟩ (sound.unheld (.inl free) i)
    cases g <;> first | rfl | cases calls
  | unlocked =>
    obtain ⟨pc,rfl⟩ := enabled ran
    have mine : s.lock = some .handler := sound.own.mpr (by rw [pc]; rfl)
    have func : s.func = false := by rw [sound.func,pc]; rfl
    refine usedSound (sound.alive (by rw [pc]; rfl)) ?_
    have moved := sound.locks .withdrawn none (.inr mine) rfl (by rw [pc]; rfl) (by rw [pc]; rfl) fun g mem calls => by
      rw [sound.uncalled (by rw [pc]; rfl) g mem] at calls
      cases calls
    rwa [show ({s with pc := .withdrawn, lock := none, func := Pc.withdrawn.func} : Sys) =
      {s with pc := .withdrawn, lock := none} by
      rw [show Pc.withdrawn.func = s.func from func.symm]] at moved
  | leave =>
    obtain ⟨pc,rfl⟩ := enabled ran
    have alone : Sig.waiting ∉ s.sigs := fun mem => by
      have calls := sound.uncalled (by rw [pc]; rfl) _ mem
      cases calls
    rw [if_neg alone]
    exact ⟨_,rfl,sound.paces (p := .left) (by simp [pc,Pc.locks]) (by rw [pc]; rfl) (by rw [pc]; rfl)⟩
  | free =>
    obtain ⟨pc,rfl⟩ := enabled ran
    have refs := sound.refs
    rw [pc,if_pos (show Pc.left.owns = true from rfl)] at refs
    refine Sound.unrefs (t := {s with pc := .freed, func := false, linked := false}) sound.live
      (show 0 < s.refCnt by omega)
      (fun last => sound.last (by rw [pc]; rfl) (by have one : s.refCnt = 1 := last; omega)) fun b => ?_
    refine (eq_or_ne b (decide (0 < s.refCnt - 1))).imp (fun live => ?_) id
    exact {
      frame := by rw [sound.frame,pc]; rfl
      func := rfl
      linked := rfl
      live := live
      refs := by
        change s.refCnt - 1 = 0 + s.sigs.countP Sig.holds
        omega
      own := by
        have mine := sound.own
        rw [pc] at mine
        exact mine
      held := sound.held
      calls := fun g mem calls => by
        rw [sound.uncalled (by rw [pc]; rfl) g mem] at calls
        cases calls }
  | _ => cases ran

theorem Sound.fresh (sound : Sound s) (linked : s.linked = true) :
    Sound {s with refCnt := s.refCnt + 1, sigs := s.sigs ++ [.found]} where
  frame := sound.frame
  func := sound.func
  linked := sound.linked
  live := by
    have owns := sound.linked.symm.trans linked
    exact (sound.alive owns).trans (decide_eq_true (Nat.succ_pos _)).symm
  refs := by
    change s.refCnt + 1 = _ + (s.sigs ++ [Sig.found]).countP Sig.holds
    rw [List.countP_append,sound.refs,Nat.add_assoc]
    rfl
  own := sound.own
  held := by
    intro i
    refine (sound.held i).trans ⟨?_,?_⟩
    · rintro ⟨g,at_,locks⟩
      exact ⟨g,(List.getElem?_append_left (List.getElem?_eq_some_iff.mp at_).1).trans at_,locks⟩
    · rintro ⟨g,at_,locks⟩
      rcases Nat.lt_or_ge i s.sigs.length with inside | beyond
      · rw [List.getElem?_append_left inside] at at_
        exact ⟨g,at_,locks⟩
      · rw [List.getElem?_append_right beyond] at at_
        rw [List.mem_singleton.mp (List.mem_of_getElem? at_)] at locks
        cases locks
  calls := by
    intro g mem calls
    rcases List.mem_append.mp mem with old | new
    · exact sound.calls g old calls
    · rw [List.mem_singleton.mp new] at calls
      cases calls

theorem Sound.framed (sound : Sound s) (at_ : s.sigs[i]? = some g) (calls : g.calls = true) :
    s.frame = some (decide (s.pc = .finished)) ∧ (s.pc = .registering ∨ s.pc = .within ∨ s.pc = .finished) := by
  have func := sound.calls g (List.mem_of_getElem? at_) calls
  rw [sound.frame]
  cases pc : s.pc <;> rw [pc] at func <;> simp [Pc.func] at func <;> simp [Pc.frame]

theorem signallerSound {r : Except Fault Sys} (sound : Sound s) (ran : s.signaller e = some r) :
    ∃ s', r = .ok s' ∧ Sound s' := by
  cases e with
  | find =>
    obtain ⟨linked,rfl⟩ := enabled ran
    exact usedSound (sound.alive (sound.linked.symm.trans linked)) (sound.fresh linked)
  | mark i =>
    obtain ⟨⟨at_,free⟩,rfl⟩ := enabled ran
    refine usedSound (sound.aliveFor at_ rfl) ?_
    have marked : Sound {s with interrupted := true} :=
      ⟨sound.frame,sound.func,sound.linked,sound.live,sound.refs,sound.own,sound.held,sound.calls⟩
    refine marked.signals at_ (.takes free ?_) ?_ ?_
    · split <;> rfl
    · split <;> rfl
    · split
      · next func => exact fun _ => sound.func.symm.trans func
      · exact fun no => by cases no
  | turn i =>
    obtain ⟨at_,rfl⟩ := enabled ran
    obtain ⟨frame,_⟩ := sound.framed at_ rfl
    refine framedSound _ frame ?_
    split
    · exact ⟨_,rfl,sound.signals at_ (.same rfl) rfl fun no => by cases no⟩
    · have counted : Sound {s with kills := s.kills + 1} :=
        ⟨sound.frame,sound.func,sound.linked,sound.live,sound.refs,sound.own,sound.held,sound.calls⟩
      exact ⟨_,rfl,counted.signals at_ (.same rfl) rfl fun _ => sound.calls _ (List.mem_of_getElem? at_) rfl⟩
  | wake i =>
    obtain ⟨at_,rfl⟩ := enabled ran
    obtain ⟨frame,_⟩ := sound.framed at_ rfl
    exact framedSound _ frame
      ⟨_,rfl,sound.signals at_ (.same rfl) rfl fun _ => sound.calls _ (List.mem_of_getElem? at_) rfl⟩
  | unlock i =>
    obtain ⟨at_,rfl⟩ := enabled ran
    exact usedSound (sound.aliveFor at_ rfl) (sound.signals at_ (.gives rfl rfl) rfl fun no => by cases no)
  | drop i =>
    obtain ⟨at_,rfl⟩ := enabled ran
    have refs := sound.refs
    have counted : (s.sigs.set i .done).countP Sig.holds + 1 = s.sigs.countP Sig.holds + 0 :=
      countSet Sig.holds at_ .done
    have others : ∀ j, j ≠ i → (s.sigs.set i .done)[j]? = s.sigs[j]? := fun j other =>
      List.getElem?_set_ne (Ne.symm other)
    have here : (s.sigs.set i .done)[i]? = some .done := List.getElem?_set_self (List.getElem?_eq_some_iff.mp at_).1
    have held : ∀ j, s.lock = some (.signaller j) ↔ ∃ g, (s.sigs.set i .done)[j]? = some g ∧ g.locks = true := by
      intro j
      by_cases same : j = i
      · subst same
        rw [sound.held j,at_,here]
        simp [Sig.locks]
      · rw [others j same]
        exact sound.held j
    have calls : ∀ g ∈ s.sigs.set i .done, g.calls = true → s.pc.func = true := by
      intro g mem yes
      rcases List.mem_or_eq_of_mem_set mem with old | rfl
      · exact sound.calls g old yes
      · cases yes
    refine Sound.unrefs (t := s.move i .done) sound.live (show 0 < s.refCnt by omega) (fun last => ?_) fun b => ?_
    · have one : s.refCnt = 1 := last
      have freed : s.pc = .freed := by
        by_contra still
        rw [if_pos (show s.pc.owns = true from decide_eq_true still)] at refs
        omega
      have none : (s.sigs.set i .done).countP Sig.holds = 0 := by
        rw [freed] at refs
        have owned : s.refCnt = 0 + s.sigs.countP Sig.holds := refs
        omega
      cases lock : s.lock with
      | none => exact lock
      | some holder =>
        cases holder with
        | handler =>
          have mine := sound.own.mp lock
          rw [freed] at mine
          cases mine
        | signaller j =>
          obtain ⟨g,now,locks⟩ := (held j).mp lock
          exact absurd (locksHolds g locks) (List.countP_eq_zero.mp none g (List.mem_of_getElem? now))
    · refine (eq_or_ne b (decide (0 < s.refCnt - 1))).imp (fun live => ?_) id
      exact {
        frame := sound.frame
        func := sound.func
        linked := sound.linked
        live := live
        refs := by
          change s.refCnt - 1 = (if s.pc.owns then 1 else 0) + (s.sigs.set i .done).countP Sig.holds
          omega
        own := sound.own
        held := held
        calls := calls }
  | _ => cases ran

theorem stepSound {r : Except Fault Sys} (sound : Sound s) (ran : s.step e = some r) : ∃ s', r = .ok s' ∧ Sound s' := by
  rcases Option.or_eq_some_iff.mp ran with handler | ⟨_,signaller⟩
  · exact handlerSound sound handler
  · exact signallerSound sound signaller

theorem Reached.sound (reached : Reached s) : Sound s := by
  induction reached with
  | start => exact startSound
  | step _ ran ih =>
    obtain ⟨_,same,sound⟩ := stepSound ih ran
    rw [Except.ok.inj same]
    exact sound

/-! What a step that succeeds has done. -/

theorem usedIs {t : Sys} (ok : s.used t = .ok s') : t = s' := by
  unfold Sys.used at ok
  split at ok
  · exact Except.ok.inj ok
  · cases ok

theorem framedIs {next : Bool → Except Fault Sys} (ok : s.framed next = .ok s') :
    ∃ finished, s.frame = some finished ∧ next finished = .ok s' := by
  unfold Sys.framed at ok
  split at ok
  · cases ok
  · next finished frame => exact ⟨finished,frame,ok⟩

theorem unrefIs (ok : s.unref = .ok s') : s' = {s with refCnt := s.refCnt - 1, live := s'.live} := by
  unfold Sys.unref at ok
  split at ok
  · split at ok
    · split at ok
      · cases ok
        rfl
      · cases ok
    · cases ok
      rfl
  · cases ok

theorem handlerKills (ran : s.handler e = some (.ok s')) : s'.kills = s.kills := by
  cases e with
  | begin =>
    obtain ⟨_,ok⟩ := enabled ran
    cases ok
    rfl
  | register =>
    obtain ⟨_,ok⟩ := enabled ran
    rw [← usedIs ok]
  | self =>
    obtain ⟨_,ok⟩ := enabled ran
    split at ok
    · obtain ⟨_,_,ok⟩ := framedIs ok
      rw [← usedIs ok]
    · rw [← usedIs ok]
  | finish =>
    obtain ⟨_,ok⟩ := enabled ran
    obtain ⟨_,_,ok⟩ := framedIs ok
    cases ok
    rfl
  | withdraw =>
    obtain ⟨_,ok⟩ := enabled ran
    rw [← usedIs ok]
  | unlocked =>
    obtain ⟨_,ok⟩ := enabled ran
    rw [← usedIs ok]
  | leave =>
    obtain ⟨_,ok⟩ := enabled ran
    split at ok
    · cases ok
    · cases ok
      rfl
  | free =>
    obtain ⟨_,ok⟩ := enabled ran
    rw [unrefIs ok]
  | _ => cases ran

theorem Sound.signalled (sound : Sound s) (ran : s.signaller e = some (.ok s')) (more : s'.kills ≠ s.kills) :
    s.pc = .within := by
  cases e with
  | find =>
    obtain ⟨_,ok⟩ := enabled ran
    rw [← usedIs ok] at more
    exact absurd rfl more
  | mark i =>
    obtain ⟨_,ok⟩ := enabled ran
    rw [← usedIs ok] at more
    exact absurd rfl more
  | turn i =>
    obtain ⟨at_,ok⟩ := enabled ran
    obtain ⟨finished,is,ok⟩ := framedIs ok
    obtain ⟨frame,pc⟩ := sound.framed at_ rfl
    rw [frame] at is
    cases is
    -- the signaller has req->lock, so the handler is not registering any more
    have lock := (sound.held i).mpr ⟨.calling,at_,rfl⟩
    rcases pc with registering | within | finished
    · have mine := sound.own.mpr (by rw [registering]; rfl)
      rw [lock] at mine
      cases mine
    · exact within
    · rw [if_pos (by simp [finished])] at ok
      cases ok
      exact absurd rfl more
  | wake i =>
    obtain ⟨_,ok⟩ := enabled ran
    obtain ⟨_,_,ok⟩ := framedIs ok
    cases ok
    exact absurd rfl more
  | unlock i =>
    obtain ⟨_,ok⟩ := enabled ran
    rw [← usedIs ok] at more
    exact absurd rfl more
  | drop i =>
    obtain ⟨_,ok⟩ := enabled ran
    rw [unrefIs ok] at more
    exact absurd rfl more
  | _ => cases ran

def Event.by (i : Nat) : Event → Bool
  | .mark j | .turn j | .wake j | .unlock j | .drop j => j == i
  | _ => false

/- How many steps of its own a thread is away from giving req->lock back, once the flag is set. -/
def Sig.away : Sig → Nat
  | .waiting => 3
  | .calling => 2
  | .leaving => 1
  | _ => 0

def Sys.away (s : Sys) (i : Nat) : Nat := (s.sigs[i]?.map Sig.away).getD 0

theorem Sound.soleOwner (sound : Sound s) (lock : s.lock = some (.signaller i)) {j : Nat}
    (at_ : s.sigs[j]? = some g) (locks : g.locks = true) :
    j = i := by
  have his := (sound.held j).mpr ⟨g,at_,locks⟩
  rw [lock] at his
  cases his
  rfl

theorem Sys.awayAt (at_ : s.sigs[i]? = some g) : s.away i = g.away := by rw [Sys.away,at_]; rfl

theorem Sys.awayMoved (at_ : s.sigs[i]? = some g) (g' : Sig) : (s.move i g').away i = g'.away :=
  Sys.awayAt (List.getElem?_set_self (List.getElem?_eq_some_iff.mp at_).1)

theorem handlerStays (pc : s.pc = .finished) (lock : s.lock = some (.signaller i)) : s.handler e = none := by
  cases e <;> simp [Sys.handler,pc,lock]

theorem Sys.usedOk (live : s.live = true) (t : Sys) : s.used t = .ok t := if_pos live

theorem Sound.goesOn (sound : Sound s) (pc : s.pc = .finished) (lock : s.lock = some (.signaller i)) :
    ∃ e s', e.by i = true ∧ s.step e = some (.ok s') := by
  obtain ⟨g,at_,locks⟩ := (sound.held i).mp lock
  have frame : s.frame = some true := by rw [sound.frame,pc]; rfl
  cases g with
  | calling =>
    refine ⟨.turn i,s.move i .leaving,beq_self_eq_true i,?_⟩
    simp [Sys.step,Sys.handler,Sys.signaller,at_,Sys.framed,frame]
  | waiting =>
    refine ⟨.wake i,s.move i .calling,beq_self_eq_true i,?_⟩
    simp [Sys.step,Sys.handler,Sys.signaller,at_,Sys.framed,frame]
  | leaving =>
    refine ⟨.unlock i,{s.move i .dropping with lock := none},beq_self_eq_true i,?_⟩
    simp [Sys.step,Sys.handler,Sys.signaller,at_,Sys.usedOk (sound.aliveFor at_ rfl)]
  | _ => cases locks

/- Every step of that signaller brings it nearer to giving the lock back, no other step moves it,
and nobody else gets the lock meanwhile. -/
theorem Sound.nearer (sound : Sound s) (pc : s.pc = .finished) (lock : s.lock = some (.signaller i))
    (ran : s.step e = some (.ok s')) :
    s'.pc = .finished ∧ if e.by i then s'.away i < s.away i ∧ (s'.lock = s.lock ∨ s'.lock = none)
      else s'.away i = s.away i ∧ s'.lock = s.lock := by
  obtain ⟨g,mine,locks⟩ := (sound.held i).mp lock
  have frame : s.frame = some true := by rw [sound.frame,pc]; rfl
  rw [Sys.step,handlerStays pc lock,Option.none_or] at ran
  cases e with
  | find =>
    obtain ⟨_,ok⟩ := enabled ran
    rw [← usedIs ok]
    refine ⟨pc,?_,rfl⟩
    change ((s.sigs ++ [Sig.found])[i]?.map Sig.away).getD 0 = _
    rw [List.getElem?_append_left (List.getElem?_eq_some_iff.mp mine).1]
    rfl
  | mark j =>
    obtain ⟨⟨_,free⟩,_⟩ := enabled ran
    rw [lock] at free
    cases free
  | turn j =>
    obtain ⟨at_,ok⟩ := enabled ran
    obtain ⟨finished,is,ok⟩ := framedIs ok
    rw [frame] at is
    cases is
    have same := sound.soleOwner lock at_ rfl
    subst same
    cases ok
    refine ⟨pc,?_⟩
    rw [if_pos (show (Event.turn j).by j = true from beq_self_eq_true j),if_pos rfl,Sys.awayMoved at_,Sys.awayAt at_]
    exact ⟨by decide,.inl rfl⟩
  | wake j =>
    obtain ⟨at_,ok⟩ := enabled ran
    obtain ⟨_,_,ok⟩ := framedIs ok
    have same := sound.soleOwner lock at_ rfl
    subst same
    cases ok
    refine ⟨pc,?_⟩
    rw [if_pos (show (Event.wake j).by j = true from beq_self_eq_true j),Sys.awayMoved at_,Sys.awayAt at_]
    exact ⟨by decide,.inl rfl⟩
  | unlock j =>
    obtain ⟨at_,ok⟩ := enabled ran
    have same := sound.soleOwner lock at_ rfl
    subst same
    rw [← usedIs ok]
    refine ⟨pc,?_⟩
    rw [if_pos (show (Event.unlock j).by j = true from beq_self_eq_true j)]
    refine ⟨?_,.inr rfl⟩
    change (s.move j .dropping).away j < _
    rw [Sys.awayMoved at_,Sys.awayAt at_]
    decide
  | drop j =>
    obtain ⟨at_,ok⟩ := enabled ran
    have other : j ≠ i := by
      rintro rfl
      rw [mine] at at_
      cases at_
      cases locks
    rw [unrefIs ok]
    refine ⟨pc,?_⟩
    rw [if_neg (show ¬ (Event.drop j).by i = true from fun same => other (beq_iff_eq.mp same))]
    refine ⟨?_,rfl⟩
    change ((s.sigs.set j .done)[i]?.map Sig.away).getD 0 = _
    rw [List.getElem?_set_ne other]
    rfl
  | _ => cases ran

def Sys.steps : Sys → List Event → Option Sys
  | s, [] => some s
  | s, e :: es => match s.step e with
    | some (.ok s) => s.steps es
    | _ => none

/- A run that starts while a signaller has the lock that the handler waits for: the signaller still
has it, and every step of its own has brought it nearer to the end, or it has given it back. -/
theorem Sound.givesBack {es : List Event} (sound : Sound s) (pc : s.pc = .finished)
    (lock : s.lock = some (.signaller i)) (ran : s.steps es = some s') :
    (s'.pc = .finished ∧ s'.lock = some (.signaller i) ∧ es.countP (Event.by i) + s'.away i ≤ s.away i) ∨
      ∃ before after t, es = before ++ after ∧ s.steps before = some t ∧ t.pc = .finished ∧ t.lock = none ∧
        before.countP (Event.by i) ≤ s.away i := by
  induction es generalizing s with
  | nil =>
    cases ran
    exact .inl ⟨pc,lock,by simp⟩
  | cons e es ih =>
    unfold Sys.steps at ran
    split at ran
    · next t step =>
      obtain ⟨finished,closer⟩ := sound.nearer pc lock step
      have one : [e].countP (Event.by i) ≤ s.away i - t.away i ∧ t.away i ≤ s.away i ∧
          (t.lock = s.lock ∨ t.lock = none) := by
        rw [List.countP_singleton]
        split at closer
        · next own => exact ⟨by rw [if_pos own]; omega,Nat.le_of_lt closer.1,closer.2⟩
        · next other => exact ⟨by rw [if_neg other]; omega,Nat.le_of_eq closer.1,.inl closer.2⟩
      obtain ⟨count,less,same | free⟩ := one
      · obtain ⟨_,ok,soundAfter⟩ := stepSound sound step
        cases ok
        rcases ih soundAfter finished
          (same.trans lock) ran with ⟨pc',lock',left⟩ | ⟨before,after,u,split,reaches,pc',free,few⟩
        · refine .inl ⟨pc',lock',?_⟩
          rw [← List.singleton_append,List.countP_append]
          omega
        · refine .inr ⟨e :: before,after,u,by rw [split,List.cons_append],?_,pc',free,?_⟩
          · rw [Sys.steps,step]
            exact reaches
          · rw [← List.singleton_append,List.countP_append]
            omega
      · refine .inr ⟨[e],es,t,rfl,?_,finished,free,by omega⟩
        rw [Sys.steps,step]
        rfl
    · cases ran

theorem stepsReached {es : List Event} (reached : Reached s) (ran : s.steps es = some s') : Reached s' := by
  induction es generalizing s with
  | nil =>
    cases ran
    exact reached
  | cons e es ih =>
    unfold Sys.steps at ran
    split at ran
    · next t step => exact ih (.step reached step) ran
    · cases ran

def interrupted : List Event := [.begin,.register,.self,.find,.find,.mark 0,.turn 0]

end FuseStudy.SignalFrames
