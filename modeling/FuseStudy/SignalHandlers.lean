import Mathlib.Logic.Function.Basic
import Mathlib.Data.List.Basic
import Mathlib.Tactic.Common

/-! lib/fuse_signals.c: the handlers that sessions share with each other and with their program. -/
namespace FuseStudy.SignalHandlers

inductive Handler
  | sigDfl
  | sigIgn
  | exitHandler
  | exitBacktrace
  | doNothing
  | user (n : Nat)
  deriving DecidableEq, Repr

def teardownSigs : List Nat := [1,2,15]

def ignoreSigs : List Nat := [13]

def failSigs : List Nat := [4,5,6,7,8,11]

structure Calls where
  get : Nat → Bool
  set : Nat → Bool

structure Process where
  handlers : Nat → Handler
  fuseInstance : Option Nat
  exited : Nat → Bool
  error : Nat → Int

def setOneSignalHandler (c : Calls) (sig : Nat) (handler : Handler) (remove : Bool) (h : Nat → Handler) :
    Bool × (Nat → Handler) :=
  if c.get sig = false then (false,h)
  else if h sig = if remove then handler else .sigDfl then
    if c.set sig then (true,Function.update h sig (if remove then .sigDfl else handler)) else (false,h)
  else (true,h)

/- `_fuse_set_signal_handlers`. -/
def setEach (c : Calls) (handler : Handler) : List Nat → (Nat → Handler) → Bool × (Nat → Handler)
  | [],h => (true,h)
  | sig::signals,h =>
    let (ok,h) := setOneSignalHandler c sig handler false h
    if ok then setEach c handler signals h else (false,h)

def fuseSetSignalHandlers (c : Calls) (se : Nat) (p : Process) : Int × Process :=
  let (ok,h) := setEach c .exitHandler teardownSigs p.handlers
  if ok then
    let (ok,h) := setEach c .doNothing ignoreSigs h
    if ok then (0,{p with handlers := h, fuseInstance := some se}) else (-1,{p with handlers := h})
  else (-1,{p with handlers := h})

def fuseSetFailSignalHandlers (c : Calls) (se : Nat) (p : Process) : Int × Process :=
  let (ok,h) := setEach c .exitBacktrace failSigs p.handlers
  if ok then (0,{p with handlers := h, fuseInstance := some se}) else (-1,{p with handlers := h})

/- `_fuse_remove_signal_handlers`. -/
def removeEach (c : Calls) (handler : Handler) (signals : List Nat) (h : Nat → Handler) : Nat → Handler :=
  signals.foldl (fun h sig => (setOneSignalHandler c sig handler true h).2) h

def fuseRemoveSignalHandlers (c : Calls) (se : Nat) (p : Process) : Process :=
  {p with
    fuseInstance := if p.fuseInstance = some se then none else p.fuseInstance
    handlers := removeEach c .exitBacktrace failSigs
      (removeEach c .doNothing ignoreSigs (removeEach c .exitHandler teardownSigs p.handlers))}

def exitWith (se : Nat) (sig : Nat) (p : Process) : Process :=
  {p with exited := Function.update p.exited se true, error := Function.update p.error se sig}

/- A signal handler that reaches for a session after fuse_session_destroy. -/
inductive Fault
  | destroyed
  deriving DecidableEq

/- Beside the process: the handlers that the program itself wants, the sessions that have set handlers and
not removed them since, those that were not destroyed yet, and whether the process has aborted. -/
structure Sys where
  process : Process
  own : Nat → Handler
  armed : Nat → Bool
  alive : Nat → Bool
  aborted : Bool

def ours (sig : Nat) : Option Handler :=
  if sig ∈ teardownSigs then some .exitHandler
  else if sig ∈ ignoreSigs then some .doNothing
  else if sig ∈ failSigs then some .exitBacktrace
  else none

def Handler.library : Handler → Bool
  | .exitHandler | .exitBacktrace | .doNothing => true
  | _ => false

inductive Event
  | set (se : Nat) (c : Calls)
  | setFail (se : Nat) (c : Calls)
  | remove (se : Nat) (c : Calls)
  | sigaction (sig : Nat) (handler : Handler)
  | deliver (sig : Nat) (c : Calls)
  | destroy (se : Nat)

/- The program sets handlers of its own, or puts one of the library back that it had taken out. It destroys
a session after it removed its handlers. -/
def Sys.step (s : Sys) : Event → Option (Except Fault Sys)
  | .set se c =>
    if s.alive se = true ∧ s.aborted = false then
      let (rc,p) := fuseSetSignalHandlers c se s.process
      some (.ok {s with process := p, armed := if rc < 0 then s.armed else Function.update s.armed se true})
    else none
  | .setFail se c =>
    if s.alive se = true ∧ s.aborted = false then
      let (rc,p) := fuseSetFailSignalHandlers c se s.process
      some (.ok {s with process := p, armed := if rc < 0 then s.armed else Function.update s.armed se true})
    else none
  | .remove se c =>
    if s.alive se = true ∧ s.aborted = false then
      some (.ok {s with process := fuseRemoveSignalHandlers c se s.process, armed := Function.update s.armed se false})
    else none
  | .sigaction sig handler =>
    if (ours sig = some handler ∨ handler.library = false) ∧ s.aborted = false then
      some (.ok {s with
        process := {s.process with handlers := Function.update s.process.handlers sig handler}
        own := Function.update s.own sig (if handler.library then .sigDfl else handler)})
    else none
  | .deliver sig c =>
    if s.aborted = false then
      match s.process.handlers sig,s.process.fuseInstance with
      | .exitHandler,some se =>
          some (if s.alive se then .ok {s with process := exitWith se sig s.process} else .error .destroyed)
      | .exitBacktrace,some se =>
        some (if s.alive se then
          .ok {s with
            process := fuseRemoveSignalHandlers c se {s.process with exited := Function.update s.process.exited se true}
            aborted := true}
        else .error .destroyed)
      | _,_ => some (.ok s)
    else none
  | .destroy se =>
    if s.alive se = true ∧ s.armed se = false ∧
      s.aborted = false then some (.ok {s with alive := Function.update s.alive se false}) else none

/- No handler of the library is there at first. -/
inductive Reached : Sys → Prop
  | start {s : Sys} (plain : ∀ sig, (s.own sig).library = false) (handlers : s.process.handlers = s.own)
      (none' : s.process.fuseInstance = none) : Reached s
  | step {s t : Sys} {e : Event} (before : Reached s) (ran : s.step e = some (.ok t)) : Reached t

/-! What the program wants stays, or is the default and the library has its own handler there. -/

variable {c : Calls} {h own : Nat → Handler} {sig : Nat} {handler : Handler} {signals : List Nat} {se : Nat} {s t : Sys}

structure Shared (own h : Nat → Handler) : Prop where
  plain : ∀ sig, (own sig).library = false
  each : ∀ sig, h sig = own sig ∨ own sig = .sigDfl ∧ ours sig = some (h sig)

theorem oursLibrary (mine : ours sig = some handler) : handler.library = true := by
  unfold ours at mine
  split at mine
  · cases mine
    rfl
  · split at mine
    · cases mine
      rfl
    · split at mine
      · cases mine
        rfl
      · cases mine

inductive Exchanged (sig : Nat) (handler : Handler) (remove : Bool) (h : Nat → Handler) : (Nat → Handler) → Prop
  | same : Exchanged sig handler remove h h
  | set (off : remove = false) (free : h sig = .sigDfl) : Exchanged sig handler remove h (Function.update h sig handler)
  | removed (on : remove = true) (mine : h sig = handler) :
      Exchanged sig handler remove h (Function.update h sig .sigDfl)

theorem exchanged (c : Calls) (sig : Nat) (handler : Handler) (remove : Bool) (h : Nat → Handler) :
    Exchanged sig handler remove h (setOneSignalHandler c sig handler remove h).2 := by
  unfold setOneSignalHandler
  by_cases got : c.get sig = false
  · rw [if_pos got]
    exact .same
  · rw [if_neg got]
    by_cases old : h sig = if remove then handler else .sigDfl
    · rw [if_pos old]
      by_cases done : c.set sig = true
      · rw [if_pos done]
        cases remove with
        | true => exact .removed rfl old
        | false => exact .set rfl old
      · rw [if_neg done]
        exact .same
    · rw [if_neg old]
      exact .same

theorem Shared.one {h' : Nat → Handler} {remove : Bool} (shared : Shared own h) (mine : ours sig = some handler)
    (did : Exchanged sig handler remove h h') : Shared own h' := by
  have others : ∀ {new : Handler} x, x ≠ sig →
      Function.update h sig new x = own x ∨ own x = .sigDfl ∧ ours x = some (Function.update h sig new x) := by
    intro new x other
    rw [Function.update_of_ne other]
    exact shared.each x
  cases did with
  | same => exact shared
  | set off free =>
    refine ⟨shared.plain,fun x => ?_⟩
    by_cases here : x = sig
    · subst here
      rw [Function.update_self]
      cases shared.each x with
      | inl own' => exact .inr ⟨own'.symm.trans free,mine⟩
      | inr both => exact .inr ⟨both.1,mine⟩
    · exact others x here
  | removed on taken =>
    refine ⟨shared.plain,fun x => ?_⟩
    by_cases here : x = sig
    · subst here
      rw [Function.update_self]
      cases shared.each x with
      | inl own' =>
        -- a handler of the library is not what the program wants
        have library := oursLibrary mine
        rw [← taken,own',shared.plain x] at library
        cases library
      | inr both => exact .inl both.1.symm
    · exact others x here

theorem Shared.setEach (shared : Shared own h) (mine : ∀ sig ∈ signals, ours sig = some handler) :
    Shared own (SignalHandlers.setEach c handler signals h).2 := by
  induction signals generalizing h with
  | nil => exact shared
  | cons sig signals ih =>
    have first := shared.one (mine sig List.mem_cons_self) (exchanged c sig handler false h)
    rw [SignalHandlers.setEach]
    generalize setOneSignalHandler c sig handler false h = did at first
    obtain ⟨ok,h'⟩ := did
    cases ok with
    | true => exact ih first fun later mem => mine later (List.mem_cons_of_mem _ mem)
    | false => exact first

theorem Shared.removeEach (shared : Shared own h) (mine : ∀ sig ∈ signals, ours sig = some handler) :
    Shared own (SignalHandlers.removeEach c handler signals h) := by
  induction signals generalizing h with
  | nil => exact shared
  | cons sig signals ih =>
    exact ih (shared.one (mine sig List.mem_cons_self) (exchanged c sig handler true h)) fun later mem =>
      mine later (List.mem_cons_of_mem _ mem)

theorem teardownOurs : ∀ sig ∈ teardownSigs, ours sig = some .exitHandler := by decide

theorem ignoreOurs : ∀ sig ∈ ignoreSigs, ours sig = some .doNothing := by decide

theorem failOurs : ∀ sig ∈ failSigs, ours sig = some .exitBacktrace := by decide

theorem Shared.removed {p : Process} (shared : Shared own p.handlers) (se : Nat) :
    Shared own (fuseRemoveSignalHandlers c se p).handlers :=
  ((shared.removeEach teardownOurs).removeEach ignoreOurs).removeEach failOurs

theorem removeOne (get : c.get sig = true) (set : c.set sig = true) : (setOneSignalHandler c sig handler true h).2 =
    Function.update h sig (if h sig = handler then .sigDfl else h sig) := by
  unfold setOneSignalHandler
  rw [if_neg (by rw [get]; exact Bool.noConfusion)]
  by_cases mine : h sig = handler
  · rw [if_pos mine,if_pos (by rw [if_pos rfl]; exact mine),if_pos set]
    rfl
  · rw [if_neg mine,if_neg (by rw [if_pos rfl]; exact mine),Function.update_eq_self]

theorem removeAll (works : ∀ sig, c.get sig = true ∧ c.set sig = true) (library : handler.library = true) (x : Nat) :
    SignalHandlers.removeEach c handler signals h x = if x ∈ signals ∧ h x = handler then .sigDfl else h x := by
  induction signals generalizing h with
  | nil => simp [SignalHandlers.removeEach]
  | cons sig signals ih =>
    have step : SignalHandlers.removeEach c handler (sig :: signals) h =
        SignalHandlers.removeEach c handler signals (setOneSignalHandler c sig handler true h).2 := rfl
    have default : Handler.sigDfl ≠ handler := by
      rintro rfl
      cases library
    rw [step,ih,removeOne (works sig).1 (works sig).2]
    by_cases here : x = sig
    · subst here
      by_cases mine : h x = handler <;> simp [mine,default]
    · simp [here]

/- A signal is at the default afterwards, or the handler there was not the one to remove. -/
theorem removeLeaves (works : ∀ sig, c.get sig = true ∧ c.set sig = true) (handler : Handler) (signals : List Nat)
    (library : handler.library = true) (x : Nat) :
    SignalHandlers.removeEach c handler signals h x = .sigDfl ∨
      SignalHandlers.removeEach c handler signals h x = h x ∧ ¬(x ∈ signals ∧ h x = handler) := by
  rw [removeAll works library x]
  split
  · exact .inl rfl
  · next other => exact .inr ⟨rfl,other⟩

theorem oursSignals (mine : ours sig = some handler) : sig ∈ teardownSigs ∧ handler = .exitHandler ∨
    sig ∈ ignoreSigs ∧ handler = .doNothing ∨ sig ∈ failSigs ∧ handler = .exitBacktrace := by
  unfold ours at mine
  split at mine
  · next inside =>
    cases mine
    exact .inl ⟨inside,rfl⟩
  · split at mine
    · next inside =>
      cases mine
      exact .inr (.inl ⟨inside,rfl⟩)
    · split at mine
      · next inside =>
        cases mine
        exact .inr (.inr ⟨inside,rfl⟩)
      · cases mine

theorem Shared.restored {p : Process} (shared : Shared own p.handlers)
    (works : ∀ sig, c.get sig = true ∧ c.set sig = true) :
    (fuseRemoveSignalHandlers c se p).handlers = own := by
  have after := shared.removed (c := c) se
  funext x
  cases after.each x with
  | inl own' => exact own'
  | inr both =>
    have library := oursLibrary both.2
    have undone : (fuseRemoveSignalHandlers c se p).handlers x ≠ .sigDfl := fun same => by
      rw [same] at library
      cases library
    -- What is there after each of the three lists was there before.
    obtain third | ⟨third,notFail⟩ := removeLeaves works .exitBacktrace failSigs
      (h := SignalHandlers.removeEach c .doNothing ignoreSigs
        (SignalHandlers.removeEach c .exitHandler teardownSigs p.handlers)) rfl x
    · exact absurd third undone
    obtain second | ⟨second,notIgnore⟩ := removeLeaves works .doNothing ignoreSigs
      (h := SignalHandlers.removeEach c .exitHandler teardownSigs p.handlers) rfl x
    · exact absurd (third.trans second) undone
    obtain first | ⟨first,notTeardown⟩ := removeLeaves works .exitHandler teardownSigs (h := p.handlers) rfl x
    · exact absurd (third.trans (second.trans first)) undone
    have same : (fuseRemoveSignalHandlers c se p).handlers x = p.handlers x := third.trans (second.trans first)
    rw [same] at both
    obtain ⟨inside,is'⟩ | ⟨inside,is'⟩ | ⟨inside,is'⟩ := oursSignals both.2
    · exact absurd ⟨inside,is'⟩ notTeardown
    · exact absurd ⟨inside,first.trans is'⟩ notIgnore
    · exact absurd ⟨inside,(second.trans first).trans is'⟩ notFail

/-! Whole runs. -/

structure Sound (s : Sys) : Prop where
  shared : Shared s.own s.process.handlers
  last : ∀ se, s.process.fuseInstance = some se → s.alive se = true ∧ s.armed se = true

theorem setShared {p : Process} (shared : Shared own p.handlers) (se : Nat) :
    Shared own (fuseSetSignalHandlers c se p).2.handlers := by
  have first := shared.setEach (c := c) teardownOurs
  unfold fuseSetSignalHandlers
  generalize setEach c .exitHandler teardownSigs p.handlers = did at first
  obtain ⟨ok,h'⟩ := did
  cases ok with
  | false => exact first
  | true =>
    have second := first.setEach (c := c) ignoreOurs
    dsimp only at second ⊢
    generalize setEach c .doNothing ignoreSigs h' = did' at second
    obtain ⟨ok',h''⟩ := did'
    cases ok' <;> exact second

theorem setFailShared {p : Process} (shared : Shared own p.handlers) (se : Nat) :
    Shared own (fuseSetFailSignalHandlers c se p).2.handlers := by
  have first := shared.setEach (c := c) failOurs
  unfold fuseSetFailSignalHandlers
  generalize setEach c .exitBacktrace failSigs p.handlers = did at first
  obtain ⟨ok,h'⟩ := did
  cases ok <;> exact first

theorem setInstance (c : Calls) (se : Nat) (p : Process) :
    ((fuseSetSignalHandlers c se p).1 < 0 ∧ (fuseSetSignalHandlers c se p).2.fuseInstance = p.fuseInstance) ∨
      ((fuseSetSignalHandlers c se p).1 = 0 ∧ (fuseSetSignalHandlers c se p).2.fuseInstance = some se) := by
  unfold fuseSetSignalHandlers
  generalize setEach c .exitHandler teardownSigs p.handlers = did
  obtain ⟨ok,h'⟩ := did
  cases ok with
  | false => exact .inl ⟨Int.negSucc_lt_zero 0,rfl⟩
  | true =>
    dsimp only
    generalize setEach c .doNothing ignoreSigs h' = did'
    obtain ⟨ok',h''⟩ := did'
    cases ok' with
    | false => exact .inl ⟨Int.negSucc_lt_zero 0,rfl⟩
    | true => exact .inr ⟨rfl,rfl⟩

theorem setFailInstance (c : Calls) (se : Nat) (p : Process) :
    ((fuseSetFailSignalHandlers c se p).1 < 0 ∧ (fuseSetFailSignalHandlers c se p).2.fuseInstance = p.fuseInstance) ∨
      ((fuseSetFailSignalHandlers c se p).1 = 0 ∧ (fuseSetFailSignalHandlers c se p).2.fuseInstance = some se) := by
  unfold fuseSetFailSignalHandlers
  generalize setEach c .exitBacktrace failSigs p.handlers = did
  obtain ⟨ok,h'⟩ := did
  cases ok with
  | false => exact .inl ⟨Int.negSucc_lt_zero 0,rfl⟩
  | true => exact .inr ⟨rfl,rfl⟩

theorem Sound.set {rc : Int} {p : Process} (sound : Sound s) (alive : s.alive se = true)
    (shared : Shared s.own p.handlers)
    (noted : rc < 0 ∧ p.fuseInstance = s.process.fuseInstance ∨ rc = 0 ∧ p.fuseInstance = some se) :
    Sound {s with process := p, armed := if rc < 0 then s.armed else Function.update s.armed se true} := by
  refine ⟨shared,fun x last => ?_⟩
  obtain ⟨failed,kept⟩ | ⟨done,now⟩ := noted
  · rw [if_pos failed]
    exact sound.last x (kept.symm.trans last)
  · have same : se = x := Option.some.inj (now.symm.trans last)
    subst same
    rw [if_neg (by omega)]
    exact ⟨alive,Function.update_self ..⟩

theorem Sound.step {e : Event} {r : Except Fault Sys} (sound : Sound s) (ran : s.step e = some r) :
    ∃ t, r = .ok t ∧ Sound t := by
  cases e with
  | set se c =>
    simp only [Sys.step] at ran
    split at ran
    · next both =>
      cases ran
      exact ⟨_,rfl,sound.set both.1 (setShared sound.shared se) (setInstance c se s.process)⟩
    · cases ran
  | setFail se c =>
    simp only [Sys.step] at ran
    split at ran
    · next both =>
      cases ran
      exact ⟨_,rfl,sound.set both.1 (setFailShared sound.shared se) (setFailInstance c se s.process)⟩
    · cases ran
  | remove se c =>
    simp only [Sys.step] at ran
    split at ran
    · cases ran
      refine ⟨_,rfl,sound.shared.removed se,fun x last => ?_⟩
      simp only [fuseRemoveSignalHandlers] at last
      split at last
      · cases last
      · next other =>
        have before := sound.last x last
        have apart : x ≠ se := by
          rintro rfl
          exact other last
        exact ⟨before.1,by dsimp only; rw [Function.update_of_ne apart]; exact before.2⟩
    · cases ran
  | sigaction sig handler =>
    simp only [Sys.step] at ran
    split at ran
    · next allowed =>
      cases ran
      refine ⟨_,rfl,⟨fun x => ?_,fun x => ?_⟩,sound.last⟩
      · by_cases here : x = sig
        · subst here
          dsimp only
          rw [Function.update_self]
          cases library : handler.library with
          | true => rfl
          | false => exact library
        · dsimp only
          rw [Function.update_of_ne here]
          exact sound.shared.plain x
      · by_cases here : x = sig
        · subst here
          dsimp only
          rw [Function.update_self,Function.update_self]
          cases library : handler.library with
          | true =>
            obtain mine | foreign := allowed.1
            · exact .inr ⟨rfl,mine⟩
            · rw [library] at foreign
              cases foreign
          | false => exact .inl rfl
        · dsimp only
          rw [Function.update_of_ne here,Function.update_of_ne here]
          exact sound.shared.each x
    · cases ran
  | deliver sig c =>
    simp only [Sys.step] at ran
    split at ran
    · split at ran
      · next se handler last =>
        rw [if_pos (sound.last se last).1] at ran
        cases ran
        exact ⟨_,rfl,sound.shared,sound.last⟩
      · next se handler last =>
        rw [if_pos (sound.last se last).1] at ran
        cases ran
        refine ⟨_,rfl,
          sound.shared.removed (p := {s.process with exited := Function.update s.process.exited se true}) se,
          fun x last' => ?_⟩
        simp only [fuseRemoveSignalHandlers,if_pos last] at last'
        cases last'
      · cases ran
        exact ⟨s,rfl,sound⟩
    · cases ran
  | destroy se =>
    simp only [Sys.step] at ran
    split at ran
    · next allowed =>
      cases ran
      refine ⟨_,rfl,sound.shared,fun x last => ?_⟩
      obtain ⟨alive,armed⟩ := sound.last x last
      have apart : x ≠ se := by
        rintro rfl
        rw [allowed.2.1] at armed
        cases armed
      exact ⟨by dsimp only; rw [Function.update_of_ne apart]; exact alive,armed⟩
    · cases ran

theorem reachedSound (reached : Reached s) : Sound s := by
  induction reached with
  | start plain handlers none' =>
    refine ⟨⟨plain,fun sig => .inl (by rw [handlers])⟩,fun se last => ?_⟩
    rw [none'] at last
    cases last
  | step before ran ih =>
    obtain ⟨t,same,sound⟩ := ih.step ran
    cases same
    exact sound

/- In any run of sessions that set and remove handlers, of a program that sets its own, and of signals:
a signal never reaches for a session that was destroyed; every signal has the handler that the program
wants, or the default is wanted and the library's is there; and where a removal does not fail, the program
has all its handlers back, whichever session set or removed them. -/
theorem signalsRestored (reached : Reached s) : (∀ e f, s.step e ≠ some (.error f)) ∧
    (∀ sig, s.process.handlers sig = s.own sig ∨ s.own sig = .sigDfl ∧ ours sig = some (s.process.handlers sig)) ∧
    ∀ se c t, (∀ sig, c.get sig = true ∧ c.set sig = true) → s.step (.remove se c) = some (.ok t) →
      t.process.handlers = t.own := by
  have sound := reachedSound reached
  refine ⟨?_,sound.shared.each,?_⟩
  · intro e f fails
    obtain ⟨t,same,_⟩ := sound.step fails
    cases same
  · intro se c t works ran
    simp only [Sys.step] at ran
    split at ran
    · cases ran
      exact sound.shared.restored works
    · cases ran

def willing : Calls := ⟨fun _ => true,fun _ => true⟩

/- A program with a handler of its own for SIGTERM and two sessions: the second ends the first one's handlers. -/
theorem twoSessionsRestore : ∃ s t, Reached s ∧ s.process.handlers 1 = .exitHandler ∧ s.process.handlers 15 = .user 3 ∧
    s.process.exited 1 = true ∧ s.step (.remove 0 willing) = some (.ok t) ∧ t.process.handlers = t.own := by
  have start : Reached ⟨⟨Function.update (fun _ => .sigDfl) 15 (.user 3),none,fun _ => false,fun _ => 0⟩,
      Function.update (fun _ => .sigDfl) 15 (.user 3),fun _ => false,fun _ => true,false⟩ := by
    refine .start (fun sig => ?_) rfl rfl
    by_cases here : sig = 15
    · subst here
      rfl
    · dsimp only
      rw [Function.update_of_ne here]
      rfl
  have first := start.step (e := .set 0 willing) rfl
  have second := first.step (e := .set 1 willing) rfl
  have third := second.step (e := .deliver 1 willing) rfl
  refine ⟨_,_,third,rfl,rfl,rfl,rfl,?_⟩
  exact (signalsRestored third).2.2 0 willing _ (fun _ => ⟨rfl,rfl⟩) rfl

end FuseStudy.SignalHandlers
