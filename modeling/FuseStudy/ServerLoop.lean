import FuseStudy.CString
import Mathlib.Data.List.Perm.Subperm

/-! main of server/server.c, which waits for sockets with epoll and hands each request to a
detached thread, and the threads. The loop keeps the last accepted socket in client_sock and
gives every thread the address of one thread_arg. -/
namespace FuseStudy.ServerLoop
open CString (Bytes)

structure Request where
  fd : Nat
  opcode : Nat
  path : Bytes
  deriving DecidableEq, Repr

/- thread_arg; event is the fd in its epoll_event. epfd never changes. -/
structure ThreadArg where
  opcode : Nat
  path : Bytes
  clientSock : Nat
  event : Nat
  deriving DecidableEq, Repr

/- A thread copies the fields of thread_arg one by one before it serves the request. -/
inductive Stage where
  | clientSock
  | opcode (clientSock : Nat)
  | event (clientSock opcode : Nat)
  | path (clientSock opcode event : Nat)
  | serving (request : Request) (event : Nat)
  deriving DecidableEq, Repr

structure Worker where
  request : Request
  stage : Stage
  deriving DecidableEq, Repr

inductive Event where
  | server
  | client (fd : Nat)
  deriving DecidableEq, Repr

/- batch []: about to wait. dead: the process is gone. -/
inductive Loop where
  | batch (events : List Event)
  | path (fd opcode : Nat) (sent : Bool) (events : List Event)
  | store (request : Request) (events : List Event)
  | unregister (request : Request) (events : List Event)
  | create (request : Request) (events : List Event)
  | dead
  deriving DecidableEq, Repr

/- epoll: each registered socket with the fd its events carry. connected: the clients that
have not gone. received and executed: what clients have sent, and what threads have begun to
serve. -/
structure State where
  loop : Loop
  clientSock : Option Nat
  arg : ThreadArg
  sockets : List Nat
  epoll : List (Nat × Nat)
  workers : List Worker
  connected : List Nat
  received : List Request
  executed : List Request
  deriving DecidableEq, Repr

def State.start (arg : ThreadArg) : State := ⟨.batch [],none,arg,[],[],[],[],[],[]⟩

def register (epoll : List (Nat × Nat)) (fd event : Nat) : List (Nat × Nat) :=
  if fd ∈ epoll.map Prod.fst then epoll else epoll ++ [(fd,event)]

def unregister (epoll : List (Nat × Nat)) (fd : Nat) : List (Nat × Nat) := epoll.filter (fun e => e.1 ≠ fd)

/- close takes a socket out of the epoll set as well. -/
def State.close (s : State) : State :=
  match s.clientSock with
  | some fd => {s with sockets := s.sockets.filter (fun x => x ≠ fd), epoll := unregister s.epoll fd}
  | none => s

/- The kernel closes what a process leaves open, and its threads end with it. -/
def State.die (s : State) : State := {s with loop := .dead, sockets := [], epoll := [], workers := []}

def clientFds (events : List Event) : List Nat :=
  events.filterMap (fun e => match e with
    | .server => none
    | .client fd => some fd)

/- gone: bound_read returns 0 at the end of a connection; zero: or because a packet's size
is 0. failed: it returns -1, and what pkt holds is taken for an opcode. cut: the connection
ends before the path is there, and what pkt holds is taken for it. sent and unsent: a thread
writes to its client, and bound_send's result is not looked at. broken: the client has gone
away, and nothing keeps the SIGPIPE of the write from the process. fault: fuse_study_read or
fuse_study_write goes on with the FILE of a file that does not open. -/
inductive Act where
  | wait (events : List Event)
  | accept (fd : Nat)
  | gone
  | zero
  | opcode (opcode : Nat)
  | failed (opcode : Nat)
  | path (path : Bytes)
  | cut (path : Bytes)
  | store
  | unregister
  | create
  | copy (i : Nat)
  | sent (i : Nat)
  | unsent (i : Nat)
  | broken (i : Nat)
  | fault (i : Nat)
  | finish (i : Nat)

def Stage.copy (arg : ThreadArg) : Stage → Option Stage
  | .clientSock => some (.opcode arg.clientSock)
  | .opcode sock => some (.event sock arg.opcode)
  | .event sock code => some (.path sock code arg.event)
  | .path sock code data => some (.serving ⟨sock,code,arg.path⟩ data)
  | .serving .. => none

def Stage.begun : Stage → List Request
  | .serving request _ => [request]
  | _ => []

def State.serving (s : State) (i : Nat) : Option Request :=
  match s.workers[i]? with
  | some w =>
    match w.stage with
    | .serving request _ => some request
    | _ => none
  | none => none

def State.step (s : State) : Act → Option State
  | .wait events =>
    match s.loop with
    | .batch [] =>
      if (clientFds events).Subperm (s.epoll.map Prod.snd) then some {s with loop := .batch events} else none
    | _ => none
  | .accept fd =>
    match s.loop with
    | .batch (.server :: events) =>
      if fd ∈ s.sockets then none
      else some {s with
        loop := .batch events
        clientSock := some fd
        sockets := fd :: s.sockets
        connected := fd :: s.connected
        epoll := register s.epoll fd fd}
    | _ => none
  | .gone =>
    match s.loop with
    | .batch (.client fd :: events) =>
      some {s.close with loop := .batch events, connected := s.connected.filter (fun x => x ≠ fd)}
    | _ => none
  | .zero =>
    match s.loop with
    | .batch (.client _ :: events) => some {s.close with loop := .batch events}
    | _ => none
  | .opcode opcode =>
    match s.loop with
    | .batch (.client fd :: events) =>
      some {s with loop := .path fd opcode true events, arg := {s.arg with opcode := opcode}}
    | _ => none
  | .failed opcode =>
    match s.loop with
    | .batch (.client fd :: events) =>
      some {s with loop := .path fd opcode false events, arg := {s.arg with opcode := opcode}}
    | _ => none
  | .path path =>
    match s.loop with
    | .path fd opcode sent events =>
      some {s with
        loop := .store ⟨fd,opcode,path⟩ events
        arg := {s.arg with path := path}
        received := if sent then s.received ++ [⟨fd,opcode,path⟩] else s.received}
    | _ => none
  | .cut path =>
    match s.loop with
    | .path fd opcode _ events =>
      some {s with loop := .store ⟨fd,opcode,path⟩ events, arg := {s.arg with path := path}}
    | _ => none
  | .store =>
    match s.loop with
    | .store r events =>
      some {s with loop := .unregister r events, arg := {s.arg with clientSock := r.fd, event := r.fd}}
    | _ => none
  | .unregister =>
    match s.loop with
    | .unregister r events =>
      some {s with
        loop := .create r events
        epoll := match s.clientSock with
          | some fd => ServerLoop.unregister s.epoll fd
          | none => s.epoll}
    | _ => none
  | .create =>
    match s.loop with
    | .create r events => some {s with loop := .batch events, workers := s.workers ++ [⟨r,.clientSock⟩]}
    | _ => none
  | .copy i =>
    match s.workers[i]? with
    | some w =>
      match w.stage.copy s.arg with
      | some stage =>
        some {s with workers := s.workers.set i ⟨w.request,stage⟩, executed := s.executed ++ stage.begun}
      | none => none
    | none => none
  | .sent i => (s.serving i).map (fun _ => s)
  | .unsent i => (s.serving i).map (fun _ => s)
  | .broken i => (s.serving i).map (fun request =>
    {s.die with connected := s.connected.filter (fun x => x ≠ request.fd)})
  | .fault i => (s.serving i).map (fun _ => s.die)
  | .finish i =>
    match s.workers[i]? with
    | some w =>
      match w.stage with
      | .serving request event =>
        some {s with
          workers := s.workers.eraseIdx i
          epoll := if request.fd ∈ s.sockets then register s.epoll request.fd event else s.epoll}
      | _ => none
    | none => none

def State.run : State → List Act → Option State
  | s,[] => some s
  | s,act :: acts => (s.step act).bind (fun s => s.run acts)

/- The request the loop is about to create a thread for, once its socket is unregistered. -/
def Loop.hand : Loop → List Request
  | .create r _ => [r]
  | _ => []

def Loop.held : Loop → List Request
  | .store r _ => [r]
  | .unregister r _ => [r]
  | .create r _ => [r]
  | _ => []

def Stage.copying : Stage → Bool
  | .serving .. => false
  | _ => true

def Worker.pending (w : Worker) : List Request := if w.stage.copying then [w.request] else []

def Loop.events : Loop → List Event
  | .batch events => events
  | .path _ _ _ events => events
  | .store _ events => events
  | .unregister _ events => events
  | .create _ events => events
  | .dead => []

def Loop.reads : Loop → List Nat
  | .path fd _ _ events => fd :: clientFds events
  | loop => clientFds loop.events

/- Each socket has one owner, and each request one thread. -/
structure Owned (s : State) : Prop where
  apart : ∀ w ∈ s.workers, w.request.fd ∉ s.epoll.map Prod.fst ∧ w.request.fd ∉ s.loop.reads
  alone : (s.workers.map (fun w => w.request.fd)).Nodup
  sockets : ∀ fd, fd ∈ s.sockets ↔ fd ∈ s.connected
  watched : ∀ fd ∈ s.sockets, fd ∈ s.epoll.map Prod.fst ∨ (∃ w ∈ s.workers, w.request.fd = fd) ∨
    ∃ r ∈ s.loop.hand, r.fd = fd
  served : s.received.Perm (s.executed ++ (s.workers.flatMap Worker.pending ++ s.loop.held))
  own : ∀ w ∈ s.workers, ∀ r event, w.stage = .serving r event → r = w.request ∧ event = r.fd

/- The client whose event the loop turns to next. -/
def Loop.told : Loop → Option Nat
  | .batch (.client fd :: _) => some fd
  | _ => none

/- What the loop is told about is the socket accepted last, and no thread is still copying
when thread_arg is written again; no thread ends the process. -/
def Meets (s : State) : Act → Prop
  | .gone => s.loop.told ≠ none ∧ s.clientSock = s.loop.told
  | .zero => False
  | .opcode _ => (s.loop.told ≠ none ∧ s.clientSock = s.loop.told) ∧ ∀ w ∈ s.workers, w.stage.copying = false
  | .failed _ => False
  | .cut _ => False
  | .broken _ => False
  | .fault _ => False
  | _ => True
instance (s : State) (act : Act) : Decidable (Meets s act) := by
  cases act <;> unfold Meets <;> infer_instance

def Follows : State → List Act → Prop
  | _,[] => True
  | s,act :: acts => Meets s act ∧ match s.step act with
    | some s' => Follows s' acts
    | none => True

instance decidableFollows (s : State) (acts : List Act) : Decidable (Follows s acts) :=
  match acts with
  | [] => isTrue trivial
  | act :: acts =>
    have : Decidable (match s.step act with
        | some s' => Follows s' acts
        | none => True) :=
      match s.step act with
      | some s' => decidableFollows s' acts
      | none => isTrue trivial
    inferInstanceAs (Decidable (_ ∧ _))

theorem toldHead {loop : Loop} {fd : Nat} (told : loop.told = some fd) :
    ∃ events, loop = .batch (.client fd :: events) := by
  cases loop with
  | batch events =>
    cases events with
    | nil => cases told
    | cons event events =>
      cases event with
      | server => cases told
      | client x =>
        cases told
        exact ⟨events,rfl⟩
  | _ => cases told

/-! What holds in every state of a run whose steps meet the condition. -/

def ThreadArg.For (arg : ThreadArg) (r : Request) : Prop := arg = ⟨r.opcode,r.path,r.fd,r.fd⟩

/- The socket whose request the loop has begun to read and that is still registered. -/
def Loop.current : Loop → Option Nat
  | .path fd _ _ _ => some fd
  | .store r _ => some r.fd
  | .unregister r _ => some r.fd
  | _ => none

def Loop.Waits : Loop → Prop
  | .batch _ => True
  | _ => False

def ThreadArg.Fits (arg : ThreadArg) : Loop → Prop
  | .batch _ => True
  | .path _ opcode sent _ => arg.opcode = opcode ∧ sent = true
  | .store r _ => arg.opcode = r.opcode ∧ arg.path = r.path
  | .unregister r _ => arg.For r
  | .create r _ => arg.For r
  | .dead => True

def Stage.Agrees (r : Request) : Stage → Prop
  | .clientSock => True
  | .opcode sock => sock = r.fd
  | .event sock code => sock = r.fd ∧ code = r.opcode
  | .path sock code data => sock = r.fd ∧ code = r.opcode ∧ data = r.fd
  | .serving q data => q = r ∧ data = r.fd

def keys (s : State) : List Nat := s.epoll.map Prod.fst

def workerFds (s : State) : List Nat := s.workers.map (fun w => w.request.fd)

structure Sound (s : State) : Prop where
  same : s.connected = s.sockets
  nodup : s.sockets.Nodup
  places : (keys s ++ (workerFds s ++ s.loop.hand.map Request.fd)).Perm s.sockets
  events : ∀ e ∈ s.epoll, e.2 = e.1
  once : (clientFds s.loop.events).Nodup
  known : ∀ fd ∈ clientFds s.loop.events, fd ∈ keys s
  current : ∀ fd, s.loop.current = some fd → s.clientSock = some fd ∧ fd ∈ keys s ∧ fd ∉ clientFds s.loop.events
  quiet : ¬ s.loop.Waits → ∀ w ∈ s.workers, w.stage.copying = false
  fits : s.arg.Fits s.loop
  copies : ∀ w ∈ s.workers, w.stage.Agrees w.request ∧ (w.stage.copying = true → s.arg.For w.request)
  served : s.received.Perm (s.executed ++ (s.workers.flatMap Worker.pending ++ s.loop.held))

theorem startSound (arg : ThreadArg) : Sound (State.start arg) := by
  constructor <;> simp [State.start,keys,workerFds,Loop.hand,Loop.events,clientFds,Loop.current,Loop.Waits,Loop.held,
    ThreadArg.Fits]

namespace Sound

variable {s s' : State}

theorem allNodup (sound : Sound s) : (keys s ++ (workerFds s ++ s.loop.hand.map Request.fd)).Nodup :=
  sound.places.nodup_iff.mpr sound.nodup

theorem keysNodup (sound : Sound s) : (keys s).Nodup := (List.nodup_append.mp sound.allNodup).1

theorem workerApart (sound : Sound s) {fd : Nat} (watched : fd ∈ keys s) :
    fd ∉ workerFds s ∧ fd ∉ s.loop.hand.map Request.fd := by
  have apart := (List.nodup_append.mp sound.allNodup).2.2 fd watched
  exact ⟨fun served => apart fd (List.mem_append_left _ served) rfl,
    fun held => apart fd (List.mem_append_right _ held) rfl⟩

theorem owned (sound : Sound s) : Owned s where
  apart := by
    intro w inside
    have served : w.request.fd ∈ workerFds s := List.mem_map_of_mem inside
    have off : w.request.fd ∉ keys s := fun watched => (sound.workerApart watched).1 served
    refine ⟨off,?_⟩
    intro read
    cases loop : s.loop with
    | path fd code sent events =>
      rw [loop] at read
      rcases List.mem_cons.mp read with rfl | later
      · exact off (sound.current _ (by rw [loop]; rfl)).2.1
      · exact off (sound.known _ (by rw [loop]; exact later))
    | _ =>
      rw [loop] at read
      exact off (sound.known _ (by rw [loop]; exact read))
  alone := (List.nodup_append.mp (List.nodup_append.mp sound.allNodup).2.1).1
  sockets := by
    intro fd
    rw [sound.same]
  watched := by
    intro fd inside
    have placed := sound.places.mem_iff.mpr inside
    simp only [List.mem_append,List.mem_map,workerFds] at placed
    exact placed
  served := sound.served
  own := by
    intro w inside r event serving
    have agrees := (sound.copies w inside).1
    rw [serving] at agrees
    obtain ⟨rfl,same⟩ := agrees
    exact ⟨rfl,same⟩

/-! One lemma for each step. -/

theorem waits (sound : Sound s) {events : List Event} (loop : s.loop = .batch [])
    (told : (clientFds events).Subperm (s.epoll.map Prod.snd)) : Sound {s with loop := .batch events} := by
  have same : s.epoll.map Prod.snd = keys s := List.map_congr_left sound.events
  have sub := told
  rw [same] at sub
  obtain ⟨l,perm,within⟩ := sub
  have once := perm.nodup_iff.mp (sound.keysNodup.sublist within)
  have known (fd : Nat) (inside : fd ∈ clientFds events) : fd ∈ keys s := same ▸ told.subset inside
  have places := sound.places
  have served := sound.served
  rw [loop] at places served
  exact {
    same := sound.same, nodup := sound.nodup, places := places, events := sound.events, once := once, known := known
    current := by simp [Loop.current], quiet := by simp [Loop.Waits], fits := trivial, copies := sound.copies
    served := served }

theorem keysUnregister (epoll : List (Nat × Nat)) (fd : Nat) :
    (unregister epoll fd).map Prod.fst = (epoll.map Prod.fst).filter (fun x => x ≠ fd) := by
  rw [unregister,List.filter_map]
  rfl

theorem keysRegister {epoll : List (Nat × Nat)} {fd event : Nat} (free : fd ∉ epoll.map Prod.fst) :
    register epoll fd event = epoll ++ [(fd,event)] := if_neg free

theorem accepts (sound : Sound s) {fd : Nat} {events : List Event} (loop : s.loop = .batch (.server :: events))
    (free : fd ∉ s.sockets) :
    Sound {s with
      loop := .batch events
      clientSock := some fd
      sockets := fd :: s.sockets
      connected := fd :: s.connected
      epoll := register s.epoll fd fd} := by
  have off : fd ∉ s.epoll.map Prod.fst := by
    intro watched
    exact free (sound.places.subset (List.mem_append_left _ watched))
  rw [keysRegister off]
  have places := sound.places
  have served := sound.served
  have once := sound.once
  have known := sound.known
  rw [loop] at places served once known
  exact {
    same := congrArg (fd :: ·) sound.same
    nodup := List.nodup_cons.mpr ⟨free,sound.nodup⟩
    places := by
      simp only [keys,List.map_append,List.map_cons,List.map_nil,List.append_assoc]
      refine List.perm_middle.trans ?_
      exact List.Perm.cons fd places
    events := by
      intro e inside
      rcases List.mem_append.mp inside with old | new
      · exact sound.events e old
      · rw [List.mem_singleton.mp new]
    once := once
    known := by
      intro x inside
      simp only [keys,List.map_append]
      exact List.mem_append_left _ (known x inside)
    current := by simp [Loop.current]
    quiet := by simp [Loop.Waits]
    fits := trivial
    copies := sound.copies
    served := served }

theorem goes (sound : Sound s) {fd : Nat} {events : List Event} (loop : s.loop = .batch (.client fd :: events))
    (last : s.clientSock = some fd) :
    Sound {s.close with loop := .batch events, connected := s.connected.filter (fun x => x ≠ fd)} := by
  have places := sound.places
  have served := sound.served
  have once := sound.once
  have known := sound.known
  rw [loop] at places served once known
  simp only [Loop.events,clientFds] at once known
  have watched := known fd List.mem_cons_self
  have off := (List.nodup_cons.mp once).1
  have apart := (sound.workerApart watched).1
  simp only [State.close,last]
  have kept : (unregister s.epoll fd).map Prod.fst = (keys s).filter (fun x => x ≠ fd) := keysUnregister s.epoll fd
  have workers : (workerFds s).filter (fun x => x ≠ fd) = workerFds s := by
    rw [List.filter_eq_self]
    intro x inside
    exact decide_eq_true (fun eq => apart (eq ▸ inside))
  exact {
    same := by
      simp only [sound.same]
    nodup := sound.nodup.filter _
    places := by
      have filtered := places.filter (fun x => x ≠ fd)
      rw [List.filter_append] at filtered
      simp only [Loop.hand,List.map_nil,List.append_nil,workers] at filtered
      simp only [keys,kept,Loop.hand,List.map_nil,List.append_nil]
      exact filtered
    events := fun e inside => sound.events e (List.mem_of_mem_filter inside)
    once := (List.nodup_cons.mp once).2
    known := by
      intro x inside
      simp only [keys,kept]
      refine List.mem_filter.mpr ⟨known x (List.mem_cons_of_mem _ inside),?_⟩
      exact decide_eq_true (fun eq => off (eq ▸ inside))
    current := by simp [Loop.current]
    quiet := by simp [Loop.Waits]
    fits := trivial
    copies := sound.copies
    served := served }

theorem copied (quiet : ∀ w ∈ s.workers, w.stage.copying = false) (sound : Sound s) {arg : ThreadArg} :
    ∀ w ∈ s.workers, w.stage.Agrees w.request ∧ (w.stage.copying = true → arg.For w.request) := by
  intro w inside
  refine ⟨(sound.copies w inside).1,?_⟩
  intro copying
  cases (quiet w inside).symm.trans copying

theorem readsOpcode (sound : Sound s) {fd opcode : Nat} {events : List Event}
    (loop : s.loop = .batch (.client fd :: events)) (last : s.clientSock = some fd)
    (quiet : ∀ w ∈ s.workers, w.stage.copying = false) :
    Sound {s with loop := .path fd opcode true events, arg := {s.arg with opcode := opcode}} := by
  have places := sound.places
  have served := sound.served
  have once := sound.once
  have known := sound.known
  rw [loop] at places served once known
  simp only [Loop.events,clientFds] at once known
  have watched := known fd List.mem_cons_self
  have off := (List.nodup_cons.mp once).1
  exact {
    same := sound.same, nodup := sound.nodup, places := places, events := sound.events
    once := (List.nodup_cons.mp once).2
    known := fun x inside => known x (List.mem_cons_of_mem _ inside)
    current := by
      intro x now
      cases Option.some.inj now
      exact ⟨last,watched,off⟩
    quiet := fun _ => quiet
    fits := ⟨rfl,rfl⟩
    copies := copied quiet sound
    served := served }

theorem readsPath (sound : Sound s) {fd opcode : Nat} {sent : Bool} {path : Bytes} {events : List Event}
    (loop : s.loop = .path fd opcode sent events) :
    Sound {s with
      loop := .store ⟨fd,opcode,path⟩ events
      arg := {s.arg with path := path}
      received := if sent then s.received ++ [⟨fd,opcode,path⟩] else s.received} := by
  have places := sound.places
  have served := sound.served
  have once := sound.once
  have known := sound.known
  have current := sound.current
  have fits := sound.fits
  have quiet := sound.quiet (by simp [loop,Loop.Waits])
  rw [loop] at places served once known current fits
  obtain ⟨code,true⟩ := fits
  subst true
  exact {
    same := sound.same, nodup := sound.nodup, places := places, events := sound.events, once := once, known := known
    current := current
    quiet := fun _ => quiet
    fits := ⟨code,rfl⟩
    copies := copied quiet sound
    served := by
      simp only [Loop.held,List.append_nil] at served
      simp only [if_true,Loop.held]
      rw [← List.append_assoc]
      exact served.append_right _ }

theorem stores (sound : Sound s) {r : Request} {events : List Event} (loop : s.loop = .store r events) :
    Sound {s with loop := .unregister r events, arg := {s.arg with clientSock := r.fd, event := r.fd}} := by
  have places := sound.places
  have served := sound.served
  have once := sound.once
  have known := sound.known
  have current := sound.current
  have fits := sound.fits
  have quiet := sound.quiet (by simp [loop,Loop.Waits])
  rw [loop] at places served once known current fits
  exact {
    same := sound.same, nodup := sound.nodup, places := places, events := sound.events, once := once, known := known
    current := current
    quiet := fun _ => quiet
    fits := by
      obtain ⟨code,path⟩ := fits
      simp only [ThreadArg.Fits,ThreadArg.For,code,path]
    copies := copied quiet sound
    served := served }

theorem unregisters (sound : Sound s) {r : Request} {events : List Event} (loop : s.loop = .unregister r events) :
    Sound {s with
      loop := .create r events
      epoll := match s.clientSock with
        | some fd => FuseStudy.ServerLoop.unregister s.epoll fd
        | none => s.epoll} := by
  have places := sound.places
  have served := sound.served
  have once := sound.once
  have known := sound.known
  have fits := sound.fits
  have quiet := sound.quiet (by simp [loop,Loop.Waits])
  obtain ⟨last,watched,off⟩ := sound.current r.fd (by rw [loop]; rfl)
  rw [loop] at places served once known fits off
  have kept : (FuseStudy.ServerLoop.unregister s.epoll r.fd).map Prod.fst = (keys s).filter (fun x => x ≠ r.fd) :=
    keysUnregister s.epoll r.fd
  have moved : (keys s).Perm (r.fd :: (keys s).filter (fun x => x ≠ r.fd)) := by
    have erased := sound.keysNodup.erase_eq_filter r.fd
    have same : (keys s).filter (fun x => x ≠ r.fd) = (keys s).erase r.fd := by
      rw [erased]
      exact List.filter_congr (fun x _ => by by_cases eq : x = r.fd <;> simp [eq])
    rw [same]
    exact List.perm_cons_erase watched
  simp only [last]
  exact {
    same := sound.same
    nodup := sound.nodup
    places := by
      simp only [Loop.hand,List.map_nil,List.append_nil] at places
      simp only [keys,kept,Loop.hand,List.map_cons,List.map_nil]
      refine List.Perm.trans ?_ places
      refine List.Perm.trans ?_ (moved.symm.append_right _)
      rw [List.cons_append,← List.append_assoc]
      exact List.perm_append_singleton _ _
    events := fun e inside => sound.events e (List.mem_of_mem_filter inside)
    once := once
    known := by
      intro x inside
      simp only [keys,kept]
      refine List.mem_filter.mpr ⟨known x inside,?_⟩
      exact decide_eq_true (fun eq => off (eq ▸ inside))
    current := by simp [Loop.current]
    quiet := fun _ => quiet
    fits := fits
    copies := sound.copies
    served := served }

theorem creates (sound : Sound s) {r : Request} {events : List Event} (loop : s.loop = .create r events) :
    Sound {s with loop := .batch events, workers := s.workers ++ [⟨r,.clientSock⟩]} := by
  have places := sound.places
  have served := sound.served
  have once := sound.once
  have known := sound.known
  have fits := sound.fits
  rw [loop] at places served once known fits
  exact {
    same := sound.same
    nodup := sound.nodup
    places := by
      simp only [workerFds,List.map_append,List.map_cons,List.map_nil,Loop.hand,List.append_nil]
      exact places
    events := sound.events
    once := once
    known := known
    current := by simp [Loop.current]
    quiet := by simp [Loop.Waits]
    fits := trivial
    copies := by
      intro w inside
      rcases List.mem_append.mp inside with old | new
      · exact sound.copies w old
      · rw [List.mem_singleton.mp new]
        exact ⟨trivial,fun _ => fits⟩
    served := by
      simp only [List.flatMap_append,List.flatMap_singleton,Loop.held,List.append_nil]
      exact served }

theorem workerAt {workers : List Worker} {i : Nat} {w : Worker} (at_ : workers[i]? = some w) :
    ∃ front back, workers = front ++ w :: back ∧ (∀ w', workers.set i w' = front ++ w' :: back) ∧
      workers.eraseIdx i = front ++ back := by
  induction workers generalizing i with
  | nil => cases at_
  | cons first rest ih =>
    cases i with
    | zero =>
      cases Option.some.inj at_
      exact ⟨[],rest,rfl,fun _ => rfl,rfl⟩
    | succ i =>
      obtain ⟨front,back,whole,set,erase⟩ := ih at_
      refine ⟨first :: front,back,by rw [whole]; rfl,?_,?_⟩
      · intro w'
        rw [List.set_cons_succ,set w',List.cons_append]
      · rw [List.eraseIdx_cons_succ,erase,List.cons_append]

theorem copySource {arg : ThreadArg} {r : Request} {stage stage' : Stage} (copy : stage.copy arg = some stage')
    (agrees : stage.Agrees r) (own : arg.For r) : stage'.Agrees r ∧ stage.copying = true ∧ stage.begun = [] ∧
      (stage'.begun = [] ∧ stage'.copying = true ∨ stage'.begun = [r] ∧ stage'.copying = false) := by
  subst own
  cases stage with
  | clientSock =>
    cases Option.some.inj copy
    exact ⟨rfl,rfl,rfl,.inl ⟨rfl,rfl⟩⟩
  | opcode sock =>
    cases Option.some.inj copy
    exact ⟨⟨agrees,rfl⟩,rfl,rfl,.inl ⟨rfl,rfl⟩⟩
  | event sock code =>
    cases Option.some.inj copy
    exact ⟨⟨agrees.1,agrees.2,rfl⟩,rfl,rfl,.inl ⟨rfl,rfl⟩⟩
  | path sock code data =>
    cases Option.some.inj copy
    obtain ⟨rfl,rfl,rfl⟩ := agrees
    exact ⟨⟨rfl,rfl⟩,rfl,rfl,.inr ⟨rfl,rfl⟩⟩
  | serving q data => cases copy

theorem copyCopying {arg : ThreadArg} {stage stage' : Stage} (copy : stage.copy arg = some stage') :
    stage.copying = true := by
  cases stage <;> first | rfl | cases copy

theorem copyStep (sound : Sound s) {i : Nat} {w : Worker} {stage : Stage} (at_ : s.workers[i]? = some w)
    (copy : w.stage.copy s.arg = some stage) :
    Sound {s with workers := s.workers.set i ⟨w.request,stage⟩, executed := s.executed ++ stage.begun} := by
  obtain ⟨front,back,whole,set,-⟩ := workerAt at_
  have inside : w ∈ s.workers := List.mem_of_getElem? at_
  obtain ⟨agrees,own⟩ := sound.copies w inside
  have copying := copyCopying copy
  obtain ⟨agrees',-,-,progress⟩ := copySource copy agrees (own copying)
  have waits : s.loop.Waits := by
    by_contra busy
    cases copying.symm.trans (sound.quiet busy w inside)
  have fds : ((s.workers.set i ⟨w.request,stage⟩).map fun w => w.request.fd) = workerFds s := by
    rw [set,workerFds,whole]
    simp
  have served := sound.served
  rw [whole] at served
  exact {
    same := sound.same
    nodup := sound.nodup
    places := by
      have places := sound.places
      rw [← fds] at places
      exact places
    events := sound.events, once := sound.once, known := sound.known, current := sound.current
    quiet := fun busy => absurd waits busy
    fits := sound.fits
    copies := by
      intro v mem
      simp only [set] at mem
      rcases List.mem_append.mp mem with before | now
      · exact sound.copies v (by rw [whole]; exact List.mem_append_left _ before)
      · rcases List.mem_cons.mp now with rfl | after
        · exact ⟨agrees',fun _ => own copying⟩
        · exact sound.copies v (by rw [whole]; exact List.mem_append_right _ (List.mem_cons_of_mem _ after))
    served := by
      simp only [set]
      simp only [List.flatMap_append,List.flatMap_cons,Worker.pending,copying,if_true] at served ⊢
      rcases progress with ⟨begun,still⟩ | ⟨begun,done⟩
      · simp only [begun,still,if_true,List.append_nil]
        exact served
      · simp only [begun,done,Bool.false_eq_true,if_false,List.nil_append,List.append_assoc] at served ⊢
        refine served.trans (List.Perm.append_left _ ?_)
        exact List.perm_middle }

theorem finishStep (sound : Sound s) {i : Nat} {w : Worker} {r : Request} {event : Nat}
    (at_ : s.workers[i]? = some w) (stage : w.stage = .serving r event) :
    Sound {s with
      workers := s.workers.eraseIdx i
      epoll := if r.fd ∈ s.sockets then register s.epoll r.fd event else s.epoll} := by
  obtain ⟨front,back,whole,-,erase⟩ := workerAt at_
  have inside : w ∈ s.workers := List.mem_of_getElem? at_
  have agrees := (sound.copies w inside).1
  rw [stage] at agrees
  obtain ⟨rfl,rfl⟩ := agrees
  have served : w.request.fd ∈ workerFds s := List.mem_map_of_mem inside
  have isOpen : w.request.fd ∈ s.sockets :=
    sound.places.subset (List.mem_append_right _ (List.mem_append_left _ served))
  have off : w.request.fd ∉ s.epoll.map Prod.fst := fun watched => (sound.workerApart watched).1 served
  have rest (v : Worker) (mem : v ∈ front ++ back) : v ∈ s.workers := by
    rw [whole]
    rcases List.mem_append.mp mem with before | after
    · exact List.mem_append_left _ before
    · exact List.mem_append_right _ (List.mem_cons_of_mem _ after)
  rw [if_pos isOpen,keysRegister off,erase]
  exact {
    same := sound.same
    nodup := sound.nodup
    places := by
      have places := sound.places
      simp only [workerFds,whole,List.map_append,List.map_cons,keys] at places
      simp only [keys,workerFds,List.map_append,List.map_cons,List.map_nil]
      refine List.Perm.trans ?_ places
      rw [List.append_assoc]
      refine List.Perm.append_left _ ?_
      simp only [List.append_assoc,List.cons_append,List.nil_append]
      exact List.perm_middle.symm
    events := by
      intro e mem
      rcases List.mem_append.mp mem with old | new
      · exact sound.events e old
      · rw [List.mem_singleton.mp new]
    once := sound.once
    known := by
      intro x mem
      simp only [keys,List.map_append]
      exact List.mem_append_left _ (sound.known x mem)
    current := by
      intro x now
      obtain ⟨last,watched,apart⟩ := sound.current x now
      simp only [keys,List.map_append]
      exact ⟨last,List.mem_append_left _ watched,apart⟩
    quiet := fun busy v mem => sound.quiet busy v (rest v mem)
    fits := sound.fits
    copies := fun v mem => sound.copies v (rest v mem)
    served := by
      have served := sound.served
      simp only [whole,List.flatMap_append,List.flatMap_cons,Worker.pending,stage,Stage.copying,Bool.false_eq_true,
        if_false,List.nil_append] at served
      simp only [List.flatMap_append]
      exact served }

theorem step (sound : Sound s) {act : Act} (meets : Meets s act) (step : s.step act = some s') : Sound s' := by
  cases act with
  | wait events =>
    simp only [State.step] at step
    split at step <;> try contradiction
    rename_i loop
    split at step <;> try contradiction
    rename_i told
    cases Option.some.inj step
    exact sound.waits loop told
  | accept fd =>
    simp only [State.step] at step
    split at step <;> try contradiction
    rename_i loop
    split at step <;> try contradiction
    rename_i free
    cases Option.some.inj step
    exact sound.accepts loop free
  | gone =>
    obtain ⟨fd,told⟩ := Option.ne_none_iff_exists'.mp meets.1
    obtain ⟨events,loop⟩ := toldHead told
    have last := meets.2.trans told
    simp only [State.step,loop] at step
    cases Option.some.inj step
    exact sound.goes loop last
  | zero => exact meets.elim
  | opcode code =>
    obtain ⟨fd,told⟩ := Option.ne_none_iff_exists'.mp meets.1.1
    obtain ⟨events,loop⟩ := toldHead told
    have last := meets.1.2.trans told
    simp only [State.step,loop] at step
    cases Option.some.inj step
    exact sound.readsOpcode loop last meets.2
  | failed code => exact meets.elim
  | path path =>
    simp only [State.step] at step
    split at step <;> try contradiction
    rename_i loop
    cases Option.some.inj step
    exact sound.readsPath loop
  | cut path => exact meets.elim
  | store =>
    simp only [State.step] at step
    split at step <;> try contradiction
    rename_i loop
    cases Option.some.inj step
    exact sound.stores loop
  | unregister =>
    simp only [State.step] at step
    split at step <;> try contradiction
    rename_i loop
    cases Option.some.inj step
    exact sound.unregisters loop
  | create =>
    simp only [State.step] at step
    split at step <;> try contradiction
    rename_i loop
    cases Option.some.inj step
    exact sound.creates loop
  | copy i =>
    simp only [State.step] at step
    split at step <;> try contradiction
    rename_i w at_
    split at step <;> try contradiction
    rename_i stage copy
    cases Option.some.inj step
    exact sound.copyStep at_ copy
  | sent i =>
    obtain ⟨request,-,same⟩ := Option.map_eq_some_iff.mp step
    exact same ▸ sound
  | unsent i =>
    obtain ⟨request,-,same⟩ := Option.map_eq_some_iff.mp step
    exact same ▸ sound
  | broken i => exact meets.elim
  | fault i => exact meets.elim
  | finish i =>
    simp only [State.step] at step
    split at step <;> try contradiction
    rename_i w at_
    split at step <;> try contradiction
    rename_i r event stage
    cases Option.some.inj step
    exact sound.finishStep at_ stage

theorem run (sound : Sound s) {acts : List Act} (follows : Follows s acts) (ran : s.run acts = some s') : Sound s' := by
  induction acts generalizing s with
  | nil =>
    cases Option.some.inj ran
    exact sound
  | cons act acts ih =>
    obtain ⟨mid,stepped,rest⟩ := Option.bind_eq_some_iff.mp ran
    obtain ⟨meets,later⟩ := follows
    rw [stepped] at later
    exact ih (sound.step meets stepped) later rest

end Sound

def unsetArg : ThreadArg := ⟨0,[],0,0⟩

def oneClient : List Act :=
  [.wait [.server],.accept 4,.wait [.client 4],.opcode 1,.path [97],.store,.unregister,.create,.copy 0,.copy 0,.copy 0,
    .copy 0,.finish 0]

def oneServed : State :=
  ⟨.batch [],some 4,⟨1,[97],4,4⟩,[4],[(4,4)],[],[4],[⟨4,1,[97]⟩],[⟨4,1,[97]⟩]⟩

/- The second client is only accepted, then the first one asks. -/
def twoClients : List Act :=
  [.wait [.server],.accept 4,.wait [.server],.accept 5,.wait [.client 4],.opcode 1,.path [97],.store,
    .unregister,.create]

/- The client accepted last asks and goes away; the write to it takes the other one's socket too. -/
def goesUnanswered : List Act :=
  [.wait [.server],.accept 4,.wait [.server],.accept 5,.wait [.client 5],.opcode 1,.path [97],.store,.unregister,
    .create,.copy 0,.copy 0,.copy 0,.copy 0,.unsent 0,.broken 0]

example : ((State.start unsetArg).run goesUnanswered).map (fun s => (s.connected,s.sockets)) = some ([4],[]) := by
  decide

end FuseStudy.ServerLoop
