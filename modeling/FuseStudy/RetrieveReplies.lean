import FuseStudy.ListHeads
import Mathlib.Tactic.Common

/-! Asking the kernel for data and its answers, in any number of threads. A call registers its
request in the notify list before it asks, and takes it out again when the kernel refuses; else
the thread that reads the answer does. se->lock is held within one step only. The links of a
request are named by their address. -/
namespace FuseStudy.RetrieveReplies
open ListHeads

inductive Fault
  -- a block is used after free, or the search goes round for ever
  | freed | diverges
  deriving DecidableEq

/- A thread in fuse_lowlevel_notify_retrieve: with a block of its own, with the block on the list,
about to ask under a number, refused, and with the block off the list again. -/
inductive Call
  | allocated (rreq cookie : Nat)
  | registered (rreq : Nat)
  | sending (rreq unique : Nat)
  | failed (rreq : Nat)
  | dropped (rreq : Nat)
  | done
  deriving DecidableEq

/- A thread with a NOTIFY_REPLY: before and after its search, and after the user has it. -/
inductive Reply
  | received (unique : Nat)
  | matched (rreq unique : Nat)
  | told (rreq : Nat)
  | done
  deriving DecidableEq

structure Sys where
  mem : Memory
  -- the blocks that are allocated, with their fields
  live : List Nat
  unique : Nat → Nat
  cookie : Nat → Nat
  notifyCtr : Nat
  calls : List Call
  -- what the kernel has taken and not answered
  asked : List Nat
  replies : List Reply
  -- the record of the run: numbers with their cookies, and what became of each
  registered : List (Nat × Nat)
  rejected : List Nat
  taken : List Nat
  given : List (Nat × Nat)
  short : List Nat
  -- answers that never came to do_notify_reply
  lost : List Nat

def notifyList : Nat := 0

inductive Event
  | alloc (rreq cookie : Nat)
  | register (k : Nat)
  | number (k : Nat)
  | accept (k : Nat)
  | refuse (k : Nat)
  | unlink (k : Nat)
  | free (k : Nat)
  | answer (unique : Nat)
  | lose (unique : Nat)
  | search (k : Nat)
  | tell (k : Nat) (enough : Bool)
  | release (k : Nat)
  deriving DecidableEq

def start : Sys := ⟨initListHead (fun _ => 0) notifyList,[],fun _ => 0,fun _ => 0,1,[],[],[],[],[],[],[],[],[]⟩

def Sys.used (s : Sys) (cells : List Nat) (t : Sys) : Except Fault Sys :=
  if ∀ a ∈ cells, a = notifyList ∨ a ∈ s.live then .ok t else .error .freed

def listDelNreq (mem : Memory) (nreq : Nat) : Memory :=
  let prev := mem (nreq + 8)
  let next := mem nreq
  let mem := setNext mem prev next
  setPrev mem next prev

def listAddNreq (mem : Memory) (nreq next : Nat) : Memory :=
  let prev := mem (next + 8)
  let mem := setNext mem nreq next
  let mem := setPrev mem nreq prev
  let mem := setNext mem prev nreq
  setPrev mem next nreq

def Sys.unlinks (s : Sys) (nreq : Nat) (t : Sys) : Except Fault Sys :=
  s.used [nreq,s.mem (nreq + 8),s.mem nreq] {t with mem := listDelNreq s.mem nreq}

/- The loop of do_notify_reply. -/
def Sys.find (s : Sys) (unique : Nat) : Nat → Nat → Except Fault (Option Nat)
  | 0, _ => .error .diverges
  | fuel+1, nreq =>
    if nreq = notifyList then .ok none
    else if nreq ∉ s.live then .error .freed
    else if s.unique nreq = unique then .ok (some nreq)
    else s.find unique fuel (s.mem nreq)

def Sys.call (s : Sys) (k : Nat) (c : Call) : Sys := {s with calls := s.calls.set k c}

def Sys.reply (s : Sys) (k : Nat) (r : Reply) : Sys := {s with replies := s.replies.set k r}

instance (a b : Nat) : Decidable (Apart a b) := inferInstanceAs (Decidable (_ ∨ _))

def Sys.fresh (s : Sys) (rreq : Nat) : Bool := decide (∀ a ∈ notifyList :: s.live, Apart rreq a)

def Sys.asks (s : Sys) : Event → Option (Except Fault Sys)
  | .alloc rreq cookie =>
    if s.fresh rreq then some
      (.ok {s with live := s.live ++ [rreq], calls := s.calls ++ [.allocated rreq cookie]}) else none
  -- the counter has 64 bits and does not come round
  | .register k =>
    match s.calls[k]? with
    | some (.allocated rreq cookie) =>
      if s.notifyCtr + 1 < 2 ^ 64 then
        some (s.used [rreq,notifyList,s.mem (notifyList + 8)] {s.call k (.registered rreq) with
          mem := listAddNreq s.mem rreq notifyList
          unique := Function.update s.unique rreq s.notifyCtr
          cookie := Function.update s.cookie rreq cookie
          notifyCtr := s.notifyCtr + 1
          registered := s.registered ++ [(s.notifyCtr,cookie)]})
      else none
    | _ => none
  | .number k =>
    match s.calls[k]? with
    | some (.registered rreq) => some (s.used [rreq] (s.call k (.sending rreq (s.unique rreq))))
    | _ => none
  | .accept k =>
    match s.calls[k]? with
    | some (.sending _ unique) =>
        some (.ok {s.call k .done with asked := s.asked ++ [unique], taken := s.taken ++ [unique]})
    | _ => none
  | .refuse k =>
    match s.calls[k]? with
    | some (.sending rreq _) => some (.ok (s.call k (.failed rreq)))
    | _ => none
  | .unlink k =>
    match s.calls[k]? with
    | some (.failed rreq) =>
        some (s.unlinks rreq {s.call k (.dropped rreq) with rejected := s.rejected ++ [s.unique rreq]})
    | _ => none
  | .free k =>
    match s.calls[k]? with
    | some (.dropped rreq) => some (s.used [rreq] {s.call k .done with live := s.live.erase rreq})
    | _ => none
  | _ => none

def Sys.answers (s : Sys) : Event → Option (Except Fault Sys)
  | .answer unique =>
    if unique ∈ s.asked then some
      (.ok {s with asked := s.asked.erase unique, replies := s.replies ++ [.received unique]}) else none
  -- no memory for its header or its request, or it is not read from the pipe
  | .lose unique =>
    if unique ∈ s.asked then some (.ok {s with asked := s.asked.erase unique, lost := s.lost ++ [unique]}) else none
  | .search k =>
    match s.replies[k]? with
    | some (.received unique) =>
      some (do
        match ← s.find unique (s.live.length + 1) (s.mem notifyList) with
        | some nreq => s.unlinks nreq (s.reply k (.matched nreq unique))
        | none => .ok (s.reply k .done))
    | _ => none
  | .tell k enough =>
    match s.replies[k]? with
    | some (.matched rreq unique) =>
      some (s.used [rreq] (if enough then {s.reply k (.told rreq) with given := s.given ++ [(unique,s.cookie rreq)]}
        else {s.reply k (.told rreq) with short := s.short ++ [unique]}))
    | _ => none
  | .release k =>
    match s.replies[k]? with
    | some (.told rreq) => some (s.used [rreq] {s.reply k .done with live := s.live.erase rreq})
    | _ => none
  | _ => none

def Sys.step (s : Sys) (e : Event) : Option (Except Fault Sys) := (s.asks e).or (s.answers e)

inductive Reached : Sys → Prop
  | start : Reached start
  | step {s s' : Sys} {e : Event} (before : Reached s) (ran : s.step e = some (.ok s')) : Reached s'

/-! Who is responsible for a block. -/

def Call.linked : Call → Option Nat
  | .registered rreq | .sending rreq _ | .failed rreq => some rreq
  | _ => none

def Call.loose : Call → Option Nat
  | .allocated rreq _ | .dropped rreq => some rreq
  | _ => none

def Reply.loose : Reply → Option Nat
  | .matched rreq _ | .told rreq => some rreq
  | _ => none

def Reply.awaits : Reply → Option Nat
  | .received unique => some unique
  | _ => none

def Reply.found : Reply → Option Nat
  | .matched _ unique => some unique
  | _ => none

def tally {α : Type} (f : α → Option Nat) (l : List α) (x : Nat) : Nat := l.countP fun c => decide (f c = some x)

def Call.number (unique : Nat → Nat) (c : Call) : Option Nat := c.linked.map unique

structure Sound (s : Sys) (entries : List Nat) : Prop where
  ring : Ring s.mem notifyList entries
  apart : (notifyList :: s.live).Pairwise Apart
  owned : ∀ a, s.live.count a = entries.count a + tally Call.loose s.calls a + tally Reply.loose s.replies a
  linked : ∀ a, tally Call.linked s.calls a ≤ entries.count a
  -- a request on the list is still to be sent or taken back, or its answer is to come or lost
  waits : ∀ u, entries.countP (fun a => decide (s.unique a = u)) =
    tally (Call.number s.unique) s.calls u + s.asked.count u + tally Reply.awaits s.replies u + s.lost.count u
  split : ∀ u, s.registered.countP (fun r => decide (r.1 = u)) = tally
    (Call.number s.unique) s.calls u + s.rejected.count u + s.taken.count u
  settled : ∀ u, s.taken.count u = s.asked.count u + tally Reply.awaits s.replies u + tally Reply.found s.replies u +
    s.given.countP (fun g => decide (g.1 = u)) + s.short.count u + s.lost.count u
  once : ∀ u, s.registered.countP (fun r => decide (r.1 = u)) ≤ 1
  below : ∀ r ∈ s.registered, r.1 < s.notifyCtr
  cookies : ∀ a ∈ entries, (s.unique a,s.cookie a) ∈ s.registered
  found : ∀ a u, Reply.matched a u ∈ s.replies → (u,s.cookie a) ∈ s.registered
  sending : ∀ a u, Call.sending a u ∈ s.calls → s.unique a = u
  given : ∀ g ∈ s.given, g ∈ s.registered

theorem tallySet {α : Type} {l : List α} {k : Nat} {a : α} (f : α → Option Nat) (at_ : l[k]? = some a) (b : α)
    (x : Nat) :
    tally f (l.set k b) x + (if f a = some x then 1 else 0) = tally f l x + if f b = some x then 1 else 0 := by
  obtain ⟨inside,here⟩ := List.getElem?_eq_some_iff.mp at_
  have positive : f a = some x → 0 < tally f l x := fun yes =>
    List.countP_pos_iff.mpr ⟨a,List.mem_of_getElem? at_,decide_eq_true yes⟩
  simp only [tally,List.countP_set inside,here,decide_eq_true_eq] at positive ⊢
  split
  · next yes =>
    have := positive yes
    omega
  · omega

theorem tallyAdd {α : Type} (f : α → Option Nat) (l : List α) (b : α) (x : Nat) :
    tally f (l ++ [b]) x = tally f l x + if f b = some x then 1 else 0 := by
  simp only [tally,List.countP_append,List.countP_singleton,decide_eq_true_eq]

theorem tallyMem {α : Type} {f : α → Option Nat} {l : List α} {k : Nat} {a : α} {x : Nat}
    (at_ : l[k]? = some a) (is : f a = some x) :
    0 < tally f l x := List.countP_pos_iff.mpr ⟨a,List.mem_of_getElem? at_,decide_eq_true is⟩

theorem eraseCount {l : List Nat} {a : Nat} (mem : a ∈ l) (b : Nat) :
    (l.erase a).count b + (if a = b then 1 else 0) = l.count b := by
  have perm := (List.perm_cons_erase mem).count_eq b
  simp only [List.count_cons,beq_iff_eq] at perm
  exact perm.symm

variable {s s' : Sys} {entries : List Nat} {k : Nat} {c : Call} {r : Reply} {rreq : Nat}

/-! Blocks and their places. -/

theorem Sound.single (sound : Sound s entries) (a : Nat) : s.live.count a ≤ 1 := by
  have nodup : s.live.Nodup := (List.pairwise_cons.mp sound.apart).2.imp fun apart => apart.words.1
  exact List.nodup_iff_count_le_one.mp nodup a

theorem Sound.alive (sound : Sound s entries) : ∀ a ∈ notifyList :: entries, a = notifyList ∨ a ∈ s.live := by
  intro a mem
  refine (List.mem_cons.mp mem).imp_right fun inside => List.count_pos_iff.mp ?_
  have owned := sound.owned a
  have here := List.count_pos_iff.mpr inside
  omega

theorem Sound.linkedAt (sound : Sound s entries) (at_ : s.calls[k]? = some c) (is : c.linked = some rreq) :
    rreq ∈ entries := by
  have here : 0 < tally Call.linked s.calls rreq := tallyMem at_ is
  have linked := sound.linked rreq
  exact List.count_pos_iff.mp (by omega)

theorem Sound.looseCall (sound : Sound s entries) (at_ : s.calls[k]? = some c) (is : c.loose = some rreq) :
    rreq ∈ s.live ∧ rreq ∉ entries := by
  have here : 0 < tally Call.loose s.calls rreq := tallyMem at_ is
  have owned := sound.owned rreq
  have single := sound.single rreq
  refine ⟨List.count_pos_iff.mp (by omega),fun inside => ?_⟩
  have there := List.count_pos_iff.mpr inside
  omega

theorem Sound.looseReply (sound : Sound s entries) (at_ : s.replies[k]? = some r) (is : r.loose = some rreq) :
    rreq ∈ s.live ∧ rreq ∉ entries := by
  have here : 0 < tally Reply.loose s.replies rreq := tallyMem at_ is
  have owned := sound.owned rreq
  have single := sound.single rreq
  refine ⟨List.count_pos_iff.mp (by omega),fun inside => ?_⟩
  have there := List.count_pos_iff.mpr inside
  omega

theorem usedOk {cells : List Nat} (alive : ∀ a ∈ cells, a = notifyList ∨ a ∈ s.live) (t : Sys) :
    s.used cells t = .ok t :=
  if_pos alive

/-! The list operations of the source do what those on a ring do. -/

theorem addIs (ring : Ring s.mem notifyList entries) (fresh : ∀ a ∈ notifyList :: entries, Apart rreq a) :
    listAddNreq s.mem rreq notifyList = listAddTail s.mem rreq notifyList := by
  have inside := List.getLast_mem (List.cons_ne_nil notifyList entries)
  have cross := cellWords ring.apart List.mem_cons_self inside
  have words := (fresh notifyList List.mem_cons_self).words
  rw [← ring.prevHead] at cross
  rw [listAddNreq,listAddTail,listAdd]
  simp only [setNext,setPrev]
  rw [Function.update_comm cross.symm,Function.update_comm words.2.2.2,Function.update_comm words.2.1]

theorem delIs {before after : List Nat} {nreq : Nat} (ring : Ring s.mem notifyList (before ++ nreq :: after)) :
    listDelNreq s.mem nreq = listDel s.mem nreq := by
  obtain ⟨next,prev⟩ := ring.neighbours
  have cells := ring.apart.sublist (((List.sublist_cons_self nreq after).append_left before).cons_cons notifyList)
  have cross := cellWords cells next prev
  rw [listDelNreq,listDel]
  simp only [setNext,setPrev]
  rw [Function.update_comm cross.symm]

theorem Sound.search (sound : Sound s entries) (u : Nat) {before rest : List Nat} {fuel : Nat}
    (is : entries = before ++ rest) (enough : rest.length < fuel) :
    s.find u fuel (rest.headD notifyList) = .ok (rest.find? fun a => decide (s.unique a = u)) := by
  induction rest generalizing before fuel with
  | nil =>
    obtain ⟨fuel,rfl⟩ := Nat.exists_eq_succ_of_ne_zero (Nat.ne_of_gt (Nat.lt_of_le_of_lt (Nat.zero_le _) enough))
    rw [Sys.find]
    exact if_pos rfl
  | cons a rest ih =>
    obtain ⟨fuel,rfl⟩ := Nat.exists_eq_succ_of_ne_zero (Nat.ne_of_gt (Nat.lt_of_le_of_lt (Nat.zero_le _) enough))
    subst is
    have inside : a ∈ before ++ a :: rest := List.mem_append_right _ List.mem_cons_self
    have other : a ≠ notifyList := (List.rel_of_pairwise_cons sound.ring.apart inside).words.1.symm
    have alive : a ∈ s.live := (sound.alive a (List.mem_cons_of_mem _ inside)).resolve_left other
    rw [List.headD_cons,Sys.find,if_neg other,if_neg (not_not.mpr alive),List.find?_cons]
    split
    · next here => rw [decide_eq_true here]
    · next further =>
      rw [decide_eq_false further,sound.ring.nextEntry]
      exact ih (List.append_cons before a rest) (Nat.lt_of_succ_lt_succ enough)

theorem Sound.fewer (sound : Sound s entries) : entries.length ≤ s.live.length := by
  refine (List.subperm_ext_iff.mpr fun a _ => ?_).length_le
  have owned := sound.owned a
  omega

end FuseStudy.RetrieveReplies
