import Mathlib.Logic.Function.Basic
import Mathlib.Tactic.Common

/-! auto_cache: an open keeps the kernel's page cache if the node's flag is still set. The
requests on all nodes run against each other; f->lock is dropped around every getattr
callback, so callbacks and critical sections are the steps. How the time since the last
stat compares with the timeout is left open. A node that is freed and made again is another
node, with all fields zero. -/
namespace FuseStudy.AutoCache

structure Timespec where
  sec : Int
  nsec : Int
  deriving DecidableEq

structure Stat where
  mtime : Timespec
  size : Int
  deriving DecidableEq

/- The fields of a node that update_stat and open_auto_cache use. -/
structure CacheNode where
  mtime : Timespec
  size : Int
  cacheValid : Bool
  deriving DecidableEq

abbrev NodeId := Nat

def CacheNode.stat (node : CacheNode) : Stat := ⟨node.mtime,node.size⟩

def mtimeEq (stbuf : Stat) (ts : Timespec) : Bool := stbuf.mtime.sec == ts.sec && stbuf.mtime.nsec == ts.nsec

def updateStat (node : CacheNode) (stbuf : Stat) : CacheNode :=
  let node := if node.cacheValid ∧ (¬ mtimeEq stbuf node.mtime ∨ stbuf.size ≠ node.size) then
    {node with cacheValid := false} else node
  {node with mtime := stbuf.mtime, size := stbuf.size}

/- The first critical section of open_auto_cache goes on to a getattr only then. -/
def revalidates (node : CacheNode) (expired : Bool) : Bool := node.cacheValid && expired

def reassess (node : CacheNode) : Option Stat → CacheNode
  | some stbuf => updateStat node stbuf
  | none => {node with cacheValid := false}

/- The end of open_auto_cache: the node and whether keep_cache is set. -/
def finishOpen (node : CacheNode) : CacheNode × Bool := ({node with cacheValid := true},node.cacheValid)

inductive Asker
  | lookup | getattr | setattr
  deriving DecidableEq

/- Where a request stands. A lookup asks for the node that find_node will give it. -/
inductive Request
  | idle
  | asked (asker : Asker) (node : NodeId)
  | answered (asker : Asker) (node : NodeId) (stbuf : Stat)
  | revalidating (node : NodeId)
  | relocking (node : NodeId) (result : Option Stat)

structure Server where
  nodes : NodeId → CacheNode
  requests : Nat → Request

def Server.put (s : Server) (node : NodeId) (n : CacheNode) : Server :=
  {s with nodes := Function.update s.nodes node n}

def Server.turn (s : Server) (req : Nat) (r : Request) : Server :=
  {s with requests := Function.update s.requests req r}

def start : Server := ⟨fun _ => ⟨⟨0,0⟩,0,false⟩,fun _ => .idle⟩

/- What an observer of the runs writes down. -/
inductive Event
  | recorded (node : NodeId) (stbuf : Stat)
  | failed (req : Nat) (node : NodeId)
  | cleared (req : Nat) (node : NodeId)
  | completed (req : Nat) (node : NodeId) (stat : Stat) (keepCache : Bool)
  deriving DecidableEq

def Event.node : Event → NodeId
  | .recorded node _ | .failed _ node | .cleared _ node | .completed _ node _ _ => node

def reassessed (req : Nat) (node : NodeId) : Option Stat → Event
  | some stbuf => .recorded node stbuf
  | none => .cleared req node

/- A callback that fails ends a lookup, a getattr or a setattr before its update_stat; a
lookup also ends when find_node has no memory. -/
inductive Step : Server → List Event → Server → Prop
  | ask {s : Server} {req : Nat} (idle : s.requests req = .idle) (asker : Asker) (node : NodeId) :
      Step s [] (s.turn req (.asked asker node))
  | answer {s : Server} {req : Nat} {asker : Asker} {node : NodeId} (asked : s.requests req = .asked asker node)
      (stbuf : Stat) : Step s [] (s.turn req (.answered asker node stbuf))
  | refuse {s : Server} {req : Nat} {asker : Asker} {node : NodeId} (asked : s.requests req = .asked asker node) :
      Step s [] (s.turn req .idle)
  | record {s : Server} {req : Nat} {asker : Asker} {node : NodeId} {stbuf : Stat}
      (answered : s.requests req = .answered asker node stbuf) :
      Step s [.recorded node stbuf] ((s.put node (updateStat (s.nodes node) stbuf)).turn req .idle)
  | openAtOnce {s : Server} (req : Nat) (idle : s.requests req = .idle) (node : NodeId) (expired : Bool)
      (current : revalidates (s.nodes node) expired = false) :
      Step s [.completed req node (s.nodes node).stat (finishOpen (s.nodes node)).2]
        (s.put node (finishOpen (s.nodes node)).1)
  | openExpired {s : Server} (req : Nat) (idle : s.requests req = .idle) (node : NodeId) (expired : Bool)
      (old : revalidates (s.nodes node) expired = true) : Step s [] (s.turn req (.revalidating node))
  | revalidate {s : Server} (req : Nat) {node : NodeId} (waits : s.requests req = .revalidating node)
      (result : Option Stat) :
      Step s (if result.isNone then [.failed req node] else []) (s.turn req (.relocking node result))
  | relock {s : Server} {req : Nat} {node : NodeId} {result : Option Stat}
      (waits : s.requests req = .relocking node result) :
      Step s [reassessed req node result,.completed req node (reassess (s.nodes node) result).stat
          (finishOpen (reassess (s.nodes node) result)).2]
        ((s.put node (finishOpen (reassess (s.nodes node) result)).1).turn req .idle)

inductive Run : Server → List Event → Prop
  | start : Run start []
  | step {s s' : Server} {history events : List Event} (run : Run s history) (step : Step s events s') :
      Run s' (history ++ events)

/- An event after the last completed open of the node that speaks for keeping the cache:
the same stat again. A getattr that failed speaks against it from the moment its open has
the lock again. -/
def Supports (node : NodeId) (stat : Stat) : Event → Prop
  | .recorded other stbuf => other = node → stbuf = stat
  | .failed _ _ => True
  | .cleared _ other => other ≠ node
  | .completed _ other _ _ => other ≠ node

def Evidence (history : List Event) (node : NodeId) (stat : Stat) : Prop :=
  ∃ earlier req keepCache since, history = earlier ++ .completed req node stat keepCache :: since ∧
    ∀ e ∈ since, Supports node stat e

variable {history : List Event} {node : NodeId} {stat : Stat} {nodes : NodeId → CacheNode} {n : CacheNode}

theorem Evidence.extend (evidence : Evidence history node stat) {e : Event} (supports : Supports node stat e) :
    Evidence (history ++ [e]) node stat := by
  obtain ⟨earlier,req,keepCache,since,is,all⟩ := evidence
  refine ⟨earlier,req,keepCache,since ++ [e],by rw [is,List.append_assoc,List.cons_append],?_⟩
  intro e' mem
  rcases List.mem_append.mp mem with old | new
  · exact all e' old
  · rw [List.mem_singleton.mp new]
    exact supports

theorem Evidence.fresh (history : List Event) (req : Nat) (node : NodeId) (stat : Stat) (keepCache : Bool) :
    Evidence (history ++ [.completed req node stat keepCache]) node stat :=
  ⟨history,req,keepCache,[],rfl,nofun⟩

theorem supportsOther {e : Event} {other : NodeId} (about : e.node = node) (differs : other ≠ node) :
    Supports other stat e := by
  cases e with
  | recorded x stbuf => exact fun same => absurd (same.symm.trans about) differs
  | failed req x => exact trivial
  | cleared req x => exact fun same => differs (same.symm.trans about)
  | completed req x st keepCache => exact fun same => differs (same.symm.trans about)

/- The invariant: a set flag has the history behind it. -/
def Backed (history : List Event) (nodes : NodeId → CacheNode) : Prop :=
  ∀ node, (nodes node).cacheValid → Evidence history node (nodes node).stat

theorem Backed.event (backed : Backed history nodes) {e : Event} (about : e.node = node)
    (changed : n.cacheValid → Evidence (history ++ [e]) node n.stat) :
    Backed (history ++ [e]) (Function.update nodes node n) := by
  intro other valid
  by_cases here : other = node
  · subst here
    rw [Function.update_self] at valid ⊢
    exact changed valid
  · rw [Function.update_of_ne here] at valid ⊢
    exact (backed other valid).extend (supportsOther about here)

theorem updateStatStat (n : CacheNode) (stbuf : Stat) : (updateStat n stbuf).stat = stbuf := rfl

theorem updateStatValid {stbuf : Stat} (valid : (updateStat n stbuf).cacheValid) : n.cacheValid ∧ stbuf = n.stat := by
  unfold updateStat at valid
  simp only at valid
  split at valid
  · cases valid
  · rename_i kept
    rw [not_and_or] at kept
    rcases kept with unset | same
    · exact absurd valid unset
    · rw [not_or,not_not,not_not] at same
      obtain ⟨mtime,size⟩ := same
      rw [mtimeEq,Bool.and_eq_true,beq_iff_eq,beq_iff_eq] at mtime
      obtain ⟨⟨sec,nsec⟩,size'⟩ := stbuf
      simp only [CacheNode.stat] at mtime size ⊢
      rw [mtime.1,mtime.2,size]
      exact ⟨valid,rfl⟩

theorem Backed.recorded (backed : Backed history nodes) (stbuf : Stat) :
    Backed (history ++ [.recorded node stbuf]) (Function.update nodes node (updateStat (nodes node) stbuf)) := by
  refine backed.event rfl ?_
  intro valid
  obtain ⟨was,same⟩ := updateStatValid valid
  rw [updateStatStat,same]
  exact (backed node was).extend (fun _ => rfl)

theorem Backed.reassessed (backed : Backed history nodes) (node : NodeId) (req : Nat) (result : Option Stat) :
    Backed (history ++ [reassessed req node result])
      (Function.update nodes node (reassess (nodes node) result)) := by
  cases result with
  | some stbuf => exact backed.recorded stbuf
  | none => exact backed.event rfl nofun

theorem Backed.completed (backed : Backed history nodes) (node : NodeId) (req : Nat) (keepCache : Bool) :
    Backed (history ++ [.completed req node (nodes node).stat keepCache])
      (Function.update nodes node (finishOpen (nodes node)).1) :=
  backed.event rfl (fun _ => .fresh history req node _ keepCache)

def Kept (history : List Event) : Prop :=
  ∀ before req node stat after, history = before ++ .completed req node stat true :: after →
    Evidence before node stat

theorem Kept.event (kept : Kept history) {e : Event}
    (last : ∀ req node stat, e = .completed req node stat true → Evidence history node stat) :
    Kept (history ++ [e]) := by
  intro before req node stat after is
  rcases List.eq_nil_or_concat after with rfl | ⟨rest,final,rfl⟩
  · obtain ⟨same,event⟩ := List.append_inj' is rfl
    rw [← same]
    exact last req node stat (List.cons.inj event).1
  · rw [List.concat_eq_append,← List.cons_append,← List.append_assoc] at is
    obtain ⟨same,_⟩ := List.append_inj' is rfl
    exact kept before req node stat rest same

theorem stepKept {s s' : Server} {events : List Event} (backed : Backed history s.nodes) (kept : Kept history)
    (step : Step s events s') : Backed (history ++ events) s'.nodes ∧ Kept (history ++ events) := by
  cases step with
  | ask | answer | refuse | openExpired =>
    rw [List.append_nil]
    exact ⟨backed,kept⟩
  | record => exact ⟨backed.recorded _,kept.event nofun⟩
  | openAtOnce req idle node expired current =>
    refine ⟨backed.completed _ _ _,kept.event ?_⟩
    intro req' node' stat is
    obtain ⟨rfl,rfl,rfl,valid⟩ := Event.completed.inj is
    exact backed node valid
  | revalidate req waits result =>
    cases result with
    | some stbuf =>
      simp only [Option.isNone_some,Bool.false_eq_true,if_false,List.append_nil]
      exact ⟨backed,kept⟩
    | none =>
      refine ⟨?_,kept.event nofun⟩
      intro other valid
      exact (backed other valid).extend trivial
  | @relock req node result waits =>
    have first := backed.reassessed node req result
    have keptFirst : Kept (history ++ [reassessed req node result]) := by
      apply kept.event
      intro req' node' stat is
      cases result <;> cases is
    have second := first.completed node req (finishOpen (reassess (s.nodes node) result)).2
    rw [Function.update_self,Function.update_idem,List.append_assoc] at second
    refine ⟨second,?_⟩
    rw [show ∀ a b : Event, history ++ [a,b] = history ++ [a] ++ [b] from fun a b => by simp]
    apply keptFirst.event
    intro req' node' stat is
    obtain ⟨rfl,rfl,rfl,valid⟩ := Event.completed.inj is
    have evidence := first node
    rw [Function.update_self] at evidence
    exact evidence valid

/- Induction on the run. -/
theorem runKept {s : Server} (run : Run s history) : Backed history s.nodes ∧ Kept history := by
  induction run with
  | start =>
    refine ⟨nofun,?_⟩
    intro before req node stat after is
    exact absurd is (by simp)
  | step _ step ih => exact stepKept ih.1 ih.2 step

/- An open keeps the cache only after an earlier open of the node, with no other stat
recorded since the last one and no failure brought under the lock. -/
theorem keptOnEvidence {s : Server} {before after : List Event} {req : Nat} (run : Run s history)
    (keeps : history = before ++ .completed req node stat true :: after) : Evidence before node stat :=
  (runKept run).2 before req node stat after keeps

def unset : Stat := ⟨⟨0,0⟩,0⟩

theorem secondOpenRun : ∃ s, Run s [.completed 0 0 unset false,.completed 1 0 unset true] := by
  have first := Run.start.step (.openAtOnce 0 rfl 0 false rfl)
  exact ⟨_,first.step (.openAtOnce 1 rfl 0 false rfl)⟩

theorem keptOnEvidenceSecond : Evidence [.completed 0 0 unset false] 0 unset := by
  obtain ⟨s,run⟩ := secondOpenRun
  have keeps : ([.completed 0 0 unset false,.completed 1 0 unset true] : List Event) =
      [.completed 0 0 unset false] ++ .completed 1 0 unset true :: [] := rfl
  exact keptOnEvidence run keeps

def Unchanged (node : NodeId) (stat : Stat) : Event → Prop
  | .recorded other stbuf => other = node → stbuf = stat
  | .completed _ other _ _ => other ≠ node
  | _ => True

/- The getattr of open 1 has failed when open 2 comes, but open 1 waits for the lock. -/
theorem failedUnseen : ¬ ∀ (s : Server) (history before after : List Event) (req : Nat) (node : NodeId) (stat : Stat),
    Run s history → history = before ++ .completed req node stat true :: after →
    ∃ earlier first stat' keepCache since, before = earlier ++ .completed first node stat' keepCache :: since ∧
      (∀ e ∈ since, Unchanged node stat' e) ∧ ∀ other, .failed other node ∈ since → other = req := by
  intro every
  have first := Run.start.step (.openAtOnce 0 rfl 0 false rfl)
  have second := first.step (.openExpired 1 rfl 0 true rfl)
  have failed := second.step (.revalidate 1 rfl none)
  have third := failed.step (.openAtOnce 2 rfl 0 false rfl)
  obtain ⟨earlier,_,_,_,since,is,_,others⟩ :=
    every _ _ [.completed 0 0 unset false,.failed 1 0] [] 2 0 unset third rfl
  cases earlier with
  | nil =>
    have rest : since = [.failed 1 0] := (List.cons.inj is).2.symm
    have same := others 1 (by rw [rest]; exact List.mem_singleton_self _)
    cases same
  | cons head tail =>
    have lengths := congrArg List.length is
    cases tail with
    | nil =>
      have heads := (List.cons.inj (List.cons.inj is).2).1
      cases heads
    | cons next more =>
      simp only [List.length_cons,List.length_append,List.length_nil] at lengths
      omega

end FuseStudy.AutoCache
