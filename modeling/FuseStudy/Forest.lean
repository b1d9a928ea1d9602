import Mathlib.Data.List.Nodup
import Mathlib.Data.List.Perm.Subperm
import Mathlib.Data.List.Range
import Mathlib.Logic.Function.Basic
import Mathlib.Tactic.Common

/-! Walking up in a forest of labelled parent links. A node with no link is a top; a node
from which the walk ends is grounded, and its walk repeats no node. -/
namespace FuseStudy.Forest

variable {α β : Type} {up up' : α → Option (β × α)} {p q r stop : α} {l m : List (α × β)}

inductive Climb (up : α → Option (β × α)) : α → List (α × β) → α → Prop
  | here (p : α) : Climb up p [] p
  | step {p q stop : α} {label : β} {rest : List (α × β)} (link : up p = some (label,q))
      (above : Climb up q rest stop) : Climb up p ((p,label) :: rest) stop

def Grounded (up : α → Option (β × α)) (p : α) : Prop := ∃ l stop, Climb up p l stop ∧ up stop = none

/- Two walks from one node go the same way as far as both go. -/
theorem Climb.compare (first : Climb up p l q) (second : Climb up p m r) :
    (∃ rest, m = l ++ rest ∧ Climb up q rest r) ∨ (∃ rest, l = m ++ rest ∧ Climb up r rest q) := by
  induction first generalizing m with
  | here p => exact .inl ⟨m,rfl,second⟩
  | @step p q stop label rest link above ih =>
    cases second with
    | here => exact .inr ⟨_,rfl,.step link above⟩
    | step link' above' =>
      rw [link] at link'
      cases link'
      rcases ih above' with ⟨more,rfl,further⟩ | ⟨more,rfl,further⟩
      · exact .inl ⟨more,rfl,further⟩
      · exact .inr ⟨more,rfl,further⟩

theorem Climb.unique (first : Climb up p l q) (second : Climb up p m r) (topQ : up q = none)
    (topR : up r = none) : l = m ∧ q = r := by
  have ends : ∀ {a b : α} {k : List (α × β)}, up a = none → Climb up a k b → k = [] ∧ a = b := by
    intro a b k top climb
    cases climb with
    | here => exact ⟨rfl,rfl⟩
    | step link _ =>
      rw [top] at link
      cases link
  rcases first.compare second with ⟨rest,rfl,further⟩ | ⟨rest,rfl,further⟩
  · obtain ⟨rfl,rfl⟩ := ends topQ further
    exact ⟨(List.append_nil l).symm,rfl⟩
  · obtain ⟨rfl,rfl⟩ := ends topR further
    exact ⟨List.append_nil m,rfl⟩

theorem Climb.trans (first : Climb up p l q) (second : Climb up q m r) : Climb up p (l ++ m) r := by
  induction first with
  | here => exact second
  | step link _ ih => exact .step link (ih second)

theorem Climb.suffix (climb : Climb up p l stop) (mem : q ∈ l.map Prod.fst) :
    ∃ before after, l = before ++ after ∧ Climb up p before q ∧ Climb up q after stop ∧ after ≠ [] := by
  induction climb with
  | here => simp at mem
  | @step p' q' stop label rest link above ih =>
    rw [List.map_cons,List.mem_cons] at mem
    rcases mem with rfl | later
    · exact ⟨[],_,rfl,.here _,.step link above,List.cons_ne_nil _ _⟩
    · obtain ⟨before,after,rfl,down,upper,more⟩ := ih later
      exact ⟨_,after,rfl,.step link down,upper,more⟩

theorem Climb.nodup (climb : Climb up p l stop) (top : up stop = none) : (l.map Prod.fst).Nodup := by
  induction climb with
  | here => exact List.nodup_nil
  | @step p q stop label rest link above ih =>
    rw [List.map_cons,List.nodup_cons]
    refine ⟨?_,ih top⟩
    intro again
    obtain ⟨before,after,split,_,upper,_⟩ := above.suffix again
    have same := (Climb.unique (.step link above) upper top top).1
    have shorter := congrArg List.length same
    rw [split] at shorter
    simp at shorter
    omega

theorem Climb.outside (climb : Climb up p l stop) (top : up stop = none) : stop ∉ l.map Prod.fst := by
  intro mem
  obtain ⟨_,after,_,_,upper,more⟩ := climb.suffix mem
  exact more (Climb.unique upper (.here stop) top top).1

theorem Climb.grounded (climb : Climb up p l stop) (ground : Grounded up p) : Grounded up stop := by
  obtain ⟨m,top,whole,last⟩ := ground
  rcases climb.compare whole with ⟨rest,_,further⟩ | ⟨rest,_,further⟩
  · exact ⟨rest,top,further,last⟩
  · cases further with
    | here => exact ⟨[],stop,.here _,last⟩
    | step link _ =>
      rw [last] at link
      cases link

theorem Climb.nodupGrounded (climb : Climb up p l stop) (ground : Grounded up p) :
    (l.map Prod.fst).Nodup ∧ stop ∉ l.map Prod.fst := by
  obtain ⟨m,top,above,last⟩ := climb.grounded ground
  have whole := climb.trans above
  have nodup := whole.nodup last
  rw [List.map_append,List.nodup_append] at nodup
  refine ⟨nodup.1,?_⟩
  intro mem
  cases above with
  | here => exact whole.outside last (by simpa using mem)
  | step link _ => exact nodup.2.2 stop mem stop (by simp) rfl

theorem Climb.frame (climb : Climb up p l stop) (same : ∀ q ∈ l.map Prod.fst, up' q = up q) :
    Climb up' p l stop := by
  induction climb with
  | here => exact .here _
  | @step p q stop label rest link above ih =>
    have first := same p (by simp)
    exact .step (first.trans link) (ih (fun r mem => same r (by simp [mem])))

theorem Climb.passes (whole : Climb up p l stop) (top : up stop = none) (climb : Climb up p m q) (goes : up q ≠ none) :
    q ∈ l.map Prod.fst := by
  rcases climb.compare whole with ⟨rest,rfl,further⟩ | ⟨rest,rfl,further⟩
  · cases further with
    | here => exact absurd top goes
    | step => simp
  · cases further with
    | here => exact absurd top goes
    | step link _ =>
      rw [top] at link
      cases link

theorem groundedFrame {Changed : α → Prop} [DecidablePred Changed] (same : ∀ q, ¬ Changed q → up' q = up q)
    (rerooted : ∀ q, Changed q → Grounded up' q) (ground : Grounded up p) : Grounded up' p := by
  obtain ⟨l,stop,climb,top⟩ := ground
  induction climb with
  | here p =>
    by_cases changed : Changed p
    · exact rerooted p changed
    · exact ⟨[],p,.here p,(same p changed).trans top⟩
  | @step p q stop label rest link above ih =>
    by_cases changed : Changed p
    · exact rerooted p changed
    · obtain ⟨m,last,further,end_⟩ := ih top
      exact ⟨_,last,.step ((same p changed).trans link) further,end_⟩

theorem Climb.lengthLe {brk : Nat} {up : Nat → Option (β × Nat)} {p stop : Nat} {l : List (Nat × β)}
    (climb : Climb up p l stop) (ground : Grounded up p) (below : ∀ q, up q ≠ none → q < brk) :
    l.length ≤ brk := by
  have inside : l.map Prod.fst ⊆ List.range brk := by
    intro q mem
    obtain ⟨_,after,_,_,upper,more⟩ := climb.suffix mem
    apply List.mem_range.mpr
    cases upper with
    | here => exact absurd rfl more
    | step link _ => exact below q (by rw [link]; nofun)
  have fits := ((climb.nodupGrounded ground).1.subperm inside).length_le
  rwa [List.length_map,List.length_range] at fits

/- The walk as a computation: the nodes passed and where it stands when the fuel or the
links end. -/
def trail (up : α → Option (β × α)) : Nat → α → List (α × β) × α
  | 0, p => ([],p)
  | fuel+1, p =>
    match up p with
    | none => ([],p)
    | some (label,q) => ((p,label) :: (trail up fuel q).1,(trail up fuel q).2)

theorem Climb.trail (climb : Climb up p l stop) (top : up stop = none) {fuel : Nat} (enough : l.length < fuel) :
    Forest.trail up fuel p = (l,stop) := by
  induction climb generalizing fuel with
  | here p =>
    cases fuel with
    | zero => rfl
    | succ fuel => simp only [Forest.trail,top]
  | @step p q stop label rest link above ih =>
    cases fuel with
    | zero => exact absurd enough (Nat.not_lt_zero _)
    | succ fuel => simp only [Forest.trail,link,ih top (Nat.lt_of_succ_lt_succ enough)]

end FuseStudy.Forest
