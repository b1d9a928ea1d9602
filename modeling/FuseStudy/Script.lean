import Mathlib.Tactic.Common

/-! Programs as trees of instructions: each instruction is answered from outside and the
rest depends on the answer. A discipline tells which instructions a program may give in
its situation and what the situation is after each answer. -/
namespace FuseStudy.Script

variable {I : Type} {R : I → Type} {G α β : Type}

inductive Prog (I : Type) (R : I → Type) (α : Type) : Type
  | done (a : α)
  | act (i : I) (next : R i → Prog I R α)

def Prog.bind : Prog I R α → (α → Prog I R β) → Prog I R β
  | .done a, f => f a
  | .act i next, f => .act i fun r => (next r).bind f

instance : Monad (Prog I R) where
  pure := .done
  bind := .bind

def call (i : I) : Prog I R (R i) := .act i .done

structure Discipline (I : Type) (R : I → Type) (G : Type) where
  may : G → I → Prop
  after : G → (i : I) → R i → G → Prop

def Keeps (rule : Discipline I R G) (post : α → G → Prop) : Prog I R α → G → Prop
  | .done a, g => post a g
  | .act i next, g => rule.may g i ∧ ∀ r g', rule.after g i r g' → Keeps rule post (next r) g'

variable {rule : Discipline I R G} {post : α → G → Prop} {g : G}

theorem Keeps.bind {m : Prog I R β} {f : β → Prog I R α}
    (first : Keeps rule (fun b g' => Keeps rule post (f b) g') m g) : Keeps rule post (m >>= f) g := by
  induction m generalizing g with
  | done b => exact first
  | act i next ih => exact ⟨first.1,fun r g' after => ih r (first.2 r g' after)⟩

theorem Keeps.imp {post' : α → G → Prop} {m : Prog I R α} (keeps : Keeps rule post m g)
    (weaker : ∀ a g', post a g' → post' a g') : Keeps rule post' m g := by
  induction m generalizing g with
  | done a => exact weaker a g keeps
  | act i next ih => exact ⟨keeps.1,fun r g' after => ih r (keeps.2 r g' after)⟩

/- What a program may have come to, with the situation there. -/
inductive Unfolds (rule : Discipline I R G) : Prog I R α → G → Prog I R α → G → Prop
  | here {m : Prog I R α} {g : G} : Unfolds rule m g m g
  | step {i : I} {next : R i → Prog I R α} {m : Prog I R α} {g g' g'' : G} (r : R i) (after : rule.after g i r g')
      (rest : Unfolds rule (next r) g' m g'') : Unfolds rule (.act i next) g m g''

theorem Keeps.unfolds {m m' : Prog I R α} {g' : G} (keeps : Keeps rule post m g)
    (run : Unfolds rule m g m' g') : Keeps rule post m' g' := by
  induction run with
  | here => exact keeps
  | step r after rest ih => exact ih (keeps.2 r _ after)

end FuseStudy.Script
