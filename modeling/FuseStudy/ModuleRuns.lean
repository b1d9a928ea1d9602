import FuseStudy.ModuleRegistry
import Mathlib.Data.List.Nodup
import Mathlib.Algebra.Order.BigOperators.Group.List
import Mathlib.Algebra.Order.Ring.Nat

/-! Runs of fuse_new and fuse_destroy in one process: which modules stay registered for whom, and when
the builtin module subdir is found without loading anything. -/
namespace FuseStudy.ModuleRuns
open ModuleRegistry

/- `held` are the modules that live instances, and a call of fuse_new that is under way, obtained. -/
structure Sound (r : Registry) (held : List Nat) : Prop where
  nodup : r.modules.Nodup
  old : ∀ m ∈ r.modules, m < r.next
  so : ∀ m ∈ r.modules, ∀ so, (r.mods m).so = some so → so < r.soNext ∧ r.soCtr so = 1 ∧ 0 < (r.mods m).ctr
  single : ∀ m ∈ r.modules, ∀ n ∈ r.modules, ∀ so, (r.mods m).so = some so → (r.mods n).so = some so → m = n
  counts : ∀ m ∈ r.modules, held.count m ≤ (r.mods m).ctr
  held : ∀ m ∈ held, m ∈ r.modules

theorem soundEmpty {r : Registry} (empty : r.modules = []) : Sound r [] := by
  refine ⟨empty ▸ List.nodup_nil,?_,?_,?_,?_,fun m taken => absurd taken List.not_mem_nil⟩
  all_goals
    intro m listed
    rw [empty] at listed
    cases listed

theorem setSame {r : Registry} {m ctr : Nat} : (r.setCtr m ctr).mods m = {r.mods m with ctr := ctr} :=
  Function.update_self _ _ _

theorem setOther {r : Registry} {m n ctr : Nat} (other : n ≠ m) : (r.setCtr m ctr).mods n = r.mods n :=
  Function.update_of_ne other _ _

theorem setSo {r : Registry} {m n ctr : Nat} : ((r.setCtr m ctr).mods n).so = (r.mods n).so := by
  by_cases same : n = m
  · rw [same,setSame]
  · rw [setOther same]

theorem setName {r : Registry} {m n ctr : Nat} : ((r.setCtr m ctr).mods n).name = (r.mods n).name := by
  by_cases same : n = m
  · rw [same,setSame]
  · rw [setOther same]

theorem foundListed {r : Registry} {name : CString.Bytes} {m : Nat}
    (found : r.modules.find? (fun m => (r.mods m).name = name) = some m) : m ∈ r.modules ∧ (r.mods m).name = name := by
  have named := List.find?_some found
  exact ⟨List.mem_of_find?_eq_some found,of_decide_eq_true named⟩

theorem Sound.count {r : Registry} {held : List Nat} {m : Nat} (sound : Sound r held) (inside : m ∈ r.modules) :
    Sound (r.setCtr m ((r.mods m).ctr + 1)) (m :: held) := by
  refine ⟨sound.nodup,sound.old,?_,?_,?_,?_⟩
  · intro n listed so has
    rw [setSo] at has
    obtain ⟨older,one,pos⟩ := sound.so n listed so has
    refine ⟨older,one,?_⟩
    by_cases same : n = m
    · rw [same,setSame]
      exact Nat.succ_pos _
    · rw [setOther same]
      exact pos
  · intro n listed k listed' so has has'
    rw [setSo] at has has'
    exact sound.single n listed k listed' so has has'
  · intro n listed
    have before := sound.counts n listed
    by_cases same : n = m
    · rw [same,setSame,List.count_cons_self]
      exact Nat.succ_le_succ (same ▸ before)
    · rw [setOther same,List.count_cons_of_ne (Ne.symm same)]
      exact before
  · intro n taken
    rcases List.mem_cons.mp taken with rfl | before
    · exact inside
    · exact sound.held n before

structure Added (r t : Registry) (module : FuseModule) : Prop where
  modules : t.modules = r.next :: r.modules
  next : t.next = r.next + 1
  mine : t.mods r.next = module
  theirs : ∀ m, m ≠ r.next → t.mods m = r.mods m
  soNext : r.soNext ≤ t.soNext
  soCtr : ∀ so < r.soNext, t.soCtr so = r.soCtr so
  fresh : ∀ so, module.so = some so → r.soNext ≤ so ∧ so < t.soNext ∧ t.soCtr so = 1 ∧ 0 < module.ctr
  builtin : t.builtin = r.builtin

theorem Added.sound {r t : Registry} {module : FuseModule} {held : List Nat} (step : Added r t module)
    (sound : Sound r held) :
    Sound t (List.replicate module.ctr r.next ++ held) := by
  have fresh : r.next ∉ r.modules := fun listed => Nat.lt_irrefl _ (sound.old _ listed)
  have other {m : Nat} (listed : m ∈ r.modules) : m ≠ r.next := fun same => fresh (same ▸ listed)
  have kept {m : Nat} (listed : m ∈ r.modules) : t.mods m = r.mods m := step.theirs m (other listed)
  have listedIn {m : Nat} (listed : m ∈ t.modules) : m = r.next ∨ m ∈ r.modules :=
    List.mem_cons.mp (step.modules ▸ listed)
  have theirSo {m so : Nat} (listed : m ∈ r.modules) (has : (t.mods m).so = some so) :
      so < r.soNext ∧ r.soCtr so = 1 ∧ 0 < (r.mods m).ctr := sound.so m listed so (kept listed ▸ has)
  refine ⟨?_,?_,?_,?_,?_,?_⟩
  · rw [step.modules]
    exact List.nodup_cons.mpr ⟨fresh,sound.nodup⟩
  · intro m listed
    rw [step.next]
    rcases listedIn listed with rfl | listed
    · exact Nat.lt_succ_self _
    · exact Nat.lt_succ_of_lt (sound.old m listed)
  · intro m listed so has
    rcases listedIn listed with rfl | listed
    · rw [step.mine] at has ⊢
      exact (step.fresh so has).2
    · obtain ⟨older,one,pos⟩ := theirSo listed has
      rw [step.soCtr so older,kept listed]
      exact ⟨Nat.lt_of_lt_of_le older step.soNext,one,pos⟩
  · intro m listed n listed' so has has'
    rcases listedIn listed with rfl | listed <;> rcases listedIn listed' with rfl | listed'
    · rfl
    · have newer := (step.fresh so (step.mine ▸ has)).1
      exact absurd (theirSo listed' has').1 (Nat.not_lt_of_le newer)
    · have newer := (step.fresh so (step.mine ▸ has')).1
      exact absurd (theirSo listed has).1 (Nat.not_lt_of_le newer)
    · exact sound.single m listed n listed' so (kept listed ▸ has) (kept listed' ▸ has')
  · intro m listed
    rw [List.count_append,List.count_replicate]
    rcases listedIn listed with rfl | listed
    · have none : held.count r.next = 0 := List.count_eq_zero.mpr fun taken => fresh (sound.held _ taken)
      rw [none,step.mine,if_pos (by simp)]
      exact Nat.le_refl _
    · have apart : ¬(r.next == m) = true := fun same => other listed (eq_of_beq same).symm
      rw [if_neg apart,Nat.zero_add,kept listed]
      exact sound.counts m listed
  · intro m taken
    rw [step.modules]
    rcases List.mem_append.mp taken with new | before
    · rw [(List.mem_replicate.mp new).2]
      exact List.mem_cons_self
    · exact List.mem_cons_of_mem _ (sound.held m before)

theorem loaded (r : Registry) (name : CString.Bytes) :
    ∃ t, fuseFindModule (fuseLoadSoModule r true name).1 name = (t,some r.next) ∧ Added r t ⟨name,some r.soNext,1⟩ ∧
      t.tried = r.tried ++ [name] := by
  have first : (fuseLoadSoModule r true name).1.modules.find?
      (fun m => ((fuseLoadSoModule r true name).1.mods m).name = name) = some r.next := by
    simp [fuseLoadSoModule,fuseRegisterModule]
  refine ⟨_,by rw [fuseFindModule,first],?_,rfl⟩
  constructor <;> simp +contextual [fuseLoadSoModule,fuseRegisterModule,Registry.setCtr,Function.update_apply]
  omega

theorem registered (r : Registry) (name : CString.Bytes) :
    Added r (fuseRegisterModule r true name none).1 ⟨name,none,0⟩ := by
  constructor <;> simp +contextual [fuseRegisterModule]

structure PutBack (r t : Registry) (m : Nat) : Prop where
  sub : t.modules.Sublist r.modules
  mine : m ∈ t.modules ↔ 1 < (r.mods m).ctr
  theirs : ∀ n, n ≠ m → (n ∈ t.modules ↔ n ∈ r.modules)
  mods : t.mods = (r.setCtr m ((r.mods m).ctr - 1)).mods
  soCtr : ∀ n ∈ t.modules, ∀ so, (r.mods n).so = some so → t.soCtr so = r.soCtr so
  next : t.next = r.next
  soNext : t.soNext = r.soNext
  tried : t.tried = r.tried
  builtin : t.builtin = r.builtin

theorem putBack {r : Registry} {held : List Nat} {m : Nat} (sound : Sound r held) (inside : m ∈ r.modules) :
    PutBack r (fusePutModule r m) m := by
  unfold fusePutModule
  dsimp only
  rw [setSame]
  dsimp only
  split
  · rename_i last
    split
    · rename_i none
      refine ⟨List.erase_sublist,?_,?_,rfl,fun _ _ _ _ => rfl,rfl,rfl,rfl,rfl⟩
      · have gone : m ∉ (r.setCtr m ((r.mods m).ctr - 1)).modules.erase m := fun listed =>
          (sound.nodup.mem_erase_iff.mp listed).1 rfl
        exact ⟨fun listed => absurd listed gone,fun more => by omega⟩
      · intro n other
        exact List.mem_erase_of_ne other
    · rename_i so has
      obtain ⟨older,one,pos⟩ := sound.so m inside so has
      have empty : (Function.update r.soCtr so (r.soCtr so - 1)) so = 0 := by rw [Function.update_self,one]
      have others {n : Nat} (listed : n ∈ r.modules) (other : n ≠ m) : (r.mods n).so ≠ some so := fun same =>
        other (sound.single n listed m inside so same has)
      rw [if_pos (by exact empty)]
      refine ⟨List.filter_sublist,?_,?_,rfl,?_,rfl,rfl,rfl,rfl⟩
      · constructor
        · intro listed
          have kept := of_decide_eq_true (List.mem_filter.mp listed).2
          rw [setSo] at kept
          exact absurd has kept
        · intro more
          omega
      · intro n other
        rw [List.mem_filter]
        constructor
        · exact And.left
        · intro listed
          refine ⟨listed,decide_eq_true ?_⟩
          rw [setSo]
          exact others listed other
      · intro n listed so' has'
        have kept := of_decide_eq_true (List.mem_filter.mp listed).2
        rw [setSo,has'] at kept
        exact Function.update_of_ne (fun same => kept (congrArg some same)) _ _
  · rename_i more
    refine ⟨List.Sublist.refl _,?_,fun _ _ => Iff.rfl,rfl,fun _ _ _ _ => rfl,rfl,rfl,rfl,rfl⟩
    constructor
    · intro _
      omega
    · intro _
      exact inside

theorem PutBack.sound {r t : Registry} {held : List Nat} {m : Nat} (step : PutBack r t m) (sound : Sound r held)
    (less : held.count m < (r.mods m).ctr ∨ held.count m = 0) : Sound t held := by
  have before {n : Nat} (listed : n ∈ t.modules) : n ∈ r.modules := step.sub.subset listed
  have so {n : Nat} : (t.mods n).so = (r.mods n).so := by rw [step.mods,setSo]
  refine ⟨step.sub.nodup sound.nodup,?_,?_,?_,?_,?_⟩
  · intro n listed
    rw [step.next]
    exact sound.old n (before listed)
  · intro n listed k has
    rw [so] at has
    obtain ⟨older,one,pos⟩ := sound.so n (before listed) k has
    rw [step.soNext,step.soCtr n listed k has]
    refine ⟨older,one,?_⟩
    rw [step.mods]
    by_cases same : n = m
    · subst n
      rw [setSame]
      exact Nat.sub_pos_of_lt (step.mine.mp listed)
    · rw [setOther same]
      exact pos
  · intro n listed k listed' x has has'
    exact sound.single n (before listed) k (before listed') x (so ▸ has) (so ▸ has')
  · intro n listed
    rw [step.mods]
    by_cases same : n = m
    · subst n
      rw [setSame]
      show _ ≤ _ - 1
      omega
    · rw [setOther same]
      exact sound.counts n (before listed)
  · intro n taken
    by_cases same : n = m
    · subst n
      have pos := List.count_pos_iff.mpr taken
      exact step.mine.mpr (by omega)
    · exact (step.theirs n same).mpr (sound.held n taken)

theorem Sound.weaken {r : Registry} {held less : List Nat} (sound : Sound r held)
    (le : ∀ m, less.count m ≤ held.count m) :
    Sound r less := by
  refine ⟨sound.nodup,sound.old,sound.so,sound.single,?_,?_⟩
  · intro m listed
    exact Nat.le_trans (le m) (sound.counts m listed)
  · intro m taken
    have pos := List.count_pos_iff.mpr taken
    exact sound.held m (List.count_pos_iff.mp (Nat.lt_of_lt_of_le pos (le m)))

inductive Got (r : Registry) (name : CString.Bytes) : Registry × Option Nat → Prop
  | found {m} (listed : m ∈ r.modules) (named : (r.mods m).name = name) :
      Got r name (r.setCtr m ((r.mods m).ctr + 1),some m)
  | loaded {t} (absent : ∀ m ∈ r.modules, (r.mods m).name ≠ name) (step : Added r t ⟨name,some r.soNext,1⟩)
      (tried : t.tried = r.tried ++ [name]) : Got r name (t,some r.next)
  | missed (absent : ∀ m ∈ r.modules, (r.mods m).name ≠ name) : Got r name ({r with tried := r.tried ++ [name]},none)

theorem got (r : Registry) (loads : Bool) (name : CString.Bytes) : Got r name (fuseGetModule r loads name) := by
  unfold fuseGetModule
  cases found : r.modules.find? fun m => (r.mods m).name = name with
  | some m =>
    obtain ⟨listed,named⟩ := foundListed found
    simp only [fuseFindModule,found]
    exact .found listed named
  | none =>
    have absent : ∀ m ∈ r.modules, (r.mods m).name ≠ name := fun m listed same =>
      List.find?_eq_none.mp found m listed (decide_eq_true same)
    have first : fuseFindModule r name = (r,none) := by rw [fuseFindModule,found]
    rw [first]
    cases loads with
    | false => exact .missed absent
    | true =>
      obtain ⟨t,second,step,tried⟩ := loaded r name
      have done : (fuseLoadSoModule r true name).2 = true := rfl
      dsimp only
      generalize fuseLoadSoModule r true name = answer at second done ⊢
      obtain ⟨u,_⟩ := answer
      cases done
      dsimp only at second ⊢
      rw [second]
      exact .loaded absent step tried

inductive Pushed (r : Registry) (name : CString.Bytes) : Bool → Registry × Option Nat → Prop
  | held {t m} (got : Got r name (t,some m)) : Pushed r name true (t,some m)
  | refused {t m} (got : Got r name (t,some m)) : Pushed r name false (fusePutModule t m,none)
  | missed {t} (got : Got r name (t,none)) (factory : Bool) : Pushed r name factory (t,none)

theorem pushed (r : Registry) (e : Push) (name : CString.Bytes) :
    Pushed r name e.factory (fusePushModule r e name) := by
  have found := got r e.loads name
  unfold fusePushModule
  generalize fuseGetModule r e.loads name = result at found
  obtain ⟨t,module⟩ := result
  cases module with
  | none => exact .missed found e.factory
  | some m =>
    dsimp only
    cases made : e.factory with
    | true => exact .held found
    | false => exact .refused found

theorem Got.sound {r t : Registry} {held : List Nat} {name : CString.Bytes} {m : Nat} (step : Got r name (t,some m))
    (sound : Sound r held) : Sound t (m :: held) := by
  cases step with
  | found listed named => exact sound.count listed
  | loaded absent step tried => exact step.sound sound

theorem Got.missedSound {r t : Registry} {held : List Nat} {name : CString.Bytes} (step : Got r name (t,none))
    (sound : Sound r held) : Sound t held := by
  cases step with
  | missed absent => exact ⟨sound.nodup,sound.old,sound.so,sound.single,sound.counts,sound.held⟩

theorem Sound.put {r : Registry} {held : List Nat} {m : Nat} (sound : Sound r (m :: held)) :
    Sound (fusePutModule r m) held := by
  have inside := sound.held m List.mem_cons_self
  have counted := sound.counts m inside
  rw [List.count_cons_self] at counted
  have without : Sound r held := sound.weaken fun n => List.count_le_count_cons
  exact (putBack sound inside).sound without (.inl counted)

/- What the list of one fuse_new leaves: all its modules held, or none of them. -/
theorem pushAllSound {l : List (CString.Bytes × Push)} {r : Registry} {held : List Nat} (sound : Sound r held) :
    Sound (pushAll l r).1 (((pushAll l r).2.getD []) ++ held) := by
  induction l generalizing r held with
  | nil => exact sound
  | cons n l ih =>
    obtain ⟨name,e⟩ := n
    have step := pushed r e name
    unfold pushAll
    generalize fusePushModule r e name = result at step
    generalize e.factory = factory at step
    cases step with
    | refused got => exact (got.sound sound).put
    | missed got => exact got.missedSound sound
    | @held t m got =>
      have rest := ih (got.sound sound)
      dsimp only
      cases pushed : (pushAll l t).2 with
      | none =>
        rw [pushed] at rest
        exact rest.weaken fun n => List.count_le_count_cons
      | some modules =>
        rw [pushed] at rest
        refine rest.weaken fun n => ?_
        show (m :: (modules ++ held)).count n ≤ (modules ++ m :: held).count n
        rw [List.Perm.count_eq List.perm_middle]

theorem Sound.register {r : Registry} {held : List Nat} (sound : Sound r held) (memory : Bool) (name : CString.Bytes) :
    Sound (fuseRegisterModule r memory name none).1 held := by
  cases memory with
  | false => exact sound
  | true => exact (registered r name).sound sound

theorem Sound.builtin {r : Registry} {held : List Nat} (sound : Sound r held) (e : NewRun) :
    Sound (registerBuiltin r e) held := by
  unfold registerBuiltin
  split
  · exact sound
  · have first := sound.register e.memory subdir
    have second :
      Sound (if e.haveIconv then (fuseRegisterModule (fuseRegisterModule r e.memory subdir none).1 e.iconvMemory
        iconv none).1 else (fuseRegisterModule r e.memory subdir none).1) held := by
      split
      · exact first.register e.iconvMemory iconv
      · exact first
    exact ⟨second.nodup,second.old,second.so,second.single,second.counts,second.held⟩

theorem turnsApart {r : Registry} {m : Nat} (inside : m ∈ r.modules) :
    r.turns = (r.mods m).ctr + 1 + ((r.modules.erase m).map fun n => (r.mods n).ctr + 1).sum := by
  have perm := (List.perm_cons_erase inside).map fun n => (r.mods n).ctr + 1
  rw [Registry.turns,perm.sum_eq]
  rfl

theorem PutBack.turns {r t : Registry} {held : List Nat} {m : Nat} (step : PutBack r t m) (sound : Sound r held)
    (inside : m ∈ r.modules) : t.turns < r.turns := by
  have apart : m ∉ r.modules.erase m := fun listed => (sound.nodup.mem_erase_iff.mp listed).1 rfl
  have rest : ((r.modules.erase m).map fun n => (t.mods n).ctr + 1) = (r.modules.erase m).map fun n =>
      (r.mods n).ctr + 1 := by
    apply List.map_congr_left
    intro n listed
    have other : n ≠ m := fun same => apart (same ▸ listed)
    rw [step.mods,setOther other]
  have whole := turnsApart inside
  by_cases stays : m ∈ t.modules
  · have more := step.mine.mp stays
    have same : t.modules = r.modules := step.sub.eq_of_length_le
      (sound.nodup.length_le_of_subset fun n listed => by
        by_cases mine : n = m
        · exact mine ▸ stays
        · exact (step.theirs n mine).mpr listed)
    have left := turnsApart stays
    rw [same,rest,step.mods,setSame] at left
    dsimp only at left
    omega
  · have sub : t.modules.Sublist (r.modules.erase m) := by
      have erased := step.sub.erase m
      rwa [List.erase_of_not_mem stays] at erased
    have less : t.turns ≤ ((r.modules.erase m).map fun n => (t.mods n).ctr + 1).sum :=
      (sub.map fun n => (t.mods n).ctr + 1).sum_le_sum fun _ _ => Nat.zero_le _
    rw [rest] at less
    omega

theorem putAllEmpty {turns : Nat} {r : Registry} (sound : Sound r []) (enough : r.turns ≤ turns) :
    (putAll turns r).modules = [] ∧ (putAll turns r).tried = r.tried ∧ (putAll turns r).builtin = r.builtin := by
  induction turns generalizing r with
  | zero =>
    have none : r.modules = [] := by
      cases listed : r.modules with
      | nil => rfl
      | cons m rest =>
        have whole := turnsApart (r := r) (m := m) (listed ▸ List.mem_cons_self)
        omega
    exact ⟨none,rfl,rfl⟩
  | succ turns ih =>
    unfold putAll
    cases listed : r.modules with
    | nil => exact ⟨listed,rfl,rfl⟩
    | cons m rest =>
      have inside : m ∈ r.modules := listed ▸ List.mem_cons_self
      have step := putBack sound inside
      have less := step.turns sound inside
      obtain ⟨empty,tried,builtin⟩ := ih (step.sound sound (.inr rfl)) (by omega)
      exact ⟨empty,tried.trans step.tried,builtin.trans step.builtin⟩

def heldModules (live : List Instance) : List Nat := live.flatMap Instance.modules

theorem newSound {p : Process} (sound : Sound p.registry (heldModules p.live)) (e : NewRun) :
    Sound (fuseNew p e).registry (heldModules (fuseNew p e).live) := by
  have started := sound.builtin e
  have all := pushAllSound (l := e.list) started
  unfold fuseNew
  split
  · dsimp only
    split
    · generalize pushAll e.list (registerBuiltin p.registry e) = result at all
      obtain ⟨r,modules⟩ := result
      cases modules with
      | none => exact all
      | some modules =>
        dsimp only
        split
        · exact all
        · have sub : (heldModules p.live).Sublist (modules ++ heldModules p.live) := List.sublist_append_right _ _
          exact all.weaken fun m => sub.count_le m
    · exact started
  · exact sound

theorem destroyEmpty {p : Process} (sound : Sound p.registry (heldModules p.live)) (f : Nat) :
    (fuseDestroy p f).registry.modules = [] ∧ (fuseDestroy p f).registry.tried = p.registry.tried ∧
      (fuseDestroy p f).registry.builtin = p.registry.builtin :=
  putAllEmpty (sound.weaken fun _ => Nat.zero_le _) (Nat.le_refl _)

end FuseStudy.ModuleRuns
