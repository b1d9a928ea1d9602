import FuseStudy.PathRuns

/-! A path that is barred stays barred while other paths are only locked, and an attempt to
get it comes back with EAGAIN as long as memory is not short. -/
namespace FuseStudy.NodeStore
open CString LinearHash Forest Script

variable {s s' s₂ : Fuse} {p q : Ptr} {n m : Node} {hs : List Held} {extra : Ptr → Nat} {want want1 want2 : Want}

def Ample (s : Fuse) : Prop := ∀ i, s.memory i = true

/-! Attempts when memory is not short. -/

theorem addNameAmple (ample : Ample s) (bufsize : Nat) (path name : Bytes) :
    Ample (s.addName bufsize path name).1 ∧ (s.addName bufsize path name).2 ≠ none := by
  unfold Fuse.addName Fuse.takeMem
  dsimp only
  split
  · exact ⟨fun i => ample (i+1),by simp [ample 0]⟩
  · exact ⟨ample,by simp⟩

theorem walkAmple {needLock : Bool} {r : Except (Int × Ptr) Bytes} (fuel : Nat) {p : Ptr} {bufsize : Nat} {path : Bytes}
    (ample : Ample s) (ran : walkPath needLock fuel s p bufsize path = .ok (s',r)) :
    Ample s' ∧ ∀ stop, r ≠ .error (-enomem,stop) := by
  induction fuel generalizing s p bufsize path with
  | zero => cases ran
  | succ fuel ih =>
    unfold walkPath at ran
    obtain ⟨n,_,ran⟩ := callBind ran
    split at ran
    · cases ran
      exact ⟨ample,(fun _ no => by cases no)⟩
    · split at ran
      · next name parent _ _ =>
        obtain ⟨ample₁,grown⟩ := addNameAmple ample bufsize path name
        split at ran
        · next short => exact absurd (congrArg Prod.snd short) grown
        · next s₁ bufsize₁ path₁ added =>
          rw [added] at ample₁
          split at ran
          · split at ran
            · cases ran
              exact ⟨ample₁,(fun _ no => by cases no)⟩
            · have same : Ample (s₁.put p {n with treelock := n.treelock + 1}) := ample₁
              exact ih same ran
          · exact ih ample₁ ran
      · cases ran
        exact ⟨ample,(fun _ no => by cases no)⟩

theorem unlockLoopMemory (fuel : Nat) {node stop : Option Ptr} (ran : unlockLoop fuel s node stop = .ok s') :
    s'.memory = s.memory := by
  induction fuel generalizing s node with
  | zero => cases ran
  | succ fuel ih =>
    unfold unlockLoop at ran
    split at ran
    · cases ran
      rfl
    · split at ran
      · cases ran
      · obtain ⟨n,_,ran⟩ := callBind ran
        split at ran
        · cases ran
          rfl
        · split at ran
          · cases ran
          · have rest := ih ran
            exact rest

theorem unlockPathMemory {nodeid : Ino} {wnode stop : Option Ptr} (ran : s.unlockPath nodeid wnode stop = .ok s') :
    s'.memory = s.memory := by
  have loop : ∀ s₁ : Fuse, (s₁.getNode nodeid).bind (fun p => unlockLoop (s₁.brk + 1) s₁ (some p) stop) = .ok s' →
      s'.memory = s₁.memory := by
    intro s₁ ran
    obtain ⟨p,_,ran⟩ := callBind ran
    exact unlockLoopMemory _ ran
  unfold Fuse.unlockPath at ran
  cases wnode with
  | none => exact loop s ran
  | some w =>
    obtain ⟨n,_,ran⟩ := callBind ran
    split at ran
    · cases ran
    · have rest := loop _ ran
      exact rest

theorem lockWnodeMemory {r : Option (Option Ptr)} (ran : s.lockWnode want = .ok (s',r)) : s'.memory = s.memory := by
  unfold Fuse.lockWnode at ran
  split at ran
  · cases ran
    rfl
  · cases ran
  · split at ran
    · cases ran
      rfl
    · obtain ⟨n,_,ran⟩ := callBind ran
      split at ran
      · cases ran
        split <;> rfl
      · cases ran
        rfl

theorem tryAmple {r : Except Int Held} (ample : Ample s) (ran : s.tryGetPath want true = .ok (s',r)) :
    Ample s' ∧ r ≠ .error (-enomem) := by
  have later : Ample {s with memory := fun i => s.memory (i+1)} := fun i => ample (i+1)
  unfold Fuse.tryGetPath Fuse.takeMem at ran
  rw [ample 0] at ran
  simp only [Bool.not_true,Bool.false_eq_true,if_false,and_false] at ran
  have started : Ample (({s with memory := fun i => s.memory (i+1)} : Fuse).startBuf want.name).1 ∧
      (({s with memory := fun i => s.memory (i+1)} : Fuse).startBuf want.name).2 ≠ none := by
    unfold Fuse.startBuf
    split
    · exact ⟨later,nofun⟩
    · exact addNameAmple later ..
  split at ran
  · next short => exact absurd (congrArg Prod.snd short) started.2
  · next s₁ bufsize path grown =>
    rw [grown] at started
    obtain ⟨⟨s₂,wnode⟩,locked,ran⟩ := callBind ran
    have ample₂ : Ample s₂ := fun i => by rw [lockWnodeMemory locked]; exact started.1 i
    cases wnode with
    | none =>
      cases ran
      exact ⟨ample₂,nofun⟩
    | some wnode =>
      obtain ⟨p,_,ran⟩ := callBind ran
      obtain ⟨⟨s₃,walked⟩,walk,ran⟩ := callBind ran
      obtain ⟨ample₃,plenty⟩ := walkAmple _ ample₂ walk
      cases walked with
      | ok path =>
        cases ran
        exact ⟨ample₃,nofun⟩
      | error stopped =>
        obtain ⟨err,stop⟩ := stopped
        obtain ⟨s₄,back,ran⟩ := callBind ran
        cases ran
        have same : s'.memory = s₃.memory := unlockPathMemory back
        refine ⟨fun i => by rw [same]; exact ample₃ i,?_⟩
        intro full
        cases full
        exact plenty _ rfl

theorem try2Ample {r : Except Int (Held × Held)} (ample : Ample s) (ran : s.tryGetPath2 want1 want2 = .ok (s',r)) :
    Ample s' ∧ r ≠ .error (-enomem) := by
  obtain ⟨⟨s₁,first⟩,ran₁,ran⟩ := callBind ran
  obtain ⟨ample₁,plenty₁⟩ := tryAmple ample ran₁
  cases first with
  | error err =>
    cases ran
    refine ⟨ample₁,?_⟩
    intro full
    cases full
    exact plenty₁ rfl
  | ok held1 =>
    obtain ⟨⟨s₂,second⟩,ran₂,ran⟩ := callBind ran
    obtain ⟨ample₂,plenty₂⟩ := tryAmple ample₁ ran₂
    cases second with
    | ok held2 =>
      cases ran
      exact ⟨ample₂,nofun⟩
    | error err =>
      obtain ⟨s₃,back,ran⟩ := callBind ran
      cases ran
      refine ⟨fun i => by rw [unlockPathMemory back]; exact ample₂ i,?_⟩
      intro full
      cases full
      exact plenty₂ rfl

/-! Paths that are barred. -/

def Reaches (s : Fuse) (want : Want) : Prop :=
  ∃ p l top, s.getNodeNocheck want.nodeid = some p ∧ Climb (upOf s.heap) p l top ∧ IsRoot s top

theorem Tree.targetKnown (tree : Tree extra s) (wanted : want.target s = some q) :
    s.getNodeNocheck want.nodeid ≠ none := by
  obtain ⟨name,_,lookup⟩ := Want.targetIs wanted
  obtain ⟨named,at_⟩ := (tree.toStore.lookupIff want.nodeid name).mp lookup
  obtain ⟨n,d,k,_,_,_,alive,id⟩ := entryIff.mp at_
  rw [(tree.toStore.getNodeIff want.nodeid).mpr ⟨(tree.alive d k alive).1,k,alive,id⟩]
  nofun

theorem Busy.again (busy : Busy s want) (tree : Tree extra s) (named : want.write = true → want.name ≠ none)
    (ample : Ample s) :
    ∃ s', s.tryGetPath want true = .ok (s',.error (-eagain)) := by
  obtain ⟨⟨s₁,r⟩,ran,tried⟩ | ⟨_,unknown⟩ := tryGetPathSpec tree named
  · have plenty := (tryAmple ample ran).2
    refine ⟨s₁,ran.trans ?_⟩
    cases tried with
    | marked => rfl
    | @granted p top l memory found climb root free clear =>
      rcases busy with ⟨w,wanted,taken⟩ | ⟨p',l',stop,found',climb',up,negative⟩
      · exact absurd (clear w wanted).2.1 taken
      · rw [found] at found'
        cases found'
        have positive := free stop (climb.passes root.top climb' up)
        omega
    | @refused err memory why =>
      rcases why with rfl | ⟨rfl,p,l,stop,found,climb,top,_,free,clear⟩ | ⟨rfl,_⟩
      · exact absurd rfl plenty
      · rcases busy with ⟨w,wanted,taken⟩ | ⟨p',l',stop',found',climb',up,negative⟩
        · exact absurd (clear w wanted) taken
        · rw [found] at found'
          cases found'
          have positive := free stop' (climb.passes top climb' up)
          rw [claimedAt _ fun wanted => tree.targetBelow wanted found climb' rfl] at positive
          omega
      · rfl
  · rcases busy with ⟨w,wanted,_⟩ | ⟨p,_,_,found,_⟩
    · exact absurd unknown (tree.targetKnown wanted)
    · rw [unknown] at found
      cases found

theorem Reaches.grants (reaches : Reaches s want) (free : ¬ Busy s want) (tree : Tree extra s)
    (named : want.write = true → want.name ≠ none) (ample : Ample s) :
    ∃ s' held, s.tryGetPath want true = .ok (s',.ok held) ∧ Tried s want (s',.ok held) := by
  obtain ⟨p,l,top,found,climb,root⟩ := reaches
  obtain ⟨⟨s₁,r⟩,ran,tried⟩ | ⟨_,unknown⟩ := tryGetPathSpec tree named
  · have plenty := (tryAmple ample ran).2
    cases r with
    | ok held => exact ⟨s₁,held,ran,tried⟩
    | error err =>
      have waits := fun again => tried.waits tree (congrArg Except.error again)
      cases tried with
      | marked => exact absurd (waits rfl) free
      | refused memory why =>
        rcases why with rfl | ⟨_,p',l',stop,found',climb',top',below,_⟩ | ⟨again,_⟩
        · exact absurd rfl plenty
        · rw [found] at found'
          cases found'
          obtain ⟨_,rfl⟩ := climb.unique climb' root.top top'
          exact absurd root below
        · exact absurd (waits again) free
  · rw [unknown] at found
    cases found

/-! What attempts do to the locks. -/

/- Only locks have changed, none has become free and none has opened for readers. -/
structure Tighter (s s' : Fuse) : Prop where
  relocked : ∃ locks memory, s' = s.relock locks memory
  taken : ∀ p, s.lock p ≠ 0 → s'.lock p ≠ 0
  blocked : ∀ p, s.lock p < 0 → s'.lock p < 0

theorem Tighter.refl (s : Fuse) : Tighter s s :=
  ⟨⟨s.lock,s.memory,(relockSelf s s.memory).symm⟩,fun _ => id,fun _ => id⟩

theorem Tighter.trans (first : Tighter s s') (second : Tighter s' s₂) : Tighter s s₂ := by
  obtain ⟨locks,memory,rfl⟩ := first.relocked
  obtain ⟨locks₂,memory₂,rfl⟩ := second.relocked
  exact ⟨⟨locks₂,memory₂,relockRelock ..⟩,fun p taken => second.taken p (first.taken p taken),
    fun p blocked => second.blocked p (first.blocked p blocked)⟩

theorem lockLive (taken : s.lock p ≠ 0) : s.heap p ≠ none := by
  intro none
  simp [Fuse.lock,none] at taken

theorem tighterRelock {locks : Ptr → Int} (memory : Nat → Bool) (taken : ∀ p, s.lock p ≠ 0 → locks p ≠ 0)
    (blocked : ∀ p, s.lock p < 0 → locks p < 0) : Tighter s (s.relock locks memory) := by
  refine ⟨⟨locks,memory,rfl⟩,fun p was => ?_,fun p was => ?_⟩
  · rw [lockRelocked (lockLive was)]
    exact taken p was
  · rw [lockRelocked (lockLive (Int.ne_of_lt was))]
    exact blocked p was

theorem markTighter (locked : Locked hs s) (few : Few hs) (w : Ptr) (memory : Nat → Bool) :
    Tighter s (s.relock (marked s.lock w) memory) := by
  have below : ∀ p, s.lock p ≠ 0 → 0 < s.lock p → s.lock p + treelockWaitOffset < 0 := by
    intro p taken positive
    have is := ((locked.at (lockLive taken)).ofPositive (Int.le_of_lt positive) (few.readers s p)).2
    have bound := few.readers s p
    simp only [treelockWaitOffset]
    omega
  refine tighterRelock memory (fun p taken => ?_) fun p negative => ?_
  · rw [markedAt]
    split
    · split
      · next positive => exact Int.ne_of_lt (below p taken positive)
      · exact taken
    · exact taken
  · rw [markedAt]
    split
    · rw [if_neg (by omega)]
      exact negative
    · exact negative

theorem Tried.tighter {r : Fuse × Except Int Held} (tried : Tried s want r) (locked : Locked hs s)
    (few : Few hs) : Tighter s r.1 := by
  cases tried with
  | refused memory => exact tighterRelock memory (fun _ => id) fun _ => id
  | marked memory => exact markTighter locked few _ memory
  | @granted p top l memory found climb root free clear =>
    have other : ∀ q, s.lock q ≠ 0 → want.target s ≠ some q := fun q taken wanted => taken (clear q wanted).2.1
    refine tighterRelock memory (fun q taken => ?_) fun q negative => ?_
    · rw [raised,claimedAt _ (other q taken)]
      split
      · next passed =>
        have positive := free q passed
        omega
      · exact taken
    · rw [raised,claimedAt _ (other q (Int.ne_of_lt negative)),if_neg]
      · exact negative
      · intro passed
        have positive := free q passed
        omega

/-! What bars a path goes on barring it. -/

theorem Occupied.tighter (occupied : Occupied s want s.lock) (tighter : Tighter s s') : Occupied s' want s'.lock := by
  obtain ⟨p,l,stop,found,climb,up,negative⟩ := occupied
  have lower := tighter.blocked stop negative
  obtain ⟨locks,memory,rfl⟩ := tighter.relocked
  exact ⟨p,l,stop,(getNodeRelock _).trans found,climb.frame fun q _ => upRelock q,by rwa [upRelock],lower⟩

theorem Busy.tighter (busy : Busy s want) (tighter : Tighter s s') : Busy s' want := by
  rcases busy with ⟨w,wanted,taken⟩ | occupied
  · have still := tighter.taken w taken
    obtain ⟨locks,memory,rfl⟩ := tighter.relocked
    exact .inl ⟨w,(targetRelock want).trans wanted,still⟩
  · exact .inr (occupied.tighter tighter)

theorem Reaches.tighter (reaches : Reaches s want) (tighter : Tighter s s') : Reaches s' want := by
  obtain ⟨p,l,top,found,climb,root⟩ := reaches
  obtain ⟨locks,memory,rfl⟩ := tighter.relocked
  exact ⟨p,l,top,(getNodeRelock _).trans found,climb.frame fun q _ => upRelock q,isRootRelock root⟩

theorem Clash.tighter (clash : Clash s want1 want2) (tighter : Tighter s s') : Clash s' want1 want2 := by
  obtain ⟨locks,memory,rfl⟩ := tighter.relocked
  simpa only [Clash,targetRelock,chainRelock] using clash

/- One of the two paths is barred: the first by the locks, the second by the locks or by the
first one once it is held. -/
def Barred2 (s : Fuse) (want1 want2 : Want) : Prop :=
  Busy s want1 ∨ (Reaches s want1 ∧ (Busy s want2 ∨ Clash s want1 want2))

theorem Barred2.tighter (barred : Barred2 s want1 want2) (tighter : Tighter s s') : Barred2 s' want1 want2 :=
  barred.imp (fun busy => busy.tighter tighter) fun second => ⟨second.1.tighter tighter,
    second.2.imp (fun busy => busy.tighter tighter) fun clash => clash.tighter tighter⟩

theorem Clash.busy {s₁ : Fuse} {held1 : Held} (clash : Clash s want1 want2) (tree : Tree extra s)
    (first : Tried s want1 (s₁,.ok held1)) : Busy s₁ want2 := by
  cases first with
  | @granted p top l memory found climb root free clear =>
    have value : ∀ q, s.heap q ≠ none → (s.relock (raised (claimed s.lock (want1.target s)) l) memory).lock q =
        raised (claimed s.lock (want1.target s)) l q := fun q live => lockRelocked live
    obtain ⟨w,⟨mine,theirs⟩ | ⟨wanted,passed⟩⟩ := clash
    · obtain ⟨live,_,outside⟩ := clear w mine
      have own : (s.relock (raised (claimed s.lock (want1.target s)) l) memory).lock w = treelockWrite := by
        rw [value w live,raised,if_neg outside,mine,claimed,Function.update_self]
      rcases theirs with wanted | passed
      · exact .inl ⟨w,(targetRelock want2).trans wanted,by rw [own]; decide⟩
      · unfold Fuse.chainOf at passed
        split at passed
        · cases passed
        · next q found2 =>
          obtain ⟨_,n,at_,_⟩ := (tree.toStore.getNodeIff _).mp found2
          obtain ⟨m,end_,climb2,top2⟩ := tree.grounded q (by rw [at_]; exact Option.some_ne_none _)
          rw [climb2.trail top2 (tree.climbShort (by rw [at_]; exact Option.some_ne_none _) climb2)] at passed
          obtain ⟨before,after,_,down,upper,more⟩ := climb2.suffix passed
          refine .inr ⟨q,before,w,(getNodeRelock _).trans found2,down.frame fun r _ => upRelock r,?_,
            by rw [own]; decide⟩
          rw [upRelock]
          cases upper with
          | here => exact absurd rfl more
          | step link _ =>
            rw [link]
            exact fun no => by cases no
    · rw [tree.chain found climb root] at passed
      obtain ⟨name,_,lookup⟩ := Want.targetIs wanted
      refine .inl ⟨w,(targetRelock want2).trans wanted,?_⟩
      rw [value w (tree.toSteady.lookupAlive lookup),raised,if_pos passed,claimedAt _ fun mine =>
        (clear w mine).2.2 passed]
      have positive := free w passed
      omega

theorem Tried2.tighter {r : Fuse × Except Int (Held × Held)} (tried : Tried2 s want1 want2 r) (tree : Tree extra s)
    (locked : Locked hs s) (few : hs.length + 1 < 2147483647) : Tighter s r.1 := by
  have few₁ : Few hs := Nat.lt_of_succ_lt few
  cases tried with
  | refused memory => exact tighterRelock memory (fun _ => id) fun _ => id
  | marked memory => exact markTighter locked few₁ _ memory
  | granted first second =>
    have once := first.tighter locked few₁
    exact once.trans (second.tighter (first.held tree locked few₁).1 few)

/- Two paths that are refused with EAGAIN are barred, -/
theorem refused2Barred (tree : Tree extra s) (named1 : want1.write = true → want1.name ≠ none)
    (named2 : want2.write = true → want2.name ≠ none) (ran : s.tryGetPath2 want1 want2 = .ok (s',.error (-eagain))) :
    Barred2 s want1 want2 := by
  obtain ⟨⟨s₁,first⟩,ran₁,ran⟩ := callBind ran
  obtain ⟨_,ok,tried₁⟩ | ⟨fault,_⟩ := tryGetPathSpec tree named1
  · rw [ran₁] at ok
    cases ok
    cases first with
    | error err =>
      cases ran
      exact .inl (tried₁.waits tree rfl)
    | ok held1 =>
      obtain ⟨⟨s₂,second⟩,ran₂,ran⟩ := callBind ran
      obtain ⟨locks,memory,_,tree₁⟩ := tried₁.tree tree
      have reaches : Reaches s want1 := by
        cases tried₁ with
        | granted memory found climb root free clear => exact ⟨_,_,_,found,climb,root⟩
      obtain ⟨_,ok,tried₂⟩ | ⟨fault,_⟩ := tryGetPathSpec tree₁ named2
      · dsimp only at ok
        rw [ran₂] at ok
        cases ok
        cases second with
        | ok held2 => cases ran
        | error err =>
          obtain ⟨s₃,_,ran⟩ := callBind ran
          cases ran
          exact .inr ⟨reaches,busyAfter tree tried₁ (tried₂.waits tree₁ rfl)⟩
      · dsimp only at fault
        rw [ran₂] at fault
        cases fault
  · rw [ran₁] at fault
    cases fault

/- and barred paths are refused with EAGAIN. -/
theorem Barred2.again (barred : Barred2 s want1 want2) (tree : Tree extra s) (locked : Locked hs s)
    (few : hs.length + 1 < 2147483647) (named1 : want1.write = true → want1.name ≠ none)
    (named2 : want2.write = true → want2.name ≠ none) (ample : Ample s) :
    ∃ s', s.tryGetPath2 want1 want2 = .ok (s',.error (-eagain)) := by
  unfold Fuse.tryGetPath2
  by_cases busy : Busy s want1
  · obtain ⟨s₁,ran⟩ := busy.again tree named1 ample
    rw [ran]
    exact ⟨s₁,rfl⟩
  · obtain ⟨reaches,second⟩ := barred.resolve_left busy
    obtain ⟨s₁,held1,ran₁,tried₁⟩ := reaches.grants busy tree named1 ample
    have few₁ : Few hs := Nat.lt_of_succ_lt few
    have blocked : Busy s₁ want2 := by
      rcases second with before | clash
      · exact before.tighter (tried₁.tighter locked few₁)
      · exact clash.busy tree tried₁
    obtain ⟨_,_,_,tree₁⟩ := tried₁.tree tree
    obtain ⟨s₂,ran₂⟩ := blocked.again tree₁ named2 (tryAmple ample ran₁).1
    obtain ⟨_,ok,tried₂⟩ | ⟨fault,_⟩ := tryGetPathSpec tree₁ named2
    · dsimp only at ok
      rw [ran₂] at ok
      cases ok
      obtain ⟨s₃,back,_⟩ := undoFirst tree locked few tried₁ tried₂
      rw [ran₁]
      simp only [bind,Except.bind,ran₂,back]
      exact ⟨s₃,rfl⟩
    · dsimp only at fault
      rw [ran₂] at fault
      cases fault

end FuseStudy.NodeStore
