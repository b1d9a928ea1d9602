import FuseStudy.NodeIdentity

/-! The counter that ids are taken from, and the list of all nodes a sequence of calls has
made: no two of them have the same id and generation while the generation has not wrapped. -/
namespace FuseStudy.NodeStore
open CString LinearHash

variable {fresh : Option Ptr} {s s' : Fuse} {p q : Ptr} {n m : Node}

theorem nextIdTurns {fuel : Nat} (small : s.ctr < 2 ^ 32 ∧ s.generation < 2 ^ 32) (ok : nextIdLoop fuel s = .ok s') :
    ∃ turns, 1 ≤ turns ∧ turns ≤ fuel ∧ s'.ctr = (s.ctr + turns) % 2 ^ 32 ∧
      s'.generation = (s.generation + (s.ctr + turns) / 2 ^ 32) % 2 ^ 32 := by
  induction fuel generalizing s with
  | zero => cases ok
  | succ fuel ih =>
    unfold nextIdLoop at ok
    simp only at ok
    generalize turned : (if (s.ctr + 1) % 2 ^ 32 = 0 then (s.generation + 1) % 2 ^ 32 else s.generation) = turn at ok
    have below : turn < 2 ^ 32 := by
      rw [← turned]
      split <;> omega
    split at ok
    · have first : (s.ctr + 1) % 2 ^ 32 < 2 ^ 32 := Nat.mod_lt _ (by decide)
      obtain ⟨turns,least,most,ctr,generation⟩ := ih ⟨first,below⟩ ok
      refine ⟨turns+1,by omega,by omega,by rw [ctr]; simp only; omega,?_⟩
      rw [generation,← turned]
      simp only
      split <;> omega
    · cases ok
      refine ⟨1,by omega,by omega,rfl,?_⟩
      change turn = _
      rw [← turned]
      split <;> omega

def Fuse.Taken (s : Fuse) (id : Ino) : Prop := id = 0 ∨ id = unknownIno ∨ ∃ p, s.getNodeNocheck id = some p

theorem nextIdPassed {fuel : Nat} {fault : Fault} (small : s.ctr < 2 ^ 32) (failed : nextIdLoop fuel s = .error fault) :
    ∀ turns, 1 ≤ turns → turns ≤ fuel → s.Taken ((s.ctr + turns) % 2 ^ 32) := by
  induction fuel generalizing s with
  | zero => exact fun turns least most => absurd most (by omega)
  | succ fuel ih =>
    unfold nextIdLoop at failed
    simp only at failed
    generalize (if (s.ctr + 1) % 2 ^ 32 = 0 then (s.generation + 1) % 2 ^ 32 else s.generation) = turn at failed
    split at failed
    · rename_i taken
      intro turns least most
      by_cases first : turns = 1
      · subst first
        exact taken.imp_right (Or.imp_right Option.isSome_iff_exists.mp)
      · have next : (s.ctr + 1) % 2 ^ 32 < 2 ^ 32 := Nat.mod_lt _ (by decide)
        have later := ih next failed (turns-1) (by omega) (by omega)
        have same : ((s.ctr + 1) % 2 ^ 32 + (turns - 1)) % 2 ^ 32 = (s.ctr + turns) % 2 ^ 32 := by omega
        rw [← same]
        exact later
    · cases failed

def liveNodes (s : Fuse) : Finset Ptr := (Finset.range s.brk).filter (fun p => (s.heap p).isSome)

/- A turn through all values of the counter that finds no free one has met a node for each of them. -/
theorem nextIdFound (known : Identified fresh s) (small : s.ctr < 2 ^ 32)
    (room : ((liveNodes s).filter (fun p => fresh ≠ some p)).card < 2 ^ 32 - 2) : ∃ s', s.nextId = .ok s' := by
  cases result : s.nextId with
  | ok s' => exact ⟨s',rfl⟩
  | error fault =>
    have passed := nextIdPassed small result
    have all : (Finset.Icc 1 (2 ^ 32 - 2) : Finset Nat) ⊆ ((liveNodes s).filter (fun p => fresh ≠ some p)).image
        (fun p => ((s.heap p).map Node.nodeid).getD 0) := by
      intro i between
      obtain ⟨least,most⟩ := Finset.mem_Icc.mp between
      have taken : s.Taken i := by
        have met := passed (if s.ctr < i then i - s.ctr else i + 2 ^ 32 - s.ctr) (by split <;> omega)
          (by split <;> omega)
        have same : (s.ctr + if s.ctr < i then i - s.ctr else i + 2 ^ 32 - s.ctr) % 2 ^ 32 = i := by split <;> omega
        rwa [same] at met
      obtain zero | unknown | ⟨p,found⟩ := taken
      · exact absurd zero (Nat.ne_of_gt least)
      · have under : i < unknownIno := Nat.lt_of_le_of_lt most (by decide)
        exact absurd unknown (Nat.ne_of_lt under)
      · obtain ⟨old,n,live,id⟩ := (known.getNodeIff i).mp found
        apply Finset.mem_image.mpr
        refine ⟨p,?_,?_⟩
        · simp only [liveNodes,Finset.mem_filter,Finset.mem_range,live,Option.isSome_some,and_true]
          refine ⟨?_,old⟩
          by_contra above
          rw [known.bound p (Nat.not_lt.mp above)] at live
          cases live
        · rw [live,Option.map_some,Option.getD_some,id]
    have many := (Finset.card_le_card all).trans Finset.card_image_le
    rw [Nat.card_Icc] at many
    omega

/- The node of find_node before it has a name. -/
theorem Identified.allocated (known : Identified none s) (n : Node) (ctr generation : Nat) (memory : Nat → Bool) :
    Identified (some s.brk)
      ({s with brk := s.brk + 1, ctr := ctr, generation := generation, memory := memory}.put s.brk n) := by
  have vacant := known.bound s.brk (Nat.le_refl _)
  have cells : ∀ q, q ≠ s.brk → ({s with brk := s.brk + 1, ctr := ctr, generation := generation, memory := memory}.put
      s.brk n).heap q = s.heap q := fun q other => putOther other ..
  have apart : ∀ q, Has s.idTable q → q ≠ s.brk := by
    rintro q hashed rfl
    obtain ⟨_,k,live⟩ := (known.hashed _).mp hashed
    rw [vacant] at live
    cases live
  refine ⟨?_,?_,?_,?_⟩
  · apply known.ids.congr
    intro q hashed
    simp only [Fuse.idHash,cells q (apart q hashed)]
  · intro q
    change Has s.idTable q ↔ _
    rw [known.hashed]
    by_cases here : q = s.brk
    · subst here
      simp [vacant]
    · rw [cells q here]
      simp [Ne.symm here]
  · intro a b j k oldA oldB atA atB same
    rw [cells a (fun h => oldA (congrArg some h.symm))] at atA
    rw [cells b (fun h => oldB (congrArg some h.symm))] at atB
    exact known.distinct a b j k (fun no => by cases no) (fun no => by cases no) atA atB same
  · intro q above
    have beyond : s.brk + 1 ≤ q := above
    exact (cells q (Nat.ne_of_gt beyond)).trans (known.bound q (Nat.le_of_succ_le beyond))

theorem Identified.freed (known : Identified (some p) s) : Identified none (s.freeNode p) := by
  have back : ∀ q k, (s.freeNode p).heap q = some k ↔ q ≠ p ∧ s.heap q = some k := by
    intro q k
    by_cases here : q = p
    · simp [Fuse.freeNode,here]
    · simp [Fuse.freeNode,here]
  refine ⟨?_,?_,?_,?_⟩
  · apply known.ids.congr
    intro q hashed
    obtain ⟨old,k,was⟩ := (known.hashed q).mp hashed
    rw [idHashLive ((back q k).mpr ⟨fun h => old (congrArg some h.symm),was⟩),idHashLive was]
  · intro q
    change Has s.idTable q ↔ _
    rw [known.hashed]
    simp only [back,ne_eq,Option.some.injEq,eq_comm (a := p),exists_and_left,reduceCtorEq,not_false_eq_true,true_and]
  · intro a b j k _ _ atA atB same
    obtain ⟨oldA,wasA⟩ := (back a j).mp atA
    obtain ⟨oldB,wasB⟩ := (back b k).mp atB
    exact known.distinct a b j k (by simpa using Ne.symm oldA) (by simpa using Ne.symm oldB) wasA wasB same
  · intro q above
    by_cases here : q = p
    · simp [Fuse.freeNode,here]
    · simp [Fuse.freeNode,here,known.bound q above]

theorem Identified.hashId (known : Identified (some p) s) (live : s.heap p = some n)
    (own : ∀ q m, q ≠ p → s.heap q = some m → m.nodeid ≠ n.nodeid) :
    Identified none (s.hashId p) := by
  have outside : ¬ Has s.idTable p := fun hashed => ((known.hashed p).mp hashed).1 rfl
  obtain ⟨valid,has⟩ := insertSpec known.ids outside (s.memory 0)
  refine ⟨valid,?_,?_,known.bound⟩
  · intro q
    change Has (insert s.idHash (s.memory 0) s.idTable p) q ↔ _
    rw [has,known.hashed]
    constructor
    · rintro (⟨_,at_⟩ | rfl)
      · exact ⟨nofun,at_⟩
      · exact ⟨nofun,n,live⟩
    · rintro ⟨_,at_⟩
      by_cases here : q = p
      · exact .inr here
      · exact .inl ⟨by simpa using Ne.symm here,at_⟩
  · intro a b j k _ _ atA atB same
    change s.heap a = some j at atA
    change s.heap b = some k at atB
    by_cases hereA : a = p
    · by_cases hereB : b = p
      · rw [hereA,hereB]
      · rw [hereA,live] at atA
        cases atA
        exact absurd same.symm (own b k hereB atB)
    · by_cases hereB : b = p
      · rw [hereB,live] at atB
        cases atB
        exact absurd same (own a j hereA atA)
      · exact known.distinct a b j k (by simpa using Ne.symm hereA) (by simpa using Ne.symm hereB) atA atB same

def turnOf (id : Ino) (generation : Nat) : Nat := generation * 2 ^ 32 + id

structure Makes (s s' : Fuse) : Prop where
  brk : s'.brk = s.brk + 1
  small : s'.ctr < 2 ^ 32 ∧ s'.generation < 2 ^ 32
  nonzero : s'.ctr ≠ 0
  unused : ∀ p n, s.heap p = some n → n.nodeid ≠ s'.ctr
  later : s.generation ≤ s'.generation → turnOf s.ctr s.generation < turnOf s'.ctr s'.generation
  nodes : ∀ p n', s'.heap p = some n' → (∃ n, s.heap p = some n ∧ n'.nodeid = n.nodeid ∧ n'.generation = n.generation) ∨
    (p = s.brk ∧ n'.nodeid = s'.ctr ∧ n'.generation = s'.generation)
  identified : Identified none s'

theorem nextIdSpec (small : s.ctr < 2 ^ 32 ∧ s.generation < 2 ^ 32) : Leads (fun s' => ∃ ctr generation,
      s' = {s with ctr := ctr, generation := generation} ∧ s.getNodeNocheck ctr = none ∧ ctr ≠ 0 ∧ ctr ≠ unknownIno ∧
      (ctr < 2 ^ 32 ∧ generation < 2 ^ 32) ∧
      (s.generation ≤ generation → turnOf s.ctr s.generation < turnOf ctr generation)) s.nextId := by
  rcases nextIdLoopSpec (2 ^ 32) s with exhausted | ⟨ctr,generation,found,unused,nonzero,known,_⟩
  · rw [Fuse.nextId,exhausted]
    exact .fault _ _
  · obtain ⟨turns,least,most,ctrIs,generationIs⟩ := nextIdTurns small found
    simp only at ctrIs generationIs
    rw [Fuse.nextId,found]
    refine ⟨ctr,generation,rfl,unused,nonzero,known,⟨?_,?_⟩,?_⟩
    · rw [ctrIs]
      exact Nat.mod_lt _ (by decide)
    · rw [generationIs]
      exact Nat.mod_lt _ (by decide)
    · intro kept
      rw [turnOf,turnOf,ctrIs,generationIs]
      rw [generationIs] at kept
      omega

theorem createLeads {parent : Ino} {name : Name} {memory : Nat → Bool} {ctr generation : Nat}
    (known : Identified none s) (small : ctr < 2 ^ 32 ∧ generation < 2 ^ 32) (nonzero : ctr ≠ 0)
    (unused : ∀ p n, s.heap p = some n → n.nodeid ≠ ctr)
    (later : s.generation ≤ generation → turnOf s.ctr s.generation < turnOf ctr generation)
    (new : n.nodeid = ctr ∧ n.generation = generation) :
    Leads (fun r => Makes s r.1) (do
      let (s',hashed) ← ({s with brk := s.brk + 1, ctr := ctr, generation := generation, memory := memory}.put
        s.brk n).hashName s.brk parent name
      if hashed then
        let s' := s'.hashId s.brk
        let n ← s'.deref s.brk
        .ok (s'.put s.brk n.incNlookup,some s.brk)
      else .ok (s'.freeNode s.brk,none)) := by
  have blank := known.allocated n ctr generation memory
  have cells : ∀ p k, ({s with brk := s.brk + 1, ctr := ctr, generation := generation, memory := memory}.put
      s.brk n).heap p = some k → (p = s.brk ∧ k = n) ∨ (p ≠ s.brk ∧ s.heap p = some k) := fun p k => atUpdate
  have base : ({s with brk := s.brk + 1, ctr := ctr, generation := generation, memory := memory}.put s.brk
    n).brk = s.brk + 1 ∧
      ({s with brk := s.brk + 1, ctr := ctr, generation := generation, memory := memory}.put s.brk n).ctr = ctr ∧
      ({s with brk := s.brk + 1, ctr := ctr, generation := generation, memory := memory}.put s.brk
        n).generation = generation :=
    ⟨rfl,rfl,rfl⟩
  generalize ({s with brk := s.brk + 1, ctr := ctr, generation := generation, memory := memory} : Fuse).put s.brk n = t
    at blank cells base ⊢
  obtain ⟨brkT,ctrT,generationT⟩ := base
  have named : Leads (fun r => Retains (some s.brk) t r.1) (t.hashName s.brk parent name) :=
    hashNameLeads t s.brk parent name
  refine named.bind ?_
  rintro ⟨u,hashed⟩ kept
  obtain ⟨brk,ctrIs,generationIs⟩ := kept.counters
  simp only at brk ctrIs generationIs ⊢
  have nodes : ∀ p k, u.heap p = some k →
      (∃ j, s.heap p = some j ∧ k.nodeid = j.nodeid ∧ k.generation = j.generation) ∨
      (p = s.brk ∧ k.nodeid = ctr ∧ k.generation = generation) := by
    intro p k now
    obtain ⟨j,was,id,stamp⟩ := kept.nodes p k now
    rcases cells p j was with ⟨here,rfl⟩ | ⟨_,before⟩
    · exact .inr ⟨here,id.trans new.1,stamp.trans new.2⟩
    · exact .inl ⟨j,before,id,stamp⟩
  have other : ∀ p k, p ≠ s.brk → u.heap p = some k → ∃ j, s.heap p = some j ∧ k.nodeid = j.nodeid := by
    intro p k differs now
    obtain ⟨j,was,id,_⟩ | ⟨here,_⟩ := nodes p k now
    · exact ⟨j,was,id⟩
    · exact absurd here differs
  have made : ∀ v : Fuse, v.brk = u.brk → v.ctr = u.ctr → v.generation = u.generation → Identified none v →
      (∀ p k, v.heap p = some k → ∃ j, u.heap p = some j ∧ k.nodeid = j.nodeid ∧ k.generation = j.generation) →
      Makes s v := by
    intro v sameBrk sameCtr sameGeneration identified back
    have ctrV := sameCtr.trans (ctrIs.trans ctrT)
    have generationV := sameGeneration.trans (generationIs.trans generationT)
    refine ⟨sameBrk.trans (brk.trans brkT),?_,?_,?_,?_,?_,identified⟩
    · rw [ctrV,generationV]
      exact small
    · rw [ctrV]
      exact nonzero
    · rw [ctrV]
      exact unused
    · rw [ctrV,generationV]
      exact later
    · intro p k now
      obtain ⟨j,was,id,stamp⟩ := back p k now
      rw [ctrV,generationV,id,stamp]
      exact nodes p j was
  cases hashed with
  | false =>
    refine made _ rfl rfl rfl (kept.identified blank).freed ?_
    intro p k now
    by_cases here : p = s.brk
    · simp [Fuse.freeNode,here] at now
    · exact ⟨k,by simpa [Fuse.freeNode,here] using now,rfl,rfl⟩
  | true =>
    simp only [if_true]
    refine (derefLeads _ s.brk).bind ?_
    intro k live
    change u.heap s.brk = some k at live
    have id : k.nodeid = ctr := by
      obtain ⟨j,was,_⟩ | ⟨_,id,_⟩ := nodes s.brk k live
      · rw [known.bound s.brk (Nat.le_refl _)] at was
        cases was
      · exact id
    have own : ∀ q j, q ≠ s.brk → u.heap q = some j → j.nodeid ≠ k.nodeid := by
      intro q j differs now same
      obtain ⟨i,was,sameId,_⟩ | ⟨here,_⟩ := nodes q j now
      · exact unused q i was (by rw [← sameId,same,id])
      · exact absurd here differs
    have hashedIn := (kept.identified blank).hashId live own
    have looked : Retains none (u.hashId s.brk) ((u.hashId s.brk).put s.brk k.incNlookup) := .put live rfl rfl
    exact made _ rfl rfl rfl (looked.identified hashedIn) looked.nodes

theorem okBind {α β : Type} (a : α) (next : α → Except Fault β) : (Except.ok a >>= next) = next a := rfl

structure Looks (s s' : Fuse) : Prop where
  retains : Retains none s s'
  names : s'.nameTable = s.nameTable
  lru : s'.lruTable.Sublist s.lruTable
  stay : ∀ p, s.heap p ≠ none → s'.heap p ≠ none

theorem Looks.refl (s : Fuse) : Looks s s := ⟨.refl s,rfl,List.Sublist.refl _,fun _ live => live⟩

theorem Looks.incNlookup (live : s.heap p = some n) : Looks s (s.put p n.incNlookup) := by
  refine ⟨.put live rfl rfl,rfl,List.Sublist.refl _,?_⟩
  intro q was
  by_cases here : q = p
  · simp [here]
  · rwa [putOther here]

theorem findNodeLeads (known : Identified none s) (small : s.ctr < 2 ^ 32 ∧ s.generation < 2 ^ 32) (parent : Ino)
    (name : Option Name) : Leads (fun r => Looks s r.1 ∨ Makes s r.1) (s.findNode parent name) := by
  have existing : ∀ p, Leads (fun r : Fuse × Option Ptr => Looks s r.1 ∨ Makes s r.1) (do
      let n ← s.deref p
      let s := if s.lruEnabled ∧ n.nlookup = 1 then s.removeNodeLru p else s
      .ok (s.put p n.incNlookup,some p)) := by
    intro p
    refine (derefLeads s p).bind ?_
    intro n live
    refine .inl ?_
    simp only
    split
    · have off : Retains none s (s.removeNodeLru p) := .tables ..
      have looks : Looks (s.removeNodeLru p) ((s.removeNodeLru p).put p n.incNlookup) := .incNlookup live
      exact ⟨off.trans looks.retains,looks.names,looks.lru.trans List.erase_sublist,looks.stay⟩
    · exact .incNlookup live
  unfold Fuse.findNode
  cases name with
  | none =>
    dsimp only
    cases s.getNode parent with
    | error fault => exact .fault _ _
    | ok p => exact existing p
  | some name =>
    dsimp only
    cases s.lookupNode parent name with
    | some p => exact existing p
    | none =>
      have blank := known.allocated Node.zero s.ctr s.generation (fun i => s.memory (i+1))
      have others : ∀ p n, s.heap p = some n → p ≠ s.brk := by
        rintro p n live rfl
        rw [known.bound s.brk (Nat.le_refl _)] at live
        cases live
      cases memory : s.memory 0 with
      | false =>
        simp only [okBind,Fuse.takeMem,memory]
        exact .inl ⟨.tables ..,rfl,List.Sublist.refl _,fun _ live => live⟩
      | true =>
        simp only [okBind,Fuse.takeMem,memory,if_true]
        refine Leads.bind (nextIdSpec small) ?_
        rintro t ⟨ctr,generation,rfl,free,nonzero,_,below,later⟩
        have unused : ∀ p n, s.heap p = some n → n.nodeid ≠ ctr := by
          intro p n live id
          have other := others p n live
          have found := (blank.getNodeIff ctr).mpr ⟨by simpa using Ne.symm other,n,(putOther other ..).trans live,id⟩
          rw [free] at found
          cases found
        simp only [putOver]
        refine (createLeads known below nonzero unused later ?_).imp fun _ => .inr
        split <;> exact ⟨rfl,rfl⟩

theorem Leads.any {α : Type} (run : Except Fault α) : Leads (fun _ => True) run := by
  cases run with
  | ok a => trivial
  | error fault => exact .fault _ _

theorem callAdvances {t : Session} (known : Identified none t.fuse)
    (small : t.fuse.ctr < 2 ^ 32 ∧ t.fuse.generation < 2 ^ 32) (call : Call) :
    Leads (fun t' => Retains none t.fuse t'.fuse ∨ Makes t.fuse t'.fuse) (t.call call) := by
  cases call with
  | find parent name =>
    refine (findNodeLeads known small parent name).bind ?_
    rintro ⟨s,found⟩ (looks | makes)
    · exact .inl looks.retains
    · exact .inr makes
  | forget nodeid nlookup =>
    refine (Leads.any (t.fuse.forgetWaits nodeid nlookup)).bind ?_
    intro waits _
    split
    · exact .inl (.refl _)
    · exact (forgetNodeLeads t.fuse nodeid nlookup).bind fun _ kept => .inl kept
  | remove dir name => exact (removeNodeLeads t.fuse dir name).bind fun _ kept => .inl kept
  | rename olddir oldname newdir newname hide =>
    exact (renameNodeLeads t.fuse olddir oldname newdir newname hide).bind fun _ kept => .inl kept
  | exchange olddir oldname newdir newname =>
    exact (exchangeNodeLeads t.fuse olddir oldname newdir newname).bind fun _ kept => .inl kept
  | clean aged => exact (cleanLoopLeads aged _ t.fuse _).bind fun _ kept => .inl kept
  | lock p treelock =>
    refine .inl ?_
    change Retains none t.fuse (t.fuse.setLock p treelock)
    unfold Fuse.setLock
    cases live : t.fuse.heap p with
    | none => exact .refl _
    | some n => exact .put live rfl rfl

/- The table before the first node is made: there is nothing in it but the root. -/
structure Virgin (s : Fuse) : Prop where
  names : ∀ p, ¬ Has s.nameTable p
  lru : s.lruTable = []
  only : ∀ p n, s.heap p = some n → p = 0 ∧ n.nodeid = rootId
  root : s.heap 0 ≠ none

theorem Virgin.lookup (virgin : Virgin s) (dir : Ino) (name : Name) : s.lookupNode dir name = none := by
  cases found : s.lookupNode dir name with
  | none => rfl
  | some p => exact absurd ⟨_,List.mem_of_find?_eq_some found⟩ (virgin.names p)

theorem Virgin.looks (virgin : Virgin s) (looks : Looks s s') : Virgin s' := by
  refine ⟨looks.names ▸ virgin.names,List.eq_nil_of_sublist_nil (virgin.lru ▸ looks.lru),?_,looks.stay 0 virgin.root⟩
  intro p n' now
  obtain ⟨n,was,id,_⟩ := looks.retains.nodes p n' now
  obtain ⟨here,root⟩ := virgin.only p n was
  exact ⟨here,id.trans root⟩

theorem virginCall {t : Session} (virgin : Virgin t.fuse) (known : Identified none t.fuse)
    (small : t.fuse.ctr < 2 ^ 32 ∧ t.fuse.generation < 2 ^ 32) (call : Call) :
    Leads (fun t' => Looks t.fuse t'.fuse ∨ Makes t.fuse t'.fuse) (t.call call) := by
  have unnamed := virgin.lookup
  cases call with
  | find parent name => exact (findNodeLeads known small parent name).bind fun _ either => either
  | forget nodeid nlookup =>
    refine (Leads.any (t.fuse.forgetWaits nodeid nlookup)).bind ?_
    intro waits _
    split
    · exact .inl (.refl _)
    · by_cases root : nodeid = rootId
      · rw [Fuse.forgetNode,if_pos root]
        exact .inl (.refl _)
      · rw [Fuse.forgetNode,if_neg root]
        cases found : t.fuse.getNodeNocheck nodeid with
        | none =>
          rw [Fuse.getNode,found]
          exact .fault _ _
        | some p =>
          obtain ⟨_,n,live,id⟩ := (known.getNodeIff nodeid).mp found
          exact absurd (id.symm.trans (virgin.only p n live).2) root
  | remove dir name =>
    simp only [Session.call,Fuse.removeNode,unnamed,okBind]
    exact .inl (.refl _)
  | rename olddir oldname newdir newname hide =>
    simp only [Session.call,Fuse.renameNode,unnamed,okBind]
    exact .inl (.refl _)
  | exchange olddir oldname newdir newname =>
    simp only [Session.call,Fuse.exchangeNode,Fuse.unhashNode,Fuse.hashNode,unnamed,okBind,if_true]
    exact .inl (.refl _)
  | clean aged =>
    simp only [Session.call,Fuse.cleanCache,virgin.lru,List.head?_nil,cleanLoop,okBind]
    exact .inl (.refl _)
  | lock p treelock =>
    refine .inl ?_
    change Looks t.fuse (t.fuse.setLock p treelock)
    unfold Fuse.setLock
    cases live : t.fuse.heap p with
    | none => exact .refl _
    | some n =>
      refine ⟨.put live rfl rfl,rfl,List.Sublist.refl _,?_⟩
      intro q was
      by_cases here : q = p
      · simp [here]
      · simpa [putOther here] using was

def Session.made (t t' : Session) : List (Ptr × Ino × Nat) :=
  if t.fuse.brk < t'.fuse.brk then [(t.fuse.brk,t'.fuse.ctr,t'.fuse.generation)] else []

/- All of them, also those that were freed again for want of memory for the name. -/
def Session.created : Session → List Call → List (Ptr × Ino × Nat)
  | _, [] => []
  | t, call :: rest => match t.call call with
    | .ok t' => t.made t' ++ t'.created rest
    | .error _ => []

/- No call turns the counter more than once, so the generation wraps where it goes down. -/
def Session.unwrapped : Session → List Call → Bool
  | _, [] => true
  | t, call :: rest => match t.call call with
    | .ok t' => decide (t.fuse.generation ≤ t'.fuse.generation) && t'.unwrapped rest
    | .error _ => true

structure Chronicle (log : List (Ptr × Ino × Nat)) (s : Fuse) : Prop where
  identified : Identified none s
  small : s.ctr < 2 ^ 32 ∧ s.generation < 2 ^ 32
  virgin : s.ctr = 0 → Virgin s
  logged : ∀ p n, s.heap p = some n → (p,n.nodeid,n.generation) ∈ log

/- The root has an id the counter comes to only after the start. -/
structure InOrder (log : List (Ptr × Ino × Nat)) (s : Fuse) : Prop where
  below : ∀ e ∈ log, e.1 < s.brk ∧ turnOf e.2.1 e.2.2 ≤ max 1 (turnOf s.ctr s.generation)
  sorted : log.Pairwise (fun a b => a.1 < b.1 ∧ turnOf a.2.1 a.2.2 < turnOf b.2.1 b.2.2)

theorem Chronicle.call {log : List (Ptr × Ino × Nat)} {t t' : Session} {call : Call} (chronicle : Chronicle log t.fuse)
    (ok : t.call call = .ok t') : Chronicle (log ++ t.made t') t'.fuse := by
  obtain ⟨known,small,virgin,logged⟩ := chronicle
  rcases (callAdvances known small call).done ok with retains | makes
  · obtain ⟨brk,ctr,generation⟩ := retains.counters
    refine ⟨retains.identified known,by rw [ctr,generation]; exact small,?_,?_⟩
    · intro zero
      have fresh := virgin (ctr ▸ zero)
      rcases (virginCall fresh known small call).done ok with looks | makes
      · exact fresh.looks looks
      · exact absurd zero makes.nonzero
    · intro p n' now
      obtain ⟨n,was,id,stamp⟩ := retains.nodes p n' now
      rw [id,stamp]
      exact List.mem_append_left _ (logged p n was)
  · refine ⟨makes.identified,makes.small,fun zero => absurd zero makes.nonzero,?_⟩
    intro p n' now
    rcases makes.nodes p n' now with ⟨n,was,id,stamp⟩ | ⟨rfl,id,stamp⟩
    · rw [id,stamp]
      exact List.mem_append_left _ (logged p n was)
    · rw [id,stamp,Session.made,if_pos (by rw [makes.brk]; exact Nat.lt_succ_self _)]
      exact List.mem_append_right _ (List.mem_singleton_self _)

theorem InOrder.call {log : List (Ptr × Ino × Nat)} {t t' : Session} {call : Call} (chronicle : Chronicle log t.fuse)
    (order : InOrder log t.fuse) (ok : t.call call = .ok t') (unwrapped : t.fuse.generation ≤ t'.fuse.generation) :
    InOrder (log ++ t.made t') t'.fuse := by
  obtain ⟨known,small,virgin,logged⟩ := chronicle
  rcases (callAdvances known small call).done ok with retains | makes
  · obtain ⟨brk,ctr,generation⟩ := retains.counters
    rw [Session.made,if_neg (by rw [brk]; exact Nat.lt_irrefl _),List.append_nil]
    exact ⟨by rw [brk,ctr,generation]; exact order.below,order.sorted⟩
  · have later := makes.later unwrapped
    have second : max 1 (turnOf t.fuse.ctr t.fuse.generation) < turnOf t'.fuse.ctr t'.fuse.generation := by
      by_cases start : t.fuse.ctr = 0
      · have fresh := virgin start
        obtain ⟨r,root⟩ := Option.ne_none_iff_exists'.mp fresh.root
        have notRoot : (1 : Nat) ≠ t'.fuse.ctr := by
          intro same
          exact makes.unused 0 r root ((fresh.only 0 r root).2.trans same)
        have nonzero := makes.nonzero
        simp only [turnOf] at later ⊢
        omega
      · simp only [turnOf] at later ⊢
        omega
    rw [Session.made,if_pos (by rw [makes.brk]; exact Nat.lt_succ_self _)]
    refine ⟨?_,List.pairwise_append.mpr ⟨order.sorted,List.pairwise_singleton ..,?_⟩⟩
    · intro e mem
      rw [makes.brk]
      rcases List.mem_append.mp mem with old | new
      · obtain ⟨low,turn⟩ := order.below e old
        exact ⟨Nat.lt_succ_of_lt low,le_max_of_le_right (turn.trans (Nat.le_of_lt second))⟩
      · rw [List.mem_singleton.mp new]
        exact ⟨Nat.lt_succ_self _,le_max_right ..⟩
    · intro a old b new
      rw [List.mem_singleton.mp new]
      obtain ⟨low,turn⟩ := order.below a old
      exact ⟨low,Nat.lt_of_le_of_lt turn second⟩

theorem callsChronicle {log : List (Ptr × Ino × Nat)} {t t' : Session} {calls : List Call}
    (chronicle : Chronicle log t.fuse) (run : t.calls calls = .ok t') : Chronicle (log ++ t.created calls) t'.fuse ∧
      (t.unwrapped calls → InOrder log t.fuse → InOrder (log ++ t.created calls) t'.fuse) := by
  induction calls generalizing t log with
  | nil =>
    cases run
    rw [Session.created,List.append_nil]
    exact ⟨chronicle,fun _ order => order⟩
  | cons call rest ih =>
    unfold Session.calls at run
    unfold Session.created Session.unwrapped
    cases ok : t.call call with
    | error fault =>
      rw [ok] at run
      cases run
    | ok u =>
      rw [ok] at run
      simp only
      rw [← List.append_assoc]
      obtain ⟨chronicled,ordered⟩ := ih (chronicle.call ok) run
      refine ⟨chronicled,fun unwrapped order => ?_⟩
      obtain ⟨first,later⟩ := Bool.and_eq_true_iff.mp unwrapped
      exact ordered later (order.call chronicle ok (of_decide_eq_true first))

def history (conf : Conf) (memory : Nat → Bool) (calls : List Call) : List (Ptr × Ino × Nat) :=
  (0,rootId,0) :: (Session.new conf memory).created calls

theorem fuseNewChronicle (conf : Conf) (memory : Nat → Bool) : Chronicle [(0,rootId,0)] (fuseNew conf memory) := by
  have cell : ∀ p n, (fuseNew conf memory).heap p = some n → p = 0 ∧ n = rootNode :=
    fun p n live => emptyTreeCell conf memory live
  have root : (fuseNew conf memory).heap 0 = some rootNode := rfl
  have steady := fuseNewSteady conf memory
  refine ⟨⟨steady.toStore.ids,?_,?_,steady.shape.fresh⟩,?_,fun _ => ⟨initEmpty,rfl,?_,?_⟩,?_⟩
  · intro p
    constructor
    · exact fun hashed => ⟨nofun,steady.shape.hashed p hashed⟩
    · exact fun ⟨_,n,live⟩ => (steady.alive p n live).1
  · intro p q n m _ _ atP atQ _
    rw [(cell p n atP).1,(cell q m atQ).1]
  · have zero : (0 : Nat) < 2 ^ 32 := by decide
    exact ⟨zero,zero⟩
  · intro p n live
    obtain ⟨here,rfl⟩ := cell p n live
    exact ⟨here,rfl⟩
  · rw [root]
    nofun
  · intro p n live
    obtain ⟨rfl,rfl⟩ := cell p n live
    exact List.mem_singleton_self _

theorem InOrder.apart {log : List (Ptr × Ino × Nat)} (order : InOrder log s) :
    log.Pairwise (fun a b => a.1 ≠ b.1 ∧ a.2 ≠ b.2) := by
  apply order.sorted.imp
  rintro ⟨p,i⟩ ⟨q,j⟩ ⟨low,turn⟩
  refine ⟨Nat.ne_of_lt low,?_⟩
  rintro rfl
  exact Nat.lt_irrefl _ turn

/- The id table as next_id sees it, with the new node of find_node in memory already. -/
theorem nextIdFree {log : List (Ptr × Ino × Nat)} (chronicle : Chronicle log s)
    (room : (liveNodes s).card < 2 ^ 32 - 2) (memory : Nat → Bool) :
    ∃ s', ({s with brk := s.brk + 1, memory := memory}.put s.brk Node.zero).nextId = .ok s' ∧ s'.ctr ≠ 0 ∧
      s'.ctr ≠ unknownIno ∧ ∀ p n, s.heap p = some n → n.nodeid ≠ s'.ctr := by
  have blank := chronicle.identified.allocated Node.zero s.ctr s.generation memory
  have others : ∀ p n, s.heap p = some n → p ≠ s.brk := by
    rintro p n live rfl
    rw [chronicle.identified.bound s.brk (Nat.le_refl _)] at live
    cases live
  have same : (liveNodes ({s with brk := s.brk + 1, memory := memory}.put s.brk Node.zero)).filter
      (fun p => some s.brk ≠ some p) = liveNodes s := by
    ext p
    simp only [liveNodes,Finset.mem_filter,Finset.mem_range]
    by_cases here : p = s.brk
    · simp [here]
    · have cell : ({s with brk := s.brk + 1, memory := memory}.put s.brk Node.zero).heap p = s.heap p :=
        putOther here ..
      have low : p < s.brk + 1 ↔ p < s.brk :=
        Nat.lt_succ_iff.trans ⟨fun h => Nat.lt_of_le_of_ne h here,Nat.le_of_lt⟩
      rw [cell]
      exact ⟨fun h => ⟨low.mp h.1.1,h.1.2⟩,fun h => ⟨⟨low.mpr h.1,h.2⟩,fun same => here (Option.some.inj same).symm⟩⟩
  have blankSmall : ({s with brk := s.brk + 1, memory := memory}.put s.brk Node.zero).ctr < 2 ^ 32 ∧
      ({s with brk := s.brk + 1, memory := memory}.put s.brk Node.zero).generation < 2 ^ 32 := chronicle.small
  obtain ⟨s',found⟩ := nextIdFound blank blankSmall.1 (by rw [same]; exact room)
  obtain ⟨ctr,generation,rfl,free,nonzero,known,_⟩ := Leads.done (nextIdSpec blankSmall) found
  refine ⟨_,found,nonzero,known,?_⟩
  intro p n live id
  have other := others p n live
  have taken := (blank.getNodeIff ctr).mpr ⟨by simpa using Ne.symm other,n,(putOther other ..).trans live,id⟩
  rw [free] at taken
  cases taken

/- Nodes are told apart by id and generation for as long as the generation has not wrapped,
and next_id finds a free id whenever there is one. -/
theorem identitiesApart (conf : Conf) (memory : Nat → Bool) (calls : List Call) {t : Session}
    (run : (Session.new conf memory).calls calls = .ok t) :
    (∀ p n, t.fuse.heap p = some n → (p,n.nodeid,n.generation) ∈ history conf memory calls) ∧
    ((Session.new conf memory).unwrapped calls →
      (history conf memory calls).Pairwise (fun a b => a.1 ≠ b.1 ∧ a.2 ≠ b.2)) ∧
    ((liveNodes t.fuse).card < 2 ^ 32 - 2 → ∀ rest, ∃ s,
      ({t.fuse with brk := t.fuse.brk + 1, memory := rest}.put t.fuse.brk Node.zero).nextId = .ok s ∧ s.ctr ≠ 0 ∧
      s.ctr ≠ unknownIno ∧ ∀ p n, t.fuse.heap p = some n → n.nodeid ≠ s.ctr) := by
  have start := fuseNewChronicle conf memory
  obtain ⟨chronicle,ordered⟩ := callsChronicle (t := Session.new conf memory) start run
  refine ⟨chronicle.logged,fun unwrapped => (ordered unwrapped ?_).apart,nextIdFree chronicle⟩
  refine ⟨?_,List.pairwise_singleton ..⟩
  intro e mem
  rw [List.mem_singleton.mp mem]
  exact ⟨Nat.one_pos,le_max_left ..⟩

/- A node is made, forgotten and made again under the same name. -/
theorem identitiesApartTwice :
    ∃ t, (Session.new ⟨0,false,false⟩ fun _ => true).calls
        [.find 1 (some (ascii "a")),.forget 2 1,.find 1 (some (ascii "a"))] = .ok t ∧
      (history ⟨0,false,false⟩
        (fun _ => true) [.find 1 (some (ascii "a")),.forget 2 1,.find 1 (some (ascii "a"))]).Pairwise
        (fun a b => a.1 ≠ b.1 ∧ a.2 ≠ b.2) ∧
      ∃ s, ({t.fuse with brk := t.fuse.brk + 1, memory := fun _ => true}.put t.fuse.brk Node.zero).nextId = .ok s := by
  have unwrapped : (Session.new ⟨0,false,false⟩ fun _ => true).unwrapped
      [.find 1 (some (ascii "a")),.forget 2 1,.find 1 (some (ascii "a"))] = true := by decide +kernel
  have few : (match (Session.new ⟨0,false,false⟩ fun _ => true).calls
        [.find 1 (some (ascii "a")),.forget 2 1,.find 1 (some (ascii "a"))] with
      | .ok t => decide ((liveNodes t.fuse).card < 2 ^ 32 - 2)
      | .error _ => false) = true := by decide +kernel
  cases run : (Session.new ⟨0,false,false⟩ fun _ => true).calls
      [.find 1 (some (ascii "a")),.forget 2 1,.find 1 (some (ascii "a"))] with
  | error fault =>
    rw [run] at few
    cases few
  | ok t =>
    rw [run] at few
    obtain ⟨_,apart,free⟩ := identitiesApart ⟨0,false,false⟩ (fun _ => true) _ run
    obtain ⟨s,found,_⟩ := free (of_decide_eq_true few) fun _ => true
    exact ⟨t,rfl,apart unwrapped,s,found⟩

end FuseStudy.NodeStore
