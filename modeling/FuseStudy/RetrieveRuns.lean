import FuseStudy.RetrieveReplies

/-! What each step of a retrieve call, or of the reply to it, does to the list, to the blocks and
to the record of the run. -/
namespace FuseStudy.RetrieveReplies
open ListHeads

variable {s s' : Sys} {entries : List Nat} {k : Nat} {c : Call} {r : Reply} {rreq : Nat}

/-! Steps of a call. -/

theorem Sound.apartErase (sound : Sound s entries) (rreq : Nat) : (notifyList :: s.live.erase rreq).Pairwise Apart :=
  sound.apart.sublist ((List.erase_sublist).cons_cons notifyList)

theorem Sound.alloc (sound : Sound s entries) (fresh : s.fresh rreq = true) (cookie : Nat) :
    Sound {s with live := s.live ++ [rreq], calls := s.calls ++ [.allocated rreq cookie]} entries := by
  have apart := of_decide_eq_true fresh
  have numbers : ∀ u, tally (Call.number s.unique)
      (s.calls ++ [.allocated rreq cookie]) u = tally (Call.number s.unique) s.calls u :=
    fun u => tallyAdd ..
  refine {sound with apart := ?_, owned := ?_, linked := ?_, waits := ?_, split := ?_, sending := ?_}
  · rw [← List.cons_append]
    exact List.pairwise_append.mpr ⟨sound.apart,List.pairwise_singleton _ rreq,
      fun a inside b only => by rw [List.mem_singleton.mp only]; exact (apart a inside).symm⟩
  · intro a
    have owned := sound.owned a
    simp only [List.count_append,List.count_singleton,tallyAdd,Call.loose,Option.some.injEq,beq_iff_eq]
    omega
  · intro a
    have linked := sound.linked a
    simp only [tallyAdd,Call.linked,reduceCtorEq,if_false]
    omega
  · intro u
    exact (sound.waits u).trans (by rw [← numbers u])
  · intro u
    exact (sound.split u).trans (by rw [← numbers u])
  · intro a u mem
    rcases List.mem_append.mp mem with before | new
    · exact sound.sending a u before
    · cases List.mem_singleton.mp new

theorem Sound.recall {c' : Call} (sound : Sound s entries) (at_ : s.calls[k]? = some c)
    (linked : c'.linked = c.linked) (loose : c'.loose = c.loose)
    (sending : ∀ a u, c' = .sending a u → s.unique a = u) : Sound (s.call k c') entries := by
  have numbers : ∀ u, tally (Call.number s.unique) (s.calls.set k c') u = tally (Call.number s.unique) s.calls u := by
    intro u
    have set := tallySet (Call.number s.unique) at_ c' u
    rw [Call.number,Call.number,linked] at set
    exact Nat.add_right_cancel set
  refine {sound with owned := ?_, linked := ?_, waits := ?_, split := ?_, sending := ?_}
  · intro a
    have set := tallySet Call.loose at_ c' a
    rw [loose] at set
    rw [Sys.call,Nat.add_right_cancel set]
    exact sound.owned a
  · intro a
    have set := tallySet Call.linked at_ c' a
    rw [linked] at set
    rw [Sys.call,Nat.add_right_cancel set]
    exact sound.linked a
  · intro u
    exact (sound.waits u).trans (by rw [← numbers u]; rfl)
  · intro u
    exact (sound.split u).trans (by rw [← numbers u]; rfl)
  · intro a u mem
    rcases List.mem_or_eq_of_mem_set mem with before | new
    · exact sound.sending a u before
    · exact sending a u new.symm

theorem Sound.accept {u : Nat} (sound : Sound s entries) (at_ : s.calls[k]? = some (.sending rreq u)) :
    Sound {s.call k .done with asked := s.asked ++ [u], taken := s.taken ++ [u]} entries := by
  have is := sound.sending rreq u (List.mem_of_getElem? at_)
  have numbers : ∀ v, tally (Call.number s.unique)
      (s.calls.set k .done) v + (if u = v then 1 else 0) = tally (Call.number s.unique) s.calls v := by
    intro v
    have set := tallySet (Call.number s.unique) at_ .done v
    simp only [Call.number,Call.linked,Option.map_some,Option.map_none,Option.some.injEq,is,reduceCtorEq,
      if_false] at set
    exact set
  refine {sound with owned := ?_, linked := ?_, waits := ?_, split := ?_, settled := ?_, sending := ?_}
  · intro a
    have set := tallySet Call.loose at_ .done a
    simp only [Call.loose,reduceCtorEq,if_false,Nat.add_zero] at set
    rw [Sys.call,set]
    exact sound.owned a
  · intro a
    have set := tallySet Call.linked at_ .done a
    have linked := sound.linked a
    simp only [Call.linked,reduceCtorEq,if_false,Nat.add_zero] at set
    dsimp only [Sys.call]
    omega
  · intro v
    have waits := sound.waits v
    have number := numbers v
    change entries.countP (fun a => decide (s.unique a = v)) =
      tally (Call.number s.unique) (s.calls.set k .done) v + _ + tally Reply.awaits s.replies v + s.lost.count v
    simp only [List.count_append,List.count_singleton,beq_iff_eq]
    omega
  · intro v
    have split := sound.split v
    have number := numbers v
    change s.registered.countP (fun r => decide (r.1 = v)) = tally (Call.number s.unique)
      (s.calls.set k .done) v + s.rejected.count v + _
    simp only [List.count_append,List.count_singleton,beq_iff_eq]
    omega
  · intro v
    have settled := sound.settled v
    simp only [List.count_append,List.count_singleton,beq_iff_eq]
    dsimp only [Sys.call] at *
    omega
  · intro a v mem
    rcases List.mem_or_eq_of_mem_set mem with before | new
    · exact sound.sending a v before
    · cases new

theorem Sound.free (sound : Sound s entries) (at_ : s.calls[k]? = some (.dropped rreq)) :
    Sound {s.call k .done with live := s.live.erase rreq} entries := by
  obtain ⟨alive,_⟩ := sound.looseCall at_ rfl
  have numbers : ∀ u, tally (Call.number s.unique) (s.calls.set k .done) u = tally (Call.number s.unique) s.calls u :=
    fun u => tallySet (Call.number s.unique) at_ .done u
  refine {sound with apart := sound.apartErase rreq, owned := ?_, linked := ?_, waits := ?_, split := ?_, sending := ?_}
  · intro a
    have set := tallySet Call.loose at_ .done a
    have owned := sound.owned a
    have erased := eraseCount alive a
    simp only [Call.loose,Option.some.injEq,reduceCtorEq,if_false,Nat.add_zero] at set
    change (s.live.erase rreq).count a = entries.count a + tally Call.loose
      (s.calls.set k .done) a + tally Reply.loose s.replies a
    omega
  · intro a
    have set := tallySet Call.linked at_ .done a
    exact (Nat.le_of_eq set).trans (sound.linked a)
  · intro u
    exact (sound.waits u).trans (by rw [← numbers u]; rfl)
  · intro u
    exact (sound.split u).trans (by rw [← numbers u]; rfl)
  · intro a u mem
    rcases List.mem_or_eq_of_mem_set mem with before | new
    · exact sound.sending a u before
    · cases new

theorem countRemoved {before after : List Nat} (f : Nat → Bool) (a : Nat) :
    (before ++ a :: after).countP f = (before ++ after).countP f + if f a then 1 else 0 := by
  simp only [List.countP_append,List.countP_cons]
  omega

theorem entryRemoved {before after : List Nat} (a b : Nat) :
    (before ++ a :: after).count b = (before ++ after).count b + if a = b then 1 else 0 := by
  simp only [List.count_append,List.count_cons,beq_iff_eq]
  omega

theorem Sound.unlinksOk (sound : Sound s entries) {before after : List Nat}
    (is : entries = before ++ rreq :: after) (t : Sys) :
    s.unlinks rreq t = .ok {t with mem := listDelNreq s.mem rreq} := by
  subst is
  obtain ⟨next,prev⟩ := sound.ring.neighbours
  have cells : ∀ a ∈ notifyList :: (before ++ after), a = notifyList ∨ a ∈ s.live := by
    intro a mem
    refine sound.alive a ?_
    simp only [List.mem_cons,List.mem_append] at mem ⊢
    tauto
  refine usedOk ?_ _
  intro a mem
  simp only [List.mem_cons,List.not_mem_nil,or_false] at mem
  rcases mem with rfl | rfl | rfl
  · exact sound.alive _ (List.mem_cons_of_mem _ (List.mem_append_right _ List.mem_cons_self))
  · exact cells _ prev
  · exact cells _ next

theorem Sound.unlink {before after : List Nat} (sound : Sound s (before ++ rreq :: after))
    (at_ : s.calls[k]? = some (.failed rreq)) :
    Sound {s.call k (.dropped rreq) with
      mem := listDelNreq s.mem rreq
      rejected := s.rejected ++ [s.unique rreq]} (before ++ after) := by
  have less : ∀ a ∈ before ++ after, a ∈ before ++ rreq :: after := fun a mem => by
    simp only [List.mem_append,List.mem_cons] at mem ⊢
    tauto
  have numbers : ∀ v, tally (Call.number s.unique)
    (s.calls.set k (.dropped rreq)) v + (if s.unique rreq = v then 1 else 0) =
      tally (Call.number s.unique) s.calls v := by
    intro v
    have set := tallySet (Call.number s.unique) at_ (.dropped rreq) v
    simp only [Call.number,Call.linked,Option.map_some,Option.map_none,Option.some.injEq,reduceCtorEq,if_false] at set
    exact set
  refine {sound with ring := ?_, owned := ?_, linked := ?_, waits := ?_, split := ?_, cookies := ?_, sending := ?_}
  · change Ring (listDelNreq s.mem rreq) _ _
    rw [delIs sound.ring]
    exact sound.ring.del.1
  · intro a
    have set := tallySet Call.loose at_ (.dropped rreq) a
    have owned := sound.owned a
    rw [entryRemoved] at owned
    simp only [Call.loose,Option.some.injEq,reduceCtorEq,if_false,Nat.add_zero] at set
    change s.live.count a = (before ++ after).count a + tally Call.loose
      (s.calls.set k (.dropped rreq)) a + tally Reply.loose s.replies a
    omega
  · intro a
    have set := tallySet Call.linked at_ (.dropped rreq) a
    have linked := sound.linked a
    rw [entryRemoved] at linked
    simp only [Call.linked,Option.some.injEq,reduceCtorEq,if_false,Nat.add_zero] at set
    change tally Call.linked (s.calls.set k (.dropped rreq)) a ≤ _
    omega
  · intro v
    have waits := sound.waits v
    rw [countRemoved] at waits
    simp only [decide_eq_true_eq] at waits
    have number := numbers v
    change (before ++ after).countP (fun a => decide (s.unique a = v)) =
      tally (Call.number s.unique)
        (s.calls.set k (.dropped rreq)) v + s.asked.count v + tally Reply.awaits s.replies v + s.lost.count v
    omega
  · intro v
    have split := sound.split v
    have number := numbers v
    change s.registered.countP (fun r => decide (r.1 = v)) = tally (Call.number s.unique)
      (s.calls.set k (.dropped rreq)) v + _ + s.taken.count v
    simp only [List.count_append,List.count_singleton,beq_iff_eq]
    omega
  · exact fun a mem => sound.cookies a (less a mem)
  · intro a u mem
    rcases List.mem_or_eq_of_mem_set mem with before | new
    · exact sound.sending a u before
    · cases new

theorem Sound.away (sound : Sound s entries) (at_ : s.calls[k]? = some c) (is : c.loose = some rreq) :
    (∀ a ∈ entries, a ≠ rreq) ∧ (∀ c ∈ s.calls, c.linked ≠ some rreq) ∧
    ∀ a u, Reply.matched a u ∈ s.replies → a ≠ rreq := by
  obtain ⟨_,off⟩ := sound.looseCall at_ is
  refine ⟨fun a inside same => off (same ▸ inside),fun c mem linked => ?_,fun a u mem same => ?_⟩
  · obtain ⟨j,low,rfl⟩ := List.mem_iff_getElem.mp mem
    exact off (sound.linkedAt (List.getElem?_eq_getElem low) linked)
  · obtain ⟨j,low,there⟩ := List.mem_iff_getElem.mp mem
    have other : 0 < tally Reply.loose s.replies rreq := tallyMem (List.getElem?_eq_getElem low)
      (by rw [there,← same]; rfl)
    have here : 0 < tally Call.loose s.calls rreq := tallyMem at_ is
    have owned := sound.owned rreq
    have single := sound.single rreq
    omega

theorem Sound.freshAt (sound : Sound s entries) (live : rreq ∈ s.live) (off : rreq ∉ entries) :
    ∀ a ∈ notifyList :: entries, Apart rreq a := by
  intro a mem
  have there : a ∈ notifyList :: s.live := (sound.alive a mem).elim (fun head => head ▸ List.mem_cons_self)
    (List.mem_cons_of_mem _)
  refine sound.apart.forall (List.mem_cons_of_mem _ live) there ?_
  rintro rfl
  rcases List.mem_cons.mp mem with head | inside
  · exact (List.rel_of_pairwise_cons sound.apart live).words.1 head.symm
  · exact off inside

theorem Sound.register {cookie : Nat} (sound : Sound s entries) (at_ : s.calls[k]? = some (.allocated rreq cookie)) :
    Sound {s.call k (.registered rreq) with
      mem := listAddNreq s.mem rreq notifyList
      unique := Function.update s.unique rreq s.notifyCtr
      cookie := Function.update s.cookie rreq cookie
      notifyCtr := s.notifyCtr + 1
      registered := s.registered ++ [(s.notifyCtr,cookie)]} (entries ++ [rreq]) := by
  obtain ⟨live,off⟩ := sound.looseCall at_ rfl
  obtain ⟨offList,offCalls,offReplies⟩ := sound.away at_ rfl
  have fresh := sound.freshAt live off
  have same : ∀ a, a ≠ rreq → Function.update s.unique rreq s.notifyCtr a = s.unique a := fun a other =>
    Function.update_of_ne other ..
  have numbers : ∀ u, tally (Call.number (Function.update s.unique rreq s.notifyCtr))
    (s.calls.set k (.registered rreq)) u =
      tally (Call.number s.unique) s.calls u + if s.notifyCtr = u then 1 else 0 := by
    intro u
    have set := tallySet (Call.number (Function.update s.unique rreq s.notifyCtr)) at_ (.registered rreq) u
    have before : tally (Call.number (Function.update s.unique rreq s.notifyCtr)) s.calls u = tally
        (Call.number s.unique) s.calls u := by
      refine List.countP_congr fun c mem => ?_
      have apart := offCalls c mem
      rw [Call.number,Call.number]
      cases linked : c.linked with
      | none => rfl
      | some a => rw [Option.map_some,Option.map_some,same a fun is => apart (linked.trans (congrArg some is))]
    simp only [Call.number,Call.linked,Option.map_none,Option.map_some,Function.update_self,
      Option.some.injEq,reduceCtorEq,
      if_false,Nat.add_zero] at set
    omega
  have numbered : ∀ u, entries.countP (fun a => decide (Function.update s.unique rreq s.notifyCtr a = u)) =
      entries.countP fun a => decide (s.unique a = u) := by
    intro u
    refine List.countP_congr fun a mem => ?_
    rw [same a (offList a mem)]
  have unused : s.registered.countP (fun r => decide (r.1 = s.notifyCtr)) = 0 := by
    refine List.countP_eq_zero.mpr fun r mem is => ?_
    exact Nat.ne_of_lt (sound.below r mem) (of_decide_eq_true is)
  have later : ∀ r ∈ s.registered, r ∈ s.registered ++ [(s.notifyCtr,cookie)] := fun r mem => List.mem_append_left _ mem
  refine ⟨?_,sound.apart,?_,?_,?_,?_,sound.settled,?_,?_,?_,?_,?_,fun g mem => later g (sound.given g mem)⟩
  · change Ring (listAddNreq s.mem rreq notifyList) _ _
    rw [addIs sound.ring fresh]
    exact sound.ring.addTail fresh
  · intro a
    have set := tallySet Call.loose at_ (.registered rreq) a
    have owned := sound.owned a
    simp only [Call.loose,Option.some.injEq,reduceCtorEq,if_false,Nat.add_zero] at set
    simp only [List.count_append,List.count_singleton,beq_iff_eq]
    change s.live.count a = _ + tally Call.loose (s.calls.set k (.registered rreq)) a + tally Reply.loose s.replies a
    omega
  · intro a
    have set := tallySet Call.linked at_ (.registered rreq) a
    have linked := sound.linked a
    simp only [Call.linked,Option.some.injEq,reduceCtorEq,if_false,Nat.add_zero] at set
    simp only [List.count_append,List.count_singleton,beq_iff_eq]
    change tally Call.linked (s.calls.set k (.registered rreq)) a ≤ _
    omega
  · intro u
    have waits := sound.waits u
    have number := numbers u
    change (entries ++ [rreq]).countP (fun a => decide (Function.update s.unique rreq s.notifyCtr a = u)) =
      tally (Call.number (Function.update s.unique rreq s.notifyCtr))
        (s.calls.set k (.registered rreq)) u + s.asked.count u +
        tally Reply.awaits s.replies u + s.lost.count u
    rw [List.countP_append,numbered u,List.countP_singleton,Function.update_self]
    simp only [decide_eq_true_eq]
    omega
  · intro u
    have split := sound.split u
    have number := numbers u
    change _ = tally (Call.number (Function.update s.unique rreq s.notifyCtr)) (s.calls.set k (.registered rreq)) u +
      s.rejected.count u + s.taken.count u
    rw [List.countP_append,List.countP_singleton]
    simp only [decide_eq_true_eq]
    omega
  · intro u
    have once := sound.once u
    rw [List.countP_append,List.countP_singleton]
    simp only [decide_eq_true_eq]
    split
    · next here => rw [← here,unused]
    · exact once
  · intro r mem
    rcases List.mem_append.mp mem with before | new
    · exact Nat.lt_succ_of_lt (sound.below r before)
    · rw [List.mem_singleton.mp new]
      exact Nat.lt_succ_self _
  · intro a mem
    dsimp only
    rcases List.mem_append.mp mem with before | new
    · rw [same a (offList a before),Function.update_of_ne (offList a before)]
      exact later _ (sound.cookies a before)
    · rw [List.mem_singleton.mp new,Function.update_self,Function.update_self]
      exact List.mem_append_right _ List.mem_cons_self
  · intro a u mem
    dsimp only
    rw [Function.update_of_ne (offReplies a u mem)]
    exact later _ (sound.found a u mem)
  · intro a u mem
    dsimp only
    rcases List.mem_or_eq_of_mem_set mem with before | new
    · rw [same a fun is => offCalls _ before (congrArg some is)]
      exact sound.sending a u before
    · cases new

/-! Steps of a reply. -/

theorem Sound.answer {u : Nat} (sound : Sound s entries) (asked : u ∈ s.asked) :
    Sound {s with asked := s.asked.erase u, replies := s.replies ++ [.received u]} entries := by
  refine {sound with owned := ?_, waits := ?_, settled := ?_, found := ?_}
  · intro a
    have owned := sound.owned a
    simp only [tallyAdd,Reply.loose,reduceCtorEq,if_false]
    omega
  · intro v
    have waits := sound.waits v
    have less := eraseCount asked v
    change entries.countP (fun a => decide (s.unique a = v)) = tally
      (Call.number s.unique) s.calls v + _ + _ + s.lost.count v
    simp only [tallyAdd,Reply.awaits,Option.some.injEq]
    omega
  · intro v
    have settled := sound.settled v
    have less := eraseCount asked v
    simp only [tallyAdd,Reply.awaits,Reply.found,Option.some.injEq,reduceCtorEq,if_false]
    omega
  · intro a v mem
    rcases List.mem_append.mp mem with before | new
    · exact sound.found a v before
    · cases List.mem_singleton.mp new

theorem Sound.lose {u : Nat} (sound : Sound s entries) (asked : u ∈ s.asked) :
    Sound {s with asked := s.asked.erase u, lost := s.lost ++ [u]} entries := by
  refine {sound with waits := ?_, settled := ?_}
  · intro v
    have waits := sound.waits v
    have less := eraseCount asked v
    simp only [List.count_append,List.count_singleton,beq_iff_eq]
    omega
  · intro v
    have settled := sound.settled v
    have less := eraseCount asked v
    simp only [List.count_append,List.count_singleton,beq_iff_eq]
    omega

theorem linkedNumbered (s : Sys) (a : Nat) :
    tally Call.linked s.calls a ≤ tally (Call.number s.unique) s.calls (s.unique a) := by
  refine List.countP_mono_left fun c _ linked => decide_eq_true ?_
  rw [Call.number,of_decide_eq_true linked,Option.map_some]

/- While the answer to it is read, a request is no call's any more. -/
theorem Sound.unlinked (sound : Sound s entries) (at_ : s.replies[k]? = some (.received (s.unique rreq))) :
    tally Call.linked s.calls rreq = 0 := by
  have here : 0 < tally Reply.awaits s.replies (s.unique rreq) := tallyMem at_ rfl
  have split := sound.split (s.unique rreq)
  have settled := sound.settled (s.unique rreq)
  have once := sound.once (s.unique rreq)
  have less := linkedNumbered s rreq
  omega

theorem Sound.takes {before after : List Nat} (sound : Sound s (before ++ rreq :: after))
    (at_ : s.replies[k]? = some (.received (s.unique rreq))) :
    Sound {s.reply k (.matched rreq (s.unique rreq)) with mem := listDelNreq s.mem rreq} (before ++ after) := by
  have mine : rreq ∈ before ++ rreq :: after := List.mem_append_right _ List.mem_cons_self
  have less : ∀ a ∈ before ++ after, a ∈ before ++ rreq :: after := fun a mem => by
    simp only [List.mem_append,List.mem_cons] at mem ⊢
    tauto
  refine {sound with ring := ?_, owned := ?_, linked := ?_, waits := ?_, settled := ?_, cookies := ?_, found := ?_}
  · change Ring (listDelNreq s.mem rreq) _ _
    rw [delIs sound.ring]
    exact sound.ring.del.1
  · intro a
    have set := tallySet Reply.loose at_ (.matched rreq (s.unique rreq)) a
    have owned := sound.owned a
    rw [entryRemoved] at owned
    simp only [Reply.loose,Option.some.injEq,reduceCtorEq,if_false,Nat.add_zero] at set
    change s.live.count a = (before ++ after).count a + tally Call.loose s.calls a + tally Reply.loose
      (s.replies.set k _) a
    omega
  · intro a
    have linked := sound.linked a
    have none := sound.unlinked at_
    rw [entryRemoved] at linked
    by_cases same : rreq = a
    · subst same
      exact none ▸ Nat.zero_le _
    · rw [if_neg same] at linked
      exact linked
  · intro v
    have waits := sound.waits v
    have set := tallySet Reply.awaits at_ (.matched rreq (s.unique rreq)) v
    rw [countRemoved] at waits
    simp only [decide_eq_true_eq] at waits
    simp only [Reply.awaits,Option.some.injEq,reduceCtorEq,if_false,Nat.add_zero] at set
    change (before ++ after).countP (fun a => decide (s.unique a = v)) =
      tally (Call.number s.unique) s.calls v + s.asked.count v + tally Reply.awaits
        (s.replies.set k _) v + s.lost.count v
    omega
  · intro v
    have settled := sound.settled v
    have awaits := tallySet Reply.awaits at_ (.matched rreq (s.unique rreq)) v
    have found := tallySet Reply.found at_ (.matched rreq (s.unique rreq)) v
    simp only [Reply.awaits,Option.some.injEq,reduceCtorEq,if_false,Nat.add_zero] at awaits
    simp only [Reply.found,Option.some.injEq,reduceCtorEq,if_false,Nat.add_zero] at found
    dsimp only [Sys.reply]
    omega
  · exact fun a mem => sound.cookies a (less a mem)
  · intro a u mem
    rcases List.mem_or_eq_of_mem_set mem with before | new
    · exact sound.found a u before
    · cases new
      exact sound.cookies rreq mine

theorem Sound.tell {u : Nat} (sound : Sound s entries) (at_ : s.replies[k]? = some (.matched rreq u)) (enough : Bool) :
    Sound (if enough then {s.reply k (.told rreq) with given := s.given ++ [(u,s.cookie rreq)]}
      else {s.reply k (.told rreq) with short := s.short ++ [u]}) entries := by
  have cookie := sound.found rreq u (List.mem_of_getElem? at_)
  have loose : ∀ a, tally Reply.loose (s.replies.set k (.told rreq)) a = tally Reply.loose s.replies a := by
    intro a
    have set := tallySet Reply.loose at_ (.told rreq) a
    exact Nat.add_right_cancel set
  have awaits : ∀ v, tally Reply.awaits (s.replies.set k (.told rreq)) v = tally Reply.awaits s.replies v :=
    fun v => tallySet Reply.awaits at_ (.told rreq) v
  have ends : ∀ v,
      tally Reply.found (s.replies.set k (.told rreq)) v + (if u = v then 1 else 0) =
        tally Reply.found s.replies v := by
    intro v
    have set := tallySet Reply.found at_ (.told rreq) v
    simp only [Reply.found,Option.some.injEq,reduceCtorEq,if_false,Nat.add_zero] at set
    exact set
  have others : ∀ a v, Reply.matched a v ∈ s.replies.set k (.told rreq) → (v,s.cookie a) ∈ s.registered := by
    intro a v mem
    rcases List.mem_or_eq_of_mem_set mem with before | new
    · exact sound.found a v before
    · cases new
  cases enough with
  | true =>
    refine {sound with owned := ?_, waits := ?_, settled := ?_, found := others, given := ?_}
    · exact fun a => (sound.owned a).trans (by rw [← loose a]; rfl)
    · exact fun v => (sound.waits v).trans (by rw [← awaits v]; rfl)
    · intro v
      have settled := sound.settled v
      have still := awaits v
      have less := ends v
      simp only [if_true,List.countP_append,List.countP_singleton,decide_eq_true_eq]
      dsimp only [Sys.reply]
      omega
    · intro g mem
      rcases List.mem_append.mp mem with before | new
      · exact sound.given g before
      · rw [List.mem_singleton.mp new]
        exact cookie
  | false =>
    refine {sound with owned := ?_, waits := ?_, settled := ?_, found := others}
    · exact fun a => (sound.owned a).trans (by rw [← loose a]; rfl)
    · exact fun v => (sound.waits v).trans (by rw [← awaits v]; rfl)
    · intro v
      have settled := sound.settled v
      have still := awaits v
      have less := ends v
      simp only [Bool.false_eq_true,if_false,List.count_append,List.count_singleton,beq_iff_eq]
      dsimp only [Sys.reply]
      omega

theorem Sound.release (sound : Sound s entries) (at_ : s.replies[k]? = some (.told rreq)) :
    Sound {s.reply k .done with live := s.live.erase rreq} entries := by
  obtain ⟨alive,_⟩ := sound.looseReply at_ rfl
  have awaits : ∀ v, tally Reply.awaits (s.replies.set k .done) v = tally Reply.awaits s.replies v :=
    fun v => tallySet Reply.awaits at_ .done v
  have found : ∀ v, tally Reply.found (s.replies.set k .done) v = tally Reply.found s.replies v := fun v =>
    tallySet Reply.found at_ .done v
  refine {sound with apart := sound.apartErase rreq, owned := ?_, waits := ?_, settled := ?_, found := ?_}
  · intro a
    have set := tallySet Reply.loose at_ .done a
    have owned := sound.owned a
    have erased := eraseCount alive a
    simp only [Reply.loose,Option.some.injEq,reduceCtorEq,if_false,Nat.add_zero] at set
    change (s.live.erase rreq).count a = entries.count a + tally Call.loose s.calls a + tally Reply.loose
      (s.replies.set k .done) a
    omega
  · exact fun v => (sound.waits v).trans (by rw [← awaits v]; rfl)
  · exact fun v => (sound.settled v).trans (by rw [← awaits v,← found v]; rfl)
  · intro a u mem
    rcases List.mem_or_eq_of_mem_set mem with before | new
    · exact sound.found a u before
    · cases new

/-! All steps. -/

def Fine (outcome : Except Fault Sys) : Prop := ∃ s' entries, outcome = .ok s' ∧ Sound s' entries

theorem Sound.uses {cells : List Nat} {t : Sys} {entries' : List Nat}
    (alive : ∀ a ∈ cells, a = notifyList ∨ a ∈ s.live) (sound : Sound t entries') :
    Fine (s.used cells t) := ⟨t,entries',usedOk alive t,sound⟩

theorem Sound.asksFine {e : Event} {outcome : Except Fault Sys} (sound : Sound s entries)
    (ran : s.asks e = some outcome) : Fine outcome := by
  cases e with
  | alloc rreq cookie =>
    simp only [Sys.asks] at ran
    split at ran <;> cases ran
    next fresh => exact ⟨_,entries,rfl,sound.alloc fresh cookie⟩
  | register k =>
    simp only [Sys.asks] at ran
    split at ran
    · next rreq cookie at_ =>
      split at ran <;> cases ran
      refine Sound.uses ?_ (sound.register at_)
      obtain ⟨live,_⟩ := sound.looseCall at_ rfl
      intro a mem
      simp only [List.mem_cons,List.not_mem_nil,or_false] at mem
      rcases mem with rfl | rfl | rfl
      · exact .inr live
      · exact .inl rfl
      · rw [sound.ring.prevHead]
        exact sound.alive _ (List.getLast_mem _)
    · cases ran
  | number k =>
    simp only [Sys.asks] at ran
    split at ran <;> cases ran
    next rreq at_ =>
      refine Sound.uses ?_ (sound.recall at_ rfl rfl ?_)
      · intro a mem
        rw [List.mem_singleton.mp mem]
        exact sound.alive rreq (List.mem_cons_of_mem _ (sound.linkedAt at_ rfl))
      · rintro a u ⟨⟩
        rfl
  | accept k =>
    simp only [Sys.asks] at ran
    split at ran <;> cases ran
    next rreq unique at_ => exact ⟨_,entries,rfl,sound.accept at_⟩
  | refuse k =>
    simp only [Sys.asks] at ran
    split at ran <;> cases ran
    next rreq unique at_ => exact ⟨_,entries,rfl,sound.recall at_ rfl rfl fun a u no => by cases no⟩
  | unlink k =>
    simp only [Sys.asks] at ran
    split at ran <;> cases ran
    next rreq at_ =>
      obtain ⟨before,after,rfl⟩ := List.append_of_mem (sound.linkedAt at_ rfl)
      exact ⟨_,before ++ after,sound.unlinksOk rfl _,sound.unlink at_⟩
  | free k =>
    simp only [Sys.asks] at ran
    split at ran <;> cases ran
    next rreq at_ =>
      refine Sound.uses (fun a mem => .inr ?_) (sound.free at_)
      rw [List.mem_singleton.mp mem]
      exact (sound.looseCall at_ rfl).1
  | answer | lose | search | tell | release => cases ran

theorem Sound.answersFine {e : Event} {outcome : Except Fault Sys} (sound : Sound s entries)
    (ran : s.answers e = some outcome) : Fine outcome := by
  cases e with
  | answer unique =>
    simp only [Sys.answers] at ran
    split at ran <;> cases ran
    next asked => exact ⟨_,entries,rfl,sound.answer asked⟩
  | lose unique =>
    simp only [Sys.answers] at ran
    split at ran <;> cases ran
    next asked => exact ⟨_,entries,rfl,sound.lose asked⟩
  | search k =>
    simp only [Sys.answers] at ran
    split at ran <;> cases ran
    next unique at_ =>
      have searched := sound.search unique (List.nil_append entries).symm (Nat.lt_succ_of_le sound.fewer)
      rw [← sound.ring.nextHead] at searched
      -- the answer is one that is waited for
      have there : entries.find? (fun a => decide (s.unique a = unique)) ≠ none := by
        have waits := sound.waits unique
        have here : 0 < tally Reply.awaits s.replies unique := tallyMem at_ rfl
        obtain ⟨a,mem,is⟩ :=
          List.countP_pos_iff.mp (show 0 < entries.countP fun a => decide (s.unique a = unique) by omega)
        exact fun none => List.find?_eq_none.mp none a mem is
      obtain ⟨rreq,found⟩ := Option.ne_none_iff_exists'.mp there
      obtain ⟨before,after,rfl⟩ := List.append_of_mem (List.mem_of_find?_eq_some found)
      have is : s.unique rreq = unique := by simpa using List.find?_some found
      subst is
      rw [searched,found]
      exact ⟨_,before ++ after,sound.unlinksOk rfl _,sound.takes at_⟩
  | tell k enough =>
    simp only [Sys.answers] at ran
    split at ran <;> cases ran
    next rreq unique at_ =>
      refine Sound.uses (fun a mem => .inr ?_) (sound.tell at_ enough)
      rw [List.mem_singleton.mp mem]
      exact (sound.looseReply at_ rfl).1
  | release k =>
    simp only [Sys.answers] at ran
    split at ran <;> cases ran
    next rreq at_ =>
      refine Sound.uses (fun a mem => .inr ?_) (sound.release at_)
      rw [List.mem_singleton.mp mem]
      exact (sound.looseReply at_ rfl).1
  | alloc | register | number | accept | refuse | unlink | free => cases ran

theorem Sound.stepFine {e : Event} {outcome : Except Fault Sys} (sound : Sound s entries)
    (ran : s.step e = some outcome) : Fine outcome := by
  rcases Option.or_eq_some_iff.mp ran with asks | ⟨_,answers⟩
  · exact sound.asksFine asks
  · exact sound.answersFine answers

theorem startSound : Sound start [] := by
  refine ⟨initRing _ _,List.pairwise_singleton _ _,?_,?_,?_,?_,?_,?_,?_,?_,?_,?_,?_⟩
  · exact fun _ => rfl
  · exact fun _ => Nat.zero_le _
  · exact fun _ => rfl
  · exact fun _ => rfl
  · exact fun _ => rfl
  · exact fun _ => Nat.zero_le _
  all_goals
    intros
    simp_all [start]

theorem Reached.sound (reached : Reached s) : ∃ entries, Sound s entries := by
  induction reached with
  | start => exact ⟨[],startSound⟩
  | step _ ran ih =>
    obtain ⟨entries,sound⟩ := ih
    obtain ⟨s',entries',is,sound'⟩ := sound.stepFine ran
    cases is
    exact ⟨entries',sound'⟩

/- No call and no reply is under way, and the kernel has answered all that it took. -/
def Sys.idle (s : Sys) : Prop := (∀ c ∈ s.calls, c = .done) ∧ (∀ r ∈ s.replies, r = .done) ∧ s.asked = []

theorem tallyDone {α : Type} {f : α → Option Nat} {l : List α} (x : Nat) (none : ∀ a ∈ l, f a = none) :
    tally f l x = 0 := by
  refine List.countP_eq_zero.mpr fun a mem is => ?_
  rw [decide_eq_true_eq,none a mem] at is
  cases is

/- Whatever the order of the threads, no block is used after it is freed, the user gets every cookie
with the answer to its own request and none twice, and in the end everything that the kernel took has come
to one end; the blocks that are left are on the list, and their answers were lost on the way. -/
theorem retrievesAnswered (reached : Reached s) :
    (∀ e outcome, s.step e = some outcome → ∃ s', outcome = .ok s') ∧ (∀ g ∈ s.given, g ∈ s.registered) ∧
      (s.given.map Prod.fst ++ s.short).Nodup ∧ (s.registered.map Prod.fst).Nodup ∧
      (s.idle → (s.given.map Prod.fst ++ s.short ++ s.lost).Perm s.taken ∧
        ∃ entries, Ring s.mem notifyList entries ∧ s.live.Perm entries ∧ (entries.map s.unique).Perm s.lost) := by
  obtain ⟨entries,sound⟩ := reached.sound
  have numbers : ∀ (l : List (Nat × Nat)) (u : Nat), (l.map Prod.fst).count u = l.countP fun g => decide (g.1 = u) := by
    intro l u
    rw [List.count_eq_countP,List.countP_map]
    exact List.countP_congr fun g _ => by simp
  refine ⟨fun e outcome ran => ?_,sound.given,?_,?_,?_⟩
  · obtain ⟨s',_,is,_⟩ := sound.stepFine ran
    exact ⟨s',is⟩
  · refine List.nodup_iff_count_le_one.mpr fun u => ?_
    have settled := sound.settled u
    have split := sound.split u
    have once := sound.once u
    rw [List.count_append,numbers]
    omega
  · refine List.nodup_iff_count_le_one.mpr fun u => ?_
    rw [numbers]
    exact sound.once u
  · rintro ⟨calls,replies,asked⟩
    have calling : ∀ (f : Call → Option Nat), f .done = none → ∀ x, tally f s.calls x = 0 :=
      fun f none x => tallyDone x fun c mem => by rw [calls c mem,none]
    have answering : ∀ (f : Reply → Option Nat), f .done = none → ∀ x, tally f s.replies x = 0 :=
      fun f none x => tallyDone x fun r mem => by rw [replies r mem,none]
    refine ⟨List.perm_iff_count.mpr fun u => ?_,entries,sound.ring,List.perm_iff_count.mpr fun a => ?_,
      List.perm_iff_count.mpr fun u => ?_⟩
    · have settled := sound.settled u
      rw [answering Reply.awaits rfl,answering Reply.found rfl,asked] at settled
      rw [List.count_append,List.count_append,numbers,settled]
      simp only [List.count_nil]
      omega
    · have owned := sound.owned a
      rw [calling Call.loose rfl,answering Reply.loose rfl] at owned
      exact owned
    · have waits := sound.waits u
      rw [calling (Call.number s.unique) rfl,answering Reply.awaits rfl,asked] at waits
      have same : (entries.map s.unique).count u = entries.countP fun a => decide (s.unique a = u) := by
        rw [List.count_eq_countP,List.countP_map]
        exact List.countP_congr fun a _ => by simp
      rw [same,waits,List.count_nil,Nat.zero_add]

def Sys.run : Sys → List Event → Option Sys
  | s, [] => some s
  | s, e :: rest =>
    match s.step e with
    | some (.ok s') => s'.run rest
    | _ => none

theorem runReached {events : List Event} (reached : Reached s) (ran : s.run events = some s') : Reached s' := by
  induction events generalizing s with
  | nil =>
    cases ran
    exact reached
  | cons e rest ih =>
    unfold Sys.run at ran
    split at ran
    · next step => exact ih (reached.step step) ran
    · cases ran

/- Three threads ask at once. The kernel refuses the first, the second is answered before the first has
taken its request back, and the answer to the third is lost. -/
def threeRetrieves : List Event :=
  [.alloc 100 7,.alloc 200 8,.alloc 300 9,.register 1,.register 0,.register 2,.number 0,.number 1,.number 2,
    .accept 1,.accept 2,
    .refuse 0,.answer 1,.lose 3,.search 0,.unlink 0,.tell 0 true,.free 0,.release 0]

theorem secondAnswered : ∃ s, Reached s ∧ s.given = [(1,8)] ∧ s.rejected = [2] ∧ s.lost = [3] ∧ s.live.length = 1 ∧
    s.taken = [1,3] := by
  have passes : (start.run threeRetrieves).any (fun s => decide (s.given = [(1,8)] ∧ s.rejected = [2] ∧ s.lost = [3] ∧
      s.taken = [1,3] ∧ (∀ c ∈ s.calls, c = .done) ∧ (∀ r ∈ s.replies, r = .done) ∧ s.asked = [])) = true := by
      decide +kernel
  obtain ⟨s,ran,facts⟩ := (Option.any_eq_true _ _).mp passes
  obtain ⟨given,rejected,lost,taken,idle⟩ := of_decide_eq_true facts
  have reached := runReached .start ran
  obtain ⟨-,entries,-,live,left⟩ := (retrievesAnswered reached).2.2.2.2 idle
  have count := left.length_eq
  rw [List.length_map,lost] at count
  exact ⟨s,reached,given,rejected,lost,live.length_eq.trans count,taken⟩

end FuseStudy.RetrieveReplies
