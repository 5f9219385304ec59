import LinuxKernel.DoublyLinked
import LinuxKernel.ProcessModel

/-!
# The links as lists

`Forest` says which lists the links of a state stand for: the ring of all tasks, and for each
task the list of its children.  `REMOVE_LINKS` and `SET_LINKS` take a task out of its lists and
put it into others.
-/

namespace LinuxKernel.Process
open Function List

open DoublyLinked

/-- The links of the tasks in `ring` and of `init_task`.  The parents are in `P`. -/
structure Forest (s : State) (P : Tid → Prop) (ring : List Tid) (kids : Tid → List Tid) : Prop where
  closed : Ring initTask s.nextTask s.prevTask ring
  chained : ∀ q, P q → Chained (s.cptr q) s.osptr s.ysptr (kids q)
  mem_kids : ∀ q, P q → ∀ t, t ∈ kids q ↔ t ∈ ring ∧ s.pptr t = q
  pptr : ∀ t ∈ ring, P (s.pptr t)
  idle : s.osptr initTask = none ∧ s.ysptr initTask = none

section

variable {s s' : State} {P P' : Tid → Prop} {ring l1 l2 : List Tid} {kids : Tid → List Tid}
  {p q t : Tid}

section
variable (h : Forest s P ring kids)
include h

theorem Forest.congr (hnext : s'.nextTask = s.nextTask) (hprev : s'.prevTask = s.prevTask)
    (hc : ∀ q, P q → s'.cptr q = s.cptr q) (ho : s'.osptr = s.osptr) (hy : s'.ysptr = s.ysptr)
    (hp : ∀ t ∈ ring, s'.pptr t = s.pptr t) : Forest s' P ring kids := by
  refine ⟨by rw [hnext, hprev]; exact h.closed, ?_, ?_, ?_, by rw [ho, hy]; exact h.idle⟩
  · intro q hq
    rw [hc q hq, ho, hy]
    exact h.chained q hq
  · intro q hq t
    rw [h.mem_kids q hq]
    constructor
    · rintro ⟨ht, hpt⟩
      exact ⟨ht, (hp t ht).trans hpt⟩
    · rintro ⟨ht, hpt⟩
      exact ⟨ht, (hp t ht).symm.trans hpt⟩
  · intro t ht
    rw [hp t ht]
    exact h.pptr t ht

theorem Forest.mono (hsub : ∀ q, P' q → P q) (hp : ∀ t ∈ ring, P' (s.pptr t)) :
    Forest s P' ring kids :=
  ⟨h.closed, fun q hq => h.chained q (hsub q hq), fun q hq => h.mem_kids q (hsub q hq), hp, h.idle⟩

theorem Forest.initTask_notMem : initTask ∉ ring :=
  (nodup_cons.mp h.closed.nodup).1

theorem Forest.nodup : ring.Nodup := (nodup_cons.mp h.closed.nodup).2

theorem Forest.eq_pptr (hq : P q) (ht : t ∈ kids q) : s.pptr t = q :=
  ((h.mem_kids q hq t).mp ht).2

theorem Forest.split_kids (hp : p ∈ ring) : ∃ k1 k2, kids (s.pptr p) = k1 ++ p :: k2 :=
  append_of_mem ((h.mem_kids _ (h.pptr p hp) p).mpr ⟨hp, rfl⟩)

theorem Forest.ne_initTask (hq : P q) (ht : t ∈ kids q) : t ≠ initTask := by
  rintro rfl
  exact h.initTask_notMem ((h.mem_kids q hq _).mp ht).1

end

section
variable (s : State)

theorem removeLinks_osptr (p b : Tid) :
    (s.removeLinks p).osptr b = if s.ysptr p = some b then s.osptr p else s.osptr b := by
  unfold State.removeLinks
  cases hy : s.ysptr p with
  | none => simp
  | some y =>
    dsimp only
    by_cases hb : b = y
    · rw [hb, update_self, if_pos rfl]
    · rw [update_of_ne hb, if_neg fun heq => hb (Option.some.inj heq).symm]

theorem removeLinks_ysptr (p b : Tid) :
    (s.removeLinks p).ysptr b = if s.osptr p = some b then s.ysptr p else s.ysptr b := by
  unfold State.removeLinks
  cases ho : s.osptr p with
  | none => simp
  | some o =>
    dsimp only
    by_cases hb : b = o
    · rw [hb, update_self, if_pos rfl]
    · rw [update_of_ne hb, if_neg fun heq => hb (Option.some.inj heq).symm]

theorem removeLinks_cptr (p q : Tid) :
    (s.removeLinks p).cptr q = if s.ysptr p = none ∧ q = s.pptr p then s.osptr p else s.cptr q := by
  unfold State.removeLinks
  cases hy : s.ysptr p with
  | some y => simp
  | none =>
    dsimp only
    by_cases hq : q = s.pptr p
    · rw [hq, update_self, if_pos ⟨rfl, rfl⟩]
    · rw [update_of_ne hq, if_neg fun h => hq h.2]

theorem removeLinks_nextTask (p x : Tid) : (s.removeLinks p).nextTask x =
    if x = s.prevTask p then s.nextTask p else s.nextTask x := by
  unfold State.removeLinks
  dsimp only
  by_cases hx : x = s.prevTask p
  · rw [hx, update_self, if_pos rfl]
  · rw [update_of_ne hx, if_neg hx]

theorem removeLinks_prevTask (p x : Tid) : (s.removeLinks p).prevTask x =
    if x = s.nextTask p then s.prevTask p else s.prevTask x := by
  unfold State.removeLinks
  dsimp only
  by_cases hx : x = s.nextTask p
  · rw [hx, update_self, if_pos rfl]
  · rw [update_of_ne hx, if_neg hx]

variable {s} in
theorem Forest.removeLinks (h : Forest s P (l1 ++ p :: l2) kids) :
    Forest (s.removeLinks p) P (l1 ++ l2) fun q => (kids q).erase p := by
  have hmem : p ∈ l1 ++ p :: l2 := by simp
  have hnodup := h.nodup
  have hp12 : p ∉ l1 ++ l2 := by
    rw [nodup_append, nodup_cons] at hnodup
    intro hin
    rcases mem_append.mp hin with hin | hin
    · exact hnodup.2.2 p hin p (mem_cons_self ..) rfl
    · exact hnodup.2.1.1 hin
  obtain ⟨k1, k2, hk⟩ := h.split_kids hmem
  have hparent := h.pptr p hmem
  have hchain := h.chained _ hparent
  rw [hk] at hchain
  have hkp : p ∉ k1 := by
    have := hchain.nodup
    rw [nodup_append] at this
    exact fun hin => this.2.2 p hin p (mem_cons_self ..) rfl
  have herase : (kids (s.pptr p)).erase p = k1 ++ k2 := by
    rw [hk, erase_append_right _ hkp, erase_cons_head]
  have hyounger := hchain.prev_eq
  have holder := hchain.next_eq
  refine ⟨?_, ?_, ?_, ?_, ?_⟩
  · exact h.closed.remove (fun x _ => removeLinks_nextTask s p x)
      (fun x _ => removeLinks_prevTask s p x)
  · intro q hq
    by_cases hqp : q = s.pptr p
    · subst hqp
      rw [herase]
      have := hchain.remove (fun b _ => removeLinks_osptr s p b)
        (fun b _ => removeLinks_ysptr s p b)
      have hc : (s.removeLinks p).cptr (s.pptr p) =
          if s.ysptr p = none then s.osptr p else s.cptr (s.pptr p) := by
        rw [removeLinks_cptr]
        simp
      rw [hc]
      exact this
    · -- the lists of other parents do not have the neighbours of `p`
      have hother : ∀ b ∈ kids q, b ∉ kids (s.pptr p) := by
        intro b hb hb'
        exact hqp ((h.eq_pptr hq hb).symm.trans (h.eq_pptr hparent hb'))
      have hnp : p ∉ kids q := fun hin => hqp (h.eq_pptr hq hin).symm
      rw [erase_of_not_mem hnp, removeLinks_cptr, if_neg fun h => hqp h.2]
      refine (h.chained q hq).congr ?_ ?_
      · intro b hb
        rw [removeLinks_osptr, if_neg]
        intro heq
        refine hother b hb ?_
        rw [hk]
        exact mem_append_left _ (mem_of_getLast? (hyounger.symm.trans heq))
      · intro b hb
        rw [removeLinks_ysptr, if_neg]
        intro heq
        refine hother b hb ?_
        rw [hk]
        refine mem_append_right _ (mem_cons_of_mem _ ?_)
        exact mem_of_mem_head? (holder.symm.trans heq)
  · intro q hq t
    rw [((h.chained q hq).nodup).mem_erase_iff, h.mem_kids q hq t]
    have hpptr : (s.removeLinks p).pptr = s.pptr := rfl
    simp only [mem_append, mem_cons]
    constructor
    · rintro ⟨hne, hin, hpt⟩
      exact ⟨by tauto, hpt⟩
    · rintro ⟨hin, hpt⟩
      refine ⟨?_, by tauto, hpt⟩
      rintro rfl
      exact hp12 (mem_append.mpr hin)
  · intro t ht
    refine h.pptr t ?_
    simp only [mem_append, mem_cons] at ht ⊢
    tauto
  · rw [removeLinks_osptr, removeLinks_ysptr, if_neg, if_neg]
    · exact h.idle
    · intro heq
      refine h.ne_initTask hparent (t := initTask) ?_ rfl
      rw [hk]
      refine mem_append_right _ (mem_cons_of_mem _ ?_)
      exact mem_of_mem_head? (holder.symm.trans heq)
    · intro heq
      refine h.ne_initTask hparent (t := initTask) ?_ rfl
      rw [hk]
      exact mem_append_left _ (mem_of_getLast? (hyounger.symm.trans heq))

theorem setLinks_osptr (p b : Tid) :
    (s.setLinks p).osptr b = if b = p then s.cptr (s.pptr p) else s.osptr b := by
  unfold State.setLinks
  dsimp only
  by_cases hb : b = p
  · rw [hb, update_self, if_pos rfl]
  · rw [update_of_ne hb, if_neg hb]

theorem setLinks_ysptr (p b : Tid) : (s.setLinks p).ysptr b =
    if s.cptr (s.pptr p) = some b then some p else if b = p then none else s.ysptr b := by
  unfold State.setLinks
  have hnone : update s.ysptr p none b = if b = p then none else s.ysptr b := by
    by_cases hb : b = p
    · rw [hb, update_self, if_pos rfl]
    · rw [update_of_ne hb, if_neg hb]
  cases ho : s.cptr (s.pptr p) with
  | none =>
    exact hnone
  | some o =>
    dsimp only
    by_cases hb : b = o
    · rw [hb, update_self, if_pos rfl]
    · rw [update_of_ne hb, if_neg fun heq => hb (Option.some.inj heq).symm, hnone]

theorem setLinks_cptr (p q : Tid) :
    (s.setLinks p).cptr q = if q = s.pptr p then some p else s.cptr q := by
  unfold State.setLinks
  dsimp only
  by_cases hq : q = s.pptr p
  · rw [hq, update_self, if_pos rfl]
  · rw [update_of_ne hq, if_neg hq]

end

theorem Forest.setLinks (h : Forest s P ring kids) (hp : p ∉ initTask :: ring)
    (hparent : P (s.pptr p)) : Forest (s.setLinks p) P (ring ++ [p])
      (update kids (s.pptr p) (p :: kids (s.pptr p))) := by
  have hring : p ∉ ring := fun hin => hp (mem_cons_of_mem _ hin)
  have hinit : p ≠ initTask := fun heq => hp (heq ▸ mem_cons_self ..)
  have hkids : ∀ q, P q → p ∉ kids q := fun q hq hin => hring ((h.mem_kids q hq p).mp hin).1
  refine ⟨?_, ?_, ?_, ?_, ?_⟩
  · have hprev : s.prevTask initTask ≠ p := by
      intro heq
      have hlast := mem_of_getLast? h.closed.getLast?_eq
      exact hp (heq ▸ hlast)
    refine h.closed.push hp ?_ ?_ ?_ ?_
    · simp only [State.setLinks]
      rw [update_of_ne hprev.symm, update_self]
    · simp only [State.setLinks]
      rw [update_of_ne hinit, update_self]
    · intro x hx
      have hxp : x ≠ p := fun heq => hp (heq ▸ hx)
      simp only [State.setLinks]
      by_cases hxl : x = s.prevTask initTask
      · rw [hxl, update_self, if_pos rfl]
      · rw [update_of_ne hxl, update_of_ne hxp, if_neg hxl]
    · intro x hx
      have hxp : x ≠ p := fun heq => hp (heq ▸ hx)
      simp only [State.setLinks]
      by_cases hxi : x = initTask
      · rw [hxi, update_self, if_pos rfl]
      · rw [update_of_ne hxi, update_of_ne hxp, if_neg hxi]
  · intro q hq
    rw [setLinks_cptr]
    by_cases hqp : q = s.pptr p
    · subst hqp
      rw [if_pos rfl, update_self]
      refine (h.chained _ hq).push (hkids _ hq) ?_ ?_ ?_ ?_
      · rw [setLinks_osptr, if_pos rfl]
      · have hne : s.cptr (s.pptr p) ≠ some p := by
          rw [← (h.chained _ hq).head]
          exact fun heq => hkids _ hq (mem_of_mem_head? heq)
        rw [setLinks_ysptr, if_neg hne, if_pos rfl]
      · intro b hb
        have hbp : b ≠ p := fun heq => hkids _ hq (heq ▸ hb)
        rw [setLinks_osptr, if_neg hbp]
      · intro b hb
        have hbp : b ≠ p := fun heq => hkids _ hq (heq ▸ hb)
        rw [setLinks_ysptr, if_neg hbp]
    · rw [if_neg hqp, update_of_ne hqp]
      refine (h.chained q hq).congr ?_ ?_
      · intro b hb
        have hbp : b ≠ p := fun heq => hkids _ hq (heq ▸ hb)
        rw [setLinks_osptr, if_neg hbp]
      · intro b hb
        have hbp : b ≠ p := fun heq => hkids _ hq (heq ▸ hb)
        have hhead : s.cptr (s.pptr p) ≠ some b := by
          rw [← (h.chained _ hparent).head]
          intro heq
          exact hqp ((h.eq_pptr hq hb).symm.trans (h.eq_pptr hparent (mem_of_mem_head? heq)))
        rw [setLinks_ysptr, if_neg hhead, if_neg hbp]
  · intro q hq t
    have hpptr : (s.setLinks p).pptr = s.pptr := rfl
    rw [hpptr, mem_append, mem_singleton]
    by_cases hqp : q = s.pptr p
    · subst hqp
      rw [update_self, mem_cons, h.mem_kids _ hq]
      constructor
      · rintro (rfl | ⟨ht, hpt⟩)
        · exact ⟨.inr rfl, rfl⟩
        · exact ⟨.inl ht, hpt⟩
      · rintro ⟨ht | rfl, hpt⟩
        · exact .inr ⟨ht, hpt⟩
        · exact .inl rfl
    · rw [update_of_ne hqp, h.mem_kids _ hq]
      constructor
      · rintro ⟨ht, hpt⟩
        exact ⟨.inl ht, hpt⟩
      · rintro ⟨ht | rfl, hpt⟩
        · exact ⟨ht, hpt⟩
        · exact absurd hpt.symm hqp
  · intro t ht
    rcases mem_append.mp ht with ht | ht
    · exact h.pptr t ht
    · obtain rfl := mem_singleton.mp ht
      exact hparent
  · have hhead : s.cptr (s.pptr p) ≠ some initTask := by
      rw [← (h.chained _ hparent).head]
      exact fun heq => h.ne_initTask hparent (mem_of_mem_head? heq) rfl
    rw [setLinks_osptr, setLinks_ysptr, if_neg hinit.symm, if_neg hhead, if_neg hinit.symm]
    exact h.idle

theorem Forest.moveTo (h : Forest s P ring kids) (hp : p ∈ ring) (hq : P q) :
    ∃ ring' kids', Forest (s.moveTo p q) P ring' kids' ∧ (∀ t, t ∈ ring' ↔ t ∈ ring) := by
  obtain ⟨l1, l2, rfl⟩ := append_of_mem hp
  have hremove := h.removeLinks
  have hp12 : p ∉ initTask :: (l1 ++ l2) := by
    have hnodup := h.closed.nodup
    rw [← cons_append, nodup_append] at hnodup
    rw [← cons_append]
    intro hin
    rcases mem_append.mp hin with hin | hin
    · exact hnodup.2.2 p hin p (mem_cons_self ..) rfl
    · exact (nodup_cons.mp hnodup.2.1).1 hin
  have hset : Forest { s.removeLinks p with pptr := update (s.removeLinks p).pptr p q } P
      (l1 ++ l2) fun q => (kids q).erase p := by
    refine hremove.congr rfl rfl (fun _ _ => rfl) rfl rfl fun t ht => ?_
    have htp : t ≠ p := fun heq => hp12 (heq ▸ mem_cons_of_mem _ ht)
    exact update_of_ne htp ..
  have hparent : ({ s.removeLinks p with
      pptr := update (s.removeLinks p).pptr p q } : State).pptr p = q :=
    update_self ..
  refine ⟨_, _, hset.setLinks hp12 (by rw [hparent]; exact hq), fun t => ?_⟩
  simp only [mem_append, mem_cons, not_mem_nil, or_false]
  tauto

/-- Only signals were sent: no link has changed, and a task may run again that was stopped. -/
structure Quiet (s s' : State) : Prop where
  task : s'.task = s.task
  nextTask : s'.nextTask = s.nextTask
  prevTask : s'.prevTask = s.prevTask
  opptr : s'.opptr = s.opptr
  pptr : s'.pptr = s.pptr
  cptr : s'.cptr = s.cptr
  ysptr : s'.ysptr = s.ysptr
  osptr : s'.osptr = s.osptr
  ptraced : s'.ptraced = s.ptraced
  pgrp : s'.pgrp = s.pgrp
  session : s'.session = s.session
  pc : s'.pc = s.pc
  oops : s'.oops = s.oops
  state : ∀ t, s'.state t = s.state t ∨ s.state t = .stopped ∧ s'.state t = .running

theorem Quiet.refl (s : State) : Quiet s s := by
  constructor <;> intros <;> first | rfl | exact .inl rfl

theorem Quiet.trans {s'' : State} (h : Quiet s s') (h' : Quiet s' s'') : Quiet s s'' := by
  refine ⟨h'.task.trans h.task, h'.nextTask.trans h.nextTask, h'.prevTask.trans h.prevTask,
    h'.opptr.trans h.opptr, h'.pptr.trans h.pptr, h'.cptr.trans h.cptr, h'.ysptr.trans h.ysptr,
    h'.osptr.trans h.osptr, h'.ptraced.trans h.ptraced, h'.pgrp.trans h.pgrp,
    h'.session.trans h.session, h'.pc.trans h.pc, h'.oops.trans h.oops, fun t => ?_⟩
  rcases h.state t with h1 | ⟨h1, h2⟩
  · rw [← h1]
    exact h'.state t
  · rcases h'.state t with h3 | ⟨h3, -⟩
    · exact .inr ⟨h1, h3.trans h2⟩
    · rw [h2] at h3
      exact absurd h3 (by decide)

theorem Quiet.zombie_iff (h : Quiet s s') (t : Tid) :
    s'.state t = .zombie ↔ s.state t = .zombie := by
  rcases h.state t with h1 | ⟨h1, h2⟩
  · rw [h1]
  · rw [h1, h2]
    decide

theorem sendSig_quiet (s : State) (sig : ℕ) (p : Tid) : Quiet s (s.sendSig sig p) := by
  unfold State.sendSig
  split
  · refine ⟨rfl, rfl, rfl, rfl, rfl, rfl, rfl, rfl, rfl, rfl, rfl, rfl, rfl, fun t => ?_⟩
    dsimp only
    split
    · next hstopped =>
      by_cases ht : t = p
      · exact .inr ⟨ht ▸ hstopped, by rw [ht, update_self]⟩
      · exact .inl (update_of_ne ht ..)
    · exact .inl rfl
  · exact Quiet.refl s

theorem killPg_quiet (s : State) (pgrp sig : ℕ) : Quiet s (s.killPg pgrp sig) := by
  unfold State.killPg
  generalize s.tasks = l
  induction l generalizing s with
  | nil => exact Quiet.refl s
  | cons p l ih =>
    rw [foldl_cons]
    refine Quiet.trans ?_ (ih _)
    split
    · exact sendSig_quiet s sig p
    · exact Quiet.refl s

theorem notifyParent_quiet (s : State) (p : Tid) : Quiet s (s.notifyParent p) := by
  unfold State.notifyParent
  refine Quiet.trans ?_ (sendSig_quiet _ _ _)
  split
  · exact ⟨rfl, rfl, rfl, rfl, rfl, rfl, rfl, rfl, rfl, rfl, rfl, rfl, rfl, fun t => .inl rfl⟩
  · exact Quiet.refl s

theorem wakeOrphans_quiet (s : State) (pgrp : ℕ) : Quiet s (s.wakeOrphans pgrp) := by
  unfold State.wakeOrphans
  split
  · exact (killPg_quiet s pgrp sighup).trans (killPg_quiet _ pgrp sigcont)
  · exact Quiet.refl s

theorem Forest.quiet (h : Forest s P ring kids) (hq : Quiet s s') : Forest s' P ring kids :=
  h.congr hq.nextTask hq.prevTask (fun q _ => by rw [hq.cptr]) hq.osptr hq.ysptr
    fun t _ => by rw [hq.pptr]

end

end LinuxKernel.Process
