import LinuxKernel.ProcessForest

/-!
# The children of a task that exits

The loop of `do_exit` over the children moves them one by one in front of the children of the
heir.  It needs an heir that has a child already.
-/

namespace LinuxKernel.Process
open Function List

open DoublyLinked

/-- The loop of `do_exit` of the task `t` is running, and `rest` are the children left.  The
first of them may have a link to a younger one that has been moved. -/
structure Adopting (s : State) (P : Tid → Prop) (ring : List Tid) (kids : Tid → List Tid) (t : Tid)
    (rest : List Tid) : Prop where
  closed : Ring initTask s.nextTask s.prevTask ring
  chained : ∀ q, P q → q ≠ t → Chained (s.cptr q) s.osptr s.ysptr (kids q)
  mem_kids : ∀ q, P q → q ≠ t → ∀ x, x ∈ kids q ↔ x ∈ ring ∧ s.pptr x = q
  pptr : ∀ x ∈ ring, P (s.pptr x)
  head : s.cptr t = rest.head?
  adj : rest.IsChain (Adj s.osptr s.ysptr)
  last : ∀ x ∈ rest.getLast?, s.osptr x = none
  nodup : rest.Nodup
  mem_rest : ∀ x, x ∈ rest ↔ x ∈ ring ∧ s.pptr x = t
  idle : s.osptr initTask = none ∧ s.ysptr initTask = none

structure Beside (s s' : State) : Prop where
  task : s'.task = s.task
  nextTask : s'.nextTask = s.nextTask
  prevTask : s'.prevTask = s.prevTask
  opptr : s'.opptr = s.opptr
  pgrp : s'.pgrp = s.pgrp
  session : s'.session = s.session
  pc : s'.pc = s.pc
  oops : s'.oops = s.oops
  state : ∀ t, s'.state t = s.state t ∨ s.state t = .stopped ∧ s'.state t = .running

section

variable {s s' : State} {P : Tid → Prop} {ring rest : List Tid} {kids : Tid → List Tid}
  {t p o h : Tid}

theorem Quiet.beside (hq : Quiet s s') : Beside s s' :=
  ⟨hq.task, hq.nextTask, hq.prevTask, hq.opptr, hq.pgrp, hq.session, hq.pc, hq.oops, hq.state⟩

theorem Beside.trans {s'' : State} (h : Beside s s') (h' : Beside s' s'') : Beside s s'' := by
  refine ⟨h'.task.trans h.task, h'.nextTask.trans h.nextTask, h'.prevTask.trans h.prevTask,
    h'.opptr.trans h.opptr, h'.pgrp.trans h.pgrp, h'.session.trans h.session, h'.pc.trans h.pc,
    h'.oops.trans h.oops, fun t => ?_⟩
  rcases h.state t with h1 | ⟨h1, h2⟩
  · rw [← h1]
    exact h'.state t
  · rcases h'.state t with h3 | ⟨h3, -⟩
    · exact .inr ⟨h1, h3.trans h2⟩
    · rw [h2] at h3
      exact absurd h3 (by decide)

theorem Beside.heir_eq (h : Beside s s') (t : Tid) : s'.heir t = s.heir t := by
  unfold State.heir
  rw [h.task]

theorem Adopting.quiet (ha : Adopting s P ring kids t rest) (hq : Quiet s s') :
    Adopting s' P ring kids t rest := by
  constructor
  · rw [hq.nextTask, hq.prevTask]
    exact ha.closed
  · rw [hq.cptr, hq.osptr, hq.ysptr]
    exact ha.chained
  · rw [hq.pptr]
    exact ha.mem_kids
  · rw [hq.pptr]
    exact ha.pptr
  · rw [hq.cptr]
    exact ha.head
  · rw [hq.osptr, hq.ysptr]
    exact ha.adj
  · rw [hq.osptr]
    exact ha.last
  · exact ha.nodup
  · rw [hq.pptr]
    exact ha.mem_rest
  · rw [hq.osptr, hq.ysptr]
    exact ha.idle

theorem signalMoved_quiet (s : State) (t p : Tid) : Quiet s (s.signalMoved t p) := by
  unfold State.signalMoved
  dsimp only
  have hnotify : Quiet s (if s.state p = .zombie then s.notifyParent p else s) := by
    split
    · exact notifyParent_quiet s p
    · exact Quiet.refl s
  refine hnotify.trans ?_
  generalize (if s.state p = .zombie then s.notifyParent p else s) = s1
  split
  · exact wakeOrphans_quiet _ _
  · exact Quiet.refl _

theorem adopt_eq (hne : s.heir t ≠ t) (ho : s.cptr (s.heir t) = some o) :
    s.adopt t p = (s.relink t p (s.heir t) o).signalMoved t p := by
  unfold State.adopt
  rw [update_of_ne hne, ho]

theorem relink_beside (s : State) (t p h o : Tid) : Beside s (s.relink t p h o) :=
  ⟨rfl, rfl, rfl, rfl, rfl, rfl, rfl, rfl, fun _ => .inl rfl⟩

theorem Adopting.relink (ha : Adopting s P ring kids t (p :: rest)) (hh : P h) (hne : h ≠ t)
    (ho : s.cptr h = some o) :
    Adopting (s.relink t p h o) P ring (update kids h (p :: kids h)) t rest := by
  obtain ⟨hp, hpt⟩ := (ha.mem_rest p).mp (mem_cons_self ..)
  have hprest : p ∉ rest := (nodup_cons.mp ha.nodup).1
  have hhead := (ha.chained h hh hne).head
  rw [ho] at hhead
  have hoh : o ∈ kids h := mem_of_mem_head? hhead
  have hpkids : ∀ q, P q → q ≠ t → p ∉ kids q := by
    intro q hq hqt hin
    exact hqt (((ha.mem_kids q hq hqt p).mp hin).2.symm.trans hpt)
  have hokids : ∀ q, P q → q ≠ t → q ≠ h → o ∉ kids q := by
    intro q hq hqt hqh hin
    exact hqh (((ha.mem_kids q hq hqt o).mp hin).2.symm.trans ((ha.mem_kids h hh hne o).mp hoh).2)
  have horest : o ∉ rest := by
    intro hin
    have hot := ((ha.mem_rest o).mp (mem_cons_of_mem _ hin)).2
    exact hne (((ha.mem_kids h hh hne o).mp hoh).2.symm.trans hot)
  have hpo : p ≠ o := fun heq => hpkids h hh hne (heq ▸ hoh)
  have hfirst : s.osptr p = rest.head? := by
    have hadj := isChain_cons.mp ha.adj
    cases hr : rest.head? with
    | none =>
      rw [List.head?_eq_none_iff] at hr
      exact ha.last p (by simp [hr])
    | some x => exact (hadj.1 x hr).1
  constructor
  · exact ha.closed
  · intro q hq hqt
    simp only [State.relink]
    by_cases hqh : q = h
    · subst hqh
      rw [update_self, update_self]
      refine (ha.chained q hq hqt).push (hpkids q hq hqt) ?_ ?_ ?_ ?_
      · rw [update_self, ho]
      · rw [update_of_ne hpo, update_self]
      · intro b hb
        have hbp : b ≠ p := fun heq => hpkids q hq hqt (heq ▸ hb)
        rw [update_of_ne hbp]
      · intro b hb
        have hbp : b ≠ p := fun heq => hpkids q hq hqt (heq ▸ hb)
        rw [ho]
        by_cases hbo : b = o
        · rw [hbo, update_self, if_pos rfl]
        · rw [update_of_ne hbo, update_of_ne hbp, if_neg fun heq => hbo (Option.some.inj heq).symm]
    · rw [update_of_ne hqh, update_of_ne hqt, update_of_ne hqh]
      refine (ha.chained q hq hqt).congr ?_ ?_
      · intro b hb
        have hbp : b ≠ p := fun heq => hpkids q hq hqt (heq ▸ hb)
        rw [update_of_ne hbp]
      · intro b hb
        have hbp : b ≠ p := fun heq => hpkids q hq hqt (heq ▸ hb)
        have hbo : b ≠ o := fun heq => hokids q hq hqt hqh (heq ▸ hb)
        rw [update_of_ne hbo, update_of_ne hbp]
  · intro q hq hqt x
    simp only [State.relink]
    by_cases hxp : x = p
    · subst hxp
      by_cases hqh : q = h
      · subst hqh
        simp [hp]
      · rw [update_of_ne hqh]
        simp [hpkids q hq hqt, Ne.symm hqh]
    · rw [update_of_ne hxp]
      by_cases hqh : q = h
      · subst hqh
        rw [update_self, mem_cons, ← ha.mem_kids q hq hqt x]
        simp [hxp]
      · rw [update_of_ne hqh]
        exact ha.mem_kids q hq hqt x
  · intro x hx
    simp only [State.relink]
    by_cases hxp : x = p
    · rw [hxp, update_self]
      exact hh
    · rw [update_of_ne hxp]
      exact ha.pptr x hx
  · simp only [State.relink]
    rw [update_of_ne hne.symm, update_self, hfirst]
  · refine (isChain_cons.mp ha.adj).2.imp_of_mem_imp fun x y hx hy hadj => ?_
    have hxp : x ≠ p := fun heq => hprest (heq ▸ hx)
    have hyp : y ≠ p := fun heq => hprest (heq ▸ hy)
    have hyo : y ≠ o := fun heq => horest (heq ▸ hy)
    simp only [State.relink, Adj]
    rw [update_of_ne hxp, update_of_ne hyo, update_of_ne hyp]
    exact hadj
  · intro x hx
    have hxrest : x ∈ rest := mem_of_getLast? hx
    have hxp : x ≠ p := fun heq => hprest (heq ▸ hxrest)
    simp only [State.relink]
    rw [update_of_ne hxp]
    refine ha.last x ?_
    rw [List.getLast?_cons]
    simp [Option.mem_def.mp hx]
  · exact (nodup_cons.mp ha.nodup).2
  · intro x
    simp only [State.relink]
    by_cases hxp : x = p
    · subst hxp
      simp [hprest, hne]
    · rw [update_of_ne hxp, ← ha.mem_rest x, mem_cons]
      simp [hxp]
  · have hinit : initTask ∉ ring := (nodup_cons.mp ha.closed.nodup).1
    have hip : initTask ≠ p := fun heq => hinit (heq ▸ hp)
    have hio : initTask ≠ o := fun heq => hinit (heq ▸ ((ha.mem_kids h hh hne o).mp hoh).1)
    simp only [State.relink]
    rw [update_of_ne hip, update_of_ne hio, update_of_ne hip]
    exact ha.idle

theorem Forest.adopting (h : Forest s P ring kids) (ht : P t) :
    Adopting s P ring kids t (kids t) := by
  have hchain := h.chained t ht
  exact ⟨h.closed, fun q hq _ => h.chained q hq, fun q hq _ => h.mem_kids q hq, h.pptr,
    hchain.head.symm, hchain.adj, hchain.last, hchain.nodup, h.mem_kids t ht, h.idle⟩

theorem Adopting.forest (h : Adopting s P ring kids t []) : Forest s P ring (update kids t []) := by
  refine ⟨h.closed, ?_, ?_, h.pptr, h.idle⟩
  · intro q hq
    by_cases hqt : q = t
    · rw [hqt, update_self, h.head]
      exact chained_nil _ _
    · rw [update_of_ne hqt]
      exact h.chained q hq hqt
  · intro q hq x
    by_cases hqt : q = t
    · rw [hqt, update_self]
      exact h.mem_rest x
    · rw [update_of_ne hqt]
      exact h.mem_kids q hq hqt x

theorem Adopting.adoptAll_nil (ha : Adopting s P ring kids t []) (n : ℕ) :
    State.adoptAll t n s = s := by
  cases n with
  | zero => rfl
  | succ n =>
    unfold State.adoptAll
    rw [ha.head]
    rfl

theorem Adopting.round (ha : Adopting s P ring kids t (p :: rest)) (hh : P (s.heir t))
    (hne : s.heir t ≠ t) (hchild : s.cptr (s.heir t) ≠ none) (hoops : s.oops = false) (n : ℕ) :
    ∃ o, s.adopt t p = (s.relink t p (s.heir t) o).signalMoved t p ∧
      Beside s (s.adopt t p) ∧
      Adopting (s.adopt t p) P ring (update kids (s.heir t) (p :: kids (s.heir t))) t rest ∧
      (s.adopt t p).cptr ((s.adopt t p).heir t) ≠ none ∧
      State.adoptAll t (n + 1) s = State.adoptAll t n (s.adopt t p) := by
  obtain ⟨o, ho⟩ := Option.ne_none_iff_exists'.mp hchild
  have hround := adopt_eq (p := p) hne ho
  have hquiet := signalMoved_quiet (s.relink t p (s.heir t) o) t p
  have hbeside := (relink_beside s t p (s.heir t) o).trans hquiet.beside
  rw [← hround] at hquiet hbeside
  have hoops' : (s.adopt t p).oops = false := hbeside.oops.trans hoops
  refine ⟨o, hround, hbeside, (ha.relink hh hne ho).quiet hquiet, ?_, ?_⟩
  · rw [hbeside.heir_eq t, hquiet.cptr]
    have hnew : (s.relink t p (s.heir t) o).cptr (s.heir t) = some p := update_self ..
    simp [hnew]
  · rw [State.adoptAll, ha.head]
    simp [hoops']

theorem adoptAll_adopting (n : ℕ) (ha : Adopting s P ring kids t rest) (hh : P (s.heir t))
    (hne : s.heir t ≠ t) (hchild : rest ≠ [] → s.cptr (s.heir t) ≠ none)
    (hlen : rest.length ≤ n) (hoops : s.oops = false) :
    ∃ kids', Adopting (State.adoptAll t n s) P ring kids' t [] ∧
      Beside s (State.adoptAll t n s) ∧
      ∀ x, (State.adoptAll t n s).pptr x =
        if x ∈ ring ∧ s.pptr x = t then s.heir t else s.pptr x := by
  induction rest generalizing s kids n with
  | nil =>
    rw [ha.adoptAll_nil]
    refine ⟨kids, ha, (Quiet.refl s).beside, fun x => ?_⟩
    have hx : ¬(x ∈ ring ∧ s.pptr x = t) := fun hx => by simpa using (ha.mem_rest x).mpr hx
    rw [if_neg hx]
  | cons p rest ih =>
    obtain ⟨n, rfl⟩ := Nat.exists_eq_add_one.mpr ((Nat.succ_pos _).trans_le hlen)
    obtain ⟨o, hround, hbeside, hnext, hchild', heq⟩ := ha.round hh hne (hchild (by simp)) hoops n
    have hheir := hbeside.heir_eq t
    rw [heq]
    obtain ⟨kids', hdone, hrest, hpptr⟩ := ih n hnext (by rw [hheir]; exact hh)
      (by rw [hheir]; exact hne) (fun _ => hchild') (by simpa using hlen)
      (hbeside.oops.trans hoops)
    refine ⟨kids', hdone, hbeside.trans hrest, fun x => ?_⟩
    rw [hpptr x, hheir, hround, (signalMoved_quiet _ t p).pptr]
    by_cases hxp : x = p
    · have hpt := (ha.mem_rest p).mp (mem_cons_self ..)
      have hmoved : (s.relink t p (s.heir t) o).pptr p = s.heir t := update_self ..
      rw [hxp, hmoved, if_neg fun h => hne h.2, if_pos hpt]
    · have hkept : (s.relink t p (s.heir t) o).pptr x = s.pptr x := update_of_ne hxp ..
      rw [hkept]

theorem Forest.adoptAll (h : Forest s P ring kids) (ht : P t) (hh : P (s.heir t))
    (hne : s.heir t ≠ t) (hchild : s.cptr t ≠ none → s.cptr (s.heir t) ≠ none)
    (hlen : (kids t).length ≤ nrTasks) (hoops : s.oops = false) :
    ∃ kids', Forest (State.adoptAll t nrTasks s) P ring kids' ∧ kids' t = [] ∧
      Beside s (State.adoptAll t nrTasks s) ∧
      ∀ x, (State.adoptAll t nrTasks s).pptr x =
        if x ∈ ring ∧ s.pptr x = t then s.heir t else s.pptr x := by
  have hchild' : kids t ≠ [] → s.cptr (s.heir t) ≠ none := by
    intro hk
    refine hchild ?_
    rw [← (h.chained t ht).head]
    simpa using hk
  obtain ⟨kids', hdone, hbeside, hpptr⟩ :=
    adoptAll_adopting nrTasks (h.adopting ht) hh hne hchild' hlen hoops
  exact ⟨_, hdone.forest, update_self .., hbeside, hpptr⟩

end

end LinuxKernel.Process
