import LinuxKernel.ProcessAdopt

/-!
# The invariant of the process links

`LinkInv` is about the links, `PhaseInv` about what the tasks know that sleep in one of the
calls: a task that has forgotten its children is nobody's original parent, a dead task has no
children, and a task that is being made does nothing.  The process 1 is never released, and
nothing is said of what it leaves when it is dead.
-/

namespace LinuxKernel.Process
open Function List

open DoublyLinked

structure LinkInv (s : State) (ring : List Tid) (kids : Tid → List Tid) : Prop where
  forest : Forest s s.Used ring kids
  task_zero : s.task 0 = some initTask
  task_one : s.task 1 = some initProcess
  mem_ring : ∀ t, t ∈ ring ↔ ∃ i, 1 ≤ i ∧ i < nrTasks ∧ s.task i = some t
  inj : ∀ i j t, i < nrTasks → j < nrTasks → s.task i = some t → s.task j = some t → i = j
  opptr : ∀ t ∈ ring, s.Used (s.opptr t)
  idle : s.pptr initTask = initTask ∧ s.opptr initTask = initTask
  init : s.pptr initProcess = initTask
  self : ∀ t ∈ ring, s.pptr t ≠ t ∧ (t ≠ initProcess → s.opptr t ≠ t)

structure PhaseInv (s : State) (ring : List Tid) : Prop where
  oops : s.oops = false
  idle : s.pc initTask = .user
  awake : ∀ t, s.pc t = .user ∨ (∃ code, s.pc t = .dead code) ∨ s.Used t
  zombie : ∀ t, s.Used t → s.state t = .zombie → ∃ code, s.pc t = .dead code
  forgot : ∀ t code, t ≠ initProcess → s.pc t = .exiting true code ∨ s.pc t = .dead code →
    s.Used t → ∀ u ∈ ring, s.opptr u ≠ t
  dead : ∀ t code, t ≠ initProcess → s.pc t = .dead code → s.Used t → ∀ u ∈ ring, s.pptr u ≠ t
  slot : ∀ t p nr, s.pc t = .forking p nr → 1 ≤ nr ∧ nr < nrTasks ∧ s.task nr = some p
  made : ∀ t p nr, s.pc t = .forking p nr → p ≠ initTask ∧ p ≠ initProcess ∧
    s.state p = .uninterruptible ∧ s.pc p = .user ∧ ∀ u ∈ ring, s.pptr u ≠ p ∧ s.opptr u ≠ p
  maker : ∀ t t' p nr nr', s.pc t = .forking p nr → s.pc t' = .forking p nr' → t = t'
  reaping : ∀ t p v, s.pc t = .reaping p v → p ≠ initProcess ∧ p ≠ initTask

section

variable {s s' : State} {ring ring' : List Tid} {kids : Tid → List Tid} {p q t : Tid}

section
variable (h : LinkInv s ring kids)
include h

theorem LinkInv.used_iff (t : Tid) : s.Used t ↔ t = initTask ∨ t ∈ ring := by
  rw [h.mem_ring]
  constructor
  · rintro ⟨i, hi, ht⟩
    rcases Nat.eq_zero_or_pos i with rfl | hpos
    · rw [h.task_zero] at ht
      exact .inl (Option.some.inj ht).symm
    · exact .inr ⟨i, hpos, hi, ht⟩
  · rintro (rfl | ⟨i, -, hi, ht⟩)
    · exact ⟨0, by decide, h.task_zero⟩
    · exact ⟨i, hi, ht⟩

theorem LinkInv.mem_ring_of_used (ht : s.Used t) (hne : t ≠ initTask) : t ∈ ring :=
  ((h.used_iff t).mp ht).resolve_left hne

theorem LinkInv.used_initTask : s.Used initTask :=
  (h.used_iff _).mpr (.inl rfl)

theorem LinkInv.used_initProcess : s.Used initProcess :=
  ⟨1, by decide, h.task_one⟩

theorem LinkInv.length_lt : ring.length < nrTasks := by
  have hsub : ring.toFinset ⊆ (Finset.Ico 1 nrTasks).image fun i => (s.task i).getD 0 := by
    intro t ht
    obtain ⟨i, h1, h2, hi⟩ := (h.mem_ring t).mp (mem_toFinset.mp ht)
    refine Finset.mem_image.mpr ⟨i, Finset.mem_Ico.mpr ⟨h1, h2⟩, ?_⟩
    rw [hi]
    rfl
  have hcard := (Finset.card_le_card hsub).trans Finset.card_image_le
  rw [toFinset_card_of_nodup h.forest.nodup, Nat.card_Ico] at hcard
  unfold nrTasks at hcard ⊢
  omega

theorem LinkInv.kids_length (ht : s.Used t) : (kids t).length ≤ nrTasks := by
  have hsub : kids t ⊆ ring := fun x hx => ((h.forest.mem_kids t ht x).mp hx).1
  have hperm := subperm_of_subset (h.forest.chained t ht).nodup hsub
  exact hperm.length_le.trans h.length_lt.le

omit h in
theorem used_congr (h : s'.task = s.task) (t : Tid) : s'.Used t ↔ s.Used t := by
  unfold State.Used
  rw [h]

theorem LinkInv.congr (htask : s'.task = s.task) (hnext : s'.nextTask = s.nextTask)
    (hprev : s'.prevTask = s.prevTask) (hopptr : s'.opptr = s.opptr) (hpptr : s'.pptr = s.pptr)
    (hc : s'.cptr = s.cptr) (hy : s'.ysptr = s.ysptr) (ho : s'.osptr = s.osptr) :
    LinkInv s' ring kids := by
  have hused := used_congr htask
  refine ⟨?_, htask ▸ h.task_zero, htask ▸ h.task_one, htask ▸ h.mem_ring, htask ▸ h.inj, ?_, ?_,
      ?_,
    by rw [hpptr, hopptr]; exact h.self⟩
  · have hforest : Forest s' s.Used ring kids :=
      h.forest.congr hnext hprev (fun q _ => by rw [hc]) ho hy fun t _ => by rw [hpptr]
    refine hforest.mono (fun q hq => (hused q).mp hq) fun t ht => (hused _).mpr ?_
    rw [hpptr]
    exact h.forest.pptr t ht
  · intro t ht
    rw [hopptr, hused]
    exact h.opptr t ht
  · rw [hpptr, hopptr]
    exact h.idle
  · rw [hpptr]
    exact h.init

theorem LinkInv.quiet (hq : Quiet s s') : LinkInv s' ring kids :=
  h.congr hq.task hq.nextTask hq.prevTask hq.opptr hq.pptr hq.cptr hq.ysptr hq.osptr

end

theorem PhaseInv.states (h : PhaseInv s ring) (htask : s'.task = s.task)
    (hopptr : s'.opptr = s.opptr) (hpptr : s'.pptr = s.pptr) (hpc : s'.pc = s.pc)
    (hoops : s'.oops = s.oops) (hzombie : ∀ t, s'.state t = .zombie → s.state t = .zombie)
    (hmade : ∀ t p nr, s.pc t = .forking p nr → s'.state p = s.state p) : PhaseInv s' ring := by
  have hused := used_congr htask
  refine ⟨hoops.trans h.oops, hpc ▸ h.idle, ?_, ?_, ?_, ?_, ?_, ?_, ?_, ?_⟩
  · intro t
    rw [hpc, hused]
    exact h.awake t
  · intro t ht hz
    rw [hpc]
    exact h.zombie t ((hused t).mp ht) (hzombie t hz)
  · intro t code hi ht hu
    rw [hpc] at ht
    rw [hopptr]
    exact h.forgot t code hi ht ((hused t).mp hu)
  · intro t code hi ht hu
    rw [hpc] at ht
    rw [hpptr]
    exact h.dead t code hi ht ((hused t).mp hu)
  · rw [hpc, htask]
    exact h.slot
  · intro t p nr ht
    rw [hpc] at ht
    obtain ⟨h1, h2, h3, h4⟩ := h.made t p nr ht
    rw [hpc, hpptr, hopptr]
    exact ⟨h1, h2, (hmade t p nr ht).trans h3, h4⟩
  · rw [hpc]
    exact h.maker
  · rw [hpc]
    exact h.reaping

theorem PhaseInv.quiet (h : PhaseInv s ring) (hq : Quiet s s') : PhaseInv s' ring := by
  refine h.states hq.task hq.opptr hq.pptr hq.pc hq.oops (fun t => (hq.zombie_iff t).mp) ?_
  intro t p nr ht
  rcases hq.state p with heq | ⟨hstopped, -⟩
  · exact heq
  · rw [(h.made t p nr ht).2.2.1] at hstopped
    exact absurd hstopped (by decide)

def Pc.Plain : Pc → Prop
  | .user | .exiting false _ | .reporting _ => True
  | .reaping p _ => p ≠ initProcess ∧ p ≠ initTask
  | _ => False

theorem setPc_pc (s : State) (t u : Tid) (pc : Pc) :
    (s.setPc t pc).pc u = if u = t then pc else s.pc u := by
  unfold State.setPc
  dsimp only
  by_cases hu : u = t
  · rw [hu, update_self, if_pos rfl]
  · rw [update_of_ne hu, if_neg hu]

theorem LinkInv.setPc (h : LinkInv s ring kids) (t : Tid) (pc : Pc) :
    LinkInv (s.setPc t pc) ring kids :=
  h.congr rfl rfl rfl rfl rfl rfl rfl rfl

theorem PhaseInv.setPc (h : PhaseInv s ring) (ht : s.Used t) (hne : t ≠ initTask)
    (hz : s.state t ≠ .zombie) (hmade : ∀ u nr, s.pc u ≠ .forking t nr) {pc : Pc}
    (hpc : pc.Plain) : PhaseInv (s.setPc t pc) ring := by
  have hforking : ∀ u p nr,
    (s.setPc t pc).pc u = .forking p nr → u ≠ t ∧ s.pc u = .forking p nr := by
    intro u p nr hu
    rw [setPc_pc] at hu
    split at hu
    · rw [hu] at hpc
      exact hpc.elim
    · next hut => exact ⟨hut, hu⟩
  refine ⟨h.oops, ?_, ?_, ?_, ?_, ?_, ?_, ?_, ?_, ?_⟩
  · rw [setPc_pc, if_neg hne.symm]
    exact h.idle
  · intro u
    rw [setPc_pc]
    split
    · next hut => exact .inr (.inr (hut ▸ ht))
    · exact h.awake u
  · intro u hu hzu
    have hut : u ≠ t := fun heq => hz (heq ▸ hzu)
    rw [setPc_pc, if_neg hut]
    exact h.zombie u hu hzu
  · intro u code hi hu
    rw [setPc_pc] at hu
    split at hu
    · rcases hu with hu | hu <;> rw [hu] at hpc <;> exact hpc.elim
    · exact h.forgot u code hi hu
  · intro u code hi hu
    rw [setPc_pc] at hu
    split at hu
    · rw [hu] at hpc
      exact hpc.elim
    · exact h.dead u code hi hu
  · intro u p nr hu
    exact h.slot u p nr (hforking u p nr hu).2
  · intro u p nr hu
    obtain ⟨h1, h2, h3, h4, h5⟩ := h.made u p nr (hforking u p nr hu).2
    have hpt : p ≠ t := fun heq => hmade u nr (heq ▸ (hforking u p nr hu).2)
    rw [setPc_pc, if_neg hpt]
    exact ⟨h1, h2, h3, h4, h5⟩
  · intro u u' p nr nr' hu hu'
    exact h.maker u u' p nr nr' (hforking u p nr hu).2 (hforking u' p nr' hu').2
  · intro u p v hu
    rw [setPc_pc] at hu
    split at hu
    · rw [hu] at hpc
      exact hpc
    · exact h.reaping u p v hu

theorem PhaseInv.ring_congr (h : PhaseInv s ring) (hring : ∀ t, t ∈ ring' → t ∈ ring) :
    PhaseInv s ring' :=
  ⟨h.oops, h.idle, h.awake, h.zombie,
    fun t code hi ht hu u hm => h.forgot t code hi ht hu u (hring u hm),
    fun t code hi ht hu u hm => h.dead t code hi ht hu u (hring u hm), h.slot, fun t p nr ht =>
      have hm := h.made t p nr ht
      ⟨hm.1, hm.2.1, hm.2.2.1, hm.2.2.2.1, fun u hu => hm.2.2.2.2 u (hring u hu)⟩,
    h.maker, h.reaping⟩

theorem moveTo_pptr (s : State) (p q u : Tid) :
    (s.moveTo p q).pptr u = if u = p then q else s.pptr u := by
  have heq : (s.moveTo p q).pptr = update s.pptr p q := rfl
  rw [heq]
  by_cases hu : u = p
  · rw [hu, update_self, if_pos rfl]
  · rw [update_of_ne hu, if_neg hu]

theorem LinkInv.moveTo (h : LinkInv s ring kids) (hp : p ∈ ring) (hq : s.Used q)
    (hne : p ≠ initProcess) (hqp : q ≠ p) :
    ∃ ring' kids', LinkInv (s.moveTo p q) ring' kids' ∧ ∀ t, t ∈ ring' ↔ t ∈ ring := by
  obtain ⟨ring', kids', hforest, hmem⟩ := h.forest.moveTo hp hq
  have hpi : p ≠ initTask := fun heq => h.forest.initTask_notMem (heq ▸ hp)
  refine ⟨ring', kids', ⟨hforest, h.task_zero, h.task_one, ?_, h.inj, ?_, ?_, ?_, ?_⟩, hmem⟩
  · intro t
    rw [hmem]
    exact h.mem_ring t
  · intro t ht
    exact h.opptr t ((hmem t).mp ht)
  · rw [moveTo_pptr, if_neg hpi.symm]
    exact h.idle
  · rw [moveTo_pptr, if_neg hne.symm]
    exact h.init
  · intro t ht
    rw [moveTo_pptr]
    refine ⟨?_, (h.self t ((hmem t).mp ht)).2⟩
    split
    · next htp => exact htp ▸ hqp
    · exact (h.self t ((hmem t).mp ht)).1

theorem PhaseInv.moveTo (h : PhaseInv s ring)
    (hdead : q ≠ initProcess → ∀ code, s.pc q ≠ .dead code)
    (hmade : ∀ u nr, s.pc u ≠ .forking q nr) : PhaseInv (s.moveTo p q) ring := by
  refine ⟨h.oops, h.idle, h.awake, h.zombie, h.forgot, ?_, h.slot, ?_, h.maker, h.reaping⟩
  · intro t code hi ht hu u hm
    rw [moveTo_pptr]
    split
    · rintro rfl
      exact hdead hi code ht
    · exact h.dead t code hi ht hu u hm
  · intro t p' nr ht
    obtain ⟨h1, h2, h3, h4, h5⟩ := h.made t p' nr ht
    refine ⟨h1, h2, h3, h4, fun u hu => ⟨?_, (h5 u hu).2⟩⟩
    rw [moveTo_pptr]
    split
    · rintro rfl
      exact hmade t nr ht
    · exact (h5 u hu).1

theorem removeLinks_used (s : State) (p t : Tid) (i : ℕ)
    (h : ({ s with task := update s.task i none }.removeLinks p).Used t) : s.Used t := by
  obtain ⟨j, hj, ht⟩ := h
  refine ⟨j, hj, ?_⟩
  have ht' : update s.task i none j = some t := ht
  by_cases hji : j = i
  · rw [hji, update_self] at ht'
    simp at ht'
  · rwa [update_of_ne hji] at ht'

theorem LinkInv.drop (h : LinkInv s ring kids) {i : ℕ} (h1 : 1 ≤ i) (hi : i < nrTasks)
    (hp : s.task i = some p) (hne : p ≠ initProcess) (hkids : ∀ u ∈ ring, s.pptr u ≠ p)
    (hopptr : ∀ u ∈ ring, s.opptr u ≠ p) :
    ∃ ring' kids', LinkInv ({ s with task := update s.task i none }.removeLinks p) ring'
      kids' ∧ ∀ t, t ∈ ring' ↔ t ∈ ring ∧ t ≠ p := by
  have hpr : p ∈ ring := (h.mem_ring p).mpr ⟨i, h1, hi, hp⟩
  obtain ⟨l1, l2, rfl⟩ := append_of_mem hpr
  have hnodup := h.forest.nodup
  have hmem : ∀ t, t ∈ l1 ++ l2 ↔ t ∈ l1 ++ p :: l2 ∧ t ≠ p := by
    intro t
    rw [nodup_append, nodup_cons] at hnodup
    obtain ⟨-, ⟨hp2, -⟩, hdis⟩ := hnodup
    simp only [mem_append, mem_cons]
    constructor
    · rintro (ht | ht)
      · exact ⟨.inl ht, hdis t ht p (mem_cons_self ..)⟩
      · exact ⟨.inr (.inr ht), fun heq => hp2 (heq ▸ ht)⟩
    · tauto
  have htask : ∀ j, update s.task i none j = if j = i then none else s.task j := by
    intro j
    by_cases hj : j = i
    · rw [hj, update_self, if_pos rfl]
    · rw [update_of_ne hj, if_neg hj]
  have hring : ∀ t, t ∈ l1 ++ l2 ↔ ∃ j, 1 ≤ j ∧ j < nrTasks ∧ update s.task i none j = some t := by
    intro t
    rw [hmem, h.mem_ring]
    constructor
    · rintro ⟨⟨j, hj1, hj2, hj⟩, htp⟩
      refine ⟨j, hj1, hj2, ?_⟩
      have hji : j ≠ i := by
        rintro rfl
        rw [hp] at hj
        exact htp (Option.some.inj hj).symm
      rw [htask, if_neg hji]
      exact hj
    · rintro ⟨j, hj1, hj2, hj⟩
      rw [htask] at hj
      split at hj
      · simp at hj
      · next hji =>
        refine ⟨⟨j, hj1, hj2, hj⟩, ?_⟩
        rintro rfl
        exact hji (h.inj j i t hj2 hi hj hp)
  have hused : ∀ t, s.Used t → t ≠ p →
      ({ s with task := update s.task i none }.removeLinks p).Used t := by
    rintro t ⟨j, hj, ht⟩ htp
    refine ⟨j, hj, ?_⟩
    have hji : j ≠ i := by
      rintro rfl
      rw [hp] at ht
      exact htp (Option.some.inj ht).symm
    change update s.task i none j = some t
    rw [htask, if_neg hji]
    exact ht
  have hforest : Forest ({ s with task := update s.task i none }.removeLinks p) s.Used
      (l1 ++ l2) fun q => (kids q).erase p := by
    refine Forest.removeLinks ?_
    exact h.forest.congr rfl rfl (fun _ _ => rfl) rfl rfl fun _ _ => rfl
  refine ⟨l1 ++ l2, _, ⟨hforest.mono ?_ ?_, ?_, ?_, hring, ?_, ?_, h.idle, h.init,
    fun t ht => h.self t ((hmem t).mp ht).1⟩, hmem⟩
  · exact fun q => removeLinks_used s p q i
  · intro t ht
    have ht' := ((hmem t).mp ht).1
    exact hused _ (h.forest.pptr t ht') (hkids t ht')
  · change update s.task i none 0 = _
    rw [htask, if_neg (by omega)]
    exact h.task_zero
  · change update s.task i none 1 = _
    have hi1 : (1 : ℕ) ≠ i := by
      rintro rfl
      rw [h.task_one] at hp
      exact hne (Option.some.inj hp).symm
    rw [htask, if_neg hi1]
    exact h.task_one
  · intro j k t hj hk hjt hkt
    change update s.task i none j = some t at hjt
    change update s.task i none k = some t at hkt
    rw [htask] at hjt hkt
    split at hjt
    · simp at hjt
    · split at hkt
      · simp at hkt
      · exact h.inj j k t hj hk hjt hkt
  · intro t ht
    have ht' := ((hmem t).mp ht).1
    exact hused _ (h.opptr t ht') (hopptr t ht')

theorem PhaseInv.drop (h : PhaseInv s ring) {i : ℕ} (hp : s.task i = some p)
    (hpc : s.pc p = .user ∨ ∃ code, s.pc p = .dead code) (hfork : ∀ t nr, s.pc t ≠ .forking p nr) :
    PhaseInv ({ s with task := update s.task i none }.removeLinks p) ring := by
  have hless : ∀ t, ({ s with task := update s.task i none }.removeLinks p).Used t → s.Used t := by
    rintro t ⟨j, hj, ht⟩
    change update s.task i none j = some t at ht
    by_cases hji : j = i
    · rw [hji, update_self] at ht
      simp at ht
    · rw [update_of_ne hji] at ht
      exact ⟨j, hj, ht⟩
  refine ⟨h.oops, h.idle, ?_, fun t ht => h.zombie t (hless t ht),
    fun t code hi ht hu => h.forgot t code hi ht (hless t hu),
    fun t code hi ht hu => h.dead t code hi ht (hless t hu), ?_, h.made, h.maker, h.reaping⟩
  · intro t
    by_cases htp : t = p
    · rw [htp]
      exact hpc.imp_right .inl
    · rcases h.awake t with hu | hd | ⟨j, hj, ht⟩
      · exact .inl hu
      · exact .inr (.inl hd)
      · refine .inr (.inr ⟨j, hj, ?_⟩)
        have hji : j ≠ i := by
          rintro rfl
          rw [hp] at ht
          exact htp (Option.some.inj ht).symm
        change update s.task i none j = some t
        rw [update_of_ne hji]
        exact ht
  · intro t p' nr ht
    obtain ⟨h1, h2, h3⟩ := h.slot t p' nr ht
    refine ⟨h1, h2, ?_⟩
    have hni : nr ≠ i := by
      rintro rfl
      rw [hp] at h3
      exact hfork t nr (Option.some.inj h3 ▸ ht)
    change update s.task i none nr = some p'
    rw [update_of_ne hni]
    exact h3

theorem fork_used {nr : ℕ} (hlt : nr < nrTasks) (hfree : s.task nr = none) (q : Tid) :
    (s.fork t p nr).Used q ↔ s.Used q ∨ q = p := by
  have htask : (s.fork t p nr).task = update s.task nr (some p) := rfl
  unfold State.Used
  rw [htask]
  constructor
  · rintro ⟨j, hj, hq⟩
    by_cases hjn : j = nr
    · rw [hjn, update_self] at hq
      exact .inr (Option.some.inj hq).symm
    · rw [update_of_ne hjn] at hq
      exact .inl ⟨j, hj, hq⟩
  · rintro (⟨j, hj, hq⟩ | rfl)
    · refine ⟨j, hj, ?_⟩
      have hjn : j ≠ nr := by
        rintro rfl
        rw [hfree] at hq
        simp at hq
      rw [update_of_ne hjn]
      exact hq
    · exact ⟨nr, hlt, update_self ..⟩

theorem LinkInv.fork (h : LinkInv s ring kids) {nr : ℕ} (ht : s.Used t) (hp : ¬s.Used p)
    (hnr : 1 ≤ nr) (hlt : nr < nrTasks) (hfree : s.task nr = none) :
    ∃ kids', LinkInv (s.fork t p nr) (ring ++ [p]) kids' := by
  have hpr : p ∉ initTask :: ring := by
    intro hin
    exact hp ((h.used_iff p).mpr (mem_cons.mp hin))
  have hpi : p ≠ initTask := fun heq => hp (heq ▸ h.used_initTask)
  have hpp : p ≠ initProcess := fun heq => hp (heq ▸ h.used_initProcess)
  have hused := fork_used (t := t) (p := p) hlt hfree
  have hne : ∀ q, s.Used q → q ≠ p := fun q hq heq => hp (heq ▸ hq)
  -- the new task as a parent without children, not yet linked itself
  set s1 : State := { s with
    task := update s.task nr (some p)
    state := update s.state p .uninterruptible
    exitCode := update s.exitCode p (s.exitCode t)
    exitSignal := update s.exitSignal p (s.exitSignal t)
    ptraced := update s.ptraced p false
    pgrp := update s.pgrp p (s.pgrp t)
    session := update s.session p (s.session t)
    pptr := update s.pptr p t
    opptr := update s.opptr p t
    cptr := update s.cptr p none
    pc := update (update s.pc p .user) t (.forking p nr) } with hs1
  have hpptr : ∀ u ∈ ring, s1.pptr u = s.pptr u := by
    intro u hu
    have hup : u ≠ p := fun heq => hpr (heq ▸ mem_cons_of_mem _ hu)
    exact update_of_ne hup ..
  have hold : Forest s1 s.Used ring kids :=
    h.forest.congr rfl rfl (fun q hq => update_of_ne (hne q hq) ..) rfl rfl hpptr
  have hboth : Forest s1 (fun q => s.Used q ∨ q = p) ring (update kids p []) := by
    refine ⟨hold.closed, ?_, ?_, fun u hu => .inl (hold.pptr u hu), hold.idle⟩
    · intro q hq
      by_cases hqp : q = p
      · have hc : s1.cptr p = none := update_self ..
        rw [hqp, update_self, hc]
        exact chained_nil _ _
      · rw [update_of_ne hqp]
        exact hold.chained q (hq.resolve_right hqp)
    · intro q hq u
      by_cases hqp : q = p
      · rw [hqp, update_self]
        constructor
        · intro hu
          simp at hu
        · rintro ⟨hu, hpu⟩
          rw [hpptr u hu] at hpu
          exact absurd (hpu ▸ h.forest.pptr u hu) hp
      · rw [update_of_ne hqp]
        exact hold.mem_kids q (hq.resolve_right hqp) u
  have hparent : s1.pptr p = t := update_self ..
  have hnew := hboth.setLinks hpr (by rw [hparent]; exact .inl ht)
  refine ⟨_, ⟨hnew.mono (fun q hq => (hused q).mp hq) ?_, ?_, ?_, ?_, ?_, ?_, ?_, ?_, ?_⟩⟩
  · intro u hu
    exact (hused _).mpr (hnew.pptr u hu)
  · have h0 : (0 : ℕ) ≠ nr := by omega
    exact (update_of_ne h0 ..).trans h.task_zero
  · have h1 : (1 : ℕ) ≠ nr := by
      rintro rfl
      rw [h.task_one] at hfree
      simp at hfree
    exact (update_of_ne h1 ..).trans h.task_one
  · intro u
    rw [mem_append, mem_singleton, h.mem_ring]
    constructor
    · rintro (⟨j, h1, h2, hj⟩ | rfl)
      · refine ⟨j, h1, h2, ?_⟩
        have hjn : j ≠ nr := by
          rintro rfl
          rw [hfree] at hj
          simp at hj
        exact (update_of_ne hjn ..).trans hj
      · exact ⟨nr, hnr, hlt, update_self ..⟩
    · rintro ⟨j, h1, h2, hj⟩
      change update s.task nr (some p) j = some u at hj
      by_cases hjn : j = nr
      · rw [hjn, update_self] at hj
        exact .inr (Option.some.inj hj).symm
      · rw [update_of_ne hjn] at hj
        exact .inl ⟨j, h1, h2, hj⟩
  · intro j k u hj hk hju hku
    change update s.task nr (some p) j = some u at hju
    change update s.task nr (some p) k = some u at hku
    by_cases hjn : j = nr
    · by_cases hkn : k = nr
      · rw [hjn, hkn]
      · rw [hjn, update_self] at hju
        rw [update_of_ne hkn] at hku
        exact absurd ⟨k, hk, by rw [hku]; exact hju.symm⟩ hp
    · rw [update_of_ne hjn] at hju
      by_cases hkn : k = nr
      · rw [hkn, update_self] at hku
        exact absurd ⟨j, hj, by rw [hju]; exact hku.symm⟩ hp
      · rw [update_of_ne hkn] at hku
        exact h.inj j k u hj hk hju hku
  · intro u hu
    rw [hused]
    change s.Used (update s.opptr p t u) ∨ update s.opptr p t u = p
    by_cases hup : u = p
    · rw [hup, update_self]
      exact .inl ht
    · rw [update_of_ne hup]
      rcases mem_append.mp hu with hu | hu
      · exact .inl (h.opptr u hu)
      · exact absurd (mem_singleton.mp hu) hup
  · change update s.pptr p t initTask = _ ∧ update s.opptr p t initTask = _
    rw [update_of_ne hpi.symm, update_of_ne hpi.symm]
    exact h.idle
  · change update s.pptr p t initProcess = _
    rw [update_of_ne hpp.symm]
    exact h.init
  · intro u hu
    change update s.pptr p t u ≠ u ∧ (u ≠ _ → update s.opptr p t u ≠ u)
    by_cases hup : u = p
    · rw [hup, update_self, update_self]
      exact ⟨hne t ht, fun _ => hne t ht⟩
    · rw [update_of_ne hup, update_of_ne hup]
      rcases mem_append.mp hu with hu | hu
      · exact h.self u hu
      · exact absurd (mem_singleton.mp hu) hup

theorem fork_pc (s : State) (t p : Tid) (nr : ℕ) (u : Tid) : (s.fork t p nr).pc u =
    if u = t then .forking p nr else if u = p then .user else s.pc u := by
  have heq : (s.fork t p nr).pc = update (update s.pc p .user) t (.forking p nr) := rfl
  rw [heq]
  by_cases hu : u = t
  · rw [hu, update_self, if_pos rfl]
  · rw [update_of_ne hu, if_neg hu]
    by_cases hup : u = p
    · rw [hup, update_self, if_pos rfl]
    · rw [update_of_ne hup, if_neg hup]

theorem PhaseInv.fork (h : PhaseInv s ring) (hl : LinkInv s ring kids) {nr : ℕ} (ht : s.Runs t)
    (hp : ¬s.Used p) (hnr : 1 ≤ nr) (hlt : nr < nrTasks) (hfree : s.task nr = none) :
    PhaseInv (s.fork t p nr) (ring ++ [p]) := by
  obtain ⟨hut, hti, hrun, hpct⟩ := ht
  have hused := fork_used (t := t) (p := p) hlt hfree
  have htp : t ≠ p := fun heq => hp (heq ▸ hut)
  have hpi : p ≠ initTask := fun heq => hp (heq ▸ hl.used_initTask)
  have hpp : p ≠ initProcess := fun heq => hp (heq ▸ hl.used_initProcess)
  have hmem : ∀ u ∈ ring ++ [p], u ∈ ring ∧ u ≠ p ∨ u = p := by
    intro u hu
    rcases mem_append.mp hu with hu | hu
    · exact .inl ⟨hu, fun heq => hp (heq ▸ (hl.used_iff u).mpr (.inr hu))⟩
    · exact .inr (mem_singleton.mp hu)
  have hpptr : ∀ u, (s.fork t p nr).pptr u = if u = p then t else s.pptr u := by
    intro u
    have heq : (s.fork t p nr).pptr = update s.pptr p t := rfl
    rw [heq, update_apply]
  have hopptr : ∀ u, (s.fork t p nr).opptr u = if u = p then t else s.opptr u := by
    intro u
    have heq : (s.fork t p nr).opptr = update s.opptr p t := rfl
    rw [heq, update_apply]
  have hstate : ∀ u, (s.fork t p nr).state u = if u = p then .uninterruptible else s.state u := by
    intro u
    have heq : (s.fork t p nr).state = update s.state p .uninterruptible := rfl
    rw [heq, update_apply]
  -- a task that was being made before is another one
  have hmade : ∀ u p' nr', s.pc u = .forking p' nr' → p' ≠ p ∧ p' ≠ t := by
    intro u p' nr' hu
    have hslot := h.slot u p' nr' hu
    refine ⟨fun heq => hp ⟨nr', hslot.2.1, heq ▸ hslot.2.2⟩, fun heq => ?_⟩
    have := (h.made u p' nr' hu).2.2.1
    rw [heq, hrun] at this
    exact absurd this (by decide)
  refine ⟨h.oops, ?_, ?_, ?_, ?_, ?_, ?_, ?_, ?_, ?_⟩
  · rw [fork_pc, if_neg hti.symm, if_neg hpi.symm]
    exact h.idle
  · intro u
    rw [fork_pc, hused]
    split
    · next hu => exact .inr (.inr (.inl (hu ▸ hut)))
    · split
      · exact .inl rfl
      · rcases h.awake u with hu | hd | hu
        · exact .inl hu
        · exact .inr (.inl hd)
        · exact .inr (.inr (.inl hu))
  · intro u hu hz
    rw [hstate] at hz
    split at hz
    · exact absurd hz (by decide)
    · next hup =>
      have hutn : u ≠ t := by
        rintro rfl
        rw [hrun] at hz
        exact absurd hz (by decide)
      rw [fork_pc, if_neg hutn, if_neg hup]
      exact h.zombie u (((hused u).mp hu).resolve_right hup) hz
  · intro u code hi hu huu v hv
    rw [fork_pc] at hu
    split at hu
    · simp at hu
    · next hutn =>
      split at hu
      · simp at hu
      · next hup =>
        rw [hopptr]
        rcases hmem v hv with ⟨hv, hvp⟩ | rfl
        · rw [if_neg hvp]
          exact h.forgot u code hi hu (((hused u).mp huu).resolve_right hup) v hv
        · rw [if_pos rfl]
          exact Ne.symm hutn
  · intro u code hi hu huu v hv
    rw [fork_pc] at hu
    split at hu
    · simp at hu
    · next hutn =>
      split at hu
      · simp at hu
      · next hup =>
        rw [hpptr]
        rcases hmem v hv with ⟨hv, hvp⟩ | rfl
        · rw [if_neg hvp]
          exact h.dead u code hi hu (((hused u).mp huu).resolve_right hup) v hv
        · rw [if_pos rfl]
          exact Ne.symm hutn
  · intro u p' nr' hu
    have htask : (s.fork t p nr).task = update s.task nr (some p) := rfl
    rw [fork_pc] at hu
    split at hu
    · obtain ⟨rfl, rfl⟩ : p = p' ∧ nr = nr' := by simpa using hu
      exact ⟨hnr, hlt, update_self ..⟩
    · split at hu
      · simp at hu
      · obtain ⟨h1, h2, h3⟩ := h.slot u p' nr' hu
        have hne : nr' ≠ nr := by
          rintro rfl
          rw [hfree] at h3
          simp at h3
        exact ⟨h1, h2, (update_of_ne hne ..).trans h3⟩
  · intro u p' nr' hu
    rw [fork_pc] at hu
    split at hu
    · obtain ⟨rfl, rfl⟩ : p = p' ∧ nr = nr' := by simpa using hu
      refine ⟨hpi, hpp, by rw [hstate, if_pos rfl], by rw [fork_pc, if_neg htp.symm, if_pos rfl],
          ?_⟩
      intro v hv
      rw [hpptr, hopptr]
      rcases hmem v hv with ⟨hv, hvp⟩ | rfl
      · rw [if_neg hvp, if_neg hvp]
        exact ⟨fun heq => hp (heq ▸ hl.forest.pptr v hv), fun heq => hp (heq ▸ hl.opptr v hv)⟩
      · rw [if_pos rfl, if_pos rfl]
        exact ⟨htp, htp⟩
    · split at hu
      · simp at hu
      · obtain ⟨h1, h2, h3, h4, h5⟩ := h.made u p' nr' hu
        obtain ⟨hp'p, hp't⟩ := hmade u p' nr' hu
        refine ⟨h1, h2, by rw [hstate, if_neg hp'p]; exact h3,
          by rw [fork_pc, if_neg hp't, if_neg hp'p]; exact h4, ?_⟩
        intro v hv
        rw [hpptr, hopptr]
        rcases hmem v hv with ⟨hv, hvp⟩ | rfl
        · rw [if_neg hvp, if_neg hvp]
          exact h5 v hv
        · rw [if_pos rfl, if_pos rfl]
          exact ⟨hp't.symm, hp't.symm⟩
  · have hold : ∀ u p' nr', (s.fork t p nr).pc u = .forking p' nr' →
        u = t ∧ p' = p ∨ s.pc u = .forking p' nr' := by
      intro u p' nr' hu
      rw [fork_pc] at hu
      split at hu
      · next hut' =>
        obtain ⟨rfl, rfl⟩ : p = p' ∧ nr = nr' := by simpa using hu
        exact .inl ⟨hut', rfl⟩
      · split at hu
        · simp at hu
        · exact .inr hu
    intro u u' p' nr1 nr2 hu hu'
    rcases hold u p' nr1 hu with ⟨hut1, hp1⟩ | hold1
    · rcases hold u' p' nr2 hu' with ⟨hut2, -⟩ | hold2
      · rw [hut1, hut2]
      · exact absurd hp1 (hmade u' p' nr2 hold2).1
    · rcases hold u' p' nr2 hu' with ⟨-, hp2⟩ | hold2
      · exact absurd hp2 (hmade u p' nr1 hold1).1
      · exact h.maker u u' p' nr1 nr2 hold1 hold2
  · intro u p' v hu
    rw [fork_pc] at hu
    split at hu
    · simp at hu
    · split at hu
      · simp at hu
      · exact h.reaping u p' v hu

end

end LinuxKernel.Process
