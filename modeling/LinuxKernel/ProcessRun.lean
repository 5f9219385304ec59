import LinuxKernel.ProcessLinks

/-!
# The process links in every run

One lemma for each call, and from them the invariant of the steps.  Two things can go wrong:
`do_exit` may have no younger sibling to link to, and `sys_wait4` may come back from copying out
the status to a child that is not there any more.
-/

namespace LinuxKernel.Process
open Function List

open DoublyLinked

def Inv (s : State) : Prop := ∃ ring kids, LinkInv s ring kids ∧ PhaseInv s ring

section

variable {s s' : State} {ring : List Tid} {kids : Tid → List Tid} {p q t : Tid}

theorem Inv.quiet (h : Inv s) (hq : Quiet s s') : Inv s' := by
  obtain ⟨ring, kids, hl, hp⟩ := h
  exact ⟨ring, kids, hl.quiet hq, hp.quiet hq⟩

theorem LinkInv.heir_eq (h : LinkInv s ring kids) (t : Tid) :
    s.heir t = if initProcess ≠ t then initProcess else initTask := by
  unfold State.heir
  rw [h.task_one]

theorem LinkInv.heir_used (h : LinkInv s ring kids) (t : Tid) : s.Used (s.heir t) := by
  rw [h.heir_eq]
  split
  · exact h.used_initProcess
  · exact h.used_initTask

theorem LinkInv.heir_ne (h : LinkInv s ring kids) (ht : t ≠ initTask) : s.heir t ≠ t := by
  rw [h.heir_eq]
  split
  · next hne => exact hne
  · exact ht.symm

def State.markDead (s : State) (t : Tid) (code : ℕ) : State :=
  { s with
    state := update s.state t .zombie
    exitCode := update s.exitCode t code
    pc := update s.pc t (.dead code) }

def State.announce (s : State) (t : Tid) : State :=
  (if s.pgrp (s.pptr t) ≠ s.pgrp t ∧ s.session (s.pptr t) = s.session t then
    s.wakeOrphans (s.pgrp t) else s).notifyParent t

theorem announce_quiet (s : State) (t : Tid) : Quiet s (s.announce t) := by
  refine Quiet.trans ?_ (notifyParent_quiet _ t)
  split
  · exact wakeOrphans_quiet s _
  · exact Quiet.refl s

def State.hangUp (s : State) (ctty : Option ℕ) : State :=
  match ctty with
  | some pgrp => if s.oops then s else (s.killPg pgrp sighup).killPg pgrp sigcont
  | none => s

theorem hangUp_quiet (s : State) (ctty : Option ℕ) : Quiet s (s.hangUp ctty) := by
  unfold State.hangUp
  split
  · split
    · exact Quiet.refl s
    · exact (killPg_quiet s _ sighup).trans (killPg_quiet _ _ sigcont)
  · exact Quiet.refl s

theorem exit_eq (s : State) (t : Tid) (code : ℕ) (ctty : Option ℕ) : s.exit t code ctty =
    (State.adoptAll t nrTasks ((s.markDead t code).announce t)).hangUp ctty := rfl

theorem exit_spec (h : LinkInv s ring kids) (ht : s.Used t) (hne : t ≠ initTask)
    (hoops : s.oops = false) (hchild : s.cptr t ≠ none → s.cptr (s.heir t) ≠ none) (code : ℕ)
    (ctty : Option ℕ) :
    ∃ kids', LinkInv (s.exit t code ctty) ring kids' ∧
      Beside (s.markDead t code) (s.exit t code ctty) ∧
      ∀ x, (s.exit t code ctty).pptr x =
        if x ∈ ring ∧ s.pptr x = t then s.heir t else s.pptr x := by
  have hquiet := announce_quiet (s.markDead t code) t
  set s1 := (s.markDead t code).announce t with hs1
  have hmark : LinkInv (s.markDead t code) ring kids := h.congr rfl rfl rfl rfl rfl rfl rfl rfl
  have h₁ : LinkInv s1 ring kids := hmark.quiet hquiet
  have hheir : s1.heir t = s.heir t := by rw [h₁.heir_eq, h.heir_eq]
  have hpptr1 : s1.pptr = s.pptr := hquiet.pptr
  have hused : s1.Used t := (used_congr hquiet.task t).mpr ht
  obtain ⟨kids', hforest, hempty, hbeside, hpptr⟩ := h₁.forest.adoptAll hused (h₁.heir_used t)
    (h₁.heir_ne hne) (by rw [hheir, hquiet.cptr]; exact hchild) (h₁.kids_length hused)
    (hquiet.oops.trans hoops)
  have hbeside' : Beside (s.markDead t code) (s.exit t code ctty) := by
    exact (hquiet.beside.trans hbeside).trans (hangUp_quiet _ ctty).beside
  have hpptr' : ∀ x, (s.exit t code ctty).pptr x =
      if x ∈ ring ∧ s.pptr x = t then s.heir t else s.pptr x := by
    intro x
    rw [exit_eq, (hangUp_quiet _ ctty).pptr, hpptr, hheir, hpptr1]
  refine ⟨kids', ⟨?_, ?_, ?_, ?_, ?_, ?_, ?_, ?_, ?_⟩, hbeside', hpptr'⟩
  · have hlast := hforest.quiet (hangUp_quiet _ ctty)
    have hsame : ∀ q, (s.exit t code ctty).Used q ↔ (s.markDead t code).Used q :=
      used_congr hbeside'.task
    refine hlast.mono (fun q hq => ?_) fun x hx => ?_
    · exact (used_congr hquiet.task q).mpr ((hsame q).mp hq)
    · exact (hsame _).mpr ((used_congr hquiet.task _).mp (hlast.pptr x hx))
  · rw [hbeside'.task]
    exact h.task_zero
  · rw [hbeside'.task]
    exact h.task_one
  · rw [hbeside'.task]
    exact h.mem_ring
  · rw [hbeside'.task]
    exact h.inj
  · intro x hx
    rw [hbeside'.opptr]
    exact (used_congr hbeside'.task _).mpr (h.opptr x hx)
  · rw [hpptr', if_neg fun hx => h.forest.initTask_notMem hx.1, hbeside'.opptr]
    exact h.idle
  · rw [hpptr', if_neg]
    · exact h.init
    · rintro ⟨-, heq⟩
      exact hne (heq.symm.trans h.init)
  · intro x hx
    rw [hpptr', hbeside'.opptr]
    refine ⟨?_, (h.self x hx).2⟩
    split
    · next hxt =>
      rw [h.heir_eq]
      split
      · rintro rfl
        exact hne (hxt.2.symm.trans h.init)
      · rintro rfl
        exact h.forest.initTask_notMem hx
    · exact (h.self x hx).1

theorem markDead_pc (s : State) (t : Tid) (code : ℕ) (u : Tid) :
    (s.markDead t code).pc u = if u = t then .dead code else s.pc u :=
  update_apply ..

theorem markDead_state (s : State) (t : Tid) (code : ℕ) (u : Tid) :
    (s.markDead t code).state u = if u = t then .zombie else s.state u :=
  update_apply ..

theorem Inv.exit (h : Inv s) {code : ℕ} (hpc : s.pc t = .exiting true code)
    (hchild : s.cptr t ≠ none → s.cptr (s.heir t) ≠ none) (ctty : Option ℕ) :
    Inv (s.exit t code ctty) := by
  obtain ⟨ring, kids, hl, hp⟩ := h
  have hne : t ≠ initTask := by
    rintro rfl
    rw [hp.idle] at hpc
    simp at hpc
  have ht : s.Used t := by
    rcases hp.awake t with hu | ⟨c, hd⟩ | hu
    · rw [hpc] at hu
      simp at hu
    · rw [hpc] at hd
      simp at hd
    · exact hu
  obtain ⟨kids', hl', hbeside, hpptr⟩ := exit_spec hl ht hne hp.oops hchild code ctty
  have hpcs : ∀ u, (s.exit t code ctty).pc u = if u = t then .dead code else s.pc u := by
    intro u
    rw [hbeside.pc]
    exact markDead_pc s t code u
  have hused : ∀ u, (s.exit t code ctty).Used u ↔ s.Used u := used_congr hbeside.task
  have hopptr : (s.exit t code ctty).opptr = s.opptr := hbeside.opptr
  have hstate : ∀ u, u ≠ t → (s.exit t code ctty).state u = s.state u ∨
      s.state u = .stopped ∧ (s.exit t code ctty).state u = .running := by
    intro u hu
    have := hbeside.state u
    rwa [markDead_state, if_neg hu] at this
  have hforking : ∀ u p nr, (s.exit t code ctty).pc u = .forking p nr → s.pc u = .forking p nr := by
    intro u p nr hu
    rw [hpcs] at hu
    split at hu
    · simp at hu
    · exact hu
  refine ⟨ring, kids', hl', ⟨hbeside.oops.trans hp.oops, ?_, ?_, ?_, ?_, ?_, ?_, ?_, ?_, ?_⟩⟩
  · rw [hpcs, if_neg hne.symm]
    exact hp.idle
  · intro u
    rw [hpcs, hused]
    split
    · exact .inr (.inl ⟨code, rfl⟩)
    · exact hp.awake u
  · intro u hu hz
    rw [hpcs]
    split
    · exact ⟨code, rfl⟩
    · next hut =>
      refine hp.zombie u ((hused u).mp hu) ?_
      rcases hstate u hut with heq | ⟨-, hr⟩
      · exact heq.symm.trans hz
      · rw [hz] at hr
        exact absurd hr (by decide)
  · intro u c hi hu huu v hv
    rw [hopptr]
    rw [hpcs] at hu
    split at hu
    · next hut => exact hut ▸ hp.forgot t code (hut ▸ hi) (.inl hpc) ht v hv
    · exact hp.forgot u c hi hu ((hused u).mp huu) v hv
  · intro u c hi hu huu v hv
    rw [hpptr]
    rw [hpcs] at hu
    split at hu
    · next hut =>
      rw [hut]
      split
      · exact hl.heir_ne hne
      · next hvt => exact fun heq => hvt ⟨hv, heq⟩
    · split
      · -- the heir is the process 1, or it is the idle task, which is not dead
        rw [hl.heir_eq]
        split
        · exact hi.symm
        · rintro rfl
          rw [hp.idle] at hu
          simp at hu
      · exact hp.dead u c hi hu ((hused u).mp huu) v hv
  · intro u p nr hu
    rw [hbeside.task]
    exact hp.slot u p nr (hforking u p nr hu)
  · intro u p nr hu
    obtain ⟨h1, h2, h3, h4, h5⟩ := hp.made u p nr (hforking u p nr hu)
    have hpt : p ≠ t := by
      rintro rfl
      rw [hpc] at h4
      simp at h4
    refine ⟨h1, h2, ?_, ?_, ?_⟩
    · rcases hstate p hpt with heq | ⟨hs, -⟩
      · exact heq.trans h3
      · rw [h3] at hs
        exact absurd hs (by decide)
    · rw [hpcs, if_neg hpt]
      exact h4
    · intro v hv
      rw [hopptr, hpptr]
      refine ⟨?_, (h5 v hv).2⟩
      split
      · rw [hl.heir_eq]
        split
        · exact h2.symm
        · exact h1.symm
      · exact (h5 v hv).1
  · intro u u' p nr nr' hu hu'
    exact hp.maker u u' p nr nr' (hforking u p nr hu) (hforking u' p nr' hu')
  · intro u p v hu
    rw [hpcs] at hu
    split at hu
    · simp at hu
    · exact hp.reaping u p v hu

theorem LinkInv.tasks_eq (h : LinkInv s ring kids) : s.tasks = ring := by
  have hgo : ∀ (l : List Tid) (n : ℕ) (x : Tid), initTask ∉ l → l.length < n →
      (x :: l ++ [initTask]).IsChain (fun a b => s.nextTask a = b ∧ s.prevTask b = a) →
      State.tasks.go s n (s.nextTask x) = l := by
    intro l
    induction l with
    | nil =>
      intro n x _ hn hchain
      have hx : s.nextTask x = initTask := by simpa using (isChain_pair.mp hchain).1
      obtain ⟨m, rfl⟩ : ∃ m, n = m + 1 := ⟨n - 1, by simp at hn; omega⟩
      rw [hx, State.tasks.go, if_pos rfl]
    | cons y l ih =>
      intro n x hl hn hchain
      obtain ⟨⟨hx, -⟩, hrest⟩ := isChain_cons_cons.mp hchain
      obtain ⟨m, rfl⟩ : ∃ m, n = m + 1 := ⟨n - 1, by simp at hn; omega⟩
      have hy : y ≠ initTask := fun heq => hl (heq ▸ mem_cons_self ..)
      rw [hx, State.tasks.go, if_neg hy, ih m y (fun hin => hl (mem_cons_of_mem _ hin))
        (by simpa using hn) hrest]
  exact hgo ring nrTasks initTask h.forest.initTask_notMem h.length_lt h.forest.closed.adj

theorem Inv.forget (h : Inv s) {code : ℕ} (hpc : s.pc t = .exiting false code) :
    Inv ((s.forgetOriginalParent t).setPc t (.exiting true code)) := by
  obtain ⟨ring, kids, hl, hp⟩ := h
  have hne : t ≠ initTask := by
    rintro rfl
    rw [hp.idle] at hpc
    simp at hpc
  have hopptr : ∀ u, (s.forgetOriginalParent t).opptr u =
      if u ∈ ring ∧ s.opptr u = t then initProcess else s.opptr u := by
    intro u
    unfold State.forgetOriginalParent
    rw [hl.task_one, hl.tasks_eq]
  have hpcs := fun u => setPc_pc (s.forgetOriginalParent t) t u (.exiting true code)
  have hforking : ∀ u p nr, ((s.forgetOriginalParent t).setPc t (.exiting true code)).pc u =
      .forking p nr → s.pc u = .forking p nr := by
    intro u p nr hu
    rw [hpcs] at hu
    split at hu
    · simp at hu
    · exact hu
  refine ⟨ring, kids, ⟨?_, hl.task_zero, hl.task_one, hl.mem_ring, hl.inj, ?_, ?_, hl.init, ?_⟩,
    ⟨hp.oops, ?_, ?_, ?_, ?_, ?_, ?_, ?_, ?_, ?_⟩⟩
  · exact hl.forest.congr rfl rfl (fun _ _ => rfl) rfl rfl fun _ _ => rfl
  · intro u hu
    change s.Used ((s.forgetOriginalParent t).opptr u)
    rw [hopptr]
    split
    · exact hl.used_initProcess
    · exact hl.opptr u hu
  · refine ⟨hl.idle.1, ?_⟩
    change (s.forgetOriginalParent t).opptr initTask = initTask
    rw [hopptr, if_neg fun hx => hl.forest.initTask_notMem hx.1]
    exact hl.idle.2
  · intro u hu
    change s.pptr u ≠ u ∧ (u ≠ initProcess → (s.forgetOriginalParent t).opptr u ≠ u)
    rw [hopptr]
    refine ⟨(hl.self u hu).1, fun hup => ?_⟩
    split
    · exact hup.symm
    · exact (hl.self u hu).2 hup
  · rw [hpcs, if_neg hne.symm]
    exact hp.idle
  · intro u
    rw [hpcs]
    split
    · next hut =>
      refine .inr (.inr ?_)
      rcases hp.awake t with hu | ⟨c, hd⟩ | hu
      · rw [hpc] at hu
        simp at hu
      · rw [hpc] at hd
        simp at hd
      · exact hut ▸ hu
    · exact hp.awake u
  · intro u hu hz
    obtain ⟨c, hc⟩ := hp.zombie u hu hz
    have hut : u ≠ t := by
      rintro rfl
      rw [hpc] at hc
      simp at hc
    rw [hpcs, if_neg hut]
    exact ⟨c, hc⟩
  · intro u c hi hu huu v hv
    change (s.forgetOriginalParent t).opptr v ≠ u
    rw [hopptr]
    rw [hpcs] at hu
    split at hu
    · next hut =>
      subst hut
      split
      · exact hi.symm
      · next hvt => exact fun heq => hvt ⟨hv, heq⟩
    · split
      · exact hi.symm
      · exact hp.forgot u c hi hu huu v hv
  · intro u c hi hu
    rw [hpcs] at hu
    split at hu
    · simp at hu
    · exact hp.dead u c hi hu
  · intro u p nr hu
    exact hp.slot u p nr (hforking u p nr hu)
  · intro u p nr hu
    obtain ⟨h1, h2, h3, h4, h5⟩ := hp.made u p nr (hforking u p nr hu)
    have hpt : p ≠ t := by
      rintro rfl
      rw [hpc] at h4
      simp at h4
    refine ⟨h1, h2, h3, by rw [hpcs, if_neg hpt]; exact h4, fun v hv => ⟨(h5 v hv).1, ?_⟩⟩
    change (s.forgetOriginalParent t).opptr v ≠ p
    rw [hopptr]
    split
    · exact h2.symm
    · exact (h5 v hv).2
  · intro u u' p nr nr' hu hu'
    exact hp.maker u u' p nr nr' (hforking u p nr hu) (hforking u' p nr' hu')
  · intro u p v hu
    rw [hpcs] at hu
    split at hu
    · simp at hu
    · exact hp.reaping u p v hu

section
variable (h : Inv s) (hp : s.Used p) (hpi : p ≠ initTask) (hpp : p ≠ initProcess)
include h hp hpi hpp

theorem Inv.moveTo (hq : s.Used q) (hqp : q ≠ p)
    (hdead : q ≠ initProcess → ∀ code, s.pc q ≠ .dead code) (hmade : ∀ u nr, s.pc u ≠ .forking q nr)
    : Inv (s.moveTo p q) := by
  obtain ⟨ring, kids, hl, hph⟩ := h
  obtain ⟨ring', kids', hl', hmem⟩ := hl.moveTo (hl.mem_ring_of_used hp hpi) hq hpp hqp
  refine ⟨ring', kids', hl', ?_⟩
  exact (hph.moveTo hdead hmade).ring_congr fun t ht => (hmem t).mp ht

theorem Inv.moveBack : Inv (s.moveTo p (s.opptr p)) := by
  obtain ⟨ring, kids, hl, hph⟩ := h
  have hpr := hl.mem_ring_of_used hp hpi
  have hq := hl.opptr p hpr
  refine Inv.moveTo ⟨ring, kids, hl, hph⟩ hp hpi hpp hq ((hl.self p hpr).2 hpp) ?_ ?_
  · intro hne code hc
    exact hph.forgot _ code hne (.inr hc) hq p hpr rfl
  · intro u nr hu
    exact ((hph.made u _ nr hu).2.2.2.2 p hpr).2 rfl

omit h hp hpi hpp in
theorem LinkInv.slotOf_eq (h : LinkInv s ring kids) {i : ℕ} (h1 : 1 ≤ i) (hi : i < nrTasks)
    (hp : s.task i = some p) : s.slotOf p = some i := by
  unfold State.slotOf
  rw [List.find?_eq_some_iff_append]
  refine ⟨by simp [h1, hp], List.range i, List.range' (i + 1) (nrTasks - (i + 1)), ?_, ?_⟩
  · have hsplit : nrTasks = i + (1 + (nrTasks - (i + 1))) := by omega
    conv_lhs => rw [hsplit]
    rw [range_eq_range', range_eq_range', ← List.range'_append_1, Nat.zero_add,
      Nat.add_comm 1, List.range'_succ]
  · intro j hj
    have hji := mem_range.mp hj
    have hne : s.task j ≠ some p := fun hjp => by
      have := h.inj j i p (by omega) hi hjp hp
      omega
    simp [hne]

theorem Inv.reap (hz : s.state p = .zombie) : Inv (s.reap p) := by
  unfold State.reap
  split
  · exact (h.moveBack hp hpi hpp).quiet (notifyParent_quiet _ p)
  · obtain ⟨ring, kids, hl, hph⟩ := h
    obtain ⟨code, hdead⟩ := hph.zombie p hp hz
    obtain ⟨i, h1, hi, hpi'⟩ := (hl.mem_ring p).mp (hl.mem_ring_of_used hp hpi)
    have hslot := hl.slotOf_eq h1 hi hpi'
    unfold State.release
    rw [hslot]
    obtain ⟨ring', kids', hl', hmem⟩ := hl.drop h1 hi hpi' hpp (hph.dead p code hpp hdead hp)
      (hph.forgot p code hpp (.inr hdead) hp)
    refine ⟨ring', kids', hl', ?_⟩
    refine (hph.drop hpi' (.inr ⟨code, hdead⟩) ?_).ring_congr fun t ht => ((hmem t).mp ht).1
    intro t nr ht
    have := (hph.made t p nr ht).2.2.2.1
    rw [hdead] at this
    simp at this

end

theorem LinkInv.children_eq (h : LinkInv s ring kids) (ht : s.Used t) : s.children t = kids t := by
  have hgo : ∀ (l : List Tid) (n : ℕ), l.length ≤ n → l.IsChain (Adj s.osptr s.ysptr) →
      (∀ x ∈ l.getLast?, s.osptr x = none) → State.children.go s n l.head? = l := by
    intro l
    induction l with
    | nil =>
      intro n _ _ _
      cases n <;> rfl
    | cons x l ih =>
      intro n hn hchain hlast
      obtain ⟨m, rfl⟩ : ∃ m, n = m + 1 := ⟨n - 1, by simp at hn; omega⟩
      have hnext : s.osptr x = l.head? := by
        cases hl : l.head? with
        | none =>
          rw [List.head?_eq_none_iff] at hl
          exact hlast x (by simp [hl])
        | some y => exact ((isChain_cons.mp hchain).1 y hl).1
      rw [List.head?_cons, State.children.go, hnext, ih m (by simpa using hn)
        (isChain_cons.mp hchain).2]
      intro y hy
      exact hlast y (by rw [List.getLast?_cons]; simp [Option.mem_def.mp hy])
  have hchain := h.forest.chained t ht
  unfold State.children
  rw [← hchain.head]
  exact hgo (kids t) nrTasks (h.kids_length ht) hchain.adj hchain.last

structure Awake (s : State) (t : Tid) : Prop where
  used : s.Used t
  ne : t ≠ initTask
  alive : s.state t ≠ .zombie
  made : ∀ u nr, s.pc u ≠ .forking t nr

theorem PhaseInv.awake_of_pc (h : PhaseInv s ring) (huser : s.pc t ≠ .user)
    (hdead : ∀ code, s.pc t ≠ .dead code) : Awake s t := by
  have hused : s.Used t := by
    rcases h.awake t with hu | ⟨c, hd⟩ | hu
    · exact absurd hu huser
    · exact absurd hd (hdead c)
    · exact hu
  refine ⟨hused, ?_, ?_, ?_⟩
  · rintro rfl
    exact huser h.idle
  · intro hz
    obtain ⟨c, hc⟩ := h.zombie t hused hz
    exact hdead c hc
  · intro u nr hu
    exact huser (h.made u t nr hu).2.2.2.1

theorem PhaseInv.awake_of_runs (h : PhaseInv s ring) (ht : s.Runs t) : Awake s t := by
  obtain ⟨hused, hne, hrun, -⟩ := ht
  refine ⟨hused, hne, by rw [hrun]; decide, ?_⟩
  intro u nr hu
  have := (h.made u t nr hu).2.2.1
  rw [hrun] at this
  exact absurd this (by decide)

theorem Awake.setPc (h : Awake s t) (hi : Inv s) {pc : Pc} (hpc : pc.Plain) :
    Inv (s.setPc t pc) := by
  obtain ⟨ring, kids, hl, hp⟩ := hi
  exact ⟨ring, kids, hl.setPc t pc, hp.setPc h.used h.ne h.alive h.made hpc⟩

theorem Inv.states (h : Inv s) (htask : s'.task = s.task) (hnext : s'.nextTask = s.nextTask)
    (hprev : s'.prevTask = s.prevTask) (hopptr : s'.opptr = s.opptr) (hpptr : s'.pptr = s.pptr)
    (hc : s'.cptr = s.cptr) (hy : s'.ysptr = s.ysptr) (ho : s'.osptr = s.osptr)
    (hpc : s'.pc = s.pc) (hoops : s'.oops = s.oops)
    (hzombie : ∀ t, s'.state t = .zombie → s.state t = .zombie)
    (hmade : ∀ t p nr, s.pc t = .forking p nr → s'.state p = s.state p) : Inv s' := by
  obtain ⟨ring, kids, hl, hp⟩ := h
  exact ⟨ring, kids, hl.congr htask hnext hprev hopptr hpptr hc hy ho,
    hp.states htask hopptr hpptr hpc hoops hzombie hmade⟩

theorem Inv.setState (h : Inv s) {st : TState} (hst : st ≠ .zombie) {code : Tid → ℕ}
    {traced : Tid → Bool} (hmade : ∀ u nr, s.pc u ≠ .forking p nr) :
    Inv { s with state := update s.state p st, exitCode := code, ptraced := traced } := by
  refine h.states rfl rfl rfl rfl rfl rfl rfl rfl rfl rfl ?_ ?_
  · intro t ht
    dsimp only at ht
    by_cases htp : t = p
    · rw [htp, update_self] at ht
      exact absurd ht hst
    · rwa [update_of_ne htp] at ht
  · intro t p' nr ht
    have hne : p' ≠ p := fun heq => hmade t nr (heq ▸ ht)
    exact update_of_ne hne ..

theorem PhaseInv.not_made (h : PhaseInv s ring) {st : TState} (hst : st ≠ .uninterruptible)
    (hp : s.state p = st) : ∀ u nr, s.pc u ≠ .forking p nr := by
  intro u nr hu
  have := (h.made u p nr hu).2.2.1
  rw [hp] at this
  exact hst this

theorem Inv.forkEnd (h : Inv s) {nr : ℕ} (hpc : s.pc t = .forking p nr) (sig : ℕ) :
    Inv { s with
      exitSignal := update s.exitSignal p sig
      state := update s.state p .running
      pc := update s.pc t .user } := by
  obtain ⟨ring, kids, hl, hp⟩ := h
  have hawake : Awake s t := hp.awake_of_pc (by rw [hpc]; simp) (by rw [hpc]; simp)
  have hback : Inv (s.setPc t .user) := hawake.setPc ⟨ring, kids, hl, hp⟩ trivial
  refine hback.states rfl rfl rfl rfl rfl rfl rfl rfl rfl rfl ?_ ?_
  · intro u hu
    dsimp only at hu
    by_cases hup : u = p
    · rw [hup, update_self] at hu
      exact absurd hu (by decide)
    · rwa [update_of_ne hup] at hu
  · intro u p' nr' hu
    rw [setPc_pc] at hu
    split at hu
    · simp at hu
    · next hut =>
      have hne : p' ≠ p := fun heq => hut (hp.maker u t p nr' nr (heq ▸ hu) hpc)
      exact update_of_ne hne ..

theorem Inv.forkFail (h : Inv s) {nr : ℕ} (hpc : s.pc t = .forking p nr) :
    Inv (({ s with task := update s.task nr none }.removeLinks p).setPc t .user) := by
  obtain ⟨ring, kids, hl, hp⟩ := h
  have hawake : Awake s t := hp.awake_of_pc (by rw [hpc]; simp) (by rw [hpc]; simp)
  obtain ⟨h1, h2, h3⟩ := hp.slot t p nr hpc
  obtain ⟨-, hpp, -, huser, hnone⟩ := hp.made t p nr hpc
  have hl1 := hl.setPc t .user
  have hp1 : PhaseInv (s.setPc t .user) ring :=
    hp.setPc hawake.used hawake.ne hawake.alive hawake.made trivial
  obtain ⟨ring', kids', hl', hmem⟩ := hl1.drop h1 h2 h3 hpp (fun u hu => (hnone u hu).1)
    (fun u hu => (hnone u hu).2)
  refine ⟨ring', kids', hl', ?_⟩
  refine (hp1.drop h3 ?_ ?_).ring_congr fun u hu => ((hmem u).mp hu).1
  · rw [setPc_pc]
    split
    · exact .inl rfl
    · exact .inl huser
  · intro u nr' hu
    rw [setPc_pc] at hu
    split at hu
    · simp at hu
    · next hut => exact hut (hp.maker u t p nr' nr hu hpc)

theorem sendSig_setPc (s : State) (t : Tid) (pc : Pc) (sig : ℕ) (p : Tid) :
    (s.setPc t pc).sendSig sig p = (s.sendSig sig p).setPc t pc := by
  unfold State.sendSig
  split <;> rfl

theorem notifyParent_setPc (s : State) (t : Tid) (pc : Pc) (p : Tid) :
    (s.setPc t pc).notifyParent p = (s.notifyParent p).setPc t pc := by
  unfold State.notifyParent
  by_cases h : s.task 1 = some (s.pptr p)
  · have h' : (s.setPc t pc).task 1 = some ((s.setPc t pc).pptr p) := h
    rw [if_pos h, if_pos h']
    exact sendSig_setPc { s with exitSignal := update s.exitSignal p sigchld } t pc _ _
  · have h' : ¬(s.setPc t pc).task 1 = some ((s.setPc t pc).pptr p) := h
    rw [if_neg h, if_neg h']
    exact sendSig_setPc s t pc _ _

theorem reap_setPc (s : State) (t : Tid) (pc : Pc) (p : Tid) :
    (s.setPc t pc).reap p = (s.reap p).setPc t pc := by
  unfold State.reap
  change (if s.opptr p ≠ s.pptr p then _ else _) = _
  split
  · rw [← notifyParent_setPc]
    rfl
  · have hslot : (s.setPc t pc).slotOf p = s.slotOf p := rfl
    unfold State.release
    rw [hslot]
    split <;> rfl

/-- The condition on the steps: the heir of a task that exits with children has a child already;
a zombie is still there, and still a zombie, when `sys_wait4` has copied out its status; and no
task is let loose with PTRACE_KILL while it is being made. -/
def Event.Ok (s : State) : Event → Prop
  | .die t _ => ∀ code, s.pc t = .exiting true code → s.cptr t ≠ none → s.cptr (s.heir t) ≠ none
  | .waitEnd t => ∀ p v, s.pc t = .reaping p v → s.Used p ∧ s.state p = .zombie
  | .ptraceKill t p => s.Traces t p → ∀ u nr, s.pc u ≠ .forking p nr
  | _ => True

theorem step_inv (h : Inv s) {e : Event} (hok : e.Ok s) : Inv (step s e) := by
  obtain ⟨ring, kids, hl, hp⟩ := id h
  cases e with
  | fork t p nr =>
    simp only [step]
    split
    · next hg =>
      obtain ⟨hrun, hfree, -, hnr, hlt, hslot⟩ := hg
      obtain ⟨kids', hl'⟩ := hl.fork hrun.1 hfree hnr hlt hslot
      exact ⟨_, kids', hl', hp.fork hl hrun hfree hnr hlt hslot⟩
    · exact h
  | forkEnd t sig =>
    simp only [step]
    split
    · next p nr hpc => exact h.forkEnd hpc sig
    · exact h
  | forkFail t =>
    simp only [step]
    split
    · next p nr hpc => exact h.forkFail hpc
    · exact h
  | exit t code =>
    simp only [step]
    split
    · next hrun => exact (hp.awake_of_runs hrun).setPc h trivial
    · exact h
  | forget t =>
    simp only [step]
    split
    · next code hpc => exact h.forget hpc
    · exact h
  | die t ctty =>
    simp only [step]
    split
    · next code hpc => exact h.exit hpc (hok code hpc) ctty
    · exact h
  | exitAgain t =>
    simp only [step]
    split
    · next code hpc =>
      split
      · next hrun =>
        refine Awake.setPc ⟨hrun.1, ?_, by rw [hrun.2]; decide, ?_⟩ h trivial
        · rintro rfl
          rw [hp.idle] at hpc
          simp at hpc
        · exact hp.not_made (by decide) hrun.2
      · exact h
    · exact h
  | wait t p =>
    simp only [step]
    split
    · next hg =>
      obtain ⟨hrun, hmem, -⟩ := hg
      refine (hp.awake_of_runs hrun).setPc h ?_
      rw [hl.children_eq hrun.1] at hmem
      obtain ⟨hpr, hpt⟩ := (hl.forest.mem_kids t hrun.1 p).mp hmem
      constructor
      · rintro rfl
        exact hrun.2.1 (hpt.symm.trans hl.init)
      · rintro rfl
        exact hl.forest.initTask_notMem hpr
    · exact h
  | waitEnd t =>
    simp only [step]
    split
    · next p v hpc =>
      obtain ⟨hu, hz⟩ := hok p v hpc
      obtain ⟨hpp, hpi⟩ := hp.reaping t p v hpc
      have hawake : Awake s t := hp.awake_of_pc (by rw [hpc]; simp) (by rw [hpc]; simp)
      have hback : Inv (s.setPc t .user) := hawake.setPc h trivial
      have hreap : Inv ((s.setPc t .user).reap p) := hback.reap hu hpi hpp hz
      rw [← reap_setPc]
      exact hreap
    · exact h
  | waitStopped t p =>
    simp only [step]
    split
    · next hg => exact (hp.awake_of_runs hg.1).setPc h trivial
    · exact h
  | waitStoppedEnd t =>
    simp only [step]
    split
    · next p hpc =>
      have hawake : Awake s t := hp.awake_of_pc (by rw [hpc]; simp) (by rw [hpc]; simp)
      have hback : Inv (s.setPc t .user) := hawake.setPc h trivial
      exact hback.states rfl rfl rfl rfl rfl rfl rfl rfl rfl rfl (fun _ hz => hz) fun _ _ _ _ => rfl
    · exact h
  | traceme t =>
    simp only [step]
    split
    · exact h.states rfl rfl rfl rfl rfl rfl rfl rfl rfl rfl (fun _ hz => hz) fun _ _ _ _ => rfl
    · exact h
  | attach t p =>
    simp only [step]
    split
    · next hg =>
      obtain ⟨hrun, hu, hpi, hpp, hpt, -⟩ := hg
      have hbase : Inv { s with ptraced := update s.ptraced p true } :=
        h.states rfl rfl rfl rfl rfl rfl rfl rfl rfl rfl (fun _ hz => hz) fun _ _ _ _ => rfl
      split
      · refine hbase.moveTo hu hpi hpp hrun.1 hpt.symm ?_ (hp.awake_of_runs hrun).made
        intro _ code hc
        have huser : s.pc t = .user := hrun.2.2.2
        have hc' : s.pc t = .dead code := hc
        rw [huser] at hc'
        simp at hc'
      · exact hbase
    · exact h
  | detach t p data =>
    simp only [step]
    split
    · next hg =>
      obtain ⟨⟨-, hu, hpi, hpp, -, -⟩, hstopped⟩ := hg
      have hbase : Inv { s with
          ptraced := update s.ptraced p false
          state := update s.state p .running
          exitCode := update s.exitCode p data } :=
        h.setState (by decide) (hp.not_made (by decide) hstopped)
      exact hbase.moveBack hu hpi hpp
    · exact h
  | cont t p data =>
    simp only [step]
    split
    · next hg => exact h.setState (by decide) (hp.not_made (by decide) hg.2)
    · exact h
  | ptraceKill t p =>
    simp only [step]
    split
    · next htr => exact h.setState (by decide) (hok htr)
    · exact h
  | kill p sig =>
    simp only [step]
    split
    · exact h.quiet (sendSig_quiet s sig p)
    · exact h
  | killPg pgrp sig => exact h.quiet (killPg_quiet s pgrp sig)
  | stop t sig =>
    simp only [step]
    split
    · next hrun => exact h.setState (by decide) (hp.awake_of_runs hrun).made
    · exact h
  | setGroup t pgrp session =>
    simp only [step]
    split
    · exact h.states rfl rfl rfl rfl rfl rfl rfl rfl rfl rfl (fun _ hz => hz) fun _ _ _ _ => rfl
    · exact h

end

end LinuxKernel.Process
