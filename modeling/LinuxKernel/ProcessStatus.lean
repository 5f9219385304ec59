import LinuxKernel.ProcessAudit
import LinuxKernel.ProcessSignals

/-!
# The exit status

`exit_code` is the status of a zombie, the signal that has stopped a task, and what `ptrace` lets
it go on with.  A zombie keeps its status, and its real parent gets it once, in the runs in which
nobody else writes there.
-/

namespace LinuxKernel.Process
open Function

def Pc.Live : Pc → Prop
  | .dead _ => False
  | _ => True

def Pc.Calm : Pc → Prop
  | .dead _ | .reaping _ _ => False
  | _ => True

/-- A task that has exited is a zombie with the code of its `do_exit`, and a status that is being
copied out is the one of a child. -/
structure StatusInv (s : State) : Prop where
  dead : ∀ t code, s.Used t → s.pc t = .dead code → s.state t = .zombie ∧ s.exitCode t = code
  reaping : ∀ t p v, s.pc t = .reaping p v → s.Used p ∧ s.pc p = .dead v ∧ s.pptr p = t

/-- The condition on the steps.  No SIGKILL or SIGCONT clears the code of a zombie, sent by `kill`
or by `do_exit`, which may hit the task that exits too; neither PTRACE_KILL nor the report of a
stopped child, which may have exited since, writes to a zombie; and no zombie is attached to while
its parent copies out its status. -/
def Event.StatusOk (s : State) : Event → Prop
  | .kill p sig => p ∈ s.tasks → Clears sig → s.state p = .zombie → s.exitCode p = 0
  | .killPg pgrp sig => Clears sig →
    ∀ p ∈ s.tasks, s.pgrp p = pgrp → s.state p = .zombie → s.exitCode p = 0
  | .die t ctty => ∀ code, s.pc t = .exiting true code →
    (s.cptr t ≠ none → s.cptr (s.heir t) ≠ none) ∧
    ∀ pgrp, s.Orphans t pgrp ∨ ctty = some pgrp → (s.pgrp t = pgrp → code = 0) ∧
      ∀ p ∈ s.tasks, s.pgrp p = pgrp → s.state p = .zombie → s.exitCode p = 0
  | .ptraceKill t p => s.Traces t p → s.state p ≠ .zombie ∧ ∀ u nr, s.pc u ≠ .forking p nr
  | .waitStoppedEnd t => ∀ p, s.pc t = .reporting p → s.Used p → s.state p = .zombie →
    s.exitCode p = 0
  | .attach t p => s.Runs t → s.ptraced p = false → ∀ u v, s.pc u ≠ .reaping p v
  | _ => True

variable {code : ℕ}

variable {e : Event}

/-- Between `s` and `s'` no task exits, begins to get a status or is released, and the zombies are
left alone. -/
structure Calm (s s' : State) : Prop where
  dead : ∀ q c, s.Used q → s.pc q = .dead c →
    s'.Used q ∧ s'.pc q = .dead c ∧ s'.state q = .zombie ∧ s'.exitCode q = s.exitCode q
  new : ∀ q c, s'.Used q → s'.pc q = .dead c → s.Used q ∧ s.pc q = .dead c
  reaping : ∀ u q v, s'.pc u = .reaping q v → s.pc u = .reaping q v ∧ s'.pptr q = s.pptr q

section

variable {s s' : State} {ring : List Tid} {kids : Tid → List Tid} {p q t : Tid}

section
variable (h : StatusInv s)
include h

theorem StatusInv.calm (hc : Calm s s') : StatusInv s' := by
  constructor
  · intro t code ht hpc
    obtain ⟨hu, hd⟩ := hc.new t code ht hpc
    obtain ⟨-, -, hz, hcode⟩ := hc.dead t code hu hd
    exact ⟨hz, hcode.trans (h.dead t code hu hd).2⟩
  · intro t p v hpc
    obtain ⟨hr, hpptr⟩ := hc.reaping t p v hpc
    obtain ⟨hu, hd, hpt⟩ := h.reaping t p v hr
    obtain ⟨hu', hd', -⟩ := hc.dead p v hu hd
    exact ⟨hu', hd', hpptr.trans hpt⟩

theorem StatusInv.calm_of_pc
    (hpc : ∀ q, s'.pc q = s.pc q ∨ (s.Used q → (s.pc q).Live) ∧ (s'.pc q).Calm)
    (hused : ∀ q c, s.pc q = .dead c → s'.pc q = .dead c → (s'.Used q ↔ s.Used q))
    (hcode : ∀ q c, s.Used q → s.pc q = .dead c →
      s'.state q = s.state q ∧ s'.exitCode q = s.exitCode q)
    (hpptr : ∀ u q v, s.pc u = .reaping q v → s'.pptr q = s.pptr q) : Calm s s' := by
  refine ⟨?_, ?_, ?_⟩
  · intro q c hu hd
    have hd' : s'.pc q = .dead c := by
      rcases hpc q with heq | ⟨hlive, -⟩
      · exact heq.trans hd
      · have := hlive hu
        rw [hd] at this
        exact this.elim
    exact ⟨(hused q c hd hd').mpr hu, hd', (hcode q c hu hd).1.trans (h.dead q c hu hd).1,
      (hcode q c hu hd).2⟩
  · intro q c hu hd
    rcases hpc q with heq | ⟨-, hcalm⟩
    · have hd' := heq.symm.trans hd
      exact ⟨(hused q c hd' hd).mp hu, hd'⟩
    · rw [hd] at hcalm
      exact hcalm.elim
  · intro u q v hr
    rcases hpc u with heq | ⟨-, hcalm⟩
    · have hr' := heq.symm.trans hr
      exact ⟨hr', hpptr u q v hr'⟩
    · rw [hr] at hcalm
      exact hcalm.elim

theorem StatusInv.calm_of_task (htask : s'.task = s.task)
    (hpc : ∀ q, s'.pc q = s.pc q ∨ (s.Used q → (s.pc q).Live) ∧ (s'.pc q).Calm)
    (hcode : ∀ q c, s.Used q → s.pc q = .dead c →
      s'.state q = s.state q ∧ s'.exitCode q = s.exitCode q)
    (hpptr : ∀ u q v, s.pc u = .reaping q v → s'.pptr q = s.pptr q) : Calm s s' :=
  h.calm_of_pc hpc (fun q _ _ _ => used_congr htask q) hcode hpptr

omit h in
theorem setPc_pc_cases (s : State) (t : Tid) {pc : Pc} (ht : (s.pc t).Live) (hpc : pc.Calm)
    (q : Tid) : (s.setPc t pc).pc q = s.pc q ∨
      (s.Used q → (s.pc q).Live) ∧ ((s.setPc t pc).pc q).Calm := by
  rw [setPc_pc]
  split
  · next hq => exact Or.inr ⟨fun _ => hq ▸ ht, hpc⟩
  · exact Or.inl rfl

theorem StatusInv.calm_setPc {pc : Pc} (ht : (s.pc t).Live) (hpc : pc.Calm) :
    Calm s (s.setPc t pc) :=
  h.calm_of_task rfl (setPc_pc_cases s t ht hpc) (fun _ _ _ _ => ⟨rfl, rfl⟩) fun _ _ _ _ => rfl

theorem StatusInv.ne_of_dead (hp : s.Used p → s.state p ≠ .zombie) {c : ℕ} (hu : s.Used q)
    (hd : s.pc q = .dead c) : q ≠ p := by
  rintro rfl
  exact hp hu (h.dead q c hu hd).1

theorem StatusInv.calm_setState (hp : s.Used p → s.state p ≠ .zombie) (st : TState) (code : ℕ)
    (traced : Tid → Bool) :
    Calm s { s with
      state := update s.state p st
      exitCode := update s.exitCode p code
      ptraced := traced } := by
  refine h.calm_of_task rfl (fun _ => Or.inl rfl) ?_ fun _ _ _ _ => rfl
  intro q c hu hd
  have hqp := h.ne_of_dead hp hu hd
  exact ⟨update_of_ne hqp .., update_of_ne hqp ..⟩

theorem StatusInv.calm_signals (hq : Quiet s s') {G : Tid → Prop} (hc : Cleared G s s')
    (hG : ∀ z c, G z → s.Used z → s.pc z = .dead c → s.exitCode z = 0) : Calm s s' := by
  refine h.calm_of_task hq.task (fun q => Or.inl (by rw [hq.pc])) ?_ fun _ _ _ _ => by rw [hq.pptr]
  intro q c hu hd
  have hz := (h.dead q c hu hd).1
  refine ⟨((hq.zombie_iff q).mpr hz).trans hz.symm, ?_⟩
  rcases hc q with heq | ⟨hg, h0⟩
  · exact heq
  · exact h0.trans (hG q c hg hu hd).symm

theorem Calm.refl : Calm s s :=
  h.calm_of_task rfl (fun _ => Or.inl rfl) (fun _ _ _ _ => ⟨rfl, rfl⟩) fun _ _ _ _ => rfl

theorem StatusInv.calm_moveTo (hp : ∀ u v, s.pc u ≠ .reaping p v) (q : Tid) :
    Calm s (s.moveTo p q) := by
  refine h.calm_of_task rfl (fun _ => Or.inl rfl) (fun _ _ _ _ => ⟨rfl, rfl⟩) ?_
  intro u x v hr
  have hxp : x ≠ p := fun heq => hp u v (heq ▸ hr)
  rw [moveTo_pptr, if_neg hxp]

theorem StatusInv.not_reaping (hp : s.state p ≠ .zombie) : ∀ u v, s.pc u ≠ .reaping p v := by
  intro u v hr
  obtain ⟨hu, hd, -⟩ := h.reaping u p v hr
  exact hp (h.dead p v hu hd).1

omit h in
theorem Calm.trans {s'' : State} (h : Calm s s') (h' : Calm s' s'') : Calm s s'' := by
  refine ⟨?_, ?_, ?_⟩
  · intro q c hu hd
    obtain ⟨hu', hd', -, hcode⟩ := h.dead q c hu hd
    obtain ⟨hu'', hd'', hz, hcode'⟩ := h'.dead q c hu' hd'
    exact ⟨hu'', hd'', hz, hcode'.trans hcode⟩
  · intro q c hu hd
    obtain ⟨hu', hd'⟩ := h'.new q c hu hd
    exact h.new q c hu' hd'
  · intro u q v hr
    obtain ⟨hr', hpptr⟩ := h'.reaping u q v hr
    obtain ⟨hr'', hpptr'⟩ := h.reaping u q v hr'
    exact ⟨hr'', hpptr.trans hpptr'⟩

theorem StatusInv.calm_fork {nr : ℕ} (ht : s.Runs t) (hp : ¬s.Used p) (hlt : nr < nrTasks)
    (hfree : s.task nr = none) : Calm s (s.fork t p nr) := by
  refine h.calm_of_pc ?_ ?_ ?_ ?_
  · intro q
    rw [fork_pc]
    split
    · next hqt => exact Or.inr ⟨fun _ => by rw [hqt, ht.2.2.2]; trivial, trivial⟩
    · split
      · next hqp => exact Or.inr ⟨fun hu => absurd (hqp ▸ hu) hp, trivial⟩
      · exact Or.inl rfl
  · intro q c hd hd'
    rw [fork_used hlt hfree]
    constructor
    · rintro (hu | rfl)
      · exact hu
      · rw [fork_pc] at hd'
        split at hd'
        · simp at hd'
        · simp at hd'
    · exact Or.inl
  · intro q c hu _
    have hqp : q ≠ p := fun heq => hp (heq ▸ hu)
    exact ⟨update_of_ne hqp .., update_of_ne hqp ..⟩
  · intro u q v hr
    have hqp : q ≠ p := fun heq => hp (heq ▸ (h.reaping u q v hr).1)
    exact update_of_ne hqp ..

theorem StatusInv.calm_forkFail {nr : ℕ} (ht : s.pc t = .forking p nr) (hslot : s.task nr = some p)
    (hp : s.pc p = .user) :
    Calm s (({ s with task := update s.task nr none }.removeLinks p).setPc t .user) := by
  refine h.calm_of_pc ?_ ?_ (fun _ _ _ _ => ⟨rfl, rfl⟩) fun _ _ _ _ => rfl
  · exact setPc_pc_cases s t (by rw [ht]; trivial) trivial
  · intro q c hd _
    have hqp : q ≠ p := by
      rintro rfl
      rw [hp] at hd
      simp at hd
    constructor
    · rintro ⟨i, hi, hq⟩
      have hq' : update s.task nr none i = some q := hq
      by_cases hin : i = nr
      · rw [hin, update_self] at hq'
        simp at hq'
      · rw [update_of_ne hin] at hq'
        exact ⟨i, hi, hq'⟩
    · rintro ⟨i, hi, hq⟩
      refine ⟨i, hi, ?_⟩
      have hin : i ≠ nr := by
        rintro rfl
        rw [hslot] at hq
        exact hqp (Option.some.inj hq).symm
      change update s.task nr none i = some q
      rw [update_of_ne hin]
      exact hq

end

def Event.quiet : Event → Bool
  | .die _ _ | .wait _ _ | .waitEnd _ => false
  | _ => true

theorem step_calm (hi : Inv s) (h : StatusInv s) (hok : e.StatusOk s)
    (he : e.quiet = true) : Calm s (step s e) := by
  obtain ⟨ring, kids, hl, hp⟩ := hi
  have hrefl := Calm.refl h
  cases e with
  | die _ _ | wait _ _ | waitEnd _ => simp [Event.quiet] at he
  | fork t p nr =>
    simp only [step]
    split
    · next hg => exact h.calm_fork hg.1 hg.2.1 hg.2.2.2.2.1 hg.2.2.2.2.2
    · exact hrefl
  | forkEnd t sig =>
    simp only [step]
    split
    · next p nr hpc =>
      obtain ⟨-, -, hst, huser, -⟩ := hp.made t p nr hpc
      have hne : ∀ q c, s.pc q = .dead c → q ≠ p := by
        rintro q c hd rfl
        rw [huser] at hd
        simp at hd
      refine h.calm_of_task rfl (setPc_pc_cases s t (by rw [hpc]; trivial) trivial) ?_
        fun _ _ _ _ => rfl
      intro q c _ hd
      exact ⟨update_of_ne (hne q c hd) .., rfl⟩
    · exact hrefl
  | forkFail t =>
    simp only [step]
    split
    · next p nr hpc =>
      exact h.calm_forkFail hpc (hp.slot t p nr hpc).2.2 (hp.made t p nr hpc).2.2.2.1
    · exact hrefl
  | exit t code =>
    simp only [step]
    split
    · next hrun => exact h.calm_setPc (by rw [hrun.2.2.2]; trivial) trivial
    · exact hrefl
  | forget t =>
    simp only [step]
    split
    · next code hpc =>
      exact h.calm_of_task rfl (setPc_pc_cases s t (by rw [hpc]; trivial) trivial)
        (fun _ _ _ _ => ⟨rfl, rfl⟩) fun _ _ _ _ => rfl
    · exact hrefl
  | exitAgain t =>
    simp only [step]
    split
    · next code hpc =>
      split
      · next hg =>
        -- a task that has exited is a zombie, and does not run again
        have hz := (h.dead t code hg.1 hpc).1
        rw [hg.2] at hz
        exact absurd hz (by decide)
      · exact hrefl
    · exact hrefl
  | waitStopped t p =>
    simp only [step]
    split
    · next hg => exact h.calm_setPc (by rw [hg.1.2.2.2]; trivial) trivial
    · exact hrefl
  | waitStoppedEnd t =>
    simp only [step]
    split
    · next p hpc =>
      refine h.calm_of_task rfl (setPc_pc_cases s t (by rw [hpc]; trivial) trivial) ?_
        fun _ _ _ _ => rfl
      intro q c hu hd
      refine ⟨rfl, ?_⟩
      change update s.exitCode p 0 q = _
      by_cases hqp : q = p
      · rw [hqp, update_self]
        subst hqp
        exact (hok q hpc hu (h.dead q c hu hd).1).symm
      · exact update_of_ne hqp ..
    · exact hrefl
  | traceme t =>
    simp only [step]
    split
    · exact h.calm_of_task rfl (fun _ => Or.inl rfl) (fun _ _ _ _ => ⟨rfl, rfl⟩) fun _ _ _ _ => rfl
    · exact hrefl
  | attach t p =>
    simp only [step]
    split
    · next hg =>
      have hfree := hok hg.1 hg.2.2.2.2.2
      have hbase : Calm s { s with ptraced := update s.ptraced p true } :=
        h.calm_of_task rfl (fun _ => Or.inl rfl) (fun _ _ _ _ => ⟨rfl, rfl⟩) fun _ _ _ _ => rfl
      split
      · exact hbase.trans ((h.calm hbase).calm_moveTo hfree t)
      · exact hbase
    · exact hrefl
  | detach t p data =>
    simp only [step]
    split
    · next hg =>
      have hz : s.state p ≠ .zombie := by
        rw [hg.2]
        decide
      have hbase := h.calm_setState (fun _ => hz) .running data (update s.ptraced p false)
      exact hbase.trans ((h.calm hbase).calm_moveTo (h.not_reaping hz) (s.opptr p))
    · exact hrefl
  | cont t p data =>
    simp only [step]
    split
    · next hg => exact h.calm_setState (fun _ => by rw [hg.2]; decide) .running data s.ptraced
    · exact hrefl
  | ptraceKill t p =>
    simp only [step]
    split
    · next htr => exact h.calm_setState (fun _ => (hok htr).1) .running sigkill s.ptraced
    · exact hrefl
  | kill p sig =>
    simp only [step]
    split
    · next hmem =>
      refine h.calm_signals (sendSig_quiet s sig p) (sendSig_cleared s sig p) ?_
      rintro z c ⟨rfl, hsig⟩ hu hd
      exact hok hmem hsig (h.dead z c hu hd).1
    · exact hrefl
  | killPg pgrp sig =>
    refine h.calm_signals (killPg_quiet s pgrp sig) (killPg_cleared s pgrp sig) ?_
    rintro z c ⟨hz, hg, hsig⟩ hu hd
    exact hok hsig z hz hg (h.dead z c hu hd).1
  | stop t sig =>
    simp only [step]
    split
    · next hrun =>
      exact h.calm_setState (fun _ => by rw [hrun.2.2.1]; decide) .stopped sig s.ptraced
    · exact hrefl
  | setGroup t pgrp session =>
    simp only [step]
    split
    · exact h.calm_of_task rfl (fun _ => Or.inl rfl) (fun _ _ _ _ => ⟨rfl, rfl⟩) fun _ _ _ _ => rfl
    · exact hrefl

section
variable (h : StatusInv s) (hl : LinkInv s ring kids) (hp : PhaseInv s ring)
include h hl hp

theorem StatusInv.exit (hpc : s.pc t = .exiting true code) {ctty : Option ℕ}
    (hok : (Event.die t ctty).StatusOk s) :
    (∀ q c, s.Used q → s.pc q = .dead c →
      (s.exit t code ctty).Used q ∧ (s.exit t code ctty).pc q = .dead c) ∧
    StatusInv (s.exit t code ctty) := by
  obtain ⟨hchild, hgroups⟩ := hok code hpc
  have hawake : Awake s t := hp.awake_of_pc (by rw [hpc]; simp) (by rw [hpc]; simp)
  have htr := hl.mem_ring_of_used hawake.used hawake.ne
  obtain ⟨kids', -, hbeside, hpptr⟩ := exit_spec hl hawake.used hawake.ne hp.oops hchild code ctty
  have hcleared := exit_cleared hl hawake.used hawake.ne hp.oops hchild code ctty
  have hused : ∀ q, (s.exit t code ctty).Used q ↔ s.Used q := used_congr hbeside.task
  have hpcs : ∀ q, (s.exit t code ctty).pc q = if q = t then .dead code else s.pc q := by
    intro q
    rw [hbeside.pc]
    exact markDead_pc s t code q
  have hold : ∀ q c, s.pc q = .dead c → q ≠ t := by
    rintro q c hd rfl
    rw [hpc] at hd
    simp at hd
  have hzombie : ∀ q, (s.markDead t code).state q = .zombie →
      (s.exit t code ctty).state q = .zombie := by
    intro q hz
    rcases hbeside.state q with heq | ⟨hs, -⟩
    · exact heq.trans hz
    · rw [hz] at hs
      exact absurd hs (by decide)
  refine ⟨?_, ?_, ?_⟩
  · intro q c hu hd
    refine ⟨(hused q).mpr hu, ?_⟩
    rw [hpcs, if_neg (hold q c hd)]
    exact hd
  · intro q c hu hd
    rw [hpcs] at hd
    rw [hused] at hu
    split at hd
    · next hqt =>
      obtain rfl : code = c := by simpa using hd
      subst hqt
      have hmark : (s.markDead q code).exitCode q = code := update_self ..
      refine ⟨hzombie q (update_self ..), ?_⟩
      rcases hcleared q with heq | ⟨⟨-, hg⟩ | hidle | ⟨hself, -⟩, h0⟩
      · exact heq.trans hmark
      · rw [h0, (hgroups (s.pgrp q) hg).1 rfl]
      · exact absurd hidle hawake.ne
      · exact absurd hself.symm (hl.self q htr).1
    · next hqt =>
      obtain ⟨hz, hcode⟩ := h.dead q c hu hd
      have hmark : (s.markDead t code).exitCode q = s.exitCode q := update_of_ne hqt ..
      have hstate : (s.markDead t code).state q = s.state q := update_of_ne hqt ..
      refine ⟨hzombie q (hstate.trans hz), ?_⟩
      rcases hcleared q with heq | ⟨⟨hmem, hg⟩ | hidle | ⟨hparent, hinit⟩, h0⟩
      · exact (heq.trans hmark).trans hcode
      · rw [h0, ← hcode, (hgroups (s.pgrp q) hg).2 q hmem rfl hz]
      · rw [hidle, hp.idle] at hd
        simp at hd
      · -- the parent of `t` has a child, and is not dead
        exact absurd hparent.symm (hp.dead q c hinit hd hu t htr)
  · intro u q v hr
    rw [hpcs] at hr
    split at hr
    · simp at hr
    · next hut =>
      obtain ⟨hu, hd, hqu⟩ := h.reaping u q v hr
      refine ⟨(hused q).mpr hu, ?_, ?_⟩
      · rw [hpcs, if_neg (hold q v hd)]
        exact hd
      · rw [hpptr, if_neg]
        · exact hqu
        · rintro ⟨-, heq⟩
          exact hut (hqu.symm.trans heq)

theorem StatusInv.wait (ht : s.Runs t) (hmem : p ∈ s.children t) (hz : s.state p = .zombie) :
    (∀ q c, s.Used q → s.pc q = .dead c → (s.setPc t (.reaping p (s.exitCode p))).pc q = .dead c) ∧
    StatusInv (s.setPc t (.reaping p (s.exitCode p))) := by
  obtain ⟨hu, -, hpt⟩ := (hl.mem_children ht.1 p).mp hmem
  obtain ⟨c, hd⟩ := hp.zombie p hu hz
  have hcode := (h.dead p c hu hd).2
  have hold : ∀ q c, s.pc q = .dead c → q ≠ t := by
    rintro q c hd rfl
    rw [ht.2.2.2] at hd
    simp at hd
  have hkeep : ∀ q c, s.pc q = .dead c →
      (s.setPc t (.reaping p (s.exitCode p))).pc q = .dead c := by
    intro q c hd
    rw [setPc_pc, if_neg (hold q c hd)]
    exact hd
  refine ⟨fun q c _ hd => hkeep q c hd, ?_, ?_⟩
  · intro q c hu hd
    rw [setPc_pc] at hd
    split at hd
    · simp at hd
    · exact h.dead q c hu hd
  · intro u q v hr
    rw [setPc_pc] at hr
    split at hr
    · next hut =>
      obtain ⟨rfl, rfl⟩ : p = q ∧ s.exitCode p = v := by simpa using hr
      refine ⟨hu, hkeep p _ (hcode.symm ▸ hd), hpt.trans hut.symm⟩
    · obtain ⟨hqu, hqd, hqp⟩ := h.reaping u q v hr
      exact ⟨hqu, hkeep q v hqd, hqp⟩

omit h hl hp in
theorem LinkInv.release_eq (h : LinkInv s ring kids) (hp : s.Used p) (hpi : p ≠ initTask) :
    ∃ i, s.release p = { s with task := update s.task i none }.removeLinks p ∧
      ∀ q, (s.release p).Used q ↔ s.Used q ∧ q ≠ p := by
  obtain ⟨i, h1, hi, hpi'⟩ := (h.mem_ring p).mp (h.mem_ring_of_used hp hpi)
  have heq : s.release p = { s with task := update s.task i none }.removeLinks p := by
    unfold State.release
    rw [h.slotOf_eq h1 hi hpi']
  refine ⟨i, heq, fun q => ?_⟩
  rw [heq]
  constructor
  · intro hq
    refine ⟨removeLinks_used s p q i hq, ?_⟩
    rintro rfl
    obtain ⟨j, hj, hq'⟩ := hq
    have hq'' : update s.task i none j = some q := hq'
    by_cases hji : j = i
    · rw [hji, update_self] at hq''
      simp at hq''
    · rw [update_of_ne hji] at hq''
      exact hji (h.inj j i q hj hi hq'' hpi')
  · rintro ⟨⟨j, hj, hq⟩, hqp⟩
    refine ⟨j, hj, ?_⟩
    have hji : j ≠ i := by
      rintro rfl
      rw [hpi'] at hq
      exact hqp (Option.some.inj hq).symm
    change update s.task i none j = some q
    rw [update_of_ne hji]
    exact hq

theorem StatusInv.reap_release {v : ℕ} (hpc : s.pc t = .reaping p v) (hreal : s.opptr p = t) :
    ¬((s.reap p).setPc t .user).Used p ∧
    (∀ q c, s.Used q → q ≠ p → s.pc q = .dead c →
      ((s.reap p).setPc t .user).Used q ∧ ((s.reap p).setPc t .user).pc q = .dead c) ∧
    StatusInv ((s.reap p).setPc t .user) := by
  obtain ⟨hu, hd, hpt⟩ := h.reaping t p v hpc
  obtain ⟨i, heq, hused⟩ := hl.release_eq hu (hp.reaping t p v hpc).2
  have hreap : s.reap p = s.release p := by
    unfold State.reap
    rw [if_neg fun hne => hne (hreal.trans hpt.symm)]
  have hpcs : ∀ q, ((s.release p).setPc t .user).pc q = if q = t then .user else s.pc q := by
    intro q
    rw [setPc_pc, heq]
    rfl
  have hcodes : (s.release p).state = s.state ∧ (s.release p).exitCode = s.exitCode ∧
      (s.release p).pptr = s.pptr := by
    rw [heq]
    exact ⟨rfl, rfl, rfl⟩
  have hkeep : ∀ q c, s.pc q = .dead c → ((s.release p).setPc t .user).pc q = .dead c := by
    intro q c hdq
    have hqt : q ≠ t := by
      rintro rfl
      rw [hpc] at hdq
      simp at hdq
    rw [hpcs, if_neg hqt]
    exact hdq
  rw [hreap]
  refine ⟨fun hin => ((hused p).mp hin).2 rfl, ?_, ?_, ?_⟩
  · intro q c huq hqp hdq
    exact ⟨(hused q).mpr ⟨huq, hqp⟩, hkeep q c hdq⟩
  · intro q c huq hdq
    rw [hpcs] at hdq
    split at hdq
    · simp at hdq
    · change (s.release p).state q = _ ∧ (s.release p).exitCode q = _
      rw [hcodes.1, hcodes.2.1]
      exact h.dead q c ((hused q).mp huq).1 hdq
  · intro w q x hr
    rw [hpcs] at hr
    split at hr
    · simp at hr
    · next hwt =>
      obtain ⟨huq, hdq, hqw⟩ := h.reaping w q x hr
      have hqp : q ≠ p := by
        rintro rfl
        exact hwt (hqw.symm.trans hpt)
      refine ⟨(hused q).mpr ⟨huq, hqp⟩, hkeep q x hdq, ?_⟩
      change (s.release p).pptr q = w
      rw [hcodes.2.2]
      exact hqw

theorem StatusInv.reap_return {v : ℕ} (hpc : s.pc t = .reaping p v) (hreal : s.opptr p ≠ t) :
    ((s.reap p).setPc t .user).pptr p = s.opptr p ∧ Calm s ((s.reap p).setPc t .user) := by
  obtain ⟨hu, hd, hpt⟩ := h.reaping t p v hpc
  obtain ⟨hpp, hpi⟩ := hp.reaping t p v hpc
  have hreap : s.reap p = (s.moveTo p (s.opptr p)).notifyParent p := by
    unfold State.reap
    rw [if_pos fun heq => hreal (heq.trans hpt)]
  have hback : Calm s (s.setPc t .user) := h.calm_setPc (by rw [hpc]; trivial) trivial
  have hother : ∀ w x, (s.setPc t .user).pc w ≠ .reaping p x := by
    intro w x hr
    rw [setPc_pc] at hr
    split at hr
    · simp at hr
    · next hwt => exact hwt ((h.reaping w p x hr).2.2.symm.trans hpt)
  have hmove : Calm s ((s.setPc t .user).moveTo p (s.opptr p)) :=
    hback.trans ((h.calm hback).calm_moveTo hother (s.opptr p))
  have hnew : ((s.setPc t .user).moveTo p (s.opptr p)).pptr p = s.opptr p := by
    rw [moveTo_pptr, if_pos rfl]
  have hquiet := notifyParent_quiet ((s.setPc t .user).moveTo p (s.opptr p)) p
  rw [← reap_setPc]
  have hreap' : (s.setPc t .user).reap p =
      ((s.setPc t .user).moveTo p (s.opptr p)).notifyParent p := by
    rw [reap_setPc, hreap, ← notifyParent_setPc]
    rfl
  rw [hreap']
  refine ⟨by rw [hquiet.pptr]; exact hnew, hmove.trans ?_⟩
  refine (h.calm hmove).calm_signals hquiet (notifyParent_cleared _ p) ?_
  rintro z c ⟨hz, hinit⟩ huz hdz
  -- nobody's original parent is dead, but for init, which gets SIGCHLD
  rw [hnew] at hz
  obtain ⟨huz', hdz'⟩ := hmove.new z c huz hdz
  have hzp : z ≠ initProcess := by
    rintro rfl
    exact hinit hl.task_one
  exact absurd hz.symm (hp.forgot z c hzp (Or.inr hdz') huz' p (hl.mem_ring_of_used hu hpi))

end

theorem Event.StatusOk.ok (h : StatusInv s) (hok : e.StatusOk s) : e.Ok s := by
  cases e with
  | die t ctty => exact fun code hpc => (hok code hpc).1
  | waitEnd t =>
    intro p v hpc
    obtain ⟨hu, hd, -⟩ := h.reaping t p v hpc
    exact ⟨hu, (h.dead p v hu hd).1⟩
  | ptraceKill t p => exact fun htr => (hok htr).2
  | fork _ _ _ | forkEnd _ _ | forkFail _ | exit _ _ | forget _ | exitAgain _ | wait _ _
  | waitStopped _ _ | waitStoppedEnd _ | traceme _ | attach _ _ | detach _ _ _ | cont _ _ _
  | kill _ _ | killPg _ _ | stop _ _ | setGroup _ _ _ => trivial

theorem step_statusInv (hi : Inv s) (h : StatusInv s) (hok : e.StatusOk s) :
    StatusInv (step s e) := by
  by_cases he : e.quiet = true
  · exact h.calm (step_calm hi h hok he)
  · obtain ⟨ring, kids, hl, hp⟩ := hi
    cases e with
    | die t ctty =>
      simp only [step]
      split
      · next code hpc => exact (h.exit hl hp hpc hok).2
      · exact h
    | wait t p =>
      simp only [step]
      split
      · next hg => exact (h.wait hl hp hg.1 hg.2.1 hg.2.2).2
      · exact h
    | waitEnd t =>
      simp only [step]
      split
      · next p v hpc =>
        by_cases hreal : s.opptr p = t
        · exact (h.reap_release hl hp hpc hreal).2.2
        · exact h.calm (h.reap_return hl hp hpc hreal).2
      · exact h
    | _ => exact absurd rfl he

theorem step_dead (hi : Inv s) (h : StatusInv s) (hok : e.StatusOk s)
    (hu : s.Used t) (hd : s.pc t = .dead code) :
    (step s e).Used t ∧ (step s e).pc t = .dead code ∨
      e = .waitEnd (s.opptr t) ∧ s.pc (s.opptr t) = .reaping t code ∧ ¬(step s e).Used t := by
  by_cases he : e.quiet = true
  · obtain ⟨hu', hd', -⟩ := (step_calm hi h hok he).dead t code hu hd
    exact Or.inl ⟨hu', hd'⟩
  · obtain ⟨ring, kids, hl, hp⟩ := hi
    cases e with
    | die t' ctty =>
      simp only [step]
      split
      · next code' hpc => exact Or.inl ((h.exit hl hp hpc hok).1 t code hu hd)
      · exact Or.inl ⟨hu, hd⟩
    | wait t' p =>
      simp only [step]
      split
      · next hg => exact Or.inl ⟨hu, (h.wait hl hp hg.1 hg.2.1 hg.2.2).1 t code hu hd⟩
      · exact Or.inl ⟨hu, hd⟩
    | waitEnd w =>
      simp only [step]
      split
      · next p v hpc =>
        by_cases hreal : s.opptr p = w
        · obtain ⟨hgone, hothers, -⟩ := h.reap_release hl hp hpc hreal
          by_cases htp : t = p
          · subst htp
            obtain rfl : code = v := by simpa [hd] using (h.reaping w t v hpc).2.1
            subst hreal
            exact Or.inr ⟨rfl, hpc, hgone⟩
          · exact Or.inl (hothers t code hu htp hd)
        · obtain ⟨hu', hd', -⟩ := (h.reap_return hl hp hpc hreal).2.dead t code hu hd
          exact Or.inl ⟨hu', hd'⟩
      · exact Or.inl ⟨hu, hd⟩
    | _ => exact absurd rfl he

/-- The task has exited with `code` and its real parent has not got the status yet.  What is
copied out is this code; a tracer that has got it gives the task back to the real parent, and when
the real parent has got it the task is released. -/
structure Unreaped (s : State) (t : Tid) (code : ℕ) : Prop where
  used : s.Used t
  zombie : s.state t = .zombie
  exitCode : s.exitCode t = code
  status : ∀ w v, s.pc w = .reaping t v → v = code
  returned : ∀ w v, s.pc w = .reaping t v → s.opptr t ≠ w →
    (step s (.waitEnd w)).pptr t = s.opptr t ∧ (step s (.waitEnd w)).exitCode t = code
  released : ∀ w v, s.pc w = .reaping t v → s.opptr t = w → ¬(step s (.waitEnd w)).Used t

theorem StatusInv.unreaped (h : StatusInv s) (hi : Inv s) (hu : s.Used t)
    (hd : s.pc t = .dead code) : Unreaped s t code := by
  obtain ⟨ring, kids, hl, hp⟩ := hi
  obtain ⟨hz, hcode⟩ := h.dead t code hu hd
  refine ⟨hu, hz, hcode, ?_, ?_, ?_⟩
  · intro w v hpc
    have heq := (h.reaping w t v hpc).2.1
    rw [hd] at heq
    simpa using heq.symm
  · intro w v hpc hreal
    obtain ⟨hpptr, hcalm⟩ := h.reap_return hl hp hpc hreal
    simp only [step, hpc]
    exact ⟨hpptr, (hcalm.dead t code hu hd).2.2.2.trans hcode⟩
  · intro w v hpc hreal
    simp only [step, hpc]
    exact (h.reap_release hl hp hpc hreal).1

def RunStatusOk : State → List Event → Prop
  | _, [] => True
  | s, e :: es => e.StatusOk s ∧ RunStatusOk (step s e) es

theorem runStatusOk_append {es1 es2 : List Event} :
    RunStatusOk s (es1 ++ es2) ↔ RunStatusOk s es1 ∧ RunStatusOk (run s es1) es2 := by
  induction es1 generalizing s with
  | nil => exact (and_iff_right trivial).symm
  | cons e es1 ih => exact (and_congr_right fun _ => ih).trans (and_assoc).symm

theorem run_statusInv (hi : Inv s) (h : StatusInv s) {es : List Event} (hok : RunStatusOk s es) :
    Inv (run s es) ∧ StatusInv (run s es) := by
  induction es generalizing s with
  | nil => exact ⟨hi, h⟩
  | cons e es ih => exact ih (step_inv hi (hok.1.ok h)) (step_statusInv hi h hok.1) hok.2

/-- What happens to a zombie in a run: it stays one, with its code, to the end or until its real
parent has got the code. -/
def StatusKept (s : State) (t : Tid) (code : ℕ) (es : List Event) : Prop :=
  (∀ es1 es2, es = es1 ++ es2 → Unreaped (run s es1) t code) ∨
    ∃ es1 es2, es = es1 ++ .waitEnd ((run s es1).opptr t) :: es2 ∧
      (∀ es3 es4, es1 = es3 ++ es4 → Unreaped (run s es3) t code) ∧
      (run s es1).pc ((run s es1).opptr t) = .reaping t code ∧
      ¬(step (run s es1) (.waitEnd ((run s es1).opptr t))).Used t

theorem run_dead (hi : Inv s) (h : StatusInv s) {es : List Event} (hok : RunStatusOk s es)
    (hu : s.Used t) (hd : s.pc t = .dead code) : StatusKept s t code es := by
  have hnow := h.unreaped hi hu hd
  induction es generalizing s with
  | nil =>
    refine Or.inl fun es1 es2 heq => ?_
    obtain ⟨rfl, -⟩ := List.append_eq_nil_iff.mp heq.symm
    exact hnow
  | cons e es ih =>
    rcases step_dead hi h hok.1 hu hd with ⟨hu', hd'⟩ | ⟨rfl, hpc, hgone⟩
    · have hi' := step_inv hi (hok.1.ok h)
      have h' := step_statusInv hi h hok.1
      -- the beginnings of the run are the empty one and those that start with `e`
      have hcons : ∀ es', (∀ es3 es4, es' = es3 ++ es4 → Unreaped (run (step s e) es3) t code) →
          ∀ es3 es4, e :: es' = es3 ++ es4 → Unreaped (run s es3) t code := by
        intro es' hall es3 es4 heq
        cases es3 with
        | nil => exact hnow
        | cons e' es3 =>
          obtain ⟨rfl, hrest⟩ : e = e' ∧ es' = es3 ++ es4 := by simpa using heq
          exact hall es3 es4 hrest
      rcases ih hi' h' hok.2 hu' hd'
        (h'.unreaped hi' hu' hd') with hall | ⟨es1, es2, heq, hall, hend⟩
      · exact Or.inl (hcons es hall)
      · exact Or.inr ⟨e :: es1, es2, congrArg (e :: ·) heq, hcons es1 hall, hend⟩
    · refine Or.inr ⟨[], es, rfl, fun es3 es4 heq => ?_, hpc, hgone⟩
      obtain ⟨rfl, -⟩ := List.append_eq_nil_iff.mp heq.symm
      exact hnow

end

theorem boot_statusInv : StatusInv boot := by
  constructor <;> simp [boot]

def exitingTask : List Event := threeTasks ++ [.exit 3 256, .forget 3]

end LinuxKernel.Process
