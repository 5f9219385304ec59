import LinuxKernel.ProcessRun

/-!
# Signals and exit codes

`send_sig` clears the exit code of its task for SIGKILL and SIGCONT, whatever the state of the
task is.  The lemmas say which tasks a call may do that to; the last one is about the signals of
`do_exit`, to the groups that it orphans and to the group of the terminal.
-/

namespace LinuxKernel.Process
open Function

def Clears (sig : ℕ) : Prop := sig = sigkill ∨ sig = sigcont

def Cleared (G : Tid → Prop) (s s' : State) : Prop :=
  ∀ z, s'.exitCode z = s.exitCode z ∨ G z ∧ s'.exitCode z = 0

/-- No task keeps the group from being orphaned, when `t` is gone and its children belong to
init. -/
def State.OrphanedWithout (s : State) (t : Tid) (pgrp : ℕ) : Prop :=
  ∀ q ∈ s.tasks, q ≠ t → s.pgrp q = pgrp → s.state q ≠ .zombie → s.pptr q ≠ initProcess →
    s.pptr q ≠ t → s.pgrp (s.pptr q) = pgrp ∨ s.session (s.pptr q) ≠ s.session q

/-- The exit of `t` takes away a connection of the group, its own or that of a child. -/
def State.Disconnects (s : State) (t : Tid) (pgrp : ℕ) : Prop :=
  s.pgrp t = pgrp ∧ s.pgrp (s.pptr t) ≠ pgrp ∧ s.session (s.pptr t) = s.session t ∨
    ∃ p ∈ s.tasks, s.pptr p = t ∧ s.pgrp p = pgrp ∧ s.pgrp t ≠ pgrp ∧ s.session p = s.session t

def State.Orphans (s : State) (t : Tid) (pgrp : ℕ) : Prop :=
  s.Disconnects t pgrp ∧ s.OrphanedWithout t pgrp ∧
    ∃ q ∈ s.tasks, q ≠ t ∧ s.pgrp q = pgrp ∧ s.state q = .stopped

section

variable {s s' s'' s0 : State} {G G' : Tid → Prop} {P : Tid → Prop} {ring rest : List Tid}
  {kids : Tid → List Tid} {p t : Tid}

theorem Cleared.refl (G : Tid → Prop) (s : State) : Cleared G s s := fun _ => Or.inl rfl

theorem Cleared.of_eq (h : s'.exitCode = s.exitCode) : Cleared G s s' := fun z => by
  rw [h]
  exact Or.inl rfl

theorem Cleared.trans (h : Cleared G s s') (h' : Cleared G s' s'') : Cleared G s s'' := by
  intro z
  rcases h' z with heq | hz
  · rw [heq]
    exact h z
  · exact Or.inr hz

theorem Cleared.mono (h : Cleared G s s') (hsub : ∀ z, G z → G' z) : Cleared G' s s' := by
  intro z
  rcases h z with heq | ⟨hz, h0⟩
  · exact Or.inl heq
  · exact Or.inr ⟨hsub z hz, h0⟩

theorem sendSig_cleared (s : State) (sig : ℕ) (p : Tid) :
    Cleared (fun z => z = p ∧ Clears sig) s (s.sendSig sig p) := by
  unfold State.sendSig
  split
  · next hsig =>
    intro z
    dsimp only
    by_cases hz : z = p
    · rw [hz, update_self]
      exact Or.inr ⟨⟨rfl, hsig⟩, rfl⟩
    · rw [update_of_ne hz]
      exact Or.inl rfl
  · exact Cleared.refl _ s

theorem killPg_cleared (s : State) (pgrp sig : ℕ) :
    Cleared (fun z => z ∈ s.tasks ∧ s.pgrp z = pgrp ∧ Clears sig) s (s.killPg pgrp sig) := by
  -- the loop over any part of the tasks, from any state with the same groups
  have hloop : ∀ (l : List Tid) (u : State), (∀ z ∈ l, z ∈ s.tasks) → u.pgrp = s.pgrp →
      Cleared (fun z => z ∈ s.tasks ∧ s.pgrp z = pgrp ∧ Clears sig) u
        (l.foldl (fun s p => if s.pgrp p = pgrp then s.sendSig sig p else s) u) := by
    intro l
    induction l with
    | nil => exact fun u _ _ => Cleared.refl _ u
    | cons p l ih =>
      intro u hl hu
      rw [List.foldl_cons]
      have hl' : ∀ z ∈ l, z ∈ s.tasks := fun z hz => hl z (List.mem_cons_of_mem _ hz)
      split
      · next hp =>
        refine Cleared.trans ?_ (ih _ hl' ((sendSig_quiet u sig p).pgrp.trans hu))
        refine (sendSig_cleared u sig p).mono ?_
        rintro z ⟨rfl, hsig⟩
        exact ⟨hl z (List.mem_cons_self ..), hu ▸ hp, hsig⟩
      · exact ih u hl' hu
  exact hloop s.tasks s (fun _ hz => hz) rfl

theorem notifyParent_cleared (s : State) (p : Tid) :
    Cleared (fun z => z = s.pptr p ∧ s.task 1 ≠ some z) s (s.notifyParent p) := by
  unfold State.notifyParent
  split
  · -- the parent is init, and the signal is SIGCHLD
    intro z
    left
    have hsig : ¬(update s.exitSignal p sigchld p = sigkill ∨
        update s.exitSignal p sigchld p = sigcont) := by
      rw [update_self]
      decide
    unfold State.sendSig
    rw [if_neg hsig]
  · next hinit =>
    refine (sendSig_cleared s _ _).mono ?_
    rintro z ⟨rfl, -⟩
    exact ⟨rfl, hinit⟩

theorem tasks_congr (h : s'.nextTask = s.nextTask) : s'.tasks = s.tasks := by
  have hgo : ∀ n x, State.tasks.go s' n x = State.tasks.go s n x := by
    intro n
    induction n with
    | zero => exact fun _ => rfl
    | succ n ih =>
      intro x
      unfold State.tasks.go
      rw [ih, h]
  unfold State.tasks
  rw [h]
  exact hgo _ _

theorem Quiet.tasks_eq (h : Quiet s s') : s'.tasks = s.tasks := tasks_congr h.nextTask

theorem wakeOrphans_cleared (s : State) (pgrp : ℕ) :
    Cleared (fun z => z ∈ s.tasks ∧ s.pgrp z = pgrp ∧ s.isOrphanedPgrp pgrp = true ∧
      s.hasStoppedJobs pgrp = true) s (s.wakeOrphans pgrp) := by
  unfold State.wakeOrphans
  split
  · next hwake =>
    obtain ⟨horphan, hstopped⟩ := Bool.and_eq_true_iff.mp hwake
    have hquiet := killPg_quiet s pgrp sighup
    refine Cleared.trans ((killPg_cleared s pgrp sighup).mono ?_)
      ((killPg_cleared _ pgrp sigcont).mono ?_)
    · rintro z ⟨hz, hg, -⟩
      exact ⟨hz, hg, horphan, hstopped⟩
    · rintro z ⟨hz, hg, -⟩
      rw [hquiet.tasks_eq] at hz
      rw [hquiet.pgrp] at hg
      exact ⟨hz, hg, horphan, hstopped⟩
  · exact Cleared.refl _ s

/-- `do_exit` of `t`, begun in `s0`, has reached `s`: what is still as it was, for the check of
orphaned groups. -/
structure During (s0 s : State) (t : Tid) : Prop where
  task : s.task = s0.task
  nextTask : s.nextTask = s0.nextTask
  pgrp : s.pgrp = s0.pgrp
  session : s.session = s0.session
  pptr : ∀ q, s.pptr q = s0.pptr q ∨ s0.pptr q = t
  dead : s.state t = .zombie
  state : ∀ q, q ≠ t → s.state q = s0.state q ∨ s0.state q = .stopped ∧ s.state q = .running

theorem During.quiet (h : During s0 s t) (hq : Quiet s s') : During s0 s' t := by
  refine ⟨hq.task.trans h.task, hq.nextTask.trans h.nextTask, hq.pgrp.trans h.pgrp,
    hq.session.trans h.session, by rw [hq.pptr]; exact h.pptr, (hq.zombie_iff t).mpr h.dead, ?_⟩
  intro q hqt
  rcases h.state q hqt with h1 | ⟨h1, h2⟩
  · rw [← h1]
    exact hq.state q
  · rcases hq.state q with h3 | ⟨h3, -⟩
    · exact Or.inr ⟨h1, h3.trans h2⟩
    · rw [h2] at h3
      exact absurd h3 (by decide)

theorem During.orphans (h : During s0 s t) {pgrp : ℕ} (hd : s0.Disconnects t pgrp)
    (horphan : s.isOrphanedPgrp pgrp = true) (hstopped : s.hasStoppedJobs pgrp = true) :
    s0.Orphans t pgrp := by
  have htasks := tasks_congr h.nextTask
  refine ⟨hd, ?_, ?_⟩
  · intro q hq hqt hg hz hinit hparent
    have hall := List.all_eq_true.mp horphan q (htasks ▸ hq)
    have hpptr : s.pptr q = s0.pptr q := (h.pptr q).resolve_right hparent
    have hz' : s.state q ≠ .zombie := by
      rcases h.state q hqt with heq | ⟨-, heq⟩
      · rw [heq]
        exact hz
      · rw [heq]
        decide
    by_contra hcon
    push Not at hcon
    obtain ⟨hne, hses⟩ := hcon
    simp [h.pgrp, h.session, hpptr, hg, hz', hinit, hne, hses] at hall
  · obtain ⟨q, hq, hboth⟩ := List.any_eq_true.mp hstopped
    simp only [Bool.and_eq_true, decide_eq_true_eq] at hboth
    obtain ⟨hg, hs⟩ := hboth
    have hqt : q ≠ t := by
      rintro rfl
      rw [h.dead] at hs
      exact absurd hs (by decide)
    refine ⟨q, htasks ▸ hq, hqt, h.pgrp ▸ hg, ?_⟩
    rcases h.state q hqt with heq | ⟨-, heq⟩
    · exact heq.symm.trans hs
    · rw [hs] at heq
      exact absurd heq (by decide)

theorem During.wakeOrphans (h : During s0 s t) {pgrp : ℕ} (hd : s0.Disconnects t pgrp) :
    Cleared (fun z => z ∈ s0.tasks ∧ s0.Orphans t (s0.pgrp z)) s (s.wakeOrphans pgrp) := by
  refine (wakeOrphans_cleared s pgrp).mono ?_
  rintro z ⟨hz, hg, horphan, hstopped⟩
  rw [tasks_congr h.nextTask] at hz
  rw [h.pgrp] at hg
  rw [hg]
  exact ⟨hz, h.orphans hd horphan hstopped⟩

def State.Woken (s : State) (t z : Tid) : Prop :=
  z ∈ s.tasks ∧ s.Orphans t (s.pgrp z) ∨ z = initTask

theorem heir_eq_initTask (s : State) (t : Tid) (h : s.task 1 ≠ some (s.heir t)) :
    s.heir t = initTask := by
  cases htask : s.task 1 with
  | none =>
    unfold State.heir
    rw [htask]
  | some p =>
    by_cases hp : p = t
    · unfold State.heir
      rw [htask]
      exact if_neg (not_not.mpr hp)
    · have hheir : s.heir t = p := by
        unfold State.heir
        rw [htask]
        exact if_pos hp
      rw [hheir] at h
      exact absurd htask h

theorem During.relink (h : During s0 s t) (hp : s.pptr p = t) (q o : Tid) :
    During s0 (s.relink t p q o) t := by
  refine ⟨h.task, h.nextTask, h.pgrp, h.session, ?_, h.dead, h.state⟩
  intro x
  by_cases hx : x = p
  · right
    rcases h.pptr p with heq | heq
    · rw [hx, ← heq, hp]
    · rw [hx, heq]
  · have hkept : (s.relink t p q o).pptr x = s.pptr x := update_of_ne hx ..
    rw [hkept]
    exact h.pptr x

theorem During.signalMoved (h : During s0 s t) (hp : p ∈ s0.tasks) (hpt : s0.pptr p = t)
    (hheir : s.pptr p = s.heir t) : Cleared (s0.Woken t) s (s.signalMoved t p) := by
  unfold State.signalMoved
  dsimp only
  have hnotify : Cleared (s0.Woken t) s (if s.state p = .zombie then s.notifyParent p else s) ∧
      Quiet s (if s.state p = .zombie then s.notifyParent p else s) := by
    split
    · refine ⟨(notifyParent_cleared s p).mono ?_, notifyParent_quiet s p⟩
      rintro z ⟨rfl, hz⟩
      rw [hheir] at hz ⊢
      exact Or.inr (heir_eq_initTask s t hz)
    · exact ⟨Cleared.refl _ s, Quiet.refl s⟩
  obtain ⟨hcleared, hquiet⟩ := hnotify
  refine hcleared.trans ?_
  have hmid := h.quiet hquiet
  revert hmid
  generalize (if s.state p = .zombie then s.notifyParent p else s) = s1
  intro hmid
  split
  · next hg =>
    obtain ⟨hne, hses⟩ := hg
    rw [hmid.pgrp] at hne
    rw [hmid.session] at hses
    have hd : s0.Disconnects t (s1.pgrp p) := by
      rw [hmid.pgrp]
      exact Or.inr ⟨p, hp, hpt, rfl, hne.symm, hses⟩
    exact (hmid.wakeOrphans hd).mono fun z hz => Or.inl hz
  · exact Cleared.refl _ _

theorem During.adoptAll (n : ℕ) (h : During s0 s t) (hring : s0.tasks = ring)
    (ha : Adopting s P ring kids t rest) (hh : P (s.heir t)) (hne : s.heir t ≠ t)
    (hchild : rest ≠ [] → s.cptr (s.heir t) ≠ none) (hoops : s.oops = false) :
    Cleared (s0.Woken t) s (State.adoptAll t n s) := by
  induction n generalizing s kids rest with
  | zero => exact Cleared.refl _ s
  | succ n ih =>
    cases rest with
    | nil =>
      rw [ha.adoptAll_nil]
      exact Cleared.refl _ s
    | cons p rest =>
      obtain ⟨hp, hpt⟩ := (ha.mem_rest p).mp (List.mem_cons_self ..)
      obtain ⟨o, hround, hbeside, hnext, hchild', heq⟩ := ha.round hh hne (hchild (by simp)) hoops n
      have hheir := hbeside.heir_eq t
      have hquiet := signalMoved_quiet (s.relink t p (s.heir t) o) t p
      have hmoved := h.relink hpt (s.heir t) o
      have hcleared : Cleared (s0.Woken t) s
          ((s.relink t p (s.heir t) o).signalMoved t p) := by
        refine Cleared.trans (Cleared.of_eq rfl) (hmoved.signalMoved (hring ▸ hp) ?_ ?_)
        · rcases h.pptr p with heq | heq
          · exact heq.symm.trans hpt
          · exact heq
        · have hnew : (s.relink t p (s.heir t) o).pptr p = s.heir t := update_self ..
          exact hnew
      rw [← hround] at hquiet hcleared
      rw [heq]
      exact hcleared.trans (ih (hmoved.quiet hquiet) hnext (by rw [hheir]; exact hh)
        (by rw [hheir]; exact hne) (fun _ => hchild') (hbeside.oops.trans hoops))

theorem hangUp_cleared (s : State) (ctty : Option ℕ) :
    Cleared (fun z => z ∈ s.tasks ∧ ctty = some (s.pgrp z)) s (s.hangUp ctty) := by
  unfold State.hangUp
  split
  · next pgrp =>
    split
    · exact Cleared.refl _ s
    · have hquiet := killPg_quiet s pgrp sighup
      refine Cleared.trans ((killPg_cleared s pgrp sighup).mono ?_)
        ((killPg_cleared _ pgrp sigcont).mono ?_)
      · rintro z ⟨hz, hg, -⟩
        exact ⟨hz, by rw [hg]⟩
      · rintro z ⟨hz, hg, -⟩
        rw [hquiet.tasks_eq] at hz
        rw [hquiet.pgrp] at hg
        exact ⟨hz, by rw [hg]⟩
  · exact Cleared.refl _ s

/-- Whose exit codes the signals of `do_exit` clear: members of the groups that it orphans and of
the group of the terminal, the task 0, and a parent that is not init. -/
def State.HitBy (s : State) (t : Tid) (ctty : Option ℕ) (z : Tid) : Prop :=
  z ∈ s.tasks ∧ (s.Orphans t (s.pgrp z) ∨ ctty = some (s.pgrp z)) ∨ z = initTask ∨
    z = s.pptr t ∧ z ≠ initProcess

theorem During.announce (h : During s0 s t) (hpptr : s.pptr t = s0.pptr t)
    (hinit : s0.task 1 = some initProcess) (ctty : Option ℕ) :
    Cleared (s0.HitBy t ctty) s (s.announce t) := by
  have hwake : Cleared (s0.HitBy t ctty) s (if s.pgrp (s.pptr t) ≠ s.pgrp t ∧
        s.session (s.pptr t) = s.session t then s.wakeOrphans (s.pgrp t) else s) ∧
      Quiet s (if s.pgrp (s.pptr t) ≠ s.pgrp t ∧
        s.session (s.pptr t) = s.session t then s.wakeOrphans (s.pgrp t) else s) := by
    split
    · next hg =>
      rw [h.pgrp, h.session, hpptr] at hg
      refine ⟨(h.wakeOrphans (Or.inl ⟨?_, ?_, hg.2⟩)).mono ?_, wakeOrphans_quiet s _⟩
      · rw [h.pgrp]
      · rw [h.pgrp]
        exact hg.1
      · rintro z ⟨hz, horphan⟩
        exact Or.inl ⟨hz, Or.inl horphan⟩
    · exact ⟨Cleared.refl _ s, Quiet.refl s⟩
  obtain ⟨hcleared, hquiet⟩ := hwake
  refine hcleared.trans ((notifyParent_cleared _ t).mono ?_)
  rintro z ⟨hz, hne⟩
  rw [hquiet.pptr, hpptr] at hz
  rw [hquiet.task, h.task, hinit] at hne
  exact Or.inr (Or.inr ⟨hz, fun heq => hne (by rw [heq])⟩)

theorem exit_cleared (h : LinkInv s ring kids) (ht : s.Used t) (hne : t ≠ initTask)
    (hoops : s.oops = false) (hchild : s.cptr t ≠ none → s.cptr (s.heir t) ≠ none) (code : ℕ)
    (ctty : Option ℕ) :
    Cleared (s.HitBy t ctty) (s.markDead t code) (s.exit t code ctty) := by
  have hbegin : During s (s.markDead t code) t := by
    refine ⟨rfl, rfl, rfl, rfl, fun _ => Or.inl rfl, update_self .., fun q hq => ?_⟩
    exact Or.inl (update_of_ne hq ..)
  have hannounce := hbegin.announce rfl h.task_one ctty
  have hquiet := announce_quiet (s.markDead t code) t
  have hmid := hbegin.quiet hquiet
  set s1 := (s.markDead t code).announce t with hs1
  have hmark : LinkInv (s.markDead t code) ring kids := h.congr rfl rfl rfl rfl rfl rfl rfl rfl
  have h₁ : LinkInv s1 ring kids := hmark.quiet hquiet
  have hheir : s1.heir t = s.heir t := by rw [h₁.heir_eq, h.heir_eq]
  have hused : s1.Used t := (used_congr hquiet.task t).mpr ht
  have hchild' : kids t ≠ [] → s1.cptr (s1.heir t) ≠ none := by
    intro hk
    rw [hheir, hquiet.cptr]
    refine hchild ?_
    rw [← (h.forest.chained t ht).head]
    simpa using hk
  have hoops1 := hquiet.oops.trans hoops
  have hloop := hmid.adoptAll nrTasks h.tasks_eq (h₁.forest.adopting hused) (h₁.heir_used t)
    (h₁.heir_ne hne) hchild' hoops1
  obtain ⟨-, -, -, hbeside, -⟩ := h₁.forest.adoptAll hused (h₁.heir_used t) (h₁.heir_ne hne)
    (by rw [hheir, hquiet.cptr]; exact hchild) (h₁.kids_length hused) hoops1
  refine (hannounce.trans (hloop.mono ?_)).trans ((hangUp_cleared _ ctty).mono ?_)
  · rintro z (⟨hz, horphan⟩ | hz)
    · exact Or.inl ⟨hz, Or.inl horphan⟩
    · exact Or.inr (Or.inl hz)
  · rintro z ⟨hz, hg⟩
    rw [tasks_congr (hbeside.nextTask.trans hmid.nextTask)] at hz
    rw [hbeside.pgrp, hmid.pgrp] at hg
    exact Or.inl ⟨hz, Or.inr hg⟩

end

end LinuxKernel.Process
