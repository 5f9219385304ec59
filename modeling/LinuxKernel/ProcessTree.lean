import LinuxKernel.ParentChain
import LinuxKernel.ProcessAudit

/-!
# The tree of parents

As long as no task is moved below itself, the parents form a tree.  Only init is a child of the
task 0, so every other task is below init; hence init has a child whenever some other task exits,
and `do_exit` can link the children to it.
-/

namespace LinuxKernel.Process
open Function

open ParentChain

/-- The parents form a tree, in which only init is directly below the task 0. -/
structure Rooted (s : State) : Prop where
  reaches : ∀ t, s.Used t → Reaches s.pptr initTask t
  top : ∀ t, s.Used t → s.pptr t = initTask → t = initTask ∨ t = initProcess
  origin : ∀ t, s.Used t → s.opptr t = initTask → t = initTask ∨ t = initProcess

section

variable {s s' : State} {ring : List Tid} {kids : Tid → List Tid} {p q t u : Tid}

theorem Rooted.mono (h : Rooted s) (hused : ∀ t, s'.Used t → s.Used t) (hpptr : s'.pptr = s.pptr)
    (hopptr : s'.opptr = s.opptr) : Rooted s' := by
  refine ⟨?_, ?_, ?_⟩
  · intro t ht
    rw [hpptr]
    exact h.reaches t (hused t ht)
  · intro t ht
    rw [hpptr]
    exact h.top t (hused t ht)
  · intro t ht
    rw [hopptr]
    exact h.origin t (hused t ht)

theorem Rooted.quiet (h : Rooted s) (hq : Quiet s s') : Rooted s' :=
  h.mono (fun t ht => (used_congr hq.task t).mp ht) hq.pptr hq.opptr

theorem LinkInv.above_used (h : LinkInv s ring kids) (hu : s.Used u) (hr : Reaches s.pptr t u) :
    s.Used t := by
  refine hr.closed (fun a ha => ?_) hu
  rcases (h.used_iff a).mp ha with rfl | hmem
  · rw [h.idle.1]
    exact ha
  · exact h.forest.pptr a hmem

theorem LinkInv.eq_of_leaf (h : LinkInv s ring kids) (ht : t ≠ initTask)
    (hleaf : ∀ x ∈ ring, s.pptr x ≠ t) (hu : s.Used u) (hr : Reaches s.pptr t u) : u = t := by
  by_contra hne
  obtain ⟨y, hy, -, hyt⟩ := hr.last hne
  rcases (h.used_iff y).mp (h.above_used hu hy) with rfl | hmem
  · exact ht (hyt.symm.trans h.idle.1)
  · exact hleaf y hmem hyt

section
variable (h : Rooted s) (hl : LinkInv s ring kids)
include h hl

theorem Rooted.child_of_init (ht : s.Used t) (hti : t ≠ initTask) (htp : t ≠ initProcess) :
    s.cptr initProcess ≠ none := by
  obtain ⟨y, hy, hyi, hytop⟩ := (h.reaches t ht).last hti
  have hinit : y = initProcess := (h.top y (hl.above_used ht hy) hytop).resolve_left hyi
  subst hinit
  obtain ⟨z, hz, -, hzp⟩ := hy.last htp
  have hused := hl.above_used ht hz
  have hzi : z ≠ initTask := by
    rintro rfl
    rw [hl.idle.1] at hzp
    exact absurd hzp (by decide)
  have hmem := (hl.forest.mem_kids _ hl.used_initProcess z).mpr ⟨hl.mem_ring_of_used hused hzi, hzp⟩
  intro hnone
  have hhead := (hl.forest.chained _ hl.used_initProcess).head
  rw [hnone, List.head?_eq_none_iff] at hhead
  rw [hhead] at hmem
  simp at hmem

omit h hl in
theorem Rooted.opptr_ne (h : Rooted s) (hp : s.Used p) (hpi : p ≠ initTask)
    (hpp : p ≠ initProcess) : s.opptr p ≠ initTask := by
  intro heq
  rcases h.origin p hp heq with hi | hi
  · exact hpi hi
  · exact hpp hi

omit h hl in
theorem Rooted.moveTo (h : Rooted s) (hq : s.Used q) (hqi : q ≠ initTask)
    (hbelow : ¬Reaches s.pptr p q) : Rooted (s.moveTo p q) := by
  have hpptr := moveTo_pptr s p q
  refine ⟨?_, ?_, h.origin⟩
  · intro t ht
    refine (h.reaches t ht).move (h.reaches q hq) hbelow ?_ ?_
    · rw [hpptr, if_pos rfl]
    · intro a ha
      rw [hpptr, if_neg ha]
  · intro t ht htop
    rw [hpptr] at htop
    split at htop
    · exact absurd htop hqi
    · exact h.top t ht htop

theorem Rooted.fork {nr : ℕ} (ht : s.Runs t) (hp : ¬s.Used p) (hlt : nr < nrTasks)
    (hfree : s.task nr = none) : Rooted (s.fork t p nr) := by
  have hpptr : ∀ u, (s.fork t p nr).pptr u = if u = p then t else s.pptr u :=
    update_apply s.pptr p t
  have hopptr : ∀ u, (s.fork t p nr).opptr u = if u = p then t else s.opptr u :=
    update_apply s.opptr p t
  have hused := fork_used (t := t) (p := p) hlt hfree
  have hold : ∀ u, s.Used u → Reaches (s.fork t p nr).pptr initTask u := by
    intro u hu
    refine (h.reaches u hu).avoid (fun hr => hp (hl.above_used hu hr)) fun a ha => ?_
    rw [hpptr, if_neg ha]
  refine ⟨?_, ?_, ?_⟩
  · intro u hu
    rcases (hused u).mp hu with hu | rfl
    · exact hold u hu
    · refine Reaches.head ?_
      rw [hpptr, if_pos rfl]
      exact hold t ht.1
  · intro u hu htop
    rw [hpptr] at htop
    split at htop
    · exact absurd htop ht.2.1
    · next hup => exact h.top u (((hused u).mp hu).resolve_right hup) htop
  · intro u hu htop
    rw [hopptr] at htop
    split at htop
    · exact absurd htop ht.2.1
    · next hup => exact h.origin u (((hused u).mp hu).resolve_right hup) htop

theorem Rooted.forget : Rooted (s.forgetOriginalParent t) := by
  refine ⟨h.reaches, h.top, ?_⟩
  intro u hu htop
  unfold State.forgetOriginalParent at htop
  dsimp only at htop
  rw [hl.task_one] at htop
  split at htop
  · exact absurd htop (by decide)
  · exact h.origin u hu htop

theorem Rooted.exit (ht : s.Used t) (hti : t ≠ initTask) (htp : t ≠ initProcess)
    (hoops : s.oops = false) (code : ℕ) (ctty : Option ℕ) : Rooted (s.exit t code ctty) := by
  have hheir : s.heir t = initProcess := by rw [hl.heir_eq, if_pos htp.symm]
  have hchild : s.cptr t ≠ none → s.cptr (s.heir t) ≠ none := by
    intro _
    rw [hheir]
    exact h.child_of_init hl ht hti htp
  obtain ⟨kids', -, hbeside, hpptr⟩ := exit_spec hl ht hti hoops hchild code ctty
  rw [hheir] at hpptr
  have hused : ∀ u, (s.exit t code ctty).Used u ↔ s.Used u := used_congr hbeside.task
  have hopptr : (s.exit t code ctty).opptr = s.opptr := hbeside.opptr
  -- init itself stays below the task 0
  have hinit : (s.exit t code ctty).pptr initProcess = initTask := by
    rw [hpptr, hl.init, if_neg]
    rintro ⟨-, heq⟩
    exact hti heq.symm
  refine ⟨?_, ?_, ?_⟩
  · intro u hu
    refine (h.reaches u ((hused u).mp hu)).redirect fun a => ?_
    rw [hpptr]
    split
    · refine Or.inr (Reaches.head ?_)
      rw [hinit]
      exact Reaches.refl _ _
    · exact Or.inl rfl
  · intro u hu htop
    rw [hpptr] at htop
    split at htop
    · exact absurd htop (by decide)
    · exact h.top u ((hused u).mp hu) htop
  · rw [hopptr]
    intro u hu
    exact h.origin u ((hused u).mp hu)

theorem Rooted.reap (hph : PhaseInv s ring) (hp : s.Used p) (hpi : p ≠ initTask)
    (hpp : p ≠ initProcess) (hz : s.state p = .zombie) : Rooted (s.reap p) := by
  unfold State.reap
  split
  · obtain ⟨code, hdead⟩ := hph.zombie p hp hz
    have hpr := hl.mem_ring_of_used hp hpi
    have hq := hl.opptr p hpr
    refine Rooted.quiet (h.moveTo hq (h.opptr_ne hp hpi hpp) ?_) (notifyParent_quiet _ p)
    · -- a zombie has no children, and is not its own original parent
      intro hr
      exact hph.forgot p code hpp (Or.inr hdead) hp p hpr
        (hl.eq_of_leaf hpi (hph.dead p code hpp hdead hp) hq hr)
  · unfold State.release
    split
    · exact h.mono (removeLinks_used s p · _) rfl rfl
    · exact h.mono (fun _ ht => ht) rfl rfl

end

/-- The condition on the steps: no task is attached to one below it, or given back to an original
parent below it; init does not exit; and what the links need besides. -/
def Event.TreeOk (s : State) : Event → Prop
  | .attach t p => s.Runs t → p ≠ initTask → p ≠ initProcess → p ≠ t → s.ptraced p = false →
    ¬Reaches s.pptr p t
  | .detach t p _ => s.Traces t p → s.state p = .stopped → ¬Reaches s.pptr p (s.opptr p)
  | .die t _ => ∀ code, s.pc t = .exiting true code → t ≠ initProcess
  | e => e.Ok s

theorem step_rooted (h : Rooted s) (hi : Inv s) {e : Event} (hok : e.TreeOk s) :
    Rooted (step s e) := by
  obtain ⟨ring, kids, hl, hp⟩ := id hi
  have hsame : ∀ {s' : State}, s'.task = s.task → s'.pptr = s.pptr → s'.opptr = s.opptr →
      Rooted s' := fun ht => h.mono fun t hu => (used_congr ht t).mp hu
  cases e with
  | fork t p nr =>
    simp only [step]
    split
    · next hg =>
      obtain ⟨hrun, hfree, -, -, hlt, hslot⟩ := hg
      exact h.fork hl hrun hfree hlt hslot
    · exact h
  | forkFail t =>
    simp only [step]
    split
    · next p nr hpc => exact h.mono (removeLinks_used s p · nr) rfl rfl
    · exact h
  | forget t =>
    simp only [step]
    split
    · exact Rooted.mono (h.forget hl) (fun _ ht => ht) rfl rfl
    · exact h
  | die t ctty =>
    simp only [step]
    split
    · next code hpc =>
      have hawake : Awake s t := hp.awake_of_pc (by rw [hpc]; simp) (by rw [hpc]; simp)
      exact h.exit hl hawake.used hawake.ne (hok code hpc) hp.oops code ctty
    · exact h
  | waitEnd t =>
    simp only [step]
    split
    · next p v hpc =>
      obtain ⟨hu, hz⟩ := hok p v hpc
      obtain ⟨hpp, hpi⟩ := hp.reaping t p v hpc
      exact Rooted.mono (h.reap hl hp hu hpi hpp hz) (fun _ ht => ht) rfl rfl
    · exact h
  | attach t p =>
    simp only [step]
    split
    · next hg =>
      obtain ⟨hrun, hu, hpi, hpp, hpt, hfree⟩ := hg
      split
      · have hbase : Rooted { s with ptraced := update s.ptraced p true } := hsame rfl rfl rfl
        exact hbase.moveTo hrun.1 hrun.2.1 (hok hrun hpi hpp hpt hfree)
      · exact hsame rfl rfl rfl
    · exact h
  | detach t p data =>
    simp only [step]
    split
    · next hg =>
      obtain ⟨htr, hstopped⟩ := hg
      obtain ⟨-, hu, hpi, hpp, -, -⟩ := id htr
      have hbase : Rooted { s with
          ptraced := update s.ptraced p false
          state := update s.state p .running
          exitCode := update s.exitCode p data } := hsame rfl rfl rfl
      exact hbase.moveTo (hl.opptr p (hl.mem_ring_of_used hu hpi)) (h.opptr_ne hu hpi hpp)
        (hok htr hstopped)
    · exact h
  | killPg pgrp sig => exact h.quiet (killPg_quiet s pgrp sig)
  | kill p sig =>
    simp only [step]
    split
    · exact h.quiet (sendSig_quiet s sig p)
    · exact h
  | forkEnd t _ | waitStoppedEnd t =>
    simp only [step]
    split
    · exact hsame rfl rfl rfl
    · exact h
  | exitAgain t =>
    simp only [step]
    split
    · split
      · exact hsame rfl rfl rfl
      · exact h
    · exact h
  | exit _ _ | wait _ _ | waitStopped _ _ | traceme _ | cont _ _ _ | ptraceKill _ _ | stop _ _
  | setGroup _ _ _ =>
    simp only [step]
    split
    · exact hsame rfl rfl rfl
    · exact h

theorem Event.TreeOk.ok (h : Rooted s) (hi : Inv s) {e : Event} (hok : e.TreeOk s) : e.Ok s := by
  obtain ⟨ring, kids, hl, hp⟩ := hi
  cases e with
  | die t ctty =>
    intro code hpc _
    have hawake : Awake s t := hp.awake_of_pc (by rw [hpc]; simp) (by rw [hpc]; simp)
    have htp := hok code hpc
    rw [hl.heir_eq, if_pos htp.symm]
    exact h.child_of_init hl hawake.used hawake.ne htp
  | waitEnd _ | ptraceKill _ _ => exact hok
  | fork _ _ _ | forkEnd _ _ | forkFail _ | exit _ _ | forget _ | exitAgain _ | wait _ _
  | waitStopped _ _ | waitStoppedEnd _ | traceme _ | attach _ _ | detach _ _ _ | cont _ _ _
  | kill _ _ | killPg _ _ | stop _ _ | setGroup _ _ _ => trivial

end

def RunTreeOk : State → List Event → Prop
  | _, [] => True
  | s, e :: es => e.TreeOk s ∧ RunTreeOk (step s e) es

theorem run_rooted {s : State} (h : Rooted s) (hi : Inv s) {es : List Event}
    (hok : RunTreeOk s es) : Rooted (run s es) ∧ Inv (run s es) := by
  induction es generalizing s with
  | nil => exact ⟨h, hi⟩
  | cons e es ih => exact ih (step_rooted h hi hok.1) (step_inv hi (hok.1.ok h hi)) hok.2

theorem boot_rooted : Rooted boot := by
  refine ⟨fun t _ => ⟨1, rfl⟩, ?_, ?_⟩
  · intro t ht _
    exact (boot_used t).mp ht
  · intro t ht _
    exact (boot_used t).mp ht

/-- No chain of parents has a cycle before it reaches init or the task 0, and init has a child
when another task is about to give it its own. -/
structure TreeOk (s : State) : Prop where
  oops : s.oops = false
  reaches : ∀ t, s.Used t → ∃ n, s.pptr^[n] t = initProcess ∨ s.pptr^[n] t = initTask
  child : ∀ t code, t ≠ initProcess → s.pc t = .exiting true code → s.cptr t ≠ none →
    s.cptr initProcess ≠ none

/-- The parents form a tree in every run whose steps meet the condition. -/
theorem run_treeOk {es : List Event} (hok : RunTreeOk boot es) : TreeOk (run boot es) := by
  obtain ⟨hrooted, ring, kids, hl, hp⟩ := run_rooted boot_rooted boot_inv hok
  refine ⟨hp.oops, ?_, ?_⟩
  · intro t ht
    obtain ⟨n, hn⟩ := hrooted.reaches t ht
    exact ⟨n, Or.inr hn⟩
  · intro t code htp hpc _
    have hawake := hp.awake_of_pc (by rw [hpc]; simp) (by rw [hpc]; simp)
    exact hrooted.child_of_init hl hawake.used hawake.ne htp

/-- Init attaches to the task 3, and the task 2 exits. -/
theorem run_treeOk_threeTasks :
    TreeOk (run boot (threeTasks ++ [.attach initProcess 3, .exit 2 256, .forget 2, .die 2 none])) ∧
    (run boot (threeTasks ++ [.attach initProcess 3, .exit 2 256, .forget 2,
      .die 2 none])).children initProcess = [3, 2] := by
  refine ⟨run_treeOk ?_, by decide +kernel⟩
  refine ⟨trivial, trivial, trivial, trivial, ?_, trivial, trivial, ?_, trivial⟩
  · intro _ _ _ _ _ hr
    have hmem := hr.closed (fun a (ha : a = initTask ∨ a = initProcess) => ?_) (Or.inr rfl)
    · revert hmem
      decide
    · rcases ha with rfl | rfl <;> exact Or.inl (by decide +kernel)
  · intro _ _
    decide

/-- The task 3 attaches to its parent: each is now the parent of the other.  When it exits, init
has no child. -/
theorem threeTasks_cycle :
    ¬TreeOk (run boot (threeTasks ++ [.attach 3 2])) ∧
      (run boot (threeTasks ++ [.attach 3 2, .exit 3 0, .forget 3, .die 3 none])).oops = true := by
  refine ⟨fun h => ?_, by decide +kernel⟩
  have hclosed : ∀ a, a = 2 ∨ a = 3 → (run boot (threeTasks ++ [.attach 3 2])).pptr a = 2 ∨
      (run boot (threeTasks ++ [.attach 3 2])).pptr a = 3 := by
    rintro a (rfl | rfl)
    · exact Or.inr (by decide +kernel)
    · exact Or.inl (by decide +kernel)
  obtain ⟨n, hn | hn⟩ := h.reaches 2 (by decide +kernel)
  · exact absurd (Reaches.closed ⟨n, hn⟩ hclosed (Or.inl rfl)) (by decide)
  · exact absurd (Reaches.closed ⟨n, hn⟩ hclosed (Or.inl rfl)) (by decide)

end LinuxKernel.Process
