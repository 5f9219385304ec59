import LinuxKernel.ProcessRun

/-!
# What `audit_ptree` looks for

The properties of the links without the lists of the invariant, and the runs in which they hold.
They do not hold in all runs: a task may attach to its own parent, and when it exits `do_exit`
finds that init has no child to link the parent to.
-/

namespace LinuxKernel.Process
open List

open DoublyLinked

/-- The links are those of a tree of tasks, and lead to no task that has been released. -/
structure LinksOk (s : State) : Prop where
  ring : ∃ ring, Ring initTask s.nextTask s.prevTask ring ∧ ∀ t, t ∈ initTask :: ring ↔ s.Used t
  slot : ∀ i j t, i < nrTasks → j < nrTasks → s.task i = some t → s.task j = some t → i = j
  children : ∀ p, s.Used p → Chained (s.cptr p) s.osptr s.ysptr (s.children p) ∧
    ∀ t, t ∈ s.children p ↔ s.Used t ∧ t ≠ initTask ∧ s.pptr t = p
  parents : ∀ t, s.Used t → s.Used (s.pptr t) ∧ s.Used (s.opptr t)
  self : ∀ t, s.Used t → t ≠ initTask → s.pptr t ≠ t
  siblings : ∀ t, s.Used t → ∀ u, s.cptr t = some u ∨ s.ysptr t = some u ∨ s.osptr t = some u →
    s.Used u

section

variable {s : State} {ring : List Tid} {kids : Tid → List Tid} {p t u : Tid}

theorem LinkInv.sibling_used (h : LinkInv s ring kids) (ht : s.Used t)
    (hu : s.ysptr t = some u ∨ s.osptr t = some u) : s.Used u := by
  rcases (h.used_iff t).mp ht with rfl | hmem
  · rcases hu with hu | hu
    · rw [h.forest.idle.2] at hu
      simp at hu
    · rw [h.forest.idle.1] at hu
      simp at hu
  · have hparent := h.forest.pptr t hmem
    obtain ⟨k1, k2, hsplit⟩ := h.forest.split_kids hmem
    have hchain := h.forest.chained _ hparent
    have hin : u ∈ kids (s.pptr t) := by
      rw [hsplit] at hchain ⊢
      rcases hu with hu | hu
      · rw [hchain.prev_eq] at hu
        exact mem_append_left _ (mem_of_getLast? hu)
      · rw [hchain.next_eq] at hu
        exact mem_append_right _ (mem_cons_of_mem _ (mem_of_mem_head? hu))
    exact (h.used_iff u).mpr (.inr ((h.forest.mem_kids _ hparent u).mp hin).1)

theorem LinkInv.mem_children (h : LinkInv s ring kids) (hp : s.Used p) (t : Tid) :
    t ∈ s.children p ↔ s.Used t ∧ t ≠ initTask ∧ s.pptr t = p := by
  rw [h.children_eq hp, h.forest.mem_kids p hp]
  constructor
  · rintro ⟨ht, hpt⟩
    refine ⟨(h.used_iff t).mpr (.inr ht), ?_, hpt⟩
    rintro rfl
    exact h.forest.initTask_notMem ht
  · rintro ⟨ht, hne, hpt⟩
    exact ⟨h.mem_ring_of_used ht hne, hpt⟩

theorem Inv.linksOk (h : Inv s) : LinksOk s := by
  obtain ⟨ring, kids, hl, -⟩ := h
  refine ⟨⟨ring, hl.forest.closed, fun t => ?_⟩, hl.inj, ?_, ?_, ?_, ?_⟩
  · rw [mem_cons, hl.used_iff]
  · intro p hp
    refine ⟨?_, hl.mem_children hp⟩
    rw [hl.children_eq hp]
    exact hl.forest.chained p hp
  · intro t ht
    rcases (hl.used_iff t).mp ht with rfl | hmem
    · rw [hl.idle.1, hl.idle.2]
      exact ⟨ht, ht⟩
    · exact ⟨hl.forest.pptr t hmem, hl.opptr t hmem⟩
  · intro t ht hne
    exact (hl.self t (hl.mem_ring_of_used ht hne)).1
  · rintro t ht u (hc | hsib)
    · have hhead : (kids t).head? = some u := (hl.forest.chained t ht).head.trans hc
      have hmem := (hl.forest.mem_kids t ht u).mp (mem_of_mem_head? hhead)
      exact (hl.used_iff u).mpr (.inr hmem.1)
    · exact hl.sibling_used ht hsib

end

theorem boot_task {i : ℕ} {t : Tid} (h : boot.task i = some t) :
    i = 0 ∧ t = initTask ∨ i = 1 ∧ t = initProcess := by
  unfold boot at h
  dsimp only at h
  split at h
  · next hi => exact .inl ⟨hi, (Option.some.inj h).symm⟩
  · split at h
    · next hi => exact .inr ⟨hi, (Option.some.inj h).symm⟩
    · simp at h

theorem boot_used (t : Tid) : boot.Used t ↔ t = initTask ∨ t = initProcess := by
  constructor
  · rintro ⟨i, -, hi⟩
    rcases boot_task hi with ⟨-, ht⟩ | ⟨-, ht⟩
    · exact .inl ht
    · exact .inr ht
  · rintro (rfl | rfl)
    · exact ⟨0, by decide, rfl⟩
    · exact ⟨1, by decide, rfl⟩

theorem boot_forest :
    Forest boot boot.Used [initProcess] fun p => if p = initTask then [initProcess] else [] := by
  refine ⟨⟨?_, by decide⟩, ?_, ?_, ?_, rfl, rfl⟩
  · simp [boot, initTask, initProcess]
  · intro p hp
    rcases (boot_used p).mp hp with rfl | rfl
    · exact ⟨rfl, by simp [initTask], by simp [boot], by simp [boot], by simp [initTask]⟩
    · exact chained_nil _ _
  · intro p _ t
    change t ∈ _ ↔ t ∈ _ ∧ initTask = p
    split
    · next hp => simp [hp]
    · next hp => simp [Ne.symm hp]
  · intro t _
    exact (boot_used _).mpr (.inl rfl)

theorem boot_inv : Inv boot := by
  refine ⟨_, _, ⟨boot_forest, rfl, rfl, ?_, ?_, ?_, ⟨rfl, rfl⟩, rfl, ?_⟩,
    ⟨rfl, rfl, fun _ => .inl rfl, ?_, ?_, ?_, ?_, ?_, ?_, ?_⟩⟩
  · intro t
    rw [mem_singleton]
    constructor
    · rintro rfl
      exact ⟨1, le_rfl, by decide, rfl⟩
    · rintro ⟨i, hi, -, ht⟩
      rcases boot_task ht with ⟨rfl, -⟩ | ⟨-, h⟩
      · exact absurd hi (by decide)
      · exact h
  · intro i j t _ _ hi hj
    rcases boot_task hi with ⟨rfl, rfl⟩ | ⟨rfl, rfl⟩ <;>
      rcases boot_task hj with ⟨rfl, h⟩ | ⟨rfl, h⟩ <;> first | rfl | exact absurd h (by decide)
  · intro t _
    exact (boot_used _).mpr (.inl rfl)
  · simp [boot, initTask, initProcess]
  all_goals simp [boot]

def RunOk : State → List Event → Prop
  | _, [] => True
  | s, e :: es => e.Ok s ∧ RunOk (step s e) es

theorem run_inv {s : State} (h : Inv s) {es : List Event} (hok : RunOk s es) : Inv (run s es) := by
  induction es generalizing s with
  | nil => exact h
  | cons e es ih => exact ih (step_inv h hok.1) hok.2

/-- The links are in order in every run whose steps meet the condition. -/
theorem run_linksOk {es : List Event} (hok : RunOk boot es) : LinksOk (run boot es) :=
  (run_inv boot_inv hok).linksOk

def threeTasks : List Event :=
  [.fork initProcess 2 2, .forkEnd initProcess sigchld, .fork 2 3 3, .forkEnd 2 sigchld]

/-- The task 2 exits, its child goes to init, and init waits for the task 2. -/
theorem run_linksOk_threeTasks :
    LinksOk (run boot (threeTasks ++ [.exit 2 256, .forget 2, .die 2 none, .wait initProcess 2,
      .waitEnd initProcess])) ∧
    (run boot (threeTasks ++ [.exit 2 256, .forget 2, .die 2 none, .wait initProcess 2,
      .waitEnd initProcess])).children initProcess = [3] := by
  refine ⟨run_linksOk ?_, by decide +kernel⟩
  refine ⟨trivial, trivial, trivial, trivial, trivial, trivial, ?_, trivial, ?_, trivial⟩
  · intro _ _ _
    decide +kernel
  · intro p v hpc
    have hpc' : Pc.reaping 2 256 = .reaping p v := by
      rw [← hpc]
      decide +kernel
    obtain ⟨rfl, rfl⟩ : 2 = p ∧ 256 = v := by simpa using hpc'
    decide +kernel

/-- The task 3 attaches to its parent and exits.  Init has no child then, and `do_exit` follows
the NULL pointer: its child has got init as its parent and is not in the list of init. -/
theorem threeTasks_links_broken :
    (run boot (threeTasks ++ [.attach 3 2, .exit 3 0, .forget 3, .die 3 none])).oops = true ∧
      ¬LinksOk (run boot (threeTasks ++ [.attach 3 2, .exit 3 0, .forget 3, .die 3 none])) := by
  refine ⟨by decide +kernel, fun h => ?_⟩
  have hmem := (h.children initProcess (by decide +kernel)).2 2
  have hin := hmem.mpr (by decide +kernel)
  revert hin
  decide +kernel

end LinuxKernel.Process
