import LinuxKernel.SharedMemoryAttach
import Mathlib

/-!
# Runs of the shared memory calls

Every step keeps the attach count exact as long as it stays within its type, and
then a segment is destroyed only when it is marked and attached nowhere.
-/

namespace LinuxKernel.SharedMemory

variable {Task : Type} [Fintype Task] [DecidableEq Task]

def incOf (s : Shm Task) (id : ℕ) : Event Task → ℕ
  | .wake t true _ =>
    match s.sleep t with
    | some (.shmat shp id' shmid _ _) =>
      if s.shmSegs id' = .seg shp ∧ (s.segs shp).seq = shmid / shmmni ∧ id' = id then 1 else 0
    | some (.shmFork _ shmd newDesc) =>
      if shmd.length ≤ 1 then s.listed id (shmd ++ newDesc) else 0
    | _ => 0
  | _ => 0

def StepFits (s : Shm Task) (e : Event Task) : Prop :=
  ∀ id shp, s.shmSegs id = .seg shp → (s.segs shp).shmNattch + incOf s id e ≤ 32767

variable {s : Shm Task} {t : Task}

theorem Counted.newDesc (h : Counted s) (hrunning : s.tasks t = .running)
    (d : ShmDesc Task) : Counted (s.newDesc d) := by
  have hheld : ∀ id, (s.newDesc d).held id t = s.held id t := by
    intro id
    change (s.newDesc d).listed id (s.shm t) + _ = _
    rw [listed_congr fun a ha => newDesc_of_lt s d (h.fresh t a ha)]
    rfl
  apply h.change t
  · rfl
  · rfl
  · rfl
  · exact Nat.le_succ _
  · exact fun a ha => newDesc_of_lt s d ha
  · exact fun _ _ => ⟨rfl, rfl⟩
  · exact hrunning
  · intro id shp _
    rw [hheld]
    rfl
  · exact h.nattch_le
  · intro id hpos
    rw [hheld] at hpos
    exact h.live id t hpos
  · intro a ha
    exact Nat.lt_succ_of_lt (h.fresh t a ha)
  · intro w hw
    have hok := h.calls t w hw
    cases w with
    | newseg id size second => exact hok
    | shmat shp id shmid addr readOnly => exact hok
    | shmMap shmd shp id =>
      obtain ⟨hslot, hlt, hid⟩ := hok
      refine ⟨hslot, Nat.lt_succ_of_lt hlt, ?_⟩
      rw [newDesc_of_lt s d hlt]
      exact hid
    | detach shmd shp id after => exact hok
    | killseg shp after => exact hok
    | shmFork child shmd newDesc =>
      obtain ⟨hembryo, hshmd, hnew⟩ := hok
      refine ⟨hembryo, hshmd, ?_⟩
      intro a ha
      obtain ⟨hlt, a', ha', hid⟩ := hnew a ha
      refine ⟨Nat.lt_succ_of_lt hlt, a', ha', ?_⟩
      rw [newDesc_of_lt s d hlt, newDesc_of_lt s d (h.fresh t a' ha')]
      exact hid
  · intro w c hw hc
    exact Or.inl ⟨w, hw, hc⟩

theorem Counted.forkAlloc (h : Counted s) {child : Task} {shmd newDesc : List ℕ}
    (hcall : s.sleep t = some (.shmFork child shmd newDesc)) (memory : Bool)
    (hfits : memory = true → shmd.length ≤ 1 → ∀ id shp, s.shmSegs id = .seg shp →
      (s.segs shp).shmNattch + s.listed id (shmd ++ newDesc) ≤ 32767) :
    Good s (s.forkAlloc t child shmd newDesc memory).1 := by
  have hrunning := h.running_of_sleep hcall
  obtain ⟨hembryo, hshmd, hnew⟩ := h.calls t _ hcall
  have hchild : s.shm child = [] ∧ s.sleep child = none := by
    apply h.running
    rw [hembryo]
    simp
  have hne : child ≠ t := by
    intro heq
    rw [heq, hcall] at hchild
    simp at hchild
  unfold Shm.forkAlloc
  split
  · have hstop : Counted (s.setSleep t none) := by
      apply h.stopSleep hrunning
      intro id
      rw [hcall]
      rfl
    apply Counted.good_of_slots
    · apply hstop.setTask child .free
      · exact h.unclaim hcall (.inr child) rfl none (by simp)
      · intro _
        exact ⟨hchild.1, (setSleep_of_ne s hne none).trans hchild.2⟩
    · rfl
  · rename_i hmemory
    have hmem : memory = true := by simpa using hmemory
    split
    · exact h.forkEnd hcall rfl (fun _ => rfl) hembryo hnew (hfits hmem (by simp))
    · rename_i d rest
      have hd : d ∈ s.shm t := hshmd d (List.mem_cons_self ..)
      have hcopied : Counted (s.newDesc { s.descs d with task := child }) := h.newDesc hrunning _
      have hdescs : ∀ a < s.nextDesc,
          (s.newDesc { s.descs d with task := child }).descs a = s.descs a :=
        fun a ha => newDesc_of_lt s _ ha
      have hnew' : ∀ a ∈ s.nextDesc :: newDesc,
          a < (s.newDesc { s.descs d with task := child }).nextDesc ∧
          ∃ a' ∈ s.shm t, ((s.newDesc { s.descs d with task := child }).descs a').id =
            ((s.newDesc { s.descs d with task := child }).descs a).id := by
        intro a ha
        rcases List.mem_cons.mp ha with heq | hmem'
        · rw [heq]
          refine ⟨Nat.lt_succ_self _, d, hd, ?_⟩
          rw [hdescs d (h.fresh t d hd), newDesc_self]
        · obtain ⟨hlt, a', ha', hid⟩ := hnew a hmem'
          refine ⟨Nat.lt_succ_of_lt hlt, a', ha', ?_⟩
          rw [hdescs a hlt, hdescs a' (h.fresh t a' ha')]
          exact hid
      split
      · rename_i hrest
        have hgood : Good (s.newDesc { s.descs d with task := child })
            ((s.newDesc { s.descs d with task :=
                child }).forkEnd t child (s.nextDesc :: newDesc)).1 := by
          apply hcopied.forkEnd
          · exact hcall
          · rfl
          · exact fun _ => rfl
          · exact hembryo
          · exact hnew'
          · intro id shp hslot
            have hle := hfits hmem (by rw [hrest]; simp) id shp hslot
            have hlisted : (s.newDesc { s.descs d with task := child }).listed id
                (s.nextDesc :: newDesc) = s.listed id ((d :: rest) ++ newDesc) := by
              have htail := listed_congr (s := s) (l := newDesc)
                (fun a ha => hdescs a (hnew a ha).1) id
              rw [hrest]
              unfold Shm.listed at htail ⊢
              rw [List.countP_cons, htail, newDesc_self, List.cons_append, List.nil_append,
                List.countP_cons]
            rw [hlisted]
            exact hle
        exact hgood.of_slots rfl
      · apply Counted.good_of_slots
        · apply hcopied.setSleep hrunning
          · intro id
            change callHolds id (s.sleep t) = 0
            rw [hcall]
            rfl
          · exact fun id => rfl
          · intro w' hw'
            rw [Option.some.injEq] at hw'
            rw [← hw']
            exact ⟨hembryo, fun a ha => hshmd a (List.mem_cons_of_mem _ ha), hnew'⟩
          · intro w' c hw' hc
            rw [Option.some.injEq] at hw'
            rw [← hw'] at hc
            exact Or.inl ⟨_, hcall, hc⟩
        · rfl

theorem Counted.wake (h : Counted s) {ok : Bool} {err : ℤ}
    (hfits : StepFits s (.wake t ok err)) : Good s (s.wake t ok err).1 := by
  unfold Shm.wake
  split
  · exact h.good_of_slots rfl
  · rename_i id size second hcall
    exact h.newsegAlloc hcall ok
  · rename_i shp id shmid addr readOnly hcall
    apply h.shmatAlloc hcall ok
    intro hok hslot hseq
    have hle := hfits id shp hslot
    rw [hok] at hle
    simp only [incOf, hcall, hslot, hseq, and_self, if_true] at hle
    exact hle
  · rename_i shmd shp id hcall
    exact h.shmatMapped hcall ok err
  · rename_i shmd shp id after hcall
    exact h.detached hcall
  · rename_i shp after hcall
    exact h.killed hcall
  · rename_i child shmd newDesc hcall
    apply h.forkAlloc hcall ok
    intro hok hlength id shp hslot
    have hle := hfits id shp hslot
    rw [hok] at hle
    simp only [incOf, hcall, if_pos hlength] at hle
    exact hle

theorem Counted.step (h : Counted s) {e : Event Task} (hfits : StepFits s e) :
    Good s (s.step e).1 := by
  have hstay : Good s s := h.good_of_slots rfl
  have hawake : ∀ {t}, s.idle t = true → Counted (s.setSleep t none) := by
    intro t hidle
    rw [setSleep_eq_self (idle_iff.mp hidle).2]
    exact h
  cases e with
  | newseg t size =>
    unfold Shm.step
    dsimp only
    split
    · rename_i hidle
      exact h.newseg hidle size
    · exact hstay
  | shmat t shmid shmaddr readOnly rnd remap permitted startStack =>
    unfold Shm.step
    dsimp only
    split
    · rename_i hidle
      exact h.shmat hidle shmid shmaddr readOnly rnd remap permitted startStack
    · exact hstay
  | shmdt t shmaddr =>
    unfold Shm.step
    dsimp only
    split
    · rename_i hidle
      exact h.shmdt hidle shmaddr
    · exact hstay
  | exec t =>
    unfold Shm.step
    dsimp only
    split
    · rename_i hidle
      exact (hawake hidle).shmExit (idle_iff.mp hidle).1 .exec
    · exact hstay
  | exit t =>
    unfold Shm.step
    dsimp only
    split
    · rename_i hidle
      exact (hawake hidle).shmExit (idle_iff.mp hidle).1 .exit
    · exact hstay
  | fork t child =>
    unfold Shm.step
    dsimp only
    split
    · rename_i hidle
      exact h.fork hidle child
    · exact hstay
  | rmid t shmid permitted =>
    unfold Shm.step
    dsimp only
    split
    · rename_i hidle
      exact h.rmid hidle shmid permitted
    · exact hstay
  | wake t ok err => exact h.wake hfits

/-! ## Runs -/

def RunFits : Shm Task → List (Event Task) → Prop
  | _, [] => True
  | s, e :: es => StepFits s e ∧ RunFits (s.step e).1 es

theorem Counted.run (h : Counted s) {es : List (Event Task)}
    (hrun : RunFits s es) : Counted (s.run es) := by
  induction es generalizing s with
  | nil => exact h
  | cons e es ih => exact ih (h.step hrun.1).counted hrun.2

theorem init_counted (root : Task) : Counted (Shm.init root) := by
  constructor
  · simp [Shm.init]
  · simp [Shm.init]
  · simp [Shm.init]
  · simp [Shm.init]
  · simp [Shm.init, Shm.held, Shm.listed, callHolds]
  · simp [Shm.init]
  · simp [Shm.init]
  · simp [Shm.init]
  · simp [Shm.init]

def Shm.attached (s : Shm Task) (id : ℕ) : ℕ := ∑ t, s.listed id (s.shm t)

def Shm.attaching (s : Shm Task) (id : ℕ) : ℕ :=
  ∑ t, match s.sleep t with
    | some (.shmMap _ _ id') => if id' = id then 1 else 0
    | _ => 0

def Shm.detaching (s : Shm Task) (id : ℕ) : ℕ :=
  ∑ t, match s.sleep t with
    | some (.detach _ _ id' _) => if id' = id then 1 else 0
    | _ => 0

omit [DecidableEq Task] in
theorem count_eq (s : Shm Task) (id : ℕ) :
    s.count id = s.attached id + s.attaching id + s.detaching id := by
  unfold Shm.count Shm.attached Shm.attaching Shm.detaching Shm.held
  rw [← Finset.sum_add_distrib, ← Finset.sum_add_distrib]
  apply Finset.sum_congr rfl
  intro t _
  cases hw : s.sleep t with
  | none => rfl
  | some w =>
    cases w with
    | shmMap shmd shp id' => rfl
    | detach shmd shp id' after => simp [callHolds, Sleep.holds]
    | newseg id' size second => rfl
    | shmat shp id' shmid addr readOnly => rfl
    | killseg shp after => rfl
    | shmFork child shmd newDesc => rfl

/-- In every run in which no count leaves its type, `shm_nattch` is the number of
attaches in the lists, of those in progress and of those on their way out, and a
step takes a segment out of its slot only if it is marked and this number is 0. -/
theorem run_nattch (root : Task) (es : List (Event Task)) (hrun : RunFits (Shm.init root) es) :
    let s := (Shm.init root).run es
    (∀ id shp, s.shmSegs id = .seg shp →
      (s.segs shp).shmNattch = s.attached id + s.attaching id + s.detaching id) ∧
    ∀ e, StepFits s e → ∀ id shp, s.shmSegs id = .seg shp →
      (s.step e).1.shmSegs id ≠ .seg shp →
      ((s.step e).1.segs shp).dest = true ∧ (s.step e).1.attached id = 0 ∧
        (s.step e).1.attaching id = 0 ∧ (s.step e).1.detaching id = 0 := by
  intro s
  have h : Counted s := (init_counted root).run hrun
  refine ⟨?_, ?_⟩
  · intro id shp hslot
    rw [h.nattch id shp hslot, count_eq]
    push_cast
    ring
  · intro e hfits id shp hslot hgone
    obtain ⟨hdest, hcount⟩ := (h.step hfits).kills id shp hslot hgone
    rw [count_eq] at hcount
    refine ⟨hdest, ?_, ?_, ?_⟩
    · omega
    · omega
    · omega

local instance bothTasks : NeZero 2 := ⟨by decide⟩

def attachOnce : List (Event (Fin 2)) :=
  [.newseg 0 1, .wake 0 true 0, .wake 0 true 0,
    .shmat 0 0 0x40000000 false false false true 0xbffff000, .wake 0 true 0, .wake 0 true 0]

omit [DecidableEq Task] in
theorem StepFits.of_inc (h : Counted s) {e : Event Task}
    (hinc : ∀ id, incOf s id e = 0) : StepFits s e := by
  intro id shp hslot
  rw [hinc, Nat.cast_zero, add_zero]
  exact h.nattch_le id shp hslot

theorem attachOnce_fits : RunFits (Shm.init (0 : Fin 2)) attachOnce := by
  have h0 := init_counted (0 : Fin 2)
  have f0 := StepFits.of_inc (e := .newseg 0 1) h0 fun _ => rfl
  have h1 := (h0.step f0).counted
  have f1 := StepFits.of_inc (e := .wake 0 true 0) h1 fun _ => rfl
  have h2 := (h1.step f1).counted
  have f2 := StepFits.of_inc (e := .wake 0 true 0) h2 fun _ => rfl
  have h3 := (h2.step f2).counted
  have f3 := StepFits.of_inc (e := .shmat 0 0 0x40000000 false false false true 0xbffff000) h3
    fun _ => rfl
  have h4 := (h3.step f3).counted
  have f4 : StepFits ((Shm.init (0 : Fin 2)).run (attachOnce.take 4)) (.wake 0 true 0) := by
    intro id shp hslot
    have hnattch := h4.nattch id shp hslot
    have hcount : ((Shm.init (0 : Fin 2)).run (attachOnce.take 4)).count id = 0 := by
      apply count_eq_zero
      intro t
      fin_cases t
      · rfl
      · rfl
    have hinc : incOf ((Shm.init (0 : Fin 2)).run (attachOnce.take 4)) id (.wake 0 true 0) ≤ 1 := by
      change (if _ then 1 else 0 : ℕ) ≤ 1
      split
      · exact le_rfl
      · exact Nat.zero_le _
    change _ = ((((Shm.init (0 : Fin 2)).run (attachOnce.take 4)).count id : ℕ) : ℤ) at hnattch
    change ((((Shm.init (0 : Fin 2)).run (attachOnce.take 4)).segs shp).shmNattch : ℤ) =
      _ at hnattch
    omega
  have h5 := (h4.step f4).counted
  have f5 := StepFits.of_inc (e := .wake 0 true 0) h5 fun _ => rfl
  exact ⟨f0, f1, f2, f3, f4, f5, trivial⟩

theorem run_nattch_attachOnce :
    let s := (Shm.init (0 : Fin 2)).run attachOnce
    (∀ id shp, s.shmSegs id = .seg shp →
      (s.segs shp).shmNattch = s.attached id + s.attaching id + s.detaching id) ∧
    ∀ e, StepFits s e → ∀ id shp, s.shmSegs id = .seg shp →
      (s.step e).1.shmSegs id ≠ .seg shp →
      ((s.step e).1.segs shp).dest = true ∧ (s.step e).1.attached id = 0 ∧
        (s.step e).1.attaching id = 0 ∧ (s.step e).1.detaching id = 0 :=
  run_nattch 0 attachOnce attachOnce_fits

/-- `detach` sleeps in `unmap_page_range`: the descriptor is in no list any more,
but it is still counted. -/
theorem detach_still_counted :
    let s := (Shm.init (0 : Fin 2)).run (attachOnce ++ [.shmdt 0 0x40000000])
    s.shmSegs 0 = .seg 0 ∧ (s.segs 0).shmNattch = 1 ∧ s.attached 0 = 0 ∧ s.attaching 0 = 0 ∧
      s.detaching 0 = 1 := by
  decide +kernel

end LinuxKernel.SharedMemory
