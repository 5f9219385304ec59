import LinuxKernel.SemaphoreConservation

/-!
# The sum of a value and its adjustments is constant

Each step of a run in which every operation carries `SEM_UNDO` keeps the sum, so
the value of a semaphore is what the records of the tasks that are left say.
-/

namespace LinuxKernel.Semaphore
open Function

variable {s : Sems} {t : Task} {un : ℕ} {rest : List ℕ}

theorem dropUndo_adjSum
    (hhead : s.semun t = un :: rest) (semid num : ℕ) :
    (s.dropUndo t).adjSum semid num = s.adjSum semid num - s.undoAdj semid num un := by
  have hself : (s.dropUndo t).adj t semid num = s.adj t semid num - s.undoAdj semid num un := by
    unfold Sems.adj Sems.dropUndo
    dsimp only
    rw [update_self, hhead, List.tail_cons, List.map_cons, List.sum_cons]
    rw [add_sub_cancel_left]
    rfl
  unfold Sems.adjSum
  rw [sum_change (f := fun t' => s.adj t' semid num) t]
  · rw [hself]
    ring
  · intro t' ht
    apply adj_congr
    · exact update_of_ne ht ..
    · intro un' _
      rfl

variable {sma semid : ℕ}

theorem dropUndo_total_of_ne
    (hhead : s.semun t = un :: rest) (hne : (s.undos un).semid ≠ semid) (num : ℕ) :
    (s.dropUndo t).total sma semid num = s.total sma semid num := by
  unfold Sems.total
  rw [dropUndo_adjSum hhead]
  unfold Sems.undoAdj
  rw [if_neg (fun h => hne h.1), sub_zero]
  rfl

theorem unlinkUndo_total (s : Sems) (sma un a semid num : ℕ) :
    (s.unlinkUndo sma un).total a semid num = s.total a semid num := by
  unfold Sems.total
  rw [unlinkUndo_semval]
  rfl

theorem adjusted_total
    (hhead : s.semun t = un :: rest)
    (h1 : 0 ≤ s.semval sma (s.undos un).semNum + (s.undos un).semadj)
    (h2 : s.semval sma (s.undos un).semNum + (s.undos un).semadj ≤ 65535) {sma' semid' : ℕ}
    (hsame : sma' = sma ↔ semid' = (s.undos un).semid) (num : ℕ) :
    ((s.adjusted sma un).dropUndo t).total sma' semid' num = s.total sma' semid' num := by
  obtain ⟨hsets, hundos, hsemun, _⟩ := adjusted_fields s sma un
  have hsum : (s.adjusted sma un).adjSum semid' num = s.adjSum semid' num := by
    apply Finset.sum_congr rfl
    intro t' _
    apply adj_congr
    · rw [hsemun]
    · intro un' _
      rw [hundos]
  have hval : ((s.adjusted sma un).dropUndo t).semval sma' num =
      if sma' = sma ∧ num = (s.undos un).semNum then
        s.semval sma (s.undos un).semNum + (s.undos un).semadj else s.semval sma' num := by
    have hstore := setSemval_semval s sma (s.undos un).semNum
    rw [← toUshort_eq_self h1 h2, ← hstore]
    unfold Sems.semval Sems.dropUndo
    rw [hsets]
    rfl
  have hhead' : (s.adjusted sma un).semun t = un :: rest := by
    rw [hsemun]
    exact hhead
  unfold Sems.total
  rw [hval, dropUndo_adjSum hhead', hsum]
  unfold Sems.undoAdj
  rw [hundos]
  by_cases hset : sma' = sma
  · have hid := hsame.mp hset
    by_cases hn : num = (s.undos un).semNum
    · rw [if_pos ⟨hset, hn⟩, if_pos ⟨hid.symm, hn.symm⟩, hset, hn]
      ring
    · rw [if_neg (fun h => hn h.2), if_neg (fun h => hn h.2.symm), sub_zero]
  · rw [if_neg (fun h => hset h.1), if_neg (fun h => hset (hsame.mpr h.1.symm)), sub_zero]

/-! ## One step -/

theorem Live.of_eq {s' : Sems} (h : Live s semid sma)
    (hsemary : s'.semary = s.semary) (hseq : ∀ a, (s'.sets a).seq = (s.sets a).seq) :
    Live s' semid sma := by
  unfold Live
  rw [hsemary, hseq]
  exact h

def Kept (s s' : Sems) : Prop :=
  ∀ semid sma, Live s semid sma →
    Live s' semid sma ∧ ∀ num, s'.total sma semid num = s.total sma semid num

theorem Kept.refl (s : Sems) : Kept s s := fun _ _ hlive => ⟨hlive, fun _ => rfl⟩

theorem Kept.trans {s1 s2 s3 : Sems} (h1 : Kept s1 s2) (h2 : Kept s2 s3) : Kept s1 s3 := by
  intro semid sma hlive
  obtain ⟨hlive2, htotal2⟩ := h1 semid sma hlive
  obtain ⟨hlive3, htotal3⟩ := h2 semid sma hlive2
  refine ⟨hlive3, ?_⟩
  intro num
  rw [htotal3, htotal2]

theorem Kept.of_unchanged {s' : Sems} (h : Unchanged s s') (hsemary : s'.semary = s.semary)
    (hseq : ∀ a, (s'.sets a).seq = (s.sets a).seq) : Kept s s' :=
  fun semid sma hlive => ⟨hlive.of_eq hsemary hseq, h.total sma semid⟩

theorem sleepOn_kept (s : Sems) (t : Task) (w : Sleeper) : Kept s (s.sleepOn t w) :=
  Kept.of_unchanged (sleepOn_unchanged s t w) (addWaiting_semary s w.sma w.num w.forZero 1)
    (addWaiting_seq s w.sma w.num w.forZero 1)

theorem awake_kept (s : Sems) (t : Task) (w : Sleeper) : Kept s (s.awake t w) :=
  Kept.of_unchanged (awake_unchanged s t w) (addWaiting_semary s w.sma w.num w.forZero (-1))
    (addWaiting_seq s w.sma w.num w.forZero (-1))

variable {sops : List Sembuf}

theorem finish_kept (h : Linkage none s)
    (hlive : Live s semid sma) (hundo : ∀ sop ∈ sops, sop.undo = true)
    (hfound : ∀ sop ∈ sops, Found s t semid sop.num) (hval : ValOk (s.semval sma) sops)
    (hadj : AdjOk (s.recAdj t semid) sops) : Kept s (s.finish t semid sma sops).1 := by
  obtain ⟨hsets, hundos, hsemun, hsemary, _⟩ := finish_fields s t semid sma sops
  have hframe := applyOps_sameFrame s t semid sma sops
  intro semid' sma' hlive'
  constructor
  · apply hlive'.of_eq
    · rw [hsemary, hframe.semary]
    · intro a
      rw [hsets, hframe.seq]
  · intro num
    rw [← applyOps_total h.undosOk hundo hfound hval hadj (h.same_iff hlive hlive') num]
    apply Unchanged.total
    apply unchanged_of_eq _ hundos hsemun
    intro a n
    unfold Sems.semval
    rw [hsets]

theorem slept_kept (h : Linkage none s)
    (hslot : s.semary (semid % semmni) = .set sma)
    (hundo : ∀ sop ∈ sops, sop.undo = true) (hfound : ∀ sop ∈ sops, Found s t semid sop.num)
    (hok : check (s.semval sma) sops = .pass →
      ValOk (s.semval sma) sops ∧ AdjOk (s.recAdj t semid) sops) (signal : Bool) :
    Kept s (s.slept t semid sma sops signal).1 := by
  rcases slept_cases s t semid sma sops signal with
    ⟨e, _, heq⟩ | ⟨sop, forZero, _, _, heq⟩ | ⟨hseq, hcheck, heq⟩
  · rw [heq]
    exact Kept.refl s
  · rw [heq]
    exact sleepOn_kept s t _
  · rw [heq]
    obtain ⟨hval, hadj⟩ := hok hcheck
    exact finish_kept h ⟨hslot, hseq⟩ hundo hfound hval hadj

variable {signal : Bool}

theorem adjust_kept {held : Option (Task × ℕ)} (h : Linkage held s) (hhead : s.semun t = un :: rest)
    (hslot : s.semary ((s.undos un).semid % semmni) = .set sma)
    (hvalue : s.semval sma (s.undos un).semNum + (s.undos un).semadj ≤ 65535)
    (hsignal : s.semval sma (s.undos un).semNum + (s.undos un).semadj < 0 → signal = false) :
    Kept s (s.adjust t sma un signal).1 := by
  rcases adjust_cases s t sma un signal with
    ⟨hgone | ⟨hneg, hpending⟩, heq⟩ | ⟨hseq, hge, heq⟩ | ⟨_, _, heq⟩
  · rw [heq]
    intro semid sma' hlive
    refine ⟨hlive, dropUndo_total_of_ne hhead ?_⟩
    intro hid
    rw [← hid] at hlive
    have hsma := hlive.sma_eq hslot
    rw [hsma] at hlive
    exact hgone hlive.2
  · rw [hsignal hneg] at hpending
    simp at hpending
  · rw [heq]
    obtain ⟨hsets, _, _, hsemary, _⟩ := adjusted_fields s sma un
    intro semid sma' hlive
    constructor
    · apply hlive.of_eq
      · exact hsemary
      · intro a
        change ((s.adjusted sma un).sets a).seq = _
        rw [hsets]
        exact setSem_seq ..
    · exact adjusted_total hhead hge hvalue (h.same_iff ⟨hslot, hseq⟩ hlive)
  · rw [heq]
    exact sleepOn_kept s t _

theorem unlinkUndo_kept (s : Sems) (sma un : ℕ) : Kept s (s.unlinkUndo sma un) := by
  intro semid a hlive
  refine ⟨hlive.of_eq rfl fun b => (unlinkUndo_set s sma un b).2.1, ?_⟩
  intro num
  exact unlinkUndo_total s sma un a semid num

section
variable (h : Linkage none s)
include h

theorem exitRecord_kept (hawake : s.sleep t = none) (hok : StaysInType s (.exitRecord t signal)) :
    Kept s (s.exitRecord t signal).1 := by
  rcases exitRecord_cases s t signal with ⟨_, heq⟩ | ⟨un, rest, hhead, hcases⟩
  · rw [heq]
    exact Kept.refl s
  · have hmem : un ∈ s.semun t := by
      rw [hhead]
      exact List.mem_cons_self ..
    rcases hcases with ⟨heq, hgone⟩ | ⟨sma, hslot, hseq, ⟨hnot, _⟩ | ⟨_, hzero, heq⟩ | ⟨_, _, heq⟩⟩
    · rw [heq]
      intro semid sma' hlive
      refine ⟨hlive, dropUndo_total_of_ne hhead ?_⟩
      intro hid
      rw [← hid] at hlive
      exact hgone sma' hlive.1 hlive.2
    · obtain ⟨sma', hslot', hlinked⟩ := h.record t un hmem
      rw [hslot, Slot.set.injEq] at hslot'
      rcases hlinked with hin | ⟨w, hw, _⟩ | hnone
      · rw [hslot'] at hnot
        exact absurd hin hnot
      · rw [hawake] at hw
        simp at hw
      · simp at hnone
    · rw [heq]
      apply (unlinkUndo_kept s sma un).trans
      intro semid sma' hlive
      refine ⟨hlive, ?_⟩
      intro num
      unfold Sems.total
      rw [dropUndo_adjSum (s := s.unlinkUndo sma un) hhead]
      have hadj : (s.unlinkUndo sma un).undoAdj semid num un = 0 := by
        change s.undoAdj semid num un = 0
        unfold Sems.undoAdj
        rw [hzero, ite_self]
      rw [hadj, sub_zero]
      rfl
    · rw [heq]
      have hadjust : adjustOf s (.exitRecord t signal) = some (sma, un) := by
        simp only [adjustOf, hhead, hslot]
      apply (unlinkUndo_kept s sma un).trans
      apply adjust_kept (h.unlinkUndo hmem sma) hhead hslot
      · rw [unlinkUndo_semval]
        exact hok.exit_value sma un hadjust
      · rw [unlinkUndo_semval]
        exact hok.exit_signal sma un hadjust

theorem resume_kept (hall : AllUndo s (.resume t signal)) (hok : StaysInType s (.resume t signal)) :
    Kept s (s.resume t signal).1 := by
  unfold Sems.resume
  split
  · exact Kept.refl s
  · rename_i w hw
    have hlists := awake_sameLists s t w
    split
    · split
      · rename_i semid sops sop hwaiting
        have hcall : callOf s (.resume t signal) = some (w.sma, sops) := by
          simp only [callOf, hw, hwaiting]
        have hcaller : callerOf s (.resume t signal) = some (t, semid) := by
          simp only [callerOf, hw, hwaiting]
        have hundo := hall.undo w.sma sops hcall
        have hlink : Linkage none (s.awake t w) := by
          apply h.awake hw
          intro un hun
          rw [hwaiting] at hun
          simp at hun
        have hrec : (s.awake t w).recAdj t semid = s.recAdj t semid := by
          unfold Sems.recAdj Sems.findUndo
          simp [Sems.awake]
        apply (awake_kept s t w).trans
        apply slept_kept hlink _ hundo
        · intro sop' hsop'
          exact (h.semop_found t w semid sops sop hw hwaiting sop' hsop'
            (hundo sop' hsop')).of_sameLists hlists
        · rw [awake_semval, hrec]
          exact hok.semop w.sma sops t semid hcall hcaller
        · rw [hlists.semary]
          exact h.semop_slot t w semid sops sop hw hwaiting
      · rename_i un hwaiting
        have hadjust : adjustOf s (.resume t signal) = some (w.sma, un) := by
          simp only [adjustOf, hw, hwaiting]
        obtain ⟨⟨rest, hhead⟩, hslot⟩ := h.exit_head t w un hw hwaiting
        have hlink : Linkage (some (t, un)) (s.awake t w) := by
          apply h.awake hw
          intro un' hun'
          rw [hwaiting, Waiting.exit.injEq] at hun'
          rw [hun']
        have hundos : (s.awake t w).undos = s.undos := addWaiting_undos ..
        apply (awake_kept s t w).trans
        apply adjust_kept hlink
        · rw [hlists.semun]
          exact hhead
        · rw [hlists.semary, (hlists.record un).1]
          exact hslot
        · rw [awake_semval, hundos]
          exact hok.exit_value w.sma un hadjust
        · rw [awake_semval, hundos]
          exact hok.exit_signal w.sma un hadjust
    · exact Kept.refl s

theorem newary_kept (id nsems : ℕ) (behind : Sem) : Kept s (s.newary id nsems behind).1 := by
  rcases newary_cases s id nsems behind with heq | ⟨hunused, _, r, heq⟩
  · rw [heq]
    exact Kept.refl s
  · rw [heq]
    intro semid sma hlive
    have hne : sma ≠ s.nextSet := ne_of_lt (h.slot_fresh _ _ hlive.1)
    constructor
    · unfold Live
      dsimp only
      rw [update_of_ne hne, update_of_ne]
      · exact hlive
      · intro hid
        have hset := hlive.1
        rw [hid, hunused] at hset
        simp at hset
    · intro num
      unfold Sems.total Sems.semval
      dsimp only
      rw [update_of_ne hne]
      rfl

theorem semop_kept (hawake : s.sleep t = none) {permitted : Bool} {free : ℕ}
    (hall : AllUndo s (.semop t semid sops permitted free signal))
    (hok : StaysInType s (.semop t semid sops permitted free signal)) :
    Kept s (s.semop t semid sops permitted free signal).1 := by
  rcases semop_ways s t semid sops permitted free signal with
    ⟨e, _, heq⟩ | ⟨sma, hslot, _, heq⟩
  · rw [heq]
    exact Kept.refl s
  · have hadded := ensureUndos_added t semid sma h.undosOk free sops
    have hkept : Kept s (s.ensureUndos t semid sma free sops).1 :=
      Kept.of_unchanged hadded.unchanged hadded.semary hadded.seq
    rcases heq with heq | ⟨henough, heq⟩
    · rw [heq]
      exact hkept
    · rw [heq]
      have hcall : callOf s (.semop t semid sops permitted free signal) = some (sma, sops) := by
        simp only [callOf, hslot]
      have hundo := hall.undo sma sops hcall
      obtain ⟨hfound, _⟩ := ensureUndos_found h.undosOk t semid sma free sops henough
      have hsemval : (s.ensureUndos t semid sma free sops).1.semval sma = s.semval sma :=
        funext (hadded.semval sma)
      have hrec : (s.ensureUndos t semid sma free sops).1.recAdj t semid = s.recAdj t semid :=
        funext (ensureUndos_recAdj h.undosOk t semid sma free sops)
      apply hkept.trans
      apply slept_kept (h.ensureUndos hawake hslot free sops) _ hundo
      · intro sop hsop
        exact hfound sop hsop (hundo sop hsop)
      · rw [hsemval, hrec]
        exact hok.semop sma sops t semid hcall rfl
      · rw [hadded.semary]
        exact hslot

theorem step_kept {e : Event} (hall : AllUndo s e) (hok : StaysInType s e) :
    Kept s (s.step e).1 := by
  cases e with
  | newary id nsems behind => exact newary_kept h id nsems behind
  | semop t semid sops permitted free signal =>
    unfold Sems.step
    dsimp only
    split
    · exact Kept.refl s
    · rename_i hasleep
      exact semop_kept h (by simpa using hasleep) hall hok
  | resume t signal => exact resume_kept h hall hok
  | interrupt t =>
    exact Kept.of_unchanged (unchanged_of_eq (fun _ _ => rfl) rfl rfl) rfl fun _ => rfl
  | exitRecord t signal =>
    unfold Sems.step
    dsimp only
    split
    · exact Kept.refl s
    · rename_i hasleep
      exact exitRecord_kept h (by simpa using hasleep) hok
  | setval semid semnum val permitted =>
    exact absurd rfl (hall.no_setval semid semnum val permitted)
  | setall semid semnum vals permitted =>
    exact absurd rfl (hall.no_setall semid semnum vals permitted)
  | rmid semid semnum permitted => exact absurd rfl (hall.no_rmid semid semnum permitted)

end

/-! ## Runs -/

def RunUndo : Sems → List Event → Prop
  | _, [] => True
  | s, e :: es => (AllUndo s e ∧ StaysInType s e) ∧ RunUndo (s.step e).1 es

theorem AllUndo.not_rmid {e : Event} (h : AllUndo s e) : IsRmid e = false := by
  cases e with
  | rmid semid semnum permitted => exact absurd rfl (h.no_rmid semid semnum permitted)
  | _ => rfl

theorem run_kept (h : Linkage none s) {es : List Event} (hrun : RunUndo s es) :
    Kept s (s.run es) := by
  induction es generalizing s with
  | nil => exact Kept.refl s
  | cons e es ih =>
    obtain ⟨⟨hall, hok⟩, hrest⟩ := hrun
    exact (step_kept h hall hok).trans (ih (h.step hall.not_rmid) hrest)

theorem adj_of_no_records (h : s.semun t = []) (semid num : ℕ) : s.adj t semid num = 0 := by
  unfold Sems.adj
  rw [h]
  rfl

/-- Whatever happened before: while every operation carries `SEM_UNDO`, the value
of each semaphore and all its adjustments add up to the same sum, and once a task
has gone through `sem_exit` the value is that sum without anything of the task. -/
theorem run_conserves (before es : List Event) (hbefore : ∀ e ∈ before, IsRmid e = false)
    (hrun : RunUndo (Sems.init.run before) es) {semid sma : ℕ}
    (hlive : Live (Sems.init.run before) semid sma) (num : ℕ) :
    let s := Sems.init.run before
    let s' := s.run es
    Live s' semid sma ∧
      s'.semval sma num + s'.adjSum semid num = s.semval sma num + s.adjSum semid num ∧
      ∀ t, s'.semun t = [] →
        s'.semval sma num = s.semval sma num + s.adjSum semid num -
          ∑ t' ∈ Finset.univ.erase t, s'.adj t' semid num := by
  intro s s'
  obtain ⟨hlive', htotal⟩ := run_kept (init_linkage.run hbefore) hrun semid sma hlive
  have hsum : s'.semval sma num + s'.adjSum semid num = s.semval sma num + s.adjSum semid num :=
    htotal num
  refine ⟨hlive', hsum, ?_⟩
  intro t ht
  have hsplit := Finset.add_sum_erase Finset.univ (fun t' => s'.adj t' semid num)
    (Finset.mem_univ t)
  rw [adj_of_no_records ht, zero_add] at hsplit
  change ∑ t' ∈ Finset.univ.erase t, s'.adj t' semid num = s'.adjSum semid num at hsplit
  omega

def undoOp (op : Int16) : Sembuf := { semNum := 0, semOp := op, nowait := false, undo := true }

local instance undoTasks : NeZero 128 := ⟨by decide⟩

def raiseAndExit : List Event := [.semop 0 0 [undoOp 1] true 1 false, .exitRecord 0 false]

theorem raiseAndExit_runUndo : RunUndo (Sems.init.run [.newary 0 1 ⟨0, 0, 0⟩]) raiseAndExit := by
  have hslot : (Sems.init.run [.newary 0 1 ⟨0, 0, 0⟩]).semary (0 % semmni) = .set 0 := by decide
  refine ⟨⟨⟨?_, by simp, by simp, by simp⟩, ⟨?_, by simp [adjustOf], by simp [adjustOf]⟩⟩,
    ⟨⟨by simp [callOf], by simp, by simp, by simp⟩, ⟨by simp [callOf], ?_, ?_⟩⟩, trivial⟩
  · intro sma sops hcall
    simp only [callOf, hslot, Option.some.injEq, Prod.mk.injEq] at hcall
    rw [← hcall.2]
    decide
  · intro sma sops t semid hcall hcaller _
    simp only [callOf, hslot, Option.some.injEq, Prod.mk.injEq] at hcall
    simp only [callerOf, Option.some.injEq, Prod.mk.injEq] at hcaller
    rw [← hcall.1, ← hcall.2, ← hcaller.1, ← hcaller.2]
    exact ⟨⟨by decide, by decide, trivial⟩, ⟨by decide, by decide, trivial⟩⟩
  · intro sma un hadjust
    have hone : adjustOf ((Sems.init.run [.newary 0 1 ⟨0, 0, 0⟩]).step
        (.semop 0 0 [undoOp 1] true 1 false)).1 (.exitRecord 0 false) = some (0, 0) := by decide
    rw [hone, Option.some.injEq, Prod.mk.injEq] at hadjust
    rw [← hadjust.1, ← hadjust.2]
    decide
  · intro sma un hadjust hneg
    rfl

theorem run_conserves_raiseAndExit :
    let s := Sems.init.run [.newary 0 1 ⟨0, 0, 0⟩]
    let s' := s.run raiseAndExit
    Live s' 0 0 ∧ s'.semval 0 0 + s'.adjSum 0 0 = s.semval 0 0 + s.adjSum 0 0 ∧
      ∀ t, s'.semun t = [] →
        s'.semval 0 0 = s.semval 0 0 + s.adjSum 0 0 -
          ∑ t' ∈ Finset.univ.erase t, s'.adj t' 0 0 :=
  run_conserves [.newary 0 1 ⟨0, 0, 0⟩] raiseAndExit (by simp [IsRmid]) raiseAndExit_runUndo
    ⟨by decide, by decide⟩ 0

/-- The sum does change.  An exiting task that would have to wait gives its
adjustment up when a signal is pending; and a `semadj` of -65534 becomes 2. -/
theorem undo_loses :
    (let s := Sems.init.run [.newary 0 1 ⟨0, 0, 0⟩, .semop 0 0 [undoOp 1] true 1 false,
      .semop 1 0 [undoOp (-1)] true 1 false]
     s.total 0 0 0 = 0 ∧ (s.step (.exitRecord 0 true)).1.semun 0 = [] ∧
        (s.step (.exitRecord 0 true)).1.total 0 0 0 = 1) ∧
    (let s := Sems.init.run [.newary 0 1 ⟨0, 0, 0⟩, .semop 0 0 [undoOp 32767] true 1 false,
      .semop 1 0 [undoOp (-32767)] true 1 false]
     s.total 0 0 0 = 0 ∧ s.adj 0 0 0 = -32767 ∧
        (s.step (.semop 0 0 [undoOp 32767] true 1 false)).1.adj 0 0 0 = 2) := by
  refine ⟨⟨?_, ?_, ?_⟩, ?_, ?_, ?_⟩
  all_goals decide +kernel

end LinuxKernel.Semaphore
