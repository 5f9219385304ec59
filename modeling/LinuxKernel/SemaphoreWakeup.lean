import LinuxKernel.SemaphoreValues

/-!
# Sleepers and wakeups

A task that sleeps in `sys_semop` is either runnable or still has to wait, and
`semncnt` and `semzcnt` count the tasks that sleep.  A value can rise without a
wakeup in one way only: below zero, through the operations of one array.
-/

namespace LinuxKernel.Semaphore
open Function

def Blocked (s : Sems) (w : Sleeper) (semid : ℕ) (sop : Sembuf) : Prop :=
  (s.sets w.sma).seq = semid / semmni ∧ w.num = sop.num ∧
    if w.forZero then sop.op = 0 ∧ s.semval w.sma sop.num ≠ 0
    else sop.op + s.semval w.sma sop.num < 0

def Sems.sleepsAt (s : Sems) (sma num : ℕ) (forZero : Bool) (t : Task) : Bool :=
  match s.sleep t with
  | some w => w.sma = sma ∧ w.num = num ∧ w.forZero = forZero
  | none => false

def Sems.waitCount (s : Sems) (sma num : ℕ) (forZero : Bool) : ℤ :=
  if forZero then ((s.sets sma).base num).semzcnt else ((s.sets sma).base num).semncnt

def Sems.sleepers (s : Sems) (sma num : ℕ) (forZero : Bool) : ℕ :=
  (Finset.univ.filter fun t => s.sleepsAt sma num forZero t = true).card

structure Waits (s : Sems) : Prop where
  slot_fresh : ∀ id a, s.semary id = .set a → a < s.nextSet
  fresh : ∀ t w, s.sleep t = some w → w.sma < s.nextSet
  blocked : ∀ t w semid sops sop, s.sleep t = some w → w.waiting = .semop semid sops sop →
    Blocked s w semid sop ∨ w.runnable = true
  count : ∀ a < s.nextSet, ∀ num < (s.sets a).semNsems, ∀ z,
    s.waitCount a num z = s.sleepers a num z

theorem sleepers_eq_sum (s : Sems) (sma num : ℕ) (z : Bool) :
    (s.sleepers sma num z : ℤ) = ∑ t, if s.sleepsAt sma num z t = true then (1 : ℤ) else 0 := by
  unfold Sems.sleepers
  rw [Finset.natCast_card_filter]

variable {s s' : Sems} {sma : ℕ}

theorem sleepers_congr {num : ℕ} {z : Bool}
    (h : ∀ t, s'.sleepsAt sma num z t = s.sleepsAt sma num z t) :
    s'.sleepers sma num z = s.sleepers sma num z := by
  unfold Sems.sleepers
  congr 1
  apply Finset.filter_congr
  intro t _
  rw [h]

theorem sleepers_change (t : Task) (h : ∀ t', t' ≠ t → s'.sleep t' = s.sleep t')
    (sma num : ℕ) (z : Bool) :
    (s'.sleepers sma num z : ℤ) = s.sleepers sma num z +
      ((if s'.sleepsAt sma num z t = true then 1 else 0) -
        if s.sleepsAt sma num z t = true then 1 else 0) := by
  rw [sleepers_eq_sum, sleepers_eq_sum]
  apply sum_change t
  intro t' ht
  unfold Sems.sleepsAt
  rw [h t' ht]

theorem addWaiting_waitCount (s : Sems) (sma num : ℕ) (z : Bool) (d : ℤ) (a n : ℕ) (z' : Bool) :
    (s.addWaiting sma num z d).waitCount a n z' =
      s.waitCount a n z' + if a = sma ∧ n = num ∧ z' = z then d else 0 := by
  unfold Sems.waitCount Sems.addWaiting
  by_cases hkey : a = sma ∧ n = num
  · rw [hkey.1, hkey.2]
    cases z <;> cases z' <;> simp [setSem_base]
  · have hkey' : ¬(a = sma ∧ n = num ∧ z' = z) := fun h => hkey ⟨h.1, h.2.1⟩
    rw [if_neg hkey', add_zero]
    cases z <;> simp only [Bool.false_eq_true, if_true, if_false] <;> rw [setSem_base, if_neg hkey]

variable {t : Task} {w : Sleeper}

theorem Waits.setSleep {o : Option Sleeper} {d : ℤ} (h : Waits s)
    (hs : s' = { s.addWaiting w.sma w.num w.forZero d with sleep := update s.sleep t o })
    (hsleeper : ∀ w', o = some w' → w'.sma < s.nextSet ∧ ∀ semid sops sop,
      w'.waiting = .semop semid sops sop → Blocked s w' semid sop)
    (hcount : ∀ a num z, ((if s'.sleepsAt a num z t = true then 1 else 0) -
      if s.sleepsAt a num z t = true then 1 else 0 : ℤ) =
      if a = w.sma ∧ num = w.num ∧ z = w.forZero then d else 0) : Waits s' := by
  have hother : ∀ t', t' ≠ t → s'.sleep t' = s.sleep t' := by
    intro t' ht
    rw [hs]
    exact update_of_ne ht ..
  have hsleepers := sleepers_change t hother
  subst hs
  have hsleep : ∀ t' w', update s.sleep t o t' = some w' → o = some w' ∨ s.sleep t' = some w' := by
    intro t' w' hw'
    by_cases ht : t' = t
    · rw [ht, update_self] at hw'
      exact .inl hw'
    · rw [update_of_ne ht] at hw'
      exact .inr hw'
  constructor
  · intro id a hid
    have hid' : s.semary id = .set a := addWaiting_semary s w.sma w.num w.forZero d ▸ hid
    exact addWaiting_nextSet s w.sma w.num w.forZero d ▸ h.slot_fresh id a hid'
  · intro t' w' hw'
    change w'.sma < (s.addWaiting w.sma w.num w.forZero d).nextSet
    rw [addWaiting_nextSet]
    rcases hsleep t' w' hw' with hnew | hold
    · exact (hsleeper w' hnew).1
    · exact h.fresh t' w' hold
  · intro t' w' semid sops sop hw' hwaiting
    change (((s.addWaiting w.sma w.num w.forZero d).sets w'.sma).seq = _ ∧ _ ∧
      if w'.forZero then _ ∧ (s.addWaiting w.sma w.num w.forZero d).semval w'.sma sop.num ≠ 0
      else _ + (s.addWaiting w.sma w.num w.forZero d).semval w'.sma sop.num < 0) ∨ _
    rw [addWaiting_seq, addWaiting_semval]
    rcases hsleep t' w' hw' with hnew | hold
    · exact .inl ((hsleeper w' hnew).2 semid sops sop hwaiting)
    · exact h.blocked t' w' semid sops sop hold hwaiting
  · intro a ha num hnum z
    change a < (s.addWaiting w.sma w.num w.forZero d).nextSet at ha
    rw [addWaiting_nextSet] at ha
    change num < ((s.addWaiting w.sma w.num w.forZero d).sets a).semNsems at hnum
    rw [addWaiting_semNsems] at hnum
    change (s.addWaiting w.sma w.num w.forZero d).waitCount a num z = _
    rw [addWaiting_waitCount, h.count a ha num hnum z, hsleepers, hcount]

theorem sleepOn_waits (h : Waits s) (hawake : s.sleep t = none)
    (hfresh : w.sma < s.nextSet)
    (hblocked : ∀ semid sops sop, w.waiting = .semop semid sops sop → Blocked s w semid sop) :
    Waits (s.sleepOn t w) := by
  refine h.setSleep rfl ?_ fun a num z => ?_
  · rintro w' ⟨⟩
    exact ⟨hfresh, hblocked⟩
  · have hself : (s.sleepOn t w).sleep t = some w := update_self ..
    unfold Sems.sleepsAt
    rw [hawake, hself]
    simp [eq_comm (b := w.sma), eq_comm (b := w.num), eq_comm (b := w.forZero)]

theorem awake_waits (h : Waits s) (hw : s.sleep t = some w) : Waits (s.awake t w) := by
  refine h.setSleep rfl (fun w' hw' => by cases hw') fun a num z => ?_
  have hself : (s.awake t w).sleep t = none := update_self ..
  unfold Sems.sleepsAt
  rw [hw, hself]
  by_cases hkey : a = w.sma ∧ num = w.num ∧ z = w.forZero
  · simp [hkey]
  · have hkey' : ¬(w.sma = a ∧ w.num = num ∧ w.forZero = z) :=
      fun h => hkey ⟨h.1.symm, h.2.1.symm, h.2.2.symm⟩
    simp [hkey, hkey']

/-! ## Steps that leave the sleepers where they are -/

structure SameSleepers (s s' : Sems) : Prop where
  semary : ∀ id a, s'.semary id = .set a → s.semary id = .set a
  nextSet : s'.nextSet = s.nextSet
  semNsems : ∀ a, (s'.sets a).semNsems = (s.sets a).semNsems
  waitCount : ∀ a num z, s'.waitCount a num z = s.waitCount a num z
  asleep : ∀ t, s.sleep t = none → s'.sleep t = none
  sleep : ∀ t w, s.sleep t = some w → ∃ r, s'.sleep t = some { w with runnable := r } ∧
    (w.runnable = true → r = true)

theorem SameSleepers.sleepsAt (h : SameSleepers s s') (sma num : ℕ) (z : Bool)
    (t : Task) : s'.sleepsAt sma num z t = s.sleepsAt sma num z t := by
  unfold Sems.sleepsAt
  cases hw : s.sleep t with
  | none => rw [h.asleep t hw]
  | some w =>
    obtain ⟨r, hr, _⟩ := h.sleep t w hw
    rw [hr]

variable {s1 : Sems}

theorem SameSleepers.trans {s2 s3 : Sems} (h1 : SameSleepers s1 s2) (h2 : SameSleepers s2 s3) :
    SameSleepers s1 s3 := by
  constructor
  · intro id a hid
    exact h1.semary id a (h2.semary id a hid)
  · rw [h2.nextSet, h1.nextSet]
  · intro a
    rw [h2.semNsems, h1.semNsems]
  · intro a num z
    rw [h2.waitCount, h1.waitCount]
  · intro t ht
    exact h2.asleep t (h1.asleep t ht)
  · intro t w hw
    obtain ⟨r, hr, hrun⟩ := h1.sleep t w hw
    obtain ⟨r', hr', hrun'⟩ := h2.sleep t _ hr
    exact ⟨r', hr', fun h => hrun' (hrun h)⟩

theorem SameSleepers.waits (hsame : SameSleepers s s') (h : Waits s)
    (hblocked : ∀ t w w' semid sop, s.sleep t = some w → s'.sleep t = some w' →
      w'.runnable = false → Blocked s w semid sop → Blocked s' w semid sop) : Waits s' := by
  have hback : ∀ t w', s'.sleep t = some w' → ∃ w, s.sleep t = some w ∧ w'.sma = w.sma ∧
      w'.num = w.num ∧ w'.forZero = w.forZero ∧ w'.waiting = w.waiting ∧
      (w.runnable = true → w'.runnable = true) := by
    intro t w' hw'
    cases hw : s.sleep t with
    | none =>
      rw [hsame.asleep t hw] at hw'
      simp at hw'
    | some w =>
      obtain ⟨r, hr, hrun⟩ := hsame.sleep t w hw
      rw [hr, Option.some.injEq] at hw'
      rw [← hw']
      exact ⟨w, rfl, rfl, rfl, rfl, rfl, hrun⟩
  constructor
  · intro id a hid
    rw [hsame.nextSet]
    exact h.slot_fresh id a (hsame.semary id a hid)
  · intro t w' hw'
    obtain ⟨w, hw, hsma, _⟩ := hback t w' hw'
    rw [hsma, hsame.nextSet]
    exact h.fresh t w hw
  · intro t w' semid sops sop hw' hwaiting
    obtain ⟨w, hw, hsma, hnum, hz, heq, hrun⟩ := hback t w' hw'
    cases hrun' : w'.runnable with
    | true => exact Or.inr rfl
    | false =>
      left
      rcases h.blocked t w semid sops sop hw (heq.symm.trans hwaiting) with hb | hr
      · have hb' := hblocked t w w' semid sop hw hw' hrun' hb
        unfold Blocked at hb' ⊢
        rw [hsma, hnum, hz]
        exact hb'
      · rw [hrun hr] at hrun'
        simp at hrun'
  · intro a ha num hnum z
    rw [hsame.nextSet] at ha
    rw [hsame.semNsems] at hnum
    rw [hsame.waitCount, h.count a ha num hnum z, sleepers_congr (hsame.sleepsAt a num z)]

theorem SameSleepers.of_eq
    (hsemary : ∀ id a, s'.semary id = .set a → s.semary id = .set a)
    (hnext : s'.nextSet = s.nextSet) (hnsems : ∀ a, (s'.sets a).semNsems = (s.sets a).semNsems)
    (hcount : ∀ a num z, s'.waitCount a num z = s.waitCount a num z)
    (hsleep : s'.sleep = s.sleep) : SameSleepers s s' := by
  refine ⟨hsemary, hnext, hnsems, hcount, ?_, ?_⟩
  · intro t ht
    rw [hsleep]
    exact ht
  · intro t w hw
    refine ⟨w.runnable, ?_, id⟩
    rw [hsleep]
    exact hw

theorem SameFrame.sameSleepers (h : SameFrame s s') (hsleep : s'.sleep = s.sleep) :
    SameSleepers s s' := by
  apply SameSleepers.of_eq _ h.nextSet h.semNsems _ hsleep
  · intro id a hid
    rw [h.semary] at hid
    exact hid
  · intro a num z
    unfold Sems.waitCount
    rw [h.semncnt, h.semzcnt]

theorem wakeUp_sameSleepers (s : Sems) (sma : ℕ) (z : Bool) : SameSleepers s (s.wakeUp sma z) := by
  refine ⟨fun id a hid => hid, rfl, fun a => rfl, fun a num z' => rfl, ?_, ?_⟩
  · intro t ht
    simp only [Sems.wakeUp, ht, Option.map_none]
  · intro t w hw
    simp only [Sems.wakeUp, hw, Option.map_some]
    split
    · exact ⟨true, rfl, fun _ => rfl⟩
    · exact ⟨w.runnable, rfl, fun h => h⟩

theorem UndosAdded.sameSleepers (h : UndosAdded s s' sma) : SameSleepers s s' := by
  apply SameSleepers.of_eq _ h.nextSet h.semNsems _ h.sleep
  · intro id a hid
    rw [h.semary] at hid
    exact hid
  · intro a num z
    unfold Sems.waitCount
    rw [h.base]

variable {semid : ℕ}

theorem Blocked.of_eq {sop : Sembuf}
    (h : Blocked s w semid sop) (hseq : (s'.sets w.sma).seq = (s.sets w.sma).seq)
    (hval : s'.semval w.sma sop.num = s.semval w.sma sop.num) : Blocked s' w semid sop := by
  unfold Blocked
  rw [hseq, hval]
  exact h

theorem wakeUp_woken {z : Bool} {w' : Sleeper}
    (hw : s.sleep t = some w) (hw' : (s.wakeUp sma z).sleep t = some w')
    (hrun : w'.runnable = false) : ¬(w.sma = sma ∧ w.forZero = z) := by
  obtain ⟨w0, hw0, _, _, _, _, himp⟩ := wakeUp_sleep hw'
  rw [hw, Option.some.injEq] at hw0
  rw [hw0]
  exact (himp hrun).2

def NoUnderflow (value : ℕ → ℤ) : List Sembuf → Prop
  | [] => True
  | sop :: rest =>
    0 ≤ value sop.num + sop.op ∧
      NoUnderflow (update value sop.num (toUshort (value sop.num + sop.op))) rest

theorem toUshort_le {x : ℤ} (h : 0 ≤ x) : toUshort x ≤ x := by
  unfold toUshort
  omega

theorem applyOp_semval_update (s : Sems) (t : Task) (semid sma : ℕ) (sop : Sembuf) :
    (s.applyOp t semid sma sop).semval sma = update (s.semval sma) sop.num
      (toUshort (s.semval sma sop.num + sop.op)) := by
  funext n
  rw [applyOp_semval]
  by_cases hn : n = sop.num
  · rw [hn, if_pos ⟨rfl, rfl⟩, update_self]
  · rw [if_neg (fun h => hn h.2), update_of_ne hn]

variable {sops : List Sembuf}

theorem applyOps_le
    (hneg : ∀ sop ∈ sops, sop.op ≤ 0) (h : NoUnderflow (s.semval sma) sops) (n : ℕ) :
    (s.applyOps t semid sma sops).1.semval sma n ≤ s.semval sma n := by
  induction sops generalizing s with
  | nil => exact le_refl _
  | cons sop rest ih =>
    have hupdate := applyOp_semval_update s t semid sma sop
    have hrest : NoUnderflow ((s.applyOp t semid sma sop).semval sma) rest := by
      rw [hupdate]
      exact h.2
    have hle := ih (fun sop' hsop' => hneg sop' (List.mem_cons_of_mem sop hsop')) hrest
    have hone : (s.applyOp t semid sma sop).semval sma n ≤ s.semval sma n := by
      rw [hupdate]
      by_cases hn : n = sop.num
      · rw [hn, update_self]
        have h1 := toUshort_le h.1
        have h2 := hneg sop (by simp)
        omega
      · rw [update_of_ne hn]
    exact le_trans hle hone

theorem applyOps_ne_zero
    (hzero : (s.applyOps t semid sma sops).2 = false) {n : ℕ} (hn : s.semval sma n ≠ 0) :
    (s.applyOps t semid sma sops).1.semval sma n ≠ 0 := by
  induction sops generalizing s with
  | nil => exact hn
  | cons sop rest ih =>
    unfold Sems.applyOps at hzero ⊢
    rw [Bool.or_eq_false_iff, decide_eq_false_iff_not] at hzero
    apply ih hzero.2
    by_cases heq : n = sop.num
    · rw [heq]
      exact hzero.1
    · rw [applyOp_semval, if_neg (fun h => heq h.2)]
      exact hn

/-! ## The calls -/

def Sems.wakeIf (s : Sems) (sma : ℕ) (z wakes : Bool) : Sems := if wakes then s.wakeUp sma z else s

theorem wakeIf_sameSleepers (s : Sems) (sma : ℕ) (z wakes : Bool) :
    SameSleepers s (s.wakeIf sma z wakes) := by
  unfold Sems.wakeIf
  split
  · exact wakeUp_sameSleepers s sma z
  · exact SameSleepers.of_eq (fun id a hid => hid) rfl (fun a => rfl) (fun a num z' => rfl) rfl

section
variable (h : Waits s)
include h

theorem Waits.storeAndWake (hsame : SameSleepers s s1) (hsleep : s1.sleep = s.sleep) (sma : ℕ)
    (wakeN wakeZ : Bool)
    (hother : ∀ a, a ≠ sma → (s1.sets a).seq = (s.sets a).seq ∧ s1.semval a = s.semval a)
    (hseq : wakeN = false ∨ wakeZ = false → (s1.sets sma).seq = (s.sets sma).seq)
    (hN : wakeN = false → ∀ n, s1.semval sma n ≤ s.semval sma n)
    (hZ : wakeZ = false → ∀ n, s.semval sma n ≠ 0 → s1.semval sma n ≠ 0) :
    Waits ((s1.wakeIf sma false wakeN).wakeIf sma true wakeZ) := by
  have hsame2 := wakeIf_sameSleepers s1 sma false wakeN
  have hsame3 := wakeIf_sameSleepers (s1.wakeIf sma false wakeN) sma true wakeZ
  refine ((hsame.trans hsame2).trans hsame3).waits h ?_
  intro t w w' semid sop hw hw' hrun hb
  have hw1 : s1.sleep t = some w := by
    rw [hsleep]
    exact hw
  obtain ⟨r, hr, _⟩ := hsame2.sleep t w hw1
  obtain ⟨r', hr', himp⟩ := hsame3.sleep t _ hr
  have hr'f : r' = false := by
    rw [hr', Option.some.injEq] at hw'
    rw [← hw'] at hrun
    exact hrun
  have hrf : r = false := by
    cases hr0 : r with
    | false => rfl
    | true =>
      rw [himp hr0] at hr'f
      simp at hr'f
  have hvalues : ((s1.wakeIf sma false wakeN).wakeIf sma true wakeZ).sets = s1.sets := by
    unfold Sems.wakeIf
    split <;> split <;> rfl
  by_cases hsma : w.sma = sma
  · cases hz : w.forZero with
    | false =>
      have hwn : wakeN = false := by
        cases hwake : wakeN with
        | false => rfl
        | true =>
          rw [Sems.wakeIf, if_pos hwake] at hr
          exact absurd ⟨hsma, hz⟩ (wakeUp_woken hw1 hr hrf)
      have hle := hN hwn sop.num
      unfold Blocked Sems.semval at hb ⊢
      rw [hvalues, hz, hsma]
      rw [hz, hsma] at hb
      rw [hseq (Or.inl hwn)]
      refine ⟨hb.1, hb.2.1, ?_⟩
      have hlt := hb.2.2
      simp only [Bool.false_eq_true, if_false] at hlt ⊢
      unfold Sems.semval at hle
      omega
    | true =>
      have hwz : wakeZ = false := by
        cases hwake : wakeZ with
        | false => rfl
        | true =>
          rw [Sems.wakeIf, if_pos hwake] at hr'
          exact absurd ⟨hsma, hz⟩ (wakeUp_woken hr hr' hr'f)
      unfold Blocked Sems.semval at hb ⊢
      rw [hvalues, hz, hsma]
      rw [hz, hsma] at hb
      rw [hseq (Or.inr hwz)]
      refine ⟨hb.1, hb.2.1, hb.2.2.1, ?_⟩
      exact hZ hwz sop.num hb.2.2.2
  · obtain ⟨hseq', hval⟩ := hother w.sma hsma
    apply hb.of_eq
    · rw [hvalues]
      exact hseq'
    · unfold Sems.semval
      rw [hvalues]
      exact congrFun hval sop.num

theorem finish_waits (t : Task) (semid : ℕ)
    (hunder : (∀ sop ∈ sops, sop.op ≤ 0) → NoUnderflow (s.semval sma) sops) :
    Waits (s.finish t semid sma sops).1 := by
  have hframe := applyOps_sameFrame s t semid sma sops
  have hsleep := applyOps_sleep s t semid sma sops
  apply h.storeAndWake (hframe.sameSleepers hsleep) hsleep
  · intro a ha
    exact ⟨hframe.seq a, funext (applyOps_semval_of_ne s t semid sma sops ha)⟩
  · intro _
    exact hframe.seq sma
  · intro hany n
    have hneg : ∀ sop ∈ sops, sop.op ≤ 0 := by
      intro sop hsop
      rw [List.any_eq_false] at hany
      have hnot := hany sop hsop
      simpa using hnot
    exact applyOps_le hneg (hunder hneg) n
  · intro hzero n hn
    exact applyOps_ne_zero hzero hn

omit h in
theorem check_sleep {value : ℕ → ℤ} {sop : Sembuf} {forZero : Bool}
    (h : check value sops = .sleep sop forZero) :
    if forZero then sop.op = 0 ∧ value sop.num ≠ 0 else sop.op + value sop.num < 0 := by
  induction sops with
  | nil => simp [check] at h
  | cons sop' rest ih =>
    unfold check at h
    split at h
    · simp at h
    · split at h
      · rename_i hz
        split at h
        · simp at h
        · rw [Check.sleep.injEq] at h
          rw [← h.1, ← h.2, if_pos rfl]
          exact hz
      · split at h
        · rename_i hneg
          split at h
          · simp at h
          · rw [Check.sleep.injEq] at h
            rw [← h.1, ← h.2, if_neg (by simp)]
            exact hneg
        · exact ih h

theorem slept_waits (hawake : s.sleep t = none) (semid : ℕ) (hfresh : sma < s.nextSet)
    (signal : Bool) (hunder : check (s.semval sma) sops = .pass → (∀ sop ∈ sops, sop.op ≤ 0) →
      NoUnderflow (s.semval sma) sops) : Waits (s.slept t semid sma sops signal).1 := by
  rcases slept_cases s t semid sma sops signal with
    ⟨e, _, heq⟩ | ⟨sop, forZero, hseq, hcheck, heq⟩ | ⟨_, hcheck, heq⟩
  · rw [heq]
    exact h
  · rw [heq]
    apply sleepOn_waits h hawake hfresh
    intro semid' sops' sop' hwaiting
    simp only [Waiting.semop.injEq] at hwaiting
    rw [← hwaiting.1, ← hwaiting.2.2]
    exact ⟨hseq, rfl, check_sleep hcheck⟩
  · rw [heq]
    exact finish_waits h t semid (hunder hcheck)

theorem dropUndo_waits (t : Task) : Waits (s.dropUndo t) :=
  ⟨h.slot_fresh, h.fresh, h.blocked, h.count⟩

omit h in
theorem adjusted_eq (s : Sems) (sma un : ℕ) :
    s.adjusted sma un =
      ((s.setSemval sma (s.undos un).semNum
        (toUshort (s.semval sma (s.undos un).semNum + (s.undos un).semadj))).wakeIf sma false
          (decide (0 < (s.undos un).semadj))).wakeIf sma true
        (decide (toUshort (s.semval sma (s.undos un).semNum + (s.undos un).semadj) = 0)) := by
  have hstored : (s.setSemval sma (s.undos un).semNum
      (toUshort (s.semval sma (s.undos un).semNum + (s.undos un).semadj))).semval sma
        (s.undos un).semNum =
      toUshort (s.semval sma (s.undos un).semNum + (s.undos un).semadj) := by
    rw [setSemval_semval]
    exact if_pos ⟨rfl, rfl⟩
  unfold Sems.adjusted Sems.wakeIf
  simp only [decide_eq_true_eq]
  split
  · rw [wakeUp_semval, hstored]
  · rw [hstored]

theorem adjusted_waits {un : ℕ} (hge : 0 ≤ s.semval sma (s.undos un).semNum + (s.undos un).semadj) :
    Waits (s.adjusted sma un) := by
  have hframe := sameFrame_setSemval s sma (s.undos un).semNum
    (toUshort (s.semval sma (s.undos un).semNum + (s.undos un).semadj))
  rw [adjusted_eq]
  apply h.storeAndWake (hframe.sameSleepers rfl) rfl
  · intro a ha
    refine ⟨hframe.seq a, ?_⟩
    funext n
    rw [setSemval_semval, if_neg (fun h => ha h.1)]
  · intro _
    exact hframe.seq sma
  · intro hpos n
    rw [decide_eq_false_iff_not] at hpos
    rw [setSemval_semval]
    split
    · rename_i hn
      have hle := toUshort_le hge
      rw [hn.2]
      omega
    · exact le_refl _
  · intro hzero n hn
    rw [decide_eq_false_iff_not] at hzero
    rw [setSemval_semval]
    split
    · exact hzero
    · exact hn

theorem adjust_waits (hawake : s.sleep t = none) (hfresh : sma < s.nextSet) (un : ℕ) (signal : Bool)
    : Waits (s.adjust t sma un signal).1 := by
  rcases adjust_cases s t sma un signal with ⟨_, heq⟩ | ⟨_, hge, heq⟩ | ⟨_, _, heq⟩
  · rw [heq]
    exact dropUndo_waits h t
  · rw [heq]
    exact dropUndo_waits (adjusted_waits h hge) t
  · rw [heq]
    apply sleepOn_waits h hawake hfresh
    intro semid sops sop hwaiting
    simp at hwaiting

theorem unlinkUndo_waits (sma un : ℕ) : Waits (s.unlinkUndo sma un) := by
  have hsame : SameSleepers s (s.unlinkUndo sma un) := by
    apply SameSleepers.of_eq
    · exact fun id a hid => hid
    · rfl
    · exact fun a => (unlinkUndo_set s sma un a).2.2
    · intro a num z
      unfold Sems.waitCount
      rw [(unlinkUndo_set s sma un a).1]
    · rfl
  apply hsame.waits h
  intro t w w' semid sop _ _ _ hb
  exact hb.of_eq (unlinkUndo_set s sma un w.sma).2.1 (unlinkUndo_semval s sma un _ _)

theorem exitRecord_waits (hawake : s.sleep t = none) (signal : Bool) :
    Waits (s.exitRecord t signal).1 := by
  rcases exitRecord_cases s t signal with ⟨_, heq⟩ | ⟨un, rest, _, hcases⟩
  · rw [heq]
    exact h
  · rcases hcases with ⟨heq, _⟩ | ⟨sma, hslot, _, ⟨_, heq⟩ | ⟨_, _, heq⟩ | ⟨_, _, heq⟩⟩
    · rw [heq]
      exact dropUndo_waits h t
    · rw [heq]
      exact ⟨h.slot_fresh, h.fresh, h.blocked, h.count⟩
    · rw [heq]
      exact dropUndo_waits (unlinkUndo_waits h sma un) t
    · rw [heq]
      exact adjust_waits (unlinkUndo_waits h sma un) hawake (h.slot_fresh _ _ hslot) un signal

end

/-! ## One step -/

/-- An array without an increment whose operations pass the check does not take
a value below zero. -/
def StepWakes (s : Sems) (e : Event) : Prop :=
  ∀ sma sops, callOf s e = some (sma, sops) → check (s.semval sma) sops = .pass →
    (∀ sop ∈ sops, sop.op ≤ 0) → NoUnderflow (s.semval sma) sops

section
variable (h : Waits s)
include h

theorem resume_waits {signal : Bool} (hstep : StepWakes s (.resume t signal)) :
    Waits (s.resume t signal).1 := by
  unfold Sems.resume
  split
  · exact h
  · rename_i w hw
    have hawake := awake_waits h hw
    have hself : (s.awake t w).sleep t = none := update_self ..
    have hfresh : w.sma < (s.awake t w).nextSet := by
      change w.sma < (s.addWaiting w.sma w.num w.forZero (-1)).nextSet
      rw [addWaiting_nextSet]
      exact h.fresh t w hw
    split
    · split
      · rename_i semid sops sop hwaiting
        have hcall : callOf s (.resume t signal) = some (w.sma, sops) := by
          simp only [callOf, hw, hwaiting]
        apply slept_waits hawake hself semid hfresh signal
        rw [awake_semval]
        exact hstep w.sma sops hcall
      · exact adjust_waits hawake hself hfresh _ signal
    · exact h

theorem semop_waits (hundos : UndosOk s) (hawake : s.sleep t = none) {permitted : Bool} {free : ℕ}
    {signal : Bool} (hstep : StepWakes s (.semop t semid sops permitted free signal)) :
    Waits (s.semop t semid sops permitted free signal).1 := by
  have hadd : ∀ s1 sma, UndosAdded s s1 sma → Waits s1 := by
    intro s1 sma hadded
    apply hadded.sameSleepers.waits h
    intro t' w w' semid' sop _ _ _ hb
    exact hb.of_eq (hadded.seq w.sma) (hadded.semval _ _)
  rcases semop_cases hundos t semid sops permitted free signal with
    ⟨e, s1, sma, _, hadded, heq⟩ | ⟨s1, sma, hslot, hadded, _, heq⟩
  · rw [heq]
    exact hadd s1 sma hadded
  · rw [heq]
    have hcall : callOf s (.semop t semid sops permitted free signal) = some (sma, sops) := by
      simp only [callOf, hslot]
    have hvalue : s1.semval sma = s.semval sma := funext (hadded.semval sma)
    apply slept_waits (hadd s1 sma hadded)
    · rw [hadded.sleep]
      exact hawake
    · rw [hadded.nextSet]
      exact h.slot_fresh _ _ hslot
    · rw [hvalue]
      exact hstep sma sops hcall

theorem interrupt_waits (t : Task) : Waits (s.interrupt t) := by
  have hsame : SameSleepers s (s.interrupt t) := by
    refine ⟨fun id a hid => hid, rfl, fun a => rfl, fun a num z => rfl, ?_, ?_⟩
    · intro t' ht'
      simp only [Sems.interrupt]
      by_cases ht : t' = t
      · rw [ht] at ht'
        rw [ht, update_self, ht']
        rfl
      · rw [update_of_ne ht]
        exact ht'
    · intro t' w hw
      simp only [Sems.interrupt]
      by_cases ht : t' = t
      · rw [ht] at hw
        rw [ht, update_self, hw]
        exact ⟨true, rfl, fun _ => rfl⟩
      · rw [update_of_ne ht]
        exact ⟨w.runnable, hw, fun h => h⟩
  apply hsame.waits h
  intro t' w w' semid sop _ _ _ hb
  exact hb

theorem newary_waits (id nsems : ℕ) (behind : Sem) : Waits (s.newary id nsems behind).1 := by
  rcases newary_cases s id nsems behind with heq | ⟨_, _, r, heq⟩
  · rw [heq]
    exact h
  · rw [heq]
    constructor
    · intro id' a hid'
      dsimp only at hid' ⊢
      by_cases he : id' = id
      · rw [he, update_self, Slot.set.injEq] at hid'
        omega
      · rw [update_of_ne he] at hid'
        exact Nat.lt_succ_of_lt (h.slot_fresh id' a hid')
    · intro t w hw
      exact Nat.lt_succ_of_lt (h.fresh t w hw)
    · intro t w semid sops sop hw hwaiting
      have hne : w.sma ≠ s.nextSet := ne_of_lt (h.fresh t w hw)
      unfold Blocked Sems.semval
      dsimp only
      rw [update_of_ne hne]
      exact h.blocked t w semid sops sop hw hwaiting
    · intro a ha num hnum z
      unfold Sems.waitCount
      dsimp only at hnum ⊢
      by_cases hnew : a = s.nextSet
      · -- nobody can sleep on a set that did not exist
        rw [hnew, update_self] at hnum ⊢
        dsimp only at hnum ⊢
        rw [if_pos hnum, ite_self]
        symm
        rw [Nat.cast_eq_zero]
        unfold Sems.sleepers
        rw [Finset.card_eq_zero, Finset.filter_eq_empty_iff]
        intro t _
        unfold Sems.sleepsAt
        cases hw : s.sleep t with
        | none => simp
        | some w =>
          have hlt := h.fresh t w hw
          have hne : w.sma ≠ s.nextSet := ne_of_lt hlt
          simp [hne]
      · rw [update_of_ne hnew] at hnum ⊢
        have hlt : a < s.nextSet := by
          have : a < s.nextSet + 1 := ha
          omega
        exact h.count a hlt num hnum z

omit h in
theorem wakeUp_comm (s : Sems) (sma : ℕ) :
    (s.wakeUp sma true).wakeUp sma false = (s.wakeUp sma false).wakeUp sma true := by
  unfold Sems.wakeUp
  dsimp only
  congr 1
  funext t
  cases s.sleep t with
  | none => rfl
  | some w =>
    cases hz : w.forZero <;> by_cases hsma : w.sma = sma <;> simp [hz, hsma]

theorem Waits.wakeAll (hsame : SameSleepers s s1) (hsleep : s1.sleep = s.sleep) (sma : ℕ)
    (hother : ∀ a, a ≠ sma → (s1.sets a).seq = (s.sets a).seq ∧ s1.semval a = s.semval a) :
    Waits ((s1.wakeUp sma false).wakeUp sma true) :=
  h.storeAndWake hsame hsleep sma true true hother (by simp) (by simp) (by simp)

theorem setval_waits (semid semnum : ℕ) (val : ℤ) (permitted : Bool) :
    Waits (s.setval semid semnum val permitted).1 := by
  rcases setval_cases s semid semnum val permitted with ⟨e, heq⟩ | ⟨sma, _, _, _, heq⟩
  · rw [heq]
    exact h
  · rw [heq]
    have hclear : SameSleepers s (s.clearUndos sma fun u => u.semNum = semnum) := by
      apply SameSleepers.of_eq
      · exact fun id a hid => hid
      all_goals simp [Sems.clearUndos, Sems.waitCount]
    have hframe := sameFrame_setSemval (s.clearUndos sma fun u => u.semNum = semnum) sma semnum val
    apply h.wakeAll (hclear.trans (hframe.sameSleepers rfl)) rfl
    intro a ha
    refine ⟨hframe.seq a, ?_⟩
    funext n
    rw [setSemval_semval, if_neg (fun h => ha h.1)]
    rfl

theorem setall_waits (semid semnum : ℕ) (vals : ℕ → UInt16) (permitted : Bool) :
    Waits (s.setall semid semnum vals permitted).1 := by
  rcases setall_cases s semid semnum vals permitted with ⟨e, heq⟩ | ⟨sma, _, _, heq⟩
  · rw [heq]
    exact h
  · rw [heq]
    have hset : ∀ a, a ≠ sma → ((s.setSemvals sma fun num => (vals num).toNat).clearUndos sma
        fun _ => true).sets a = s.sets a := by
      intro a ha
      exact update_of_ne ha ..
    have hself : ((s.setSemvals sma fun num => (vals num).toNat).clearUndos sma
        fun _ => true).sets sma =
        { s.sets sma with
          base := fun num =>
            if num < (s.sets sma).semNsems then
              { (s.sets sma).base num with semval := (vals num).toNat }
            else (s.sets sma).base num } := update_self ..
    have hsame : SameSleepers s
        ((s.setSemvals sma fun num => (vals num).toNat).clearUndos sma fun _ => true) := by
      apply SameSleepers.of_eq
      · exact fun id a hid => hid
      · rfl
      · intro a
        by_cases ha : a = sma
        · rw [ha, hself]
        · rw [hset a ha]
      · intro a num z
        unfold Sems.waitCount
        by_cases ha : a = sma
        · rw [ha, hself]
          dsimp only
          split <;> split <;> rfl
        · rw [hset a ha]
      · rfl
    apply h.wakeAll hsame rfl
    intro a ha
    unfold Sems.semval
    rw [hset a ha]
    exact ⟨rfl, rfl⟩

theorem rmid_waits (semid semnum : ℕ) (permitted : Bool) :
    Waits (s.rmid semid semnum permitted).1 := by
  rcases rmid_cases s semid semnum permitted with ⟨e, heq⟩ | ⟨sma, _, heq⟩
  · rw [heq]
    exact h
  · rw [heq, wakeUp_comm]
    have hset : ∀ a, a ≠ sma → (s.removed semid sma).sets a = s.sets a :=
      fun a ha => update_of_ne ha ..
    have hself : (s.removed semid sma).sets sma =
        { s.sets sma with seq := ((s.sets sma).seq + 1) % 65536 } := update_self ..
    have hsame : SameSleepers s (s.removed semid sma) := by
      apply SameSleepers.of_eq
      · intro id a hid
        simp only [Sems.removed] at hid
        by_cases he : id = semid % semmni
        · rw [he, update_self] at hid
          simp at hid
        · rw [update_of_ne he] at hid
          exact hid
      · rfl
      · intro a
        by_cases ha : a = sma
        · rw [ha, hself]
        · rw [hset a ha]
      · intro a num z
        unfold Sems.waitCount
        by_cases ha : a = sma
        · rw [ha, hself]
        · rw [hset a ha]
      · rfl
    apply h.wakeAll hsame rfl
    intro a ha
    unfold Sems.semval
    rw [hset a ha]
    exact ⟨rfl, rfl⟩

theorem Waits.step (hundos : UndosOk s) {e : Event} (hstep : StepWakes s e) :
    Waits (s.step e).1 := by
  cases e with
  | newary id nsems behind => exact newary_waits h id nsems behind
  | semop t semid sops permitted free signal =>
    unfold Sems.step
    dsimp only
    split
    · exact h
    · rename_i hasleep
      exact semop_waits h hundos (by simpa using hasleep) hstep
  | resume t signal => exact resume_waits h hstep
  | interrupt t => exact interrupt_waits h t
  | exitRecord t signal =>
    unfold Sems.step
    dsimp only
    split
    · exact h
    · rename_i hasleep
      exact exitRecord_waits h (by simpa using hasleep) signal
  | setval semid semnum val permitted => exact setval_waits h semid semnum val permitted
  | setall semid semnum vals permitted => exact setall_waits h semid semnum vals permitted
  | rmid semid semnum permitted => exact rmid_waits h semid semnum permitted

end

/-! ## Runs -/

def RunWakes : Sems → List Event → Prop
  | _, [] => True
  | s, e :: es => StepWakes s e ∧ RunWakes (s.step e).1 es

theorem Waits.run (h : Waits s) (hundos : UndosOk s) {es : List Event}
    (hrun : RunWakes s es) : Waits (s.run es) := by
  induction es generalizing s with
  | nil => exact h
  | cons e es ih => exact ih (h.step hundos hrun.1) (hundos.step e) hrun.2

theorem init_waits : Waits Sems.init := by
  constructor <;> simp [Sems.init]

/-- In every run whose steps take no value below zero a task that sleeps in
`sys_semop` is runnable or still blocked, and the counters count the sleepers. -/
theorem run_no_lost_wakeup (es : List Event) (hrun : RunWakes Sems.init es) :
    let s := Sems.init.run es
    (∀ t w semid sops sop, s.sleep t = some w → w.waiting = .semop semid sops sop →
      Blocked s w semid sop ∨ w.runnable = true) ∧
    ∀ id sma, s.semary id = .set sma → ∀ num < (s.sets sma).semNsems,
      ((s.sets sma).base num).semncnt = s.sleepers sma num false ∧
        ((s.sets sma).base num).semzcnt = s.sleepers sma num true := by
  intro s
  have h : Waits s := init_waits.run init_undosOk hrun
  refine ⟨h.blocked, ?_⟩
  intro id sma hslot num hnum
  have hlt := h.slot_fresh id sma hslot
  exact ⟨h.count sma hlt num hnum false, h.count sma hlt num hnum true⟩

local instance waitTasks : NeZero 128 := ⟨by decide⟩

def waitForOne : List Event := [.newary 0 1 ⟨0, 0, 0⟩, .semop 0 0 [plainOp (-1)] true 0 false]

theorem waitForOne_wakes : RunWakes Sems.init waitForOne := by
  refine ⟨by simp [StepWakes, callOf], ?_, trivial⟩
  intro sma sops hcall hcheck
  have hslot : (Sems.init.step (.newary 0 1 ⟨0, 0, 0⟩)).1.semary (0 % semmni) = .set 0 := by decide
  simp only [callOf, hslot, Option.some.injEq, Prod.mk.injEq] at hcall
  rw [← hcall.1, ← hcall.2] at hcheck
  exact absurd (check_pass_cons.mp hcheck).2.2.1 (by decide)

theorem run_no_lost_wakeup_waitForOne :
    let s := Sems.init.run waitForOne
    (∀ t w semid sops sop, s.sleep t = some w → w.waiting = .semop semid sops sop →
      Blocked s w semid sop ∨ w.runnable = true) ∧
    ∀ id sma, s.semary id = .set sma → ∀ num < (s.sets sma).semNsems,
      ((s.sets sma).base num).semncnt = s.sleepers sma num false ∧
        ((s.sets sma).base num).semzcnt = s.sleepers sma num true :=
  run_no_lost_wakeup waitForOne waitForOne_wakes

/-- The second task waits to take 5 from a semaphore with value one.  Two
decrements in one array and another one by 32768 leave 32767, and it is still
not woken. -/
theorem underflow_wakes_nobody :
    let s := Sems.init.run (oneSemaphore ++ [.semop 1 0 [plainOp (-5)] true 0 false,
      .semop 0 0 [plainOp (-1), plainOp (-1)] true 0 false,
      .semop 0 0 [plainOp (-32768)] true 0 false])
    s.semval 0 0 = 32767 ∧
      ∃ w, s.sleep 1 = some w ∧ w.waiting = .semop 0 [plainOp (-5)] (plainOp (-5)) ∧
        ¬Blocked s w 0 (plainOp (-5)) ∧ w.runnable = false := by
  refine ⟨by decide, ⟨0, 0, false, .semop 0 [plainOp (-5)] (plainOp (-5)), false⟩, rfl, rfl, ?_,
      rfl⟩
  rintro ⟨_, _, hlt⟩
  exact absurd hlt (by decide)

end LinuxKernel.Semaphore
