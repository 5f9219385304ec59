import LinuxKernel.SemaphoreValues

/-!
# Conservation by `SEM_UNDO`

Where every operation carries `SEM_UNDO`, the value of a semaphore and the
adjustments recorded for it add up to the same sum at all times, as long as no
value and no `semadj` leaves its type and no exiting task gives up on a signal.
-/

namespace LinuxKernel.Semaphore
open Function List

variable {un : ℕ}

theorem sum_map_change {f g : ℕ → ℤ} {list : List ℕ} (hnodup : list.Nodup)
    (hmem : un ∈ list) (heq : ∀ x ∈ list, x ≠ un → g x = f x) :
    (list.map g).sum = (list.map f).sum + (g un - f un) := by
  induction list with
  | nil => simp at hmem
  | cons x rest ih =>
    obtain ⟨hnot, hnodup'⟩ := nodup_cons.mp hnodup
    rw [map_cons, map_cons, sum_cons, sum_cons]
    rcases mem_cons.mp hmem with hun | hun
    · have hrest : rest.map g = rest.map f := by
        apply map_congr_left
        intro y hy
        apply heq y (mem_cons_of_mem x hy)
        intro hyun
        rw [hyun, hun] at hy
        exact hnot hy
      rw [hrest, hun]
      ring
    · have hx : g x = f x := by
        apply heq x (mem_cons_self ..)
        intro hxun
        rw [hxun] at hnot
        exact hnot hun
      rw [hx, ih hnodup' hun (fun y hy => heq y (mem_cons_of_mem x hy))]
      ring

def Sems.adjSum (s : Sems) (semid num : ℕ) : ℤ := ∑ t, s.adj t semid num

def Sems.total (s : Sems) (sma semid num : ℕ) : ℤ := s.semval sma num + s.adjSum semid num

variable {s s' : Sems}

theorem Unchanged.total (h : Unchanged s s') (sma semid num : ℕ) :
    s'.total sma semid num = s.total sma semid num := by
  unfold Sems.total Sems.adjSum
  rw [h.semval]
  congr 1
  apply Finset.sum_congr rfl
  intro t _
  exact h.adj t semid num

variable {t : Task}

theorem setSemadj_adj (h : UndosOk s) (hun : un ∈ s.semun t)
    (value : ℤ) (t' : Task) (semid num : ℕ) :
    (s.setSemadj un value).adj t' semid num = s.adj t' semid num +
      if t' = t ∧ (s.undos un).semid = semid ∧ (s.undos un).semNum = num then
        value - (s.undos un).semadj else 0 := by
  have hother : ∀ x, x ≠ un →
    (s.setSemadj un value).undoAdj semid num x = s.undoAdj semid num x := by
    intro x hx
    unfold Sems.undoAdj Sems.setSemadj
    simp [hx]
  by_cases ht : t' = t
  · rw [ht]
    have hchange := sum_map_change (f := s.undoAdj semid num)
      (g := (s.setSemadj un value).undoAdj semid num) (h.nodup t) hun (fun x _ hx => hother x hx)
    unfold Sems.adj
    rw [show (s.setSemadj un value).semun = s.semun from rfl, hchange]
    unfold Sems.undoAdj Sems.setSemadj
    simp only [update_self, true_and]
    split
    · rfl
    · ring
  · rw [if_neg (fun h => ht h.1), add_zero]
    apply adj_congr
    · rfl
    · intro x hx
      apply update_of_ne
      intro hxun
      rw [hxun] at hx
      exact ht (h.apart t' t un hx hun)

theorem setSemadj_adjSum (h : UndosOk s) (hun : un ∈ s.semun t)
    (value : ℤ) (semid num : ℕ) :
    (s.setSemadj un value).adjSum semid num = s.adjSum semid num +
      if (s.undos un).semid = semid ∧ (s.undos un).semNum = num then
        value - (s.undos un).semadj else 0 := by
  unfold Sems.adjSum
  rw [sum_change (f := fun t' => s.adj t' semid num) t]
  · rw [setSemadj_adj h hun]
    simp only [true_and]
    ring
  · intro t' ht'
    rw [setSemadj_adj h hun, if_neg (fun h => ht' h.1), add_zero]

/-! ## The record of an operation -/

variable {semid num : ℕ}

theorem findUndo_some
    (h : s.findUndo t semid num = some un) :
    un ∈ s.semun t ∧ (s.undos un).semid = semid ∧ (s.undos un).semNum = num := by
  have hprop := List.find?_some h
  simp only [decide_eq_true_eq] at hprop
  exact ⟨mem_of_find?_eq_some h, hprop⟩

def Found (s : Sems) (t : Task) (semid num : ℕ) : Prop :=
  ∃ un ∈ s.semun t, (s.undos un).semid = semid ∧ (s.undos un).semNum = num

theorem Found.findUndo (h : Found s t semid num) : ∃ un, s.findUndo t semid num = some un := by
  obtain ⟨un, hun, hrecord⟩ := h
  apply Option.isSome_iff_exists.mp
  unfold Sems.findUndo
  rw [List.find?_isSome]
  exact ⟨un, hun, by simpa using hrecord⟩

theorem Found.of_sameFrame (h : Found s t semid num)
    (hframe : SameFrame s s') : Found s' t semid num := by
  obtain ⟨un, hun, h1, h2⟩ := h
  refine ⟨un, ?_, ?_, ?_⟩
  · rw [hframe.semun]
    exact hun
  · rw [(hframe.record un).1, h1]
  · rw [(hframe.record un).2, h2]

theorem findUndo_sameFrame (h : SameFrame s s') (t : Task) (semid num : ℕ) :
    s'.findUndo t semid num = s.findUndo t semid num := by
  unfold Sems.findUndo
  rw [h.semun]
  congr 1
  funext un
  rw [(h.record un).1, (h.record un).2]

/-- The adjustment in the record that `sys_semop` finds for a semaphore, zero
where it makes a new one. -/
def Sems.recAdj (s : Sems) (t : Task) (semid num : ℕ) : ℤ :=
  match s.findUndo t semid num with
  | some un => (s.undos un).semadj
  | none => 0

def AdjOk (adj : ℕ → ℤ) : List Sembuf → Prop
  | [] => True
  | sop :: rest =>
    -32768 ≤ adj sop.num - sop.op ∧ adj sop.num - sop.op ≤ 32767 ∧
      AdjOk (update adj sop.num (adj sop.num - sop.op)) rest

def ValOk (value : ℕ → ℤ) : List Sembuf → Prop
  | [] => True
  | sop :: rest =>
    0 ≤ value sop.num + sop.op ∧ value sop.num + sop.op ≤ 65535 ∧
      ValOk (update value sop.num (value sop.num + sop.op)) rest

theorem toUshort_eq_self {x : ℤ} (h1 : 0 ≤ x) (h2 : x ≤ 65535) : toUshort x = x :=
  Int.emod_eq_of_lt h1 (by omega)

theorem toShort_eq {x : ℤ} (h1 : -32768 ≤ x) (h2 : x ≤ 32767) : toShort x = x := by
  unfold toShort
  rw [Int.bmod_def]
  omega

variable {sma : ℕ} {sop : Sembuf}

theorem applyOp_found
    (hundo : sop.undo = true) (hfound : s.findUndo t semid sop.num = some un) :
    s.applyOp t semid sma sop =
      (s.setSemval sma sop.num (toUshort (s.semval sma sop.num + sop.op))).setSemadj un
        (toShort ((s.undos un).semadj - sop.op)) := by
  have hfind : (s.setSemval sma sop.num (toUshort (s.semval sma sop.num + sop.op))).findUndo
      t semid sop.num = some un := by
    exact hfound
  unfold Sems.applyOp
  rw [if_pos hundo, hfind]
  rfl

theorem applyOp_recAdj
    (hundo : sop.undo = true) (hfound : Found s t semid sop.num)
    (h1 : -32768 ≤ s.recAdj t semid sop.num - sop.op)
    (h2 : s.recAdj t semid sop.num - sop.op ≤ 32767) :
    (s.applyOp t semid sma sop).recAdj t semid =
      update (s.recAdj t semid) sop.num (s.recAdj t semid sop.num - sop.op) := by
  obtain ⟨un, hun⟩ := hfound.findUndo
  have hold : s.recAdj t semid sop.num = (s.undos un).semadj := by
    unfold Sems.recAdj
    rw [hun]
  rw [hold] at h1 h2
  have hrecord := findUndo_some hun
  funext num
  have hsame := findUndo_sameFrame (applyOp_sameFrame s t semid sma sop) t semid num
  by_cases hnum : num = sop.num
  · rw [hnum, update_self, hold]
    rw [hnum] at hsame
    unfold Sems.recAdj
    rw [hsame, hun, applyOp_found hundo hun]
    unfold Sems.setSemadj
    simp only [update_self]
    rw [toShort_eq h1 h2]
  · rw [update_of_ne hnum]
    unfold Sems.recAdj
    rw [hsame]
    cases hother : s.findUndo t semid num with
    | none => rfl
    | some un' =>
      have hrecord' := findUndo_some hother
      have hne : un' ≠ un := by
        intro heq
        rw [heq] at hrecord'
        exact hnum (hrecord'.2.2.symm.trans hrecord.2.2)
      rw [applyOp_found hundo hun]
      unfold Sems.setSemadj
      simp only [update_of_ne hne]
      rfl

variable {sma' semid' : ℕ}

theorem applyOp_total (h : UndosOk s)
    (hundo : sop.undo = true) (hfound : Found s t semid sop.num)
    (hv1 : 0 ≤ s.semval sma sop.num + sop.op) (hv2 : s.semval sma sop.num + sop.op ≤ 65535)
    (h1 : -32768 ≤ s.recAdj t semid sop.num - sop.op)
    (h2 : s.recAdj t semid sop.num - sop.op ≤ 32767)
    (hsame : sma' = sma ↔ semid' = semid) (num : ℕ) :
    (s.applyOp t semid sma sop).total sma' semid' num = s.total sma' semid' num := by
  obtain ⟨un, hun⟩ := hfound.findUndo
  have hold : s.recAdj t semid sop.num = (s.undos un).semadj := by
    unfold Sems.recAdj
    rw [hun]
  rw [hold] at h1 h2
  obtain ⟨hmem, hsemid, hnum⟩ := findUndo_some hun
  have hadj : (s.applyOp t semid sma sop).adjSum semid' num = s.adjSum semid' num +
      if semid = semid' ∧ sop.num = num then -sop.op else 0 := by
    rw [applyOp_found hundo hun]
    have hundos : UndosOk (s.setSemval sma sop.num (toUshort (s.semval sma sop.num + sop.op))) :=
      h.of_eq rfl rfl
    rw [setSemadj_adjSum hundos (t := t) hmem, toShort_eq h1 h2]
    change _ + (if (s.undos un).semid = semid' ∧ (s.undos un).semNum = num then
      (s.undos un).semadj - sop.op - (s.undos un).semadj else 0) = _
    rw [hsemid, hnum, sub_sub_cancel_left]
    rfl
  unfold Sems.total
  rw [hadj, applyOp_semval, toUshort_eq_self hv1 hv2]
  by_cases hset : sma' = sma
  · have hid := hsame.mp hset
    by_cases hn : num = sop.num
    · rw [if_pos ⟨hset, hn⟩, if_pos ⟨hid.symm, hn.symm⟩, hset, hn]
      ring
    · rw [if_neg (fun h => hn h.2), if_neg (fun h => hn h.2.symm), add_zero]
  · have hid : semid ≠ semid' := fun h => hset (hsame.mpr h.symm)
    rw [if_neg (fun h => hset h.1), if_neg (fun h => hid h.1), add_zero]

theorem applyOps_total (h : UndosOk s)
    {sops : List Sembuf} (hundo : ∀ sop ∈ sops, sop.undo = true)
    (hfound : ∀ sop ∈ sops, Found s t semid sop.num) (hseq : ValOk (s.semval sma) sops)
    (hadj : AdjOk (s.recAdj t semid) sops)
    (hsame : sma' = sma ↔ semid' = semid) (num : ℕ) :
    (s.applyOps t semid sma sops).1.total sma' semid' num = s.total sma' semid' num := by
  induction sops generalizing s with
  | nil => rfl
  | cons sop rest ih =>
    obtain ⟨hv1, hv2, hseq'⟩ := hseq
    obtain ⟨h1, h2, hadj'⟩ := hadj
    have hundo1 := hundo sop (by simp)
    have hfound1 := hfound sop (by simp)
    have hframe := applyOp_sameFrame s t semid sma sop
    have hstep : (s.applyOp t semid sma sop).semval sma =
        update (s.semval sma) sop.num (s.semval sma sop.num + sop.op) := by
      funext n
      rw [applyOp_semval]
      by_cases hn : n = sop.num
      · rw [hn, if_pos ⟨rfl, rfl⟩, update_self, toUshort_eq_self hv1 hv2]
      · rw [if_neg (fun h => hn h.2), update_of_ne hn]
    unfold Sems.applyOps
    rw [ih (h.of_eq hframe.semun hframe.nextUndo)
      (fun sop' hsop' => hundo sop' (mem_cons_of_mem sop hsop'))
      (fun sop' hsop' => (hfound sop' (mem_cons_of_mem sop hsop')).of_sameFrame hframe)
      (by rw [hstep]; exact hseq')
      (by rw [applyOp_recAdj hundo1 hfound1 h1 h2]; exact hadj')]
    exact applyOp_total h hundo1 hfound1 hv1 hv2 h1 h2 hsame num

/-! ## Records and sets while no set is removed -/

def Live (s : Sems) (semid sma : ℕ) : Prop :=
  s.semary (semid % semmni) = .set sma ∧ (s.sets sma).seq = semid / semmni

def ExitSleep (s : Sems) (t : Task) (un : ℕ) : Prop :=
  ∃ w, s.sleep t = some w ∧ w.waiting = .exit un

/-- How records, sets and sleepers hang together in a run without `IPC_RMID`.
`held` is the record `sem_exit` has in its hands. -/
structure Linkage (held : Option (Task × ℕ)) (s : Sems) : Prop where
  undosOk : UndosOk s
  slot_inj : ∀ id id' a, s.semary id = .set a → s.semary id' = .set a → id = id'
  slot_fresh : ∀ id a, s.semary id = .set a → a < s.nextSet
  record : ∀ t, ∀ un ∈ s.semun t, ∃ sma, s.semary ((s.undos un).semid % semmni) = .set sma ∧
    (un ∈ (s.sets sma).undo ∨ ExitSleep s t un ∨ held = some (t, un))
  semop_slot : ∀ t w semid sops sop, s.sleep t = some w → w.waiting = .semop semid sops sop →
    s.semary (semid % semmni) = .set w.sma
  semop_found : ∀ t w semid sops sop, s.sleep t = some w → w.waiting = .semop semid sops sop →
    ∀ sop' ∈ sops, sop'.undo = true → Found s t semid sop'.num
  exit_head : ∀ t w un, s.sleep t = some w → w.waiting = .exit un →
    (∃ rest, s.semun t = un :: rest) ∧ s.semary ((s.undos un).semid % semmni) = .set w.sma

theorem Live.sma_eq (h : Live s semid sma)
    (h' : s.semary (semid % semmni) = .set sma') : sma = sma' := by
  have heq := h.1.symm.trans h'
  rwa [Slot.set.injEq] at heq

variable {held : Option (Task × ℕ)}

theorem Linkage.semid_eq (h : Linkage held s) (hlive : Live s semid sma)
    (hlive' : Live s semid' sma) : semid = semid' := by
  have hslot := h.slot_inj _ _ sma hlive.1 hlive'.1
  have hseq : semid / semmni = semid' / semmni := by
    rw [← hlive.2, hlive'.2]
  unfold semmni at hslot hseq
  omega

theorem Linkage.same_iff (h : Linkage held s) (hlive : Live s semid sma)
    (hlive' : Live s semid' sma') : sma' = sma ↔ semid' = semid := by
  constructor
  · intro heq
    rw [heq] at hlive'
    exact (h.semid_eq hlive hlive').symm
  · intro heq
    rw [heq] at hlive'
    exact (hlive.sma_eq hlive'.1).symm

/-- The task that an event of `sys_semop` runs for, and its semaphore set id. -/
def callerOf (s : Sems) : Event → Option (Task × ℕ)
  | .semop t semid _ _ _ _ => some (t, semid)
  | .resume t _ =>
    match s.sleep t with
    | some w =>
      match w.waiting with
      | .semop semid _ _ => some (t, semid)
      | .exit _ => none
    | none => none
  | _ => none

def pendingSignal : Event → Bool
  | .exitRecord _ signal => signal
  | .resume _ signal => signal
  | _ => false

/-- Every operation is undone at exit, and no semaphore is set or removed. -/
structure AllUndo (s : Sems) (e : Event) : Prop where
  undo : ∀ sma sops, callOf s e = some (sma, sops) → ∀ sop ∈ sops, sop.undo = true
  no_setval : ∀ semid semnum val permitted, e ≠ .setval semid semnum val permitted
  no_setall : ∀ semid semnum vals permitted, e ≠ .setall semid semnum vals permitted
  no_rmid : ∀ semid semnum permitted, e ≠ .rmid semid semnum permitted

/-- No value and no adjustment leaves its type in the step, and an exiting task
that has to wait for its adjustment has no signal pending. -/
structure StaysInType (s : Sems) (e : Event) : Prop where
  semop : ∀ sma sops t semid, callOf s e = some (sma, sops) → callerOf s e = some (t, semid) →
    check (s.semval sma) sops = .pass → ValOk (s.semval sma) sops ∧ AdjOk (s.recAdj t semid) sops
  exit_value : ∀ sma un, adjustOf s e = some (sma, un) →
    s.semval sma (s.undos un).semNum + (s.undos un).semadj ≤ 65535
  exit_signal : ∀ sma un, adjustOf s e = some (sma, un) →
    s.semval sma (s.undos un).semNum + (s.undos un).semadj < 0 → pendingSignal e = false

/-! ## The linkage through the steps -/

structure SameLists (s s' : Sems) : Prop where
  semary : s'.semary = s.semary
  semun : s'.semun = s.semun
  nextUndo : s'.nextUndo = s.nextUndo
  nextSet : s'.nextSet = s.nextSet
  undo : ∀ a, (s'.sets a).undo = (s.sets a).undo
  record : ∀ un, (s'.undos un).semid = (s.undos un).semid ∧
    (s'.undos un).semNum = (s.undos un).semNum

theorem SameFrame.sameLists (h : SameFrame s s') : SameLists s s' :=
  ⟨h.semary, h.semun, h.nextUndo, h.nextSet, h.undo, h.record⟩

theorem Found.of_sameLists (h : Found s t semid num)
    (hlists : SameLists s s') : Found s' t semid num := by
  obtain ⟨un, hun, h1, h2⟩ := h
  refine ⟨un, ?_, ?_, ?_⟩
  · rw [hlists.semun]
    exact hun
  · rw [(hlists.record un).1, h1]
  · rw [(hlists.record un).2, h2]

theorem Linkage.of_sameLists (h : Linkage held s)
    (hlists : SameLists s s')
    (hback : ∀ t w', s'.sleep t = some w' →
      ∃ w, s.sleep t = some w ∧ w'.sma = w.sma ∧ w'.waiting = w.waiting)
    (hforth : ∀ t w, s.sleep t = some w → ∃ w', s'.sleep t = some w' ∧ w'.waiting = w.waiting) :
    Linkage held s' := by
  constructor
  · exact h.undosOk.of_eq hlists.semun hlists.nextUndo
  · rw [hlists.semary]
    exact h.slot_inj
  · rw [hlists.semary, hlists.nextSet]
    exact h.slot_fresh
  · intro t un hun
    rw [hlists.semun] at hun
    obtain ⟨sma, hslot, hlinked⟩ := h.record t un hun
    refine ⟨sma, ?_, ?_⟩
    · rw [hlists.semary, (hlists.record un).1]
      exact hslot
    · rw [hlists.undo]
      rcases hlinked with hin | ⟨w, hw, hwaiting⟩ | hheld
      · exact .inl hin
      · obtain ⟨w', hw', heq⟩ := hforth t w hw
        exact .inr (.inl ⟨w', hw', heq.trans hwaiting⟩)
      · exact .inr (.inr hheld)
  · intro t w' semid sops sop hw' hwaiting
    obtain ⟨w, hw, hsma, heq⟩ := hback t w' hw'
    rw [hlists.semary, hsma]
    exact h.semop_slot t w semid sops sop hw (heq.symm.trans hwaiting)
  · intro t w' semid sops sop hw' hwaiting sop' hsop' hundo
    obtain ⟨w, hw, _, heq⟩ := hback t w' hw'
    exact (h.semop_found t w semid sops sop hw (heq.symm.trans hwaiting) sop' hsop' hundo).of_sameLists
      hlists
  · intro t w' un hw' hwaiting
    obtain ⟨w, hw, hsma, heq⟩ := hback t w' hw'
    rw [hlists.semun, hlists.semary, (hlists.record un).1, hsma]
    exact h.exit_head t w un hw (heq.symm.trans hwaiting)

theorem Linkage.wakeUp (h : Linkage held s) (sma : ℕ)
    (z : Bool) : Linkage held (s.wakeUp sma z) := by
  apply h.of_sameLists
  · constructor <;> simp [Sems.wakeUp]
  · intro t w' hw'
    obtain ⟨w, hw, hsma, _, _, hwaiting, _⟩ := wakeUp_sleep hw'
    exact ⟨w, hw, hsma, hwaiting⟩
  · intro t w hw
    obtain ⟨w', hw', _, _, _, hwaiting⟩ := sleep_wakeUp sma z hw
    exact ⟨w', hw', hwaiting⟩

theorem Linkage.of_sameFrame (h : Linkage held s)
    (hframe : SameFrame s s') (hsleep : s'.sleep = s.sleep) : Linkage held s' := by
  apply h.of_sameLists hframe.sameLists
  · intro t w hw
    rw [hsleep] at hw
    exact ⟨w, hw, rfl, rfl⟩
  · intro t w hw
    refine ⟨w, ?_, rfl⟩
    rw [hsleep]
    exact hw

theorem Linkage.finish (h : Linkage none s) (t : Task) (semid sma : ℕ)
    (sops : List Sembuf) : Linkage none (s.finish t semid sma sops).1 := by
  have happly := h.of_sameFrame (applyOps_sameFrame s t semid sma sops)
    (applyOps_sleep s t semid sma sops)
  unfold Sems.finish
  dsimp only
  split <;> split
  · exact (happly.wakeUp sma false).wakeUp sma true
  · exact happly.wakeUp sma true
  · exact happly.wakeUp sma false
  · exact happly

theorem addWaiting_sameLists (s : Sems) (sma num : ℕ) (z : Bool) (d : ℤ) :
    SameLists s (s.addWaiting sma num z d) := by
  constructor <;> simp

theorem Linkage.sleepSemop (h : Linkage none s) (hawake : s.sleep t = none) {sops : List Sembuf}
    {forZero : Bool}
    (hslot : s.semary (semid % semmni) = .set sma)
    (hfound : ∀ sop' ∈ sops, sop'.undo = true → Found s t semid sop'.num) :
    Linkage none (s.sleepOn t
      { sma := sma
        num := sop.num
        forZero := forZero
        waiting := .semop semid sops sop
        runnable := false }) := by
  have hlists := addWaiting_sameLists s sma sop.num forZero 1
  constructor
  · exact h.undosOk.of_eq hlists.semun hlists.nextUndo
  · intro id id' a h1 h2
    exact h.slot_inj id id' a (hlists.semary ▸ h1) (hlists.semary ▸ h2)
  · intro id a h1
    have hlt := h.slot_fresh id a (hlists.semary ▸ h1)
    exact hlists.nextSet ▸ hlt
  · intro t' un hun
    have hun' : un ∈ s.semun t' := hlists.semun ▸ hun
    obtain ⟨sma', hslot', hlinked⟩ := h.record t' un hun'
    refine ⟨sma', ?_, ?_⟩
    · change (s.addWaiting sma sop.num forZero 1).semary
        (((s.addWaiting sma sop.num forZero 1).undos un).semid % semmni) = _
      rw [hlists.semary, (hlists.record un).1]
      exact hslot'
    · change un ∈ ((s.addWaiting sma sop.num forZero 1).sets sma').undo ∨ _
      rw [hlists.undo]
      rcases hlinked with hin | ⟨w, hw, hwaiting⟩ | hheld
      · exact .inl hin
      · refine .inr (.inl ⟨w, ?_, hwaiting⟩)
        have hne : t' ≠ t := by
          intro heq
          rw [heq, hawake] at hw
          simp at hw
        simp only [Sems.sleepOn, update_of_ne hne]
        exact hw
      · simp at hheld
  · intro t' w semid' sops' sop' hw hwaiting
    change (s.addWaiting sma sop.num forZero 1).semary (semid' % semmni) = _
    rw [hlists.semary]
    simp only [Sems.sleepOn] at hw
    by_cases ht : t' = t
    · rw [ht, update_self, Option.some.injEq] at hw
      rw [← hw] at hwaiting ⊢
      simp only [Waiting.semop.injEq] at hwaiting
      rw [← hwaiting.1]
      exact hslot
    · rw [update_of_ne ht] at hw
      exact h.semop_slot t' w semid' sops' sop' hw hwaiting
  · intro t' w semid' sops' sop' hw hwaiting sop'' hsop'' hundo
    have hf : Found s t' semid' sop''.num := by
      simp only [Sems.sleepOn] at hw
      by_cases ht : t' = t
      · rw [ht, update_self, Option.some.injEq] at hw
        rw [← hw] at hwaiting
        simp only [Waiting.semop.injEq] at hwaiting
        rw [← hwaiting.2.1] at hsop''
        rw [ht, ← hwaiting.1]
        exact hfound sop'' hsop'' hundo
      · rw [update_of_ne ht] at hw
        exact h.semop_found t' w semid' sops' sop' hw hwaiting sop'' hsop'' hundo
    exact hf.of_sameLists ⟨hlists.semary, hlists.semun, hlists.nextUndo, hlists.nextSet,
      hlists.undo, hlists.record⟩
  · intro t' w un hw hwaiting
    change (∃ rest, (s.addWaiting sma sop.num forZero 1).semun t' = un :: rest) ∧
      (s.addWaiting sma sop.num forZero 1).semary
        (((s.addWaiting sma sop.num forZero 1).undos un).semid % semmni) = _
    rw [hlists.semun, hlists.semary, (hlists.record un).1]
    simp only [Sems.sleepOn] at hw
    by_cases ht : t' = t
    · rw [ht, update_self, Option.some.injEq] at hw
      rw [← hw] at hwaiting
      simp at hwaiting
    · rw [update_of_ne ht] at hw
      exact h.exit_head t' w un hw hwaiting

end LinuxKernel.Semaphore
