import LinuxKernel.SharedMemoryModel
import Mathlib.Tactic

/-!
# The attach count of a shared segment

`shm_nattch` counts the descriptors in the lists of all tasks, the attaches that
are between `kmalloc` and the lists, and the detaches that have left the lists
but sleep in `unmap_page_range`.
-/

namespace LinuxKernel.SharedMemory
open Function List

variable {Task : Type}

/-- An attach to slot `id` that is in no list: one in progress, or one on its way out. -/
def Sleep.holds (id : ℕ) : Sleep Task → ℕ
  | .shmMap _ _ id' => if id' = id then 1 else 0
  | .detach _ _ id' _ => if id' = id then 1 else 0
  | _ => 0

def callHolds (id : ℕ) : Option (Sleep Task) → ℕ
  | none => 0
  | some w => w.holds id

def Shm.listed (s : Shm Task) (id : ℕ) (l : List ℕ) : ℕ := l.countP fun d => (s.descs d).id = id

def Shm.held (s : Shm Task) (id : ℕ) (t : Task) : ℕ :=
  s.listed id (s.shm t) + callHolds id (s.sleep t)

def Shm.count [Fintype Task] (s : Shm Task) (id : ℕ) : ℕ := ∑ t, s.held id t

def Sleep.claims : Sleep Task → Option (ℕ ⊕ Task)
  | .newseg id _ _ => some (.inl id)
  | .shmFork child _ _ => some (.inr child)
  | _ => none

def CallOk (s : Shm Task) (t : Task) : Sleep Task → Prop
  | .newseg id _ _ => s.shmSegs id = .noid
  | .shmat _ _ _ _ _ => True
  | .shmMap shmd shp id => s.shmSegs id = .seg shp ∧ shmd < s.nextDesc ∧ (s.descs shmd).id = id
  | .detach _ shp id _ => s.shmSegs id = .seg shp
  | .killseg _ _ => True
  | .shmFork child shmd newDesc =>
    s.tasks child = .embryo ∧ (∀ d ∈ shmd, d ∈ s.shm t) ∧
      ∀ d ∈ newDesc, d < s.nextDesc ∧ ∃ d' ∈ s.shm t, (s.descs d').id = (s.descs d).id

structure Counted [Fintype Task] (s : Shm Task) : Prop where
  slot_lt : ∀ id shp, s.shmSegs id = .seg shp → shp < s.nextSeg
  slot_inj : ∀ id id' shp, s.shmSegs id = .seg shp → s.shmSegs id' = .seg shp → id = id'
  nattch : ∀ id shp, s.shmSegs id = .seg shp → (s.segs shp).shmNattch = s.count id
  nattch_le : ∀ id shp, s.shmSegs id = .seg shp → (s.segs shp).shmNattch ≤ 32767
  live : ∀ id t, 0 < s.held id t → ∃ shp, s.shmSegs id = .seg shp
  fresh : ∀ t, ∀ d ∈ s.shm t, d < s.nextDesc
  calls : ∀ t w, s.sleep t = some w → CallOk s t w
  claims_inj : ∀ t t' w w' c, s.sleep t = some w → s.sleep t' = some w' →
    w.claims = some c → w'.claims = some c → t = t'
  running : ∀ t, s.tasks t ≠ .running → s.shm t = [] ∧ s.sleep t = none

theorem short_eq {n : ℤ} (hlo : -32768 ≤ n) (hhi : n ≤ 32767) : short n = n := by
  apply Int.bmod_eq_of_le
  · norm_num
    omega
  · norm_num
    omega

variable {s s' : Shm Task}

theorem listed_congr {l : List ℕ} (h : ∀ d ∈ l, s'.descs d = s.descs d)
    (id : ℕ) : s'.listed id l = s.listed id l := by
  apply countP_congr
  intro d hd
  rw [h d hd]

variable [Fintype Task]

variable {id : ℕ}

theorem count_change [DecidableEq Task] (t : Task)
    (h : ∀ t', t' ≠ t → s'.held id t' = s.held id t') :
    s'.count id + s.held id t = s.count id + s'.held id t := by
  unfold Shm.count
  rw [← Finset.add_sum_erase _ _ (Finset.mem_univ t),
    ← Finset.add_sum_erase _ (fun t' => s.held id t') (Finset.mem_univ t)]
  have hrest : ∑ t' ∈ Finset.univ.erase t, s'.held id t' =
      ∑ t' ∈ Finset.univ.erase t, s.held id t' := by
    apply Finset.sum_congr rfl
    intro t' ht'
    exact h t' (Finset.ne_of_mem_erase ht')
  rw [hrest]
  ring

theorem held_le_count (s : Shm Task) (id : ℕ) (t : Task) : s.held id t ≤ s.count id :=
  Finset.single_le_sum (f := fun t' => s.held id t') (fun _ _ => Nat.zero_le _) (Finset.mem_univ t)

theorem count_eq_zero (h : ∀ t, s.held id t = 0) : s.count id = 0 := by
  exact Finset.sum_eq_zero fun t _ => h t

theorem Counted.count_of_not_seg (h : Counted s)
    (hslot : ∀ shp, s.shmSegs id ≠ .seg shp) : s.count id = 0 := by
  apply count_eq_zero
  intro t
  by_contra hne
  obtain ⟨shp, hseg⟩ := h.live id t (Nat.pos_of_ne_zero hne)
  exact hslot shp hseg

variable {shmd : ℕ}

variable {shp : ℕ}

variable {w : Sleep Task}

variable {t : Task}

/-! ## Steps on one task -/

section Change

variable [DecidableEq Task]

theorem Counted.change (h : Counted s) (t : Task)
    (hslots : s'.shmSegs = s.shmSegs) (hnextSeg : s'.nextSeg = s.nextSeg)
    (htasks : s'.tasks = s.tasks) (hnextDesc : s.nextDesc ≤ s'.nextDesc)
    (hdescs : ∀ d < s.nextDesc, s'.descs d = s.descs d)
    (hother : ∀ t', t' ≠ t → s'.shm t' = s.shm t' ∧ s'.sleep t' = s.sleep t')
    (hrunning : s.tasks t = .running)
    (hnattch : ∀ id shp, s.shmSegs id = .seg shp →
      (s'.segs shp).shmNattch + s.held id t = (s.segs shp).shmNattch + s'.held id t)
    (hle : ∀ id shp, s.shmSegs id = .seg shp → (s'.segs shp).shmNattch ≤ 32767)
    (hlive : ∀ id, 0 < s'.held id t → ∃ shp, s.shmSegs id = .seg shp)
    (hfresh : ∀ d ∈ s'.shm t, d < s'.nextDesc)
    (hcall : ∀ w, s'.sleep t = some w → CallOk s' t w)
    (hclaims : ∀ w c, s'.sleep t = some w → w.claims = some c →
      (∃ w0, s.sleep t = some w0 ∧ w0.claims = some c) ∨
        ∀ t' w', s.sleep t' = some w' → w'.claims ≠ some c) : Counted s' := by
  have hheld : ∀ id t', t' ≠ t → s'.held id t' = s.held id t' := by
    intro id t' hne
    obtain ⟨hlist, hsleep⟩ := hother t' hne
    unfold Shm.held
    rw [hlist, hsleep, listed_congr]
    intro d hd
    exact hdescs d (h.fresh t' d hd)
  constructor
  · rw [hslots, hnextSeg]
    exact h.slot_lt
  · rw [hslots]
    exact h.slot_inj
  · intro id shp hslot
    rw [hslots] at hslot
    have hsum := count_change t (hheld id)
    have hstep := hnattch id shp hslot
    have hold := h.nattch id shp hslot
    omega
  · intro id shp hslot
    rw [hslots] at hslot
    exact hle id shp hslot
  · intro id t' hpos
    rw [hslots]
    by_cases ht : t' = t
    · rw [ht] at hpos
      exact hlive id hpos
    · rw [hheld id t' ht] at hpos
      exact h.live id t' hpos
  · intro t' d hd
    by_cases ht : t' = t
    · rw [ht] at hd
      exact hfresh d hd
    · rw [(hother t' ht).1] at hd
      exact lt_of_lt_of_le (h.fresh t' d hd) hnextDesc
  · intro t' w hw
    by_cases ht : t' = t
    · rw [ht] at hw ⊢
      exact hcall w hw
    · rw [(hother t' ht).2] at hw
      have hok := h.calls t' w hw
      cases w with
      | newseg id size second =>
        change s'.shmSegs id = .noid
        rw [hslots]
        exact hok
      | shmat shp id shmid addr readOnly => trivial
      | shmMap shmd shp id =>
        obtain ⟨hslot, hlt, hid⟩ := hok
        refine ⟨?_, lt_of_lt_of_le hlt hnextDesc, ?_⟩
        · rw [hslots]
          exact hslot
        · rw [hdescs shmd hlt]
          exact hid
      | detach shmd shp id after =>
        change s'.shmSegs id = .seg shp
        rw [hslots]
        exact hok
      | killseg shp after => trivial
      | shmFork child shmd newDesc =>
        obtain ⟨hembryo, hshmd, hnew⟩ := hok
        have hlist := (hother t' ht).1
        refine ⟨?_, ?_, ?_⟩
        · rw [htasks]
          exact hembryo
        · intro d hd
          rw [hlist]
          exact hshmd d hd
        · intro d hd
          obtain ⟨hlt, d', hd', hid⟩ := hnew d hd
          refine ⟨lt_of_lt_of_le hlt hnextDesc, d', ?_, ?_⟩
          · rw [hlist]
            exact hd'
          · rw [hdescs d hlt, hdescs d' (h.fresh t' d' hd')]
            exact hid
  · intro t1 t2 w1 w2 c h1 h2 hc1 hc2
    by_cases ht1 : t1 = t
    · by_cases ht2 : t2 = t
      · rw [ht1, ht2]
      · rw [ht1] at h1
        rw [(hother t2 ht2).2] at h2
        rcases hclaims w1 c h1 hc1 with ⟨w0, hw0, hc0⟩ | hnone
        · rw [ht1]
          exact h.claims_inj t t2 w0 w2 c hw0 h2 hc0 hc2
        · exact absurd hc2 (hnone t2 w2 h2)
    · rw [(hother t1 ht1).2] at h1
      by_cases ht2 : t2 = t
      · rw [ht2] at h2
        rcases hclaims w2 c h2 hc2 with ⟨w0, hw0, hc0⟩ | hnone
        · rw [ht2]
          exact h.claims_inj t1 t w1 w0 c h1 hw0 hc1 hc0
        · exact absurd hc1 (hnone t1 w1 h1)
      · rw [(hother t2 ht2).2] at h2
        exact h.claims_inj t1 t2 w1 w2 c h1 h2 hc1 hc2
  · intro t' hidle
    rw [htasks] at hidle
    by_cases ht : t' = t
    · rw [ht] at hidle
      exact absurd hrunning hidle
    · rw [(hother t' ht).1, (hother t' ht).2]
      exact h.running t' hidle

omit [Fintype Task] in
theorem setSleep_self (s : Shm Task) (t : Task) (w : Option (Sleep Task)) :
    (s.setSleep t w).sleep t = w := update_self ..

omit [Fintype Task] in
theorem setSleep_of_ne (s : Shm Task) {t' : Task} (h : t' ≠ t) (w : Option (Sleep Task)) :
    (s.setSleep t w).sleep t' = s.sleep t' := update_of_ne h ..

omit [DecidableEq Task] in
theorem Counted.running_of_sleep (h : Counted s)
    (hw : s.sleep t = some w) : s.tasks t = .running := by
  by_contra hne
  rw [(h.running t hne).2] at hw
  simp at hw

section
variable (h : Counted s) (hrunning : s.tasks t = .running)
  (hold : ∀ id, callHolds id (s.sleep t) = 0)
include h hrunning hold

theorem Counted.setSleep {w : Option (Sleep Task)} (hnew : ∀ id, callHolds id w = 0)
    (hcall : ∀ w', w = some w' → CallOk s t w')
    (hclaims : ∀ w' c, w = some w' → w'.claims = some c →
      (∃ w0, s.sleep t = some w0 ∧ w0.claims = some c) ∨
        ∀ t' w', s.sleep t' = some w' → w'.claims ≠ some c) : Counted (s.setSleep t w) := by
  have hheld : ∀ id, (s.setSleep t w).held id t = s.held id t := by
    intro id
    unfold Shm.held
    rw [setSleep_self, hold, hnew]
    rfl
  apply h.change t
  · rfl
  · rfl
  · rfl
  · exact le_rfl
  · exact fun d _ => rfl
  · intro t' hne
    exact ⟨rfl, setSleep_of_ne s hne w⟩
  · exact hrunning
  · intro id shp _
    rw [hheld]
    rfl
  · exact h.nattch_le
  · intro id hpos
    rw [hheld] at hpos
    exact h.live id t hpos
  · exact h.fresh t
  · intro w' hw'
    rw [setSleep_self] at hw'
    have hok := hcall w' hw'
    cases w' <;> exact hok
  · intro w' c hw' hc
    rw [setSleep_self] at hw'
    exact hclaims w' c hw' hc

theorem Counted.stopSleep : Counted (s.setSleep t none) :=
  h.setSleep hrunning hold (fun _ => rfl) (by simp) (by simp)

end

omit [DecidableEq Task] in
theorem Counted.setSlot (h : Counted s) (id : ℕ) (slot : Slot)
    (hslots : s'.shmSegs = update s.shmSegs id slot)
    (hsame : s'.nextDesc = s.nextDesc ∧ s'.descs = s.descs ∧ s'.tasks = s.tasks ∧
      s'.shm = s.shm ∧ s'.sleep = s.sleep)
    (hnextSeg : s.nextSeg ≤ s'.nextSeg)
    (hsegs : ∀ shp < s.nextSeg, (s'.segs shp).shmNattch = (s.segs shp).shmNattch)
    (hcount : s.count id = 0)
    (hfree : ∀ t w, s.sleep t = some w → w.claims ≠ some (.inl id))
    (hslot : ∀ shp, slot = .seg shp →
      s.nextSeg ≤ shp ∧ shp < s'.nextSeg ∧ (s'.segs shp).shmNattch = 0) : Counted s' := by
  obtain ⟨hnextDesc, hdescs, htasks, hshm, hsleep⟩ := hsame
  have hheld : ∀ id' t, s'.held id' t = s.held id' t := by
    intro id' t
    unfold Shm.held Shm.listed
    rw [hshm, hsleep, hdescs]
  have hcount' : ∀ id', s'.count id' = s.count id' := by
    intro id'
    exact Finset.sum_congr rfl fun t _ => hheld id' t
  have hnone : ∀ t, s.held id t = 0 := by
    intro t
    have hle := held_le_count s id t
    omega
  have hback : ∀ id' shp, s'.shmSegs id' = .seg shp →
      (id' = id ∧ slot = .seg shp) ∨ (id' ≠ id ∧ s.shmSegs id' = .seg shp) := by
    intro id' shp hs
    rw [hslots] at hs
    by_cases he : id' = id
    · rw [he, update_self] at hs
      exact .inl ⟨he, hs⟩
    · rw [update_of_ne he] at hs
      exact .inr ⟨he, hs⟩
  have hkeep : ∀ id', id' ≠ id → s'.shmSegs id' = s.shmSegs id' := by
    intro id' he
    rw [hslots, update_of_ne he]
  constructor
  · intro id' shp hs
    rcases hback id' shp hs with ⟨_, hnew⟩ | ⟨_, hold⟩
    · exact (hslot shp hnew).2.1
    · exact lt_of_lt_of_le (h.slot_lt id' shp hold) hnextSeg
  · intro id1 id2 shp h1 h2
    rcases hback id1 shp h1 with ⟨he1, hnew1⟩ | ⟨_, hold1⟩
    · rcases hback id2 shp h2 with ⟨he2, _⟩ | ⟨_, hold2⟩
      · rw [he1, he2]
      · have hge := (hslot shp hnew1).1
        have hlt := h.slot_lt id2 shp hold2
        omega
    · rcases hback id2 shp h2 with ⟨_, hnew2⟩ | ⟨_, hold2⟩
      · have hge := (hslot shp hnew2).1
        have hlt := h.slot_lt id1 shp hold1
        omega
      · exact h.slot_inj id1 id2 shp hold1 hold2
  · intro id' shp hs
    rw [hcount']
    rcases hback id' shp hs with ⟨he, hnew⟩ | ⟨_, hold⟩
    · rw [he, (hslot shp hnew).2.2, hcount]
      rfl
    · rw [hsegs shp (h.slot_lt id' shp hold)]
      exact h.nattch id' shp hold
  · intro id' shp hs
    rcases hback id' shp hs with ⟨_, hnew⟩ | ⟨_, hold⟩
    · rw [(hslot shp hnew).2.2]
      norm_num
    · rw [hsegs shp (h.slot_lt id' shp hold)]
      exact h.nattch_le id' shp hold
  · intro id' t hpos
    rw [hheld] at hpos
    have hne : id' ≠ id := by
      intro he
      rw [he, hnone] at hpos
      omega
    rw [hkeep id' hne]
    exact h.live id' t hpos
  · rw [hshm, hnextDesc]
    exact h.fresh
  · intro t w hw
    rw [hsleep] at hw
    have hok := h.calls t w hw
    have hholds : callHolds id (s.sleep t) = 0 := by
      have hzero := hnone t
      unfold Shm.held at hzero
      omega
    rw [hw] at hholds
    cases w with
    | newseg id' size second =>
      have hne : id' ≠ id := by
        intro he
        apply hfree t _ hw
        rw [he]
        rfl
      change s'.shmSegs id' = .noid
      rw [hkeep id' hne]
      exact hok
    | shmat shp id' shmid addr readOnly => trivial
    | shmMap shmd shp id' =>
      have hne : id' ≠ id := by
        intro he
        simp [callHolds, Sleep.holds, he] at hholds
      obtain ⟨hs, hlt, hid⟩ := hok
      refine ⟨?_, ?_, ?_⟩
      · rw [hkeep id' hne]
        exact hs
      · rw [hnextDesc]
        exact hlt
      · rw [hdescs]
        exact hid
    | detach shmd shp id' after =>
      have hne : id' ≠ id := by
        intro he
        simp [callHolds, Sleep.holds, he] at hholds
      change s'.shmSegs id' = .seg shp
      rw [hkeep id' hne]
      exact hok
    | killseg shp after => trivial
    | shmFork child shmd newDesc =>
      unfold CallOk
      rw [htasks, hshm, hdescs, hnextDesc]
      exact hok
  · rw [hsleep]
    exact h.claims_inj
  · rw [htasks, hshm, hsleep]
    exact h.running

theorem Counted.setTask (h : Counted s) (x : Task) (state : TaskState)
    (hfree : ∀ t w, s.sleep t = some w → w.claims ≠ some (.inr x))
    (hidle : state ≠ .running → s.shm x = [] ∧ s.sleep x = none) : Counted (s.setTask x state) := by
  obtain ⟨h1, h2, h3, h4, h5, h6, hcalls, h8, hrunning⟩ := h
  refine ⟨h1, h2, h3, h4, h5, h6, ?_, h8, ?_⟩
  · intro t w hw
    have hok := hcalls t w hw
    cases w with
    | shmFork child shmd newDesc =>
      obtain ⟨hembryo, hrest⟩ := hok
      refine ⟨?_, hrest⟩
      have hne : child ≠ x := by
        intro he
        apply hfree t _ hw
        rw [he]
        rfl
      exact (update_of_ne hne ..).trans hembryo
    | newseg id size second => exact hok
    | shmat shp id shmid addr readOnly => exact hok
    | shmMap shmd shp id => exact hok
    | detach shmd shp id after => exact hok
    | killseg shp after => exact hok
  · intro t ht
    change update s.tasks x state t ≠ .running at ht
    by_cases he : t = x
    · rw [he, update_self] at ht
      rw [he]
      exact hidle ht
    · rw [update_of_ne he] at ht
      exact hrunning t ht

omit [DecidableEq Task] in
def KillsDead (s s' : Shm Task) : Prop :=
  ∀ id shp, s.shmSegs id = .seg shp → s'.shmSegs id ≠ .seg shp →
    (s'.segs shp).dest = true ∧ s'.count id = 0

structure Good (s s' : Shm Task) : Prop where
  counted : Counted s'
  kills : KillsDead s s'

omit [DecidableEq Task] in
theorem Counted.good (h : Counted s')
    (hkeep : ∀ id shp, s.shmSegs id = .seg shp → s'.shmSegs id = .seg shp) : Good s s' := by
  refine ⟨h, ?_⟩
  intro id shp hslot hgone
  exact absurd (hkeep id shp hslot) hgone

omit [DecidableEq Task] in
theorem Counted.good_of_slots (h : Counted s') (hslots : s'.shmSegs = s.shmSegs) : Good s s' := by
  apply h.good
  intro id shp hslot
  rw [hslots]
  exact hslot

omit [DecidableEq Task] in
theorem Counted.setSegs (h : Counted s) {segs : ℕ → ShmidDs}
    (hsegs : ∀ shp, (segs shp).shmNattch = (s.segs shp).shmNattch) :
    Counted { s with segs := segs } := by
  obtain ⟨h1, h2, hnattch, hle, h5, h6, hcalls, h8, h9⟩ := h
  refine ⟨h1, h2, ?_, ?_, h5, h6, ?_, h8, h9⟩
  · intro id shp hslot
    exact (hsegs shp).trans (hnattch id shp hslot)
  · intro id shp hslot
    exact (hsegs shp).trans_le (hle id shp hslot)
  · intro t w hw
    have hok := hcalls t w hw
    cases w <;> exact hok

omit [DecidableEq Task] in
theorem Counted.not_claimed (h : Counted s) (hslot : s.shmSegs id ≠ .noid)
    (t : Task) (w : Sleep Task) (hw : s.sleep t = some w) : w.claims ≠ some (.inl id) := by
  intro hclaims
  cases w with
  | newseg id' size second =>
    simp only [Sleep.claims, Option.some.injEq, Sum.inl.injEq] at hclaims
    have hok : s.shmSegs id' = .noid := h.calls t _ hw
    rw [hclaims] at hok
    exact hslot hok
  | shmat shp id' shmid addr readOnly => simp [Sleep.claims] at hclaims
  | shmMap shmd shp id' => simp [Sleep.claims] at hclaims
  | detach shmd shp id' after => simp [Sleep.claims] at hclaims
  | killseg shp after => simp [Sleep.claims] at hclaims
  | shmFork child shmd newDesc => simp [Sleep.claims] at hclaims

omit [Fintype Task] [DecidableEq Task] in
theorem idle_iff : s.idle t = true ↔ s.tasks t = .running ∧ s.sleep t = none := by
  unfold Shm.idle
  simp

theorem Counted.newseg (h : Counted s) (hidle : s.idle t = true)
    (size : ℤ) : Good s (s.newseg t size).1 := by
  obtain ⟨hrunning, hsleep⟩ := idle_iff.mp hidle
  unfold Shm.newseg
  dsimp only
  split
  · exact h.good_of_slots rfl
  · split
    · exact h.good_of_slots rfl
    · split
      · exact h.good_of_slots rfl
      · rename_i id hfind
        have hunused : s.shmSegs id = .unused := by simpa using List.find?_some hfind
        have hfree : ∀ t' w, s.sleep t' = some w → w.claims ≠ some (.inl id) := by
          apply h.not_claimed
          rw [hunused]
          simp
        have hslot : Counted { s with shmSegs := update s.shmSegs id .noid } := by
          apply h.setSlot id .noid
          · rfl
          · exact ⟨rfl, rfl, rfl, rfl, rfl⟩
          · exact le_rfl
          · exact fun shp _ => rfl
          · apply h.count_of_not_seg
            intro shp
            rw [hunused]
            simp
          · exact hfree
          · intro shp hshp
            simp at hshp
        apply Counted.good
        · apply hslot.setSleep hrunning
          · intro id'
            rw [hsleep]
            rfl
          · exact fun id' => rfl
          · intro w' hw'
            rw [Option.some.injEq] at hw'
            rw [← hw']
            exact update_self ..
          · intro w' c hw' hc
            rw [Option.some.injEq] at hw'
            rw [← hw'] at hc
            right
            intro t' w'' hw''
            rw [← hc]
            exact hfree t' w'' hw''
        · intro id' shp hs
          change update s.shmSegs id .noid id' = _
          rw [update_of_ne]
          · exact hs
          · intro he
            rw [he, hunused] at hs
            simp at hs

theorem Counted.unclaim (h : Counted s)
    (hw : s.sleep t = some w) (c : ℕ ⊕ Task) (hc : w.claims = some c) (v : Option (Sleep Task))
    (hv : ∀ w', v = some w' → w'.claims = none) (t' : Task) (w' : Sleep Task)
    (hw' : (s.setSleep t v).sleep t' = some w') : w'.claims ≠ some c := by
  intro hc'
  by_cases ht : t' = t
  · rw [ht, setSleep_self] at hw'
    rw [hv w' hw'] at hc'
    simp at hc'
  · rw [setSleep_of_ne s ht] at hw'
    exact ht (h.claims_inj t' t w' w c hw' hw hc' hc)

theorem Counted.newsegAlloc (h : Counted s) {size : ℕ} {second : Bool}
    (hcall : s.sleep t = some (.newseg id size second)) (memory : Bool) :
    Good s (s.newsegAlloc t id size second memory).1 := by
  have hrunning := h.running_of_sleep hcall
  have hnoid : s.shmSegs id = .noid := h.calls t _ hcall
  have hold : ∀ id', callHolds id' (s.sleep t) = 0 := by
    intro id'
    rw [hcall]
    rfl
  have hstop : Counted (s.setSleep t none) := h.stopSleep hrunning hold
  have hfree := h.unclaim hcall (.inl id) rfl none (by simp)
  have hcount : (s.setSleep t none).count id = 0 := by
    apply hstop.count_of_not_seg
    intro shp
    change s.shmSegs id ≠ _
    rw [hnoid]
    simp
  have hkeep : ∀ slot id' shp, s.shmSegs id' = .seg shp →
      update s.shmSegs id slot id' = .seg shp := by
    intro slot id' shp hs
    rw [update_of_ne]
    · exact hs
    · intro he
      rw [he, hnoid] at hs
      simp at hs
  unfold Shm.newsegAlloc
  split
  · apply Counted.good
    · apply hstop.setSlot id .unused
      · rfl
      · exact ⟨rfl, rfl, rfl, rfl, rfl⟩
      · exact le_rfl
      · exact fun shp _ => rfl
      · exact hcount
      · exact hfree
      · intro shp hshp
        simp at hshp
    · exact hkeep .unused
  · split
    · apply Counted.good_of_slots
      · apply h.setSleep hrunning hold (fun _ => rfl)
        · intro w' hw'
          rw [Option.some.injEq] at hw'
          rw [← hw']
          exact hnoid
        · intro w' c hw' hc
          rw [Option.some.injEq] at hw'
          rw [← hw'] at hc
          exact .inl ⟨_, hcall, hc⟩
      · rfl
    · apply Counted.good
      · apply hstop.setSlot id (.seg s.nextSeg)
        · rfl
        · exact ⟨rfl, rfl, rfl, rfl, rfl⟩
        · exact Nat.le_succ _
        · intro shp hlt
          have hne : shp ≠ s.nextSeg := ne_of_lt hlt
          change (update s.segs s.nextSeg _ shp).shmNattch = _
          rw [update_of_ne hne]
          rfl
        · exact hcount
        · exact hfree
        · intro shp hshp
          rw [Slot.seg.injEq] at hshp
          rw [← hshp]
          refine ⟨le_rfl, Nat.lt_succ_self _, ?_⟩
          change (update s.segs s.nextSeg _ s.nextSeg).shmNattch = 0
          rw [update_self]
      · exact hkeep _

/-! ## Attaching -/

theorem Counted.shmat (h : Counted s) (hidle : s.idle t = true)
    (shmid : ℕ) (shmaddr : UInt32) (readOnly rnd remap permitted : Bool) (startStack : UInt32) :
    Good s (s.shmat t shmid shmaddr readOnly rnd remap permitted startStack).1 := by
  obtain ⟨hrunning, hsleep⟩ := idle_iff.mp hidle
  have hstay : Good s s := h.good_of_slots rfl
  unfold Shm.shmat
  split
  · exact hstay
  · exact hstay
  · dsimp only
    split
    · exact hstay
    · split
      · exact hstay
      · split
        · exact hstay
        · split
          · exact hstay
          · split
            · exact hstay
            · apply Counted.good_of_slots
              · apply h.setSleep hrunning
                · intro id
                  rw [hsleep]
                  rfl
                · exact fun id => rfl
                · intro w' hw'
                  rw [Option.some.injEq] at hw'
                  rw [← hw']
                  trivial
                · intro w' c hw' hc
                  rw [Option.some.injEq] at hw'
                  rw [← hw'] at hc
                  simp [Sleep.claims] at hc
              · rfl

omit [Fintype Task] [DecidableEq Task] in
theorem setSeg_self (s : Shm Task) (shp : ℕ) (ds : ShmidDs) : (s.setSeg shp ds).segs shp = ds :=
  update_self ..

omit [Fintype Task] [DecidableEq Task] in
theorem setSeg_of_ne (s : Shm Task) {shp' : ℕ} (h : shp' ≠ shp) (ds : ShmidDs) :
    (s.setSeg shp ds).segs shp' = s.segs shp' := update_of_ne h ..

omit [DecidableEq Task] in
theorem Counted.other_seg (h : Counted s) {id' shp' : ℕ}
    (hslot : s.shmSegs id = .seg shp) (hslot' : s.shmSegs id' = .seg shp') (hne : id' ≠ id) :
    shp' ≠ shp := by
  intro heq
  rw [heq] at hslot'
  exact hne (h.slot_inj id' id shp hslot' hslot)

omit [Fintype Task] [DecidableEq Task] in
theorem newDesc_of_lt (s : Shm Task) (d : ShmDesc Task) {a : ℕ} (h : a < s.nextDesc) :
    (s.newDesc d).descs a = s.descs a := update_of_ne (ne_of_lt h) ..

omit [Fintype Task] [DecidableEq Task] in
theorem newDesc_self (s : Shm Task) (d : ShmDesc Task) : (s.newDesc d).descs s.nextDesc = d :=
  update_self ..

section
variable (h : Counted s)
include h

theorem Counted.startMap (hrunning : s.tasks t = .running)
    (hold : ∀ id', callHolds id' (s.sleep t) = 0) (hslot : s.shmSegs id = .seg shp)
    (hle : (s.segs shp).shmNattch + 1 ≤ 32767) {d : ShmDesc Task} (hd : d.id = id) :
    Counted (((s.newDesc d).incNattch shp).setSleep t (some (.shmMap s.nextDesc shp id))) := by
  have hzero : (0 : ℤ) ≤ (s.segs shp).shmNattch := by
    rw [h.nattch id shp hslot]
    exact Int.natCast_nonneg _
  have hheld : ∀ id', (((s.newDesc d).incNattch shp).setSleep t
      (some (.shmMap s.nextDesc shp id))).held id' t = s.held id' t + if id = id' then 1 else 0 := by
    intro id'
    have hlist : (s.newDesc d).listed id' (s.shm t) = s.listed id' (s.shm t) :=
      listed_congr (fun a ha => newDesc_of_lt s d (h.fresh t a ha)) id'
    unfold Shm.held
    rw [setSleep_self, hold]
    change (s.newDesc d).listed id' (s.shm t) + _ = _
    rw [hlist]
    rfl
  have hself : ((((s.newDesc d).incNattch shp).setSleep t
      (some (.shmMap s.nextDesc shp id))).segs shp).shmNattch = (s.segs shp).shmNattch + 1 := by
    change ((s.setSeg shp _).segs shp).shmNattch = _
    rw [setSeg_self]
    exact short_eq (n := (s.segs shp).shmNattch + 1) (by omega) hle
  have hother : ∀ id' shp', s.shmSegs id' = .seg shp' → id' ≠ id →
      (((s.newDesc d).incNattch shp).setSleep t (some (.shmMap s.nextDesc shp id))).segs shp' =
        s.segs shp' := by
    intro id' shp' hslot' he
    exact setSeg_of_ne s (h.other_seg hslot hslot' he) _
  apply h.change t
  · rfl
  · rfl
  · rfl
  · exact Nat.le_succ _
  · exact fun a ha => newDesc_of_lt s d ha
  · intro t' hne
    exact ⟨rfl, setSleep_of_ne _ hne _⟩
  · exact hrunning
  · intro id' shp' hslot'
    rw [hheld]
    by_cases he : id' = id
    · rw [he, hslot, Slot.seg.injEq] at hslot'
      rw [← hslot', he, if_pos rfl]
      rw [hself]
      push_cast
      ring
    · rw [if_neg (fun heq => he heq.symm), hother id' shp' hslot' he]
      rfl
  · intro id' shp' hslot'
    by_cases he : id' = id
    · rw [he, hslot, Slot.seg.injEq] at hslot'
      rw [← hslot', hself]
      exact hle
    · rw [hother id' shp' hslot' he]
      exact h.nattch_le id' shp' hslot'
  · intro id' hpos
    rw [hheld] at hpos
    by_cases he : id = id'
    · rw [← he]
      exact ⟨shp, hslot⟩
    · rw [if_neg he] at hpos
      exact h.live id' t hpos
  · intro a ha
    exact Nat.lt_succ_of_lt (h.fresh t a ha)
  · intro w hw
    rw [setSleep_self, Option.some.injEq] at hw
    rw [← hw]
    refine ⟨hslot, Nat.lt_succ_self _, ?_⟩
    change ((s.newDesc d).descs s.nextDesc).id = id
    rw [newDesc_self]
    exact hd
  · intro w c hw hc
    rw [setSleep_self, Option.some.injEq] at hw
    rw [← hw] at hc
    simp [Sleep.claims] at hc

theorem Counted.shmatAlloc {shmid : ℕ} {addr : UInt32} {readOnly : Bool}
    (hcall : s.sleep t = some (.shmat shp id shmid addr readOnly)) (memory : Bool)
    (hfits : memory = true → s.shmSegs id = .seg shp → (s.segs shp).seq = shmid / shmmni →
      (s.segs shp).shmNattch + 1 ≤ 32767) :
    Good s (s.shmatAlloc t shp id shmid addr readOnly memory).1 := by
  have hrunning := h.running_of_sleep hcall
  have hold : ∀ id', callHolds id' (s.sleep t) = 0 := by
    intro id'
    rw [hcall]
    rfl
  have hstop : Good s (s.setSleep t none) := (h.stopSleep hrunning hold).good_of_slots rfl
  unfold Shm.shmatAlloc
  split
  · exact hstop
  · rename_i hmemory
    split
    · exact hstop
    · rename_i hsame
      push Not at hsame
      obtain ⟨hslot, hseq⟩ := hsame
      have hle := hfits (by simpa using hmemory) hslot hseq
      apply Counted.good_of_slots
      · exact h.startMap hrunning hold hslot hle rfl
      · rfl

theorem Counted.endMap (hcall : s.sleep t = some (.shmMap shmd shp id)) (attaches : List ℕ) :
    Counted (((s.setList t (shmd :: s.shm t)).setSeg shp
      { s.segs shp with attaches := attaches }).setSleep t none) := by
  obtain ⟨hslot, hlt, hid⟩ := h.calls t _ hcall
  have hheld : ∀ id', (((s.setList t (shmd :: s.shm t)).setSeg shp
      { s.segs shp with attaches := attaches }).setSleep t none).held id' t = s.held id' t := by
    intro id'
    unfold Shm.held
    rw [setSleep_self, hcall]
    change s.listed id' (update s.shm t (shmd :: s.shm t) t) + 0 = _
    rw [update_self]
    unfold Shm.listed
    rw [countP_cons, hid]
    simp [callHolds, Sleep.holds]
  have hnattch : ∀ shp', ((((s.setList t (shmd :: s.shm t)).setSeg shp
      { s.segs shp with attaches := attaches }).setSleep t none).segs shp').shmNattch =
      (s.segs shp').shmNattch := by
    intro shp'
    change (update s.segs shp { s.segs shp with attaches := attaches } shp').shmNattch = _
    by_cases he : shp' = shp
    · rw [he, update_self]
    · rw [update_of_ne he]
  apply h.change t
  · rfl
  · rfl
  · rfl
  · exact le_rfl
  · exact fun _ _ => rfl
  · intro t' hne
    exact ⟨update_of_ne hne .., setSleep_of_ne _ hne _⟩
  · exact h.running_of_sleep hcall
  · intro id' shp' _
    rw [hheld, hnattch]
  · intro id' shp' hslot'
    rw [hnattch]
    exact h.nattch_le id' shp' hslot'
  · intro id' hpos
    rw [hheld] at hpos
    exact h.live id' t hpos
  · intro d hd
    change d ∈ update s.shm t (shmd :: s.shm t) t at hd
    rw [update_self] at hd
    rcases mem_cons.mp hd with heq | hmem
    · rw [heq]
      exact hlt
    · exact h.fresh t d hmem
  · intro w hw
    rw [setSleep_self] at hw
    simp at hw
  · intro w c hw
    rw [setSleep_self] at hw
    simp at hw

theorem Counted.drop (hcall : s.sleep t = some w) (hslot : s.shmSegs id = .seg shp)
    (hholds : ∀ id', w.holds id' = if id = id' then 1 else 0) (v : Option (Sleep Task))
    (hv : v = none ∨ ∃ after, v = some (.killseg shp after)) :
    Counted ((s.decNattch shp).setSleep t v) := by
  have hvholds : ∀ id', callHolds id' v = 0 := by
    intro id'
    rcases hv with hnone | ⟨after, hsome⟩
    · rw [hnone]
      rfl
    · rw [hsome]
      rfl
  have hheld : ∀ id', s.held id' t =
      ((s.decNattch shp).setSleep t v).held id' t + if id = id' then 1 else 0 := by
    intro id'
    unfold Shm.held
    rw [setSleep_self, hcall, hvholds]
    change _ + w.holds id' = _
    rw [hholds]
    rfl
  have hpos : (1 : ℤ) ≤ (s.segs shp).shmNattch := by
    have hle := held_le_count s id t
    have hself := hheld id
    rw [if_pos rfl] at hself
    rw [h.nattch id shp hslot]
    omega
  have hhi := h.nattch_le id shp hslot
  have hself : (((s.decNattch shp).setSleep t v).segs shp).shmNattch =
      (s.segs shp).shmNattch - 1 := by
    change ((s.setSeg shp _).segs shp).shmNattch = _
    rw [setSeg_self]
    exact short_eq (by omega) (by omega)
  have hother : ∀ id' shp', s.shmSegs id' = .seg shp' → id' ≠ id →
      ((s.decNattch shp).setSleep t v).segs shp' = s.segs shp' := by
    intro id' shp' hslot' he
    exact setSeg_of_ne s (h.other_seg hslot hslot' he) _
  apply h.change t
  · rfl
  · rfl
  · rfl
  · exact le_rfl
  · exact fun _ _ => rfl
  · intro t' hne
    exact ⟨rfl, setSleep_of_ne _ hne _⟩
  · exact h.running_of_sleep hcall
  · intro id' shp' hslot'
    rw [hheld]
    by_cases he : id' = id
    · rw [he, hslot, Slot.seg.injEq] at hslot'
      rw [← hslot', he, if_pos rfl]
      rw [hself]
      push_cast
      ring
    · rw [if_neg (fun heq => he heq.symm), hother id' shp' hslot' he]
      rfl
  · intro id' shp' hslot'
    by_cases he : id' = id
    · rw [he, hslot, Slot.seg.injEq] at hslot'
      rw [← hslot', hself]
      omega
    · rw [hother id' shp' hslot' he]
      exact h.nattch_le id' shp' hslot'
  · intro id' hpos'
    apply h.live id' t
    rw [hheld]
    omega
  · exact h.fresh t
  · intro w' hw'
    rw [setSleep_self] at hw'
    rcases hv with hnone | ⟨after, hsome⟩
    · rw [hnone] at hw'
      simp at hw'
    · rw [hsome, Option.some.injEq] at hw'
      rw [← hw']
      trivial
  · intro w' c hw' hc
    rw [setSleep_self] at hw'
    rcases hv with hnone | ⟨after, hsome⟩
    · rw [hnone] at hw'
      simp at hw'
    · rw [hsome, Option.some.injEq] at hw'
      rw [← hw'] at hc
      simp [Sleep.claims] at hc

omit [DecidableEq Task] in
theorem Counted.kill (hslot : s.shmSegs id = .seg shp) (hzero : (s.segs shp).shmNattch ≤ 0)
    (hdest : (s.segs shp).dest = true) : Good s (s.killseg id shp) := by
  have hcount : s.count id = 0 := by
    have hnattch := h.nattch id shp hslot
    omega
  have hself : (s.killseg id shp).segs shp =
      { s.segs shp with seq := ((s.segs shp).seq + 1) % 65536 } := setSeg_self ..
  have hcounted : Counted (s.killseg id shp) := by
    apply h.setSlot id .unused
    · rfl
    · exact ⟨rfl, rfl, rfl, rfl, rfl⟩
    · exact le_rfl
    · intro shp' _
      by_cases he : shp' = shp
      · rw [he, hself]
      · exact congrArg ShmidDs.shmNattch (setSeg_of_ne s he _)
    · exact hcount
    · apply h.not_claimed
      rw [hslot]
      simp
    · intro shp' hshp'
      simp at hshp'
  refine ⟨hcounted, ?_⟩
  intro id' shp' hslot' hgone
  have hid : id' = id := by
    by_contra hne
    apply hgone
    change update s.shmSegs id .unused id' = _
    rw [update_of_ne hne]
    exact hslot'
  rw [hid] at hslot' ⊢
  rw [hslot, Slot.seg.injEq] at hslot'
  rw [← hslot', hself]
  exact ⟨hdest, hcount⟩

end

omit [DecidableEq Task] in
theorem Good.of_slots {s1 : Shm Task} (h : Good s1 s') (hslots : s1.shmSegs = s.shmSegs) :
    Good s s' := by
  refine ⟨h.counted, ?_⟩
  intro id shp hslot
  apply h.kills
  rw [hslots]
  exact hslot

theorem Counted.dropKill (h : Counted s)
    (hcall : s.sleep t = some w) (hslot : s.shmSegs id = .seg shp)
    (hholds : ∀ id', w.holds id' = if id = id' then 1 else 0) (after : After)
    (hdies : (s.decNattch shp).dies shp = true) :
    Good s (((s.decNattch shp).killseg id shp).setSleep t (some (.killseg shp after))) := by
  have hdrop := h.drop hcall hslot hholds (some (.killseg shp after)) (.inr ⟨after, rfl⟩)
  unfold Shm.dies at hdies
  rw [decide_eq_true_eq] at hdies
  have hslot' : ((s.decNattch shp).setSleep t (some (.killseg shp after))).shmSegs id =
      .seg shp := hslot
  exact (hdrop.kill hslot' hdies.1 hdies.2).of_slots rfl

theorem Counted.shmatMapped (h : Counted s)
    (hcall : s.sleep t = some (.shmMap shmd shp id)) (ok : Bool) (err : ℤ) :
    Good s (s.shmatMapped t shmd shp id ok err).1 := by
  obtain ⟨hslot, _, _⟩ := h.calls t _ hcall
  have hholds : ∀ id', (.shmMap shmd shp id : Sleep Task).holds id' =
      if id = id' then 1 else 0 := fun _ => rfl
  unfold Shm.shmatMapped
  split
  · apply Counted.good_of_slots
    · exact h.endMap hcall _
    · rfl
  · dsimp only
    split
    · rename_i hdies
      exact h.dropKill hcall hslot hholds _ hdies
    · apply Counted.good_of_slots
      · exact h.drop hcall hslot hholds none (.inl rfl)
      · rfl

/-! ## Detaching -/

section
variable (h : Counted (s.setSleep t none)) (hrunning : s.tasks t = .running)
include h hrunning

theorem Counted.detach {rest : List ℕ} (hrest : ∀ d ∈ rest, d ∈ s.shm t)
    (hlisted : ∀ id, s.listed id (s.shm t) =
      s.listed id rest + if (s.descs shmd).id = id then 1 else 0) (after : After) :
    Good s (s.detach t shmd rest after).1 := by
  have hpos : 0 < (s.setSleep t none).held (s.descs shmd).id t := by
    change 0 < s.listed (s.descs shmd).id (s.shm t) + _
    rw [hlisted, if_pos rfl]
    omega
  obtain ⟨shp, hslot⟩ := h.live _ t hpos
  change s.shmSegs (s.descs shmd).id = .seg shp at hslot
  unfold Shm.detach
  dsimp only
  rw [hslot]
  apply Counted.good_of_slots _ _
  swap
  · rfl
  have hheld : ∀ id', (((s.setList t rest).setSeg shp
      { s.segs shp with attaches := (s.segs shp).attaches.erase shmd }).setSleep t
        (some (.detach shmd shp (s.descs shmd).id after))).held id' t =
      (s.setSleep t none).held id' t := by
    intro id'
    unfold Shm.held
    rw [setSleep_self, setSleep_self]
    change s.listed id' (update s.shm t rest t) + _ = s.listed id' (s.shm t) + _
    rw [update_self, hlisted]
    rfl
  have hnattch : ∀ shp', (update s.segs shp
      { s.segs shp with attaches := (s.segs shp).attaches.erase shmd } shp').shmNattch =
      (s.segs shp').shmNattch := by
    intro shp'
    by_cases he : shp' = shp
    · rw [he, update_self]
    · rw [update_of_ne he]
  apply h.change t
  · rfl
  · rfl
  · rfl
  · exact le_rfl
  · exact fun _ _ => rfl
  · intro t' hne
    refine ⟨update_of_ne hne .., ?_⟩
    rw [setSleep_of_ne _ hne, setSleep_of_ne _ hne]
    rfl
  · exact hrunning
  · intro id' shp' _
    rw [hheld]
    exact congrArg (· + _) (hnattch shp')
  · intro id' shp' hslot'
    exact (hnattch shp').trans_le (h.nattch_le id' shp' hslot')
  · intro id' hpos'
    rw [hheld] at hpos'
    exact h.live id' t hpos'
  · intro d hd
    change d ∈ update s.shm t rest t at hd
    rw [update_self] at hd
    exact h.fresh t d (hrest d hd)
  · intro w hw
    rw [setSleep_self, Option.some.injEq] at hw
    rw [← hw]
    exact hslot
  · intro w c hw hc
    rw [setSleep_self, Option.some.injEq] at hw
    rw [← hw] at hc
    simp [Sleep.claims] at hc

theorem Counted.detachHead {rest : List ℕ} (hlist : s.shm t = shmd :: rest) (after : After) :
    Good s (s.detach t shmd rest after).1 := by
  apply h.detach hrunning
  · intro d hd
    rw [hlist]
    exact mem_cons_of_mem _ hd
  · intro id
    rw [hlist]
    unfold Shm.listed
    rw [countP_cons]
    simp

end

omit [DecidableEq Task] in
theorem Counted.not_starting (h : Counted s) {x : Task} (hx : s.tasks x ≠ .embryo)
    (t : Task) (w : Sleep Task) (hw : s.sleep t = some w) : w.claims ≠ some (.inr x) := by
  intro hclaims
  cases w with
  | newseg id size second => simp [Sleep.claims] at hclaims
  | shmat shp id shmid addr readOnly => simp [Sleep.claims] at hclaims
  | shmMap shmd shp id => simp [Sleep.claims] at hclaims
  | detach shmd shp id after => simp [Sleep.claims] at hclaims
  | killseg shp after => simp [Sleep.claims] at hclaims
  | shmFork child shmd newDesc =>
    simp only [Sleep.claims, Option.some.injEq, Sum.inr.injEq] at hclaims
    have hembryo : s.tasks child = .embryo := (h.calls t _ hw).1
    rw [hclaims] at hembryo
    exact hx hembryo

theorem Counted.shmExit (h : Counted (s.setSleep t none))
    (hrunning : s.tasks t = .running) (after : After) : Good s (s.shmExit t after).1 := by
  unfold Shm.shmExit
  split
  · exact h.good_of_slots rfl
  · split
    · exact h.good_of_slots rfl
    · rename_i shmd rest hlist
      exact h.detachHead hrunning hlist .exec
  · split
    · rename_i hlist
      apply Counted.good_of_slots
      · apply h.setTask t .free
        · apply h.not_starting
          change s.tasks t ≠ _
          rw [hrunning]
          simp
        · intro _
          exact ⟨hlist, setSleep_self ..⟩
      · rfl
    · rename_i shmd rest hlist
      exact h.detachHead hrunning hlist .exit

theorem Counted.detached (h : Counted s) {after : After}
    (hcall : s.sleep t = some (.detach shmd shp id after)) : Good s
    (s.detached t shp id after).1 := by
  have hslot : s.shmSegs id = .seg shp := h.calls t _ hcall
  have hholds : ∀ id', (.detach shmd shp id after : Sleep Task).holds id' =
      if id = id' then 1 else 0 := fun _ => rfl
  unfold Shm.detached
  dsimp only
  split
  · rename_i hdies
    exact h.dropKill hcall hslot hholds after hdies
  · have hdrop := h.drop hcall hslot hholds none (.inl rfl)
    exact (hdrop.shmExit (h.running_of_sleep hcall) after).of_slots rfl

omit [DecidableEq Task] in
theorem Counted.setTot (h : Counted s) (n : ℤ) : Counted { s with shmTot := n } := by
  obtain ⟨h1, h2, h3, h4, h5, h6, hcalls, h8, h9⟩ := h
  refine ⟨h1, h2, h3, h4, h5, h6, ?_, h8, h9⟩
  intro t w hw
  have hok := hcalls t w hw
  cases w <;> exact hok

theorem Counted.killed (h : Counted s) {after : After}
    (hcall : s.sleep t = some (.killseg shp after)) : Good s (s.killed t shp after).1 := by
  have hrunning := h.running_of_sleep hcall
  have hstop := (h.setTot (s.shmTot - (s.segs shp).shmNpages)).stopSleep (t := t) hrunning
  have hgood := Counted.shmExit (hstop ?_) hrunning after
  · exact hgood.of_slots rfl
  · intro id
    rw [hcall]
    rfl

omit [Fintype Task] in
theorem setSleep_eq_self (h : s.sleep t = none) : s.setSleep t none = s := by
  unfold Shm.setSleep
  rw [← h, update_eq_self]

theorem Counted.shmdt (h : Counted s) (hidle : s.idle t = true)
    (shmaddr : UInt32) : Good s (s.shmdt t shmaddr).1 := by
  obtain ⟨hrunning, hsleep⟩ := idle_iff.mp hidle
  unfold Shm.shmdt
  split
  · exact h.good_of_slots rfl
  · rename_i shmd hfind
    obtain ⟨hp, l1, l2, hlist, hbefore⟩ := List.find?_eq_some_iff_append.mp hfind
    have herase : (s.shm t).eraseP (fun d => (s.descs d).start = shmaddr) = l1 ++ l2 := by
      rw [hlist, eraseP_append_right, eraseP_cons_of_pos]
      · exact hp
      · intro d hd
        simpa using hbefore d hd
    rw [herase]
    have hself := setSleep_eq_self hsleep
    rw [← hself] at h
    apply h.detach hrunning
    · intro d hd
      rw [hlist]
      rcases mem_append.mp hd with hd1 | hd2
      · exact mem_append_left _ hd1
      · exact mem_append_right _ (mem_cons_of_mem _ hd2)
    · intro id
      rw [hlist]
      unfold Shm.listed
      rw [countP_append, countP_append, countP_cons]
      simp only [decide_eq_true_eq]
      omega

theorem Counted.rmid (h : Counted s) (hidle : s.idle t = true)
    (shmid : ℕ) (permitted : Bool) : Good s (s.rmid t shmid permitted).1 := by
  obtain ⟨hrunning, hsleep⟩ := idle_iff.mp hidle
  have hstay : Good s s := h.good_of_slots rfl
  unfold Shm.rmid
  split
  · exact hstay
  · exact hstay
  · rename_i shp hslot
    split
    · exact hstay
    · split
      · exact hstay
      · have hmarked : Counted (s.setSeg shp { s.segs shp with dest := true }) := by
          apply h.setSegs
          intro shp'
          by_cases he : shp' = shp
          · rw [he, update_self]
          · rw [update_of_ne he]
        have hdest : ((s.setSeg shp { s.segs shp with dest := true }).segs shp).dest = true := by
          rw [setSeg_self]
        dsimp only
        split
        · rename_i hzero
          have hasleep : Counted ((s.setSeg shp { s.segs shp with dest := true }).setSleep t
              (some (.killseg shp (.returns 0)))) := by
            apply hmarked.setSleep hrunning
            · intro id
              change callHolds id (s.sleep t) = 0
              rw [hsleep]
              rfl
            · exact fun id => rfl
            · intro w' hw'
              rw [Option.some.injEq] at hw'
              rw [← hw']
              trivial
            · intro w' c hw' hc
              rw [Option.some.injEq] at hw'
              rw [← hw'] at hc
              simp [Sleep.claims] at hc
          exact (hasleep.kill hslot hzero hdest).of_slots rfl
        · exact hmarked.good_of_slots rfl

omit [Fintype Task] in
theorem setList_eq_self (h : s.shm t = []) : s.setList t [] = s := by
  unfold Shm.setList
  rw [← h, update_eq_self]

theorem Counted.fork (h : Counted s) (hidle : s.idle t = true)
    (child : Task) : Good s (s.fork t child).1 := by
  obtain ⟨hrunning, hsleep⟩ := idle_iff.mp hidle
  unfold Shm.fork
  split
  · exact h.good_of_slots rfl
  · rename_i hfree
    push Not at hfree
    have hchild : s.shm child = [] ∧ s.sleep child = none := by
      apply h.running
      rw [hfree]
      simp
    have hunclaimed := h.not_starting (x := child) (by rw [hfree]; simp)
    rw [setList_eq_self hchild.1]
    split
    · apply Counted.good_of_slots
      · apply h.setTask child .running hunclaimed
        intro hne
        exact absurd rfl hne
      · rfl
    · have hne : t ≠ child := by
        intro heq
        rw [heq, hfree] at hrunning
        simp at hrunning
      have hembryo : Counted (s.setTask child .embryo) :=
        h.setTask child .embryo hunclaimed fun _ => hchild
      apply Counted.good_of_slots
      · apply hembryo.setSleep
        · exact (update_of_ne hne ..).trans hrunning
        · intro id
          change callHolds id (s.sleep t) = 0
          rw [hsleep]
          rfl
        · exact fun id => rfl
        · intro w' hw'
          rw [Option.some.injEq] at hw'
          rw [← hw']
          exact ⟨update_self .., fun d hd => hd, by simp⟩
        · intro w' c hw' hc
          rw [Option.some.injEq] at hw'
          rw [← hw'] at hc
          right
          intro t' w'' hw''
          rw [← hc]
          exact hunclaimed t' w'' hw''
      · rfl

omit [Fintype Task] [DecidableEq Task] in
theorem forkAttach_spec {l : List ℕ}
    (hinj : ∀ id id' shp, s.shmSegs id = .seg shp → s.shmSegs id' = .seg shp → id = id')
    (hlive : ∀ d ∈ l, ∃ shp, s.shmSegs (s.descs d).id = .seg shp)
    (hfits : ∀ id shp, s.shmSegs id = .seg shp →
      0 ≤ (s.segs shp).shmNattch ∧ (s.segs shp).shmNattch + s.listed id l ≤ 32767) :
    (s.forkAttach l).2 = true ∧ ∃ segs, (s.forkAttach l).1 = { s with segs := segs } ∧
      ∀ id shp, s.shmSegs id = .seg shp →
        (segs shp).shmNattch = (s.segs shp).shmNattch + s.listed id l := by
  induction l generalizing s with
  | nil =>
    refine ⟨rfl, s.segs, rfl, ?_⟩
    intro id shp _
    simp [Shm.listed]
  | cons shmd l ih =>
    obtain ⟨shp0, hslot0⟩ := hlive shmd (mem_cons_self ..)
    have hcons : ∀ id, s.listed id (shmd :: l) =
        s.listed id l + if (s.descs shmd).id = id then 1 else 0 := by
      intro id
      unfold Shm.listed
      rw [countP_cons]
      simp
    unfold Shm.forkAttach
    rw [hslot0]
    have hnattch : ∀ id shp, s.shmSegs id = .seg shp → ((s.setSeg shp0
        { s.segs shp0 with
          attaches := shmd :: (s.segs shp0).attaches
          shmNattch := short ((s.segs shp0).shmNattch + 1) }).segs shp).shmNattch =
        (s.segs shp).shmNattch + if (s.descs shmd).id = id then 1 else 0 := by
      intro id shp hslot
      obtain ⟨hlo, hhi⟩ := hfits id shp hslot
      rw [hcons] at hhi
      by_cases he : (s.descs shmd).id = id
      · rw [he, hslot, Slot.seg.injEq] at hslot0
        rw [← hslot0, setSeg_self, if_pos he]
        rw [if_pos he] at hhi
        exact short_eq (by omega) (by omega)
      · have hne : shp ≠ shp0 := by
          intro heq
          rw [heq] at hslot
          exact he (hinj _ _ shp0 hslot0 hslot)
        rw [setSeg_of_ne s hne, if_neg he, add_zero]
    obtain ⟨hok, segs, heq, hsegs⟩ := ih (s := s.setSeg shp0
        { s.segs shp0 with
          attaches := shmd :: (s.segs shp0).attaches
          shmNattch := short ((s.segs shp0).shmNattch + 1) }) hinj
      (fun d hd => hlive d (mem_cons_of_mem _ hd)) (by
        intro id shp hslot
        obtain ⟨hlo, hhi⟩ := hfits id shp hslot
        rw [hcons] at hhi
        rw [hnattch id shp hslot]
        change _ ∧ _ + (s.listed id l : ℤ) ≤ 32767
        push_cast at hhi
        split
        · rename_i he
          omega
        · rename_i he
          omega)
    refine ⟨hok, segs, heq, ?_⟩
    intro id shp hslot
    rw [hsegs id shp hslot, hnattch id shp hslot, hcons]
    change _ + _ + (s.listed id l : ℤ) = _
    push_cast
    ring

theorem Counted.forkEnd (h : Counted s) {child : Task}
    (hcall : s.sleep t = some w) (hclaims : w.claims = some (.inr child))
    (hholds : ∀ id, w.holds id = 0) (hembryo : s.tasks child = .embryo)
    {newDesc : List ℕ}
    (hnew : ∀ d ∈ newDesc, d < s.nextDesc ∧ ∃ d' ∈ s.shm t, (s.descs d').id = (s.descs d).id)
    (hfits : ∀ id shp, s.shmSegs id = .seg shp →
      (s.segs shp).shmNattch + s.listed id newDesc ≤ 32767) :
    Good s (s.forkEnd t child newDesc).1 := by
  have hrunning := h.running_of_sleep hcall
  have hchild : s.shm child = [] ∧ s.sleep child = none := by
    apply h.running
    rw [hembryo]
    simp
  have hne : child ≠ t := by
    intro heq
    rw [heq, hcall] at hchild
    simp at hchild
  have hlive : ∀ d ∈ newDesc, ∃ shp, s.shmSegs (s.descs d).id = .seg shp := by
    intro d hd
    obtain ⟨_, d', hd', hid⟩ := hnew d hd
    apply h.live _ t
    have hpos : 0 < s.listed (s.descs d).id (s.shm t) := by
      apply countP_pos_iff.mpr
      exact ⟨d', hd', by simpa using hid⟩
    unfold Shm.held
    omega
  obtain ⟨hok, segs, heq, hsegs⟩ := forkAttach_spec (s := s.setList child newDesc) (l := newDesc)
    h.slot_inj hlive (by
      intro id shp hslot
      refine ⟨?_, hfits id shp hslot⟩
      have hnattch := h.nattch id shp hslot
      change 0 ≤ (s.segs shp).shmNattch
      omega)
  unfold Shm.forkEnd
  rw [if_pos hok, heq]
  -- the call is over, then the child runs, then it has its list
  have hstop : Counted (s.setSleep t none) := by
    apply h.stopSleep hrunning
    intro id
    rw [hcall]
    exact hholds id
  have hstarted : Counted ((s.setSleep t none).setTask child .running) := by
    apply hstop.setTask child .running
    · exact h.unclaim hcall (.inr child) hclaims none (by simp)
    · intro hrun
      exact absurd rfl hrun
  apply Counted.good_of_slots _ _
  swap
  · rfl
  have hheld : ∀ id, (({ s.setList child newDesc with segs :=
      segs }.setTask child .running).setSleep t
      none).held id child = s.listed id newDesc := by
    intro id
    unfold Shm.held
    rw [setSleep_of_ne _ hne]
    change s.listed id (update s.shm child newDesc child) + callHolds id (s.sleep child) = _
    rw [update_self, hchild.2]
    rfl
  have hheld0 : ∀ id, ((s.setSleep t none).setTask child .running).held id child = 0 := by
    intro id
    change s.listed id (s.shm child) + callHolds id ((s.setSleep t none).sleep child) = 0
    rw [setSleep_of_ne _ hne, hchild.1, hchild.2]
    rfl
  apply hstarted.change child
  · rfl
  · rfl
  · rfl
  · exact le_rfl
  · exact fun _ _ => rfl
  · intro t' hne'
    exact ⟨update_of_ne hne' .., rfl⟩
  · exact update_self ..
  · intro id shp hslot
    rw [hheld, hheld0]
    change (segs shp).shmNattch + _ = (s.segs shp).shmNattch + _
    rw [hsegs id shp hslot]
    change (s.segs shp).shmNattch + (s.listed id newDesc : ℤ) + _ = _
    ring
  · intro id shp hslot
    exact (hsegs id shp hslot).trans_le (hfits id shp hslot)
  · intro id hpos
    rw [hheld] at hpos
    obtain ⟨d, hd, hid⟩ := countP_pos_iff.mp hpos
    rw [decide_eq_true_eq] at hid
    rw [← hid]
    exact hlive d hd
  · intro d hd
    change d ∈ update s.shm child newDesc child at hd
    rw [update_self] at hd
    exact (hnew d hd).1
  · intro w' hw'
    rw [setSleep_of_ne _ hne] at hw'
    change s.sleep child = some w' at hw'
    rw [hchild.2] at hw'
    simp at hw'
  · intro w' c hw'
    rw [setSleep_of_ne _ hne] at hw'
    change s.sleep child = some w' at hw'
    rw [hchild.2] at hw'
    simp at hw'

end Change

end LinuxKernel.SharedMemory
