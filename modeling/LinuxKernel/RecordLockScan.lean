import LinuxKernel.RecordLockModel
import LinuxKernel.ContiguousList

/-!
# What one call of `lock_it` can do to the chain

The loop of `lock_it` is analysed for an arbitrary chain, sorted or not: the
entries of the caller's owner and descriptor are exchanged for other entries
of theirs, no byte gets a type that neither the request nor an old entry gave
it, every other entry stays as it was, and no table entry is lost.
-/

namespace LinuxKernel.RecordLock
open List

theorem toOffT_eq_self {x : ℤ} (hlow : -2 ^ 31 ≤ x) (hhigh : x < 2 ^ 31) : toOffT x = x := by
  unfold toOffT Int.bmod
  simp only
  split <;> omega

theorem toOffT_offsetMax_succ : toOffT (offsetMax + 1) = -2 ^ 31 := by
  decide

theorem toOffT_bounds (x : ℤ) : -2 ^ 31 ≤ toOffT x ∧ toOffT x < 2 ^ 31 := by
  unfold toOffT Int.bmod
  simp only
  split <;> omega

theorem toOffT_succ_cases {x : ℤ} (hlow : 0 ≤ x) (hhigh : x ≤ offsetMax) :
    (x < offsetMax ∧ toOffT (x + 1) = x + 1) ∨ (x = offsetMax ∧ toOffT (x + 1) = -2 ^ 31) := by
  rcases lt_or_eq_of_le hhigh with hlt | heq
  · left
    unfold offsetMax at hlt
    exact ⟨hlt, toOffT_eq_self (by omega) (by omega)⟩
  · right
    exact ⟨heq, by rw [heq, toOffT_offsetMax_succ]⟩

theorem toOffT_pred {x : ℤ} (hlow : 0 ≤ x) (hhigh : x ≤ offsetMax) : toOffT (x - 1) = x - 1 := by
  unfold offsetMax at hhigh
  exact toOffT_eq_self (by omega) (by omega)

structure FileLock.Valid (fl : FileLock) : Prop where
  start_nonneg : 0 ≤ fl.flStart
  start_le_end : fl.flStart ≤ fl.flEnd
  end_le : fl.flEnd ≤ offsetMax

variable {current : Task} {fd : ℕ} {fl : FileLock}

theorem copyFlock_spec {filp : File} {l : Flock} (hcopy : copyFlock current filp l fd = some fl) :
    fl.flOwner = some current ∧ fl.flFd = fd ∧ fl.Valid := by
  unfold copyFlock at hcopy
  cases hinode : filp.fInode with
  | none => simp [hinode] at hcopy
  | some inode =>
    simp only [hinode] at hcopy
    split at hcopy
    · simp at hcopy
    · split at hcopy
      · simp at hcopy
      · split at hcopy
        · simp at hcopy
        · rename_i type _ _ base _
          split at hcopy
          · simp at hcopy
          · rename_i hneg
            push Not at hneg
            obtain rfl := Option.some.inj hcopy
            have hstart := toOffT_bounds (base + l.lStart.toInt)
            have hlen := l.lLen.toInt_lt
            refine ⟨rfl, rfl, hneg.1, ?_, ?_⟩
            all_goals
              simp only
              split
            · unfold offsetMax
              omega
            · rename_i hend
              revert hend
              unfold toOffT Int.bmod at *
              simp only at *
              intro hend
              split at hend <;> split at hend <;> split at hneg <;> omega
            · exact le_rfl
            · have hbound := toOffT_bounds
                (toOffT (toOffT (base + l.lStart.toInt) + l.lLen.toInt) - 1)
              unfold offsetMax
              omega

section
variable (s : Scan)

@[simp] theorem Scan.setEntry_table_self (a : Entry) (fl : FileLock) :
    (s.setEntry a fl).heap.table a = fl := by
  simp [Scan.setEntry, LockHeap.set]

@[simp] theorem Scan.setEntry_table_ne (a x : Entry) (fl : FileLock) (hne : x ≠ a) :
    (s.setEntry a fl).heap.table x = s.heap.table x := by
  simp [Scan.setEntry, LockHeap.set, hne]

@[simp] theorem Scan.setEntry_callerLock (a : Entry) (fl : FileLock) (hne : s.caller ≠ some a) :
    (s.setEntry a fl).callerLock = s.callerLock := by
  cases hc : s.caller with
  | none => simp [Scan.setEntry, Scan.callerLock, hc]
  | some c =>
    have hca : c ≠ a := fun heq => hne (heq ▸ hc)
    simp [Scan.setEntry, Scan.callerLock, LockHeap.set, hc, hca]

@[simp] theorem Scan.setCaller_callerLock (fl : FileLock) : (s.setCaller fl).callerLock = fl := by
  cases hc : s.caller <;>
    simp [Scan.setCaller, Scan.callerLock, LockHeap.set, hc]

@[simp] theorem Scan.setCaller_table_ne (x : Entry) (fl : FileLock) (hne : s.caller ≠ some x) :
    (s.setCaller fl).heap.table x = s.heap.table x := by
  cases hc : s.caller with
  | none => simp [Scan.setCaller, hc]
  | some c =>
    have hxc : x ≠ c := fun heq => hne (heq ▸ hc)
    simp [Scan.setCaller, LockHeap.set, hc, hxc]

@[simp] theorem Scan.setEntry_frame (a : Entry) (fl : FileLock) :
    (s.setEntry a fl).heap.freeList = s.heap.freeList ∧
    (s.setEntry a fl).heap.panicked = s.heap.panicked ∧
    (s.setEntry a fl).before = s.before ∧
    (s.setEntry a fl).caller = s.caller ∧
    (s.setEntry a fl).left = s.left ∧
    (s.setEntry a fl).right = s.right ∧
    (s.setEntry a fl).added = s.added :=
  ⟨rfl, rfl, rfl, rfl, rfl, rfl, rfl⟩

@[simp] theorem Scan.setCaller_frame (fl : FileLock) :
    (s.setCaller fl).heap.freeList = s.heap.freeList ∧
    (s.setCaller fl).heap.panicked = s.heap.panicked ∧
    (s.setCaller fl).before = s.before ∧
    (s.setCaller fl).caller = s.caller ∧
    (s.setCaller fl).left = s.left ∧
    (s.setCaller fl).right = s.right ∧
    (s.setCaller fl).added = s.added := by
  cases hc : s.caller <;> simp [Scan.setCaller, LockHeap.set, hc]

end

/-! ## The loop invariant -/

/-- Every byte of the lock has its type from an old entry of the same owner
and descriptor, or from the request. -/
def Granted (h0 : LockHeap) (own : List Entry) (req fl : FileLock) : Prop :=
  ∀ b, fl.Covers b →
    (∃ x ∈ own, (h0.table x).flType = fl.flType ∧ (h0.table x).Covers b) ∨
      (req.flType = fl.flType ∧ req.Covers b)

structure OwnLock (h0 : LockHeap) (own : List Entry) (req fl : FileLock) : Prop where
  key : fl.key = req.key
  type : fl.flType = .rdlck ∨ fl.flType = .wrlck
  start_nonneg : 0 ≤ fl.flStart
  end_le : fl.flEnd ≤ offsetMax
  granted : Granted h0 own req fl

/-- The state of the loop: `done` are the entries of the caller that `before`
has passed, `rest` those still ahead. -/
structure ScanInv (h0 : LockHeap) (req : FileLock) (pre own done : List Entry)
    (s : Scan) (rest : List Entry) : Prop where
  before_eq : s.before = pre ++ done
  perm : (done ++ (rest ++ s.heap.freeList)).Perm (own ++ h0.freeList)
  subset : ∀ x ∈ done ++ rest, x ∈ own
  frame : ∀ x, x ∉ own → s.heap.table x = h0.table x
  entries : ∀ x ∈ done ++ rest, OwnLock h0 own req (s.heap.table x)
  caller_key : s.callerLock.key = req.key
  caller_type : s.callerLock.flType = req.flType
  caller_valid : s.callerLock.Valid
  caller_granted : Granted h0 own req s.callerLock
  caller_mem : ∀ c, s.caller = some c → c ∈ done
  left_spec : ∀ l, s.left = some l →
    (l ∈ done ∨ s.right = some l) ∧ s.caller ≠ some l ∧
      s.callerLock.flStart ≤ (s.heap.table l).flEnd
  right_spec : ∀ r, s.right = some r →
    rest.head? = some r ∧ s.callerLock.flEnd < (s.heap.table r).flEnd ∧
      (s.heap.table r).flStart ≤ s.callerLock.flEnd
  free_owner : ∀ x ∈ s.heap.freeList, (s.heap.table x).flOwner = none
  sane : s.heap.panicked = false

variable {h0 : LockHeap} {req : FileLock} {pre own done rest : List Entry}
  {s : Scan} {a : Entry}

theorem OwnLock.shrink (hown : OwnLock h0 own req fl)
    {fl' : FileLock} (hkey : fl'.key = fl.key) (htype : fl'.flType = fl.flType)
    (hstart : fl.flStart ≤ fl'.flStart) (hend : fl'.flEnd ≤ fl.flEnd) :
    OwnLock h0 own req fl' where
  key := hkey.trans hown.key
  type := by
    rw [htype]
    exact hown.type
  start_nonneg := hown.start_nonneg.trans hstart
  end_le := hend.trans hown.end_le
  granted := by
    intro b hb
    rw [htype]
    exact hown.granted b ⟨hstart.trans hb.1, hb.2.trans hend⟩

theorem ScanInv.nodup (hinv : ScanInv h0 req pre own done s rest)
    (hnodup : (own ++ h0.freeList).Nodup) :
    (done ++ (rest ++ s.heap.freeList)).Nodup :=
  hinv.perm.nodup_iff.mpr hnodup

section
variable (hinv : ScanInv h0 req pre own done s (a :: rest))
include hinv

theorem ScanInv.head_notMem (hnodup : (own ++ h0.freeList).Nodup) :
    a ∉ done ∧ a ∉ rest ∧ a ∉ s.heap.freeList := by
  have h := hinv.nodup hnodup
  rw [nodup_append] at h
  have htail := h.2.1
  rw [cons_append, nodup_cons, mem_append, not_or] at htail
  refine ⟨?_, htail.1.1, htail.1.2⟩
  intro hmem
  exact h.2.2 a hmem a (by simp) rfl

theorem ScanInv.caller_ne_head (hnodup : (own ++ h0.freeList).Nodup) : s.caller ≠ some a := by
  intro hcaller
  exact (hinv.head_notMem hnodup).1 (hinv.caller_mem a hcaller)

omit hinv in
theorem ScanInv.left_done (hinv : ScanInv h0 req pre own done s rest)
    (hright : s.right = none) {l : Entry} (hl : s.left = some l) :
    l ∈ done := by
  rcases (hinv.left_spec l hl).1 with h | h
  · exact h
  · rw [hright] at h
    cases h

/-! ## One turn of the loop -/

theorem ScanInv.nextLock (hright : s.right = none) :
    ScanInv h0 req pre own (done ++ [a]) (s.nextLock a) rest where
  before_eq := by simp [Scan.nextLock, hinv.before_eq]
  perm := by simpa [Scan.nextLock] using hinv.perm
  subset := by simpa using hinv.subset
  frame := hinv.frame
  entries := by simpa [Scan.nextLock] using hinv.entries
  caller_key := hinv.caller_key
  caller_type := hinv.caller_type
  caller_valid := hinv.caller_valid
  caller_granted := hinv.caller_granted
  caller_mem := by
    intro c hc
    exact mem_append_left _ (hinv.caller_mem c hc)
  left_spec := by
    intro l hl
    obtain ⟨_, hne, hend⟩ := hinv.left_spec l hl
    exact ⟨.inl (mem_append_left _ (hinv.left_done hright hl)), hne, hend⟩
  right_spec := by
    intro r hr
    change s.right = some r at hr
    rw [hright] at hr
    cases hr
  free_owner := hinv.free_owner
  sane := hinv.sane

omit hinv in
theorem Scan.mark_of_le (hle : s.callerLock.flStart ≤ (s.heap.table a).flStart) :
    s.mark a = { s with
      added := s.added || decide (s.callerLock.flType = .unlck) } := by
  simp [Scan.mark, not_lt.mpr hle]

omit hinv in
theorem ScanInv.setAdded (hinv : ScanInv h0 req pre own done s rest)
    (added : Bool) :
    ScanInv h0 req pre own done { s with added := added } rest :=
  { hinv with }

theorem ScanInv.nextLeft (hnodup : (own ++ h0.freeList).Nodup) (hright : s.right = none)
    (hstart : (s.heap.table a).flStart < s.callerLock.flStart)
    (hend : s.callerLock.flStart ≤ (s.heap.table a).flEnd) :
    ScanInv h0 req pre own (done ++ [a]) ((s.mark a).nextLock a) rest := by
  refine { hinv.nextLock hright with left_spec := ?_ }
  intro l hl
  obtain rfl : a = l := by
    simpa [Scan.nextLock, Scan.mark, hstart] using hl
  exact ⟨.inl (by simp), hinv.caller_ne_head hnodup, hend⟩

theorem ScanInv.freeHead (hnodup : (own ++ h0.freeList).Nodup) (hright : s.right = none)
    (hreq : req.flOwner ≠ none) : ScanInv h0 req pre own done (s.freeHead a) rest := by
  obtain ⟨hdone, hrest, _⟩ := hinv.head_notMem hnodup
  have hne := hinv.caller_ne_head hnodup
  have htable : ∀ x, x ≠ a → (s.freeHead a).heap.table x = s.heap.table x := by
    intro x hx
    simp [Scan.freeHead, freeLock, hx]
  have hcaller : (s.freeHead a).callerLock = s.callerLock := by
    cases hc : s.caller with
    | none => simp [Scan.callerLock, Scan.freeHead, hc]
    | some c =>
      have hca : c ≠ a := by
        intro heq
        exact hne (heq ▸ hc)
      have hcell := htable c hca
      simpa [Scan.callerLock, Scan.freeHead, hc] using hcell
  have howner : (s.heap.table a).flOwner = req.flOwner :=
    congrArg Prod.fst (hinv.entries a (by simp)).key
  constructor
  · exact hinv.before_eq
  · refine List.Perm.trans ?_ hinv.perm
    apply List.Perm.append_left
    simp [Scan.freeHead, freeLock, perm_middle]
  · intro x hx
    apply hinv.subset
    simp only [mem_append, mem_cons] at hx ⊢
    tauto
  · intro x hx
    have hxa : x ≠ a := by
      intro heq
      exact hx (heq ▸ hinv.subset a (by simp))
    rw [htable x hxa]
    exact hinv.frame x hx
  · intro x hx
    have hxa : x ≠ a := by
      rintro rfl
      rcases mem_append.mp hx with h | h
      · exact hdone h
      · exact hrest h
    rw [htable x hxa]
    apply hinv.entries
    simp only [mem_append, mem_cons] at hx ⊢
    tauto
  · rw [hcaller]
    exact hinv.caller_key
  · rw [hcaller]
    exact hinv.caller_type
  · rw [hcaller]
    exact hinv.caller_valid
  · rw [hcaller]
    exact hinv.caller_granted
  · exact hinv.caller_mem
  · intro l hl
    obtain ⟨_, hlc, hend⟩ := hinv.left_spec l hl
    have hldone := hinv.left_done hright hl
    have hla : l ≠ a := fun heq => hdone (heq ▸ hldone)
    rw [hcaller, htable l hla]
    exact ⟨.inl hldone, hlc, hend⟩
  · intro r hr
    change s.right = some r at hr
    rw [hright] at hr
    cases hr
  · intro x hx
    by_cases hxa : x = a
    · subst hxa
      simp [Scan.freeHead, freeLock]
    · rw [htable x hxa]
      apply hinv.free_owner
      have hx' : x = a ∨ x ∈ s.heap.freeList := by
        simpa [Scan.freeHead, freeLock] using hx
      exact hx'.resolve_left hxa
  · have hsome : (s.heap.table a).flOwner.isNone = false := by
      rw [howner]
      cases hq : req.flOwner with
      | none => exact absurd hq hreq
      | some _ => rfl
    simp [Scan.freeHead, freeLock, hinv.sane, hsome]

end

def FileLock.hull (fl c : FileLock) : FileLock :=
  { fl with flStart := min c.flStart fl.flStart
            flEnd := max c.flEnd fl.flEnd }

structure MergeSpec (s s' : Scan) (a : Entry) : Prop where
  table_head : s'.heap.table a = (s.heap.table a).hull s.callerLock
  callerLock : s'.callerLock = s.callerLock.hull (s.heap.table a)
  table_ne : ∀ x, x ≠ a → s.caller ≠ some x → s'.heap.table x = s.heap.table x
  freeList : s'.heap.freeList = s.heap.freeList
  panicked : s'.heap.panicked = s.heap.panicked
  before : s'.before = s.before
  caller : s'.caller = s.caller
  left : s'.left = s.left
  right : s'.right = s.right
  added : s'.added = s.added

theorem Scan.mergeStart_cases (s : Scan) (a : Entry) :
    (s.callerLock.flStart ≤ (s.heap.table a).flStart ∧
      s.mergeStart a = s.setEntry a { s.heap.table a with
        flStart := s.callerLock.flStart }) ∨
    ((s.heap.table a).flStart ≤ s.callerLock.flStart ∧
      s.mergeStart a = s.setCaller { s.callerLock with
        flStart := (s.heap.table a).flStart }) := by
  by_cases hlt : s.callerLock.flStart < (s.heap.table a).flStart
  · exact .inl ⟨hlt.le, by simp only [Scan.mergeStart, if_pos hlt]⟩
  · exact .inr ⟨not_lt.mp hlt, by simp only [Scan.mergeStart, if_neg hlt]⟩

theorem Scan.mergeEnd_cases (s : Scan) (a : Entry) :
    ((s.heap.table a).flEnd ≤ s.callerLock.flEnd ∧
      s.mergeEnd a = s.setEntry a { s.heap.table a with
        flEnd := s.callerLock.flEnd }) ∨
    (s.callerLock.flEnd ≤ (s.heap.table a).flEnd ∧
      s.mergeEnd a = s.setCaller { s.callerLock with
        flEnd := (s.heap.table a).flEnd }) := by
  by_cases hlt : (s.heap.table a).flEnd < s.callerLock.flEnd
  · exact .inl ⟨hlt.le, by simp only [Scan.mergeEnd, if_pos hlt]⟩
  · exact .inr ⟨not_lt.mp hlt, by simp only [Scan.mergeEnd, if_neg hlt]⟩

theorem Scan.merge_spec (hne : s.caller ≠ some a) :
    MergeSpec s ((s.mergeStart a).mergeEnd a) a := by
  have hstart : (s.mergeStart a).heap.table a = { s.heap.table a with
      flStart := min s.callerLock.flStart (s.heap.table a).flStart } := by
    obtain ⟨hle, heq⟩ | ⟨hle, heq⟩ := s.mergeStart_cases a <;>
      simp [heq, hle, hne]
  have hcaller : (s.mergeStart a).callerLock = { s.callerLock with
      flStart := min s.callerLock.flStart (s.heap.table a).flStart } := by
    obtain ⟨hle, heq⟩ | ⟨hle, heq⟩ := s.mergeStart_cases a <;>
      simp [heq, hle, hne]
  have hptr : (s.mergeStart a).caller = s.caller := by
    obtain ⟨_, heq⟩ | ⟨_, heq⟩ := s.mergeStart_cases a <;> simp [heq]
  have hne' : (s.mergeStart a).caller ≠ some a := hptr ▸ hne
  have hends := (s.mergeStart a).mergeEnd_cases a
  rw [hstart, hcaller] at hends
  constructor
  · obtain ⟨hle, heq⟩ | ⟨hle, heq⟩ := hends <;> simp only at hle <;>
      simp [heq, hne', hstart, FileLock.hull, hle]
  · obtain ⟨hle, heq⟩ | ⟨hle, heq⟩ := hends <;> simp only at hle <;>
      simp [heq, hne', hcaller, FileLock.hull, hle, min_comm]
  · intro x hxa hxc
    have hxc' : (s.mergeStart a).caller ≠ some x := hptr ▸ hxc
    have hend : ((s.mergeStart a).mergeEnd a).heap.table x = (s.mergeStart a).heap.table x := by
      obtain ⟨_, heq⟩ | ⟨_, heq⟩ := hends <;> simp [heq, hxa, hxc']
    rw [hend]
    obtain ⟨_, heq⟩ | ⟨_, heq⟩ := s.mergeStart_cases a <;>
      simp [heq, hxa, hxc]
  all_goals
    obtain ⟨_, heq⟩ | ⟨_, heq⟩ := hends <;>
      rw [heq] <;>
      obtain ⟨_, heq'⟩ | ⟨_, heq'⟩ := s.mergeStart_cases a <;>
        simp [heq']

theorem FileLock.hull_covers {c : FileLock}
    (hlow : c.flStart - 1 ≤ fl.flEnd) (hhigh : fl.flStart ≤ c.flEnd + 1)
    {b : ℤ} (hb : (c.hull fl).Covers b) : fl.Covers b ∨ c.Covers b := by
  obtain ⟨hb1, hb2⟩ := hb
  simp only [FileLock.hull, min_le_iff, le_max_iff] at hb1 hb2
  unfold FileLock.Covers
  omega

section
variable (hinv : ScanInv h0 req pre own done s (a :: rest)) (hnodup : (own ++ h0.freeList).Nodup)
  (hright : s.right = none)
include hinv hnodup hright

theorem ScanInv.merge (htype : s.callerLock.flType = (s.heap.table a).flType)
    (hlow : s.callerLock.flStart - 1 ≤ (s.heap.table a).flEnd)
    (hhigh : (s.heap.table a).flStart ≤ s.callerLock.flEnd + 1) :
    ScanInv h0 req pre own done ((s.mergeStart a).mergeEnd a) (a :: rest) := by
  have hne := hinv.caller_ne_head hnodup
  obtain ⟨hdone, hrest, hfree⟩ := hinv.head_notMem hnodup
  have hspec := Scan.merge_spec hne
  set s' := (s.mergeStart a).mergeEnd a with hs'
  have hvalid := hinv.caller_valid
  have hownA := hinv.entries a (by simp)
  have hcover : ∀ b, (s.callerLock.hull (s.heap.table a)).Covers b →
      (s.heap.table a).Covers b ∨ s.callerLock.Covers b :=
    fun b hb => FileLock.hull_covers hlow hhigh hb
  have hgranted : ∀ b, (s.callerLock.hull (s.heap.table a)).Covers b →
      (∃ x ∈ own, (h0.table x).flType = s.callerLock.flType ∧ (h0.table x).Covers b) ∨
      (req.flType = s.callerLock.flType ∧ req.Covers b) := by
    intro b hb
    rcases hcover b hb with hfl | hc
    · rw [htype]
      exact hownA.granted b hfl
    · exact hinv.caller_granted b hc
  have hhull : (s.heap.table a).hull s.callerLock = { s.heap.table a with
      flStart := (s.callerLock.hull (s.heap.table a)).flStart
      flEnd := (s.callerLock.hull (s.heap.table a)).flEnd } := by
    simp [FileLock.hull, min_comm, max_comm]
  have hownHull : OwnLock h0 own req ((s.heap.table a).hull s.callerLock) := by
    constructor
    · exact hownA.key
    · exact hownA.type
    · simp only [FileLock.hull, le_min_iff]
      exact ⟨hvalid.start_nonneg, hownA.start_nonneg⟩
    · simp only [FileLock.hull, max_le_iff]
      exact ⟨hvalid.end_le, hownA.end_le⟩
    · intro b hb
      rw [hhull] at hb
      have h := hgranted b hb
      rw [htype] at h
      exact h
  have hcell : ∀ c, s.caller = some c → s.callerLock = s.heap.table c := by
    intro c hc
    simp [Scan.callerLock, hc]
  have hownCaller : ∀ c, s.caller = some c → OwnLock h0 own req (s'.heap.table c) := by
    intro c hc
    have hcaller' : s'.heap.table c = s'.callerLock := by
      simp [Scan.callerLock, hspec.caller, hc]
    have hownC := hinv.entries c (by simp [hinv.caller_mem c hc])
    rw [← hcell c hc] at hownC
    rw [hcaller', hspec.callerLock]
    constructor
    · exact hownC.key
    · exact hownC.type
    · simp only [FileLock.hull, le_min_iff]
      exact ⟨hownA.start_nonneg, hvalid.start_nonneg⟩
    · simp only [FileLock.hull, max_le_iff]
      exact ⟨hownA.end_le, hvalid.end_le⟩
    · exact hgranted
  constructor
  · rw [hspec.before]
    exact hinv.before_eq
  · rw [hspec.freeList]
    exact hinv.perm
  · exact hinv.subset
  · intro x hx
    have hxa : x ≠ a := fun heq => hx (heq ▸ hinv.subset a (by simp))
    have hxc : s.caller ≠ some x := by
      intro hc
      exact hx (hinv.subset x (by simp [hinv.caller_mem x hc]))
    rw [hspec.table_ne x hxa hxc]
    exact hinv.frame x hx
  · intro x hx
    by_cases hxa : x = a
    · subst hxa
      rw [hspec.table_head]
      exact hownHull
    · by_cases hxc : s.caller = some x
      · exact hownCaller x hxc
      · rw [hspec.table_ne x hxa hxc]
        exact hinv.entries x hx
  · rw [hspec.callerLock]
    exact hinv.caller_key
  · rw [hspec.callerLock]
    exact hinv.caller_type
  · rw [hspec.callerLock]
    constructor
    · simp only [FileLock.hull, le_min_iff]
      exact ⟨hownA.start_nonneg, hvalid.start_nonneg⟩
    · simp only [FileLock.hull, min_le_iff, le_max_iff]
      right
      right
      exact hvalid.start_le_end
    · simp only [FileLock.hull, max_le_iff]
      exact ⟨hownA.end_le, hvalid.end_le⟩
  · rw [hspec.callerLock]
    exact hgranted
  · intro c hc
    rw [hspec.caller] at hc
    exact hinv.caller_mem c hc
  · intro l hl
    rw [hspec.left] at hl
    obtain ⟨_, hlc, hend⟩ := hinv.left_spec l hl
    have hldone := hinv.left_done hright hl
    have hla : l ≠ a := fun heq => hdone (heq ▸ hldone)
    rw [hspec.caller, hspec.callerLock, hspec.table_ne l hla hlc]
    refine ⟨.inl hldone, hlc, ?_⟩
    simp only [FileLock.hull, min_le_iff]
    exact .inr hend
  · intro r hr
    rw [hspec.right, hright] at hr
    cases hr
  · intro x hx
    rw [hspec.freeList] at hx
    have hxa : x ≠ a := fun heq => hfree (heq ▸ hx)
    have hxc : s.caller ≠ some x := by
      intro hc
      have h := hinv.nodup hnodup
      rw [nodup_append] at h
      exact h.2.2 x (hinv.caller_mem x hc) x (by simp [hx]) rfl
    rw [hspec.table_ne x hxa hxc]
    exact hinv.free_owner x hx
  · rw [hspec.panicked]
    exact hinv.sane

theorem ScanInv.adopt (htype : (s.heap.table a).flType = req.flType)
    (hvalid : (s.heap.table a).Valid) (hstart : (s.heap.table a).flStart = s.callerLock.flStart) :
    ScanInv h0 req pre own (done ++ [a])
      ({ s with caller := some a, added := true }.nextLock a) rest := by
  have hnext := hinv.nextLock hright
  have hownA := hinv.entries a (by simp)
  refine { hnext with
    caller_key := hownA.key, caller_type := htype, caller_valid := hvalid
    caller_granted := hownA.granted, caller_mem := ?_, left_spec := ?_, right_spec := ?_ }
  · intro c hc
    obtain rfl : a = c := by simpa [Scan.nextLock] using hc
    simp
  · intro l hl
    obtain ⟨hmem, _, hend⟩ := hnext.left_spec l hl
    have hldone := hinv.left_done hright hl
    refine ⟨hmem, ?_, ?_⟩
    · intro heq
      obtain rfl : a = l := by simpa [Scan.nextLock] using heq
      exact (hinv.head_notMem hnodup).1 hldone
    · change (s.heap.table a).flStart ≤ _
      rw [hstart]
      exact hend
  · intro r hr
    rw [hright] at hr
    cases hr

theorem ScanInv.overwrite (htype : req.flType = .rdlck ∨ req.flType = .wrlck) :
    ScanInv h0 req pre own done
      (s.setEntry a { s.heap.table a with
        flStart := s.callerLock.flStart
        flEnd := s.callerLock.flEnd
        flType := s.callerLock.flType }) (a :: rest) := by
  have hne := hinv.caller_ne_head hnodup
  obtain ⟨hdone, hrest, hfree⟩ := hinv.head_notMem hnodup
  have hownA := hinv.entries a (by simp)
  set fl : FileLock := { s.heap.table a with
    flStart := s.callerLock.flStart
    flEnd := s.callerLock.flEnd
    flType := s.callerLock.flType } with hfl
  have hcaller : (s.setEntry a fl).callerLock = s.callerLock := by
    simp [hne]
  constructor
  · exact hinv.before_eq
  · exact hinv.perm
  · exact hinv.subset
  · intro x hx
    have hxa : x ≠ a := fun heq => hx (heq ▸ hinv.subset a (by simp))
    rw [Scan.setEntry_table_ne s a x fl hxa]
    exact hinv.frame x hx
  · intro x hx
    by_cases hxa : x = a
    · subst hxa
      rw [Scan.setEntry_table_self]
      constructor
      · exact hownA.key
      · rw [hinv.caller_type]
        exact htype
      · exact hinv.caller_valid.start_nonneg
      · exact hinv.caller_valid.end_le
      · exact hinv.caller_granted
    · rw [Scan.setEntry_table_ne s a x fl hxa]
      exact hinv.entries x hx
  · rw [hcaller]
    exact hinv.caller_key
  · rw [hcaller]
    exact hinv.caller_type
  · rw [hcaller]
    exact hinv.caller_valid
  · rw [hcaller]
    exact hinv.caller_granted
  · exact hinv.caller_mem
  · intro l hl
    obtain ⟨_, hlc, hend⟩ := hinv.left_spec l hl
    have hldone := hinv.left_done hright hl
    have hla : l ≠ a := fun heq => hdone (heq ▸ hldone)
    rw [hcaller, Scan.setEntry_table_ne s a l fl hla]
    exact ⟨.inl hldone, hlc, hend⟩
  · intro r hr
    change s.right = some r at hr
    rw [hright] at hr
    cases hr
  · intro x hx
    have hxa : x ≠ a := fun heq => hfree (heq ▸ hx)
    rw [Scan.setEntry_table_ne s a x fl hxa]
    exact hinv.free_owner x hx
  · exact hinv.sane

theorem ScanInv.stopRight (hend : s.callerLock.flEnd < (s.heap.table a).flEnd)
    (hstart : (s.heap.table a).flStart ≤ s.callerLock.flEnd)
    (hlow : s.callerLock.flStart ≤ (s.heap.table a).flEnd) :
    ScanInv h0 req pre own done { s.mark a with right := some a }
      (a :: rest) := by
  refine { hinv with left_spec := ?_, right_spec := ?_ }
  · intro l hl
    change (if _ then some a else s.left) = some l at hl
    split at hl
    · obtain rfl := Option.some.inj hl
      exact ⟨.inr rfl, hinv.caller_ne_head hnodup, hlow⟩
    · obtain ⟨_, hlc, hle⟩ := hinv.left_spec l hl
      exact ⟨.inl (hinv.left_done hright hl), hlc, hle⟩
  · intro r hr
    obtain rfl : a = r := by simpa using hr
    exact ⟨rfl, hend, hstart⟩

end

/-! ## The whole loop -/

inductive Scan.Turn (s : Scan) (a : Entry) : Scan → Prop
  | below
      (hend : (s.heap.table a).flEnd < s.callerLock.flStart)
      (htouch : s.callerLock.flType = (s.heap.table a).flType →
        (s.heap.table a).flEnd < toOffT (s.callerLock.flStart - 1)) :
      Scan.Turn s a (s.nextLock a)
  | mergeFree
      (htype : s.callerLock.flType = (s.heap.table a).flType)
      (hlow : toOffT (s.callerLock.flStart - 1) ≤ (s.heap.table a).flEnd)
      (hhigh : (s.heap.table a).flStart ≤ toOffT (s.callerLock.flEnd + 1))
      (hadded : s.added = true) :
      Scan.Turn s a (((s.mergeStart a).mergeEnd a).freeHead a)
  | mergeAdopt
      (htype : s.callerLock.flType = (s.heap.table a).flType)
      (hlow : toOffT (s.callerLock.flStart - 1) ≤ (s.heap.table a).flEnd)
      (hhigh : (s.heap.table a).flStart ≤ toOffT (s.callerLock.flEnd + 1))
      (hadded : s.added = false) :
      Scan.Turn s a ({ (s.mergeStart a).mergeEnd a with
        caller := some a, added := true }.nextLock a)
  | left
      (htype : s.callerLock.flType ≠ (s.heap.table a).flType)
      (hstart : (s.heap.table a).flStart < s.callerLock.flStart)
      (hlow : s.callerLock.flStart ≤ (s.heap.table a).flEnd)
      (hend : (s.heap.table a).flEnd ≤ s.callerLock.flEnd) :
      Scan.Turn s a ((s.mark a).nextLock a)
  | free
      (htype : s.callerLock.flType ≠ (s.heap.table a).flType)
      (hstart : s.callerLock.flStart ≤ (s.heap.table a).flStart)
      (hlow : s.callerLock.flStart ≤ (s.heap.table a).flEnd)
      (hend : (s.heap.table a).flEnd ≤ s.callerLock.flEnd)
      (hadded : s.added = true ∨ s.callerLock.flType = .unlck) :
      Scan.Turn s a ((s.mark a).freeHead a)
  | replace
      (htype : s.callerLock.flType ≠ (s.heap.table a).flType)
      (hunlck : s.callerLock.flType ≠ .unlck)
      (hstart : s.callerLock.flStart ≤ (s.heap.table a).flStart)
      (hlow : s.callerLock.flStart ≤ (s.heap.table a).flEnd)
      (hend : (s.heap.table a).flEnd ≤ s.callerLock.flEnd)
      (hadded : s.added = false)
      (hover : (s.heap.table a).flStart ≤ s.callerLock.flEnd) :
      Scan.Turn s a (((s.mark a).replaceEntry a).nextLock a)

inductive Scan.Stop (s : Scan) (a : Entry) : Scan → Prop
  | sameType
      (htype : s.callerLock.flType = (s.heap.table a).flType)
      (hlow : toOffT (s.callerLock.flStart - 1) ≤ (s.heap.table a).flEnd)
      (habove : toOffT (s.callerLock.flEnd + 1) < (s.heap.table a).flStart) :
      Scan.Stop s a s
  | above
      (htype : s.callerLock.flType ≠ (s.heap.table a).flType)
      (habove : s.callerLock.flEnd < (s.heap.table a).flStart) :
      Scan.Stop s a s
  | right
      (htype : s.callerLock.flType ≠ (s.heap.table a).flType)
      (hlow : s.callerLock.flStart ≤ (s.heap.table a).flEnd)
      (hstart : (s.heap.table a).flStart ≤ s.callerLock.flEnd)
      (hend : s.callerLock.flEnd < (s.heap.table a).flEnd) :
      Scan.Stop s a { s.mark a with right := some a }

theorem Scan.run_cons_cases (hkey : s.callerLock.key = (s.heap.table a).key)
    (hvalid : s.callerLock.Valid) (rest : List Entry) :
    (∃ s', s.Turn a s' ∧ s.run (a :: rest) = s'.run rest) ∨
      (∃ s', s.Stop a s' ∧ s.run (a :: rest) = (s', a :: rest)) := by
  have hsame : ¬ ¬ (s.callerLock.flOwner = (s.heap.table a).flOwner ∧
      s.callerLock.flFd = (s.heap.table a).flFd) :=
    not_not.mpr ⟨congrArg Prod.fst hkey, congrArg Prod.snd hkey⟩
  have hpred := toOffT_pred hvalid.start_nonneg
    (hvalid.start_le_end.trans hvalid.end_le)
  simp only [Scan.run, if_neg hsame]
  by_cases htype : s.callerLock.flType = (s.heap.table a).flType
  · rw [if_pos htype]
    by_cases hbelow : (s.heap.table a).flEnd < toOffT (s.callerLock.flStart - 1)
    · rw [if_pos hbelow]
      left
      exact ⟨_, .below (by omega) fun _ => hbelow, rfl⟩
    rw [if_neg hbelow]
    by_cases habove : toOffT (s.callerLock.flEnd + 1) < (s.heap.table a).flStart
    · rw [if_pos habove]
      right
      exact ⟨_, .sameType htype (not_lt.mp hbelow) habove, rfl⟩
    rw [if_neg habove]
    left
    have hadded : ((s.mergeStart a).mergeEnd a).added = s.added := by
      obtain ⟨_, heq⟩ | ⟨_, heq⟩ := (s.mergeStart a).mergeEnd_cases a <;>
        rw [heq] <;>
        obtain ⟨_, heq'⟩ | ⟨_, heq'⟩ := s.mergeStart_cases a <;>
          simp [heq']
    rw [hadded]
    cases hs : s.added with
    | true =>
      exact ⟨_, .mergeFree htype (not_lt.mp hbelow) (not_lt.mp habove) hs, rfl⟩
    | false =>
      exact ⟨_, .mergeAdopt htype (not_lt.mp hbelow) (not_lt.mp habove) hs, rfl⟩
  rw [if_neg htype]
  by_cases hbelow : (s.heap.table a).flEnd < s.callerLock.flStart
  · rw [if_pos hbelow]
    left
    exact ⟨_, .below hbelow fun h => absurd h htype, rfl⟩
  rw [if_neg hbelow]
  by_cases habove : s.callerLock.flEnd < (s.heap.table a).flStart
  · rw [if_pos habove]
    right
    exact ⟨_, .above htype habove, rfl⟩
  rw [if_neg habove]
  by_cases hbeyond : s.callerLock.flEnd < (s.heap.table a).flEnd
  · rw [if_pos hbeyond]
    right
    exact ⟨_, .right htype (not_lt.mp hbelow) (not_lt.mp habove) hbeyond, rfl⟩
  rw [if_neg hbeyond]
  left
  by_cases hleft : (s.heap.table a).flStart < s.callerLock.flStart
  · rw [if_neg (not_le.mpr hleft)]
    exact ⟨_, .left htype hleft (not_lt.mp hbelow) (not_lt.mp hbeyond), rfl⟩
  rw [if_pos (not_lt.mp hleft)]
  by_cases hadded : (s.mark a).added = true
  · rw [if_pos hadded]
    refine ⟨_, .free htype (not_lt.mp hleft) (not_lt.mp hbelow)
      (not_lt.mp hbeyond) ?_, rfl⟩
    simpa [Scan.mark] using hadded
  · rw [if_neg hadded]
    have hboth : s.added = false ∧ ¬ s.callerLock.flType = .unlck := by
      simpa [Scan.mark] using hadded
    exact ⟨_, .replace htype hboth.2 (not_lt.mp hleft) (not_lt.mp hbelow)
      (not_lt.mp hbeyond) hboth.1 (not_lt.mp habove), rfl⟩

section
variable (hinv : ScanInv h0 req pre own done s (a :: rest))
include hinv

theorem ScanInv.turn (hnodup : (own ++ h0.freeList).Nodup) (hright : s.right = none)
    (hreq : req.flOwner ≠ none)
    (htypes : req.flType = .rdlck ∨ req.flType = .wrlck ∨ req.flType = .unlck) {s' : Scan}
    (hturn : s.Turn a s') :
    s'.right = none ∧
      (ScanInv h0 req pre own done s' rest ∨ ScanInv h0 req pre own (done ++ [a]) s' rest) := by
  have hvalid := hinv.caller_valid
  have hownA := hinv.entries a (by simp)
  have hpred := toOffT_pred hvalid.start_nonneg
    (hvalid.start_le_end.trans hvalid.end_le)
  -- at `OFFSET_MAX` the sum is negative, so no merge is reached
  have hsucc : (s.heap.table a).flStart ≤ toOffT (s.callerLock.flEnd + 1) →
      (s.heap.table a).flStart ≤ s.callerLock.flEnd + 1 := by
    have hnonneg := hownA.start_nonneg
    rcases toOffT_succ_cases
      (hvalid.start_nonneg.trans hvalid.start_le_end) hvalid.end_le with
      ⟨_, heq⟩ | ⟨_, heq⟩ <;> omega
  have hspec := Scan.merge_spec (hinv.caller_ne_head hnodup)
  have hright' : ((s.mergeStart a).mergeEnd a).right = none := by
    rw [hspec.right]
    exact hright
  cases hturn with
  | below hend htouch => exact ⟨hright, .inr (hinv.nextLock hright)⟩
  | mergeFree htype hlow hhigh hadded =>
    have hmerge := hinv.merge hnodup hright htype (hpred ▸ hlow)
      (hsucc hhigh)
    exact ⟨hright', .inl (hmerge.freeHead hnodup hright' hreq)⟩
  | mergeAdopt htype hlow hhigh hadded =>
    have hmerge := hinv.merge hnodup hright htype (hpred ▸ hlow)
      (hsucc hhigh)
    refine ⟨hright', .inr (hmerge.adopt hnodup hright' ?_ ?_ ?_)⟩
    · rw [hspec.table_head]
      exact htype.symm.trans hinv.caller_type
    · have hcv := hmerge.caller_valid
      rw [hspec.callerLock] at hcv
      rw [hspec.table_head]
      constructor
      · simpa [FileLock.hull, min_comm] using hcv.start_nonneg
      · simpa [FileLock.hull, min_comm, max_comm] using hcv.start_le_end
      · simpa [FileLock.hull, max_comm] using hcv.end_le
    · rw [hspec.table_head, hspec.callerLock]
      simp [FileLock.hull, min_comm]
  | left htype hstart hlow hend =>
    exact ⟨hright, .inr (hinv.nextLeft hnodup hright hstart hlow)⟩
  | free htype hstart hlow hend hadded =>
    rw [Scan.mark_of_le hstart]
    exact ⟨hright, .inl ((hinv.setAdded _).freeHead hnodup hright hreq)⟩
  | replace htype hunlck hstart hlow hend hadded =>
    have hlock : req.flType = .rdlck ∨ req.flType = .wrlck := by
      rw [hinv.caller_type] at hunlck
      tauto
    rw [Scan.mark_of_le hstart]
    have hover := (hinv.setAdded _).overwrite hnodup hright hlock
    refine ⟨hright, .inr (hover.adopt hnodup hright ?_ ?_ ?_)⟩
    · simpa using hinv.caller_type
    · rw [Scan.setEntry_table_self]
      exact ⟨hvalid.start_nonneg, hvalid.start_le_end, hvalid.end_le⟩
    · rw [Scan.setEntry_table_self, Scan.setEntry_callerLock]
      exact hinv.caller_ne_head hnodup

theorem ScanInv.stop (hnodup : (own ++ h0.freeList).Nodup) (hright : s.right = none) {s' : Scan}
    (hstop : s.Stop a s') : ScanInv h0 req pre own done s' (a :: rest) := by
  cases hstop with
  | sameType htype hlow habove => exact hinv
  | above htype habove => exact hinv
  | right htype hlow hstart hend =>
    exact hinv.stopRight hnodup hright hend hstart hlow

theorem ScanInv.same_key : s.callerLock.key = (s.heap.table a).key :=
  hinv.caller_key.trans (hinv.entries a (by simp)).key.symm

end

theorem ScanInv.run_others (hinv : ScanInv h0 req pre own done s [])
    {post : List Entry}
    (hstop : ∀ x, post.head? = some x → x ∉ own ∧ (h0.table x).key ≠ req.key) :
    s.run post = (s, post) := by
  cases post with
  | nil => rfl
  | cons x post =>
    obtain ⟨hxown, hxkey⟩ := hstop x rfl
    have hother : ¬ (s.callerLock.flOwner = (s.heap.table x).flOwner ∧
        s.callerLock.flFd = (s.heap.table x).flFd) := by
      rintro ⟨howner, hfd⟩
      apply hxkey
      rw [← hinv.frame x hxown, ← hinv.caller_key]
      exact (Prod.ext howner hfd).symm
    simp only [Scan.run, if_pos hother]

theorem ScanInv.run (hinv : ScanInv h0 req pre own done s rest)
    (hnodup : (own ++ h0.freeList).Nodup) (hright : s.right = none)
    (hreq : req.flOwner ≠ none)
    (htypes : req.flType = .rdlck ∨ req.flType = .wrlck ∨ req.flType = .unlck)
    {post : List Entry}
    (hstop : ∀ x, post.head? = some x → x ∉ own ∧ (h0.table x).key ≠ req.key) :
    ∃ done' rest', (s.run (rest ++ post)).2 = rest' ++ post ∧
      ScanInv h0 req pre own done' (s.run (rest ++ post)).1 rest' := by
  induction rest generalizing s done with
  | nil =>
    refine ⟨done, [], ?_⟩
    rw [nil_append, hinv.run_others hstop]
    exact ⟨rfl, hinv⟩
  | cons a rest ih =>
    rw [cons_append]
    rcases Scan.run_cons_cases hinv.same_key hinv.caller_valid
      (rest ++ post) with ⟨s', hturn, hrun⟩ | ⟨s', hend, hrun⟩
    · rw [hrun]
      obtain ⟨hright', hnext | hnext⟩ := hinv.turn hnodup hright hreq htypes hturn
      · exact ih hnext hright'
      · exact ih hnext hright'
    · rw [hrun]
      exact ⟨done, a :: rest, rfl, hinv.stop hnodup hright hend⟩

/-! ## After the loop -/

structure HeapPost (h0 : LockHeap) (req : FileLock) (own out : List Entry)
    (h : LockHeap) : Prop where
  perm : (out ++ h.freeList).Perm (own ++ h0.freeList)
  frame : ∀ x, x ∉ own → x ∉ h0.freeList → h.table x = h0.table x
  entries : ∀ x ∈ out, OwnLock h0 own req (h.table x)
  free_owner : ∀ x ∈ h.freeList, (h.table x).flOwner = none
  sane : h.panicked = false

variable {out : List Entry} {h : LockHeap}

theorem ScanInv.heapPost (hinv : ScanInv h0 req pre own done s rest) :
    HeapPost h0 req own (done ++ rest) s.heap where
  perm := by simpa using hinv.perm
  frame := fun x hx _ => hinv.frame x hx
  entries := hinv.entries
  free_owner := hinv.free_owner
  sane := hinv.sane

variable {x : Entry}

section
variable (hpost : HeapPost h0 req own out h)
include hpost

theorem HeapPost.mem (hx : x ∈ out ∨ x ∈ h.freeList) : x ∈ own ∨ x ∈ h0.freeList := by
  have hmem := hpost.perm.subset (mem_append.mpr hx)
  exact mem_append.mp hmem

theorem HeapPost.notMem_free (hreq : req.flOwner ≠ none) (hx : x ∈ out) : x ∉ h.freeList := by
  intro hfree
  have howner : (h.table x).flOwner = req.flOwner := congrArg Prod.fst (hpost.entries x hx).key
  exact hreq (howner ▸ hpost.free_owner x hfree)

theorem HeapPost.reorder {out' : List Entry} (hperm : out'.Perm out) :
    HeapPost h0 req own out' h where
  perm := (hperm.append_right _).trans hpost.perm
  frame := hpost.frame
  entries := fun x hx => hpost.entries x (hperm.subset hx)
  free_owner := hpost.free_owner
  sane := hpost.sane

theorem HeapPost.set (hreq : req.flOwner ≠ none) (hx : x ∈ out) (hfl : OwnLock h0 own req fl) :
    HeapPost h0 req own out (h.set x fl) := by
  constructor
  · exact hpost.perm
  · intro y hyown hyfree
    have hyx : y ≠ x := by
      rintro rfl
      rcases hpost.mem (.inl hx) with h | h
      · exact hyown h
      · exact hyfree h
    simpa [LockHeap.set, hyx] using hpost.frame y hyown hyfree
  · intro y hy
    by_cases hyx : y = x
    · subst hyx
      simpa [LockHeap.set] using hfl
    · simpa [LockHeap.set, hyx] using hpost.entries y hy
  · intro y hy
    have hyx : y ≠ x := by
      rintro rfl
      exact hpost.notMem_free hreq hx hy
    simpa [LockHeap.set, hyx] using hpost.free_owner y hy
  · exact hpost.sane

omit hpost in
theorem HeapPost.free (hpost : HeapPost h0 req own (a :: out) h)
    (hreq : req.flOwner ≠ none) (hnodup : (own ++ h0.freeList).Nodup) :
    HeapPost h0 req own out (freeLock h a) := by
  have hnodupOut := hpost.perm.nodup_iff.mpr hnodup
  have hown := hpost.entries a (by simp)
  constructor
  · refine List.Perm.trans ?_ hpost.perm
    simp [freeLock, perm_middle]
  · intro y hyown hyfree
    have hya : y ≠ a := by
      rintro rfl
      rcases hpost.mem (.inl mem_cons_self) with h | h
      · exact hyown h
      · exact hyfree h
    simpa [freeLock, hya] using hpost.frame y hyown hyfree
  · intro y hy
    have hya : y ≠ a := by
      rintro rfl
      rw [cons_append, nodup_cons] at hnodupOut
      exact hnodupOut.1 (by simp [hy])
    simpa [freeLock, hya] using hpost.entries y (by simp [hy])
  · intro y hy
    by_cases hya : y = a
    · subst hya
      simp [freeLock]
    · have hy' : y = a ∨ y ∈ h.freeList := by simpa [freeLock] using hy
      simpa [freeLock, hya] using hpost.free_owner y (hy'.resolve_left hya)
  · have howner : (h.table a).flOwner = req.flOwner := congrArg Prod.fst hown.key
    cases hq : req.flOwner with
    | none => exact absurd hq hreq
    | some owner => simp [freeLock, hpost.sane, howner, hq]

theorem HeapPost.alloc (hnodup : (own ++ h0.freeList).Nodup) (hkey : req.key = (some current, fd))
    (hfl : OwnLock h0 own req fl) {tmp : Entry} {h' : LockHeap}
    (halloc : allocLock current h fl fd = some (tmp, h')) :
    HeapPost h0 req own (tmp :: out) h' ∧ h'.table tmp = fl ∧
      ∀ x, x ≠ tmp → h'.table x = h.table x := by
  unfold allocLock at halloc
  split at halloc
  · simp at halloc
  · rename_i y free hfree
    simp only [Option.some.injEq, Prod.mk.injEq] at halloc
    obtain ⟨rfl, rfl⟩ := halloc
    have hflKey : fl.flOwner = some current ∧ fl.flFd = fd := by
      have hk := hfl.key.trans hkey
      exact ⟨congrArg Prod.fst hk, congrArg Prod.snd hk⟩
    have hfl' : { fl with flOwner := some current, flFd := fd } = fl := by
      cases fl
      simp_all
    have hnodupOut := hpost.perm.nodup_iff.mpr hnodup
    rw [hfree] at hnodupOut
    have hyfree : y ∉ free := by
      rw [nodup_append, nodup_cons] at hnodupOut
      exact hnodupOut.2.1.1
    have hyowner := hpost.free_owner y (by simp [hfree])
    refine ⟨?_, by simp [hfl'], fun x hx => by simp [hx]⟩
    constructor
    · refine List.Perm.trans ?_ hpost.perm
      rw [hfree]
      exact perm_middle.symm
    · intro x hxown hxfree
      have hxy : x ≠ y := by
        rintro rfl
        have hmem : x ∈ h.freeList := by simp [hfree]
        rcases hpost.mem (.inr hmem) with h | h
        · exact hxown h
        · exact hxfree h
      simpa [hxy] using hpost.frame x hxown hxfree
    · intro x hx
      by_cases hxy : x = y
      · subst hxy
        simpa [hfl'] using hfl
      · have hxout : x ∈ out := by simpa [hxy] using hx
        simpa [hxy] using hpost.entries x hxout
    · intro x hx
      have hxy : x ≠ y := fun heq => hyfree (heq ▸ hx)
      simpa [hxy] using hpost.free_owner x (by simp [hfree, hx])
    · simp [hpost.sane, hyowner]

end

/-- `lock_it` has exchanged the entries `own` of the caller for `out`. -/
structure LockPost (h0 : LockHeap) (req : FileLock)
    (pre own post out : List Entry) (res : LockResult) : Prop where
  chain_eq : res.chain = pre ++ (out ++ post)
  heap : HeapPost h0 req own out res.heap

section
variable (hpost : HeapPost h0 req own out s.heap) (hreq : req.flOwner ≠ none)
  (hvalid : s.callerLock.Valid)
include hpost hreq hvalid

theorem HeapPost.trimLeft
    (hleft : ∀ l, s.left = some l → l ∈ out ∧ s.callerLock.flStart ≤ (s.heap.table l).flEnd) :
    HeapPost h0 req own out s.trimLeft := by
  unfold Scan.trimLeft
  cases hl : s.left with
  | none => exact hpost
  | some l =>
    obtain ⟨hmem, hend⟩ := hleft l hl
    refine hpost.set hreq hmem ((hpost.entries l hmem).shrink ?_ ?_ ?_ ?_)
    · rfl
    · rfl
    · exact le_rfl
    · have hpred := toOffT_pred hvalid.start_nonneg
        (hvalid.start_le_end.trans hvalid.end_le)
      change toOffT (s.callerLock.flStart - 1) ≤ _
      omega

theorem HeapPost.trimRight {r : Entry} (hr : r ∈ out)
    (hend : s.callerLock.flEnd < (s.heap.table r).flEnd)
    (hstart : (s.heap.table r).flStart ≤ s.callerLock.flEnd) :
    HeapPost h0 req own out (s.trimRight r).heap := by
  have hmax := (hpost.entries r hr).end_le
  refine hpost.set hreq hr ((hpost.entries r hr).shrink ?_ ?_ ?_ ?_)
  · rfl
  · rfl
  · change (s.heap.table r).flStart ≤ toOffT (s.callerLock.flEnd + 1)
    rcases toOffT_succ_cases (hvalid.start_nonneg.trans hvalid.start_le_end)
      hvalid.end_le with ⟨_, heq⟩ | ⟨heq, _⟩ <;> omega
  · exact le_rfl

end

theorem Scan.trim_post {post : List Entry}
    (hpost : HeapPost h0 req own (done ++ rest) s.heap)
    (hbefore : s.before = pre ++ done)
    (hreq : req.flOwner ≠ none) (hnodup : (own ++ h0.freeList).Nodup)
    (hkey : req.key = (some current, fd)) (hvalid : s.callerLock.Valid)
    (hleft : ∀ l, s.left = some l → l ∈ done ++ rest ∧ s.caller ≠ some l ∧
      s.callerLock.flStart ≤ (s.heap.table l).flEnd)
    (hright : ∀ r, s.right = some r → r ∈ done ++ rest ∧
      s.caller ≠ some r ∧ s.callerLock.flEnd < (s.heap.table r).flEnd ∧
      (s.heap.table r).flStart ≤ s.callerLock.flEnd)
    (hcaller : ∀ c, s.caller = some c → c ∈ done ++ rest)
    (hnew : s.added = false → rest ≠ []) :
    ∃ out, LockPost h0 req pre own post out
      (s.trim current fd (rest ++ post)) := by
  unfold Scan.trim
  cases hr : s.right with
  | none =>
    refine ⟨done ++ rest, by simp [hbefore], ?_⟩
    apply hpost.trimLeft hreq hvalid
    intro l hl
    exact ⟨(hleft l hl).1, (hleft l hl).2.2⟩
  | some r =>
    obtain ⟨hrmem, hrc, hrend, hrstart⟩ := hright r hr
    simp only
    by_cases hsplit : s.left = some r
    · rw [if_pos hsplit]
      obtain ⟨_, _, hlow⟩ := hleft r hsplit
      cases halloc : allocLock current s.heap (s.heap.table r) fd with
      | none =>
        cases hadded : s.added with
        | true => exact ⟨done ++ rest, by simp [hbefore], hpost⟩
        | false =>
          obtain ⟨tmp, rest', rfl⟩ := exists_cons_of_ne_nil (hnew hadded)
          have hmid : HeapPost h0 req own (tmp :: (done ++ rest'))
              s.heap :=
            hpost.reorder perm_middle.symm
          exact ⟨done ++ rest', by simp [hbefore], hmid.free hreq hnodup⟩
      | some res =>
        obtain ⟨l, heap⟩ := res
        obtain ⟨hpost', hcell, hframe⟩ := hpost.alloc hnodup hkey (hpost.entries r hrmem) halloc
        have hlnew : l ∉ done ++ rest := by
          have h := hpost'.perm.nodup_iff.mpr hnodup
          rw [cons_append, nodup_cons] at h
          exact fun hmem => h.1 (mem_append_left _ hmem)
        have hrl : r ≠ l := fun heq => hlnew (heq ▸ hrmem)
        refine ⟨done ++ l :: rest, by simp [hbefore], ?_⟩
        set s1 : Scan := { s with heap := heap, left := some l } with hs1
        have hcaller1 : s1.callerLock = s.callerLock := by
          cases hc : s.caller with
          | none => simp [Scan.callerLock, hs1, hc]
          | some c =>
            have hne : c ≠ l := fun heq => hlnew (heq ▸ hcaller c hc)
            simp [Scan.callerLock, hs1, hc, hframe c hne]
        have hcaller2 : (s1.trimRight r).callerLock = s.callerLock := by
          rw [← hcaller1]
          exact Scan.setEntry_callerLock s1 r _ hrc
        have hpost1 : HeapPost h0 req own (done ++ l :: rest) s1.heap := hpost'.reorder perm_middle
        have hrmem1 : r ∈ done ++ l :: rest := by
          simp only [mem_append, mem_cons] at hrmem ⊢
          tauto
        have hcellR : s1.heap.table r = s.heap.table r := hframe r hrl
        have htrim : HeapPost h0 req own (done ++ l :: rest)
            (s1.trimRight r).heap := by
          apply hpost1.trimRight hreq (hcaller1 ▸ hvalid) hrmem1
          · rw [hcaller1, hcellR]
            exact hrend
          · rw [hcaller1, hcellR]
            exact hrstart
        apply htrim.trimLeft hreq (hcaller2 ▸ hvalid)
        intro l' hl'
        obtain rfl : l = l' := by
          simpa [hs1, Scan.trimRight] using hl'
        refine ⟨by simp, ?_⟩
        rw [hcaller2, Scan.trimRight, Scan.setEntry_table_ne s1 r l _ hrl.symm]
        rw [hcell]
        exact hlow
    · rw [if_neg hsplit]
      have hcaller1 : (s.trimRight r).callerLock = s.callerLock :=
        Scan.setEntry_callerLock s r _ hrc
      refine ⟨done ++ rest, by simp [hbefore], ?_⟩
      have htrim := hpost.trimRight hreq hvalid hrmem hrend hrstart
      apply htrim.trimLeft hreq (hcaller1 ▸ hvalid)
      intro l hl
      have hl' : s.left = some l := by
        simpa [Scan.trimRight] using hl
      obtain ⟨hlmem, _, hlow⟩ := hleft l hl'
      have hlr : l ≠ r := fun heq => hsplit (heq ▸ hl')
      refine ⟨hlmem, ?_⟩
      rw [hcaller1, Scan.trimRight, Scan.setEntry_table_ne s r l _ hlr]
      exact hlow

theorem ScanInv.finish (hinv : ScanInv h0 req pre own done s rest)
    (hreq : req.flOwner ≠ none) (hnodup : (own ++ h0.freeList).Nodup)
    (hkey : req.key = (some current, fd))
    (htypes : req.flType = .rdlck ∨ req.flType = .wrlck ∨ req.flType = .unlck) (post : List Entry) :
    ∃ out, LockPost h0 req pre own post out
      (s.finish current fd (rest ++ post)) := by
  have hmemRest : ∀ r, s.right = some r → r ∈ rest := by
    intro r hr
    exact mem_of_mem_head? (hinv.right_spec r hr).1
  have hleft : ∀ l, s.left = some l → l ∈ done ++ rest ∧
      s.caller ≠ some l ∧ s.callerLock.flStart ≤ (s.heap.table l).flEnd := by
    intro l hl
    obtain ⟨hmem, hlc, hend⟩ := hinv.left_spec l hl
    refine ⟨?_, hlc, hend⟩
    rcases hmem with h | h
    · exact mem_append_left _ h
    · exact mem_append_right _ (hmemRest l h)
  have hcaller : ∀ c, s.caller = some c → c ∈ done := hinv.caller_mem
  have hnodupOut := hinv.nodup hnodup
  have hright : ∀ r, s.right = some r → r ∈ done ++ rest ∧
      s.caller ≠ some r ∧ s.callerLock.flEnd < (s.heap.table r).flEnd ∧
      (s.heap.table r).flStart ≤ s.callerLock.flEnd := by
    intro r hr
    obtain ⟨_, hend, hstart⟩ := hinv.right_spec r hr
    refine ⟨mem_append_right _ (hmemRest r hr), ?_, hend, hstart⟩
    intro hc
    rw [nodup_append] at hnodupOut
    exact hnodupOut.2.2 r (hcaller r hc) r
      (mem_append_left _ (hmemRest r hr)) rfl
  unfold Scan.finish
  by_cases hadded : s.added = true
  · rw [if_pos hadded]
    apply Scan.trim_post hinv.heapPost hinv.before_eq hreq hnodup hkey
      hinv.caller_valid hleft hright
    · intro c hc
      exact mem_append_left _ (hcaller c hc)
    · simp [hadded]
  · rw [if_neg hadded]
    by_cases hunlck : s.callerLock.flType = .unlck
    · rw [if_pos hunlck]
      exact ⟨done ++ rest, by simp [hinv.before_eq], hinv.heapPost⟩
    · rw [if_neg hunlck]
      cases halloc : allocLock current s.heap s.callerLock fd with
      | none =>
        exact ⟨done ++ rest, by simp [hinv.before_eq], hinv.heapPost⟩
      | some res =>
        obtain ⟨tmp, heap⟩ := res
        have hownC : OwnLock h0 own req s.callerLock := by
          rw [hinv.caller_type] at hunlck
          constructor
          · exact hinv.caller_key
          · rw [hinv.caller_type]
            tauto
          · exact hinv.caller_valid.start_nonneg
          · exact hinv.caller_valid.end_le
          · exact hinv.caller_granted
        obtain ⟨hpost', hcell, hframe⟩ := hinv.heapPost.alloc hnodup hkey hownC halloc
        have hnew : tmp ∉ done ++ rest := by
          have h := hpost'.perm.nodup_iff.mpr hnodup
          rw [cons_append, nodup_cons] at h
          exact fun hmem => h.1 (mem_append_left _ hmem)
        set s1 : Scan := { s with heap := heap, caller := some tmp } with hs1
        have hcaller1 : s1.callerLock = s.callerLock := by
          simp [Scan.callerLock, hs1, hcell]
        have hvalid1 : s1.callerLock.Valid := by
          rw [hcaller1]
          exact hinv.caller_valid
        have hmid : ∀ {x}, x ∈ done ++ rest → x ∈ done ++ tmp :: rest := by
          intro x hx
          simp only [mem_append, mem_cons] at hx ⊢
          tauto
        have hne : ∀ {x}, x ∈ done ++ rest → s1.caller ≠ some x := by
          intro x hx hc
          obtain rfl : tmp = x := by simpa [hs1] using hc
          exact hnew hx
        have hcells : ∀ {x}, x ∈ done ++ rest → s1.heap.table x = s.heap.table x := by
          intro x hx
          exact hframe x fun heq => hnew (heq ▸ hx)
        have hpost1 : HeapPost h0 req own (done ++ tmp :: rest) s1.heap :=
          hpost'.reorder perm_middle
        apply Scan.trim_post hpost1 hinv.before_eq hreq hnodup hkey hvalid1
        · intro l hl
          obtain ⟨hmem, _, hend⟩ := hleft l hl
          rw [hcaller1, hcells hmem]
          exact ⟨hmid hmem, hne hmem, hend⟩
        · intro r hr
          obtain ⟨hmem, _, hend, hstart⟩ := hright r hr
          rw [hcaller1, hcells hmem]
          exact ⟨hmid hmem, hne hmem, hend, hstart⟩
        · intro c hc
          obtain rfl : tmp = c := by simpa [hs1] using hc
          simp
        · simp

/-! ## The whole function -/

/-- The chain seen from the caller: the entries of its owner and descriptor
stand together between entries of others. -/
structure ChainSplit (h : LockHeap) (req : FileLock)
    (chain pre own post : List Entry) : Prop where
  chain_eq : chain = pre ++ (own ++ post)
  pre_key : ∀ x ∈ pre, (h.table x).key ≠ req.key
  own_key : ∀ x ∈ own, (h.table x).key = req.key
  post_key : ∀ x ∈ post, (h.table x).key ≠ req.key
  own_nil : own = [] → post = []

theorem exists_chainSplit (h : LockHeap) (req : FileLock)
    (chain : List Entry)
    (hcontig : Contiguous (chain.map fun x => (h.table x).key)) :
    ∃ pre own post, ChainSplit h req chain pre own post ∧
      skipOthers h req chain = (pre, own ++ post) := by
  set other : Entry → Bool := fun a => decide
    (¬ (req.flOwner = (h.table a).flOwner ∧ req.flFd = (h.table a).flFd))
    with hother
  have hkey : ∀ x, other x = false ↔ (h.table x).key = req.key := by
    intro x
    simp only [hother, FileLock.key, Prod.ext_iff, decide_eq_false_iff_not, not_not]
    constructor
    · rintro ⟨h1, h2⟩
      exact ⟨h1.symm, h2.symm⟩
    · rintro ⟨h1, h2⟩
      exact ⟨h1.symm, h2.symm⟩
  set rest := chain.dropWhile other with hrest
  set own := rest.takeWhile fun x => !other x with hown
  set post := rest.dropWhile fun x => !other x with hpost
  have hsplitRest : rest = own ++ post := (takeWhile_append_dropWhile).symm
  have hsplit : chain = chain.takeWhile other ++ (own ++ post) := by
    rw [← hsplitRest]
    exact (takeWhile_append_dropWhile).symm
  have hownKey : ∀ x ∈ own, (h.table x).key = req.key := by
    intro x hx
    have hx' := mem_takeWhile_imp hx
    apply (hkey x).mp
    simpa using hx'
  have hpostHead : ∀ x, post.head? = some x → other x = true := by
    intro x hx
    have hnot := List.head?_dropWhile_not (fun x => !other x) rest
    rw [← hpost, hx] at hnot
    simpa using hnot
  have hnil : own = [] → post = [] := by
    intro hnil
    cases hp : post with
    | nil => rfl
    | cons x post' =>
      have hrest' : rest = x :: post' := by
        rw [hsplitRest, hnil, hp]
        rfl
      have hx : other x = true := hpostHead x (by rw [hp]; rfl)
      have hnot := List.head?_dropWhile_not other chain
      rw [← hrest, hrest'] at hnot
      simp [hx] at hnot
  refine ⟨chain.takeWhile other, own, post, ⟨hsplit, ?_, hownKey, ?_, hnil⟩, ?_⟩
  · intro x hx hxkey
    have hx' := mem_takeWhile_imp hx
    rw [(hkey x).mpr hxkey] at hx'
    cases hx'
  · intro x hx hxkey
    have hne : own ≠ [] := by
      intro h
      rw [hnil h] at hx
      simp at hx
    have hkeys : Contiguous ((own.map fun x => (h.table x).key) ++
        post.map fun x => (h.table x).key) := by
      rw [hsplit, map_append, map_append] at hcontig
      exact hcontig.of_append_right
    apply hkeys.notMem_of_run (k := req.key) _ _ _ _
    · simpa using hownKey
    · simpa using hne
    · intro hhead
      rw [List.head?_map] at hhead
      obtain ⟨y, hy, hykey⟩ := Option.map_eq_some_iff.mp hhead
      have h1 := hpostHead y hy
      rw [(hkey y).mpr hykey] at h1
      cases h1
    · exact mem_map.mpr ⟨x, hx, hxkey⟩
  · unfold skipOthers
    rw [span_eq_takeWhile_dropWhile, ← hsplitRest]

structure Request (current : Task) (fd : ℕ) (req : FileLock) : Prop where
  key : req.key = (some current, fd)
  valid : req.Valid
  type : req.flType = .rdlck ∨ req.flType = .wrlck ∨ req.flType = .unlck

theorem Request.owner
    (hreq : Request current fd req) : req.flOwner ≠ none := by
  have h : req.flOwner = some current := congrArg Prod.fst hreq.key
  simp [h]

structure ChainLock (fl : FileLock) : Prop where
  owner : fl.flOwner ≠ none
  type : fl.flType = .rdlck ∨ fl.flType = .wrlck
  start_nonneg : 0 ≤ fl.flStart
  end_le : fl.flEnd ≤ offsetMax

theorem ScanInv.initial {post : List Entry}
    (hreq : Request current fd req)
    (hsplit : ChainSplit h0 req (pre ++ (own ++ post)) pre own post)
    (hlocks : ∀ x ∈ own, ChainLock (h0.table x))
    (hfree : ∀ x ∈ h0.freeList, (h0.table x).flOwner = none)
    (hsane : h0.panicked = false) :
    ScanInv h0 req pre own []
      ⟨h0, pre, req, none, none, none, false⟩ own := by
  constructor
  · simp
  · simp
  · simp
  · intro x _
    rfl
  · intro x hx
    have hx' : x ∈ own := by simpa using hx
    refine ⟨hsplit.own_key x hx', (hlocks x hx').type,
      (hlocks x hx').start_nonneg, (hlocks x hx').end_le, ?_⟩
    intro b hb
    exact .inl ⟨x, hx', rfl, hb⟩
  · rfl
  · rfl
  · exact hreq.valid
  · intro b hb
    exact .inr ⟨rfl, hb⟩
  · simp
  · simp
  · simp
  · exact hfree
  · exact hsane

theorem ChainSplit.stop {post : List Entry}
    (hsplit : ChainSplit h0 req (pre ++ (own ++ post)) pre own post) :
    ∀ x, post.head? = some x → x ∉ own ∧ (h0.table x).key ≠ req.key := by
  intro x hx
  have hkey := hsplit.post_key x (mem_of_mem_head? hx)
  exact ⟨fun hown => hkey (hsplit.own_key x hown), hkey⟩

theorem lockIt_post_of_split
    {chain post : List Entry} (hreq : Request current fd req)
    (hsplit : ChainSplit h0 req chain pre own post)
    (hskip : skipOthers h0 req chain = (pre, own ++ post))
    (hnodup : (own ++ h0.freeList).Nodup)
    (hlocks : ∀ x ∈ own, ChainLock (h0.table x))
    (hfree : ∀ x ∈ h0.freeList, (h0.table x).flOwner = none)
    (hsane : h0.panicked = false) :
    ∃ out, LockPost h0 req pre own post out
      (lockIt current h0 chain req fd) := by
  have hchain := hsplit.chain_eq
  subst hchain
  have hinit := ScanInv.initial hreq hsplit hlocks hfree hsane
  obtain ⟨done, rest, hrest, hinv⟩ := hinit.run hnodup rfl hreq.owner hreq.type hsplit.stop
  obtain ⟨out, hout⟩ := hinv.finish hreq.owner hnodup hreq.key hreq.type post
  refine ⟨out, ?_⟩
  unfold lockIt
  rw [hskip]
  simp only
  rw [hrest]
  exact hout

section
variable {chain post : List Entry} (hsplit : ChainSplit h0 req chain pre own post)
include hsplit

theorem ChainSplit.own_nodup (hnodup : (chain ++ h0.freeList).Nodup) :
    (own ++ h0.freeList).Nodup := by
  rw [hsplit.chain_eq] at hnodup
  refine List.Nodup.sublist ?_ hnodup
  apply List.Sublist.append_right
  exact (sublist_append_left own post).trans
    (sublist_append_right pre _)

theorem ChainSplit.mem_own (hx : x ∈ own) : x ∈ chain := by
  rw [hsplit.chain_eq]
  simp [hx]

end

section LockPost

variable {chain post out : List Entry} {res : LockResult}

theorem LockPost.frame (hpost : LockPost h0 req pre own post out res)
    (hnodup : (chain ++ h0.freeList).Nodup) (hx : x ∈ chain)
    (hown : x ∉ own) : res.heap.table x = h0.table x := by
  apply hpost.heap.frame x hown
  intro hfree
  rw [nodup_append] at hnodup
  exact hnodup.2.2 x hx x hfree rfl

section
variable (hsplit : ChainSplit h0 req chain pre own post)
include hsplit

theorem ChainSplit.mem_other (hx : x ∈ pre ∨ x ∈ post) :
    x ∈ chain ∧ x ∉ own ∧ (h0.table x).key ≠ req.key := by
  have hkey : (h0.table x).key ≠ req.key := by
    rcases hx with hx | hx
    · exact hsplit.pre_key x hx
    · exact hsplit.post_key x hx
  refine ⟨?_, fun hown => hkey (hsplit.own_key x hown), hkey⟩
  rw [hsplit.chain_eq]
  simp only [mem_append]
  tauto

theorem LockPost.mem_chain (hpost : LockPost h0 req pre own post out res) (hx : x ∈ res.chain) :
    x ∈ out ∨ (x ∈ chain ∧ x ∉ own ∧ (h0.table x).key ≠ req.key) := by
  rw [hpost.chain_eq] at hx
  simp only [mem_append] at hx
  rcases hx with hx | hx | hx
  · exact .inr (hsplit.mem_other (.inl hx))
  · exact .inl hx
  · exact .inr (hsplit.mem_other (.inr hx))

theorem LockPost.contiguous (hpost : LockPost h0 req pre own post out res)
    (hnodup : (chain ++ h0.freeList).Nodup)
    (hcontig : Contiguous (chain.map fun x => (h0.table x).key)) :
    Contiguous (res.chain.map fun x => (res.heap.table x).key) := by
  rw [hsplit.chain_eq, map_append, map_append] at hcontig
  have hsame : ∀ l : List Entry, (∀ x ∈ l, x ∈ pre ∨ x ∈ post) →
      (l.map fun x => (res.heap.table x).key) = l.map fun x => (h0.table x).key := by
    intro l hl
    apply map_congr_left
    intro x hx
    obtain ⟨hmem, hown, _⟩ := hsplit.mem_other (hl x hx)
    rw [hpost.frame hnodup hmem hown]
  rw [hpost.chain_eq, map_append, map_append,
    hsame pre fun x hx => .inl hx, hsame post fun x hx => .inr hx]
  apply hcontig.replaceRun (k := req.key)
  · intro hmem
    obtain ⟨x, hx, hkey⟩ := mem_map.mp hmem
    exact hsplit.pre_key x hx hkey
  · intro k hk
    obtain ⟨x, hx, rfl⟩ := mem_map.mp hk
    exact hsplit.own_key x hx
  · intro hmem
    obtain ⟨x, hx, hkey⟩ := mem_map.mp hmem
    exact hsplit.post_key x hx hkey
  · intro k hk
    obtain ⟨x, hx, rfl⟩ := mem_map.mp hk
    exact (hpost.heap.entries x hx).key
  · intro hnil
    rw [hsplit.own_nil (by simpa using hnil)]
    rfl

end

end LockPost

theorem lockIt_post {chain : List Entry}
    (hreq : Request current fd req)
    (hnodup : (chain ++ h0.freeList).Nodup)
    (hcontig : Contiguous (chain.map fun x => (h0.table x).key))
    (hlocks : ∀ x ∈ chain, ChainLock (h0.table x))
    (hfree : ∀ x ∈ h0.freeList, (h0.table x).flOwner = none)
    (hsane : h0.panicked = false) :
    ∃ pre own post out, ChainSplit h0 req chain pre own post ∧
      LockPost h0 req pre own post out
        (lockIt current h0 chain req fd) := by
  obtain ⟨pre, own, post, hsplit, hskip⟩ := exists_chainSplit h0 req chain hcontig
  obtain ⟨out, hout⟩ := lockIt_post_of_split hreq hsplit hskip
    (hsplit.own_nodup hnodup) (fun x hx => hlocks x (hsplit.mem_own hx))
    hfree hsane
  exact ⟨pre, own, post, out, hsplit, hout⟩

end LinuxKernel.RecordLock
