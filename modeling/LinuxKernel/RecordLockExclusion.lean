import LinuxKernel.RecordLockScan

/-!
# Lock exclusion over whole runs

The invariant of the lock table under any sequence of `fcntl_setlk`, sleeps
and wake-ups, and `fcntl_remove_locks`.  Every step that touches a chain
exchanges the entries of one owner and descriptor, so a single exchange lemma
serves granting, unlocking and the removal on close.
-/

namespace LinuxKernel.RecordLock
open List

def Excludes (fl1 fl2 : FileLock) : Prop :=
  fl1.key ≠ fl2.key → (∃ b, fl1.Covers b ∧ fl2.Covers b) → fl1.flType = .rdlck ∧ fl2.flType = .rdlck

structure LockSystem.Inv (sys : LockSystem) : Prop where
  nodup : ∀ ino, (sys.iFlock ino ++ sys.heap.freeList).Nodup
  disjoint : ∀ i j, i ≠ j → ∀ x ∈ sys.iFlock i, x ∉ sys.iFlock j
  contiguous : ∀ ino, Contiguous ((sys.iFlock ino).map fun x => (sys.heap.table x).key)
  locks : ∀ ino, ∀ x ∈ sys.iFlock ino, ChainLock (sys.heap.table x)
  exclusion : ∀ ino, ∀ x ∈ sys.iFlock ino, ∀ y ∈ sys.iFlock ino,
    Excludes (sys.heap.table x) (sys.heap.table y)
  free_owner : ∀ x ∈ sys.heap.freeList, (sys.heap.table x).flOwner = none
  sane : sys.heap.panicked = false
  waiters : ∀ task w, sys.waiting task = some w → Request task w.fd w.fileLock

theorem LockSystem.Inv.init : LockSystem.init.Inv := by
  constructor
  · intro ino
    simpa [LockSystem.init] using nodup_finRange nrFileLocks
  · intro i j _ x hx
    simp [LockSystem.init] at hx
  · intro ino
    simp [LockSystem.init, Contiguous]
  · intro ino x hx
    simp [LockSystem.init] at hx
  · intro ino x hx
    simp [LockSystem.init] at hx
  · intro x _
    rfl
  · rfl
  · intro task w hw
    simp [LockSystem.init] at hw

/-! ## Exchanging the entries of one owner and descriptor -/

def Unopposed (h : LockHeap) (chain : List Entry) (req : FileLock) : Prop :=
  req.flType ≠ .unlck → ∀ x ∈ chain, conflict req (h.table x) = false

theorem Excludes.symm {fl1 fl2 : FileLock} (hex : Excludes fl1 fl2) : Excludes fl2 fl1 := by
  rintro hkey ⟨b, h2, h1⟩
  exact (hex hkey.symm ⟨b, h1, h2⟩).symm

theorem excludes_of_not_conflict {req fl : FileLock}
    (htype : req.flType = .rdlck ∨ req.flType = .wrlck)
    (hconflict : conflict req fl = false) : Excludes req fl := by
  rintro hkey ⟨b, hreq, hfl⟩
  have hne : ¬ (req.flOwner = fl.flOwner ∧ req.flFd = fl.flFd) := by
    rintro ⟨howner, hfd⟩
    exact hkey (Prod.ext howner hfd)
  have hoverlap : overlap req fl = true := by
    have h1 : fl.flStart ≤ req.flEnd := hfl.1.trans hreq.2
    have h2 : req.flStart ≤ fl.flEnd := hreq.1.trans hfl.2
    simp [overlap, h1, h2]
  unfold conflict at hconflict
  rw [if_neg hne, if_neg (by simp [hoverlap])] at hconflict
  rcases htype with htype | htype
  · rw [htype] at hconflict
    exact ⟨htype, by simpa using hconflict⟩
  · simp [htype] at hconflict

section Exchange

variable {sys : LockSystem} {ino : ℕ} {req : FileLock} {res : LockResult}
  {pre own post out : List Entry}

section
variable (hinv : sys.Inv) (hsplit : ChainSplit sys.heap req (sys.iFlock ino) pre own post)
include hinv hsplit

theorem LockPost.nodup (hpost : LockPost sys.heap req pre own post out res) :
    (res.chain ++ res.heap.freeList).Nodup := by
  have hnodup := hinv.nodup ino
  have hold : (sys.iFlock ino ++ sys.heap.freeList).Perm
      (pre ++ post ++ (own ++ sys.heap.freeList)) := by
    rw [hsplit.chain_eq, ← append_assoc (pre ++ post)]
    apply List.Perm.append_right
    rw [append_assoc]
    exact perm_append_comm.append_left pre
  have hnew : (res.chain ++ res.heap.freeList).Perm
      (pre ++ post ++ (out ++ res.heap.freeList)) := by
    rw [hpost.chain_eq, ← append_assoc (pre ++ post)]
    apply List.Perm.append_right
    rw [append_assoc]
    exact perm_append_comm.append_left pre
  rw [hnew.nodup_iff, (hpost.heap.perm.append_left _).nodup_iff, ← hold.nodup_iff]
  exact hnodup

theorem LockPost.notMem_other (hpost : LockPost sys.heap req pre own post out res) {j : ℕ}
    (hj : j ≠ ino) {x : Entry} (hx : x ∈ res.chain ∨ x ∈ res.heap.freeList) : x ∉ sys.iFlock j := by
  have hold : x ∈ sys.iFlock ino ∨ x ∈ sys.heap.freeList := by
    have hheap : ∀ y, y ∈ out ∨ y ∈ res.heap.freeList →
        y ∈ sys.iFlock ino ∨ y ∈ sys.heap.freeList := by
      intro y hy
      rcases hpost.heap.mem hy with h | h
      · exact .inl (hsplit.mem_own h)
      · exact .inr h
    rcases hx with hx | hx
    · rcases hpost.mem_chain hsplit hx with h | h
      · exact hheap x (.inl h)
      · exact .inl h.1
    · exact hheap x (.inr hx)
  rcases hold with h | h
  · exact hinv.disjoint ino j hj.symm x h
  · intro hxj
    have hnodup := hinv.nodup j
    rw [nodup_append] at hnodup
    exact hnodup.2.2 x hxj x h rfl

theorem OwnLock.excludes (hfree : Unopposed sys.heap (sys.iFlock ino) req) {fl : FileLock}
    (hown : OwnLock sys.heap own req fl) {y : Entry} (hy : y ∈ sys.iFlock ino) :
    Excludes fl (sys.heap.table y) := by
  rintro hkey ⟨b, hb, hyb⟩
  rcases hown.granted b hb with ⟨x, hx, htype, hxb⟩ | ⟨htype, hreqb⟩
  · have hxkey : (sys.heap.table x).key = fl.key := (hsplit.own_key x hx).trans hown.key.symm
    rw [← htype]
    exact hinv.exclusion ino x (hsplit.mem_own hx) y hy (hxkey ▸ hkey)
      ⟨b, hxb, hyb⟩
  · have hreqType : req.flType = .rdlck ∨ req.flType = .wrlck := by
      rw [htype]
      exact hown.type
    have hunlck : req.flType ≠ .unlck := by
      rcases hreqType with h | h <;> simp [h]
    rw [← htype]
    exact excludes_of_not_conflict hreqType (hfree hunlck y hy)
      (hown.key ▸ hkey) ⟨b, hreqb, hyb⟩

theorem LockPost.exclusion (hpost : LockPost sys.heap req pre own post out res)
    (hfree : Unopposed sys.heap (sys.iFlock ino) req) :
    ∀ x ∈ res.chain, ∀ y ∈ res.chain, Excludes (res.heap.table x) (res.heap.table y) := by
  intro x hx y hy
  rcases hpost.mem_chain hsplit hx with hxo | ⟨hxc, hxown, _⟩ <;>
    rcases hpost.mem_chain hsplit hy with hyo | ⟨hyc, hyown, _⟩
  · intro hkey
    have hkx := (hpost.heap.entries x hxo).key
    have hky := (hpost.heap.entries y hyo).key
    exact absurd (hkx.trans hky.symm) hkey
  · rw [hpost.frame (hinv.nodup ino) hyc hyown]
    exact (hpost.heap.entries x hxo).excludes hinv hsplit hfree hyc
  · rw [hpost.frame (hinv.nodup ino) hxc hxown]
    exact ((hpost.heap.entries y hyo).excludes hinv hsplit hfree hxc).symm
  · rw [hpost.frame (hinv.nodup ino) hxc hxown, hpost.frame (hinv.nodup ino) hyc hyown]
    exact hinv.exclusion ino x hxc y hyc

end

theorem LockSystem.Inv.exchange (hinv : sys.Inv)
    (hreq : req.flOwner ≠ none)
    (hsplit : ChainSplit sys.heap req (sys.iFlock ino) pre own post)
    (hpost : LockPost sys.heap req pre own post out res)
    (hfree : Unopposed sys.heap (sys.iFlock ino) req) :
    (sys.setChain ino res.heap res.chain).Inv := by
  have hchain : ∀ j, (sys.setChain ino res.heap res.chain).iFlock j =
      if j = ino then res.chain else sys.iFlock j := by
    intro j
    by_cases hj : j = ino
    · subst hj
      simp [LockSystem.setChain]
    · simp [LockSystem.setChain, hj]
  have hcell : ∀ j, j ≠ ino → ∀ x ∈ sys.iFlock j, res.heap.table x = sys.heap.table x := by
    intro j hj x hx
    apply hpost.frame (hinv.nodup j) hx
    intro hown
    exact hinv.disjoint j ino hj x hx (hsplit.mem_own hown)
  constructor
  · intro j
    rw [hchain]
    split
    · exact hpost.nodup hinv hsplit
    · rename_i hj
      have hnodup := hpost.nodup hinv hsplit
      have hold := hinv.nodup j
      rw [nodup_append] at hnodup hold ⊢
      refine ⟨hold.1, hnodup.2.1, ?_⟩
      rintro x hx y hy rfl
      exact hpost.notMem_other hinv hsplit hj (.inr hy) hx
  · intro i j hij x hx
    rw [hchain] at hx ⊢
    by_cases hi : i = ino <;> by_cases hj : j = ino
    · exact absurd (hi.trans hj.symm) hij
    · rw [if_pos hi] at hx
      rw [if_neg hj]
      exact hpost.notMem_other hinv hsplit hj (.inl hx)
    · rw [if_neg hi] at hx
      rw [if_pos hj]
      intro hxchain
      exact hpost.notMem_other hinv hsplit hi (.inl hxchain) hx
    · rw [if_neg hi] at hx
      rw [if_neg hj]
      exact hinv.disjoint i j hij x hx
  · intro j
    rw [hchain]
    split
    · exact hpost.contiguous hsplit (hinv.nodup ino) (hinv.contiguous ino)
    · rename_i hj
      have hmap : ((sys.iFlock j).map fun x => (res.heap.table x).key) =
          (sys.iFlock j).map fun x => (sys.heap.table x).key := by
        apply map_congr_left
        intro x hx
        rw [hcell j hj x hx]
      change Contiguous ((sys.iFlock j).map fun x => (res.heap.table x).key)
      rw [hmap]
      exact hinv.contiguous j
  · intro j x hx
    rw [hchain] at hx
    change ChainLock (res.heap.table x)
    split at hx
    · rcases hpost.mem_chain hsplit hx with hout | ⟨hxc, hxown, _⟩
      · have hown := hpost.heap.entries x hout
        refine ⟨?_, hown.type, hown.start_nonneg, hown.end_le⟩
        have howner : (res.heap.table x).flOwner = req.flOwner := congrArg Prod.fst hown.key
        rw [howner]
        exact hreq
      · rw [hpost.frame (hinv.nodup ino) hxc hxown]
        exact hinv.locks ino x hxc
    · rename_i hj
      rw [hcell j hj x hx]
      exact hinv.locks j x hx
  · intro j x hx y hy
    rw [hchain] at hx hy
    change Excludes (res.heap.table x) (res.heap.table y)
    by_cases hj : j = ino
    · rw [if_pos hj] at hx hy
      exact hpost.exclusion hinv hsplit hfree x hx y hy
    · rw [if_neg hj] at hx hy
      rw [hcell j hj x hx, hcell j hj y hy]
      exact hinv.exclusion j x hx y hy
  · exact hpost.heap.free_owner
  · exact hpost.heap.sane
  · exact hinv.waiters

end Exchange

section
variable {sys : LockSystem} (hinv : sys.Inv)
include hinv

theorem LockSystem.Inv.setWaiting {current : Task} {w : Option Waiter}
    (hw : ∀ v, w = some v → Request current v.fd v.fileLock) : (sys.setWaiting current w).Inv := by
  refine { hinv with waiters := ?_ }
  intro task v hv
  by_cases htask : task = current
  · subst htask
    exact hw v (by simpa [LockSystem.setWaiting] using hv)
  · exact hinv.waiters task v (by simpa [LockSystem.setWaiting, htask] using hv)

theorem LockSystem.Inv.setlkRepeat {current : Task} {fd : ℕ} {req : FileLock}
    (hreq : Request current fd req) (ino : ℕ) (cmd : SetlkCmd) (signal : Bool) :
    (sys.setlkRepeat current fd ino cmd req signal).1.Inv := by
  unfold LockSystem.setlkRepeat
  split
  · cases cmd with
    | setlk => exact hinv
    | setlkw =>
      simp only
      split
      · exact hinv
      · apply hinv.setWaiting
        intro v hv
        obtain rfl := Option.some.inj hv
        exact hreq
  · rename_i hscan
    have hfree : Unopposed sys.heap (sys.iFlock ino) req := by
      intro hunlck x hx
      by_contra hconflict
      apply hscan
      refine ⟨hunlck, any_eq_true.mpr ⟨x, hx, ?_⟩⟩
      simpa using hconflict
    obtain ⟨pre, own, post, out, hsplit, hpost⟩ :=
      lockIt_post hreq (hinv.nodup ino) (hinv.contiguous ino)
        (hinv.locks ino) hinv.free_owner hinv.sane
    exact hinv.exchange hreq.owner hsplit hpost hfree

omit hinv in
theorem checkMode_eq_some {fMode : ℕ} {fl req : FileLock}
    (hmode : checkMode fMode fl = some req) :
    ∃ type, req = { fl with flType := type } ∧ (type = .rdlck ∨ type = .wrlck ∨ type = .unlck) := by
  obtain ⟨owner, fd, type, whence, start, flEnd⟩ := fl
  cases type <;> simp only [checkMode] at hmode
  case unlck =>
    exact ⟨.unlck, (Option.some.inj hmode).symm, by simp⟩
  all_goals
    split at hmode
    · cases hmode
  case rdlck => exact ⟨.rdlck, (Option.some.inj hmode).symm, by simp⟩
  case wrlck => exact ⟨.wrlck, (Option.some.inj hmode).symm, by simp⟩
  case exlck => exact ⟨.wrlck, (Option.some.inj hmode).symm, by simp⟩
  case shlck => exact ⟨.rdlck, (Option.some.inj hmode).symm, by simp⟩

omit hinv in
theorem checkMode_request {current : Task} {filp : File} {l : Flock}
    {fd fMode : ℕ} {fl req : FileLock}
    (hcopy : copyFlock current filp l fd = some fl)
    (hmode : checkMode fMode fl = some req) : Request current fd req := by
  obtain ⟨howner, hfd, hvalid⟩ := copyFlock_spec hcopy
  obtain ⟨type, rfl, htype⟩ := checkMode_eq_some hmode
  exact ⟨Prod.ext howner hfd, ⟨hvalid.start_nonneg, hvalid.start_le_end, hvalid.end_le⟩, htype⟩

theorem LockSystem.Inv.fcntlSetlk (current : Task) (fd : ℕ) (filp : Option File) (cmd : SetlkCmd)
    (verify : ℤ) (flock : Flock) (signal : Bool) :
    (sys.fcntlSetlk current fd filp cmd verify flock signal).1.Inv := by
  unfold LockSystem.fcntlSetlk
  cases filp with
  | none => exact hinv
  | some filp =>
    simp only
    split
    · exact hinv
    · split
      · exact hinv
      · cases hinode : filp.fInode with
        | none => exact hinv
        | some inode =>
          cases hcopy : copyFlock current filp flock fd with
          | none => exact hinv
          | some fl =>
            simp only
            cases hmode : checkMode filp.fMode fl with
            | none => exact hinv
            | some req =>
              exact hinv.setlkRepeat
                (checkMode_request hcopy hmode) _ _ _

theorem LockSystem.Inv.wakeUp (current : Task) (signal signal' : Bool) :
    (sys.wakeUp current signal signal').1.Inv := by
  unfold LockSystem.wakeUp
  cases hw : sys.waiting current with
  | none => exact hinv
  | some w =>
    have hawake : (sys.setWaiting current none).Inv := hinv.setWaiting (by simp)
    simp only
    split
    · exact hawake
    · exact hawake.setlkRepeat (hinv.waiters current w hw) _ _ _

end

/-! ## The removal on close -/

def closeRequest (task : Task) (fd : ℕ) : FileLock := ⟨some task, fd, .unlck, 0, 0, 0⟩

theorem closeRequest_request (task : Task) (fd : ℕ) : Request task fd (closeRequest task fd) := by
  refine ⟨rfl, ⟨le_rfl, le_rfl, ?_⟩, .inr (.inr rfl)⟩
  simp [closeRequest, offsetMax]

theorem freeRun_post {h0 h : LockHeap} {task : Task} {fd : ℕ}
    {own out post : List Entry}
    (hpost : HeapPost h0 (closeRequest task fd) own out h)
    (hnodup : (own ++ h0.freeList).Nodup)
    (hstop : ∀ x ∈ post, x ∉ own ∧ x ∉ h0.freeList ∧ (h0.table x).key ≠ (some task, fd)) :
    ∃ h', freeRun task fd h (out ++ post) = (h', post) ∧
      HeapPost h0 (closeRequest task fd) own [] h' := by
  induction out generalizing h with
  | nil =>
    refine ⟨h, ?_, hpost⟩
    cases post with
    | nil => rfl
    | cons x post =>
      obtain ⟨hown, hfree, hkey⟩ := hstop x (by simp)
      have hne : ¬ (some task = (h.table x).flOwner ∧ fd = (h.table x).flFd) := by
        rw [hpost.frame x hown hfree]
        rintro ⟨howner, hfd⟩
        exact hkey (Prod.ext howner.symm hfd.symm)
      simp only [nil_append, freeRun]
      rw [if_neg hne]
  | cons a out ih =>
    have hkey := (hpost.entries a (by simp)).key
    have howner : some task = (h.table a).flOwner := (congrArg Prod.fst hkey).symm
    have hfd : fd = (h.table a).flFd := (congrArg Prod.snd hkey).symm
    simp only [cons_append, freeRun]
    rw [if_pos ⟨howner, hfd⟩]
    exact ih (hpost.free (by simp [closeRequest]) hnodup)

section
variable {sys : LockSystem} (hinv : sys.Inv)
include hinv

theorem LockSystem.Inv.removeLocks_split (task : Task) (ino fd : ℕ) :
    ∃ pre own post heap,
      ChainSplit sys.heap (closeRequest task fd) (sys.iFlock ino)
        pre own post ∧
      LockPost sys.heap (closeRequest task fd) pre own post []
        ⟨0, heap, pre ++ post⟩ ∧
      sys.fcntlRemoveLocks task ino fd = sys.setChain ino heap (pre ++ post) := by
  have hreq := closeRequest_request task fd
  obtain ⟨pre, own, post, hsplit, hskip⟩ := exists_chainSplit sys.heap
    (closeRequest task fd) (sys.iFlock ino) (hinv.contiguous ino)
  have hchain := hsplit.chain_eq
  have hnodup := hinv.nodup ino
  have hlocks := hinv.locks ino
  rw [hchain] at hnodup hlocks hsplit
  have hinit := ScanInv.initial hreq hsplit
    (fun x hx => hlocks x (by simp [hx])) hinv.free_owner hinv.sane
  have hheap : HeapPost sys.heap (closeRequest task fd) own own sys.heap := hinit.heapPost
  have hnodupOwn := hsplit.own_nodup hnodup
  have hstop : ∀ x ∈ post, x ∉ own ∧ x ∉ sys.heap.freeList ∧
      (sys.heap.table x).key ≠ (some task, fd) := by
    intro x hx
    have hkey := hsplit.post_key x hx
    refine ⟨fun hown => hkey (hsplit.own_key x hown), ?_, hkey⟩
    intro hfree
    rw [nodup_append] at hnodup
    exact hnodup.2.2 x (by simp [hx]) x hfree rfl
  obtain ⟨heap, hrun, hfinal⟩ := freeRun_post hheap hnodupOwn hstop
  refine ⟨pre, own, post, heap, hchain ▸ hsplit, ⟨by simp, hfinal⟩, ?_⟩
  have hspan : (sys.iFlock ino).span (fun a =>
      decide (¬ (some task = (sys.heap.table a).flOwner ∧
        fd = (sys.heap.table a).flFd))) = (pre, own ++ post) := hskip
  unfold LockSystem.fcntlRemoveLocks
  rw [hspan]
  simp only
  rw [hrun]

theorem LockSystem.Inv.fcntlRemoveLocks (task : Task) (ino fd : ℕ) :
    (sys.fcntlRemoveLocks task ino fd).Inv := by
  obtain ⟨pre, own, post, heap, hsplit, hpost, heq⟩ := hinv.removeLocks_split task ino fd
  rw [heq]
  refine hinv.exchange (closeRequest_request task fd).owner hsplit hpost ?_
  intro hunlck
  exact absurd rfl hunlck

theorem LockSystem.Inv.fcntlRemoveLocks_spec (task : Task) (ino fd : ℕ) :
    (sys.fcntlRemoveLocks task ino fd).iFlock = Function.update sys.iFlock ino
      ((sys.iFlock ino).filter fun x =>
        (sys.heap.table x).key ≠ (some task, fd)) ∧
    ∀ j, ∀ x ∈ (sys.fcntlRemoveLocks task ino fd).iFlock j,
      (sys.fcntlRemoveLocks task ino fd).heap.table x = sys.heap.table x := by
  obtain ⟨pre, own, post, heap, hsplit, hpost, heq⟩ := hinv.removeLocks_split task ino fd
  have hkeep : ∀ l : List Entry,
      (∀ x ∈ l, (sys.heap.table x).key ≠ (some task, fd)) →
      l.filter (fun x => (sys.heap.table x).key ≠ (some task, fd)) = l := by
    intro l hl
    apply filter_eq_self.mpr
    simpa using hl
  have hdrop : own.filter
      (fun x => (sys.heap.table x).key ≠ (some task, fd)) = [] := by
    apply filter_eq_nil_iff.mpr
    intro x hx
    have hkey : (sys.heap.table x).key = (some task, fd) := hsplit.own_key x hx
    simp [hkey]
  have hfilter : (sys.iFlock ino).filter
      (fun x => (sys.heap.table x).key ≠ (some task, fd)) = pre ++ post := by
    rw [hsplit.chain_eq, filter_append, filter_append,
      hkeep pre hsplit.pre_key, hkeep post hsplit.post_key, hdrop]
    rfl
  rw [hfilter, heq]
  refine ⟨rfl, ?_⟩
  intro j x hx
  by_cases hj : j = ino
  · subst hj
    have hx' : x ∈ pre ++ post := by
      simpa [LockSystem.setChain] using hx
    rcases hpost.mem_chain hsplit hx' with hout | ⟨hxc, hxown, _⟩
    · simp at hout
    · exact hpost.frame (hinv.nodup j) hxc hxown
  · have hx' : x ∈ sys.iFlock j := by
      simpa [LockSystem.setChain, hj] using hx
    apply hpost.frame (hinv.nodup j) hx'
    intro hown
    exact hinv.disjoint j ino hj x hx' (hsplit.mem_own hown)

theorem LockSystem.Inv.step (event : LockEvent) : (sys.step event).Inv := by
  cases event with
  | setlk current fd filp cmd verify flock signal =>
    exact hinv.fcntlSetlk current fd filp cmd verify flock signal
  | wakeUp current signal signal' => exact hinv.wakeUp current signal signal'
  | removeLocks task ino fd => exact hinv.fcntlRemoveLocks task ino fd

theorem LockSystem.Inv.run (events : List LockEvent) : (sys.run events).Inv :=
  List.foldlRecOn events LockSystem.step hinv
    fun _ hinv event _ => hinv.step event

end

/-- The locks of different holders exclude each other in every state that the
system calls can produce, and closing a descriptor removes its locks only. -/
theorem run_excludes_and_removes (events : List LockEvent) :
    (∀ ino, ∀ x ∈ (LockSystem.init.run events).iFlock ino,
      ∀ y ∈ (LockSystem.init.run events).iFlock ino,
        Excludes ((LockSystem.init.run events).heap.table x)
          ((LockSystem.init.run events).heap.table y)) ∧
    (∀ ino, Contiguous (((LockSystem.init.run events).iFlock ino).map
      fun x => ((LockSystem.init.run events).heap.table x).key)) ∧
    (∀ task ino fd,
      (∀ x ∈ ((LockSystem.init.run events).fcntlRemoveLocks
          task ino fd).iFlock ino,
        (((LockSystem.init.run events).fcntlRemoveLocks
          task ino fd).heap.table x).key ≠ (some task, fd)) ∧
      ((LockSystem.init.run events).fcntlRemoveLocks task ino fd).iFlock =
        Function.update (LockSystem.init.run events).iFlock ino
          (((LockSystem.init.run events).iFlock ino).filter fun x =>
            ((LockSystem.init.run events).heap.table x).key ≠ (some task, fd)) ∧
      (∀ j, ∀ x ∈ ((LockSystem.init.run events).fcntlRemoveLocks
          task ino fd).iFlock j,
        ((LockSystem.init.run events).fcntlRemoveLocks
          task ino fd).heap.table x = (LockSystem.init.run events).heap.table x)) := by
  have hinv := LockSystem.Inv.init.run events
  refine ⟨hinv.exclusion, hinv.contiguous, ?_⟩
  intro task ino fd
  obtain ⟨hchain, hcells⟩ := hinv.fcntlRemoveLocks_spec task ino fd
  refine ⟨?_, hchain, hcells⟩
  intro x hx
  rw [hcells ino x hx]
  rw [hchain, Function.update_self] at hx
  simpa using (mem_filter.mp hx).2

end LinuxKernel.RecordLock
