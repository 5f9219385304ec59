import LinuxKernel.RecordLockExclusion

/-!
# F_GETLK beside F_SETLK

`fcntl_getlk` looks for the lock that would refuse a request.  It passes the
type of the request to `conflict` as the caller gave it, where `fcntl_setlk`
first turns the BSD types into the others.
-/

namespace LinuxKernel.RecordLock

def LockType.toShort : LockType → ℤ
  | .rdlck => 0
  | .wrlck => 1
  | .unlck => 2
  | .exlck => 4
  | .shlck => 8

/-- What `fcntl_getlk` writes back: the flock, and `l_pid` where it is set. -/
structure FlockReply where
  flock : Flock
  lPid : Option Task

def FlockReply.ofEntry (fl : FileLock) : FlockReply where
  flock := {
    lType := fl.flType.toShort
    lWhence := fl.flWhence
    lStart := Int32.ofInt fl.flStart
    lLen :=
      if fl.flEnd = offsetMax then 0
      else Int32.ofInt (toOffT (toOffT (fl.flEnd - fl.flStart) + 1)) }
  lPid := fl.flOwner

def LockSystem.fcntlGetlk (sys : LockSystem) (current : Task) (fd : ℕ)
    (filp : Option File) (verify : ℤ) (flock : Flock) :
    Except ℤ FlockReply :=
  match filp with
  | none => .error (-ebadf)
  | some filp =>
    if nrOpen ≤ fd then .error (-ebadf)
    else if verify ≠ 0 then .error verify
    else if flock.lType = LockType.unlck.toShort then .error (-einval)
    else
      match filp.fInode, copyFlock current filp flock fd with
      | some inode, some fileLock =>
        match (sys.iFlock inode.ino).find? fun a =>
            conflict fileLock (sys.heap.table a) with
        | some a => .ok (.ofEntry (sys.heap.table a))
        | none =>
          .ok ⟨{ flock with lType := LockType.unlck.toShort }, none⟩
      | _, _ => .error (-einval)

def FlockReply.Unlocked (reply : FlockReply) : Prop := reply.flock.lType = LockType.unlck.toShort

def LockType.posix : LockType → LockType
  | .shlck => .rdlck
  | .exlck => .wrlck
  | type => type

/-- The entry is of another owner or descriptor, has a byte in common with the
request, and one of the two is a write lock. -/
def Opposes (req fl : FileLock) : Prop :=
  req.key ≠ fl.key ∧ overlap req fl = true ∧ (req.flType.posix = .wrlck ∨ fl.flType ≠ .rdlck)

structure GetlkAgrees (sys : LockSystem) (current : Task) (fd : ℕ) (filp : File)
    (inode : Inode) (flock : Flock) (req : FileLock) (signal : Bool) : Prop where
  unlocked : ∀ reply, sys.fcntlGetlk current fd filp 0 flock = .ok reply →
    (reply.Unlocked ↔ (sys.fcntlSetlk current fd filp .setlk 0 flock signal).2 ≠ some (-eagain))
  locked : ∀ reply, sys.fcntlGetlk current fd filp 0 flock = .ok reply →
    ¬ reply.Unlocked → ∃ a ∈ sys.iFlock inode.ino,
      reply = .ofEntry (sys.heap.table a) ∧ Opposes req (sys.heap.table a)

section

variable {sys : LockSystem} {current : Task} {fd : ℕ} {filp : File}
  {inode : Inode} {flock : Flock} {req fl : FileLock} {signal : Bool}

def FileLock.posix (fl : FileLock) : FileLock := { fl with flType := fl.flType.posix }

theorem checkMode_readWrite (hmode : filp.fMode &&& 3 = 3) :
    checkMode filp.fMode req = some req.posix := by
  have hread : filp.fMode &&& 1 = 1 := by
    have hbits : filp.fMode &&& (3 &&& 1) = 3 &&& 1 := by
      rw [← Nat.and_assoc, hmode]
    exact hbits
  have hwrite : filp.fMode &&& 2 = 2 := by
    have hbits : filp.fMode &&& (3 &&& 2) = 3 &&& 2 := by
      rw [← Nat.and_assoc, hmode]
    exact hbits
  obtain ⟨owner, fd, type, whence, start, flEnd⟩ := req
  cases type <;> unfold checkMode <;> dsimp only
  case rdlck =>
    rw [hread]
    rfl
  case wrlck =>
    rw [hwrite]
    rfl
  case unlck => rfl
  case exlck =>
    rw [hmode]
    rfl
  case shlck =>
    rw [hmode]
    rfl

theorem conflict_posix_iff (htype : req.flType ≠ .unlck) :
    conflict req.posix fl = true ↔ Opposes req fl := by
  unfold conflict Opposes
  have hkey : req.posix.flOwner = fl.flOwner ∧ req.posix.flFd = fl.flFd ↔ req.key = fl.key := by
    rw [Prod.mk.injEq]
    exact Iff.rfl
  rw [if_congr hkey rfl rfl]
  change (if req.key = fl.key then false else if ¬ overlap req fl then false
    else _) = true ↔ _
  by_cases hsame : req.key = fl.key
  · rw [if_pos hsame]
    exact ⟨fun h => absurd h (by decide), fun h => absurd hsame h.1⟩
  rw [if_neg hsame]
  by_cases hover : overlap req fl = true
  · unfold FileLock.posix
    cases htypes : req.flType
    case unlck => exact absurd htypes htype
    all_goals simp [LockType.posix, hsame, hover]
  · rw [if_pos hover]
    exact ⟨fun h => absurd h (by decide), fun h => absurd h.2.1 hover⟩

theorem posix_eq_self (htype : req.flType = .rdlck ∨ req.flType = .wrlck) : req.posix = req := by
  obtain ⟨owner, fd, type, whence, start, flEnd⟩ := req
  rcases htype with htype | htype <;> cases htype <;> rfl

theorem conflict_bsd (htype : req.flType = .shlck ∨ req.flType = .exlck) :
    conflict req fl = false := by
  unfold conflict
  split
  · rfl
  · split
    · rfl
    · rcases htype with htype | htype <;> rw [htype]

theorem lockIt_ret (current : Task) (h : LockHeap) (chain : List Entry)
    (caller : FileLock) (fd : ℕ) :
    (lockIt current h chain caller fd).ret = 0 ∨
      (lockIt current h chain caller fd).ret = -einval ∨
      (lockIt current h chain caller fd).ret = -enolck := by
  have htrim : ∀ s rest, (Scan.trim current fd s rest).ret = 0 ∨
      (Scan.trim current fd s rest).ret = -enolck := by
    intro s rest
    unfold Scan.trim
    split
    · exact .inl rfl
    · split
      · split
        · split
          · exact .inr rfl
          · split <;> exact .inr rfl
        · exact .inl rfl
      · exact .inl rfl
  unfold lockIt
  dsimp only
  unfold Scan.finish
  split
  · rcases htrim _ _ with h | h
    · exact .inl h
    · exact .inr (.inr h)
  · split
    · exact .inr (.inl rfl)
    · split
      · exact .inr (.inr rfl)
      · rcases htrim _ _ with h | h
        · exact .inl h
        · exact .inr (.inr h)

theorem copyFlock_type (hcopy : copyFlock current filp flock fd = some req) :
    LockType.ofShort flock.lType = some req.flType := by
  unfold copyFlock at hcopy
  split at hcopy
  · cases hcopy
  · split at hcopy
    · cases hcopy
    · split at hcopy
      · cases hcopy
      · next type htype =>
        dsimp only at hcopy
        split at hcopy
        · cases hcopy
        · split at hcopy
          · cases hcopy
          · rw [htype, ← Option.some.inj hcopy]

theorem fcntlGetlk_eq (sys : LockSystem) (hfd : fd < nrOpen)
    (hinode : filp.fInode = some inode)
    (hcopy : copyFlock current filp flock fd = some req)
    (htype : req.flType ≠ .unlck) :
    sys.fcntlGetlk current fd filp 0 flock =
      match (sys.iFlock inode.ino).find? fun a =>
          conflict req (sys.heap.table a) with
      | some a => .ok (.ofEntry (sys.heap.table a))
      | none => .ok ⟨{ flock with lType := LockType.unlck.toShort }, none⟩ := by
  have hlock : flock.lType ≠ LockType.unlck.toShort := by
    intro hunlck
    have hshort := copyFlock_type hcopy
    rw [hunlck] at hshort
    exact htype (Option.some.inj hshort).symm
  unfold LockSystem.fcntlGetlk
  dsimp only
  rw [if_neg (not_le.mpr hfd), if_neg (not_not.mpr rfl), if_neg hlock, hinode, hcopy]

theorem fcntlSetlk_eagain_iff (sys : LockSystem) (signal : Bool) (hfd : fd < nrOpen)
    (hinode : filp.fInode = some inode) (hmode : filp.fMode &&& 3 = 3)
    (hcopy : copyFlock current filp flock fd = some req)
    (htype : req.flType ≠ .unlck) :
    (sys.fcntlSetlk current fd filp .setlk 0 flock signal).2 = some (-eagain) ↔
      ∃ a ∈ sys.iFlock inode.ino, Opposes req (sys.heap.table a) := by
  have hposix : req.posix.flType ≠ .unlck := by
    change req.flType.posix ≠ .unlck
    cases htypes : req.flType
    case unlck => exact absurd htypes htype
    all_goals decide
  have hany : (sys.iFlock inode.ino).any
        (fun a => conflict req.posix (sys.heap.table a)) = true ↔
      ∃ a ∈ sys.iFlock inode.ino, Opposes req (sys.heap.table a) := by
    rw [List.any_eq_true]
    constructor
    · rintro ⟨a, ha, hconflict⟩
      exact ⟨a, ha, (conflict_posix_iff htype).mp hconflict⟩
    · rintro ⟨a, ha, hopposes⟩
      exact ⟨a, ha, (conflict_posix_iff htype).mpr hopposes⟩
  unfold LockSystem.fcntlSetlk
  dsimp only
  rw [if_neg (not_le.mpr hfd), if_neg (not_not.mpr rfl), hinode, hcopy]
  dsimp only
  rw [checkMode_readWrite hmode]
  dsimp only
  unfold LockSystem.setlkRepeat
  by_cases hscan : (sys.iFlock inode.ino).any
      (fun a => conflict req.posix (sys.heap.table a)) = true
  · rw [if_pos ⟨hposix, hscan⟩]
    exact iff_of_true rfl (hany.mp hscan)
  · rw [if_neg fun h => hscan h.2]
    refine iff_of_false (fun heq => ?_) fun hex => hscan (hany.mpr hex)
    have hret := Option.some.inj heq
    rcases lockIt_ret current sys.heap (sys.iFlock inode.ino) req.posix fd with
      h | h | h
    all_goals
      rw [h] at hret
      exact absurd hret (by decide)

/-- `fcntl_getlk` agrees with `fcntl_setlk` for the types of POSIX.  For the
BSD types it does so only where nothing is in the way. -/
theorem getlkAgrees_iff (hfd : fd < nrOpen) (hinode : filp.fInode = some inode)
    (hmode : filp.fMode &&& 3 = 3)
    (hcopy : copyFlock current filp flock fd = some req)
    (htype : req.flType ≠ .unlck)
    (hlocks : ∀ a ∈ sys.iFlock inode.ino,
      (sys.heap.table a).flType = .rdlck ∨ (sys.heap.table a).flType = .wrlck) :
    GetlkAgrees sys current fd filp inode flock req signal ↔
      (req.flType = .rdlck ∨ req.flType = .wrlck) ∨
        ∀ a ∈ sys.iFlock inode.ino, ¬ Opposes req (sys.heap.table a) := by
  have hget := fcntlGetlk_eq sys hfd hinode hcopy htype
  have hset := fcntlSetlk_eagain_iff sys signal hfd hinode
    hmode hcopy htype
  have hentry : ∀ a ∈ sys.iFlock inode.ino, ¬ (FlockReply.ofEntry (sys.heap.table a)).Unlocked := by
    intro a ha hunlocked
    change (sys.heap.table a).flType.toShort = 2 at hunlocked
    rcases hlocks a ha with h | h
    all_goals
      rw [h] at hunlocked
      exact absurd hunlocked (by decide)
  by_cases hposix : req.flType = .rdlck ∨ req.flType = .wrlck
  · refine iff_of_true ?_ (.inl hposix)
    have hconflict : ∀ fl, conflict req fl = true ↔ Opposes req fl := by
      intro fl
      rw [← conflict_posix_iff htype, posix_eq_self hposix]
    cases hfind : (sys.iFlock inode.ino).find? fun a =>
        conflict req (sys.heap.table a) with
    | none =>
      rw [hfind] at hget
      have hnone : ¬ ∃ a ∈ sys.iFlock inode.ino, Opposes req (sys.heap.table a) := by
        rintro ⟨a, ha, hopposes⟩
        have hfalse := List.find?_eq_none.mp hfind a ha
        exact hfalse ((hconflict _).mpr hopposes)
      refine ⟨?_, ?_⟩
      · intro reply hreply
        rw [hget] at hreply
        cases hreply
        exact iff_of_true rfl fun heq => hnone (hset.mp heq)
      · intro reply hreply hlocked
        rw [hget] at hreply
        cases hreply
        exact absurd rfl hlocked
    | some a =>
      rw [hfind] at hget
      have ha := List.mem_of_find?_eq_some hfind
      have hopposes := (hconflict _).mp
        (List.find?_some (p := fun a => conflict req (sys.heap.table a)) hfind)
      refine ⟨?_, ?_⟩
      · intro reply hreply
        rw [hget] at hreply
        cases hreply
        exact iff_of_false (hentry a ha)
          (not_not.mpr (hset.mpr ⟨a, ha, hopposes⟩))
      · intro reply hreply _
        rw [hget] at hreply
        cases hreply
        exact ⟨a, ha, rfl, hopposes⟩
  · -- the scan of `fcntl_getlk` finds nothing
    have hbsd : req.flType = .shlck ∨ req.flType = .exlck := by
      cases htypes : req.flType
      case unlck => exact absurd htypes htype
      case rdlck => exact absurd (.inl htypes) hposix
      case wrlck => exact absurd (.inr htypes) hposix
      case exlck => exact .inr rfl
      case shlck => exact .inl rfl
    have hfind : (sys.iFlock inode.ino).find? (fun a =>
        conflict req (sys.heap.table a)) = none := by
      rw [List.find?_eq_none]
      intro a _
      rw [conflict_bsd hbsd]
      decide
    rw [hfind] at hget
    constructor
    · intro hagrees
      refine .inr fun a ha hopposes => ?_
      exact (hagrees.unlocked _ hget).mp rfl (hset.mpr ⟨a, ha, hopposes⟩)
    · rintro (hposix' | hnone)
      · exact absurd hposix' hposix
      · refine ⟨?_, ?_⟩
        · intro reply hreply
          rw [hget] at hreply
          cases hreply
          refine iff_of_true rfl fun heq => ?_
          obtain ⟨a, ha, hopposes⟩ := hset.mp heq
          exact hnone a ha hopposes
        · intro reply hreply hlocked
          rw [hget] at hreply
          cases hreply
          exact absurd rfl hlocked

end

def sharedFile : File := ⟨3, 0, some ⟨7, true, 100⟩⟩

def oneWriter : LockSystem :=
  LockSystem.init.run [.setlk 1 3 sharedFile .setlk 0 ⟨1, 0, 0, 10⟩ false]

theorem oneWriter_locks : ∀ a ∈ oneWriter.iFlock 7,
    (oneWriter.heap.table a).flType = .rdlck ∨ (oneWriter.heap.table a).flType = .wrlck := by
  decide +kernel

/-- A read lock on byte 5 is refused, and `fcntl_getlk` says so. -/
theorem getlkAgrees_iff_oneWriter :
    GetlkAgrees oneWriter 2 4 sharedFile ⟨7, true, 100⟩ ⟨0, 0, 5, 1⟩
        ⟨some 2, 4, .rdlck, 0, 5, 5⟩ false ↔
      (LockType.rdlck = .rdlck ∨ LockType.rdlck = .wrlck) ∨
        ∀ a ∈ oneWriter.iFlock 7, ¬ Opposes ⟨some 2, 4, .rdlck, 0, 5, 5⟩ (oneWriter.heap.table a) :=
  getlkAgrees_iff (by decide) rfl (by decide) (by decide +kernel) (by decide)
    oneWriter_locks

/-- An exclusive lock on byte 5 is refused, but `fcntl_getlk` reports nothing. -/
theorem oneWriter_exlck_disagrees :
    copyFlock 2 sharedFile ⟨4, 0, 5, 1⟩ 4 = some ⟨some 2, 4, .exlck, 0, 5, 5⟩ ∧
      ¬ GetlkAgrees oneWriter 2 4 sharedFile ⟨7, true, 100⟩ ⟨4, 0, 5, 1⟩
        ⟨some 2, 4, .exlck, 0, 5, 5⟩ false := by
  have hset : (oneWriter.fcntlSetlk 2 4 sharedFile .setlk 0 ⟨4, 0, 5, 1⟩
      false).2 = some (-eagain) := by
    decide +kernel
  have hget : oneWriter.fcntlGetlk 2 4 sharedFile 0 ⟨4, 0, 5, 1⟩ = .ok ⟨⟨2, 0, 5, 1⟩, none⟩ := by
    rfl
  refine ⟨by decide +kernel, fun hagrees => ?_⟩
  exact (hagrees.unlocked _ hget).mp rfl hset

end LinuxKernel.RecordLock
