import LinuxKernel.RecordLockExclusion

/-!
# Failing requests

`lock_it` changes the chain while it walks over it, and may run out of table
entries at its end.  A failure leaves a trace only when an old lock of the
caller was merged with the request or replaced by it before the walk met
another one that the request splits.  In a chain sorted by start addresses
this cannot be, but `lock_it` does not keep the chains sorted.
-/

namespace LinuxKernel.RecordLock
open Function List

def Passed (c fl : FileLock) : Prop :=
  (c.flType = fl.flType ∧ fl.flEnd < toOffT (c.flStart - 1)) ∨
    (c.flType ≠ fl.flType ∧ (fl.flEnd < c.flStart ∨ (fl.flStart < c.flStart ∧ fl.flEnd ≤ c.flEnd)))

instance (c fl : FileLock) : Decidable (Passed c fl) := inferInstanceAs (Decidable (_ ∨ _))

def Taken (c fl : FileLock) : Prop :=
  (c.flType = fl.flType ∧ toOffT (c.flStart - 1) ≤ fl.flEnd ∧ fl.flStart ≤ toOffT (c.flEnd + 1)) ∨
    (c.flType ≠ fl.flType ∧ c.flStart ≤ fl.flEnd ∧
      c.flStart ≤ fl.flStart ∧ fl.flEnd ≤ c.flEnd ∧ fl.flStart ≤ c.flEnd)

instance (c fl : FileLock) : Decidable (Taken c fl) := inferInstanceAs (Decidable (_ ∨ _))

def Straddles (fl c : FileLock) : Prop :=
  c.flType ≠ fl.flType ∧ fl.flStart < c.flStart ∧ c.flEnd < fl.flEnd

instance (fl c : FileLock) : Decidable (Straddles fl c) := inferInstanceAs (Decidable (_ ∧ _))

def FileLock.absorb (fl c : FileLock) : FileLock :=
  if c.flType = fl.flType then fl.hull c
  else { fl with flStart := c.flStart, flEnd := c.flEnd, flType := c.flType }

/-- The table is full, and the first lock that the walk does not pass is
changed, and the next such lock is to be split. -/
def HalfDone (h : LockHeap) (own : List Entry) (req : FileLock) : Prop :=
  h.freeList = [] ∧ req.flType ≠ .unlck ∧ ∃ x rest y rest',
    own.dropWhile (fun a => Passed req (h.table a)) = x :: rest ∧
    Taken req (h.table x) ∧ (h.table x).absorb req ≠ h.table x ∧
    rest.dropWhile (fun a => Passed ((h.table x).absorb req) (h.table a)) = y :: rest' ∧
    Straddles (h.table y) ((h.table x).absorb req)

section

variable {h : LockHeap} {req : FileLock} {pre own done rest post : List Entry}
  {s s' : Scan} {a x : Entry}

/-! ## The walk -/

structure Passing (h : LockHeap) (req : FileLock) (pre done : List Entry)
    (s : Scan) : Prop where
  heap : s.heap = h
  caller : s.caller = none
  fileLock : s.fileLock = req
  right : s.right = none
  before : s.before = pre ++ done
  added : s.added = true → req.flType = .unlck
  left : ∀ l, s.left = some l → l ∈ done

structure Absorbed (h : LockHeap) (req : FileLock) (pre done : List Entry)
    (x : Entry) (s : Scan) : Prop where
  table : s.heap.table = update h.table x ((h.table x).absorb req)
  freeList : s.heap.freeList = h.freeList
  caller : s.caller = some x
  right : s.right = none
  before : s.before = pre ++ done
  added : s.added = true
  left : ∀ l, s.left = some l → l ∈ done

theorem Passing.callerLock (hp : Passing h req pre done s) : s.callerLock = req := by
  unfold Scan.callerLock
  rw [hp.caller]
  exact hp.fileLock

theorem Absorbed.callerLock (hp : Absorbed h req pre done x s) :
    s.callerLock = (h.table x).absorb req := by
  unfold Scan.callerLock
  rw [hp.caller]
  dsimp only
  rw [hp.table, update_self]

theorem Absorbed.table_ne (hp : Absorbed h req pre done x s) (ha : a ≠ x) :
    s.heap.table a = h.table a := by
  rw [hp.table, update_of_ne ha]

structure Freed (s : Scan) : Prop where
  freeList : s.heap.freeList ≠ []
  added : s.added = true

theorem Scan.merge_frame (s : Scan) (a : Entry) :
    ((s.mergeStart a).mergeEnd a).heap.freeList = s.heap.freeList ∧
      ((s.mergeStart a).mergeEnd a).added = s.added := by
  obtain ⟨-, heq⟩ | ⟨-, heq⟩ := (s.mergeStart a).mergeEnd_cases a <;>
    rw [heq] <;>
    obtain ⟨-, heq'⟩ | ⟨-, heq'⟩ := s.mergeStart_cases a <;>
      simp [heq']

theorem Freed.turn (hf : Freed s) (hturn : s.Turn a s') : Freed s' := by
  obtain ⟨hlist, hadded⟩ := s.merge_frame a
  cases hturn with
  | below hend htouch => exact ⟨hf.freeList, hf.added⟩
  | mergeFree htype hlow hhigh hadd =>
    exact ⟨cons_ne_nil _ _, hadded.trans hf.added⟩
  | mergeAdopt htype hlow hhigh hadd =>
    refine ⟨?_, rfl⟩
    change ((s.mergeStart a).mergeEnd a).heap.freeList ≠ []
    rw [hlist]
    exact hf.freeList
  | left htype hstart hlow hend =>
    refine ⟨hf.freeList, ?_⟩
    simp [Scan.mark, Scan.nextLock, hf.added]
  | free htype hstart hlow hend hadd =>
    refine ⟨cons_ne_nil _ _, ?_⟩
    simp [Scan.mark, Scan.freeHead, hf.added]
  | replace htype hunlck hstart hlow hend hadd =>
    exact ⟨hf.freeList, rfl⟩

theorem Freed.stop (hf : Freed s) (hstop : s.Stop a s') : Freed s' := by
  cases hstop with
  | sameType htype hlow habove => exact hf
  | above htype habove => exact hf
  | right htype hlow hstart hend =>
    refine ⟨hf.freeList, ?_⟩
    simp [Scan.mark, hf.added]

theorem Scan.run_passed (hkey : s.callerLock.key = (s.heap.table a).key)
    (hpass : Passed s.callerLock (s.heap.table a)) (tail : List Entry) :
    s.run (a :: tail) = (s.nextLock a).run tail ∨
      (s.run (a :: tail) = ((s.mark a).nextLock a).run tail ∧
        (s.heap.table a).flStart < s.callerLock.flStart ∧
        s.callerLock.flStart ≤ (s.heap.table a).flEnd) := by
  have hsame : ¬ ¬ (s.callerLock.flOwner = (s.heap.table a).flOwner ∧
      s.callerLock.flFd = (s.heap.table a).flFd) :=
    not_not.mpr ⟨congrArg Prod.fst hkey, congrArg Prod.snd hkey⟩
  simp only [Scan.run, if_neg hsame]
  rcases hpass with ⟨htype, hend⟩ | ⟨htype, hend⟩
  · rw [if_pos htype, if_pos hend]
    exact .inl rfl
  · rw [if_neg htype]
    by_cases hbelow : (s.heap.table a).flEnd < s.callerLock.flStart
    · rw [if_pos hbelow]
      exact .inl rfl
    · obtain ⟨hstart, hend⟩ := hend.resolve_left hbelow
      rw [if_neg hbelow, if_neg (by omega), if_neg (by omega), if_neg (by omega)]
      exact .inr ⟨rfl, hstart, not_lt.mp hbelow⟩

structure Walked (s s' : Scan) : Prop where
  heap : s'.heap = s.heap
  caller : s'.caller = s.caller
  fileLock : s'.fileLock = s.fileLock
  right : s'.right = s.right
  added : s.added = true → s'.added = true
  unlck : s'.added = true → s.added = true ∨ s.callerLock.flType = .unlck

theorem Walked.callerLock (hw : Walked s s') : s'.callerLock = s.callerLock := by
  unfold Scan.callerLock
  rw [hw.caller, hw.heap, hw.fileLock]

theorem Walked.trans {s'' : Scan} (hw : Walked s s') (hw' : Walked s' s'') : Walked s s'' := by
  refine ⟨hw'.heap.trans hw.heap, hw'.caller.trans hw.caller, hw'.fileLock.trans hw.fileLock,
    hw'.right.trans hw.right, fun hadded => hw'.added (hw.added hadded), fun hadded => ?_⟩
  rw [← hw.callerLock]
  rcases hw'.unlck hadded with h1 | h1
  · exact hw.callerLock ▸ hw.unlck h1
  · exact .inr h1

theorem ScanInv.pass (hinv : ScanInv h req pre own done s (a :: rest))
    (hnodup : (own ++ h.freeList).Nodup) (hright : s.right = none)
    (hpass : Passed s.callerLock (s.heap.table a)) (tail : List Entry) :
    ∃ s', Walked s s' ∧ ScanInv h req pre own (done ++ [a]) s' rest ∧
      s.run (a :: tail) = s'.run tail := by
  rcases Scan.run_passed hinv.same_key hpass tail with hrun | ⟨hrun, hstart, hlow⟩
  · exact ⟨s.nextLock a, ⟨rfl, rfl, rfl, rfl, id, .inl⟩, hinv.nextLock hright, hrun⟩
  · refine ⟨(s.mark a).nextLock a, ⟨rfl, rfl, rfl, rfl, ?_, ?_⟩,
      hinv.nextLeft hnodup hright hstart hlow, hrun⟩
    · intro hadded
      change (s.added || _) = true
      rw [hadded]
      rfl
    · intro hadded
      change (s.added || decide (s.callerLock.flType = .unlck)) = true at hadded
      rwa [Bool.or_eq_true, decide_eq_true_eq] at hadded

theorem ScanInv.walk (hinv : ScanInv h req pre own done s rest)
    (hnodup : (own ++ h.freeList).Nodup) (hright : s.right = none) {c : FileLock}
    (hc : s.callerLock = c) (hcells : ∀ a ∈ rest, s.heap.table a = h.table a) (post : List Entry) :
    ∃ s' done', Walked s s' ∧
      ScanInv h req pre own done' s' (rest.dropWhile fun a => Passed c (h.table a)) ∧
      done' ++ (rest.dropWhile fun a => Passed c (h.table a)) = done ++ rest ∧
      s.run (rest ++ post) = s'.run ((rest.dropWhile fun a => Passed c (h.table a)) ++ post) := by
  induction rest generalizing s done with
  | nil => exact ⟨s, done, ⟨rfl, rfl, rfl, rfl, id, .inl⟩, hinv, rfl, rfl⟩
  | cons a rest ih =>
    by_cases hpass : Passed c (h.table a)
    · rw [← hc, ← hcells a mem_cons_self] at hpass
      obtain ⟨s1, h1, hinv1, hrun1⟩ := hinv.pass hnodup hright hpass (rest ++ post)
      rw [hc, hcells a mem_cons_self] at hpass
      obtain ⟨s', done', h', hinv', hdone, hrun⟩ := ih hinv1 (h1.right.trans hright)
        (h1.callerLock.trans hc) (fun b hb => by rw [h1.heap, hcells b (mem_cons_of_mem a hb)])
      rw [dropWhile_cons_of_pos (p := fun b => decide (Passed c (h.table b)))
        (decide_eq_true hpass)]
      refine ⟨s', done', h1.trans h', hinv', ?_, hrun1.trans hrun⟩
      rw [hdone, append_assoc]
      rfl
    · rw [dropWhile_cons_of_neg (by simpa using hpass)]
      exact ⟨s, done, ⟨rfl, rfl, rfl, rfl, id, .inl⟩, hinv, rfl, rfl⟩

theorem Passing.walked (hp : Passing h req pre done s) (hw : Walked s s') {done' : List Entry}
    (hinv : ScanInv h req pre own done' s' rest) : Passing h req pre done' s' where
  heap := hw.heap.trans hp.heap
  caller := hw.caller.trans hp.caller
  fileLock := hw.fileLock.trans hp.fileLock
  right := hw.right.trans hp.right
  before := hinv.before_eq
  added := fun hadded => (hw.unlck hadded).elim hp.added fun hunlck => hp.callerLock ▸ hunlck
  left := fun _ hl => hinv.left_done (hw.right.trans hp.right) hl

theorem Absorbed.walked (hp : Absorbed h req pre done x s) (hw : Walked s s') {done' : List Entry}
    (hinv : ScanInv h req pre own done' s' rest) : Absorbed h req pre done' x s' where
  table := by rw [hw.heap, hp.table]
  freeList := by rw [hw.heap, hp.freeList]
  caller := hw.caller.trans hp.caller
  right := hw.right.trans hp.right
  before := hinv.before_eq
  added := hw.added hp.added
  left := fun _ hl => hinv.left_done (hw.right.trans hp.right) hl

theorem Freed.run (hf : Freed s) (hinv : ScanInv h req pre own done s rest)
    (hnodup : (own ++ h.freeList).Nodup) (hright : s.right = none)
    (hreq : req.flOwner ≠ none)
    (htypes : req.flType = .rdlck ∨ req.flType = .wrlck ∨ req.flType = .unlck)
    (hstop : ∀ x, post.head? = some x → x ∉ own ∧ (h.table x).key ≠ req.key) :
    Freed (s.run (rest ++ post)).1 := by
  induction rest generalizing s done with
  | nil =>
    rw [nil_append, hinv.run_others hstop]
    exact hf
  | cons a rest ih =>
    rw [cons_append]
    rcases Scan.run_cons_cases hinv.same_key hinv.caller_valid
      (rest ++ post) with ⟨s', hturn, hrun⟩ | ⟨s', hend, hrun⟩
    · rw [hrun]
      obtain ⟨hright', hnext | hnext⟩ := hinv.turn hnodup hright hreq htypes hturn
      · exact ih (hf.turn hturn) hnext hright'
      · exact ih (hf.turn hturn) hnext hright'
    · rw [hrun]
      exact hf.stop hend

structure Untouched (h : LockHeap) (req : FileLock) (chain : List Entry)
    (r : Scan × List Entry) : Prop where
  heap : r.1.heap = h
  caller : r.1.caller = none
  fileLock : r.1.fileLock = req
  added : r.1.added = true → req.flType = .unlck
  chain_eq : r.1.before ++ r.2 = chain

structure Changed (h : LockHeap) (req : FileLock) (chain : List Entry)
    (x : Entry) (r : Scan × List Entry) : Prop where
  table : r.1.heap.table = update h.table x ((h.table x).absorb req)
  freeList : r.1.heap.freeList = h.freeList
  added : r.1.added = true
  chain_eq : r.1.before ++ r.2 = chain

theorem Passing.untouched (rest : List Entry) (hp : Passing h req pre done s)
    (hdone : done ++ rest = own) :
    Untouched h req (pre ++ (own ++ post)) (s, rest ++ post) := by
  refine ⟨hp.heap, hp.caller, hp.fileLock, hp.added, ?_⟩
  rw [hp.before, ← hdone]
  simp only [append_assoc]

theorem Absorbed.changed (rest : List Entry) (hp : Absorbed h req pre done x s)
    (hdone : done ++ rest = own) :
    Changed h req (pre ++ (own ++ post)) x (s, rest ++ post) := by
  refine ⟨hp.table, hp.freeList, hp.added, ?_⟩
  rw [hp.before, ← hdone]
  simp only [append_assoc]

theorem Passing.absorb (hp : Passing h req pre done s)
    (hinv : ScanInv h req pre own done s (a :: rest))
    (hnodup : (own ++ h.freeList).Nodup) (hreq : req.flOwner ≠ none)
    (htypes : req.flType = .rdlck ∨ req.flType = .wrlck ∨ req.flType = .unlck)
    (hpass : ¬ Passed req (h.table a)) (hturn : s.Turn a s') :
    (req.flType = .unlck ∧ Freed s' ∧ s'.right = none ∧ ScanInv h req pre own done s' rest) ∨
      (req.flType ≠ .unlck ∧ Taken req (h.table a) ∧
        Absorbed h req pre (done ++ [a]) a s' ∧
        ScanInv h req pre own (done ++ [a]) s' rest) := by
  have hcaller := hp.callerLock
  have hbefore : s.before ++ [a] = pre ++ (done ++ [a]) := by
    rw [hp.before, append_assoc]
  have hlens : pre ++ done ≠ pre ++ (done ++ [a]) := by
    intro heq
    have hlen := congrArg List.length heq
    simp at hlen
  have hlock := (hinv.entries a (by simp)).type
  have hne : ∀ y, s.caller ≠ some y := by
    intro y hy
    rw [hp.caller] at hy
    cases hy
  have hleft : ∀ l, s.left = some l → l ∈ done ++ [a] := by
    intro l hl
    exact mem_append_left _ (hp.left l hl)
  obtain ⟨hright', hnext⟩ := hinv.turn hnodup hp.right hreq htypes hturn
  rw [hp.heap] at hlock
  cases hturn with
  | below hend htouch =>
    rw [hcaller, hp.heap] at hend htouch
    refine absurd ?_ hpass
    by_cases htype : req.flType = (h.table a).flType
    · exact .inl ⟨htype, htouch htype⟩
    · exact .inr ⟨htype, .inl hend⟩
  | mergeFree htype hlow hhigh hadded =>
    rw [hcaller, hp.heap, hp.added hadded] at htype
    rw [← htype] at hlock
    rcases hlock with hlock | hlock <;> cases hlock
  | mergeAdopt htype hlow hhigh hadded =>
    rw [hcaller, hp.heap] at htype hlow hhigh
    have hspec := Scan.merge_spec (hne a)
    refine .inr ⟨?_, .inl ⟨htype, hlow, hhigh⟩, ?_, ?_⟩
    · rw [htype]
      rcases hlock with hlock | hlock <;> rw [hlock] <;> decide
    · refine ⟨?_, ?_, rfl, hright', ?_, rfl, ?_⟩
      · funext y
        change ((s.mergeStart a).mergeEnd a).heap.table y = _
        by_cases hy : y = a
        · rw [hy, hspec.table_head, update_self, hcaller, hp.heap]
          unfold FileLock.absorb
          rw [if_pos htype]
        · rw [hspec.table_ne y hy (hne y), update_of_ne hy, hp.heap]
      · change ((s.mergeStart a).mergeEnd a).heap.freeList = _
        rw [hspec.freeList, hp.heap]
      · change ((s.mergeStart a).mergeEnd a).before ++ [a] = _
        rw [hspec.before]
        exact hbefore
      · intro l hl
        change ((s.mergeStart a).mergeEnd a).left = some l at hl
        rw [hspec.left] at hl
        exact hleft l hl
    · refine hnext.resolve_left fun hsame => hlens ?_
      rw [← hsame.before_eq, ← hbefore]
      change ((s.mergeStart a).mergeEnd a).before ++ [a] = _
      rw [hspec.before]
  | left htype hstart hlow hend =>
    rw [hcaller, hp.heap] at htype hstart hend
    exact absurd (.inr ⟨htype, .inr ⟨hstart, hend⟩⟩) hpass
  | free htype hstart hlow hend hadded =>
    have hunlck : req.flType = .unlck := by
      rw [hcaller] at hadded
      rcases hadded with hadded | hadded
      · exact hp.added hadded
      · exact hadded
    refine .inl ⟨hunlck, ⟨cons_ne_nil _ _, ?_⟩, hright', ?_⟩
    · change (s.added || decide (s.callerLock.flType = .unlck)) = true
      rw [hcaller, hunlck]
      exact Bool.or_true _
    · refine hnext.resolve_right fun hsame => hlens ?_
      rw [← hsame.before_eq]
      exact hp.before.symm
  | replace htype hunlck hstart hlow hend hadded hover =>
    have htable : ((s.mark a).replaceEntry a).heap.table =
        update s.heap.table a { s.heap.table a with
          flStart := s.callerLock.flStart, flEnd := s.callerLock.flEnd
          flType := s.callerLock.flType } := rfl
    have hmark : ((s.mark a).replaceEntry a).left = s.left := by
      change (if (s.heap.table a).flStart < s.callerLock.flStart then some a
        else s.left) = s.left
      rw [if_neg (not_lt.mpr hstart)]
    rw [hcaller, hp.heap] at htype hstart hlow hend hover htable
    rw [hcaller] at hunlck
    refine .inr ⟨hunlck, .inr ⟨htype, hlow, hstart, hend, hover⟩, ?_, ?_⟩
    · refine ⟨?_, ?_, rfl, hright', hbefore, rfl, ?_⟩
      · change ((s.mark a).replaceEntry a).heap.table = _
        unfold FileLock.absorb
        rw [htable, if_neg htype]
      · change s.heap.freeList = h.freeList
        rw [hp.heap]
      · intro l hl
        change ((s.mark a).replaceEntry a).left = some l at hl
        rw [hmark] at hl
        exact hleft l hl
    · refine hnext.resolve_left fun hsame => hlens ?_
      rw [← hsame.before_eq]
      exact hbefore

theorem Passing.stop (hp : Passing h req pre done s)
    (hdone : done ++ a :: rest = own) (hend : s.Stop a s')
    (post : List Entry) :
    ¬ Taken req (h.table a) ∧ Untouched h req (pre ++ (own ++ post)) (s', a :: (rest ++ post)) := by
  have hu : Untouched h req (pre ++ (own ++ post)) (s, a :: (rest ++ post)) :=
    hp.untouched (a :: rest) hdone
  have hcaller := hp.callerLock
  cases hend with
  | sameType htype hlow habove =>
    rw [hcaller, hp.heap] at htype habove
    refine ⟨?_, hu⟩
    rintro (⟨-, -, hhigh⟩ | ⟨hne, -⟩)
    · omega
    · exact hne htype
  | above htype habove =>
    rw [hcaller, hp.heap] at htype habove
    refine ⟨?_, hu⟩
    rintro (⟨heq, -⟩ | ⟨-, -, -, -, hover⟩)
    · exact htype heq
    · omega
  | right htype hlow hstart hend =>
    rw [hcaller, hp.heap] at htype hend
    refine ⟨?_, hu.heap, hu.caller, hu.fileLock, ?_, hu.chain_eq⟩
    · rintro (⟨heq, -⟩ | ⟨-, -, -, hle, -⟩)
      · exact htype heq
      · omega
    · intro hadded
      change (s.added || decide (s.callerLock.flType = .unlck)) = true
        at hadded
      rw [Bool.or_eq_true, decide_eq_true_eq, hcaller] at hadded
      rcases hadded with hadded | hadded
      · exact hp.added hadded
      · exact hadded

theorem Absorbed.free (hp : Absorbed h req pre done x s)
    (hinv : ScanInv h req pre own done s (a :: rest))
    (hnodup : (own ++ h.freeList).Nodup)
    (hpass : ¬ Passed ((h.table x).absorb req) (h.table a))
    (hturn : s.Turn a s') :
    Freed s' ∧ ¬ Straddles (h.table a) ((h.table x).absorb req) := by
  have hax : a ≠ x := by
    rintro rfl
    exact hinv.caller_ne_head hnodup hp.caller
  have hcaller := hp.callerLock
  have htable := hp.table_ne hax
  cases hturn with
  | below hend htouch =>
    rw [hcaller, htable] at hend htouch
    refine absurd ?_ hpass
    by_cases htype : ((h.table x).absorb req).flType = (h.table a).flType
    · exact .inl ⟨htype, htouch htype⟩
    · exact .inr ⟨htype, .inl hend⟩
  | mergeFree htype hlow hhigh hadded =>
    rw [hcaller, htable] at htype
    refine ⟨⟨cons_ne_nil _ _, (s.merge_frame a).2.trans hadded⟩, ?_⟩
    exact fun hstraddles => hstraddles.1 htype
  | mergeAdopt htype hlow hhigh hadded =>
    rw [hp.added] at hadded
    cases hadded
  | left htype hstart hlow hend =>
    rw [hcaller, htable] at htype hstart hend
    exact absurd (.inr ⟨htype, .inr ⟨hstart, hend⟩⟩) hpass
  | free htype hstart hlow hend hadded =>
    rw [hcaller, htable] at hend
    refine ⟨⟨cons_ne_nil _ _, ?_⟩, ?_⟩
    · change (s.added || decide (s.callerLock.flType = .unlck)) = true
      rw [hp.added]
      rfl
    · rintro ⟨-, -, hbeyond⟩
      omega
  | replace htype hunlck hstart hlow hend hadded hover =>
    rw [hp.added] at hadded
    cases hadded

def Scan.Splits (s : Scan) : Prop := ∃ y, s.right = some y ∧ s.left = some y

theorem Absorbed.stop (hp : Absorbed h req pre done x s)
    (hinv : ScanInv h req pre own done s (a :: rest))
    (hnodup : (own ++ h.freeList).Nodup)
    (hdone : done ++ a :: rest = own) (hend : s.Stop a s')
    (post : List Entry) :
    Changed h req (pre ++ (own ++ post)) x (s', a :: (rest ++ post)) ∧
      (s'.Splits ↔ Straddles (h.table a) ((h.table x).absorb req)) := by
  have hax : a ≠ x := by
    rintro rfl
    exact hinv.caller_ne_head hnodup hp.caller
  have hchanged : Changed h req (pre ++ (own ++ post)) x
      (s, a :: (rest ++ post)) := hp.changed (a :: rest) hdone
  have hcaller := hp.callerLock
  have htable := hp.table_ne hax
  have hvalid := hinv.caller_valid.start_le_end
  rw [hcaller] at hvalid
  have hnosplit : ¬ s.Splits := by
    rintro ⟨y, hy, -⟩
    rw [hp.right] at hy
    cases hy
  cases hend with
  | sameType htype hlow habove =>
    rw [hcaller, htable] at htype
    exact ⟨hchanged, iff_of_false hnosplit fun hs => hs.1 htype⟩
  | above htype habove =>
    rw [hcaller, htable] at habove
    refine ⟨hchanged, iff_of_false hnosplit ?_⟩
    rintro ⟨-, hstart, -⟩
    omega
  | right htype hlow hstart hend =>
    rw [hcaller, htable] at htype hend
    refine ⟨⟨hchanged.table, hchanged.freeList, ?_, hchanged.chain_eq⟩, ?_⟩
    · change (s.added || decide (s.callerLock.flType = .unlck)) = true
      rw [hp.added]
      rfl
    have hleft : (s.mark a).left =
        if (h.table a).flStart < ((h.table x).absorb req).flStart then some a
        else s.left := by
      rw [← hcaller, ← htable]
      rfl
    constructor
    · rintro ⟨y, hy, hyl⟩
      cases hy
      refine ⟨htype, ?_, hend⟩
      by_contra hnot
      rw [hleft, if_neg hnot] at hyl
      exact (hinv.head_notMem hnodup).1 (hp.left a hyl)
    · rintro ⟨-, hlt, -⟩
      refine ⟨a, rfl, ?_⟩
      rw [hleft, if_pos hlt]

inductive WalkEnd (h : LockHeap) (req : FileLock) (chain own : List Entry)
    (r : Scan × List Entry) : Prop
  | untouched (hr : Untouched h req chain r) (hnot : ¬ HalfDone h own req)
  | freed (hr : Freed r.1) (hnot : ¬ HalfDone h own req)
  | changed (x : Entry) (hx : x ∈ own) (hr : Changed h req chain x r)
      (hiff : HalfDone h own req ↔ h.freeList = [] ∧
        (h.table x).absorb req ≠ h.table x ∧ r.1.Splits)

theorem walkEnd (hinv : ScanInv h req pre own []
      ⟨h, pre, req, none, none, none, false⟩ own)
    (hnodup : (own ++ h.freeList).Nodup) (hreq : req.flOwner ≠ none)
    (htypes : req.flType = .rdlck ∨ req.flType = .wrlck ∨ req.flType = .unlck)
    (hstop : ∀ x, post.head? = some x → x ∉ own ∧ (h.table x).key ≠ req.key) :
    WalkEnd h req (pre ++ (own ++ post)) own
      (Scan.run ⟨h, pre, req, none, none, none, false⟩ (own ++ post)) := by
  have hstart : Passing h req pre [] ⟨h, pre, req, none, none, none, false⟩ :=
    ⟨rfl, rfl, rfl, rfl, (append_nil _).symm,
      fun hfalse => absurd hfalse Bool.false_ne_true, fun l hl => nomatch hl⟩
  obtain ⟨s, done, hw, hinv1, hdone, hrun⟩ :=
    hinv.walk hnodup rfl hstart.callerLock (fun _ _ => rfl) post
  have hp := hstart.walked hw hinv1
  rw [hrun]
  rw [nil_append] at hdone
  cases hdrop : own.dropWhile fun a => Passed req (h.table a) with
  | nil =>
    rw [hdrop] at hinv1 hdone
    rw [nil_append, hinv1.run_others hstop]
    refine .untouched (hp.untouched _ hdone) ?_
    rintro ⟨-, -, x, rest, -, -, hx, -⟩
    rw [hdrop] at hx
    cases hx
  | cons x rest =>
    rw [hdrop] at hinv1 hdone
    have hpass : ¬ Passed req (h.table x) := by
      have hhead := List.head?_dropWhile_not
        (fun a => decide (Passed req (h.table a))) own
      rw [hdrop] at hhead
      simpa using hhead
    -- what `HalfDone` says once its first entry is known
    have hhalf : HalfDone h own req ↔ h.freeList = [] ∧
        req.flType ≠ .unlck ∧ Taken req (h.table x) ∧
        (h.table x).absorb req ≠ h.table x ∧ ∃ y rest',
          rest.dropWhile (fun a =>
            Passed ((h.table x).absorb req) (h.table a)) = y :: rest' ∧
          Straddles (h.table y) ((h.table x).absorb req) := by
      unfold HalfDone
      rw [hdrop]
      constructor
      · rintro ⟨hfull, hlock, x', rest1, y, rest', hx, htaken, hne, hy, hs⟩
        cases hx
        exact ⟨hfull, hlock, htaken, hne, y, rest', hy, hs⟩
      · rintro ⟨hfull, hlock, htaken, hne, y, rest', hy, hs⟩
        exact ⟨hfull, hlock, x, rest, y, rest', rfl, htaken, hne, hy, hs⟩
    rw [cons_append]
    rcases Scan.run_cons_cases hinv1.same_key hinv1.caller_valid
      (rest ++ post) with ⟨s2, hturn, hrun2⟩ | ⟨s2, hend, hrun2⟩
    · rw [hrun2]
      rcases hp.absorb hinv1 hnodup hreq htypes hpass hturn with
        ⟨hunlck, hfreed, hright, hinv2⟩ | ⟨hlock, htaken, hab, hinv2⟩
      · refine .freed (hfreed.run hinv2 hnodup hright hreq htypes hstop) ?_
        exact fun hd => hd.2.1 hunlck
      · have hcells : ∀ a ∈ rest, s2.heap.table a = h.table a := by
          intro a ha
          refine hab.table_ne fun heq => ?_
          exact (hinv1.head_notMem hnodup).2.1 (heq ▸ ha)
        obtain ⟨s3, done3, hw3, hinv3, hdone3, hrun3⟩ :=
          hinv2.walk hnodup hab.right hab.callerLock hcells post
        have hp3 := hab.walked hw3 hinv3
        have hx : x ∈ own := by
          rw [← hdone]
          simp
        rw [hrun3]
        rw [append_assoc, singleton_append, hdone] at hdone3
        cases hdrop3 : rest.dropWhile fun a =>
            Passed ((h.table x).absorb req) (h.table a) with
        | nil =>
          rw [hdrop3] at hinv3 hdone3 hhalf
          rw [nil_append, hinv3.run_others hstop]
          refine .changed x hx (hp3.changed _ hdone3) (iff_of_false ?_ ?_)
          · intro hd
            obtain ⟨-, -, -, -, y, rest', hy, -⟩ := hhalf.mp hd
            cases hy
          · rintro ⟨-, -, y, hy, -⟩
            rw [hp3.right] at hy
            cases hy
        | cons y rest3 =>
          rw [hdrop3] at hinv3 hdone3 hhalf
          have hpass3 : ¬ Passed ((h.table x).absorb req) (h.table y) := by
            have hhead := List.head?_dropWhile_not (fun a =>
              decide (Passed ((h.table x).absorb req) (h.table a))) rest
            rw [hdrop3] at hhead
            simpa using hhead
          rw [cons_append]
          rcases Scan.run_cons_cases hinv3.same_key hinv3.caller_valid
            (rest3 ++ post) with ⟨s4, hturn4, hrun4⟩ | ⟨s4, hend4, hrun4⟩
          · rw [hrun4]
            obtain ⟨hfreed, hno⟩ := hp3.free hinv3 hnodup hpass3 hturn4
            obtain ⟨hright4, hnext⟩ := hinv3.turn hnodup hp3.right hreq htypes hturn4
            refine .freed ?_ ?_
            · rcases hnext with hnext | hnext
              · exact hfreed.run hnext hnodup hright4 hreq htypes hstop
              · exact hfreed.run hnext hnodup hright4 hreq htypes hstop
            · intro hd
              obtain ⟨-, -, -, -, y', rest', hy, hs⟩ := hhalf.mp hd
              cases hy
              exact hno hs
          · rw [hrun4]
            obtain ⟨hchanged, hsplit⟩ := hp3.stop hinv3 hnodup hdone3 hend4 post
            refine .changed x hx hchanged ?_
            rw [hhalf]
            constructor
            · rintro ⟨hfull, -, -, hne, y', rest', hy, hs⟩
              cases hy
              exact ⟨hfull, hne, hsplit.mpr hs⟩
            · rintro ⟨hfull, hne, hs⟩
              exact ⟨hfull, hlock, htaken, hne, y, rest3, rfl, hsplit.mp hs⟩
    · rw [hrun2]
      obtain ⟨hnot, hu⟩ := hp.stop hdone hend post
      refine .untouched hu fun hd => hnot ?_
      exact (hhalf.mp hd).2.2.1

variable {chain : List Entry} {current : Task} {fd : ℕ}
  {r : Scan × List Entry}

def SameChain (h : LockHeap) (chain : List Entry) (res : LockResult) : Prop :=
  res.chain.map res.heap.table = chain.map h.table

theorem Scan.trim_fails (current : Task) (fd : ℕ) (rest : List Entry)
    (hadded : s.added = true) :
    ((Scan.trim current fd s rest).ret ≠ 0 ↔ s.heap.freeList = [] ∧ s.Splits) ∧
      ((Scan.trim current fd s rest).ret ≠ 0 →
        (Scan.trim current fd s rest).heap = s.heap ∧
          (Scan.trim current fd s rest).chain = s.before ++ rest) := by
  unfold Scan.trim
  split
  · next hright =>
    refine ⟨iff_of_false (fun hne => hne rfl) ?_, fun hne => absurd rfl hne⟩
    rintro ⟨-, y, hy, -⟩
    rw [hright] at hy
    cases hy
  · next y hright =>
    split
    · next hleft =>
      unfold allocLock
      cases hlist : s.heap.freeList with
      | nil =>
        refine ⟨iff_of_true ?_ ⟨rfl, y, hright, hleft⟩, fun _ => ⟨rfl, rfl⟩⟩
        change -enolck ≠ 0
        decide
      | cons tmp free =>
        refine ⟨iff_of_false (fun hne => hne rfl) ?_, fun hne => absurd rfl hne⟩
        rintro ⟨hnil, -⟩
        cases hnil
    · next hleft =>
      refine ⟨iff_of_false (fun hne => hne rfl) ?_, fun hne => absurd rfl hne⟩
      rintro ⟨-, z, hz, hzl⟩
      rw [hright] at hz
      rw [← Option.some.inj hz] at hzl
      exact hleft hzl

theorem Untouched.same (hu : Untouched h req chain r)
    (hchain : ∀ y ∈ chain, y ∉ h.freeList)
    (hne : (Scan.finish current fd r.1 r.2).ret ≠ 0) :
    SameChain h chain (Scan.finish current fd r.1 r.2) := by
  obtain ⟨s, rest⟩ := r
  have hheap := hu.heap
  have heq := hu.chain_eq
  unfold SameChain
  unfold Scan.finish at hne ⊢
  split at hne
  · next hadded =>
    obtain ⟨-, hsame⟩ := Scan.trim_fails current fd rest hadded
    rw [if_pos hadded, (hsame hne).1, (hsame hne).2, hheap, heq]
  · next hadded =>
    rw [if_neg hadded]
    split at hne
    · next hunlck =>
      rw [if_pos hunlck, hheap, heq]
    · next hunlck =>
      rw [if_neg hunlck]
      rw [hheap] at hne ⊢
      unfold allocLock at hne ⊢
      cases hlist : h.freeList with
      | nil =>
        rw [heq]
      | cons tmp free =>
        rw [hlist] at hne
        -- the new entry is given back when there is none for the split
        unfold Scan.trim at hne ⊢
        dsimp only at hne ⊢
        split at hne
        · exact absurd rfl hne
        · next y hright =>
          split at hne
          · next hleft =>
            rw [if_pos hleft]
            unfold allocLock at hne ⊢
            cases hfree : free with
            | nil =>
              rw [if_neg hadded]
              rw [heq]
              refine map_congr_left fun z hz => ?_
              have hztmp : z ≠ tmp := by
                rintro rfl
                refine hchain z hz ?_
                rw [hlist]
                exact mem_cons_self ..
              unfold freeLock
              dsimp only
              rw [update_of_ne hztmp, update_of_ne hztmp]
            | cons tmp' free' =>
              rw [hfree] at hne
              exact absurd rfl hne
          · exact absurd rfl hne

theorem lockIt_sameChain_iff (hreq : Request current fd req)
    (hnodup : (chain ++ h.freeList).Nodup)
    (hcontig : Contiguous (chain.map fun x => (h.table x).key))
    (hlocks : ∀ x ∈ chain, ChainLock (h.table x))
    (hfree : ∀ x ∈ h.freeList, (h.table x).flOwner = none)
    (hsane : h.panicked = false) :
    ((lockIt current h chain req fd).ret ≠ 0 → SameChain h chain (lockIt current h chain req fd)) ↔
      ¬ HalfDone h (chain.filter fun a => (h.table a).key = req.key) req := by
  obtain ⟨pre, own, post, hsplit, hskip⟩ := exists_chainSplit h req chain hcontig
  have hchain := hsplit.chain_eq
  have hown : chain.filter (fun a => (h.table a).key = req.key) = own := by
    have hothers : ∀ l : List Entry, (∀ x ∈ l, (h.table x).key ≠ req.key) →
        l.filter (fun a => (h.table a).key = req.key) = [] := by
      intro l hl
      refine filter_eq_nil_iff.mpr fun x hx => ?_
      simpa using hl x hx
    rw [hchain, filter_append, filter_append,
      hothers pre hsplit.pre_key, hothers post hsplit.post_key,
      nil_append, append_nil]
    refine filter_eq_self.mpr fun x hx => ?_
    simpa using hsplit.own_key x hx
  have hnotfree : ∀ y ∈ chain, y ∉ h.freeList := by
    intro y hy hyfree
    rw [nodup_append] at hnodup
    exact hnodup.2.2 y hy y hyfree rfl
  have hownNodup := hsplit.own_nodup hnodup
  have hmem : ∀ x ∈ own, x ∈ chain := fun x hx => hsplit.mem_own hx
  have hend : WalkEnd h req chain own
      (Scan.run ⟨h, pre, req, none, none, none, false⟩ (own ++ post)) := by
    subst hchain
    have hinv := ScanInv.initial hreq hsplit (fun x hx => hlocks x (hmem x hx))
      hfree hsane
    exact walkEnd hinv hownNodup hreq.owner hreq.type hsplit.stop
  have hlockIt : lockIt current h chain req fd = Scan.finish current fd
      (Scan.run ⟨h, pre, req, none, none, none, false⟩ (own ++ post)).1
      (Scan.run ⟨h, pre, req, none, none, none, false⟩ (own ++ post)).2 := by
    unfold lockIt
    rw [hskip]
  rw [hown, hlockIt]
  revert hend
  generalize Scan.run ⟨h, pre, req, none, none, none, false⟩ (own ++ post) = r
  intro hend
  cases hend with
  | untouched hr hnot =>
    exact iff_of_true (fun hne => hr.same hnotfree hne) hnot
  | freed hr hnot =>
    refine iff_of_true (fun hne => absurd ?_ hne) hnot
    unfold Scan.finish
    rw [if_pos hr.added]
    by_contra hret
    exact hr.freeList ((Scan.trim_fails _ _ _ hr.added).1.mp hret).1
  | changed x hx hr hiff =>
    obtain ⟨hfails, hsame⟩ := Scan.trim_fails current fd r.2 hr.added
    have hfinish : Scan.finish current fd r.1 r.2 = Scan.trim current fd r.1 r.2 := by
      unfold Scan.finish
      rw [if_pos hr.added]
    rw [hfinish, hiff, hfails, hr.freeList]
    constructor
    · rintro hkeep ⟨hfull, hne, hsplits⟩
      have hret := hfails.mpr ⟨hr.freeList.trans hfull, hsplits⟩
      have hkept := hkeep ⟨hfull, hsplits⟩
      unfold SameChain at hkept
      rw [(hsame hret).1, (hsame hret).2, hr.chain_eq, hr.table] at hkept
      have hxeq := map_inj_left.mp hkept x (hmem x hx)
      rw [update_self] at hxeq
      exact hne hxeq
    · rintro hnot ⟨hfull, hsplits⟩
      have hret := hfails.mpr ⟨hr.freeList.trans hfull, hsplits⟩
      have hxeq : (h.table x).absorb req = h.table x := by
        by_contra hne
        exact hnot ⟨hfull, hne, hsplits⟩
      unfold SameChain
      rw [(hsame hret).1, (hsame hret).2, hr.chain_eq, hr.table, hxeq, update_eq_self]

end

/-! ## The table and its lists -/

/-- Every entry of the table is on the free list or on one chain, once. -/
structure LockSystem.Partition (sys : LockSystem) : Prop where
  free_nodup : sys.heap.freeList.Nodup
  chain_nodup : ∀ ino, (sys.iFlock ino).Nodup
  once : ∀ a, (a ∈ sys.heap.freeList ∧ ∀ ino, a ∉ sys.iFlock ino) ∨
    (a ∉ sys.heap.freeList ∧ ∃! ino, a ∈ sys.iFlock ino)

def LockSystem.Covered (sys : LockSystem) : Prop :=
  ∀ a, a ∈ sys.heap.freeList ∨ ∃ ino, a ∈ sys.iFlock ino

section

variable {sys : LockSystem} {ino : ℕ} {req : FileLock} {res : LockResult}
  {pre own post out : List Entry}

theorem LockSystem.Inv.partition (hinv : sys.Inv) (hcov : sys.Covered) : sys.Partition := by
  have hapart : ∀ a j, a ∈ sys.iFlock j → a ∉ sys.heap.freeList := by
    intro a j ha hfree
    have hnodup := hinv.nodup j
    rw [nodup_append] at hnodup
    exact hnodup.2.2 a ha a hfree rfl
  refine ⟨(hinv.nodup 0).of_append_right, fun j => (hinv.nodup j).of_append_left, fun a => ?_⟩
  rcases hcov a with hfree | ⟨j, hj⟩
  · exact .inl ⟨hfree, fun j hj => hapart a j hj hfree⟩
  · refine .inr ⟨hapart a j hj, j, hj, fun k hk => ?_⟩
    by_contra hne
    exact hinv.disjoint k j hne a hk hj

theorem LockSystem.Covered.exchange (hcov : sys.Covered)
    (hsplit : ChainSplit sys.heap req (sys.iFlock ino) pre own post)
    (hpost : LockPost sys.heap req pre own post out res) :
    (sys.setChain ino res.heap res.chain).Covered := by
  have hnew : ∀ a, a ∈ own ∨ a ∈ sys.heap.freeList → a ∈ res.heap.freeList ∨ a ∈ res.chain := by
    intro a ha
    have hmem := hpost.heap.perm.symm.subset (mem_append.mpr ha)
    rcases mem_append.mp hmem with hout | hfree
    · rw [hpost.chain_eq]
      simp [hout]
    · exact .inl hfree
  have hchain : (sys.setChain ino res.heap res.chain).iFlock ino = res.chain := update_self ..
  have hhere : ∀ a, a ∈ res.heap.freeList ∨ a ∈ res.chain →
      a ∈ (sys.setChain ino res.heap res.chain).heap.freeList ∨
        ∃ j, a ∈ (sys.setChain ino res.heap res.chain).iFlock j := by
    rintro a (hfree | ha)
    · exact .inl hfree
    · exact .inr ⟨ino, by rw [hchain]; exact ha⟩
  intro a
  rcases hcov a with hfree | ⟨j, hj⟩
  · exact hhere a (hnew a (.inr hfree))
  · by_cases hji : j = ino
    · subst hji
      rw [hsplit.chain_eq] at hj
      rcases mem_append.mp hj with hpre | hj
      · refine hhere a (.inr ?_)
        rw [hpost.chain_eq]
        simp [hpre]
      · rcases mem_append.mp hj with hown | hpo
        · exact hhere a (hnew a (.inl hown))
        · refine hhere a (.inr ?_)
          rw [hpost.chain_eq]
          simp [hpo]
    · refine .inr ⟨j, ?_⟩
      change a ∈ update sys.iFlock ino res.chain j
      rw [update_of_ne hji]
      exact hj

theorem LockSystem.Covered.setlkRepeat (hcov : sys.Covered) (hinv : sys.Inv)
    {current : Task} {fd : ℕ} (hreq : Request current fd req) (ino : ℕ)
    (cmd : SetlkCmd) (signal : Bool) :
    (sys.setlkRepeat current fd ino cmd req signal).1.Covered := by
  unfold LockSystem.setlkRepeat
  split
  · cases cmd with
    | setlk => exact hcov
    | setlkw =>
      dsimp only
      split
      · exact hcov
      · exact hcov
  · obtain ⟨pre, own, post, out, hsplit, hpost⟩ :=
      lockIt_post hreq (hinv.nodup ino) (hinv.contiguous ino)
        (hinv.locks ino) hinv.free_owner hinv.sane
    exact hcov.exchange hsplit hpost

def SameLocks (sys sys' : LockSystem) : Prop :=
  ∀ ino, (sys'.iFlock ino).map sys'.heap.table = (sys.iFlock ino).map sys.heap.table

def KeptOnError (sys : LockSystem) (r : LockSystem × Option ℤ) : Prop :=
  ∀ e, r.2 = some e → e ≠ 0 → SameLocks sys r.1

def LockSystem.StopsHalfway (sys : LockSystem) (ino : ℕ) (req : FileLock) : Prop :=
  Unopposed sys.heap (sys.iFlock ino) req ∧
    HalfDone sys.heap
      ((sys.iFlock ino).filter fun a => (sys.heap.table a).key = req.key) req

theorem LockSystem.Inv.setlkRepeat_kept_iff (hinv : sys.Inv) {current : Task}
    {fd : ℕ} (hreq : Request current fd req) (ino : ℕ) (cmd : SetlkCmd)
    (signal : Bool) :
    KeptOnError sys (sys.setlkRepeat current fd ino cmd req signal) ↔
      ¬ sys.StopsHalfway ino req := by
  unfold LockSystem.setlkRepeat LockSystem.StopsHalfway
  split
  · next hscan =>
    refine iff_of_true ?_ ?_
    · intro e _ _
      cases cmd with
      | setlk => exact fun _ => rfl
      | setlkw =>
        dsimp only
        split
        · exact fun _ => rfl
        · exact fun _ => rfl
    · rintro ⟨hfree, -⟩
      obtain ⟨x, hx, hconflict⟩ := any_eq_true.mp hscan.2
      rw [hfree hscan.1 x hx] at hconflict
      cases hconflict
  · next hscan =>
    have hfree : Unopposed sys.heap (sys.iFlock ino) req := by
      intro hunlck x hx
      by_contra hconflict
      refine hscan ⟨hunlck, any_eq_true.mpr ⟨x, hx, ?_⟩⟩
      simpa using hconflict
    rw [and_iff_right hfree, ← lockIt_sameChain_iff hreq (hinv.nodup ino)
      (hinv.contiguous ino) (hinv.locks ino) hinv.free_owner hinv.sane]
    obtain ⟨pre, own, post, out, hsplit, hpost⟩ :=
      lockIt_post hreq (hinv.nodup ino) (hinv.contiguous ino)
        (hinv.locks ino) hinv.free_owner hinv.sane
    constructor
    · intro hkept hne
      have hsame := hkept _ rfl hne ino
      change (update sys.iFlock ino _ ino).map _ = _ at hsame
      rw [update_self] at hsame
      exact hsame
    · intro hkept e he hne j
      have hret := Option.some.inj he
      change (update sys.iFlock ino _ j).map _ = _
      by_cases hj : j = ino
      · subst hj
        rw [update_self]
        exact hkept (hret ▸ hne)
      · rw [update_of_ne hj]
        refine map_congr_left fun x hx => ?_
        refine hpost.frame (hinv.nodup j) hx fun hown => ?_
        exact hinv.disjoint j ino hj x hx (hsplit.mem_own hown)

theorem KeptOnError.refl (sys : LockSystem) (e : Option ℤ) : KeptOnError sys (sys, e) :=
  fun _ _ _ _ => rfl

end

def LockSystem.call (sys : LockSystem) : LockEvent → LockSystem × Option ℤ
  | .setlk current fd filp cmd verify flock signal =>
    sys.fcntlSetlk current fd filp cmd verify flock signal
  | .wakeUp current signal signal' => sys.wakeUp current signal signal'
  | .removeLocks task ino fd => (sys.fcntlRemoveLocks task ino fd, none)

def LockSystem.Halfway (sys : LockSystem) : LockEvent → Prop
  | .setlk current fd filp _ verify flock _ =>
    ∃ file inode fl req, filp = some file ∧ fd < nrOpen ∧ verify = 0 ∧
      file.fInode = some inode ∧
      copyFlock current file flock fd = some fl ∧
      checkMode file.fMode fl = some req ∧ sys.StopsHalfway inode.ino req
  | .wakeUp current signal _ =>
    ∃ w, sys.waiting current = some w ∧ signal = false ∧ sys.StopsHalfway w.ino w.fileLock
  | .removeLocks .. => False

section

variable {sys : LockSystem}

section
variable (hcov : sys.Covered) (hinv : sys.Inv)
include hcov hinv

theorem LockSystem.Covered.fcntlSetlk (current : Task) (fd : ℕ) (filp : Option File)
    (cmd : SetlkCmd) (verify : ℤ) (flock : Flock) (signal : Bool) :
    (sys.fcntlSetlk current fd filp cmd verify flock signal).1.Covered ∧
      (KeptOnError sys (sys.fcntlSetlk current fd filp cmd verify flock signal) ↔
        ¬ sys.Halfway (.setlk current fd filp cmd verify flock signal)) := by
  have hkept : ∀ e, (∀ file inode fl req, filp = some file → fd < nrOpen →
      verify = 0 → file.fInode = some inode →
      copyFlock current file flock fd = some fl →
      checkMode file.fMode fl = some req → False) →
      (sys, e).1.Covered ∧ (KeptOnError sys (sys, e) ↔
        ¬ sys.Halfway (.setlk current fd filp cmd verify flock signal)) := by
    intro e hnever
    refine ⟨hcov, iff_of_true (.refl sys e) ?_⟩
    rintro ⟨file, inode, fl, req, hfilp, hfd, hverify, hinode, hcopy, hmode, -⟩
    exact hnever file inode fl req hfilp hfd hverify hinode hcopy hmode
  unfold LockSystem.fcntlSetlk
  cases filp with
  | none =>
    refine hkept _ ?_
    intro file _ _ _ hfilp
    cases hfilp
  | some file =>
    dsimp only
    split
    · next hfd =>
      refine hkept _ ?_
      intro _ _ _ _ _ hlt
      omega
    · next hfd =>
      split
      · next hverify =>
        refine hkept _ ?_
        intro _ _ _ _ _ _ hzero
        exact absurd hzero hverify
      · next hverify =>
        cases hinode : file.fInode with
        | none =>
          refine hkept _ ?_
          intro file' inode _ _ hfile _ _ hinode'
          rw [← Option.some.inj hfile, hinode] at hinode'
          cases hinode'
        | some inode =>
          cases hcopy : copyFlock current file flock fd with
          | none =>
            refine hkept _ ?_
            intro file' _ fl _ hfile _ _ _ hcopy'
            rw [← Option.some.inj hfile, hcopy] at hcopy'
            cases hcopy'
          | some fl =>
            dsimp only
            cases hmode : checkMode file.fMode fl with
            | none =>
              refine hkept _ ?_
              intro file' _ fl' _ hfile _ _ _ hcopy' hmode'
              rw [← Option.some.inj hfile] at hcopy' hmode'
              rw [hcopy] at hcopy'
              rw [← Option.some.inj hcopy', hmode] at hmode'
              cases hmode'
            | some req =>
              have hreq := checkMode_request hcopy hmode
              refine ⟨hcov.setlkRepeat hinv hreq _ _ _, ?_⟩
              rw [hinv.setlkRepeat_kept_iff hreq, not_iff_not]
              constructor
              · intro hhalf
                exact ⟨file, inode, fl, req, rfl, not_le.mp hfd,
                  not_not.mp hverify, hinode, hcopy, hmode, hhalf⟩
              · rintro ⟨file', inode', fl', req', hfile, -, -, hinode', hcopy', hmode', hhalf⟩
                rw [← Option.some.inj hfile] at hinode' hcopy' hmode'
                rw [hcopy] at hcopy'
                rw [← Option.some.inj hcopy', hmode] at hmode'
                rw [hinode] at hinode'
                rw [Option.some.inj hinode', Option.some.inj hmode']
                exact hhalf

theorem LockSystem.Covered.wakeUp (current : Task) (signal signal' : Bool) :
    (sys.wakeUp current signal signal').1.Covered ∧
      (KeptOnError sys (sys.wakeUp current signal signal') ↔
        ¬ sys.Halfway (.wakeUp current signal signal')) := by
  unfold LockSystem.wakeUp
  cases hwait : sys.waiting current with
  | none =>
    refine ⟨hcov, iff_of_true (.refl sys none) ?_⟩
    rintro ⟨w, hw, -⟩
    rw [hwait] at hw
    cases hw
  | some w =>
    dsimp only
    split
    · next hsignal =>
      refine ⟨hcov, iff_of_true (fun _ _ _ _ => rfl) ?_⟩
      rintro ⟨-, -, hfalse, -⟩
      rw [hsignal] at hfalse
      cases hfalse
    · next hsignal =>
      have hreq := hinv.waiters current w hwait
      have hinv' : (sys.setWaiting current none).Inv := hinv.setWaiting fun v hv => nomatch hv
      have hcov' : (sys.setWaiting current none).Covered := hcov
      refine ⟨hcov'.setlkRepeat hinv' hreq _ _ _, ?_⟩
      have hiff := hinv'.setlkRepeat_kept_iff hreq w.ino .setlkw signal'
      refine Iff.trans hiff (not_iff_not.mpr ?_)
      constructor
      · intro hhalf
        exact ⟨w, hwait, by simpa using hsignal, hhalf⟩
      · rintro ⟨w', hw', -, hhalf⟩
        rw [hwait] at hw'
        rw [Option.some.inj hw']
        exact hhalf

theorem LockSystem.Covered.call (event : LockEvent) :
    (sys.step event).Covered ∧ (KeptOnError sys (sys.call event) ↔ ¬ sys.Halfway event) := by
  cases event with
  | setlk current fd filp cmd verify flock signal =>
    exact hcov.fcntlSetlk hinv current fd filp cmd verify flock signal
  | wakeUp current signal signal' => exact hcov.wakeUp hinv current signal signal'
  | removeLocks task ino fd =>
    obtain ⟨pre, own, post, heap, hsplit, hpost, heq⟩ := hinv.removeLocks_split task ino fd
    refine ⟨?_, iff_of_true (fun e he => nomatch he) fun hfalse => hfalse⟩
    change (sys.fcntlRemoveLocks task ino fd).Covered
    rw [heq]
    exact hcov.exchange hsplit hpost

end

theorem LockSystem.Covered.init : LockSystem.init.Covered := fun a => .inl (mem_finRange a)

theorem run_covered (events : List LockEvent) :
    (LockSystem.init.run events).Inv ∧ (LockSystem.init.run events).Covered := by
  refine List.foldlRecOn events LockSystem.step
    (motive := fun sys => sys.Inv ∧ sys.Covered)
    ⟨LockSystem.Inv.init, LockSystem.Covered.init⟩ ?_
  intro sys hsys event _
  exact ⟨hsys.1.step event, (hsys.2.call hsys.1 event).1⟩

end

/-- In every state that the system calls can produce, each entry of the table
is on one list, and an error leaves the locks alone unless the request stops
half-way. -/
theorem run_partition_and_kept (events : List LockEvent) :
    (LockSystem.init.run events).Partition ∧ ∀ event,
      KeptOnError (LockSystem.init.run events)
          ((LockSystem.init.run events).call event) ↔
        ¬ (LockSystem.init.run events).Halfway event := by
  obtain ⟨hinv, hcov⟩ := run_covered events
  exact ⟨hinv.partition hcov, fun event => (hcov.call hinv event).2⟩

def lockedFile (ino : ℕ) : File := ⟨3, 0, some ⟨ino, true, 100⟩⟩

/-- Task 1 has overlapping locks up to the largest offset, and takes parts of
them back; the chain of its locks is then not sorted.  Task 2 has all other
entries of the table. -/
def unsortedRun : List LockEvent :=
  [.setlk 1 3 (lockedFile 7) .setlk 0 ⟨1, 0, 5, 0⟩ false,
    .setlk 1 3 (lockedFile 7) .setlk 0 ⟨1, 0, 3, 0⟩ false,
    .setlk 1 3 (lockedFile 7) .setlk 0 ⟨0, 0, 4, 3⟩ false,
    .setlk 1 3 (lockedFile 7) .setlk 0 ⟨2, 0, 8, 3⟩ false,
    .setlk 1 3 (lockedFile 7) .setlk 0 ⟨2, 0, 11, 0⟩ false,
    .setlk 1 3 (lockedFile 7) .setlk 0 ⟨2, 0, 4, 3⟩ false] ++
  (List.range 61).map fun k =>
    .setlk 2 4 (lockedFile 8) .setlk 0 ⟨0, 0, Int32.ofNat (2 * k), 1⟩ false

/-- A read lock on bytes 7 and 8 replaces the lock on byte 7, and then fails
with -ENOLCK. -/
theorem unsortedRun_not_kept :
    ¬ KeptOnError (LockSystem.init.run unsortedRun)
      ((LockSystem.init.run unsortedRun).call
        (.setlk 1 3 (lockedFile 7) .setlk 0 ⟨0, 0, 7, 2⟩ false)) := by
  intro hkept
  have hret : ((LockSystem.init.run unsortedRun).call
      (.setlk 1 3 (lockedFile 7) .setlk 0 ⟨0, 0, 7, 2⟩ false)).2 = some (-enolck) := by
    decide +kernel
  exact absurd (hkept _ hret (by decide) 7) (by decide +kernel)

end LinuxKernel.RecordLock
