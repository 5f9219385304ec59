import LinuxKernel.BlockRequestRun

/-!
# Plugs

A process that has put a plug into an empty queue holds the driver back until it has gone
through all its buffers.  It must not sleep for something that only the driver can give it.
-/

namespace LinuxKernel.BlockRequest

open LinkChain

variable {k : Setup} {s : Queues} {p b i m n : ℕ} {c : Call} {rw : Rw}
variable {rest : List (Option ℕ)}

def Queues.InRequest (s : Queues) (i b : ℕ) : Prop :=
  ∃ l, Leads (reqnext s.bufs) (linkOf (s.reqs i).bh) l ∧ b ∈ l

/-- A process sleeps in `make_request`, with its plug in the queue, for a lock or an entry that
is with the requests behind the plug. -/
inductive Queues.Stuck (s : Queues) (p : ℕ) : Prop
  | lock (c : Call) (b i : ℕ) (rest : List (Option ℕ)) :
    s.procs p = .call c .waitLock → c.plugged = true → c.bhs = some b :: rest →
      (s.bufs b).lock = true → .req i ∈ s.queue c.major → s.InRequest i b → Stuck s p
  | entry (c : Call) :
    s.procs p = .call c .waitRequest → c.plugged = true →
      (∀ i < maxReq c.rw.rw, .req i ∈ s.queue c.major) → Stuck s p

def Queues.fits (s : Queues) (k : Setup) (rw : Rw) (b : ℕ) : Node → Bool
  | .plug _ _ _ => false
  | .req i => (s.reqs i).appends k rw b || (s.reqs i).prepends k rw b

/-- `make_request` is through without sleep: the buffer is not locked, and there is a request to
merge it with or a free entry. -/
def Queues.GoesOn (s : Queues) (k : Setup) (c : Call) (b : ℕ) : Prop :=
  c.rw.rwAhead = true ∨ k.pastEnd c.major b = true ∨
    (s.bufs b).lock = false ∧
      ((∃ node ∈ s.mergeList c.major, s.fits k c.rw.rw b node = true) ∨
        ∃ i < maxReq c.rw.rw, (s.reqs i).dev = none)

instance (k : Setup) (s : Queues) (c : Call) (b : ℕ) : Decidable (s.GoesOn k c b) :=
  inferInstanceAs (Decidable (c.rw.rwAhead = true ∨ k.pastEnd c.major b = true ∨
    (s.bufs b).lock = false ∧
      ((∃ node ∈ s.mergeList c.major, s.fits k c.rw.rw b node = true) ∨
        ∃ i < maxReq c.rw.rw, (s.reqs i).dev = none)))

def Proc.plugged : Proc → Option (Call × ℕ)
  | .call ⟨rw, major, some b :: rest, true⟩ .ready => some (⟨rw, major, some b :: rest, true⟩, b)
  | _ => none

/-- The condition on a step: a process does not go to sleep in `make_request` while its plug is
in the queue. -/
def Queues.PlugOk (s : Queues) (k : Setup) : Event → Prop
  | .resume p => ∀ x ∈ (s.procs p).plugged, s.GoesOn k x.1 x.2
  | _ => True

instance (k : Setup) (s : Queues) : (e : Event) → Decidable (s.PlugOk k e)
  | .resume p => inferInstanceAs (Decidable (∀ x ∈ (s.procs p).plugged, s.GoesOn k x.1 x.2))
  | .llRwBlock _ _ _ _ _ | .endRequest _ _ _ | .scsiTake _ _ | .scsiEnd _ _ | .touch _ _ _ =>
    .isTrue trivial

def Queues.Awake (s : Queues) : Prop :=
  ∀ p c pc, s.procs p = .call c pc → c.plugged = true → pc = .ready ∨ ∃ i, pc = .adding i

theorem Queues.Awake.not_stuck (h : s.Awake) (p : ℕ) : ¬s.Stuck p := by
  rintro (⟨c, b, i, rest, hproc, hplugged, -, -, -, -⟩ | ⟨c, hproc, hplugged, -⟩)
  · rcases h p c _ hproc hplugged with hpc | ⟨i, hpc⟩ <;> cases hpc
  · rcases h p c _ hproc hplugged with hpc | ⟨i, hpc⟩ <;> cases hpc

theorem getRequest_ne_none (hi : i < n) (hfree : (s.reqs i).dev = none) :
    (s.getRequest n).1 ≠ none := by
  unfold Queues.getRequest
  dsimp only
  generalize (if s.prevLimit = n then s.prevFound else 0) = found
  have hmem : i ∈ (List.range n).map fun j => (found + n - 1 - j) % n := by
    refine List.mem_map.2 ⟨(found + n - 1 - i) % n, List.mem_range.2 (Nat.mod_lt _ (by omega)), ?_⟩
    -- as many steps down from the last entry found as lead to this one
    have hdiv := Nat.div_add_mod (found + n - 1 - i) n
    have hback : found + n - 1 - (found + n - 1 - i) % n =
        i + n * ((found + n - 1 - i) / n) := by omega
    rw [hback, Nat.add_mul_mod_self_left, Nat.mod_eq_of_lt hi]
  split
  · rename_i hnone
    have := List.find?_eq_none.1 hnone i hmem
    simp [hfree] at this
  · simp

theorem mergeWalk_ne_none {node : Node} {l : List Node} (hmem : node ∈ l)
    (hfits : s.fits k rw b node = true) : s.mergeWalk k rw b l ≠ none := by
  induction l with
  | nil => cases hmem
  | cons head l ih =>
    cases head with
    | plug owner cmd sector =>
      rcases List.mem_cons.1 hmem with rfl | hmem
      · cases hfits
      · exact ih hmem
    | req j =>
      unfold Queues.mergeWalk
      split
      · simp
      · rename_i happends
        split
        · simp
        · rename_i hprepends
          rcases List.mem_cons.1 hmem with rfl | hmem
          · simp [Queues.fits, happends, hprepends] at hfits
          · exact ih hmem

/-! ## A step of a process -/

def Queues.Moves (s s' : Queues) (p : ℕ) : Prop :=
  ∃ proc, s'.procs = Function.update s.procs p proc ∧
    ∀ c pc, proc = .call c pc → c.plugged = true → pc = .ready ∨ ∃ i, pc = .adding i

theorem Queues.Moves.awake {s' : Queues} (h : s.Moves s' p) (hawake : s.Awake) : s'.Awake := by
  obtain ⟨proc, hprocs, hproc⟩ := h
  intro p' c pc hp'
  rw [hprocs] at hp'
  by_cases hp : p' = p
  · subst hp
    rw [Function.update_self] at hp'
    exact hproc c pc hp'
  · rw [Function.update_of_ne hp] at hp'
    exact hawake p' c pc hp'

section
variable {s' : Queues} (hprocs : s'.procs = s.procs)
include hprocs

theorem moves_setProc {proc : Proc}
    (hproc : ∀ c pc, proc = .call c pc → c.plugged = true → pc = .ready ∨ ∃ i, pc = .adding i) :
    s.Moves (s'.setProc p proc) p := by
  refine ⟨proc, ?_, hproc⟩
  rw [← hprocs]
  rfl

theorem moves_nextBuffer : s.Moves (s'.nextBuffer p c) p := by
  apply moves_setProc hprocs
  intro c' pc hproc _
  cases hproc
  exact .inl rfl

theorem moves_findRequest (hgo : c.plugged = true → c.rw.rwAhead = true ∨
      s'.mergeWalk k c.rw.rw b (s'.mergeList c.major) ≠ none ∨
        (s'.getRequest (maxReq c.rw.rw)).1 ≠ none) : s.Moves (s'.findRequest k p c b) p := by
  unfold Queues.findRequest
  split
  · exact moves_nextBuffer hprocs
  · exact moves_nextBuffer hprocs
  · rename_i hmerge
    split
    · rename_i found limit hnone
      split
      · exact moves_nextBuffer hprocs
      · rename_i hahead
        apply moves_setProc hprocs
        intro c' pc hproc hplugged
        cases hproc
        rw [hmerge, hnone] at hgo
        rcases hgo hplugged with hgo | hgo | hgo
        · exact absurd hgo hahead
        · exact absurd rfl hgo
        · exact absurd rfl hgo
    · rename_i i found limit hsome
      apply moves_setProc hprocs
      intro c' pc hproc _
      cases hproc
      exact .inr ⟨i, rfl⟩

end

theorem moves_lockBuffer (hgo : c.plugged = true → c.rw.rwAhead = true ∨
      (∃ node ∈ s.mergeList c.major, s.fits k c.rw.rw b node = true) ∨
      ∃ i < maxReq c.rw.rw, (s.reqs i).dev = none) :
    s.Moves (s.lockBuffer k p c b) p := by
  unfold Queues.lockBuffer
  dsimp only
  split
  · exact moves_nextBuffer rfl
  · refine moves_findRequest rfl fun hplugged => ?_
    rcases hgo hplugged with hahead | ⟨node, hmem, hfits⟩ | ⟨i, hi, hfree⟩
    · exact .inl hahead
    · right
      left
      exact mergeWalk_ne_none hmem hfits
    · right
      right
      exact getRequest_ne_none hi hfree

theorem moves_makeRequest (hgo : c.plugged = true → s.GoesOn k c b) :
    s.Moves (s.makeRequest k p c b) p := by
  unfold Queues.makeRequest
  split
  · exact moves_nextBuffer rfl
  · rename_i hahead
    split
    · exact moves_nextBuffer rfl
    · rename_i hend
      split
      · rename_i hlock
        apply moves_setProc rfl
        intro c' pc hproc hplugged
        cases hproc
        rcases hgo hplugged with hgo | hgo | hgo
        · simp [hgo, hlock] at hahead
        · exact absurd hgo hend
        · rw [hgo.1] at hlock
          cases hlock
      · apply moves_lockBuffer
        intro hplugged
        rcases hgo hplugged with hgo | hgo | hgo
        · exact .inl hgo
        · exact absurd hgo hend
        · exact .inr hgo.2

theorem addRequest_procs : (s.addRequest m i).procs = s.procs := by
  unfold Queues.addRequest
  cases (s.reqs i).bh <;> rfl

theorem giveUp_procs (bhs : List (Option ℕ)) : (s.giveUp bhs).procs = s.procs := by
  induction bhs generalizing s with
  | nil => rfl
  | cons bh bhs ih =>
    cases bh with
    | none => exact ih
    | some b => exact ih.trans setBuf_procs

theorem plugged_eq (hproc : s.procs p = .call c .ready) (hplugged : c.plugged = true)
    (hbhs : c.bhs = some b :: rest) : (s.procs p).plugged = some (c, b) := by
  obtain ⟨rw, major, bhs, plugged⟩ := c
  obtain rfl : plugged = true := hplugged
  obtain rfl : bhs = some b :: rest := hbhs
  rw [hproc]
  rfl

theorem Queues.Awake.resume (h : s.Awake) (hok : s.PlugOk k (.resume p)) :
    (s.resume k p).Awake := by
  unfold Queues.resume
  split
  · exact h
  · rename_i c pc hproc
    split
    · apply (moves_setProc (s := s) (p := p) ?_ ?_).awake h
      · split <;> rfl
      · intro c' pc' hidle
        cases hidle
    · exact (moves_nextBuffer rfl).awake h
    · rename_i b rest hbhs
      cases pc with
      | ready =>
        refine (moves_makeRequest fun hplugged => ?_).awake h
        exact hok (c, b) (plugged_eq hproc hplugged hbhs)
      | waitLock =>
        dsimp only
        split
        · exact h
        · refine (moves_lockBuffer fun hplugged => ?_).awake h
          rcases h p c _ hproc hplugged with hpc | ⟨i, hpc⟩ <;> cases hpc
      | waitRequest =>
        refine (moves_findRequest rfl fun hplugged => ?_).awake h
        rcases h p c _ hproc hplugged with hpc | ⟨i, hpc⟩ <;> cases hpc
      | adding i => exact (moves_nextBuffer addRequest_procs).awake h

theorem Queues.Awake.llRwBlock (h : s.Awake) (rw : Cmd) (bhs : List (Option ℕ)) (cmd : ℤ)
    (sector : BitVec 32) : (s.llRwBlock k p rw bhs cmd sector).Awake := by
  have hgiveUp : ∀ bhs, (s.giveUp bhs).Awake := by
    intro bhs
    unfold Queues.Awake
    rw [giveUp_procs]
    exact h
  unfold Queues.llRwBlock
  dsimp only
  split
  · split
    · exact hgiveUp _
    · split
      · exact hgiveUp _
      · split
        · exact hgiveUp _
        · apply (moves_setProc (s := s) (p := p) ?_ ?_).awake h
          · split <;> rfl
          · intro c' pc hproc _
            cases hproc
            exact .inl rfl
  · exact h

theorem Queues.Awake.step (h : s.Awake) {e : Event} (he : s.PlugOk k e) : (step k s e).Awake := by
  have hsame : ∀ s' : Queues, s'.procs = s.procs → s'.Awake := by
    intro s' hprocs
    unfold Queues.Awake
    rw [hprocs]
    exact h
  cases e with
  | llRwBlock p rw bhs cmd sector =>
    dsimp only [BlockRequest.step]
    split
    · exact h.llRwBlock rw bhs cmd sector
    · exact h
  | resume p => exact h.resume he
  | endRequest m uptodate done =>
    dsimp only [BlockRequest.step]
    split
    · exact h
    · exact hsame _ endRequest_procs
  | scsiTake m command =>
    dsimp only [BlockRequest.step]
    split
    · exact hsame _ scsiTake_bufs.2
    · exact h
  | scsiEnd command uptodate =>
    dsimp only [BlockRequest.step]
    split
    · exact hsame _ scsiEnd_procs
    · exact h
  | touch b dirt uptodate => exact h

/-! ## Runs -/

def PlugsOk (k : Setup) (s : Queues) : List Event → Prop
  | [] => True
  | e :: es => s.PlugOk k e ∧ PlugsOk k (step k s e) es

instance PlugsOk.decide (k : Setup) (s : Queues) : (es : List Event) → Decidable (PlugsOk k s es)
  | [] => .isTrue trivial
  | e :: es =>
    have := PlugsOk.decide k (step k s e) es
    inferInstanceAs (Decidable (s.PlugOk k e ∧ PlugsOk k (step k s e) es))

theorem Queues.Awake.run (h : s.Awake) {es : List Event} (hes : PlugsOk k s es) :
    (run k s es).Awake := by
  induction es generalizing s with
  | nil => exact h
  | cons e es ih => exact ih (h.step hes.1) hes.2

def pluggedRun : List Event :=
  [.llRwBlock 1 .read [some 0, some 1, some 2] 0 0, .resume 1, .resume 1, .resume 1]

/-- Process 2 writes as many blocks as there are entries for writes, and process 3 sleeps for an
entry, with its buffer locked.  The driver completes all requests.  Before process 3 runs again,
process 1 puts its plug into the empty queue; its second buffer is that of process 3. -/
def stuckRun : List Event :=
  ((List.range (maxReq .write)).map fun j => .touch (2 * j) true true) ++
    [.llRwBlock 2 .write ((List.range (maxReq .write)).map fun j => some (2 * j)) 0 0] ++
    List.replicate (2 * maxReq .write + 1) (.resume 2) ++
    [.touch 201 true true, .llRwBlock 3 .write [some 201] 0 0, .resume 3] ++
    List.replicate (maxReq .write) (.endRequest HD_MAJOR true 0) ++
    [.llRwBlock 1 .read [some 301, some 201] 0 0, .resume 1, .resume 1, .resume 1, .resume 3,
      .resume 3]

end LinuxKernel.BlockRequest
