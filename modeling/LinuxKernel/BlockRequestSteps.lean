import LinuxKernel.BlockRequestInvariant

/-!
# The steps of processes

Each step of a process keeps the invariant, with a ghost state of its own.
-/

namespace LinuxKernel.BlockRequest
open Function List

open LinkChain

variable {k : Setup} {s : Queues} {g : Ghost} {p b i m : ℕ} {c : Call} {rw : Rw}
variable {rest : List (Option ℕ)}

/-! ## Merging -/

variable {l : List Node}

theorem mergeWalk_append (h : s.mergeWalk k rw b l = some (.append i)) :
    .req i ∈ l ∧ (s.reqs i).appends k rw b = true := by
  induction l with
  | nil => cases h
  | cons node l ih =>
    cases node with
    | plug owner cmd sector =>
      obtain ⟨hmem, happends⟩ := ih h
      exact ⟨mem_cons_of_mem _ hmem, happends⟩
    | req j =>
      unfold Queues.mergeWalk at h
      split at h
      · rename_i happends
        cases h
        exact ⟨mem_cons_self, happends⟩
      · split at h
        · cases h
        · obtain ⟨hmem, happends⟩ := ih h
          exact ⟨mem_cons_of_mem _ hmem, happends⟩

theorem mergeWalk_prepend (h : s.mergeWalk k rw b l = some (.prepend i)) :
    .req i ∈ l ∧ (s.reqs i).prepends k rw b = true := by
  induction l with
  | nil => cases h
  | cons node l ih =>
    cases node with
    | plug owner cmd sector =>
      obtain ⟨hmem, hprepends⟩ := ih h
      exact ⟨mem_cons_of_mem _ hmem, hprepends⟩
    | req j =>
      unfold Queues.mergeWalk at h
      split at h
      · cases h
      · split at h
        · rename_i hprepends
          cases h
          exact ⟨mem_cons_self, hprepends⟩
        · obtain ⟨hmem, hprepends⟩ := ih h
          exact ⟨mem_cons_of_mem _ hmem, hprepends⟩

variable {node : Node}

theorem mem_queue_of_mergeList (h : node ∈ s.mergeList m) : node ∈ s.queue m := by
  unfold Queues.mergeList at h
  split at h
  · exact mem_of_mem_tail h
  · split at h
    · exact h
    · cases h

theorem nextBuffer_ok (hproc : s.procs p = .call c .waitRequest) :
    (Proc.call { c with bhs := c.bhs.tail } .ready).holds = none ∧
      (Proc.call { c with bhs := c.bhs.tail } .ready).adds = none ∧
        (Proc.call { c with bhs := c.bhs.tail } .ready).Ok ∧
          ∀ m, (Proc.call { c with bhs := c.bhs.tail } .ready).plug = some m →
            (s.procs p).plug = some m := by
  refine ⟨rfl, rfl, .inl rfl, ?_⟩
  intro m hm
  rw [hproc]
  exact hm

section
variable (h : Inv k s g) (hproc : s.procs p = .call c .waitRequest) (hbhs : c.bhs = some b :: rest)
include h hproc hbhs

theorem Inv.append (hmerge : s.mergeWalk k rw b (s.mergeList m) = some (.append i)) :
    ∃ g', Inv k ((s.append k rw b i).nextBuffer p c) g' := by
  obtain ⟨hmem, happends⟩ := mergeWalk_append hmerge
  have hplace := (h.queue m i).1 (mem_queue_of_mergeList hmem)
  have hi : g.place i ≠ .free := by simp [hplace]
  have hb : g.owner b = .proc p := by
    rw [← h.holds, hproc]
    simp [Proc.holds, hbhs]
  have hreq := h.request i hi
  simp only [Request.appends, Bool.and_eq_true, decide_eq_true_eq, Bool.not_eq_true'] at happends
  obtain ⟨⟨⟨⟨hdev, -⟩, hcmd⟩, hsector⟩, -⟩ := happends
  have hnot : b ∉ g.chain i := by
    rw [h.member i b hi, hb]
    simp
  have htail : (s.reqs i).bhtail ∈ g.chain i := mem_of_getLast? hreq.tail
  have hne : (s.reqs i).bhtail ≠ b := fun heq => hnot (heq ▸ htail)
  have hloose : (s.bufs b).reqnext = none := h.loose b (by simp [hb])
  obtain ⟨hholds, hadds, hok, hplug⟩ := nextBuffer_ok hproc
  have hbufTail : ((s.append k rw b i).nextBuffer p c).bufs (s.reqs i).bhtail =
      { s.bufs (s.reqs i).bhtail with reqnext := some b } := by
    simp [Queues.append, Queues.nextBuffer, setBuf_of_ne hne]
  have hbufNew : ((s.append k rw b i).nextBuffer p c).bufs b =
      { s.bufs b with dirt := false, cmd := rw } := by
    simp [Queues.append, Queues.nextBuffer, setBuf_of_ne hne.symm]
  have hbufOther : ∀ d, d ≠ (s.reqs i).bhtail → d ≠ b →
      ((s.append k rw b i).nextBuffer p c).bufs d = s.bufs d := by
    intro d hd hdb
    simp [Queues.append, Queues.nextBuffer, setBuf_of_ne hd, setBuf_of_ne hdb]
  refine ⟨_, h.give hb (l := g.chain i ++ [b]) (Filled.kept hi hadds) ?_ ?_ ?_ ?_ ?_ rfl rfl
    hholds hok hplug⟩
  · intro d hd
    rw [mem_append, mem_singleton, not_or] at hd
    exact hbufOther d (fun heq => hd.1 (heq ▸ htail)) hd.2
  · intro d
    by_cases hd : d = (s.reqs i).bhtail
    · rw [hd, hbufTail]
    · by_cases hdb : d = b
      · rw [hdb, hbufNew]
      · rw [hbufOther d hd hdb]
  · intro j hj
    simp [Queues.append, Queues.nextBuffer, setReq_of_ne hj]
  · have hsame : ((s.append k rw b i).nextBuffer p c).reqs i =
        { s.reqs i with bhtail := b, nrSectors := (s.reqs i).nrSectors + (k.head b).count } := by
      simp [Queues.append, Queues.nextBuffer]
    rw [hsame]
    apply hreq.append hnot hdev hsector
    · rw [hbufTail]
      exact ⟨rfl, rfl⟩
    · rw [hbufNew]
      exact ⟨hloose, hcmd.symm⟩
    · intro d hd hdt
      exact hbufOther d hdt fun hdb => hnot (hdb ▸ hd)
  · intro d
    rw [mem_append, mem_singleton, h.member i d hi]

theorem Inv.prepend (hmerge : s.mergeWalk k rw b (s.mergeList m) = some (.prepend i)) :
    ∃ g', Inv k ((s.prepend k rw b i).nextBuffer p c) g' := by
  obtain ⟨hmem, hprepends⟩ := mergeWalk_prepend hmerge
  have hplace := (h.queue m i).1 (mem_queue_of_mergeList hmem)
  have hi : g.place i ≠ .free := by simp [hplace]
  have hb : g.owner b = .proc p := by
    rw [← h.holds, hproc]
    simp [Proc.holds, hbhs]
  have hreq := h.request i hi
  simp only [Request.prepends, Bool.and_eq_true, decide_eq_true_eq, Bool.not_eq_true'] at hprepends
  obtain ⟨⟨⟨⟨hdev, -⟩, hcmd⟩, hsector⟩, -⟩ := hprepends
  have hnot : b ∉ g.chain i := by
    rw [h.member i b hi, hb]
    simp
  obtain ⟨hholds, hadds, hok, hplug⟩ := nextBuffer_ok hproc
  have hbufNew : ((s.prepend k rw b i).nextBuffer p c).bufs b =
      { s.bufs b with reqnext := (s.reqs i).bh, dirt := false, cmd := rw } := by
    simp [Queues.prepend, Queues.nextBuffer]
  have hbufOther : ∀ d, d ≠ b → ((s.prepend k rw b i).nextBuffer p c).bufs d = s.bufs d := by
    intro d hdb
    simp [Queues.prepend, Queues.nextBuffer, setBuf_of_ne hdb]
  refine ⟨_, h.give hb (l := b :: g.chain i) (Filled.kept hi hadds) ?_ ?_ ?_ ?_ ?_ rfl rfl
    hholds hok hplug⟩
  · intro d hd
    rw [mem_cons, not_or] at hd
    exact hbufOther d hd.1
  · intro d
    by_cases hdb : d = b
    · rw [hdb, hbufNew]
    · rw [hbufOther d hdb]
  · intro j hj
    simp [Queues.prepend, Queues.nextBuffer, setReq_of_ne hj]
  · have hsame : ((s.prepend k rw b i).nextBuffer p c).reqs i =
        { s.reqs i with
          nrSectors := (s.reqs i).nrSectors + (k.head b).count, buffer := b,
          currentNrSectors := (k.head b).count, sector := (k.head b).sector, bh := some b } := by
      simp [Queues.prepend, Queues.nextBuffer]
    rw [hsame]
    apply hreq.prepend hdev hsector
    · rw [hbufNew]
      exact ⟨rfl, hcmd.symm⟩
    · intro d hd
      exact hbufOther d fun hdb => hnot (hdb ▸ hd)
  · intro d
    rw [mem_cons, h.member i d hi, or_comm]

omit h hproc hbhs in
theorem getRequest_some {n found limit : ℕ} (h : s.getRequest n = (some i, found, limit)) :
    (s.reqs i).dev = none ∧ i < n := by
  unfold Queues.getRequest at h
  dsimp only at h
  split at h
  · cases h
  · rename_i j hfind
    cases h
    have hfree := List.find?_some hfind
    have hmem := mem_of_find?_eq_some hfind
    obtain ⟨r, hr, rfl⟩ := mem_map.1 hmem
    have hpos : 0 < n := by
      have := mem_range.1 hr
      omega
    exact ⟨by simpa using hfree, Nat.mod_lt _ hpos⟩

omit h hproc hbhs in
theorem maxReq_le (rw : Rw) : maxReq rw ≤ NR_REQUEST := by
  cases rw <;> decide

theorem Inv.fill (hdev : (s.reqs i).dev = none) (hlt : i < NR_REQUEST) :
    ∃ g', Inv k (((s.setReq i fun _ => k.fresh rw b).setBuf b
      fun buf => { buf with cmd := rw }).setProc p (.call c (.adding i))) g' := by
  have hfree : g.place i = .free := by
    by_contra hne
    exact (h.active i).2 hne hdev
  have hb : g.owner b = .proc p := by
    rw [← h.holds, hproc]
    simp [Proc.holds, hbhs]
  have hloose : (s.bufs b).reqnext = none := h.loose b (by simp [hb])
  have hbufNew : (((s.setReq i fun _ => k.fresh rw b).setBuf b
      fun buf => { buf with cmd := rw }).setProc p (.call c (.adding i))).bufs b =
        { s.bufs b with cmd := rw } := by
    simp
  have hbufOther : ∀ d, d ≠ b → (((s.setReq i fun _ => k.fresh rw b).setBuf b
      fun buf => { buf with cmd := rw }).setProc p (.call c (.adding i))).bufs d = s.bufs d := by
    intro d hd
    simp [setBuf_of_ne hd]
  have hplace : Filled p i (.call c (.adding i)) (g.place i) (.adding p) := by
    rw [hfree]
    exact Filled.taken hlt rfl
  refine ⟨_, h.give hb (l := [b]) hplace ?_ ?_ ?_ ?_ ?_ rfl rfl rfl (.inr ⟨b, rest, hbhs⟩) ?_⟩
  · intro d hd
    exact hbufOther d fun heq => hd (mem_singleton.2 heq)
  · intro d
    by_cases hd : d = b
    · rw [hd, hbufNew]
    · rw [hbufOther d hd]
  · intro j hj
    simp [setReq_of_ne hj]
  · have hsame : (((s.setReq i fun _ => k.fresh rw b).setBuf b
        fun buf => { buf with cmd := rw }).setProc p (.call c (.adding i))).reqs i =
          k.fresh rw b := by
      simp
    rw [hsame]
    apply fresh_requestOk
    · rw [hbufNew]
      exact hloose
    · rw [hbufNew]
  · intro d
    have hnot : g.owner d ≠ .entry i := fun hown => h.inUse d i hown hfree
    simp [hnot]
  · intro m hm
    rw [hproc]
    exact hm

theorem Inv.findRequest : ∃ g', Inv k (s.findRequest k p c b) g' := by
  unfold Queues.findRequest
  split
  · rename_i i hmerge
    exact h.append hproc hbhs hmerge
  · rename_i i hmerge
    exact h.prepend hproc hbhs hmerge
  · split
    · rename_i found limit hnone
      have hfound := h.setFound found limit
      split
      · have hb : g.owner b = .proc p := by
          rw [← h.holds, hproc]
          simp [Proc.holds, hbhs]
        obtain ⟨hholds, hadds, hok, hplug⟩ := nextBuffer_ok hproc
        refine ⟨_, hfound.unhold hb hholds ?_ hok hplug⟩
        simp [hproc, Proc.adds]
      · have hsame : (Proc.call c .waitRequest) = s.procs p := hproc.symm
        exact ⟨_, hfound.setProc (congrArg Proc.holds hsame) (congrArg Proc.adds hsame)
          (.inr ⟨b, rest, hbhs⟩) fun m hm => by rwa [hsame] at hm⟩
    · rename_i i found limit hsome
      obtain ⟨hdev, hlt⟩ := getRequest_some hsome
      exact (h.setFound found limit).fill hproc hbhs hdev (hlt.trans_le (maxReq_le _))

end

/-! ## `make_request` -/

theorem mergeWalk_setProc {proc : Proc} :
    (s.setProc p proc).mergeWalk k rw b l = s.mergeWalk k rw b l := by
  induction l with
  | nil => rfl
  | cons node l ih =>
    cases node with
    | plug owner cmd sector => exact ih
    | req j =>
      unfold Queues.mergeWalk
      rw [ih]
      rfl

theorem setProc_setProc {proc proc' : Proc} :
    (s.setProc p proc).setProc p proc' = s.setProc p proc' := by
  unfold Queues.setProc
  simp

theorem findRequest_setProc (proc : Proc) :
    (s.setProc p proc).findRequest k p c b = s.findRequest k p c b := by
  have hget : ∀ n, (s.setProc p proc).getRequest n = s.getRequest n := fun _ => rfl
  have hlist : (s.setProc p proc).mergeList c.major = s.mergeList c.major := rfl
  unfold Queues.findRequest
  rw [mergeWalk_setProc, hlist, hget]
  split
  · exact setProc_setProc (s := s.append k c.rw.rw b _)
  · exact setProc_setProc (s := s.prepend k c.rw.rw b _)
  · split
    · rename_i found limit _
      split
      · exact setProc_setProc
          (s := unlockBuffer { s with prevFound := found, prevLimit := limit } b)
      · exact setProc_setProc (s := { s with prevFound := found, prevLimit := limit })
    · rename_i i found limit _
      exact setProc_setProc (s := ({ s with prevFound := found, prevLimit := limit }.setReq i
        fun _ => k.fresh c.rw.rw b).setBuf b fun buf => { buf with cmd := c.rw.rw })

section
variable {pc : Pc} (h : Inv k s g) (hproc : s.procs p = .call c pc)
  (hpc : pc = .ready ∨ pc = .waitLock)
include h hproc hpc

theorem Inv.nextBuffer : Inv k (s.nextBuffer p c) g := by
  apply h.setProc
  · rw [hproc]
    rcases hpc with rfl | rfl <;> rfl
  · rw [hproc]
    rcases hpc with rfl | rfl <;> rfl
  · exact .inl rfl
  · intro m hm
    rw [hproc]
    exact hm

theorem Inv.lockBuffer (hbhs : c.bhs = some b :: rest) (hb : (s.bufs b).lock = false) :
    ∃ g', Inv k (s.lockBuffer k p c b) g' := by
  unfold Queues.lockBuffer
  dsimp only
  split
  · -- the lock is taken and given back at once
    have hbufs : update s.bufs b { s.bufs b with lock := false } = s.bufs := by
      rw [Function.update_eq_self_iff, ← hb]
    have hsame : unlockBuffer s b = s := by
      change ({ s with bufs := update s.bufs b { s.bufs b with lock := false } } : Queues) = s
      rw [hbufs]
    rw [hsame]
    exact ⟨g, h.nextBuffer hproc hpc⟩
  · have hheld := h.hold hb (p := p) (c := c) (by rw [hproc]; rcases hpc with rfl | rfl <;> rfl)
      (by rw [hproc]; rcases hpc with rfl | rfl <;> rfl) hbhs (by rw [hproc]; rfl)
    rw [← findRequest_setProc (.call c .waitRequest)]
    exact hheld.findRequest setProc_self hbhs

end

theorem Inv.makeRequest (h : Inv k s g) (hproc : s.procs p = .call c .ready)
    (hbhs : c.bhs = some b :: rest) : ∃ g', Inv k (s.makeRequest k p c b) g' := by
  unfold Queues.makeRequest
  split
  · exact ⟨g, h.nextBuffer hproc (.inl rfl)⟩
  · split
    · have hflags := h.setFlags (b := b)
        (f := fun buf => { buf with dirt := false, uptodate := false }) fun _ => ⟨rfl, rfl, rfl⟩
      exact ⟨g, hflags.nextBuffer hproc (.inl rfl)⟩
    · split
      · refine ⟨g, h.setProc ?_ ?_ (.inr ⟨b, rest, hbhs⟩) ?_⟩
        · rw [hproc]
          rfl
        · rw [hproc]
          rfl
        · intro m hm
          rw [hproc]
          exact hm
      · rename_i hlock
        exact h.lockBuffer hproc (.inl rfl) hbhs (by simpa using hlock)

variable {q : List Node}

theorem mem_insertWalk {x : Node} : x ∈ s.insertWalk node q ↔ x = node ∨ x ∈ q := by
  induction q with
  | nil => simp [Queues.insertWalk]
  | cons tmp q ih =>
    cases q with
    | nil => simp [Queues.insertWalk, or_comm]
    | cons after q =>
      unfold Queues.insertWalk
      split
      · simp only [mem_cons]
        tauto
      · simp only [mem_cons] at ih ⊢
        tauto

theorem nodup_insertWalk (hq : q.Nodup) (hnode : node ∉ q) : (s.insertWalk node q).Nodup := by
  induction q with
  | nil => simp [Queues.insertWalk]
  | cons tmp q ih =>
    obtain ⟨htmp, hq'⟩ := nodup_cons.1 hq
    rw [mem_cons, not_or] at hnode
    cases q with
    | nil => simpa [Queues.insertWalk] using Ne.symm hnode.1
    | cons after q =>
      unfold Queues.insertWalk
      split
      · refine nodup_cons.2 ⟨?_, nodup_cons.2 ⟨hnode.2, hq'⟩⟩
        rw [mem_cons, not_or]
        exact ⟨Ne.symm hnode.1, htmp⟩
      · refine nodup_cons.2 ⟨?_, ih hq' hnode.2⟩
        rw [mem_insertWalk, not_or]
        exact ⟨Ne.symm hnode.1, htmp⟩

theorem head?_insertWalk {head : Node} (hq : q.head? = some head) :
    (s.insertWalk node q).head? = some head := by
  cases q with
  | nil => cases hq
  | cons tmp q =>
    cases q with
    | nil => exact hq
    | cons after q =>
      unfold Queues.insertWalk
      split
      · exact hq
      · exact hq

section
variable (h : Inv k s g)
include h

theorem Inv.addRequest (hproc : s.procs p = .call c (.adding i)) :
    ∃ g', Inv k ((s.addRequest m i).nextBuffer p c) g' := by
  have hplace : g.place i = .adding p := by
    rw [← h.adding, hproc]
    rfl
  have hlt : i < NR_REQUEST := by
    by_contra hge
    have := h.command i (by omega)
    rw [hplace] at this
    simp at this
  -- the buffer is clean now
  obtain ⟨s1, hs1, hinv, hqueue, hprocs⟩ : ∃ s1 : Queues,
      s.addRequest m i = s1.setQueue m (s1.insertWalk (.req i) (s1.queue m)) ∧ Inv k s1 g ∧
        s1.queue = s.queue ∧ s1.procs = s.procs := by
    unfold Queues.addRequest
    cases (s.reqs i).bh with
    | none => exact ⟨s, rfl, h, rfl, rfl⟩
    | some b =>
      exact ⟨s.setBuf b fun buf => { buf with dirt := false }, rfl,
        h.setFlags fun _ => ⟨rfl, rfl, rfl⟩, rfl, rfl⟩
  rw [hs1]
  have hnot : ∀ m', .req i ∉ s1.queue m' := by
    intro m'
    rw [hinv.queue, hplace]
    simp
  have hmoved := hinv.replace (p := p) (i := i)
    (update s1.queue m (s1.insertWalk (.req i) (s1.queue m))) (.queue m)
    (.call { c with bhs := c.bhs.tail } .ready) (by simp [hplace]) (by simp) hlt
    (by rw [hprocs, hproc]; rfl) (.inl rfl) ?_ ?_ ?_ ?_
  · exact ⟨_, hmoved⟩
  · apply hinv.adding_move
    · intro j
      by_cases hj : j = i
      · subst hj
        simp [Proc.adds]
      · rw [update_of_ne hj, ← hinv.adding, hprocs, hproc]
        simp [Proc.adds, Ne.symm hj]
    · intro p' hp j
      by_cases hj : j = i
      · subst hj
        simp [hplace, Ne.symm hp]
      · rw [update_of_ne hj]
  · intro m' j
    by_cases hm : m' = m
    · subst hm
      rw [update_self, mem_insertWalk, hinv.queue]
      by_cases hj : j = i
      · subst hj
        simp
      · simp [hj]
    · rw [update_of_ne hm, hinv.queue]
      by_cases hj : j = i
      · subst hj
        simp [hplace, Ne.symm hm]
      · rw [update_of_ne hj]
  · intro m'
    by_cases hm : m' = m
    · subst hm
      rw [update_self]
      exact nodup_insertWalk (hinv.nodup m') (hnot m')
    · rw [update_of_ne hm]
      exact hinv.nodup m'
  · intro p' m' hp'
    have hkept : ∀ m, (Proc.call { c with bhs := c.bhs.tail } .ready).plug = some m →
        (s1.procs p).plug = some m := by
      intro m hm
      rw [hprocs, hproc]
      exact hm
    obtain ⟨cmd, sector, rest, hq⟩ := hinv.plug_move hkept p' m' hp'
    by_cases hm : m' = m
    · subst hm
      rw [update_self]
      have hhead : (s1.insertWalk (.req i) (s1.queue m')).head? = some (.plug p' cmd sector) := by
        apply head?_insertWalk
        rw [hq]
        rfl
      exact ⟨cmd, sector, _, eq_cons_of_mem_head? hhead⟩
    · rw [update_of_ne hm]
      exact ⟨cmd, sector, rest, hq⟩

theorem Inv.setQueue (hmem : ∀ j, .req j ∈ q ↔ .req j ∈ s.queue m) (hnodup : q.Nodup)
    (hplug : ∀ p, (s.procs p).plug = some m → ∃ cmd sector rest, q = .plug p cmd sector :: rest) :
    Inv k (s.setQueue m q) g := by
  refine { h with queue := ?_, nodup := ?_, plug := ?_ }
  · intro m' j
    by_cases hm : m' = m
    · subst hm
      rw [setQueue_self, hmem]
      exact h.queue m' j
    · rw [setQueue_of_ne hm]
      exact h.queue m' j
  · intro m'
    by_cases hm : m' = m
    · subst hm
      rwa [setQueue_self]
    · rw [setQueue_of_ne hm]
      exact h.nodup m'
  · intro p m' hp
    by_cases hm : m' = m
    · subst hm
      rw [setQueue_self]
      exact hplug p hp
    · rw [setQueue_of_ne hm]
      exact h.plug p m' hp

theorem Inv.giveUp (bhs : List (Option ℕ)) : Inv k (s.giveUp bhs) g := by
  induction bhs generalizing s with
  | nil => exact h
  | cons bh bhs ih =>
    cases bh with
    | none => exact ih h
    | some b => exact ih (h.setFlags fun _ => ⟨rfl, rfl, rfl⟩)

theorem Inv.enter (hproc : s.procs p = .idle)
    (hplug : ∀ m, (Proc.call c .ready).plug = some m → ∃ cmd sector rest,
      s.queue m = .plug p cmd sector :: rest) : Inv k (s.setProc p (.call c .ready)) g := by
  refine
    { h with
      holds := h.holds_move (fun d => ?_) fun _ _ _ => Iff.rfl
      adding := h.adding_move (fun i => ?_) fun _ _ _ => Iff.rfl
      procs := h.procs_move (.inl rfl)
      plug := ?_ }
  · rw [← h.holds, hproc]
    rfl
  · rw [← h.adding, hproc]
    rfl
  · intro p' m hm
    by_cases hp : p' = p
    · subst hp
      rw [setProc_self] at hm
      exact hplug m hm
    · rw [setProc_of_ne hp] at hm
      exact h.plug p' m hm

theorem Inv.llRwBlock (hproc : s.procs p = .idle) (rw : Cmd) (bhs : List (Option ℕ)) (cmd : ℤ)
    (sector : BitVec 32) : ∃ g', Inv k (s.llRwBlock k p rw bhs cmd sector) g' := by
  unfold Queues.llRwBlock
  dsimp only
  split
  · rename_i first _
    split
    · exact ⟨g, h.giveUp _⟩
    · split
      · exact ⟨g, h.giveUp _⟩
      · split
        · exact ⟨g, h.giveUp _⟩
        · refine ⟨g, ?_⟩
          split
          · rename_i hplugged
            simp only [Bool.and_eq_true, List.isEmpty_iff] at hplugged
            have hnone : ∀ p', (s.procs p').plug ≠ some (major (k.head first).bDev) := by
              intro p' hp'
              obtain ⟨cmd', sector', rest, hq⟩ := h.plug p' _ hp'
              rw [hplugged.1] at hq
              cases hq
            have hqueue : Inv k (s.setQueue (major (k.head first).bDev)
                [.plug p cmd sector]) g := by
              apply h.setQueue
              · intro j
                simp [hplugged.1]
              · simp
              · intro p' hp'
                exact absurd hp' (hnone p')
            apply hqueue.enter hproc
            intro m hm
            simp only [Proc.plug, hplugged.1, hplugged.2, isEmpty_nil, Bool.and_self,
              if_true, Option.some_inj] at hm
            subst hm
            exact ⟨cmd, sector, [], setQueue_self⟩
          · rename_i hplugged
            apply h.enter hproc
            intro m hm
            simp only [Proc.plug, hplugged] at hm
            cases hm
  · exact ⟨g, h⟩

theorem Inv.unplug (hproc : s.procs p = .call c .ready) :
    Inv k ((if c.plugged then s.setQueue c.major (plugNext p (s.queue c.major)) else s).setProc p
      .idle) g := by
  have hidle : Inv k (s.setProc p .idle) g := by
    apply h.setProc
    · rw [hproc]
      rfl
    · rw [hproc]
      rfl
    · trivial
    · intro m hm
      cases hm
  split
  · rename_i hplugged
    obtain ⟨cmd, sector, rest, hq⟩ := h.plug p c.major (by
      rw [hproc]
      simp [Proc.plug, hplugged])
    have hnext : plugNext p (s.queue c.major) = rest := by
      rw [hq]
      simp [plugNext]
    rw [hnext]
    apply hidle.setQueue
    · intro j
      rw [setProc_queue, hq]
      simp
    · have hnodup := h.nodup c.major
      rw [hq] at hnodup
      exact (nodup_cons.1 hnodup).2
    · intro p' hp'
      have hne : p' ≠ p := by
        rintro rfl
        rw [setProc_self] at hp'
        cases hp'
      rw [setProc_of_ne hne] at hp'
      obtain ⟨cmd', sector', rest', hq'⟩ := h.plug p' _ hp'
      rw [hq] at hq'
      cases hq'
      exact absurd rfl hne
  · exact hidle

theorem Inv.resume (p : ℕ) : ∃ g', Inv k (s.resume k p) g' := by
  unfold Queues.resume
  split
  · exact ⟨g, h⟩
  · rename_i c pc hproc
    have hok := h.procs p
    rw [hproc] at hok
    have hready : ∀ bhs : List (Option ℕ), c.bhs = bhs → (∀ b rest, bhs ≠ some b :: rest) →
        pc = .ready := by
      intro bhs hbhs hnone
      rcases hok with hpc | ⟨b, rest, hbhs'⟩
      · exact hpc
      · exact absurd (hbhs.symm.trans hbhs') (hnone b rest)
    split
    · rename_i hbhs
      obtain rfl := hready _ hbhs (by simp)
      exact ⟨g, h.unplug hproc⟩
    · rename_i bhs hbhs
      obtain rfl := hready _ hbhs (by simp)
      exact ⟨g, h.nextBuffer hproc (.inl rfl)⟩
    · rename_i b bhs hbhs
      cases pc with
      | ready => exact h.makeRequest hproc hbhs
      | waitLock =>
        dsimp only
        split
        · exact ⟨g, h⟩
        · rename_i hlock
          exact h.lockBuffer hproc (.inr rfl) hbhs (by simpa using hlock)
      | waitRequest => exact h.findRequest hproc hbhs
      | adding i => exact h.addRequest hproc

end

end LinuxKernel.BlockRequest
