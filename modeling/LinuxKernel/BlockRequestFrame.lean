import LinuxKernel.BlockRequestSteps

/-!
# What a process leaves alone

A process that goes through `make_request` changes requests only by merging, and the requests
that it may merge with leave out the head of the queue of an IDE driver.  A buffer that is in a
request stays locked, and no process takes it for its own.
-/

namespace LinuxKernel.BlockRequest

variable {k : Setup} {s s1 s' : Queues} {g g1 : Ghost} {p b i m : ℕ} {c : Call} {rw : Rw}
variable {rest : List (Option ℕ)}

def Queues.Apart (s : Queues) (i : ℕ) : Prop := ∀ m, .req i ∉ s.mergeList m

structure Frame (s s' : Queues) (g : Ghost) : Prop where
  head : ∀ m i rest, s.queue m = .req i :: rest → ∃ rest', s'.queue m = .req i :: rest'
  req : ∀ i, g.place i ≠ .free → s.Apart i → s'.reqs i = s.reqs i
  buf : ∀ b i, g.owner b = .entry i → s.Apart i →
    (s'.bufs b).reqnext = (s.bufs b).reqnext ∧ (s'.bufs b).cmd = (s.bufs b).cmd
  lock : ∀ b i, g.owner b = .entry i → (s'.bufs b).lock = (s.bufs b).lock
  holds : ∀ p b, (s'.procs p).holds = some b → ∀ i, g.owner b ≠ .entry i

theorem Inv.frame_refl (h : Inv k s g) : Frame s s g := by
  refine ⟨?_, ?_, ?_, ?_, ?_⟩
  · intro m i rest hq
    exact ⟨rest, hq⟩
  · intro i _ _
    rfl
  · intro b i _ _
    exact ⟨rfl, rfl⟩
  · intro b i _
    rfl
  · intro p b hb i
    rw [(h.holds p b).1 hb]
    simp

theorem mergeList_congr (hqueue : s1.queue = s.queue) (m : ℕ) : s1.mergeList m = s.mergeList m := by
  unfold Queues.mergeList
  rw [hqueue]

theorem Frame.of_start (h : Frame s1 s' g1) (hqueue : s1.queue = s.queue)
    (hreqs : s1.reqs = s.reqs) (hplace : g1.place = g.place)
    (howner : ∀ b i, g1.owner b = .entry i ↔ g.owner b = .entry i)
    (hbufs : ∀ b i, g.owner b = .entry i → (s1.bufs b).reqnext = (s.bufs b).reqnext ∧
      (s1.bufs b).cmd = (s.bufs b).cmd ∧ (s1.bufs b).lock = (s.bufs b).lock) :
    Frame s s' g := by
  have hapart : ∀ i, s1.Apart i ↔ s.Apart i := by
    intro i
    simp only [Queues.Apart, mergeList_congr hqueue]
  refine ⟨?_, ?_, ?_, ?_, ?_⟩
  · intro m i rest hq
    exact h.head m i rest (by rw [hqueue, hq])
  · intro i hi hi'
    rw [← hreqs]
    exact h.req i (by rwa [hplace]) ((hapart i).2 hi')
  · intro b i hb hi
    obtain ⟨hnext, hcmd⟩ := h.buf b i ((howner b i).2 hb) ((hapart i).2 hi)
    rw [hnext, hcmd]
    exact ⟨(hbufs b i hb).1, (hbufs b i hb).2.1⟩
  · intro b i hb
    rw [h.lock b i ((howner b i).2 hb)]
    exact (hbufs b i hb).2.2
  · intro p b hb i
    rw [Ne, ← howner]
    exact h.holds p b hb i

section
variable (h : Frame s s' g)
include h

theorem Frame.setProc {proc : Proc} (hholds : ∀ b, proc.holds = some b → ∀ i, g.owner b ≠ .entry i)
    : Frame s (s'.setProc p proc) g := by
  refine { h with holds := ?_ }
  intro p' b hb
  by_cases hp : p' = p
  · subst hp
    rw [setProc_self] at hb
    exact hholds b hb
  · rw [setProc_of_ne hp] at hb
    exact h.holds p' b hb

theorem Frame.nextBuffer : Frame s (s'.nextBuffer p c) g :=
  h.setProc fun b hb => by cases hb

theorem Frame.setReq {f : Request → Request} (hi : g.place i = .free ∨ ∃ m, .req i ∈ s.mergeList m)
    : Frame s (s'.setReq i f) g := by
  refine { h with req := ?_ }
  intro j hj hj'
  have hji : j ≠ i := by
    rintro rfl
    rcases hi with hi | ⟨m, hm⟩
    · exact hj hi
    · exact hj' m hm
  rw [setReq_of_ne hji]
  exact h.req j hj hj'

theorem Frame.setBuf {f : Buf → Buf} (hb : ∀ i, g.owner b = .entry i →
      (∃ m, .req i ∈ s.mergeList m) ∧ ∀ buf, (f buf).lock = buf.lock) :
    Frame s (s'.setBuf b f) g := by
  refine { h with buf := ?_, lock := ?_ }
  · intro d i hd hi
    have hdb : d ≠ b := by
      rintro rfl
      obtain ⟨⟨m, hm⟩, -⟩ := hb i hd
      exact hi m hm
    rw [setBuf_of_ne hdb]
    exact h.buf d i hd hi
  · intro d i hd
    by_cases hdb : d = b
    · subst hdb
      rw [setBuf_self, (hb i hd).2]
      exact h.lock d i hd
    · rw [setBuf_of_ne hdb]
      exact h.lock d i hd

theorem Frame.setFlags {f : Buf → Buf}
    (hf : ∀ buf, (f buf).lock = buf.lock ∧ (f buf).reqnext = buf.reqnext ∧ (f buf).cmd = buf.cmd) :
    Frame s (s'.setBuf b f) g := by
  refine { h with buf := ?_, lock := ?_ }
  · intro d i hd hi
    by_cases hdb : d = b
    · subst hdb
      rw [setBuf_self, (hf _).2.1, (hf _).2.2]
      exact h.buf d i hd hi
    · rw [setBuf_of_ne hdb]
      exact h.buf d i hd hi
  · intro d i hd
    by_cases hdb : d = b
    · subst hdb
      rw [setBuf_self, (hf _).1]
      exact h.lock d i hd
    · rw [setBuf_of_ne hdb]
      exact h.lock d i hd

theorem Frame.setFound (prevFound prevLimit : ℕ) :
    Frame s { s' with prevFound := prevFound, prevLimit := prevLimit } g :=
  { h with }

end

section
variable (h : Inv k s g)
include h

theorem Inv.frame_findRequest (hproc : s.procs p = .call c .waitRequest)
    (hbhs : c.bhs = some b :: rest) : Frame s (s.findRequest k p c b) g := by
  have hb : g.owner b = .proc p := by
    rw [← h.holds, hproc]
    simp [Proc.holds, hbhs]
  have hnot : ∀ i, g.owner b ≠ .entry i := by simp [hb]
  have hrefl := h.frame_refl
  unfold Queues.findRequest
  split
  · rename_i i hmerge
    obtain ⟨hmem, -⟩ := mergeWalk_append hmerge
    have hi : g.place i ≠ .free := by
      rw [(h.queue c.major i).1 (mem_queue_of_mergeList hmem)]
      simp
    have htail : g.owner (s.reqs i).bhtail = .entry i := by
      rw [← h.member i _ hi]
      exact List.mem_of_getLast? (h.request i hi).tail
    have hjoined := hrefl.setBuf (b := (s.reqs i).bhtail)
      (f := fun buf => { buf with reqnext := some b }) fun j hj => by
        rw [htail] at hj
        cases hj
        exact ⟨⟨_, hmem⟩, fun _ => rfl⟩
    have hgrown := hjoined.setReq (f := fun req =>
      { req with bhtail := b, nrSectors := req.nrSectors + (k.head b).count }) (.inr ⟨_, hmem⟩)
    have hadded := hgrown.setBuf (b := b)
      (f := fun buf => { buf with dirt := false, cmd := c.rw.rw }) fun i hi => absurd hi (hnot i)
    exact hadded.nextBuffer
  · rename_i i hmerge
    obtain ⟨hmem, -⟩ := mergeWalk_prepend hmerge
    have hadded := hrefl.setBuf (b := b)
      (f := fun buf => { buf with reqnext := (s.reqs i).bh, dirt := false, cmd := c.rw.rw })
      fun i hi => absurd hi (hnot i)
    have hgrown := hadded.setReq (f := fun req =>
      { req with
        nrSectors := req.nrSectors + (k.head b).count, buffer := b,
        currentNrSectors := (k.head b).count, sector := (k.head b).sector, bh := some b })
      (.inr ⟨_, hmem⟩)
    exact hgrown.nextBuffer
  · split
    · rename_i found limit hnone
      have hfound := hrefl.setFound found limit
      split
      · exact (hfound.setBuf fun i hi => absurd hi (hnot i)).nextBuffer
      · apply hfound.setProc
        intro d hd
        have hsame : (Proc.call c .waitRequest).holds = some b := by simp [Proc.holds, hbhs]
        obtain rfl : b = d := Option.some_inj.1 (hsame.symm.trans hd)
        exact hnot
    · rename_i i found limit hsome
      have hfree : g.place i = .free := by
        by_contra hne
        exact (h.active i).2 hne (getRequest_some hsome).1
      have hfilled := (hrefl.setFound found limit).setReq
        (f := fun _ => k.fresh c.rw.rw b) (.inl hfree)
      apply Frame.setProc
      · exact hfilled.setBuf fun i hi => absurd hi (hnot i)
      · intro d hd
        cases hd

theorem Inv.frame_lockBuffer {pc : Pc} (hproc : s.procs p = .call c pc)
    (hpc : pc = .ready ∨ pc = .waitLock) (hbhs : c.bhs = some b :: rest)
    (hb : (s.bufs b).lock = false) : Frame s (s.lockBuffer k p c b) g := by
  have hfree := h.owner_of_unlocked hb
  have hnot : ∀ i, g.owner b ≠ .entry i := by simp [hfree]
  unfold Queues.lockBuffer
  dsimp only
  split
  · exact (h.frame_refl.setBuf fun i hi => absurd hi (hnot i)).nextBuffer
  · have hheld := h.hold hb (p := p) (c := c) (by rw [hproc]; rcases hpc with rfl | rfl <;> rfl)
      (by rw [hproc]; rcases hpc with rfl | rfl <;> rfl) hbhs (by rw [hproc]; rfl)
    rw [← findRequest_setProc (.call c .waitRequest)]
    have hframe := hheld.frame_findRequest setProc_self hbhs
    refine hframe.of_start (g := g) rfl rfl rfl ?_ ?_
    · intro d i
      by_cases hd : d = b
      · subst hd
        simp [hfree]
      · simp [hd]
    · intro d i hd
      have hdb : d ≠ b := by
        rintro rfl
        exact hnot i hd
      rw [setProc_bufs, setBuf_of_ne hdb]
      exact ⟨rfl, rfl, rfl⟩

theorem Inv.frame_makeRequest (hproc : s.procs p = .call c .ready) (hbhs : c.bhs = some b :: rest) :
    Frame s (s.makeRequest k p c b) g := by
  unfold Queues.makeRequest
  split
  · exact h.frame_refl.nextBuffer
  · split
    · have hflags := h.frame_refl.setFlags (b := b)
        (f := fun buf => { buf with dirt := false, uptodate := false }) fun _ => ⟨rfl, rfl, rfl⟩
      exact hflags.nextBuffer
    · split
      · apply h.frame_refl.setProc
        intro d hd
        cases hd
      · rename_i hlock
        exact h.frame_lockBuffer hproc (.inl rfl) hbhs (by simpa using hlock)

omit h in
theorem Frame.setQueue (h : Frame s s' g) {q : List Node}
    (hq : ∀ i rest, s.queue m = .req i :: rest → ∃ rest', q = .req i :: rest') :
    Frame s (s'.setQueue m q) g := by
  refine { h with head := ?_ }
  intro m' i rest hqueue
  by_cases hm : m' = m
  · subst hm
    rw [setQueue_self]
    exact hq i rest hqueue
  · rw [setQueue_of_ne hm]
    exact h.head m' i rest hqueue

theorem Inv.frame_addRequest : Frame s (s.addRequest m i) g := by
  obtain ⟨s1, hs1, hframe, hqueue⟩ : ∃ s1 : Queues,
      s.addRequest m i = s1.setQueue m (s1.insertWalk (.req i) (s1.queue m)) ∧
        Frame s s1 g ∧ s1.queue = s.queue := by
    unfold Queues.addRequest
    cases (s.reqs i).bh with
    | none => exact ⟨s, rfl, h.frame_refl, rfl⟩
    | some b =>
      exact ⟨s.setBuf b fun buf => { buf with dirt := false }, rfl,
        h.frame_refl.setFlags fun _ => ⟨rfl, rfl, rfl⟩, rfl⟩
  rw [hs1]
  apply hframe.setQueue
  intro j rest hq
  have hhead : (s1.insertWalk (.req i) (s1.queue m)).head? = some (.req j) := by
    apply head?_insertWalk
    rw [hqueue, hq]
    rfl
  exact ⟨_, List.eq_cons_of_mem_head? hhead⟩

omit h in
theorem Frame.giveUp (h : Frame s s' g) (bhs : List (Option ℕ)) : Frame s (s'.giveUp bhs) g := by
  induction bhs generalizing s' with
  | nil => exact h
  | cons bh bhs ih =>
    cases bh with
    | none => exact ih h
    | some b => exact ih (h.setFlags fun _ => ⟨rfl, rfl, rfl⟩)

theorem Inv.frame_llRwBlock (rw : Cmd) (bhs : List (Option ℕ)) (cmd : ℤ) (sector : BitVec 32) :
    Frame s (s.llRwBlock k p rw bhs cmd sector) g := by
  unfold Queues.llRwBlock
  dsimp only
  split
  · split
    · exact h.frame_refl.giveUp _
    · split
      · exact h.frame_refl.giveUp _
      · split
        · exact h.frame_refl.giveUp _
        · refine Frame.setProc ?_ fun b hb => by cases hb
          split
          · rename_i hplugged
            simp only [Bool.and_eq_true, List.isEmpty_iff] at hplugged
            apply h.frame_refl.setQueue
            intro i rest hq
            rw [hplugged.1] at hq
            cases hq
          · exact h.frame_refl
  · exact h.frame_refl

theorem Inv.frame_unplug (hproc : s.procs p = .call c .ready) :
    Frame s ((if c.plugged then s.setQueue c.major (plugNext p (s.queue c.major)) else s).setProc p
      .idle) g := by
  refine Frame.setProc ?_ fun b hb => by cases hb
  split
  · rename_i hplugged
    obtain ⟨cmd, sector, rest, hplug⟩ := h.plug p c.major (by
      rw [hproc]
      simp [Proc.plug, hplugged])
    apply h.frame_refl.setQueue
    intro i rest' hq
    rw [hplug] at hq
    cases hq
  · exact h.frame_refl

theorem Inv.frame_resume (p : ℕ) : Frame s (s.resume k p) g := by
  unfold Queues.resume
  split
  · exact h.frame_refl
  · rename_i c pc hproc
    have hok := h.procs p
    rw [hproc] at hok
    split
    · rename_i hbhs
      obtain rfl : pc = .ready := hok.resolve_right (by simp [hbhs])
      exact h.frame_unplug hproc
    · exact h.frame_refl.nextBuffer
    · rename_i b bhs hbhs
      cases pc with
      | ready => exact h.frame_makeRequest hproc hbhs
      | waitLock =>
        dsimp only
        split
        · exact h.frame_refl
        · rename_i hlock
          exact h.frame_lockBuffer hproc (.inr rfl) hbhs (by simpa using hlock)
      | waitRequest => exact h.frame_findRequest hproc hbhs
      | adding i => exact h.frame_addRequest.nextBuffer

end

end LinuxKernel.BlockRequest
