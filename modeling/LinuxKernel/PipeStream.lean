import LinuxKernel.PipeModel

/-!
# The bytes of a pipe

Whoever copies holds the lock, and nobody else copies.  The bytes copied in are then the
bytes returned, those a reader has taken and not yet returned, and those between
`PIPE_START` and the last byte copied in.
-/

namespace LinuxKernel.Pipe
open Function List

variable {got : List UInt8}

variable {phase : Phase}

open RingBuffer

section

variable {Task : Type} {p : PipeInode Task} {t : Task}

theorem unsigned_of_lt {z : ℤ} {n : ℕ} (heq : z = n) (hn : n < 4294967296) : unsigned z = n := by
  unfold unsigned
  omega

def Phase.Copying : Phase → Prop
  | .reading .. => True
  | .writing .. => True
  | _ => False

def CopyOk (p : PipeInode Task) : Phase → Prop
  | .reading _ pipebuf chars _ got =>
    p.start = (pipebuf + chars) % pipeBuf ∧ pipebuf + chars ≤ pipeBuf ∧
      chars + p.len ≤ pipeBuf ∧
      p.bytes = p.returned ++ got ++ window pipeBuf p.page pipebuf (chars + p.len)
  | .writing _ pipebuf chars rest _ =>
    pipebuf % pipeBuf = (p.start + (p.len - chars)) % pipeBuf ∧ pipebuf + chars ≤ pipeBuf ∧
      chars ≤ p.len ∧ chars ≤ rest.length ∧
      p.bytes = p.returned ++ window pipeBuf p.page p.start (p.len - chars)
  | _ => True

structure BufferOk (p : PipeInode Task) : Prop where
  start_lt : p.start < pipeBuf
  len_le : p.len ≤ pipeBuf
  locked : ∀ t, (p.phase t).Copying → p.lock = 1
  alone : ∀ t u, (p.phase t).Copying → (p.phase u).Copying → u = t
  copy : ∀ t, CopyOk p (p.phase t)
  settled : (∀ t, ¬(p.phase t).Copying) →
    p.lock = 0 ∧ p.bytes = p.returned ++ window pipeBuf p.page p.start p.len

/-- `t` holds the lock between two chunks, with `got` in its caller's buffer. -/
structure Held (p : PipeInode Task) (t : Task) (got : List UInt8) : Prop where
  start_lt : p.start < pipeBuf
  len_le : p.len ≤ pipeBuf
  lock : p.lock = 1
  others : ∀ u, u ≠ t → ¬(p.phase u).Copying
  bytes : p.bytes = p.returned ++ got ++ window pipeBuf p.page p.start p.len

theorem CopyOk.of_not_copying (h : ¬phase.Copying) (p : PipeInode Task) : CopyOk p phase := by
  cases phase <;> simp_all [CopyOk, Phase.Copying]

theorem CopyOk.congr {q : PipeInode Task} (h : CopyOk p phase)
    (hpage : q.page = p.page) (hstart : q.start = p.start) (hlen : q.len = p.len)
    (hbytes : q.bytes = p.bytes) (hreturned : q.returned = p.returned) : CopyOk q phase := by
  cases phase <;> simp_all [CopyOk]

theorem free_eq (h : p.len ≤ pipeBuf) : p.free = pipeBuf - p.len := by
  refine unsigned_of_lt ?_ ?_
  · rw [Nat.cast_sub h]
  · unfold pipeBuf
    omega

theorem pipeEnd_eq (hstart : p.start < pipeBuf) (hlen : p.len ≤ pipeBuf) :
    p.pipeEnd = (p.start + p.len) % pipeBuf := by
  unfold pipeBuf at hstart hlen
  unfold PipeInode.pipeEnd
  rw [unsigned_of_lt (by push_cast; rfl) (by omega : p.start + p.len < _)]

theorem maxRchunk_eq (hstart : p.start < pipeBuf) : p.maxRchunk = pipeBuf - p.start := by
  refine unsigned_of_lt ?_ ?_
  · rw [Nat.cast_sub hstart.le]
  · unfold pipeBuf
    omega

theorem maxWchunk_eq (p : PipeInode Task) : p.maxWchunk = pipeBuf - p.pipeEnd := by
  have hend : p.pipeEnd < pipeBuf := Nat.mod_lt _ (by decide)
  refine unsigned_of_lt ?_ ?_
  · rw [Nat.cast_sub hend.le]
  · unfold pipeBuf
    omega

section
variable (h : BufferOk p)
include h

theorem BufferOk.congr {q : PipeInode Task} (hpage : q.page = p.page) (hstart : q.start = p.start)
    (hlen : q.len = p.len) (hlock : q.lock = p.lock) (hphase : q.phase = p.phase)
    (hbytes : q.bytes = p.bytes) (hreturned : q.returned = p.returned) : BufferOk q := by
  obtain ⟨h1, h2, h3, h4, h5, h6⟩ := h
  refine ⟨?_, ?_, ?_, ?_, ?_, ?_⟩
  · rwa [hstart]
  · rwa [hlen]
  · rwa [hphase, hlock]
  · rwa [hphase]
  · intro u
    rw [hphase]
    exact (h5 u).congr hpage hstart hlen hbytes hreturned
  · rwa [hphase, hlock, hbytes, hreturned, hpage, hstart, hlen]

omit h in
theorem BufferOk.of_copying (hlock : p.lock = 1)
    (hothers : ∀ u, u ≠ t → ¬(p.phase u).Copying) (ht : (p.phase t).Copying)
    (hstart : p.start < pipeBuf) (hlen : p.len ≤ pipeBuf) (hcopy : CopyOk p (p.phase t)) :
    BufferOk p := by
  have honly : ∀ u, (p.phase u).Copying → u = t := by
    intro u hu
    by_contra hne
    exact hothers u hne hu
  refine ⟨hstart, hlen, fun _ _ => hlock, ?_, ?_, ?_⟩
  · intro u v hu hv
    rw [honly u hu, honly v hv]
  · intro u
    by_cases hu : u = t
    · rw [hu]
      exact hcopy
    · exact CopyOk.of_not_copying (hothers u hu) p
  · intro hnone
    exact absurd ht (hnone t)

theorem BufferOk.others (ht : (p.phase t).Copying) : ∀ u, u ≠ t → ¬(p.phase u).Copying := by
  intro u hu hc
  exact hu (h.alone t u ht hc)

theorem BufferOk.held (ht : (p.phase t).Copying)
    (hbytes : p.bytes = p.returned ++ got ++ window pipeBuf p.page p.start p.len) : Held p t got :=
  ⟨h.start_lt, h.len_le, h.locked t ht, h.others ht, hbytes⟩

theorem BufferOk.returned_isPrefix : p.returned <+: p.bytes := by
  by_cases hnone : ∀ t, ¬(p.phase t).Copying
  · exact ⟨_, (h.settled hnone).2.symm⟩
  · push Not at hnone
    obtain ⟨t, ht⟩ := hnone
    have hcopy := h.copy t
    revert ht hcopy
    cases p.phase t with
    | reading count pipebuf chars read got =>
      rintro - ⟨-, -, -, hbytes⟩
      rw [append_assoc] at hbytes
      exact ⟨_, hbytes.symm⟩
    | writing call pipebuf chars rest written =>
      rintro - ⟨-, -, -, -, hbytes⟩
      exact ⟨_, hbytes.symm⟩
    | idle => exact fun hc => hc.elim
    | waitRead count => exact fun hc => hc.elim
    | waitWrite call free rest written => exact fun hc => hc.elim

theorem BufferOk.take (hlock : p.lock = 0) (t : Task) : Held p.take t [] := by
  have hnone : ∀ u, ¬(p.phase u).Copying := by
    intro u hu
    have := h.locked u hu
    omega
  refine ⟨h.start_lt, h.len_le, ?_, fun u _ => hnone u, ?_⟩
  · simp [PipeInode.take, hlock, unsigned]
  · rw [append_nil]
    exact (h.settled hnone).2

end

theorem created_bufferOk (base : ℕ) (page : ℕ → UInt8) (readers writers : ℕ) :
    BufferOk (created base page readers writers : PipeInode Task) := by
  refine ⟨Nat.zero_lt_succ _, Nat.zero_le _, ?_, ?_, ?_, ?_⟩
  · intro u hu
    exact absurd hu (by simp [created, Phase.Copying])
  · intro u v hu
    exact absurd hu (by simp [created, Phase.Copying])
  · intro u
    trivial
  · intro _
    exact ⟨rfl, rfl⟩

variable [DecidableEq Task]

@[simp] theorem setPhase_phase_self (p : PipeInode Task) (t : Task) (phase : Phase) :
    (p.setPhase t phase).phase t = phase :=
  update_self ..

@[simp] theorem setPhase_phase_of_ne {u : Task} (hu : u ≠ t) (p : PipeInode Task)
    (phase : Phase) : (p.setPhase t phase).phase u = p.phase u :=
  update_of_ne hu ..

theorem not_copying_setPhase (hothers : ∀ u, u ≠ t → ¬(p.phase u).Copying) :
    ∀ u, u ≠ t → ¬((p.setPhase t phase).phase u).Copying := by
  intro u hu
  rw [setPhase_phase_of_ne hu]
  exact hothers u hu

theorem BufferOk.setPhase (h : BufferOk p) (ht : ¬(p.phase t).Copying)
    (hphase : ¬phase.Copying) : BufferOk (p.setPhase t phase) := by
  have hcopying : ∀ u, ((p.setPhase t phase).phase u).Copying ↔ (p.phase u).Copying := by
    intro u
    by_cases hu : u = t
    · subst hu
      simp [ht, hphase]
    · simp [hu]
  refine ⟨h.start_lt, h.len_le, ?_, ?_, ?_, ?_⟩
  · intro u hu
    exact h.locked u ((hcopying u).1 hu)
  · intro u v hu hv
    exact h.alone u v ((hcopying u).1 hu) ((hcopying v).1 hv)
  · intro u
    by_cases hu : (p.phase u).Copying
    · have hne : u ≠ t := by
        rintro rfl
        exact ht hu
      rw [setPhase_phase_of_ne hne]
      exact (h.copy u).congr rfl rfl rfl rfl rfl
    · exact CopyOk.of_not_copying (fun hc => hu ((hcopying u).1 hc)) _
  · intro hnone
    exact h.settled fun u hu => hnone u ((hcopying u).2 hu)

@[simp] theorem returned_finish (p : PipeInode Task) (t : Task) (value : ℤ)
    (data : List UInt8) (sigpipe : Bool) :
    (p.finish t value data sigpipe).returned = p.returned ++ data := by
  simp [PipeInode.returned, PipeInode.finish]

theorem BufferOk.finish (h : BufferOk p) (ht : ¬(p.phase t).Copying) (value : ℤ)
    (sigpipe : Bool) : BufferOk (p.finish t value [] sigpipe) := by
  have hidle : BufferOk (p.setPhase t .idle) := h.setPhase ht (by simp [Phase.Copying])
  refine hidle.congr rfl rfl rfl rfl rfl rfl ?_
  rw [returned_finish, append_nil]
  rfl

theorem Held.release_finish (h : Held p t got) (value : ℤ)
    (sigpipe : Bool) : BufferOk (p.release.finish t value got sigpipe) := by
  have hnone : ∀ u, ¬((p.release.finish t value got sigpipe).phase u).Copying := by
    intro u
    by_cases hu : u = t
    · subst hu
      simp [PipeInode.finish, Phase.Copying]
    · simpa [PipeInode.finish, PipeInode.release, hu] using h.others u hu
  refine ⟨h.start_lt, h.len_le, ?_, ?_, ?_, ?_⟩
  · intro u hu
    exact absurd hu (hnone u)
  · intro u v hu
    exact absurd hu (hnone u)
  · intro u
    exact CopyOk.of_not_copying (hnone u) _
  · intro _
    refine ⟨?_, ?_⟩
    · simp [PipeInode.finish, PipeInode.setPhase, PipeInode.release, h.lock, unsigned]
    · rw [returned_finish]
      exact h.bytes

theorem Held.readLoop (h : Held p t got) (count read : ℕ) :
    BufferOk (p.readLoop t count read got) := by
  have hstart := h.start_lt
  have hlen := h.len_le
  have hmax := maxRchunk_eq hstart
  unfold PipeInode.readLoop
  split
  · set chars := min (min p.maxRchunk count) p.len with hchars
    have hle : chars ≤ p.len := min_le_right _ _
    have hfit : p.start + chars ≤ pipeBuf := by omega
    have hend : unsigned ((p.start : ℤ) + chars) = p.start + chars := by
      refine unsigned_of_lt (by push_cast; rfl) ?_
      unfold pipeBuf at hfit
      omega
    have hleft : unsigned ((p.len : ℤ) - chars) = p.len - chars := by
      refine unsigned_of_lt (by rw [Nat.cast_sub hle]) ?_
      unfold pipeBuf at hlen
      omega
    refine BufferOk.of_copying (t := t) h.lock (not_copying_setPhase h.others) ?_ ?_ ?_ ?_
    · simp [Phase.Copying]
    · exact Nat.mod_lt _ (by decide)
    · simp only [hleft]
      omega
    · simp only [setPhase_phase_self, CopyOk, hend, hleft]
      refine ⟨trivial, hfit, by omega, ?_⟩
      rw [Nat.add_sub_cancel' hle]
      exact h.bytes
  · exact h.release_finish _ _

theorem Held.not_copying_release (h : Held p t []) (phase : Phase) (hphase : ¬phase.Copying) :
    BufferOk (p.release.setPhase t phase) := by
  have hdone : BufferOk (p.release.finish t 0 [] false) := h.release_finish 0 false
  have hset : BufferOk ((p.release.finish t 0 [] false).setPhase t phase) := by
    refine hdone.setPhase ?_ hphase
    simp [PipeInode.finish, Phase.Copying]
  refine hset.congr rfl rfl rfl rfl ?_ rfl ?_
  · simp [PipeInode.finish, PipeInode.setPhase]
  · simp [PipeInode.returned, PipeInode.finish, PipeInode.setPhase, PipeInode.release]

theorem Held.writeLoop (h : Held p t []) (call : ℕ) (rest : List UInt8) (written : ℕ)
    (nonblock signal : Bool) : BufferOk (p.writeLoop t call rest written nonblock signal) := by
  have hstart := h.start_lt
  have hlen := h.len_le
  have hfree := free_eq hlen
  have hend := pipeEnd_eq hstart hlen
  have hmax := maxWchunk_eq p
  have hlt : p.pipeEnd < pipeBuf := Nat.mod_lt _ (by decide)
  unfold PipeInode.writeLoop
  split
  · set chars := min (min p.maxWchunk rest.length) p.free with hchars
    have hlong : unsigned ((p.len : ℤ) + chars) = p.len + chars := by
      refine unsigned_of_lt (by push_cast; rfl) ?_
      unfold pipeBuf at hfree hlen
      omega
    refine BufferOk.of_copying (t := t) h.lock (not_copying_setPhase h.others) ?_ hstart ?_ ?_
    · simp [Phase.Copying]
    · simp only [hlong]
      omega
    · simp only [setPhase_phase_self, CopyOk, hlong, Nat.add_sub_cancel]
      refine ⟨?_, by omega, by omega, by omega, ?_⟩
      · rw [hend]
        exact Nat.mod_mod _ _
      · have hbytes := h.bytes
        rw [append_nil] at hbytes
        exact hbytes
  · split
    · exact h.release_finish _ _
    · unfold PipeInode.writeBlocked
      split
      · exact h.release_finish _ _
      · split
        · exact h.release_finish _ _
        · split
          · exact h.release_finish _ _
          · exact h.not_copying_release _ (by simp [Phase.Copying])

section
variable (h : BufferOk p) (ht : ¬(p.phase t).Copying)
include h ht

theorem BufferOk.readWait (count : ℕ) (signal : Bool) : BufferOk (p.readWait t count signal) := by
  unfold PipeInode.readWait
  split
  · split
    · exact h.finish ht _ _
    · split
      · exact h.finish ht _ _
      · exact h.setPhase ht (by simp [Phase.Copying])
  · rename_i hready
    exact (h.take (by omega) t).readLoop _ _

theorem BufferOk.pipeRead (count : ℕ) (nonblock signal : Bool) :
    BufferOk (p.pipeRead t count nonblock signal) := by
  unfold PipeInode.pipeRead
  split
  · split
    · exact h.finish ht _ _
    · rename_i hlock
      split
      · split <;> exact h.finish ht _ _
      · exact (h.take (by omega) t).readLoop _ _
  · exact h.readWait ht _ _

theorem BufferOk.writeBlocked (call free : ℕ) (rest : List UInt8) (written : ℕ)
    (nonblock signal : Bool) :
    BufferOk (p.writeBlocked t call free rest written nonblock signal) := by
  unfold PipeInode.writeBlocked
  split
  · exact h.finish ht _ _
  · split
    · exact h.finish ht _ _
    · split
      · exact h.finish ht _ _
      · exact h.setPhase ht (by simp [Phase.Copying])

theorem BufferOk.writeWait (call free : ℕ) (rest : List UInt8) (written : ℕ)
    (nonblock signal : Bool) : BufferOk (p.writeWait t call free rest written nonblock signal) := by
  unfold PipeInode.writeWait
  split
  · exact h.finish ht _ _
  · split
    · exact h.writeBlocked ht _ _ _ _ _ _
    · rename_i hready
      exact (h.take (by omega) t).writeLoop _ _ _ _ _

theorem BufferOk.pipeWrite (data : List UInt8) (nonblock signal : Bool) :
    BufferOk (p.pipeWrite t data nonblock signal) := by
  have hcalled : BufferOk { p with writes := p.writes ++ [data] } :=
    h.congr rfl rfl rfl rfl rfl rfl rfl
  unfold PipeInode.pipeWrite
  split
  · exact hcalled.finish ht _ _
  · exact hcalled.writeWait ht _ _ _ _ _ _

end

section
variable (h : BufferOk p)
include h

theorem BufferOk.copy_reading {count pipebuf chars read : ℕ}
    (ht : p.phase t = .reading count pipebuf (chars + 1) read got) :
    BufferOk (p.setPhase t
      (.reading count (pipebuf + 1) chars read (got ++ [p.page pipebuf]))) := by
  have hcopying : (p.phase t).Copying := by simp [ht, Phase.Copying]
  have hcopy := h.copy t
  simp only [ht, CopyOk] at hcopy
  obtain ⟨hstart, hfit, hlen, hbytes⟩ := hcopy
  have hmod : pipebuf % pipeBuf = pipebuf := Nat.mod_eq_of_lt (by omega)
  have hmove : window pipeBuf p.page pipebuf (chars + 1 + p.len) =
      [p.page pipebuf] ++ window pipeBuf p.page (pipebuf + 1) (chars + p.len) := by
    rw [show chars + 1 + p.len = chars + p.len + 1 by omega, window_succ, hmod]
    rfl
  refine BufferOk.of_copying (t := t) (h.locked t hcopying)
    (not_copying_setPhase (h.others hcopying)) ?_ h.start_lt h.len_le ?_
  · simp [Phase.Copying]
  · simp only [setPhase_phase_self, CopyOk]
    refine ⟨?_, by omega, ?_, ?_⟩
    · rw [show pipebuf + 1 + chars = pipebuf + (chars + 1) by omega]
      exact hstart
    · change chars + p.len ≤ pipeBuf
      omega
    · rw [hmove, ← append_assoc, append_assoc p.returned] at hbytes
      exact hbytes

theorem BufferOk.copy_writing {call pipebuf chars written : ℕ} {b : UInt8} {rest : List UInt8}
    (ht : p.phase t = .writing call pipebuf (chars + 1) (b :: rest) written) :
    BufferOk { p.setPhase t (.writing call (pipebuf + 1) chars rest written) with
      page := update p.page pipebuf b
      stream := p.stream ++ [(call, b)] } := by
  have hcopying : (p.phase t).Copying := by simp [ht, Phase.Copying]
  have hlen := h.len_le
  have hcopy := h.copy t
  simp only [ht, CopyOk] at hcopy
  obtain ⟨hend, hfit, hchars, hrest, hbytes⟩ := hcopy
  have hmod : pipebuf % pipeBuf = pipebuf := Nat.mod_eq_of_lt (by omega)
  rw [hmod] at hend
  have hpush := window_push p.page p.start (n := p.len - (chars + 1)) (N := pipeBuf)
    (by omega) b
  refine BufferOk.of_copying (t := t) (h.locked t hcopying)
    (not_copying_setPhase (h.others hcopying)) ?_ h.start_lt h.len_le ?_
  · simp [Phase.Copying]
  · simp only [setPhase_phase_self, CopyOk]
    refine ⟨?_, by omega, ?_, ?_, ?_⟩
    · change (pipebuf + 1) % pipeBuf = (p.start + (p.len - chars)) % pipeBuf
      rw [hend, Nat.mod_add_mod]
      congr 1
      omega
    · change chars ≤ p.len
      omega
    · simpa using hrest
    · change (p.stream ++ [(call, b)]).map Prod.snd =
        p.returned ++ window pipeBuf (update p.page pipebuf b) p.start (p.len - chars)
      rw [hend, show p.len - chars = p.len - (chars + 1) + 1 by omega, hpush, map_append,
        ← append_assoc, ← hbytes]
      rfl

theorem BufferOk.copy_step (t : Task) (nonblock signal : Bool) :
    BufferOk (p.copy t nonblock signal) := by
  have hcopy := h.copy t
  unfold PipeInode.copy
  split
  · rename_i count pipebuf read got ht
    simp only [ht, CopyOk] at hcopy
    obtain ⟨hstart, -, -, hbytes⟩ := hcopy
    refine (h.held (by simp [ht, Phase.Copying]) ?_).readLoop _ _
    rw [hstart, window_mod]
    simpa using hbytes
  · rename_i ht
    exact h.copy_reading ht
  · rename_i call pipebuf rest written ht
    simp only [ht, CopyOk] at hcopy
    obtain ⟨-, -, -, -, hbytes⟩ := hcopy
    refine (h.held (by simp [ht, Phase.Copying]) ?_).writeLoop _ _ _ _ _
    simpa using hbytes
  · rename_i ht
    exact h.copy_writing ht
  · exact h

theorem BufferOk.wake (t : Task) (nonblock signal : Bool) :
    BufferOk (p.wake t nonblock signal) := by
  unfold PipeInode.wake
  split
  · rename_i ht
    exact h.readWait (by simp [ht, Phase.Copying]) _ _
  · rename_i ht
    exact h.writeWait (by simp [ht, Phase.Copying]) _ _ _ _ _ _
  · exact h

theorem BufferOk.step (e : Event Task) : BufferOk (p.step e) := by
  cases e with
  | read t count nonblock signal =>
    unfold PipeInode.step
    dsimp only
    split
    · rename_i ht
      exact h.pipeRead (by simp [ht, Phase.Copying]) _ _ _
    · exact h
  | write t data nonblock signal =>
    unfold PipeInode.step
    dsimp only
    split
    · rename_i ht
      exact h.pipeWrite (by simp [ht, Phase.Copying]) _ _ _
    · exact h
  | wake t nonblock signal => exact h.wake t nonblock signal
  | copy t nonblock signal => exact h.copy_step t nonblock signal
  | users readers writers => exact h.congr rfl rfl rfl rfl rfl rfl rfl

end

end

end LinuxKernel.Pipe
