import LinuxKernel.PipeStream

/-!
# The calls of `pipe_write`

A call puts a beginning of its data into the pipe, byte after byte.  A call with at most
`PIPE_BUF` bytes waits until all of them fit; it then keeps the lock to its last byte, so
that its bytes stand together in the stream.
-/

namespace LinuxKernel.Pipe
open List

open RingBuffer

def sent (call : ℕ) (stream : List (ℕ × UInt8)) : List UInt8 :=
  (stream.filter fun e => e.1 = call).map Prod.snd

def Together (call : ℕ) (stream : List (ℕ × UInt8)) : Prop :=
  ∃ before middle after, stream = before ++ middle ++ after ∧
    (∀ e ∈ before ++ after, e.1 ≠ call) ∧ ∀ e ∈ middle, e.1 = call

def AtEnd (call : ℕ) (stream : List (ℕ × UInt8)) : Prop :=
  ∃ before middle, stream = before ++ middle ∧ (∀ e ∈ before, e.1 ≠ call) ∧ ∀ e ∈ middle, e.1 = call

section

variable {call : ℕ} {stream : List (ℕ × UInt8)}

@[simp] theorem sent_append_self (call : ℕ) (stream : List (ℕ × UInt8)) (b : UInt8) :
    sent call (stream ++ [(call, b)]) = sent call stream ++ [b] := by
  simp [sent]

theorem sent_append_of_ne {c : ℕ} (hc : c ≠ call) (stream : List (ℕ × UInt8)) (b : UInt8) :
    sent c (stream ++ [(call, b)]) = sent c stream := by
  simp [sent, hc.symm]

theorem forall_ne_of_sent_nil (h : sent call stream = []) : ∀ e ∈ stream, e.1 ≠ call := by
  simpa [sent, filter_eq_nil_iff] using h

theorem sent_of_forall_ne (h : ∀ e ∈ stream, e.1 ≠ call) : sent call stream = [] := by
  simpa [sent, filter_eq_nil_iff] using h

theorem atEnd_of_sent_nil (h : sent call stream = []) : AtEnd call stream :=
  ⟨stream, [], by simp, forall_ne_of_sent_nil h, by simp⟩

theorem AtEnd.together (h : AtEnd call stream) : Together call stream := by
  obtain ⟨before, middle, rfl, hbefore, hmiddle⟩ := h
  exact ⟨before, middle, [], by simp, by simpa using hbefore, hmiddle⟩

theorem AtEnd.append (h : AtEnd call stream) (b : UInt8) : AtEnd call (stream ++ [(call, b)]) := by
  obtain ⟨before, middle, rfl, hbefore, hmiddle⟩ := h
  refine ⟨before, middle ++ [(call, b)], by simp, hbefore, ?_⟩
  intro e he
  rcases mem_append.1 he with he | he
  · exact hmiddle e he
  · rw [mem_singleton.1 he]

theorem Together.append_of_ne {c : ℕ} (h : Together c stream) (hc : c ≠ call) (b : UInt8) :
    Together c (stream ++ [(call, b)]) := by
  obtain ⟨before, middle, after, rfl, hothers, hmiddle⟩ := h
  refine ⟨before, middle, after ++ [(call, b)], by simp, ?_, hmiddle⟩
  intro e he
  rw [← append_assoc, mem_append, mem_singleton] at he
  rcases he with he | rfl
  · exact hothers e he
  · exact hc.symm

end

section

variable {Task : Type} {p q : PipeInode Task} {t : Task}

def Phase.call : Phase → Option ℕ
  | .waitWrite call .. => some call
  | .writing call .. => some call
  | _ => none

/-- How the state of a call fits its data.  A call with at most `PIPE_BUF` bytes sleeps
only before its first byte; while it copies, what is left of it fits. -/
def PendingOk (p : PipeInode Task) : Phase → Prop
  | .waitWrite call free rest _ =>
    ∃ data, p.writes[call]? = some data ∧ sent call p.stream ++ rest = data ∧
      (data.length ≤ pipeBuf → sent call p.stream = [] ∧ free = data.length)
  | .writing call _ chars rest _ =>
    ∃ data, p.writes[call]? = some data ∧ sent call p.stream ++ rest = data ∧
      (data.length ≤ pipeBuf → rest.length + p.len ≤ pipeBuf + chars ∧ AtEnd call p.stream)
  | _ => True

structure WritesOk (p : PipeInode Task) : Prop where
  own : ∀ t u c, (p.phase t).call = some c → (p.phase u).call = some c → t = u
  pending : ∀ t, PendingOk p (p.phase t)
  order : ∀ c data, p.writes[c]? = some data → sent c p.stream <+: data
  together : ∀ c data, p.writes[c]? = some data → data.length ≤ pipeBuf → Together c p.stream
  known : ∀ e ∈ p.stream, e.1 < p.writes.length

theorem PendingOk.congr {phase : Phase} (h : PendingOk p phase) (hwrites : q.writes = p.writes)
    (hstream : q.stream = p.stream) (hlen : phase.Copying → q.len = p.len) :
    PendingOk q phase := by
  cases phase with
  | writing call pipebuf chars rest written =>
    simpa only [PendingOk, hwrites, hstream, hlen trivial] using h
  | waitWrite call free rest written => simpa only [PendingOk, hwrites, hstream] using h
  | idle => trivial
  | waitRead count => trivial
  | reading count pipebuf chars read got => trivial

theorem PendingOk.call_lt {phase : Phase} (h : PendingOk p phase) {c : ℕ}
    (hc : phase.call = some c) : c < p.writes.length := by
  cases phase with
  | writing call pipebuf chars rest written =>
    obtain ⟨data, hdata, -⟩ := h
    obtain rfl : call = c := Option.some.inj hc
    exact (List.getElem?_eq_some_iff.1 hdata).1
  | waitWrite call free rest written =>
    obtain ⟨data, hdata, -⟩ := h
    obtain rfl : call = c := Option.some.inj hc
    exact (List.getElem?_eq_some_iff.1 hdata).1
  | idle => cases hc
  | waitRead count => cases hc
  | reading count pipebuf chars read got => cases hc

theorem WritesOk.frame (h : WritesOk p) (t : Task) (hwrites : q.writes = p.writes)
    (hstream : q.stream = p.stream) (hothers : ∀ u, u ≠ t → q.phase u = p.phase u)
    (hlen : ∀ u, u ≠ t → (p.phase u).Copying → q.len = p.len)
    (hcall : ∀ c, (q.phase t).call = some c → ∀ u, u ≠ t → (p.phase u).call ≠ some c)
    (hpending : PendingOk q (q.phase t)) : WritesOk q := by
  refine ⟨?_, ?_, ?_, ?_, ?_⟩
  · intro u v c hu hv
    by_cases hut : u = t
    · by_cases hvt : v = t
      · rw [hut, hvt]
      · rw [hothers v hvt] at hv
        rw [hut] at hu
        exact absurd hv (hcall c hu v hvt)
    · rw [hothers u hut] at hu
      by_cases hvt : v = t
      · rw [hvt] at hv
        exact absurd hu (hcall c hv u hut)
      · rw [hothers v hvt] at hv
        exact h.own u v c hu hv
  · intro u
    by_cases hut : u = t
    · rw [hut]
      exact hpending
    · rw [hothers u hut]
      exact (h.pending u).congr hwrites hstream (hlen u hut)
  · rw [hwrites, hstream]
    exact h.order
  · rw [hwrites, hstream]
    exact h.together
  · rw [hwrites, hstream]
    exact h.known

theorem WritesOk.called (h : WritesOk p) (data : List UInt8) :
    WritesOk { p with writes := p.writes ++ [data] } := by
  have hold : ∀ (c : ℕ) (d : List UInt8), p.writes[c]? = some d →
    (p.writes ++ [data])[c]? = some d := by
    intro c d hd
    rw [List.getElem?_append_left (List.getElem?_eq_some_iff.1 hd).1]
    exact hd
  have hnew : ∀ (c : ℕ) (d : List UInt8), (p.writes ++ [data])[c]? = some d →
      p.writes[c]? = some d ∨ sent c p.stream = [] := by
    intro c d hd
    rcases Nat.lt_or_ge c p.writes.length with hc | hc
    · left
      rwa [List.getElem?_append_left hc] at hd
    · right
      apply sent_of_forall_ne
      intro e he
      have := h.known e he
      omega
  refine ⟨h.own, ?_, ?_, ?_, ?_⟩
  · intro u
    have hpending := h.pending u
    revert hpending
    cases p.phase u with
    | writing call pipebuf chars rest written =>
      rintro ⟨d, hd, hrest⟩
      exact ⟨d, hold call d hd, hrest⟩
    | waitWrite call free rest written =>
      rintro ⟨d, hd, hrest⟩
      exact ⟨d, hold call d hd, hrest⟩
    | idle => exact fun _ => trivial
    | waitRead count => exact fun _ => trivial
    | reading count pipebuf chars read got => exact fun _ => trivial
  · intro c d hd
    rcases hnew c d hd with hd | hsent
    · exact h.order c d hd
    · rw [hsent]
      exact nil_prefix
  · intro c d hd hsmall
    rcases hnew c d hd with hd | hsent
    · exact h.together c d hd hsmall
    · exact (atEnd_of_sent_nil hsent).together
  · intro e he
    have := h.known e he
    rw [length_append]
    omega

theorem created_writesOk (base : ℕ) (page : ℕ → UInt8) (readers writers : ℕ) :
    WritesOk (created base page readers writers : PipeInode Task) := by
  refine ⟨?_, fun _ => trivial, ?_, ?_, ?_⟩
  · intro u v c hu
    cases hu
  · intro c data hdata
    simp [created] at hdata
  · intro c data hdata
    simp [created] at hdata
  · simp [created]

theorem WritesOk.release (h : WritesOk p) : WritesOk p.release :=
  ⟨h.own, fun u => (h.pending u).congr rfl rfl fun _ => rfl, h.order, h.together, h.known⟩

theorem WritesOk.take (h : WritesOk p) : WritesOk p.take :=
  ⟨h.own, fun u => (h.pending u).congr rfl rfl fun _ => rfl, h.order, h.together, h.known⟩

variable [DecidableEq Task]

theorem WritesOk.finish (h : WritesOk p) (value : ℤ) (data : List UInt8) (sigpipe : Bool) :
    WritesOk (p.finish t value data sigpipe) := by
  have hidle : (p.finish t value data sigpipe).phase t = .idle := setPhase_phase_self ..
  refine h.frame t rfl rfl (fun u hu => setPhase_phase_of_ne hu ..) (fun _ _ _ => rfl) ?_ ?_
  · intro c hc
    rw [hidle] at hc
    cases hc
  · rw [hidle]
    trivial

theorem WritesOk.readLoop (h : WritesOk p) (hothers : ∀ u, u ≠ t → ¬(p.phase u).Copying)
    (count read : ℕ) (got : List UInt8) : WritesOk (p.readLoop t count read got) := by
  unfold PipeInode.readLoop
  split
  · refine h.frame t rfl rfl (fun u hu => setPhase_phase_of_ne hu ..) ?_ ?_ ?_
    · intro u hu hc
      exact absurd hc (hothers u hu)
    · intro c hc
      simp [Phase.call] at hc
    · simp [PendingOk]
  · exact h.release.finish _ _ _

section
variable (h : WritesOk p) (hbuffer : BufferOk p)
include h hbuffer

theorem WritesOk.readWait (count : ℕ) (signal : Bool) : WritesOk (p.readWait t count signal) := by
  unfold PipeInode.readWait
  split
  · split
    · exact h.finish _ _ _
    · split
      · exact h.finish _ _ _
      · refine h.frame t rfl rfl (fun u hu => setPhase_phase_of_ne hu ..) (fun _ _ _ => rfl) ?_ ?_
        · intro c hc
          simp [Phase.call] at hc
        · simp [PendingOk]
  · rename_i hready
    exact h.take.readLoop (hbuffer.take (by omega) t).others _ _ _

theorem WritesOk.pipeRead (count : ℕ) (nonblock signal : Bool) :
    WritesOk (p.pipeRead t count nonblock signal) := by
  unfold PipeInode.pipeRead
  split
  · split
    · exact h.finish _ _ _
    · rename_i hlock
      split
      · split <;> exact h.finish _ _ _
      · exact h.take.readLoop (hbuffer.take (by omega) t).others _ _ _
  · exact h.readWait hbuffer _ _

variable {call : ℕ} {rest : List UInt8}

omit h hbuffer in
theorem WritesOk.writeBlocked (h : WritesOk p) {free : ℕ}
    (hcall : ∀ u, u ≠ t → (p.phase u).call ≠ some call) (written : ℕ)
    (hpending : PendingOk p (.waitWrite call free rest written)) (nonblock signal : Bool) :
    WritesOk (p.writeBlocked t call free rest written nonblock signal) := by
  unfold PipeInode.writeBlocked
  split
  · exact h.finish _ _ _
  · split
    · exact h.finish _ _ _
    · split
      · exact h.finish _ _ _
      · refine h.frame t rfl rfl (fun u hu => setPhase_phase_of_ne hu ..) (fun _ _ _ => rfl) ?_ ?_
        · intro c hc
          rw [setPhase_phase_self] at hc
          obtain rfl : call = c := Option.some.inj hc
          exact hcall
        · rw [setPhase_phase_self]
          exact hpending

omit h hbuffer in
theorem WritesOk.writeLoop (h : WritesOk p) (hlen : p.len ≤ pipeBuf)
    (hothers : ∀ u, u ≠ t → ¬(p.phase u).Copying) {data : List UInt8}
    (hcall : ∀ u, u ≠ t → (p.phase u).call ≠ some call) (hdata : p.writes[call]? = some data)
    (hrest : sent call p.stream ++ rest = data)
    (hsmall : data.length ≤ pipeBuf → rest.length + p.len ≤ pipeBuf ∧ AtEnd call p.stream)
    (written : ℕ) (nonblock signal : Bool) :
    WritesOk (p.writeLoop t call rest written nonblock signal) := by
  have hfree := free_eq hlen
  unfold PipeInode.writeLoop
  split
  · set chars := min (min p.maxWchunk rest.length) p.free with hchars
    have hlong : unsigned ((p.len : ℤ) + chars) = p.len + chars := by
      refine unsigned_of_lt (by push_cast; rfl) ?_
      unfold pipeBuf at hfree hlen
      omega
    refine h.frame t rfl rfl (fun u hu => setPhase_phase_of_ne hu ..) ?_ ?_ ?_
    · intro u hu hc
      exact absurd hc (hothers u hu)
    · intro c hc
      rw [setPhase_phase_self] at hc
      obtain rfl : call = c := Option.some.inj hc
      exact hcall
    · rw [setPhase_phase_self]
      refine ⟨data, hdata, hrest, ?_⟩
      intro hle
      obtain ⟨hfit, hend⟩ := hsmall hle
      refine ⟨?_, hend⟩
      simp only [hlong]
      omega
  · rename_i hstop
    split
    · exact h.release.finish _ _ _
    · rename_i hne
      -- no byte is free, so the call is not one that fits
      have hfull : p.free = 0 := by
        by_contra hpos
        exact hstop ⟨hne, hpos⟩
      have hlarge : ¬data.length ≤ pipeBuf := by
        intro hle
        have hpos := length_pos_iff.2 hne
        omega
      refine h.release.writeBlocked hcall written ⟨data, hdata, hrest, ?_⟩ _ _
      intro hle
      exact absurd hle hlarge

theorem WritesOk.writeWait {free : ℕ} (hcall : ∀ u, u ≠ t → (p.phase u).call ≠ some call)
    {written : ℕ} (hpending : PendingOk p (.waitWrite call free rest written))
    (nonblock signal : Bool) : WritesOk (p.writeWait t call free rest written nonblock signal) := by
  have hfree := free_eq hbuffer.len_le
  unfold PipeInode.writeWait
  split
  · exact h.finish _ _ _
  · split
    · exact h.writeBlocked hcall written hpending _ _
    · rename_i hready
      obtain ⟨data, hdata, hrest, hsmall⟩ := hpending
      refine h.take.writeLoop hbuffer.len_le (hbuffer.take (by omega) t).others hcall hdata hrest
        ?_ _ _ _
      intro hle
      obtain ⟨hsent, hcount⟩ := hsmall hle
      have hlen := hbuffer.len_le
      rw [hsent, nil_append] at hrest
      refine ⟨?_, atEnd_of_sent_nil hsent⟩
      change rest.length + p.len ≤ pipeBuf
      rw [hrest]
      omega

theorem WritesOk.pipeWrite (data : List UInt8) (nonblock signal : Bool) :
    WritesOk (p.pipeWrite t data nonblock signal) := by
  have hcalled := h.called data
  have hnone : sent p.writes.length p.stream = [] := by
    apply sent_of_forall_ne
    intro e he
    exact (h.known e he).ne
  unfold PipeInode.pipeWrite
  split
  · exact hcalled.finish _ _ _
  · refine hcalled.writeWait (hbuffer.congr rfl rfl rfl rfl rfl rfl rfl) ?_ ?_ _ _
    · intro u _ hu
      exact absurd ((h.pending u).call_lt hu) (Nat.lt_irrefl _)
    · refine ⟨data, ?_, ?_, ?_⟩
      · simp
      · rw [hnone, nil_append]
      · intro hle
        exact ⟨hnone, if_pos hle⟩

theorem WritesOk.copy_writing {pipebuf chars written : ℕ} {b : UInt8}
    (ht : p.phase t = .writing call pipebuf (chars + 1) (b :: rest) written) :
    WritesOk { p.setPhase t (.writing call (pipebuf + 1) chars rest written) with
      page := Function.update p.page pipebuf b
      stream := p.stream ++ [(call, b)] } := by
  have hothers := hbuffer.others (t := t) (by simp [ht, Phase.Copying])
  have hpending := h.pending t
  rw [ht] at hpending
  have hlt := hpending.call_lt rfl
  obtain ⟨data, hdata, hrest, hsmall⟩ := hpending
  have hsplit : sent call (p.stream ++ [(call, b)]) ++ rest = data := by
    rw [sent_append_self, append_assoc]
    exact hrest
  refine ⟨?_, ?_, ?_, ?_, ?_⟩
  · have hsame : ∀ u, ((p.setPhase t (.writing call (pipebuf + 1) chars rest written)).phase
        u).call = (p.phase u).call := by
      intro u
      by_cases hu : u = t
      · rw [hu, setPhase_phase_self, ht]
        rfl
      · rw [setPhase_phase_of_ne hu]
    intro u v c hu hv
    exact h.own u v c ((hsame u).symm.trans hu) ((hsame v).symm.trans hv)
  · intro u
    by_cases hu : u = t
    · subst hu
      simp only [setPhase_phase_self]
      refine ⟨data, hdata, hsplit, ?_⟩
      intro hle
      obtain ⟨hfit, hend⟩ := hsmall hle
      refine ⟨?_, hend.append b⟩
      rw [length_cons] at hfit
      change rest.length + p.len ≤ pipeBuf + chars
      omega
    · simp only [setPhase_phase_of_ne hu]
      have hcall : (p.phase u).call ≠ some call := by
        intro hc
        exact hu (h.own u t call hc (by rw [ht]; rfl))
      have hstill := hothers u hu
      have hpending := h.pending u
      revert hcall hstill hpending
      cases p.phase u with
      | waitWrite c free rest' written' =>
        rintro hcall - ⟨d, hd, hsent⟩
        have hne : c ≠ call := fun heq => hcall (congrArg some heq)
        refine ⟨d, hd, ?_⟩
        simpa only [sent_append_of_ne hne] using hsent
      | writing c pipebuf' chars' rest' written' => exact fun _ hstill => absurd trivial hstill
      | idle => exact fun _ _ _ => trivial
      | waitRead count => exact fun _ _ _ => trivial
      | reading count pipebuf' chars' read got => exact fun _ _ _ => trivial
  · intro c d hd
    by_cases hc : c = call
    · subst hc
      obtain rfl : data = d := Option.some.inj (hdata.symm.trans hd)
      exact ⟨rest, hsplit⟩
    · rw [sent_append_of_ne hc]
      exact h.order c d hd
  · intro c d hd hle
    by_cases hc : c = call
    · subst hc
      obtain rfl : data = d := Option.some.inj (hdata.symm.trans hd)
      exact ((hsmall hle).2.append b).together
    · exact (h.together c d hd hle).append_of_ne hc b
  · intro e he
    rcases mem_append.1 he with he | he
    · exact h.known e he
    · rw [mem_singleton.1 he]
      exact hlt

theorem WritesOk.copy_step (t : Task) (nonblock signal : Bool) :
    WritesOk (p.copy t nonblock signal) := by
  unfold PipeInode.copy
  split
  · rename_i ht
    exact h.readLoop (hbuffer.others (by simp [ht, Phase.Copying])) _ _ _
  · refine h.frame t rfl rfl (fun u hu => setPhase_phase_of_ne hu ..) (fun _ _ _ => rfl) ?_ ?_
    · intro c hc
      simp [Phase.call] at hc
    · simp [PendingOk]
  · rename_i call pipebuf rest written ht
    have hpending := h.pending t
    rw [ht] at hpending
    obtain ⟨data, hdata, hrest, hsmall⟩ := hpending
    refine h.writeLoop hbuffer.len_le (hbuffer.others (by simp [ht, Phase.Copying])) ?_ hdata hrest
      hsmall _ _ _
    intro u hu hc
    exact hu (h.own u t call hc (by rw [ht]; rfl))
  · rename_i ht
    exact h.copy_writing hbuffer ht
  · exact h

theorem WritesOk.wake (t : Task) (nonblock signal : Bool) :
    WritesOk (p.wake t nonblock signal) := by
  unfold PipeInode.wake
  split
  · exact h.readWait hbuffer _ _
  · rename_i call free rest written ht
    refine h.writeWait hbuffer ?_ ?_ _ _
    · intro u hu hc
      exact hu (h.own u t call hc (by rw [ht]; rfl))
    · rw [← ht]
      exact h.pending t
  · exact h

theorem WritesOk.step (e : Event Task) : WritesOk (p.step e) := by
  cases e with
  | read t count nonblock signal =>
    unfold PipeInode.step
    dsimp only
    split
    · exact h.pipeRead hbuffer _ _ _
    · exact h
  | write t data nonblock signal =>
    unfold PipeInode.step
    dsimp only
    split
    · exact h.pipeWrite hbuffer _ _ _
    · exact h
  | wake t nonblock signal => exact h.wake hbuffer t nonblock signal
  | copy t nonblock signal => exact h.copy_step hbuffer t nonblock signal
  | users readers writers =>
    exact ⟨h.own, fun u => (h.pending u).congr rfl rfl fun _ => rfl, h.order, h.together, h.known⟩

end

theorem run_ok (hbuffer : BufferOk p) (h : WritesOk p) (events : List (Event Task)) :
    BufferOk (p.run events) ∧ WritesOk (p.run events) := by
  induction events generalizing p with
  | nil => exact ⟨hbuffer, h⟩
  | cons e events ih => exact ih (hbuffer.step e) (h.step hbuffer e)

/-- In every state that the calls of any processes lead to, whatever the order of their
steps: the bytes returned are a beginning of the bytes copied in, the length and the start
stay in the buffer, every call has copied in a beginning of its data, and the bytes of a
call with at most `PIPE_BUF` of them stand together. -/
theorem run_stream (base : ℕ) (page : ℕ → UInt8) (readers writers : ℕ)
    (events : List (Event Task)) :
    let p := (created base page readers writers).run events
    p.returned <+: p.bytes ∧ p.len ≤ pipeBuf ∧ p.start < pipeBuf ∧
      ∀ call data, p.writes[call]? = some data →
        sent call p.stream <+: data ∧ (data.length ≤ pipeBuf → Together call p.stream) := by
  obtain ⟨hbuffer, hwrites⟩ :=
    run_ok (created_bufferOk base page readers writers)
      (created_writesOk base page readers writers) events
  refine ⟨hbuffer.returned_isPrefix, hbuffer.len_le, hbuffer.start_lt, ?_⟩
  intro call data hdata
  exact ⟨hwrites.order call data hdata, hwrites.together call data hdata⟩

/-- `PIPE_BASE` is the address of the page, and no page that is ever handed out lies below
`PIPE_BUF`. -/
theorem base_not_below_pipeBuf :
    ¬∀ (base : ℕ) (events : List (Event ℕ)), base ≠ 0 → base % 4096 = 0 →
      ((created base (fun _ => 0) 1 1).run events).base < pipeBuf := by
  intro h
  have := h 1048576 [] (by decide) (by decide)
  exact absurd this (by decide)

end

end LinuxKernel.Pipe
