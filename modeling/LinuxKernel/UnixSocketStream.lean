import LinuxKernel.UnixSocketModel

/-!
# The stream through a socket

What is between the tail and the head of the ring is what was copied in and not yet copied out,
as long as no call copies more than there is when it gets the lock.  A call computes this before it
waits for the lock, and does not look again.
-/

namespace LinuxKernel.UnixSocket
open Function

open RingBuffer

variable {Task : Type}

section

variable {s s' : State Task} {out inn : ℕ}

/-! ## The ring -/

/-- The ring holds what is written and not read.  Of its first bytes `out` are copied out already,
and behind the head `inn` are copied in. -/
structure Ring (s : State Task) (out inn : ℕ) : Prop where
  head_lt : s.bpHead < bufSize
  tail_lt : s.bpTail < bufSize
  out_le : out ≤ s.avail
  in_lt : s.avail + inn < bufSize
  stream : s.written = s.read ++ window bufSize s.buf (s.bpTail + out) (s.avail - out + inn)

theorem avail_lt (s : State Task) : s.avail < bufSize := by
  unfold State.avail bufSize
  omega

theorem head_eq (hhead : s.bpHead < bufSize) : s.bpHead = (s.bpTail + s.avail) % bufSize := by
  unfold State.avail bufSize at *
  omega

theorem avail_eq {n : ℕ} (hn : n < bufSize)
    (hhead : s.bpHead = (s.bpTail + n) % bufSize) : s.avail = n := by
  unfold State.avail
  unfold bufSize at *
  omega

theorem space_eq (s : State Task) : s.avail + s.space + 1 = bufSize := by
  have hlt := avail_lt s
  unfold State.space
  omega

theorem Ring.congr (h : Ring s out inn) (hbuf : s'.buf = s.buf) (hhead : s'.bpHead = s.bpHead)
    (htail : s'.bpTail = s.bpTail) (hwritten : s'.written = s.written) (hread : s'.read = s.read) :
    Ring s' out inn := by
  have havail : s'.avail = s.avail := by
    unfold State.avail
    rw [hhead, htail]
  refine ⟨?_, ?_, ?_, ?_, ?_⟩
  · rw [hhead]
    exact h.head_lt
  · rw [htail]
    exact h.tail_lt
  · rw [havail]
    exact h.out_le
  · rw [havail]
    exact h.in_lt
  · rw [hwritten, hread, hbuf, htail, havail]
    exact h.stream

theorem Ring.copyOut (h : Ring s out 0) (hout : out < s.avail) (hin : s.bpTail + out < bufSize) :
    Ring { s with read := s.read ++ [s.buf (s.bpTail + out)] } (out + 1) 0 := by
  refine ⟨h.head_lt, h.tail_lt, hout, h.in_lt, ?_⟩
  have hlen : s.avail - out + 0 = s.avail - (out + 1) + 0 + 1 := by omega
  rw [h.stream, hlen, window_succ, Nat.mod_eq_of_lt hin, List.append_assoc, List.singleton_append,
    Nat.add_assoc]
  rfl

theorem Ring.moveTail (h : Ring s out 0) :
    Ring { s with bpTail := (s.bpTail + out) % bufSize } 0 0 := by
  have htail : (s.bpTail + out) % bufSize < bufSize := Nat.mod_lt _ (by decide)
  have hlt := avail_lt s
  have havail : State.avail { s with bpTail := (s.bpTail + out) % bufSize } = s.avail - out := by
    refine avail_eq (by omega) ?_
    rw [Nat.mod_add_mod, head_eq h.head_lt]
    congr 1
    have hle := h.out_le
    omega
  refine ⟨h.head_lt, htail, Nat.zero_le _, ?_, ?_⟩
  · omega
  · rw [havail]
    rw [h.stream, Nat.add_zero ((s.bpTail + out) % bufSize), window_mod]
    rfl

theorem Ring.copyIn (h : Ring s 0 inn) (hfree : inn < s.space) (hin : s.bpHead + inn < bufSize)
    (b : UInt8) :
    Ring { s with
      buf := update s.buf (s.bpHead + inn) b
      written := s.written ++ [b] } 0 (inn + 1) := by
  have hspace := space_eq s
  have hcell : s.bpHead + inn = (s.bpTail + (s.avail + inn)) % bufSize := by
    rw [← Nat.add_assoc, ← Nat.mod_add_mod, ← head_eq h.head_lt, Nat.mod_eq_of_lt hin]
  refine ⟨h.head_lt, h.tail_lt, Nat.zero_le _, ?_, ?_⟩
  · change s.avail + (inn + 1) < bufSize
    omega
  · change s.written ++ [b] = s.read ++
      window bufSize (update s.buf (s.bpHead + inn) b) (s.bpTail + 0)
        (s.avail - 0 + (inn + 1))
    have hstream := h.stream
    rw [Nat.add_zero, Nat.sub_zero] at hstream ⊢
    rw [hcell, ← Nat.add_assoc s.avail inn 1, window_push s.buf s.bpTail (by omega) b,
      ← List.append_assoc, ← hstream]

theorem Ring.moveHead (h : Ring s 0 inn) :
    Ring { s with bpHead := (s.bpHead + inn) % bufSize } 0 0 := by
  have hhead : (s.bpHead + inn) % bufSize < bufSize := Nat.mod_lt _ (by decide)
  have havail : State.avail { s with bpHead := (s.bpHead + inn) % bufSize } = s.avail + inn := by
    refine avail_eq h.in_lt ?_
    rw [head_eq h.head_lt, Nat.mod_add_mod, Nat.add_assoc]
  refine ⟨hhead, h.tail_lt, Nat.zero_le _, ?_, ?_⟩
  · rw [havail]
    exact h.in_lt
  · rw [havail]
    exact h.stream

/-! ## The processes -/

def Phase.Waiting : Phase → Prop
  | .idle => True
  | .waitRead size => 0 < size
  | .lockRead size avail => 0 < size ∧ 0 < avail
  | .waitWrite _ rest => 0 < rest.length
  | .lockWrite _ rest space => 0 < rest.length ∧ 0 < space
  | _ => False

def Phase.Copying : Phase → Prop
  | .reading .. => True
  | .writing .. => True
  | _ => False

def CopyOk (s : State Task) : Phase → Prop
  | .reading _ todo cando done =>
    done < cando ∧ cando ≤ todo ∧ cando ≤ s.avail ∧ s.bpTail + cando ≤ bufSize ∧ Ring s done 0
  | .writing _ rest cando done =>
    done < cando ∧ cando ≤ rest.length ∧ cando ≤ s.space ∧ s.bpHead + cando ≤ bufSize ∧
      Ring s 0 done
  | _ => False

def BufferOk (s : State Task) : Prop :=
  (s.lockFlag = false ∧ (∀ t, (s.phase t).Waiting) ∧ Ring s 0 0) ∨
    (s.lockFlag = true ∧ ∃ t, CopyOk s (s.phase t) ∧ ∀ u, u ≠ t → (s.phase u).Waiting)

structure Held (s : State Task) (t : Task) : Prop where
  lock : s.lockFlag = true
  others : ∀ u, u ≠ t → (s.phase u).Waiting
  ring : Ring s 0 0

variable {p : Phase}

theorem CopyOk.copying (h : CopyOk s p) : p.Copying := by
  cases p with
  | reading => trivial
  | writing => trivial
  | _ => exact h.elim

theorem Phase.Waiting.not_copying (h : p.Waiting) : ¬p.Copying := by
  cases p with
  | reading => exact h.elim
  | writing => exact h.elim
  | _ => exact fun hc => hc

theorem CopyOk.not_waiting (h : CopyOk s p) : ¬p.Waiting :=
  fun hw => hw.not_copying h.copying

theorem CopyOk.congr (h : CopyOk s p) (hbuf : s'.buf = s.buf) (hhead : s'.bpHead = s.bpHead)
    (htail : s'.bpTail = s.bpTail) (hwritten : s'.written = s.written) (hread : s'.read = s.read) :
    CopyOk s' p := by
  have havail : s'.avail = s.avail := by
    unfold State.avail
    rw [hhead, htail]
  have hspace : s'.space = s.space := by
    unfold State.space
    rw [havail]
  cases p with
  | reading size todo cando done =>
    obtain ⟨hdone, htodo, hle, hend, hring⟩ := h
    refine ⟨hdone, htodo, ?_, ?_, hring.congr hbuf hhead htail hwritten hread⟩
    · rw [havail]
      exact hle
    · rw [htail]
      exact hend
  | writing size rest cando done =>
    obtain ⟨hdone, htodo, hle, hend, hring⟩ := h
    refine ⟨hdone, htodo, ?_, ?_, hring.congr hbuf hhead htail hwritten hread⟩
    · rw [hspace]
      exact hle
    · rw [hhead]
      exact hend
  | _ => exact h.elim

theorem BufferOk.results (h : BufferOk s) (results : List (Task × ℤ)) :
    BufferOk { s with results := results } := by
  rcases h with ⟨hlock, hall, hring⟩ | ⟨hlock, u, hcopy, hothers⟩
  · exact Or.inl ⟨hlock, hall, hring.congr rfl rfl rfl rfl rfl⟩
  · exact Or.inr ⟨hlock, u, hcopy.congr rfl rfl rfl rfl rfl, hothers⟩

theorem BufferOk.hold (h : BufferOk s) (hlock : s.lockFlag = false) (t : Task) :
    Held { s with lockFlag := true } t := by
  rcases h with ⟨-, hall, hring⟩ | ⟨htrue, -⟩
  · exact ⟨rfl, fun u _ => hall u, hring.congr rfl rfl rfl rfl rfl⟩
  · rw [hlock] at htrue
    cases htrue

end

section

variable [DecidableEq Task] {s : State Task} {t : Task}

theorem setPhase_phase (s : State Task) (t u : Task) (p : Phase) :
    (s.setPhase t p).phase u = if u = t then p else s.phase u :=
  update_apply s.phase t p u

theorem BufferOk.setPhase (h : BufferOk s) (ht : (s.phase t).Waiting) {p : Phase} (hp : p.Waiting) :
    BufferOk (s.setPhase t p) := by
  have hwaiting : ∀ u, (s.phase u).Waiting → ((s.setPhase t p).phase u).Waiting := by
    intro u hu
    rw [setPhase_phase]
    split
    · exact hp
    · exact hu
  rcases h with ⟨hlock, hall, hring⟩ | ⟨hlock, u, hcopy, hothers⟩
  · exact Or.inl ⟨hlock, fun u => hwaiting u (hall u), hring.congr rfl rfl rfl rfl rfl⟩
  · have hut : u ≠ t := by
      rintro rfl
      exact hcopy.not_waiting ht
    refine Or.inr ⟨hlock, u, ?_, fun v hv => hwaiting v (hothers v hv)⟩
    rw [setPhase_phase, if_neg hut]
    exact hcopy.congr rfl rfl rfl rfl rfl

theorem BufferOk.finish (h : BufferOk s) (ht : (s.phase t).Waiting) (value : ℤ) :
    BufferOk (s.finish t value) :=
  (h.setPhase (p := .idle) ht trivial).results _

theorem Held.finish (h : Held s t) (value : ℤ) : BufferOk (s.unixUnlock.finish t value) := by
  refine Or.inl ⟨rfl, fun u => ?_, h.ring.congr rfl rfl rfl rfl rfl⟩
  change ((s.setPhase t .idle).phase u).Waiting
  rw [setPhase_phase]
  split
  · trivial
  · next hu => exact h.others u hu

theorem Held.copy (h : Held s t) {p : Phase} (hp : CopyOk s p) : BufferOk (s.setPhase t p) := by
  refine Or.inr ⟨h.lock, t, ?_, fun u hu => ?_⟩
  · rw [setPhase_phase, if_pos rfl]
    exact hp.congr rfl rfl rfl rfl rfl
  · rw [setPhase_phase, if_neg hu]
    exact h.others u hu

theorem Held.readLoop (h : Held s t) (size : ℕ) {todo avail : ℕ} (htodo : 0 < todo)
    (havail : 0 < avail) (hle : min (min todo avail) (bufSize - s.bpTail) ≤ s.avail)
    (fault : Bool) :
    BufferOk (s.readLoop t size todo avail fault) := by
  have htail := h.ring.tail_lt
  unfold State.readLoop
  rw [if_neg (by omega)]
  split
  · exact h.finish _
  · exact h.copy ⟨by omega, by omega, by omega, by omega, h.ring⟩

variable {rest : List UInt8}

theorem Held.writeLoop (h : Held s t) (size : ℕ) {space : ℕ} (hrest : 0 < rest.length)
    (hspace : 0 < space) (hle : min (min rest.length space) (bufSize - s.bpHead) ≤ s.space)
    (fault : Bool) : BufferOk (s.writeLoop t size rest space fault) := by
  have hhead := h.ring.head_lt
  unfold State.writeLoop
  rw [if_neg (by omega)]
  split
  · exact h.finish _
  · split
    · exact h.finish _
    · exact h.copy ⟨by omega, by omega, by omega, by omega, h.ring⟩

section
variable (h : BufferOk s) (ht : (s.phase t).Waiting)
include h ht

theorem BufferOk.readLock {size avail : ℕ} (hsize : 0 < size) (havail : 0 < avail)
    (hle : s.lockFlag = false → min (min size avail) (bufSize - s.bpTail) ≤ s.avail) (fault : Bool)
    : BufferOk (s.readLock t size avail fault) := by
  unfold State.readLock
  split
  · exact h.setPhase ht ⟨hsize, havail⟩
  · next hlock =>
    have hfree : s.lockFlag = false := by simpa using hlock
    exact (h.hold hfree t).readLoop size hsize havail (hle hfree) fault

theorem BufferOk.writeLock (size : ℕ) {space : ℕ} (hrest : 0 < rest.length) (hspace : 0 < space)
    (hle : s.lockFlag = false → min (min rest.length space) (bufSize - s.bpHead) ≤ s.space)
    (fault : Bool) : BufferOk (s.writeLock t size rest space fault) := by
  unfold State.writeLock
  split
  · exact h.setPhase ht ⟨hrest, hspace⟩
  · next hlock =>
    have hfree : s.lockFlag = false := by simpa using hlock
    exact (h.hold hfree t).writeLoop size hrest hspace (hle hfree) fault

theorem BufferOk.readWait {size : ℕ} (hsize : 0 < size) (nonblock fault : Bool) :
    BufferOk (s.readWait t size nonblock fault) := by
  unfold State.readWait
  split
  · split
    · exact h.finish ht _
    · split
      · exact h.finish ht _
      · exact h.setPhase ht hsize
  · next havail =>
    exact h.readLock ht hsize (Nat.pos_of_ne_zero havail) (fun _ => by omega) fault

theorem BufferOk.writeWait (size : ℕ) (hrest : 0 < rest.length) (nonblock fault : Bool) :
    BufferOk (s.writeWait t size rest nonblock fault) := by
  unfold State.writeWait
  split
  · split
    · exact h.finish ht _
    · exact h.setPhase ht hrest
  · next hspace =>
    exact h.writeLock ht size hrest (Nat.pos_of_ne_zero hspace) (fun _ => by omega) fault

end

theorem BufferOk.waiting_or_copying (h : BufferOk s) (t : Task) :
    (s.phase t).Waiting ∨ (s.lockFlag = true ∧ CopyOk s (s.phase t) ∧
      ∀ u, u ≠ t → (s.phase u).Waiting) := by
  rcases h with ⟨-, hall, -⟩ | ⟨hlock, u, hcopy, hothers⟩
  · exact Or.inl (hall t)
  · by_cases hu : t = u
    · rw [hu]
      exact Or.inr ⟨hlock, hcopy, hothers⟩
    · exact Or.inl (hothers t hu)

theorem BufferOk.readByte (h : BufferOk s) {size todo cando done : ℕ}
    (hphase : s.phase t = .reading size todo cando done) (fault : Bool) :
    BufferOk (s.readByte t size todo cando done fault) := by
  rcases h.waiting_or_copying t with hwait | ⟨hlock, hcopy, hothers⟩
  · rw [hphase] at hwait
    exact hwait.elim
  · rw [hphase] at hcopy
    obtain ⟨hdone, htodo, hle, hend, hring⟩ := hcopy
    have hnext := hring.copyOut (by omega) (by omega)
    unfold State.readByte
    dsimp only
    split
    · next hmore =>
      refine Or.inr ⟨hlock, t, ?_, fun u hu => ?_⟩
      · rw [setPhase_phase, if_pos rfl]
        exact ⟨hmore, htodo, hle, hend, hnext.congr rfl rfl rfl rfl rfl⟩
      · rw [setPhase_phase, if_neg hu]
        exact hothers u hu
    · next hlast =>
      have hall : done + 1 = cando := by omega
      rw [hall] at hnext
      have hheld : Held { s with
          read := s.read ++ [s.buf (s.bpTail + done)]
          bpTail := (s.bpTail + cando) % bufSize } t :=
        ⟨hlock, hothers, hnext.moveTail⟩
      split
      · next hgo =>
        exact hheld.readLoop size (Nat.pos_of_ne_zero hgo.1) (Nat.pos_of_ne_zero hgo.2)
          ((min_le_left _ _).trans (min_le_right _ _)) fault
      · exact hheld.finish _

theorem BufferOk.writeByte (h : BufferOk s) {size cando done : ℕ}
    (hphase : s.phase t = .writing size rest cando done) (fault : Bool) :
    BufferOk (s.writeByte t size rest cando done fault) := by
  rcases h.waiting_or_copying t with hwait | ⟨hlock, hcopy, hothers⟩
  · rw [hphase] at hwait
    exact hwait.elim
  · rw [hphase] at hcopy
    obtain ⟨hdone, htodo, hle, hend, hring⟩ := hcopy
    unfold State.writeByte
    split
    · exact h
    · next b hb =>
      have hnext := hring.copyIn (by omega) (by omega) b
      dsimp only
      split
      · next hmore =>
        refine Or.inr ⟨hlock, t, ?_, fun u hu => ?_⟩
        · rw [setPhase_phase, if_pos rfl]
          exact ⟨hmore, htodo, hle, hend, hnext.congr rfl rfl rfl rfl rfl⟩
        · rw [setPhase_phase, if_neg hu]
          exact hothers u hu
      · next hlast =>
        have hall : done + 1 = cando := by omega
        rw [hall] at hnext
        have hheld : Held { s with
            buf := update s.buf (s.bpHead + done) b
            written := s.written ++ [b]
            bpHead := (s.bpHead + cando) % bufSize } t :=
          ⟨hlock, hothers, hnext.moveHead⟩
        split
        · next hgo =>
          exact hheld.writeLoop size (Nat.pos_of_ne_zero hgo.1) (Nat.pos_of_ne_zero hgo.2)
            ((min_le_left _ _).trans (min_le_right _ _)) fault
        · exact hheld.finish _

end

/-- The piece that a process copies first after it has waited for the lock is in the ring, or has
room in it.  Its length comes from an amount that was computed before the wait. -/
def Event.LockSafe (s : State Task) : Event Task → Prop
  | .wake t _ _ _ =>
    match s.phase t with
    | .lockRead size avail =>
      s.lockFlag = false → min (min size avail) (bufSize - s.bpTail) ≤ s.avail
    | .lockWrite _ rest space =>
      s.lockFlag = false → min (min rest.length space) (bufSize - s.bpHead) ≤ s.space
    | _ => True
  | _ => True

section

variable [DecidableEq Task] {s : State Task}

def RunLockSafe : State Task → List (Event Task) → Prop
  | _, [] => True
  | s, e :: es => e.LockSafe s ∧ RunLockSafe (step s e) es

theorem BufferOk.wake (h : BufferOk s) (t : Task) (nonblock signal fault : Bool)
    (hsafe : Event.LockSafe s (.wake t nonblock signal fault)) :
    BufferOk (s.wake t nonblock signal fault) := by
  dsimp only [Event.LockSafe] at hsafe
  have hphase := h.waiting_or_copying t
  unfold State.wake
  split
  · next size heq =>
    have hwait : (s.phase t).Waiting := hphase.resolve_right fun hc => by
      rw [heq] at hc
      exact hc.2.1
    split
    · exact h.finish hwait _
    · refine h.readWait hwait ?_ nonblock fault
      rw [heq] at hwait
      exact hwait
  · next size avail heq =>
    have hwait : (s.phase t).Waiting := hphase.resolve_right fun hc => by
      rw [heq] at hc
      exact hc.2.1
    have hpos := hwait
    rw [heq] at hpos hsafe
    exact h.readLock hwait hpos.1 hpos.2 hsafe fault
  · next size rest heq =>
    have hwait : (s.phase t).Waiting := hphase.resolve_right fun hc => by
      rw [heq] at hc
      exact hc.2.1
    split
    · exact h.finish hwait _
    · split
      · exact h.finish hwait _
      · refine h.writeWait hwait size ?_ nonblock fault
        rw [heq] at hwait
        exact hwait
  · next size rest space heq =>
    have hwait : (s.phase t).Waiting := hphase.resolve_right fun hc => by
      rw [heq] at hc
      exact hc.2.1
    have hpos := hwait
    rw [heq] at hpos hsafe
    exact h.writeLock hwait size hpos.1 hpos.2 hsafe fault
  · exact h

theorem BufferOk.step (h : BufferOk s) {e : Event Task} (he : e.LockSafe s) :
    BufferOk (step s e) := by
  cases e with
  | read t size nonblock fault =>
    dsimp only [UnixSocket.step]
    split
    · next heq =>
      have hwait : (s.phase t).Waiting := by
        rw [heq]
        trivial
      unfold State.unixProtoRead
      split
      · exact h.finish hwait _
      · next hsize => exact h.readWait hwait (Nat.pos_of_ne_zero hsize) nonblock fault
    · exact h
  | write t data nonblock fault =>
    dsimp only [UnixSocket.step]
    split
    · next heq =>
      have hwait : (s.phase t).Waiting := by
        rw [heq]
        trivial
      unfold State.unixProtoWrite
      split
      · exact h.finish hwait _
      · next hsize =>
        split
        · exact h.finish hwait _
        · exact h.writeWait hwait _ (Nat.pos_of_ne_zero hsize) nonblock fault
    · exact h
  | wake t nonblock signal fault => exact h.wake t nonblock signal fault he
  | copy t fault =>
    dsimp only [UnixSocket.step]
    split
    · next heq => exact h.readByte heq fault
    · next heq => exact h.writeByte heq fault
    · exact h
  | setState readState writeState =>
    rcases h with ⟨hlock, hall, hring⟩ | ⟨hlock, u, hcopy, hothers⟩
    · exact Or.inl ⟨hlock, hall, hring.congr rfl rfl rfl rfl rfl⟩
    · exact Or.inr ⟨hlock, u, hcopy.congr rfl rfl rfl rfl rfl, hothers⟩

theorem BufferOk.run (h : BufferOk s) (es : List (Event Task)) (hes : RunLockSafe s es) :
    BufferOk (run s es) := by
  induction es generalizing s with
  | nil => exact h
  | cons e es ih => exact ih (h.step hes.1) hes.2

omit [DecidableEq Task] in
theorem connected_bufferOk (buf : ℕ → UInt8) : BufferOk (connected Task buf) := by
  have hpos : 0 < bufSize := by decide
  exact Or.inl ⟨rfl, fun _ => trivial, hpos, hpos, Nat.zero_le _, hpos, rfl⟩

/-- What is expected of the stream: the bytes come out in the order in which they went in, no copy
is longer than what is there or has room, and a process has the lock only within a copy. -/
structure StreamOk (s : State Task) : Prop where
  stream : s.read <+: s.written
  reading : ∀ t size todo cando done, s.phase t = .reading size todo cando done → cando ≤ s.avail
  writing : ∀ t size rest cando done, s.phase t = .writing size rest cando done → cando ≤ s.space
  lock : s.lockFlag = true ↔ ∃! t, (s.phase t).Copying

theorem BufferOk.streamOk (h : BufferOk s) : StreamOk s := by
  have hcopies : ∀ t, (s.phase t).Copying → CopyOk s (s.phase t) := by
    intro t ht
    rcases h.waiting_or_copying t with hwait | ⟨-, hcopy, -⟩
    · exact absurd ht hwait.not_copying
    · exact hcopy
  refine ⟨?_, ?_, ?_, ?_⟩
  · rcases h with ⟨-, -, hring⟩ | ⟨-, t, hcopy, -⟩
    · exact ⟨_, hring.stream.symm⟩
    · cases hphase : s.phase t with
      | reading size todo cando done =>
        rw [hphase] at hcopy
        exact ⟨_, hcopy.2.2.2.2.stream.symm⟩
      | writing size rest cando done =>
        rw [hphase] at hcopy
        exact ⟨_, hcopy.2.2.2.2.stream.symm⟩
      | _ =>
        rw [hphase] at hcopy
        exact hcopy.elim
  · intro t size todo cando done hphase
    have hcopy := hcopies t (by rw [hphase]; trivial)
    rw [hphase] at hcopy
    exact hcopy.2.2.1
  · intro t size rest cando done hphase
    have hcopy := hcopies t (by rw [hphase]; trivial)
    rw [hphase] at hcopy
    exact hcopy.2.2.1
  · rcases h with ⟨hlock, hall, -⟩ | ⟨hlock, t, hcopy, hothers⟩
    · rw [hlock]
      refine iff_of_false (by decide) ?_
      rintro ⟨t, ht, -⟩
      exact (hall t).not_copying ht
    · refine iff_of_true hlock ⟨t, hcopy.copying, fun u hu => ?_⟩
      by_contra hne
      exact (hothers u hne).not_copying hu

/-- The stream is in order in every run where nobody gets the lock when the amount it has computed
before has become too large for it. -/
theorem run_streamOk (buf : ℕ → UInt8) (es : List (Event Task))
    (hes : RunLockSafe (connected Task buf) es) : StreamOk (run (connected Task buf) es) :=
  ((connected_bufferOk buf).run es hes).streamOk

end

theorem run_streamOk_threeTasks :
    StreamOk (run (connected (Fin 3) fun _ => 0)
      [.write 0 [5, 6, 7] false false, .copy 0 false, .copy 0 false, .copy 0 false,
        .read 1 2 false false, .read 2 1 false false, .copy 1 false, .copy 1 false,
        .wake 2 false false false]) := by
  refine run_streamOk _ _ ⟨trivial, trivial, trivial, trivial, trivial, trivial, trivial, trivial,
    ?_, trivial⟩
  intro _
  decide +kernel

/-- Both readers have seen the three bytes when the first one copies them.  The second one takes
three more bytes, which nobody has written. -/
theorem secondReader_overtakes :
    ¬StreamOk (run (connected (Fin 3) fun _ => 0)
      [.write 0 [5, 6, 7] false false, .copy 0 false, .copy 0 false, .copy 0 false,
        .read 1 3 false false, .read 2 3 false false,
        .copy 1 false, .copy 1 false, .copy 1 false,
        .wake 2 false false false, .copy 2 false]) := by
  intro hok
  have hread := hok.stream.length_le
  revert hread
  decide +kernel

end LinuxKernel.UnixSocket
