import LinuxKernel.MessageAccounting
import Mathlib

/-!
# The capacity of a message queue

`sys_msgsnd` tests for room before `kmalloc` and appends after it, without another
test.  Where every message still fits when it is appended, a queue never holds
more than `msg_qbytes` and its count of bytes never wraps.
-/

namespace LinuxKernel.Message
open Function

variable {Task : Type}

def Room (s : Msgs Task) (msq : ℕ) (cells : List ℕ) : Prop :=
  s.bytes cells ≤ (s.queues msq).msgCbytes ∧
    (s.queues msq).msgCbytes ≤ (s.queues msq).msgQbytes ∧ (s.queues msq).msgQbytes < 65536

variable {e : Event Task}

variable {msq' : ℕ}

variable {cells : ℕ → List ℕ}

variable {s : Msgs Task} {msq : ℕ}

theorem Room.congr {s' : Msgs Task} {cells : List ℕ} (h : Room s msq cells)
    (hcbytes : (s'.queues msq).msgCbytes = (s.queues msq).msgCbytes)
    (hqbytes : (s'.queues msq).msgQbytes = (s.queues msq).msgQbytes)
    (hts : ∀ a ∈ cells, (s'.msgs a).msgTs = (s.msgs a).msgTs) : Room s' msq cells := by
  unfold Room
  rw [hcbytes, hqbytes, bytes_congr hts]
  exact h

section Steps

variable [DecidableEq Task] [Fintype Task]

def receiveOf (s : Msgs Task) : Event Task → Option Receive
  | .msgrcv _ msqid msgsz msgtyp nowait noerror except _ _ =>
    match s.msgque (msqid % msgmni) with
    | .queue msq => some ⟨msq, msqid, msgsz.toNat, msgtyp, nowait, noerror, except⟩
    | _ => none
  | .wake t _ _ _ =>
    match s.sleep t with
    | some (.rwait rcv) => some rcv
    | _ => none
  | _ => none

def Wraps (s : Msgs Task) (msq : ℕ) (e : Event Task) : Prop :=
  (∃ snd, appendOf s e = some snd ∧ snd.msq = msq ∧ 65536 ≤ (s.queues msq).msgCbytes + snd.msgsz) ∨
    ∃ rcv, receiveOf s e = some rcv ∧ rcv.msq = msq ∧
      (s.queues msq).seq = rcv.msqid / msgmni ∧ s.choose rcv ≠ 0 ∧
      (s.queues msq).msgCbytes < (s.msgs (s.choose rcv)).msgTs

/-- A message for the queue still fits when it is appended, and `msg_qbytes` is
not lowered. -/
structure StepRoom (s : Msgs Task) (msq : ℕ) (e : Event Task) : Prop where
  fits : ∀ snd, appendOf s e = some snd → snd.msq = msq →
    snd.msgsz + (s.queues msq).msgCbytes ≤ (s.queues msq).msgQbytes
  raised : ∀ qbytes, setOf s e = some (msq, qbytes) → (s.queues msq).msgQbytes ≤ qbytes

omit [DecidableEq Task] [Fintype Task] in
theorem Room.append (hchains : Chains s cells)
    (hheld : s.Held msq) (h : Room s msq (cells msq)) {snd : Send}
    (hfits : snd.msq = msq → snd.msgsz + (s.queues msq).msgCbytes ≤ (s.queues msq).msgQbytes) :
    Room (s.append snd) msq
      (update cells snd.msq (cells snd.msq ++ [s.nextMsg]) msq) := by
  have hlist := hchains.list msq hheld
  have hts : ∀ a ∈ cells msq, ((s.append snd).msgs a).msgTs = (s.msgs a).msgTs := by
    intro a ha
    rw [append_ts, if_neg (ne_of_lt (hlist.fresh a ha))]
  by_cases heq : msq = snd.msq
  · obtain ⟨h1, h2, h3⟩ := h
    have hle := hfits heq.symm
    rw [heq] at h1 h2 h3 hle hts ⊢
    rw [update_self]
    have hsum : (s.append snd).bytes (cells snd.msq ++ [s.nextMsg]) =
        s.bytes (cells snd.msq) + snd.msgsz := by
      rw [← bytes_congr hts]
      unfold Msgs.bytes
      rw [List.map_append, List.sum_append, List.map_singleton, List.sum_singleton, append_ts,
        if_pos rfl]
    unfold Room
    rw [hsum, append_queue]
    dsimp only
    rw [Nat.mod_eq_of_lt (by omega)]
    omega
  · rw [update_of_ne heq]
    have hqueue := append_queues_of_ne s snd heq
    exact h.congr (by rw [hqueue]) (by rw [hqueue]) hts

omit [DecidableEq Task] [Fintype Task] in
theorem bytes_takeCells_le {cells : List ℕ} {nmsg : ℕ} (h : nmsg ∈ cells) :
    s.bytes (takeCells cells nmsg) + (s.msgs nmsg).msgTs ≤ s.bytes cells := by
  have hsplit := bytes_erase (s := s) h
  unfold takeCells
  split
  · unfold Msgs.bytes at hsplit ⊢
    simp only [List.map_nil, List.sum_nil]
    omega
  · omega

omit [DecidableEq Task] [Fintype Task] in
theorem Room.take (h : Room s msq (cells msq))
    {nmsg : ℕ} (hmem : nmsg ∈ cells msq') :
    Room (s.take msq' nmsg) msq (update cells msq' (takeCells (cells msq') nmsg) msq) := by
  obtain ⟨_, _, _, _, _, _, _, hts⟩ := take_fields s msq' nmsg
  by_cases heq : msq = msq'
  · rw [heq] at h ⊢
    obtain ⟨h1, h2, h3⟩ := h
    obtain ⟨_, _, hcbytes, hqbytes⟩ := take_queue s msq' nmsg
    have hle := bytes_takeCells_le (s := s) hmem
    have hsame : (s.take msq' nmsg).bytes (takeCells (cells msq') nmsg) =
        s.bytes (takeCells (cells msq') nmsg) := bytes_congr fun a _ => hts a
    rw [update_self]
    unfold Room
    rw [hcbytes, hqbytes, hsame]
    omega
  · rw [update_of_ne heq]
    have hqueue := take_queues_of_ne s msq' nmsg heq
    exact h.congr (by rw [hqueue]) (by rw [hqueue]) fun a _ => hts a

omit [Fintype Task] in
theorem held_of_setSleep {t : Task} {w : Option Sleep}
    (hw : w ≠ some (.freeque msq)) (h : (s.setSleep t w).Held msq) : s.Held msq := by
  rcases h with hslot | ⟨t', ht'⟩
  · exact Or.inl hslot
  · rw [setSleep_sleep] at ht'
    split at ht'
    · exact absurd ht' hw
    · exact Or.inr ⟨t', ht'⟩

omit [DecidableEq Task] [Fintype Task] in
theorem held_congr {s' : Msgs Task} (hque : s'.msgque = s.msgque)
    (hsleep : s'.sleep = s.sleep) (h : s'.Held msq) : s.Held msq := by
  unfold Msgs.Held at h ⊢
  rwa [hque, hsleep] at h

omit [DecidableEq Task] [Fintype Task] in
theorem held_of_setSlot {id : ℕ} {slot : Slot}
    (hslot : slot ≠ .queue msq)
    (h : { s with msgque := update s.msgque id slot }.Held msq) : s.Held msq := by
  rcases h with ⟨id', hs⟩ | hdying
  · change update s.msgque id slot id' = _ at hs
    by_cases he : id' = id
    · rw [he, update_self] at hs
      exact absurd hs hslot
    · rw [update_of_ne he] at hs
      exact Or.inl ⟨id', hs⟩
  · exact Or.inr hdying

omit [Fintype Task] in
theorem held_of_detach {t : Task} {id : ℕ}
    (hslot : s.msgque id = .queue msq')
    (h : ((s.detach id msq').setSleep t (some (.freeque msq'))).Held msq) : s.Held msq := by
  by_cases heq : msq = msq'
  · rw [heq]
    exact Or.inl ⟨id, hslot⟩
  · have hw : some (Sleep.freeque msq') ≠ some (.freeque msq) := by
      intro hsome
      rw [Option.some.injEq, Sleep.freeque.injEq] at hsome
      exact heq hsome.symm
    exact held_of_setSlot (by simp) (held_of_setSleep hw h)

omit [DecidableEq Task] [Fintype Task] in
theorem Room.detach {cells : List ℕ} (h : Room s msq cells)
    (id msq' : ℕ) : Room (s.detach id msq') msq cells := by
  apply h.congr (detach_queue s id msq' msq).2.1
  · unfold Msgs.detach
    dsimp only
    by_cases heq : msq = msq'
    · rw [heq, update_self]
    · rw [update_of_ne heq]
  · exact fun a _ => rfl

omit [Fintype Task] in
theorem Room.newqueAlloc
    (h : s.Held msq → Room s msq (cells msq)) (t : Task) (id : ℕ) (memory : Bool)
    (hheld : (s.newqueAlloc t id memory).1.Held msq) :
    Room (s.newqueAlloc t id memory).1 msq (newCells s cells memory msq) := by
  unfold Msgs.newqueAlloc at hheld ⊢
  unfold newCells
  cases memory with
  | false =>
    rw [if_neg (by simp)] at hheld
    rw [if_neg (by simp), if_neg (by simp)]
    have hold : s.Held msq := held_of_setSlot (by simp) (held_of_setSleep (by simp) hheld)
    exact (h hold).congr rfl rfl fun a _ => rfl
  | true =>
    rw [if_pos rfl] at hheld
    rw [if_pos rfl, if_pos rfl]
    by_cases hnew : msq = s.nextQueue
    · rw [hnew, update_self]
      unfold Room Msgs.bytes Msgs.setSleep msgmnb
      dsimp only
      rw [update_self]
      dsimp only
      refine ⟨?_, ?_, ?_⟩
      · simp
      · omega
      · omega
    · have hslot : Slot.queue s.nextQueue ≠ .queue msq := by
        rw [ne_eq, Slot.queue.injEq]
        exact fun heq => hnew heq.symm
      have hold : s.Held msq :=
        held_of_setSlot hslot (held_congr rfl rfl (held_of_setSleep (by simp) hheld))
      have hqueue : update s.queues s.nextQueue
          { seq := s.msgSeq, msgFirst := 0, msgLast := 0, msgCbytes := 0, msgQnum := 0,
            msgQbytes := msgmnb } msq = s.queues msq := update_of_ne hnew ..
      rw [update_of_ne hnew]
      apply (h hold).congr
      · exact congrArg MsqidDs.msgCbytes hqueue
      · exact congrArg MsqidDs.msgQbytes hqueue
      · exact fun a _ => rfl

omit [DecidableEq Task] [Fintype Task] in
theorem Room.setQbytes {cells : List ℕ} (h : Room s msq cells)
    {qbytes : ℕ} (hlt : qbytes < 65536)
    (hraised : msq' = msq → (s.queues msq).msgQbytes ≤ qbytes) :
    Room (s.setQueue msq' { s.queues msq' with msgQbytes := qbytes }) msq cells := by
  by_cases heq : msq = msq'
  · obtain ⟨h1, h2, _⟩ := h
    have hle := hraised heq.symm
    have hself : (s.setQueue msq' { s.queues msq' with msgQbytes := qbytes }).queues msq =
        { s.queues msq with msgQbytes := qbytes } := by
      rw [heq]
      exact update_self ..
    unfold Room
    rw [hself]
    exact ⟨h1, le_trans h2 hle, hlt⟩
  · have hqueue : (s.setQueue msq' { s.queues msq' with msgQbytes := qbytes }).queues msq =
        s.queues msq := update_of_ne heq ..
    exact h.congr (by rw [hqueue]) (by rw [hqueue]) fun a _ => rfl

theorem Room.step (hchains : Chains s cells)
    (h : s.Held msq → Room s msq (cells msq)) (hroom : StepRoom s msq e) :
    ∃ cells', Chains (s.step e).1 cells' ∧
      ((s.step e).1.Held msq → Room (s.step e).1 msq (cells' msq)) := by
  have hmoves := hchains.step_moves e
  generalize (s.step e).1 = s' at hmoves
  cases hmoves with
  | stay => exact ⟨cells, hchains, h⟩
  | sleeps t w hidle hknows =>
    refine ⟨cells, hchains.setSleep hknows, ?_⟩
    intro hheld
    have hw : w ≠ some (.freeque msq) := by
      apply not_freeque_of_uses
      intro w' hw'
      obtain ⟨_, _, huses, _⟩ := hknows w' hw'
      exact ⟨_, _, huses⟩
    exact (h (held_of_setSleep hw hheld)).congr rfl rfl fun a _ => rfl
  | appends t snd happend hcall hslot =>
    refine ⟨_, (hchains.append hslot).stopSleep t, ?_⟩
    intro hheld
    have hfields := append_fields s snd
    have hold : s.Held msq := held_congr hfields.1 hfields.2.1 (held_of_setSleep (by simp) hheld)
    exact (Room.append hchains hold (h hold) (hroom.fits snd happend)).congr rfl rfl fun a _ => rfl
  | takes t rcv hidle hslot hne =>
    have hmem := (hchains.list_of_slot hslot).choose_mem hne
    refine ⟨_, (hchains.take hslot hmem).stopSleep t, ?_⟩
    intro hheld
    have hfields := take_fields s rcv.msq (s.choose rcv)
    have hold : s.Held msq := held_congr hfields.1 hfields.2.1 (held_of_setSleep (by simp) hheld)
    exact ((h hold).take hmem).congr rfl rfl fun a _ => rfl
  | reserves t id hidle hunused hid =>
    refine ⟨cells, hchains.reserve hunused hid, ?_⟩
    intro hheld
    have hold : s.Held msq := held_of_setSlot (by simp) (held_of_setSleep (by simp) hheld)
    exact (h hold).congr rfl rfl fun a _ => rfl
  | creates t id memory hcall =>
    exact ⟨_, hchains.newqueAlloc hcall memory, Room.newqueAlloc h t id memory⟩
  | detaches t id msq' hidle hslot =>
    refine ⟨cells, hchains.detach hslot (Or.inr rfl), ?_⟩
    intro hheld
    exact ((h (held_of_detach hslot hheld)).detach id msq').congr rfl rfl fun a _ => rfl
  | removes t id msq' hidle hslot =>
    refine ⟨cells, (hchains.detach (t := t) hslot (Or.inl rfl)).release msq', ?_⟩
    intro hheld
    have hold : s.Held msq :=
      held_of_setSlot (by simp) (held_congr (s := s.detach id msq') rfl rfl
        (held_of_setSleep (by simp) hheld))
    exact ((h hold).detach id msq').congr rfl rfl fun a _ => rfl
  | releases t msq' hcall =>
    refine ⟨cells, (hchains.release msq').stopSleep t, ?_⟩
    intro hheld
    have hold : s.Held msq := held_congr rfl rfl (held_of_setSleep (by simp) hheld)
    exact (h hold).congr rfl rfl fun a _ => rfl
  | sets id msq' qbytes hset hslot hlt =>
    refine ⟨cells, hchains.setQbytes hslot qbytes, ?_⟩
    intro hheld
    have hold : s.Held msq := held_congr rfl rfl hheld
    apply (h hold).setQbytes hlt
    intro heq
    rw [heq] at hset
    exact hroom.raised qbytes hset

omit [DecidableEq Task] [Fintype Task] in
theorem Chains.append_slot (h : Chains s cells) {snd : Send} (happend : appendOf s e = some snd) :
    s.msgque (snd.msqid % msgmni) = .queue snd.msq := by
  unfold appendOf at happend
  split at happend
  · rename_i t _ _
    split at happend
    · rename_i snd' hcall
      split at happend
      · rename_i hseq
        rw [Option.some.injEq] at happend
        rw [happend] at hcall hseq
        exact (h.knows t _ snd.msq snd.msqid hcall rfl).slot hseq
      · simp at happend
    · simp at happend
  · simp at happend

omit [DecidableEq Task] [Fintype Task] in
theorem Chains.receive_slot (h : Chains s cells) {rcv : Receive}
    (hreceive : receiveOf s e = some rcv)
    (hseq : (s.queues rcv.msq).seq = rcv.msqid / msgmni) :
    s.msgque (rcv.msqid % msgmni) = .queue rcv.msq := by
  unfold receiveOf at hreceive
  split at hreceive
  · split at hreceive
    · rename_i msq hslot
      rw [Option.some.injEq] at hreceive
      rw [← hreceive]
      exact hslot
    · simp at hreceive
  · rename_i t _ _ _
    split at hreceive
    · rename_i rcv' hcall
      rw [Option.some.injEq] at hreceive
      rw [hreceive] at hcall
      exact (h.knows t _ rcv.msq rcv.msqid hcall rfl).slot hseq
    · simp at hreceive
  · simp at hreceive

omit [DecidableEq Task] [Fintype Task] in
theorem Room.not_wraps (hchains : Chains s cells)
    (h : s.Held msq → Room s msq (cells msq)) (hroom : StepRoom s msq e) :
    ¬Wraps s msq e := by
  rintro (⟨snd, happend, hmsq, hge⟩ | ⟨rcv, hreceive, hmsq, hseq, hne, hlt⟩)
  · have hslot := hchains.append_slot happend
    rw [hmsq] at hslot
    obtain ⟨_, _, hqbytes⟩ := h (Or.inl ⟨_, hslot⟩)
    have hfits := hroom.fits snd happend hmsq
    omega
  · rw [← hmsq] at hseq hlt h
    have hslot := hchains.receive_slot hreceive hseq
    obtain ⟨hbytes, _, _⟩ := h (Or.inl ⟨_, hslot⟩)
    have hmem := (hchains.list_of_slot hslot).choose_mem hne
    have hle := bytes_takeCells_le (s := s) hmem
    omega

def RunRoom : Msgs Task → ℕ → List (Event Task) → Prop
  | _, _, [] => True
  | s, msq, e :: es => StepRoom s msq e ∧ RunRoom (s.step e).1 msq es

theorem Room.run (hchains : Chains s cells)
    (h : s.Held msq → Room s msq (cells msq)) {es : List (Event Task)}
    (hrun : RunRoom s msq es) :
    ∃ cells', Chains (s.run es) cells' ∧
      ((s.run es).Held msq → Room (s.run es) msq (cells' msq)) := by
  induction es generalizing s cells with
  | nil => exact ⟨cells, hchains, h⟩
  | cons e es ih =>
    obtain ⟨cells', hchains', h'⟩ := Room.step hchains h hrun.1
    exact ih hchains' h' hrun.2

end Steps

theorem oneMessage_room : RunRoom (Msgs.init : Msgs (Fin 3)) 1 oneMessage := by
  refine ⟨⟨?_, ?_⟩, ⟨?_, ?_⟩, ⟨?_, ?_⟩, ⟨?_, ?_⟩, trivial⟩
  · intro snd hsnd
    simp [appendOf] at hsnd
  · intro qbytes hset
    simp [setOf] at hset
  · intro snd hsnd
    have hnone : appendOf ((Msgs.init : Msgs (Fin 3)).step (.newque 0)).1
        (.wake 0 true true false) = none := rfl
    rw [hnone] at hsnd
    simp at hsnd
  · intro qbytes hset
    simp [setOf] at hset
  · intro snd hsnd
    simp [appendOf] at hsnd
  · intro qbytes hset
    simp [setOf] at hset
  · intro snd hsnd _
    cases oneMessage_appends.symm.trans hsnd
    decide
  · intro qbytes hset
    simp [setOf] at hset

local instance twoTasks : NeZero 2 := ⟨by decide⟩

def twoSenders : List (Event (Fin 2)) :=
  [.newque 0, .wake 0 true true false,
    .msgsnd 0 0 4056 1 false true false, .wake 0 true true false,
    .msgsnd 0 0 4056 1 false true false, .wake 0 true true false,
    .msgsnd 0 0 4056 1 false true false, .wake 0 true true false,
    .msgsnd 0 0 4056 1 false true false, .msgsnd 1 0 4056 1 false true false,
    .wake 0 true true false, .wake 1 true true false]

end LinuxKernel.Message
