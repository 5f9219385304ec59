import LinuxKernel.MessageQueues

/-!
# The counters of the message queues

While no queue outgrows its 16-bit counters, `msg_qnum` and `msg_cbytes` of every
queue and the two global counters agree with the messages that are there.
`freeque` takes a queue out of `msgbytes` before it waits for the sleepers and
out of `msghdrs` after that.
-/

namespace LinuxKernel.Message
open Function List

variable {Task : Type}

/-! ## Sums over slots and tasks -/

def Msgs.slotValue (s : Msgs Task) (f : MsqidDs → ℤ) (id : ℕ) : ℤ :=
  match s.msgque id with
  | .queue msq => f (s.queues msq)
  | _ => 0

def Msgs.dyingValue (s : Msgs Task) (f : MsqidDs → ℤ) (t : Task) : ℤ :=
  match s.sleep t with
  | some (.freeque msq) => f (s.queues msq)
  | _ => 0

def Msgs.liveSum (s : Msgs Task) (f : MsqidDs → ℤ) : ℤ :=
  ∑ id ∈ Finset.range msgmni, s.slotValue f id

def Msgs.dyingSum [Fintype Task] (s : Msgs Task) (f : MsqidDs → ℤ) : ℤ := ∑ t, s.dyingValue f t

variable {s s' : Msgs Task} {f : MsqidDs → ℤ} {id : ℕ}

theorem liveSum_change (hid : id < msgmni)
    (h : ∀ id', id' ≠ id → s'.slotValue f id' = s.slotValue f id') :
    s'.liveSum f = s.liveSum f + (s'.slotValue f id - s.slotValue f id) := by
  have hmem : id ∈ Finset.range msgmni := Finset.mem_range.mpr hid
  unfold Msgs.liveSum
  rw [← Finset.add_sum_erase _ (s'.slotValue f) hmem, ← Finset.add_sum_erase _ (s.slotValue f) hmem]
  have hrest : ∑ id' ∈ (Finset.range msgmni).erase id, s'.slotValue f id' =
      ∑ id' ∈ (Finset.range msgmni).erase id, s.slotValue f id' := by
    apply Finset.sum_congr rfl
    intro id' hid'
    exact h id' (Finset.ne_of_mem_erase hid')
  rw [hrest]
  ring

theorem dyingSum_change [Fintype Task] [DecidableEq Task]
    (t : Task) (h : ∀ t', t' ≠ t → s'.dyingValue f t' = s.dyingValue f t') :
    s'.dyingSum f = s.dyingSum f + (s'.dyingValue f t - s.dyingValue f t) := by
  unfold Msgs.dyingSum
  rw [← Finset.add_sum_erase _ (s'.dyingValue f) (Finset.mem_univ t),
    ← Finset.add_sum_erase _ (s.dyingValue f) (Finset.mem_univ t)]
  have hrest : ∑ t' ∈ Finset.univ.erase t, s'.dyingValue f t' =
      ∑ t' ∈ Finset.univ.erase t, s.dyingValue f t' := by
    apply Finset.sum_congr rfl
    intro t' ht'
    exact h t' (Finset.ne_of_mem_erase ht')
  rw [hrest]
  ring

variable {msq : ℕ}

theorem slotValue_queue
    (h : s.msgque id = .queue msq) : s.slotValue f id = f (s.queues msq) := by
  unfold Msgs.slotValue
  rw [h]

theorem slotValue_of_not_queue
    (h : ∀ msq, s.msgque id ≠ .queue msq) : s.slotValue f id = 0 := by
  unfold Msgs.slotValue
  split
  · rename_i msq hmsq
    exact absurd hmsq (h msq)
  · rfl

variable {t : Task}

theorem dyingValue_freeque
    (h : s.sleep t = some (.freeque msq)) : s.dyingValue f t = f (s.queues msq) := by
  unfold Msgs.dyingValue
  rw [h]

theorem dyingValue_of_not_freeque
    (h : ∀ msq, s.sleep t ≠ some (.freeque msq)) : s.dyingValue f t = 0 := by
  unfold Msgs.dyingValue
  split
  · rename_i msq hmsq
    exact absurd hmsq (h msq)
  · rfl

theorem dyingSum_congr [Fintype Task]
    (h : ∀ t, s'.dyingValue f t = s.dyingValue f t) : s'.dyingSum f = s.dyingSum f := by
  exact Finset.sum_congr rfl fun t _ => h t

def cbytesOf (q : MsqidDs) : ℤ := q.msgCbytes

def qnumOf (q : MsqidDs) : ℤ := q.msgQnum

def Msgs.bytes (s : Msgs Task) (cells : List ℕ) : ℕ := (cells.map fun a => (s.msgs a).msgTs).sum

structure Exact [Fintype Task] (s : Msgs Task) (cells : ℕ → List ℕ) : Prop where
  qnum : ∀ msq, s.Held msq → (s.queues msq).msgQnum = (cells msq).length
  cbytes : ∀ msq, s.Held msq → (s.queues msq).msgCbytes = s.bytes (cells msq)
  cbytes_lt : ∀ msq, s.Held msq → (s.queues msq).msgCbytes < 65536
  msgbytes : s.msgbytes = s.liveSum cbytesOf
  msghdrs : s.msghdrs = s.liveSum qnumOf + s.dyingSum qnumOf

theorem bytes_congr {cells : List ℕ}
    (h : ∀ a ∈ cells, (s'.msgs a).msgTs = (s.msgs a).msgTs) : s'.bytes cells = s.bytes cells := by
  unfold Msgs.bytes
  congr 1
  exact map_congr_left h

variable {w : Option Sleep}

variable {cells : ℕ → List ℕ}

theorem bytes_erase {cells : List ℕ} {a : ℕ} (h : a ∈ cells) :
    s.bytes cells = (s.msgs a).msgTs + s.bytes (cells.erase a) := by
  exact (sum_map_erase (fun a => (s.msgs a).msgTs) h).symm

section Moves

variable [Fintype Task]

section
variable (h : Exact s cells) (hchains : Chains s cells)
include h hchains

theorem Exact.of_queue (hslot : s.msgque id = .queue msq) {new : List ℕ}
    (hque : s'.msgque = s.msgque) (hsleep : s'.sleep = s.sleep)
    (hother : ∀ msq', msq' ≠ msq → s'.queues msq' = s.queues msq')
    (hts : ∀ msq', s.Held msq' → msq' ≠ msq → ∀ a ∈ cells msq',
      (s'.msgs a).msgTs = (s.msgs a).msgTs)
    (hqnum : (s'.queues msq).msgQnum = new.length)
    (hcbytes : (s'.queues msq).msgCbytes = s'.bytes new) (hlt : (s'.queues msq).msgCbytes < 65536)
    (hmsgbytes : s'.msgbytes = s.msgbytes + ((s'.queues msq).msgCbytes - (s.queues msq).msgCbytes))
    (hmsghdrs : s'.msghdrs = s.msghdrs + ((s'.queues msq).msgQnum - (s.queues msq).msgQnum)) :
    Exact s' (update cells msq new) := by
  have hid := hchains.slot_lt id msq hslot
  have hslot' : s'.msgque id = .queue msq := by
    rw [hque]
    exact hslot
  have hHeld : ∀ a, s'.Held a ↔ s.Held a := by
    intro a
    unfold Msgs.Held
    rw [hque, hsleep]
  have hlive : ∀ f : MsqidDs → ℤ,
      s'.liveSum f = s.liveSum f + (f (s'.queues msq) - f (s.queues msq)) := by
    intro f
    rw [liveSum_change hid, slotValue_queue hslot, slotValue_queue hslot']
    intro id' hne
    unfold Msgs.slotValue
    rw [hque]
    cases hs : s.msgque id' with
    | queue msq' =>
      have hne' : msq' ≠ msq := by
        intro heq
        rw [heq] at hs
        exact hne (hchains.slot_inj id' id msq hs hslot)
      dsimp only
      rw [hother msq' hne']
    | unused => rfl
    | noid => rfl
  have hdying : s'.dyingSum qnumOf = s.dyingSum qnumOf := by
    apply dyingSum_congr
    intro t
    unfold Msgs.dyingValue
    rw [hsleep]
    split
    · rename_i msq' ht
      rw [hother msq']
      intro heq
      rw [heq] at ht
      exact hchains.dying_slot t id msq ht hslot
    · rfl
  constructor
  · intro a ha
    rw [hHeld] at ha
    by_cases heq : a = msq
    · rw [heq, update_self]
      exact hqnum
    · rw [update_of_ne heq, hother a heq]
      exact h.qnum a ha
  · intro a ha
    rw [hHeld] at ha
    by_cases heq : a = msq
    · rw [heq, update_self]
      exact hcbytes
    · rw [update_of_ne heq, hother a heq, bytes_congr (hts a ha heq)]
      exact h.cbytes a ha
  · intro a ha
    rw [hHeld] at ha
    by_cases heq : a = msq
    · rw [heq]
      exact hlt
    · rw [hother a heq]
      exact h.cbytes_lt a ha
  · rw [hmsgbytes, hlive, h.msgbytes]
    rfl
  · rw [hmsghdrs, hlive, hdying, h.msghdrs]
    unfold qnumOf
    ring

theorem Exact.append {snd : Send} (hslot : s.msgque id = .queue snd.msq)
    (hqnum : (s.queues snd.msq).msgQnum + 1 < 65536)
    (hcbytes : (s.queues snd.msq).msgCbytes + snd.msgsz < 65536) :
    Exact (s.append snd) (update cells snd.msq (cells snd.msq ++ [s.nextMsg])) := by
  obtain ⟨hque, hsleep, _, _, _, hbytes, hhdrs⟩ := append_fields s snd
  have hheld : s.Held snd.msq := .inl ⟨id, hslot⟩
  have hlist := hchains.list snd.msq hheld
  have hnew : ∀ a, a < s.nextMsg → ((s.append snd).msgs a).msgTs = (s.msgs a).msgTs := by
    intro a ha
    rw [append_ts, if_neg (ne_of_lt ha)]
  have hq : ((s.append snd).queues snd.msq).msgQnum = (s.queues snd.msq).msgQnum + 1 := by
    rw [append_queue]
    exact Nat.mod_eq_of_lt hqnum
  have hc : ((s.append snd).queues snd.msq).msgCbytes =
      (s.queues snd.msq).msgCbytes + snd.msgsz := by
    rw [append_queue]
    exact Nat.mod_eq_of_lt hcbytes
  apply h.of_queue hchains hslot hque hsleep (fun msq' hne => append_queues_of_ne s snd hne)
  · intro msq' hheld' _ a ha
    exact hnew a ((hchains.list msq' hheld').fresh a ha)
  · rw [hq, h.qnum snd.msq hheld, length_append, length_singleton]
  · rw [hc, h.cbytes snd.msq hheld]
    have hold : (s.append snd).bytes (cells snd.msq) = s.bytes (cells snd.msq) :=
      bytes_congr fun a ha => hnew a (hlist.fresh a ha)
    rw [← hold]
    unfold Msgs.bytes
    rw [map_append, sum_append, map_singleton, sum_singleton, append_ts, if_pos rfl]
  · rw [hc]
    exact hcbytes
  · rw [hbytes, hc]
    push_cast
    ring
  · rw [hhdrs, hq]
    push_cast
    ring

theorem Exact.take {nmsg : ℕ} (hslot : s.msgque id = .queue msq) (hmem : nmsg ∈ cells msq) :
    Exact (s.take msq nmsg) (update cells msq (takeCells (cells msq) nmsg)) := by
  obtain ⟨hque, hsleep, _, _, _, hbytes, hhdrs, hts⟩ := take_fields s msq nmsg
  obtain ⟨_, hq, hc, _⟩ := take_queue s msq nmsg
  have hheld : s.Held msq := .inl ⟨id, hslot⟩
  have hlist := hchains.list msq hheld
  have hlen := h.qnum msq hheld
  have hsum := h.cbytes msq hheld
  have hlt := h.cbytes_lt msq hheld
  have hpos : 0 < (cells msq).length := length_pos_of_mem hmem
  have hlen' : (cells msq).length < 65536 := by
    have hmod := hlist.qnum
    omega
  have herase := length_erase_of_mem hmem
  have hsplit := bytes_erase (s := s) hmem
  have hcells : takeCells (cells msq) nmsg = (cells msq).erase nmsg := by
    unfold takeCells
    split
    · symm
      apply eq_nil_of_length_eq_zero
      omega
    · rfl
  have hq' : ((s.take msq nmsg).queues msq).msgQnum = (s.queues msq).msgQnum - 1 := by
    omega
  have hc' : ((s.take msq nmsg).queues msq).msgCbytes =
      (s.queues msq).msgCbytes - (s.msgs nmsg).msgTs := by
    omega
  rw [hcells]
  apply h.of_queue hchains hslot hque hsleep (fun msq' hne => take_queues_of_ne s msq nmsg hne)
  · intro msq' _ _ a _
    exact hts a
  · rw [hq', herase, hlen]
  · have hsame : (s.take msq nmsg).bytes ((cells msq).erase nmsg) =
        s.bytes ((cells msq).erase nmsg) := bytes_congr fun a _ => hts a
    omega
  · omega
  · omega
  · omega

end

theorem Exact.of_held (h : Exact s cells)
    (hHeld : ∀ msq, s'.Held msq → s.Held msq)
    (hboth : ∀ msq, s.Held msq → (s'.queues msq).msgQnum = (s.queues msq).msgQnum ∧
      (s'.queues msq).msgCbytes = (s.queues msq).msgCbytes)
    (hmsgs : s'.msgs = s.msgs) (hmsgbytes : s'.msgbytes = s'.liveSum cbytesOf)
    (hmsghdrs : s'.msghdrs = s'.liveSum qnumOf + s'.dyingSum qnumOf) : Exact s' cells := by
  constructor
  · intro msq hheld
    rw [(hboth msq (hHeld msq hheld)).1]
    exact h.qnum msq (hHeld msq hheld)
  · intro msq hheld
    rw [(hboth msq (hHeld msq hheld)).2, h.cbytes msq (hHeld msq hheld)]
    unfold Msgs.bytes
    rw [hmsgs]
  · intro msq hheld
    rw [(hboth msq (hHeld msq hheld)).2]
    exact h.cbytes_lt msq (hHeld msq hheld)
  · exact hmsgbytes
  · exact hmsghdrs

variable [DecidableEq Task]

omit [Fintype Task] in
theorem setSleep_dyingValue_of_ne (s : Msgs Task) {t' : Task} (hne : t' ≠ t) (w : Option Sleep)
    (f : MsqidDs → ℤ) : (s.setSleep t w).dyingValue f t' = s.dyingValue f t' := by
  unfold Msgs.dyingValue
  rw [setSleep_sleep, if_neg hne]
  rfl

theorem setSleep_dyingSum
    (hidle : ∀ msq, s.sleep t ≠ some (.freeque msq)) (hw : ∀ msq, w ≠ some (.freeque msq))
    (f : MsqidDs → ℤ) : (s.setSleep t w).dyingSum f = s.dyingSum f := by
  rw [dyingSum_change t fun t' hne => setSleep_dyingValue_of_ne s hne w f,
    dyingValue_of_not_freeque hidle, dyingValue_of_not_freeque]
  · ring
  · intro msq hmsq
    rw [setSleep_sleep, if_pos rfl] at hmsq
    exact hw msq hmsq

section
variable (h : Exact s cells)
include h

theorem Exact.setSleep (hidle : ∀ msq, s.sleep t ≠ some (.freeque msq))
    (hw : ∀ msq, w ≠ some (.freeque msq)) : Exact (s.setSleep t w) cells := by
  apply h.of_held
  · rintro msq (hslot | ⟨t', ht'⟩)
    · exact .inl hslot
    · rw [setSleep_sleep] at ht'
      split at ht'
      · exact absurd ht' (hw msq)
      · exact .inr ⟨t', ht'⟩
  · exact fun msq _ => ⟨rfl, rfl⟩
  · rfl
  · exact h.msgbytes
  · rw [setSleep_dyingSum hidle hw]
    exact h.msghdrs

omit [DecidableEq Task] in
theorem Exact.setSlot (id : ℕ) {slot : Slot} (hold : ∀ msq, s.msgque id ≠ .queue msq)
    (hnew : ∀ msq, slot ≠ .queue msq) :
    Exact { s with msgque := update s.msgque id slot } cells := by
  have hlive : ∀ f : MsqidDs → ℤ,
      ({ s with msgque := update s.msgque id slot } : Msgs Task).liveSum f = s.liveSum f := by
    intro f
    unfold Msgs.liveSum
    apply Finset.sum_congr rfl
    intro id' _
    by_cases he : id' = id
    · rw [he, slotValue_of_not_queue hold, slotValue_of_not_queue]
      intro msq
      dsimp only
      rw [update_self]
      exact hnew msq
    · unfold Msgs.slotValue
      dsimp only
      rw [update_of_ne he]
  apply h.of_held
  · rintro msq (⟨id', hs⟩ | hdying)
    · dsimp only at hs
      by_cases he : id' = id
      · rw [he, update_self] at hs
        exact absurd hs (hnew msq)
      · rw [update_of_ne he] at hs
        exact .inl ⟨id', hs⟩
    · exact .inr hdying
  · exact fun msq _ => ⟨rfl, rfl⟩
  · rfl
  · rw [hlive]
    exact h.msgbytes
  · rw [hlive]
    exact h.msghdrs

theorem Exact.reserve (hidle : s.sleep t = none) (hunused : s.msgque id = .unused) :
    Exact ({ s with msgque := update s.msgque id .noid }.setSleep t (some (.newque id)))
      cells := by
  have hold : ∀ msq, s.msgque id ≠ .queue msq := by
    intro msq
    rw [hunused]
    simp
  apply (h.setSlot id hold (by simp)).setSleep
  · intro msq
    rw [hidle]
    simp
  · simp

omit [DecidableEq Task] in
theorem Exact.fill (hchains : Chains s cells) (hid : id < msgmni)
    (hslot : ∀ msq, s.msgque id ≠ .queue msq) {q : MsqidDs} (hqnum : q.msgQnum = 0)
    (hcbytes : q.msgCbytes = 0) :
    Exact
      { s with
        queues := update s.queues s.nextQueue q
        msgque := update s.msgque id (.queue s.nextQueue)
        nextQueue := s.nextQueue + 1 }
      (update cells s.nextQueue []) := by
  have hne : ∀ msq, s.Held msq → msq ≠ s.nextQueue := fun msq hheld =>
    ne_of_lt (hchains.fresh msq hheld)
  have hlive : ∀ f : MsqidDs → ℤ, f q = 0 →
      ({ s with
          queues := update s.queues s.nextQueue q
          msgque := update s.msgque id (.queue s.nextQueue)
          nextQueue := s.nextQueue + 1 } : Msgs Task).liveSum f = s.liveSum f := by
    intro f hf
    rw [liveSum_change hid, slotValue_of_not_queue hslot]
    · unfold Msgs.slotValue
      dsimp only
      rw [update_self]
      dsimp only
      rw [update_self, hf]
      ring
    · intro id' he
      unfold Msgs.slotValue
      dsimp only
      rw [update_of_ne he]
      cases hs : s.msgque id' with
      | queue msq =>
        dsimp only
        rw [update_of_ne (hne msq (.inl ⟨id', hs⟩))]
      | unused => rfl
      | noid => rfl
  have hdying : ({ s with
          queues := update s.queues s.nextQueue q
          msgque := update s.msgque id (.queue s.nextQueue)
          nextQueue := s.nextQueue + 1 } : Msgs Task).dyingSum qnumOf = s.dyingSum qnumOf := by
    apply dyingSum_congr
    intro t
    unfold Msgs.dyingValue
    dsimp only
    cases hw : s.sleep t with
    | none => rfl
    | some w =>
      cases w with
      | freeque msq =>
        dsimp only
        rw [update_of_ne (hne msq (.inr ⟨t, hw⟩))]
      | _ => rfl
  have hHeld : ∀ msq, ({ s with
          queues := update s.queues s.nextQueue q
          msgque := update s.msgque id (.queue s.nextQueue)
          nextQueue := s.nextQueue + 1 } : Msgs Task).Held msq →
      msq = s.nextQueue ∨ s.Held msq := by
    rintro msq (⟨id', hs⟩ | hdying')
    · dsimp only at hs
      by_cases he : id' = id
      · rw [he, update_self, Slot.queue.injEq] at hs
        exact .inl hs.symm
      · rw [update_of_ne he] at hs
        exact .inr (.inl ⟨id', hs⟩)
    · exact .inr (.inr hdying')
  constructor
  · intro msq hheld
    dsimp only
    rcases hHeld msq hheld with heq | hold
    · rw [heq, update_self, update_self, hqnum]
      rfl
    · rw [update_of_ne (hne msq hold), update_of_ne (hne msq hold)]
      exact h.qnum msq hold
  · intro msq hheld
    dsimp only
    rcases hHeld msq hheld with heq | hold
    · rw [heq, update_self, update_self, hcbytes]
      rfl
    · rw [update_of_ne (hne msq hold), update_of_ne (hne msq hold)]
      exact h.cbytes msq hold
  · intro msq hheld
    dsimp only
    rcases hHeld msq hheld with heq | hold
    · rw [heq, update_self, hcbytes]
      omega
    · rw [update_of_ne (hne msq hold)]
      exact h.cbytes_lt msq hold
  · rw [hlive cbytesOf]
    · exact h.msgbytes
    · unfold cbytesOf
      rw [hcbytes]
      rfl
  · rw [hlive qnumOf, hdying]
    · exact h.msghdrs
    · unfold qnumOf
      rw [hqnum]
      rfl

end

def newCells (s : Msgs Task) (cells : ℕ → List ℕ) (memory : Bool) : ℕ → List ℕ :=
  if memory then update cells s.nextQueue [] else cells

omit [Fintype Task] in
theorem Chains.newqueAlloc (h : Chains s cells) (hcall : s.sleep t = some (.newque id))
    (memory : Bool) :
    Chains (s.newqueAlloc t id memory).1 (newCells s cells memory) := by
  unfold Msgs.newqueAlloc newCells
  cases memory with
  | false =>
    rw [if_neg (by simp), if_neg (by simp)]
    exact h.endNewque hcall rfl rfl (by simp) (fun _ _ => rfl) (fun _ _ => rfl) rfl rfl
      le_rfl h.seq_lt rfl
  | true =>
    rw [if_pos rfl, if_pos rfl]
    apply h.endNewque hcall rfl rfl
    · intro msq hmsq
      rw [Slot.queue.injEq] at hmsq
      rw [← hmsq, update_self]
      refine ⟨rfl, Nat.lt_succ_self _, ?_, rfl⟩
      have hself : update s.queues s.nextQueue
          { seq := s.msgSeq, msgFirst := 0, msgLast := 0, msgCbytes := 0, msgQnum := 0,
            msgQbytes := msgmnb } s.nextQueue = _ := update_self ..
      unfold Msgs.setSleep
      constructor
      · dsimp only
        rw [hself]
        rfl
      · exact nodup_nil
      · dsimp only
        rw [hself]
        rfl
      · simp
      · dsimp only
        rw [hself, length_nil, Nat.zero_mod]
    · intro msq hlt
      exact update_of_ne (ne_of_lt hlt) ..
    · intro msq hlt
      exact update_of_ne (ne_of_lt hlt) ..
    · rfl
    · rfl
    · exact Nat.le_succ _
    · intro msq
      unfold Msgs.setSleep
      dsimp only
      by_cases he : msq = s.nextQueue
      · rw [he, update_self]
        exact h.msgSeq_lt
      · rw [update_of_ne he]
        exact h.seq_lt msq
    · rfl

theorem Exact.newqueAlloc (h : Exact s cells)
    (hchains : Chains s cells) (hcall : s.sleep t = some (.newque id))
    (memory : Bool) : Exact (s.newqueAlloc t id memory).1 (newCells s cells memory) := by
  obtain ⟨hnoid, hid⟩ := hchains.reserved t id hcall
  have hidle : ∀ msq, s.sleep t ≠ some (.freeque msq) := by
    intro msq
    rw [hcall]
    simp
  unfold Msgs.newqueAlloc newCells
  cases memory with
  | false =>
    have hold : ∀ msq, s.msgque id ≠ .queue msq := by
      intro msq
      rw [hnoid]
      simp
    exact (h.setSlot id hold (by simp)).setSleep hidle (by simp)
  | true =>
    apply (h.fill hchains hid (fun msq hmsq => ?_) rfl rfl).setSleep hidle (by simp)
    rw [hnoid] at hmsq
    simp at hmsq

/-! ## Removing a queue -/

omit [Fintype Task] [DecidableEq Task] in
theorem detach_slotValue (hchains : Chains s cells) (hslot : s.msgque id = .queue msq)
    (f : MsqidDs → ℤ) :
    (s.detach id msq).liveSum f = s.liveSum f - f (s.queues msq) := by
  have hself : (s.detach id msq).slotValue f id = 0 := by
    unfold Msgs.slotValue Msgs.detach
    dsimp only
    rw [update_self]
  have hchange : (s.detach id msq).liveSum f =
      s.liveSum f + ((s.detach id msq).slotValue f id - s.slotValue f id) := by
    apply liveSum_change (hchains.slot_lt id msq hslot)
    intro id' he
    unfold Msgs.slotValue Msgs.detach
    dsimp only
    rw [update_of_ne he]
    cases hs : s.msgque id' with
    | queue msq' =>
      have hne : msq' ≠ msq := by
        intro heq
        rw [heq] at hs
        exact he (hchains.slot_inj id' id msq hs hslot)
      dsimp only
      rw [update_of_ne hne]
    | unused => rfl
    | noid => rfl
  rw [hchange, hself, slotValue_queue hslot]
  ring

omit [Fintype Task] [DecidableEq Task] in
theorem detach_queue (s : Msgs Task) (id msq msq' : ℕ) :
    ((s.detach id msq).queues msq').msgQnum = (s.queues msq').msgQnum ∧
      ((s.detach id msq).queues msq').msgCbytes = (s.queues msq').msgCbytes ∧
      ((s.detach id msq).queues msq').msgFirst = (s.queues msq').msgFirst := by
  unfold Msgs.detach
  dsimp only
  by_cases heq : msq' = msq
  · rw [heq, update_self]
    exact ⟨rfl, rfl, rfl⟩
  · rw [update_of_ne heq]
    exact ⟨rfl, rfl, rfl⟩

omit [DecidableEq Task] in
theorem detach_dyingSum (s : Msgs Task) (id msq : ℕ) :
    (s.detach id msq).dyingSum qnumOf = s.dyingSum qnumOf := by
  apply dyingSum_congr
  intro t
  unfold Msgs.dyingValue
  change (match s.sleep t with
    | some (.freeque msq') => qnumOf ((s.detach id msq).queues msq')
    | _ => 0) = _
  cases hw : s.sleep t with
  | none => rfl
  | some w =>
    cases w with
    | freeque msq' =>
      dsimp only
      unfold qnumOf
      rw [(detach_queue s id msq msq').1]
    | _ => rfl

theorem Exact.detach (h : Exact s cells)
    (hchains : Chains s cells) (hidle : s.sleep t = none)
    (hslot : s.msgque id = .queue msq) :
    Exact ((s.detach id msq).setSleep t (some (.freeque msq))) cells := by
  have hold : s.Held msq := .inl ⟨id, hslot⟩
  have hnot : ∀ msq', (s.detach id msq).sleep t ≠ some (.freeque msq') := by
    intro msq'
    change s.sleep t ≠ _
    rw [hidle]
    simp
  apply h.of_held
  · rintro msq' (⟨id', hs⟩ | ⟨t', ht'⟩)
    · change (s.detach id msq).msgque id' = _ at hs
      unfold Msgs.detach at hs
      dsimp only at hs
      by_cases he : id' = id
      · rw [he, update_self] at hs
        simp at hs
      · rw [update_of_ne he] at hs
        exact .inl ⟨id', hs⟩
    · rw [setSleep_sleep] at ht'
      split at ht'
      · rw [Option.some.injEq, Sleep.freeque.injEq] at ht'
        rw [← ht']
        exact hold
      · exact .inr ⟨t', ht'⟩
  · intro msq' _
    exact ⟨(detach_queue s id msq msq').1, (detach_queue s id msq msq').2.1⟩
  · rfl
  · change s.msgbytes - (s.queues msq).msgCbytes = (s.detach id msq).liveSum cbytesOf
    rw [detach_slotValue hchains hslot, h.msgbytes]
    rfl
  · change s.msghdrs = (s.detach id msq).liveSum qnumOf + _
    rw [dyingSum_change t fun t' hne => setSleep_dyingValue_of_ne _ hne _ _,
      dyingValue_of_not_freeque hnot, detach_slotValue hchains hslot, detach_dyingSum, h.msghdrs]
    have hgain : ((s.detach id msq).setSleep t (some (.freeque msq))).dyingValue qnumOf t =
        qnumOf (s.queues msq) := by
      have hcall : ((s.detach id msq).setSleep t (some (.freeque msq))).sleep t =
          some (.freeque msq) := by
        rw [setSleep_sleep, if_pos rfl]
      rw [dyingValue_freeque hcall]
      change qnumOf ((s.detach id msq).queues msq) = _
      unfold qnumOf
      rw [(detach_queue s id msq msq).1]
    rw [hgain]
    ring

omit [DecidableEq Task] [Fintype Task] in
theorem foldl_pred (cells : List ℕ) (n : ℤ) :
    cells.foldl (fun hdrs _ => hdrs - 1) n = n - cells.length := by
  induction cells generalizing n with
  | nil => simp
  | cons a cells ih =>
    rw [foldl_cons, ih, length_cons]
    push_cast
    ring

omit [DecidableEq Task] [Fintype Task] in
theorem ListOk.release {cells : List ℕ} (h : ListOk s msq cells) :
    (s.release msq).msghdrs = s.msghdrs - cells.length := by
  unfold Msgs.release
  dsimp only
  rw [h.linked.foldLinks_eq _ _ h.length_le, foldl_pred]

theorem Exact.release (h : Exact s cells)
    (hchains : Chains s cells) (hcall : s.sleep t = some (.freeque msq)) :
    Exact ((s.release msq).setSleep t none) cells := by
  have hheld : s.Held msq := .inr ⟨t, hcall⟩
  apply h.of_held
  · rintro msq' (hslot | ⟨t', ht'⟩)
    · exact .inl hslot
    · rw [setSleep_sleep] at ht'
      split at ht'
      · simp at ht'
      · exact .inr ⟨t', ht'⟩
  · exact fun msq' _ => ⟨rfl, rfl⟩
  · rfl
  · exact h.msgbytes
  · change (s.release msq).msghdrs = s.liveSum qnumOf + _
    have hlost : ((s.release msq).setSleep t none).dyingValue qnumOf t = 0 := by
      apply dyingValue_of_not_freeque
      intro msq'
      rw [setSleep_sleep, if_pos rfl]
      simp
    have hsame : ∀ t', (s.release msq).dyingValue qnumOf t' = s.dyingValue qnumOf t' :=
      fun t' => rfl
    rw [dyingSum_change t fun t' hne => setSleep_dyingValue_of_ne _ hne _ _, hlost,
      dyingSum_congr hsame, hsame, dyingValue_freeque hcall, (hchains.list msq hheld).release,
      h.msghdrs, ← h.qnum msq hheld]
    unfold qnumOf
    ring

omit [Fintype Task] [DecidableEq Task] in
theorem Chains.release (h : Chains s cells) (msq : ℕ) : Chains (s.release msq) cells := by
  obtain ⟨hlist, h2, h3, h4, h5, h6, h7, h8, h9, h10, h11, h12, h13⟩ := h
  refine ⟨?_, h2, h3, h4, h5, h6, h7, h8, h9, h10, h11, h12, h13⟩
  intro msq' hheld
  exact (hlist msq' hheld).congr rfl (fun a _ => rfl) le_rfl

theorem Exact.remove (h : Exact s cells)
    (hchains : Chains s cells) (hidle : s.sleep t = none)
    (hslot : s.msgque id = .queue msq) :
    Exact (((s.detach id msq).release msq).setSleep t none) cells := by
  have hdetached := h.detach hchains hidle hslot
  have hchains' := hchains.detach hslot (t := t) (.inr rfl)
  have hcall : ((s.detach id msq).setSleep t (some (.freeque msq))).sleep t =
      some (.freeque msq) := by
    rw [setSleep_sleep, if_pos rfl]
  have hreleased := hdetached.release hchains' hcall
  have hsame : (((s.detach id msq).setSleep t (some (.freeque msq))).release msq).setSleep t none =
      ((s.detach id msq).release msq).setSleep t none := by
    unfold Msgs.setSleep Msgs.release
    rw [update_idem]
    rfl
  rw [hsame] at hreleased
  exact hreleased

omit [DecidableEq Task] in
theorem Exact.setQbytes (h : Exact s cells)
    (hchains : Chains s cells) (hslot : s.msgque id = .queue msq) (qbytes : ℕ) :
    Exact (s.setQueue msq { s.queues msq with msgQbytes := qbytes }) cells := by
  have hheld : s.Held msq := .inl ⟨id, hslot⟩
  have hself : (s.setQueue msq { s.queues msq with msgQbytes := qbytes }).queues msq =
      { s.queues msq with msgQbytes := qbytes } := update_self ..
  have hexact : Exact (s.setQueue msq { s.queues msq with msgQbytes := qbytes })
      (update cells msq (cells msq)) := by
    apply h.of_queue hchains hslot
    · rfl
    · rfl
    · intro msq' hne
      exact update_of_ne hne ..
    · exact fun _ _ _ _ _ => rfl
    · rw [hself]
      exact h.qnum msq hheld
    · rw [hself]
      exact h.cbytes msq hheld
    · rw [hself]
      exact h.cbytes_lt msq hheld
    · rw [hself]
      dsimp only
      rw [sub_self, add_zero]
      rfl
    · rw [hself]
      dsimp only
      rw [sub_self, add_zero]
      rfl
  rwa [update_eq_self] at hexact

omit [Fintype Task] [DecidableEq Task] in
theorem Chains.setQbytes (h : Chains s cells)
    (hslot : s.msgque id = .queue msq) (qbytes : ℕ) :
    Chains (s.setQueue msq { s.queues msq with msgQbytes := qbytes }) cells := by
  have hheld : s.Held msq := .inl ⟨id, hslot⟩
  have hchains : Chains (s.setQueue msq { s.queues msq with msgQbytes := qbytes })
      (update cells msq (cells msq)) := by
    have hlist : ListOk (s.setQueue msq { s.queues msq with msgQbytes := qbytes }) msq
        (cells msq) := (h.list msq hheld).setQueue rfl rfl rfl
    apply h.of_list _ _ _ _ _ _ hlist _ _ hheld
    · rfl
    · rfl
    · rfl
    · exact le_rfl
    · rfl
    · intro a
      unfold Msgs.setQueue
      dsimp only
      by_cases ha : a = msq
      · rw [ha, update_self]
      · rw [update_of_ne ha]
    · intro a ha hheld'
      exact (h.list a hheld').congr (update_of_ne ha ..) (fun x _ => rfl) le_rfl
    · exact fun a ha => .inl ha
  rwa [update_eq_self] at hchains

omit [Fintype Task] [DecidableEq Task] in
theorem not_freeque_of_uses
    (h : ∀ w', w = some w' → ∃ msq msqid, w'.uses = some (msq, msqid)) (msq : ℕ) :
    w ≠ some (.freeque msq) := by
  intro hw
  obtain ⟨_, _, huses⟩ := h _ hw
  simp [Sleep.uses] at huses

def StepFits (s : Msgs Task) (e : Event Task) : Prop :=
  ∀ snd, appendOf s e = some snd →
    (s.queues snd.msq).msgQnum + 1 < 65536 ∧ (s.queues snd.msq).msgCbytes + snd.msgsz < 65536

theorem Exact.step (h : Exact s cells)
    (hchains : Chains s cells) {e : Event Task} (hfits : StepFits s e) :
    ∃ cells', Chains (s.step e).1 cells' ∧ Exact (s.step e).1 cells' := by
  have hmoves := hchains.step_moves e
  generalize (s.step e).1 = s' at hmoves
  cases hmoves with
  | stay => exact ⟨cells, hchains, h⟩
  | sleeps t w hidle hknows =>
    refine ⟨cells, hchains.setSleep hknows, h.setSleep hidle ?_⟩
    apply not_freeque_of_uses
    intro w' hw'
    obtain ⟨msq, msqid, huses, _⟩ := hknows w' hw'
    exact ⟨msq, msqid, huses⟩
  | appends t snd happend hcall hslot =>
    obtain ⟨hqnum, hcbytes⟩ := hfits snd happend
    refine ⟨_, (hchains.append hslot).stopSleep t, ?_⟩
    apply (h.append hchains hslot hqnum hcbytes).setSleep _ (by simp)
    intro msq
    rw [(append_fields s snd).2.1, hcall]
    simp
  | takes t rcv hidle hslot hne =>
    have hmem := (hchains.list_of_slot hslot).choose_mem hne
    refine ⟨_, (hchains.take hslot hmem).stopSleep t, ?_⟩
    apply (h.take hchains hslot hmem).setSleep _ (by simp)
    intro msq
    rw [(take_fields s rcv.msq (s.choose rcv)).2.1]
    exact hidle msq
  | reserves t id hidle hunused hid =>
    exact ⟨cells, hchains.reserve hunused hid, h.reserve hidle hunused⟩
  | creates t id memory hcall =>
    exact ⟨_, hchains.newqueAlloc hcall memory, h.newqueAlloc hchains hcall memory⟩
  | detaches t id msq hidle hslot =>
    exact ⟨cells, hchains.detach hslot (.inr rfl), h.detach hchains hidle hslot⟩
  | removes t id msq hidle hslot =>
    exact ⟨cells, (hchains.detach (t := t) hslot (.inl rfl)).release msq,
      h.remove hchains hidle hslot⟩
  | releases t msq hcall =>
    exact ⟨cells, (hchains.release msq).stopSleep t, h.release hchains hcall⟩
  | sets id msq qbytes _ hslot _ =>
    exact ⟨cells, hchains.setQbytes hslot qbytes, h.setQbytes hchains hslot qbytes⟩

/-! ## Runs -/

def RunFits : Msgs Task → List (Event Task) → Prop
  | _, [] => True
  | s, e :: es => StepFits s e ∧ RunFits (s.step e).1 es

theorem Exact.run (h : Exact s cells)
    (hchains : Chains s cells) {es : List (Event Task)} (hrun : RunFits s es) :
    ∃ cells', Chains (s.run es) cells' ∧ Exact (s.run es) cells' := by
  induction es generalizing s cells with
  | nil => exact ⟨cells, hchains, h⟩
  | cons e es ih =>
    obtain ⟨cells', hchains', h'⟩ := h.step hchains hrun.1
    exact ih h' hchains' hrun.2

omit [Fintype Task] [DecidableEq Task] in
theorem init_chains : Chains (Msgs.init : Msgs Task) fun _ => [] := by
  constructor <;> simp [Msgs.init, Msgs.Held]

omit [DecidableEq Task] in
theorem init_exact : Exact (Msgs.init : Msgs Task) fun _ => [] := by
  constructor <;> simp [Msgs.init, Msgs.Held, Msgs.liveSum, Msgs.dyingSum, Msgs.slotValue,
    Msgs.dyingValue]

end Moves

def oneMessage : List (Event (Fin 3)) :=
  [.newque 0, .wake 0 true true false, .msgsnd 0 0 1 1 false true false, .wake 0 true true false]

theorem oneMessage_appends :
    appendOf ((Msgs.init : Msgs (Fin 3)).run [.newque 0, .wake 0 true true false,
      .msgsnd 0 0 1 1 false true false]) (.wake 0 true true false) = some ⟨1, 0, 1, 1, false⟩ := rfl

theorem oneMessage_fits : RunFits (Msgs.init : Msgs (Fin 3)) oneMessage := by
  refine ⟨?_, ?_, ?_, ?_, trivial⟩
  · intro snd hsnd
    simp [appendOf] at hsnd
  · intro snd hsnd
    have hnone : appendOf ((Msgs.init : Msgs (Fin 3)).step (.newque 0)).1
        (.wake 0 true true false) = none := rfl
    rw [hnone] at hsnd
    simp at hsnd
  · intro snd hsnd
    simp [appendOf] at hsnd
  · intro snd hsnd
    cases oneMessage_appends.symm.trans hsnd
    decide

end LinuxKernel.Message
