import LinuxKernel.MessageModel
import Mathlib.Tactic

/-!
# The lists of the message queues

What appending and taking a message do to the list of a queue, whatever its
counters say, and how queues, slots and sleeping calls hang together.
-/

namespace LinuxKernel.Message
open Function List

variable {Task : Type}

/-- The messages of a queue are `cells`, in this order.  `msg_qnum` counts them
up to the width of its type. -/
structure ListOk (s : Msgs Task) (msq : ℕ) (cells : List ℕ) : Prop where
  linked : Linked 0 s.next (s.queues msq).msgFirst cells
  nodup : cells.Nodup
  last : (s.queues msq).msgLast = cells.getLast?.getD 0
  fresh : ∀ a ∈ cells, a < s.nextMsg
  qnum : (s.queues msq).msgQnum = cells.length % 65536

variable {cells : List ℕ}

section
variable {s : Msgs Task} {msq : ℕ} (h : ListOk s msq cells)
include h

theorem ListOk.length_le : cells.length ≤ s.nextMsg := by
  have hsub : cells ⊆ List.range s.nextMsg := by
    intro a ha
    exact mem_range.mpr (h.fresh a ha)
  have hle := (subperm_of_subset h.nodup hsub).length_le
  rwa [length_range] at hle

theorem ListOk.find_eq (p : ℕ → Bool) : s.find p (s.queues msq).msgFirst = (cells.find? p).getD 0 :=
  h.linked.walk_eq p h.length_le

omit h in
theorem getD_find_mem {p : ℕ → Bool} (h : (cells.find? p).getD 0 ≠ 0) :
    (cells.find? p).getD 0 ∈ cells := by
  cases hfind : cells.find? p with
  | none =>
    rw [hfind] at h
    simp at h
  | some a =>
    exact mem_of_find?_eq_some hfind

omit h in
theorem foldl_least_mem (f : ℕ → Int32) (cells : List ℕ) (a : ℕ) :
    cells.foldl (fun least tmsg => if f tmsg < f least then tmsg else least) a = a ∨
      cells.foldl (fun least tmsg => if f tmsg < f least then tmsg else least) a ∈ cells := by
  induction cells generalizing a with
  | nil => exact .inl rfl
  | cons x cells ih =>
    rw [foldl_cons]
    rcases ih (if f x < f a then x else a) with heq | hmem
    · rw [heq]
      split
      · exact .inr (mem_cons_self ..)
      · exact .inl rfl
    · exact .inr (mem_cons_of_mem x hmem)

theorem ListOk.least_mem (hne : s.least (s.queues msq).msgFirst ≠ 0) :
    s.least (s.queues msq).msgFirst ∈ cells := by
  have heq : s.least (s.queues msq).msgFirst =
      cells.foldl (fun leastp tmsg =>
        if (s.msgs tmsg).msgType < (s.msgs leastp).msgType then tmsg else leastp)
        (s.queues msq).msgFirst := h.linked.foldLinks_eq _ _ h.length_le
  rw [heq] at hne ⊢
  have hlinked := h.linked
  cases hcells : cells with
  | nil =>
    rw [hcells] at hne hlinked
    exact absurd hlinked hne
  | cons x rest =>
    rw [hcells] at hlinked
    rcases foldl_least_mem (fun a => (s.msgs a).msgType) (x :: rest) (s.queues msq).msgFirst with
      hfirst | hmem
    · rw [hfirst, hlinked.1]
      exact mem_cons_self ..
    · exact hmem

end

variable {rcv : Receive}

theorem ListOk.choose_mem {s : Msgs Task}
    (h : ListOk s rcv.msq cells) (hne : s.choose rcv ≠ 0) : s.choose rcv ∈ cells := by
  unfold Msgs.choose at hne ⊢
  dsimp only at hne ⊢
  split
  · rename_i hzero
    rw [if_pos hzero] at hne
    obtain ⟨rest, hrest, _⟩ := h.linked.pop hne
    rw [hrest]
    exact mem_cons_self ..
  · rename_i hzero
    rw [if_neg hzero] at hne
    split
    · rename_i hpos
      rw [if_pos hpos] at hne
      split
      · rename_i hexcept
        rw [if_pos hexcept, h.find_eq] at hne
        rw [h.find_eq]
        exact getD_find_mem hne
      · rename_i hexcept
        rw [if_neg hexcept, h.find_eq] at hne
        rw [h.find_eq]
        exact getD_find_mem hne
    · rename_i hpos
      rw [if_neg hpos] at hne
      split
      · rename_i hleast
        exact h.least_mem hleast.1
      · rename_i hleast
        rw [if_neg hleast] at hne
        exact absurd rfl hne

theorem find_prev {mem : ℕ → ℕ} {a : ℕ} {xs zs : List ℕ} {y x : ℕ}
    (hlink : Linked 0 mem a (xs ++ y :: x :: zs)) (hnodup : (xs ++ y :: x :: zs).Nodup) :
    (xs ++ y :: x :: zs).find? (fun b => mem b = x) = some y := by
  induction xs generalizing a with
  | nil =>
    have hnext : mem y = x := hlink.2.2.1
    simp [hnext]
  | cons w xs ih =>
    obtain ⟨_, _, htail⟩ := hlink
    obtain ⟨hnot, hnodup'⟩ := nodup_cons.mp hnodup
    have hne : mem w ≠ x := by
      cases xs with
      | nil =>
        have hnext : mem w = y := htail.1
        rw [hnext]
        intro heq
        rw [heq] at hnodup'
        simp at hnodup'
      | cons v xs =>
        have hnext : mem w = v := htail.1
        rw [hnext]
        intro heq
        rw [heq] at hnodup'
        simp at hnodup'
    rw [cons_append, List.find?_cons_of_neg]
    · exact ih htail hnodup'
    · simpa using hne

theorem setQueue_next (s : Msgs Task) (msq : ℕ) (q : MsqidDs) :
    (s.setQueue msq q).next = s.next := rfl

theorem setNext_next (s : Msgs Task) (a v : ℕ) : (s.setNext a v).next = update s.next a v := by
  funext b
  unfold Msgs.next Msgs.setNext
  dsimp only
  by_cases h : b = a
  · rw [h, update_self, update_self]
  · rw [update_of_ne h, update_of_ne h]

theorem setNext_ts (s : Msgs Task) (a v b : ℕ) :
    ((s.setNext a v).msgs b).msgTs = (s.msgs b).msgTs := by
  unfold Msgs.setNext
  dsimp only
  by_cases h : b = a
  · rw [h, update_self]
  · rw [update_of_ne h]

variable {s' : Msgs Task}

theorem ListOk.congr {s : Msgs Task} {msq : ℕ} (h : ListOk s msq cells)
    (hqueue : s'.queues msq = s.queues msq) (hnext : ∀ a ∈ cells, s'.next a = s.next a)
    (hfresh : s.nextMsg ≤ s'.nextMsg) : ListOk s' msq cells := by
  constructor
  · rw [hqueue]
    exact h.linked.congr hnext
  · exact h.nodup
  · rw [hqueue]
    exact h.last
  · intro a ha
    exact lt_of_lt_of_le (h.fresh a ha) hfresh
  · rw [hqueue]
    exact h.qnum

theorem ListOk.setQueue {s : Msgs Task} {msq : ℕ} (h : ListOk s msq cells)
    {q : MsqidDs} (hfirst : q.msgFirst = (s.queues msq).msgFirst)
    (hlast : q.msgLast = (s.queues msq).msgLast) (hqnum : q.msgQnum = (s.queues msq).msgQnum) :
    ListOk (s.setQueue msq q) msq cells := by
  have hself : (s.setQueue msq q).queues msq = q := update_self ..
  constructor
  · rw [hself, hfirst]
    exact h.linked
  · exact h.nodup
  · rw [hself, hlast]
    exact h.last
  · exact h.fresh
  · rw [hself, hqnum]
    exact h.qnum

/-! ## Appending a message -/

section Append

variable (s : Msgs Task) (snd : Send)

theorem append_queues_of_ne {msq : ℕ} (h : msq ≠ snd.msq) :
    (s.append snd).queues msq = s.queues msq := by
  unfold Msgs.append
  dsimp only
  split
  · exact update_of_ne h ..
  · exact update_of_ne h ..

theorem append_queue :
    (s.append snd).queues snd.msq =
      { s.queues snd.msq with
        msgFirst := if (s.queues snd.msq).msgFirst = 0 then s.nextMsg
          else (s.queues snd.msq).msgFirst
        msgLast := s.nextMsg
        msgCbytes := ((s.queues snd.msq).msgCbytes + snd.msgsz) % 65536
        msgQnum := ((s.queues snd.msq).msgQnum + 1) % 65536 } := by
  unfold Msgs.append
  dsimp only
  split
  · exact update_self ..
  · exact update_self ..

theorem append_next :
    (s.append snd).next = if (s.queues snd.msq).msgFirst = 0 then update s.next s.nextMsg 0
      else update (update s.next s.nextMsg 0) (s.queues snd.msq).msgLast
        s.nextMsg := by
  have hnew : ∀ m : ℕ → Msg, (fun a => (update m s.nextMsg
      { msgNext := 0, msgType := snd.mtype, msgTs := snd.msgsz } a).msgNext) =
      update (fun a => (m a).msgNext) s.nextMsg 0 := by
    intro m
    funext b
    by_cases h : b = s.nextMsg
    · rw [h, update_self, update_self]
    · rw [update_of_ne h, update_of_ne h]
  unfold Msgs.append
  dsimp only
  split
  · exact hnew s.msgs
  · change (Msgs.setNext _ _ _).next = _
    rw [setNext_next]
    congr 1
    exact hnew s.msgs

theorem append_ts (a : ℕ) :
    ((s.append snd).msgs a).msgTs = if a = s.nextMsg then snd.msgsz else (s.msgs a).msgTs := by
  have hnew : ((update s.msgs s.nextMsg
      { msgNext := 0, msgType := snd.mtype, msgTs := snd.msgsz }) a).msgTs =
      if a = s.nextMsg then snd.msgsz else (s.msgs a).msgTs := by
    by_cases h : a = s.nextMsg
    · rw [if_pos h, h, update_self]
    · rw [if_neg h, update_of_ne h]
  unfold Msgs.append
  dsimp only
  split
  · exact hnew
  · change ((Msgs.setNext _ _ _).msgs a).msgTs = _
    rw [setNext_ts]
    exact hnew

theorem append_fields :
    (s.append snd).msgque = s.msgque ∧ (s.append snd).sleep = s.sleep ∧
      (s.append snd).nextQueue = s.nextQueue ∧ (s.append snd).nextMsg = s.nextMsg + 1 ∧
      (s.append snd).msgSeq = s.msgSeq ∧ (s.append snd).msgbytes = s.msgbytes + snd.msgsz ∧
      (s.append snd).msghdrs = s.msghdrs + 1 := by
  unfold Msgs.append
  dsimp only
  split <;> exact ⟨rfl, rfl, rfl, rfl, rfl, rfl, rfl⟩

end Append

theorem ListOk.first_eq_zero {s : Msgs Task} {msq : ℕ} (h : ListOk s msq cells) :
    (s.queues msq).msgFirst = 0 ↔ cells = [] := by
  constructor
  · intro hfirst
    have hlinked := h.linked
    rw [hfirst] at hlinked
    exact hlinked.eq_nil
  · intro hcells
    have hlinked := h.linked
    rw [hcells] at hlinked
    exact hlinked

section
variable {s : Msgs Task} {snd : Send} (h : ListOk s snd.msq cells)
include h

theorem ListOk.append (hpos : 0 < s.nextMsg) :
    ListOk (s.append snd) snd.msq (cells ++ [s.nextMsg]) := by
  have hnot : s.nextMsg ∉ cells := by
    intro hmem
    exact absurd (h.fresh _ hmem) (lt_irrefl _)
  have hlinked : Linked 0 s.next (s.queues snd.msq).msgFirst cells := h.linked
  constructor
  · rw [append_queue, append_next]
    by_cases hempty : cells = []
    · rw [if_pos (h.first_eq_zero.mpr hempty), if_pos (h.first_eq_zero.mpr hempty), hempty]
      refine ⟨rfl, by omega, ?_⟩
      exact update_self ..
    · have hfirst : (s.queues snd.msq).msgFirst ≠ 0 := fun h0 => hempty (h.first_eq_zero.mp h0)
      rw [if_neg hfirst, if_neg hfirst]
      obtain ⟨front, y, hcells⟩ := eq_nil_or_concat cells |>.resolve_left hempty
      rw [concat_eq_append] at hcells
      have hlast : (s.queues snd.msq).msgLast = y := by
        rw [h.last, hcells]
        simp
      have hnodup := h.nodup
      rw [hcells] at hlinked hnot hnodup ⊢
      rw [hlast]
      apply Linked.snoc _ hnodup (by omega) hnot
      · exact update_self ..
      · apply hlinked.congr
        intro x hx
        apply update_of_ne
        intro heq
        rw [heq] at hx
        exact hnot hx
  · rw [nodup_append]
    refine ⟨h.nodup, by simp, ?_⟩
    intro a ha b hb
    rw [mem_singleton] at hb
    rw [hb]
    intro heq
    rw [heq] at ha
    exact hnot ha
  · rw [append_queue]
    simp
  · intro a ha
    rw [(append_fields s snd).2.2.2.1]
    rcases mem_append.mp ha with hmem | hmem
    · have := h.fresh a hmem
      omega
    · rw [mem_singleton] at hmem
      omega
  · rw [append_queue, length_append, length_singleton]
    rw [h.qnum, Nat.mod_add_mod]

theorem ListOk.append_other {msq : ℕ} {other : List ℕ} (hother : ListOk s msq other)
    (hne : msq ≠ snd.msq) (hapart : ∀ a ∈ other, a ∉ cells) : ListOk (s.append snd) msq other := by
  apply hother.congr (append_queues_of_ne s snd hne)
  · intro a ha
    have hnew : a ≠ s.nextMsg := by
      have := hother.fresh a ha
      omega
    rw [append_next]
    split
    · exact update_of_ne hnew ..
    · rename_i hfirst
      have hlast : a ≠ (s.queues snd.msq).msgLast := by
        intro heq
        have hcells : cells ≠ [] := fun h0 => hfirst (h.first_eq_zero.mpr h0)
        rw [h.last, List.getLast?_eq_some_getLast hcells, Option.getD_some] at heq
        apply hapart a ha
        rw [heq]
        exact getLast_mem hcells
      rw [update_of_ne hlast, update_of_ne hnew]
  · rw [(append_fields s snd).2.2.2.1]
    omega

end

/-! ## Taking a message -/

section Take

variable (s : Msgs Task) (msq nmsg : ℕ)

theorem unlink_fields :
    (s.unlink msq nmsg).msgque = s.msgque ∧ (s.unlink msq nmsg).sleep = s.sleep ∧
      (s.unlink msq nmsg).nextQueue = s.nextQueue ∧ (s.unlink msq nmsg).nextMsg = s.nextMsg ∧
      (s.unlink msq nmsg).msgSeq = s.msgSeq ∧
      (∀ a, ((s.unlink msq nmsg).msgs a).msgTs = (s.msgs a).msgTs) ∧
      (∀ msq', msq' ≠ msq → (s.unlink msq nmsg).queues msq' = s.queues msq') ∧
      ((s.unlink msq nmsg).queues msq).seq = (s.queues msq).seq ∧
      ((s.unlink msq nmsg).queues msq).msgQnum = (s.queues msq).msgQnum ∧
      ((s.unlink msq nmsg).queues msq).msgCbytes = (s.queues msq).msgCbytes ∧
      ((s.unlink msq nmsg).queues msq).msgQbytes = (s.queues msq).msgQbytes := by
  unfold Msgs.unlink
  dsimp only
  split
  · refine ⟨rfl, rfl, rfl, rfl, rfl, fun a => rfl, ?_, ?_⟩
    · intro msq' h
      exact update_of_ne h ..
    · unfold Msgs.setQueue
      simp only [update_self, and_self]
  · refine ⟨rfl, rfl, rfl, rfl, rfl, fun a => setNext_ts s _ _ a, ?_, ?_⟩
    · intro msq' h
      exact update_of_ne h ..
    · unfold Msgs.setQueue
      simp only [update_self]
      split <;> exact ⟨rfl, rfl, rfl, rfl⟩

theorem take_queues_of_ne {msq' : ℕ} (h : msq' ≠ msq) :
    (s.take msq nmsg).queues msq' = s.queues msq' := by
  have hunlink := (unlink_fields s msq nmsg).2.2.2.2.2.2.1 msq' h
  rw [← hunlink]
  exact update_of_ne h ..

theorem take_queue :
    ((s.take msq nmsg).queues msq).seq = (s.queues msq).seq ∧
      ((s.take msq nmsg).queues msq).msgQnum = ((s.queues msq).msgQnum + 65535) % 65536 ∧
      ((s.take msq nmsg).queues msq).msgCbytes =
        ((s.queues msq).msgCbytes + 65536 - (s.msgs nmsg).msgTs) % 65536 ∧
      ((s.take msq nmsg).queues msq).msgQbytes = (s.queues msq).msgQbytes := by
  obtain ⟨_, _, _, _, _, _, _, hseq, hqnum, hcbytes, hqbytes⟩ := unlink_fields s msq nmsg
  unfold Msgs.take
  dsimp only [Msgs.setQueue]
  rw [update_self, hqnum, hcbytes]
  split <;> exact ⟨hseq, rfl, rfl, hqbytes⟩

theorem take_fields :
    (s.take msq nmsg).msgque = s.msgque ∧ (s.take msq nmsg).sleep = s.sleep ∧
      (s.take msq nmsg).nextQueue = s.nextQueue ∧ (s.take msq nmsg).nextMsg = s.nextMsg ∧
      (s.take msq nmsg).msgSeq = s.msgSeq ∧
      (s.take msq nmsg).msgbytes = s.msgbytes - (s.msgs nmsg).msgTs ∧
      (s.take msq nmsg).msghdrs = s.msghdrs - 1 ∧
      ∀ a, ((s.take msq nmsg).msgs a).msgTs = (s.msgs a).msgTs := by
  obtain ⟨hque, hsleep, hnextQ, hnextM, hseq, hts, _⟩ := unlink_fields s msq nmsg
  exact ⟨hque, hsleep, hnextQ, hnextM, hseq, rfl, rfl, hts⟩

theorem take_next : (s.take msq nmsg).next = (s.unlink msq nmsg).next := rfl

end Take

/-- What is left of a list when `sys_msgrcv` has taken a message.  It drops
everything when `msg_qnum` comes to zero. -/
def takeCells (cells : List ℕ) (nmsg : ℕ) : List ℕ :=
  if (cells.length + 65535) % 65536 = 0 then [] else cells.erase nmsg

theorem takeCells_subset {nmsg a : ℕ} (h : a ∈ takeCells cells nmsg) : a ∈ cells := by
  unfold takeCells at h
  split at h
  · simp at h
  · exact mem_of_mem_erase h

section
variable {s : Msgs Task} {msq nmsg : ℕ} (h : ListOk s msq cells) (hmem : nmsg ∈ cells)
include h hmem

theorem ListOk.unlink :
    Linked 0 (s.unlink msq nmsg).next ((s.unlink msq nmsg).queues msq).msgFirst
        (cells.erase nmsg) ∧
      (cells.erase nmsg ≠ [] →
        ((s.unlink msq nmsg).queues msq).msgLast = (cells.erase nmsg).getLast?.getD 0) ∧
      ∀ a, a ∉ cells → (s.unlink msq nmsg).next a = s.next a := by
  have hlinked := h.linked
  have hnodup := h.nodup
  have hlast := h.last
  obtain ⟨xs, zs, hcells⟩ := append_of_mem hmem
  have hxs : nmsg ∉ xs := by
    intro hx
    rw [hcells] at hnodup
    exact disjoint_of_nodup_append hnodup hx (mem_cons_self ..)
  have herase : cells.erase nmsg = xs ++ zs := by
    rw [hcells, erase_append_right _ hxs, erase_cons_head]
  rw [herase]
  rcases eq_nil_or_concat xs with hnil | ⟨front, y, hconcat⟩
  · -- the first message
    rw [hnil, nil_append] at hcells
    rw [hcells] at hlinked hlast
    have hfirst : nmsg = (s.queues msq).msgFirst := hlinked.1.symm
    unfold Msgs.unlink
    rw [if_pos hfirst, hnil, nil_append]
    have hself : (s.setQueue msq { s.queues msq with msgFirst := s.next nmsg }).queues msq =
        { s.queues msq with msgFirst := s.next nmsg } := update_self ..
    rw [hself, setQueue_next]
    refine ⟨hlinked.2.2, ?_, fun a _ => rfl⟩
    intro hzs
    rw [hlast, List.getLast?_cons_of_ne_nil hzs]
  · -- a later one
    rw [concat_eq_append] at hconcat
    have hshape : cells = front ++ y :: nmsg :: zs := by
      rw [hcells, hconcat]
      simp
    have hfirst : nmsg ≠ (s.queues msq).msgFirst := by
      intro heq
      have hne : (s.queues msq).msgFirst ≠ 0 := by
        rw [← heq]
        exact hlinked.ne_null hmem
      obtain ⟨rest, hrest, _⟩ := hlinked.pop hne
      rw [← heq] at hrest
      apply hxs
      rw [hrest] at hcells
      rw [hconcat] at hcells ⊢
      cases front with
      | nil =>
        simp only [nil_append, cons_append, List.cons.injEq] at hcells
        simp [hcells.1]
      | cons w front =>
        simp only [cons_append, List.cons.injEq] at hcells
        simp [hcells.1]
    have hprev : s.find (fun a => s.next a = nmsg) (s.queues msq).msgFirst = y := by
      rw [h.find_eq, hshape]
      rw [hshape] at hlinked hnodup
      rw [find_prev hlinked hnodup, Option.getD_some]
    rw [hshape] at hlinked hnodup hlast
    unfold Msgs.unlink
    rw [if_neg hfirst, hprev]
    have hself : ∀ q, ((s.setNext y (s.next nmsg)).setQueue msq q).queues msq = q :=
      fun q => update_self ..
    rw [hself, setQueue_next, setNext_next, hconcat, append_assoc, singleton_append]
    refine ⟨?_, ?_, ?_⟩
    · have hremoved := hlinked.remove hnodup
      split <;> exact hremoved
    · intro _
      cases zs with
      | nil =>
        have hlast' : nmsg = (s.queues msq).msgLast := by
          rw [hlast]
          simp
        rw [if_pos hlast']
        simp
      | cons z zs =>
        have hlast' : nmsg ≠ (s.queues msq).msgLast := by
          rw [hlast]
          intro heq
          have hmem' : nmsg ∈ z :: zs := by
            have hgl : (front ++ y :: nmsg :: z :: zs).getLast? = (z :: zs).getLast? := by
              rw [show front ++ y :: nmsg :: z :: zs = (front ++ [y, nmsg]) ++ (z :: zs) by simp,
                List.getLast?_append_of_ne_nil _ (by simp)]
            rw [hgl, List.getLast?_eq_some_getLast (by simp), Option.getD_some] at heq
            rw [heq]
            exact getLast_mem _
          rw [nodup_append] at hnodup
          exact (nodup_cons.mp (nodup_cons.mp hnodup.2.1).2).1 hmem'
        rw [if_neg hlast', hlast]
        rw [show front ++ y :: nmsg :: z :: zs = (front ++ [y, nmsg]) ++ (z :: zs) by simp,
          show front ++ y :: z :: zs = (front ++ [y]) ++ (z :: zs) by simp,
          List.getLast?_append_of_ne_nil _ (by simp), List.getLast?_append_of_ne_nil _ (by simp)]
    · intro a ha
      apply update_of_ne
      intro heq
      apply ha
      rw [heq, hshape]
      simp

omit h hmem in
theorem take_ends {s : Msgs Task} {msq : ℕ} (nmsg : ℕ) {n : ℕ}
    (hqnum : ((s.queues msq).msgQnum + 65535) % 65536 = n) :
    ((s.take msq nmsg).queues msq).msgFirst =
        (if n = 0 then 0 else ((s.unlink msq nmsg).queues msq).msgFirst) ∧
      ((s.take msq nmsg).queues msq).msgLast =
        if n = 0 then 0 else ((s.unlink msq nmsg).queues msq).msgLast := by
  have hkeep := (unlink_fields s msq nmsg).2.2.2.2.2.2.2.2.1
  unfold Msgs.take
  dsimp only [Msgs.setQueue]
  rw [update_self, hkeep, hqnum]
  split <;> exact ⟨rfl, rfl⟩

theorem ListOk.take : ListOk (s.take msq nmsg) msq (takeCells cells nmsg) := by
  obtain ⟨hlinked, hlast, _⟩ := h.unlink hmem
  obtain ⟨_, hqnum, _, _⟩ := take_queue s msq nmsg
  have hlength := length_erase_of_mem hmem
  have hpos : 0 < cells.length := length_pos_of_mem hmem
  have hcount : ((s.queues msq).msgQnum + 65535) % 65536 = (cells.length + 65535) % 65536 := by
    rw [h.qnum]
    omega
  obtain ⟨hfirst', hlast'⟩ := take_ends nmsg hcount
  have hfresh : ∀ a ∈ takeCells cells nmsg, a < (s.take msq nmsg).nextMsg := by
    intro a ha
    rw [(take_fields s msq nmsg).2.2.2.1]
    exact h.fresh a (takeCells_subset ha)
  rw [hcount] at hqnum
  by_cases hzero : (cells.length + 65535) % 65536 = 0
  · have hcells : takeCells cells nmsg = [] := if_pos hzero
    rw [hcells] at hfresh ⊢
    rw [if_pos hzero] at hfirst' hlast'
    refine ⟨hfirst', nodup_nil, hlast', hfresh, ?_⟩
    rw [hqnum, hzero, length_nil, Nat.zero_mod]
  · have hcells : takeCells cells nmsg = cells.erase nmsg := if_neg hzero
    rw [hcells] at hfresh ⊢
    rw [if_neg hzero] at hfirst' hlast'
    refine ⟨?_, h.nodup.erase nmsg, ?_, hfresh, ?_⟩
    · rw [take_next, hfirst']
      exact hlinked
    · rw [hlast']
      apply hlast
      intro hempty
      rw [hempty, length_nil] at hlength
      omega
    · omega

theorem ListOk.take_other {msq' : ℕ} {other : List ℕ} (hother : ListOk s msq' other)
    (hne : msq' ≠ msq) (hapart : ∀ a ∈ other, a ∉ cells) : ListOk (s.take msq nmsg) msq' other := by
  obtain ⟨_, _, hnext⟩ := h.unlink hmem
  apply hother.congr (take_queues_of_ne s msq nmsg hne)
  · intro a ha
    exact hnext a (hapart a ha)
  · rw [(take_fields s msq nmsg).2.2.2.1]

end

/-! ## Slots, queues and sleeping calls -/

def Msgs.Held (s : Msgs Task) (msq : ℕ) : Prop :=
  (∃ id, s.msgque id = .queue msq) ∨ ∃ t, s.sleep t = some (.freeque msq)

def Sleep.uses : Sleep → Option (ℕ × ℕ)
  | .wwait snd => some (snd.msq, snd.msqid)
  | .kmalloc snd => some (snd.msq, snd.msqid)
  | .rwait rcv => some (rcv.msq, rcv.msqid)
  | .newque _ => none
  | .freeque _ => none

def Msgs.Knows (s : Msgs Task) (msq msqid : ℕ) : Prop :=
  msq < s.nextQueue ∧
    (((s.queues msq).seq = msqid / msgmni ∧ s.msgque (msqid % msgmni) = .queue msq) ∨
      ((s.queues msq).seq ≠ msqid / msgmni ∧ ∀ id, s.msgque id ≠ .queue msq))

structure Chains (s : Msgs Task) (cells : ℕ → List ℕ) : Prop where
  list : ∀ msq, s.Held msq → ListOk s msq (cells msq)
  apart : ∀ msq msq', s.Held msq → s.Held msq' → ∀ a, a ∈ cells msq → a ∈ cells msq' → msq = msq'
  nextMsg_pos : 0 < s.nextMsg
  fresh : ∀ msq, s.Held msq → msq < s.nextQueue
  slot_lt : ∀ id msq, s.msgque id = .queue msq → id < msgmni
  slot_inj : ∀ id id' msq, s.msgque id = .queue msq → s.msgque id' = .queue msq → id = id'
  dying_inj : ∀ t t' msq, s.sleep t = some (.freeque msq) → s.sleep t' = some
    (.freeque msq) → t = t'
  dying_slot : ∀ t id msq, s.sleep t = some (.freeque msq) → s.msgque id ≠ .queue msq
  seq_lt : ∀ msq, (s.queues msq).seq < 65536
  msgSeq_lt : s.msgSeq < 65536
  knows : ∀ t w msq msqid, s.sleep t = some w → w.uses = some (msq, msqid) → s.Knows msq msqid
  reserved : ∀ t id, s.sleep t = some (.newque id) → s.msgque id = .noid ∧ id < msgmni
  reserved_inj : ∀ t t' id, s.sleep t = some (.newque id) → s.sleep t' = some (.newque id) → t = t'

variable {id : ℕ}

section
variable {s : Msgs Task} {cells : ℕ → List ℕ} (h : Chains s cells)
include h

theorem Chains.list_of_slot {msq : ℕ} (hslot : s.msgque id = .queue msq) :
    ListOk s msq (cells msq) :=
  h.list msq (.inl ⟨id, hslot⟩)

theorem Chains.of_list {msq : ℕ} {new : List ℕ} (hque : s'.msgque = s.msgque)
    (hsleep : s'.sleep = s.sleep) (hnextQ : s'.nextQueue = s.nextQueue)
    (hnextM : s.nextMsg ≤ s'.nextMsg) (hmsgSeq : s'.msgSeq = s.msgSeq)
    (hseq : ∀ a, (s'.queues a).seq = (s.queues a).seq) (hself : ListOk s' msq new)
    (hother : ∀ a, a ≠ msq → s.Held a → ListOk s' a (cells a))
    (hnew : ∀ a ∈ new, a ∈ cells msq ∨ s.nextMsg ≤ a) (hheld : s.Held msq) :
    Chains s' (update cells msq new) := by
  have hHeld : ∀ a, s'.Held a ↔ s.Held a := by
    intro a
    unfold Msgs.Held
    rw [hque, hsleep]
  have hKnows : ∀ a b, s'.Knows a b ↔ s.Knows a b := by
    intro a b
    unfold Msgs.Knows
    rw [hque, hnextQ, hseq]
  have hnotnew : ∀ msq', msq' ≠ msq → s.Held msq' → ∀ a ∈ cells msq', a ∉ new := by
    intro msq' hne hheld' a ha hmem
    rcases hnew a hmem with hold | hfresh
    · exact hne (h.apart msq' msq hheld' hheld a ha hold)
    · have := (h.list msq' hheld').fresh a ha
      omega
  constructor
  · intro a ha
    rw [hHeld] at ha
    by_cases heq : a = msq
    · rw [heq, update_self]
      exact hself
    · rw [update_of_ne heq]
      exact hother a heq ha
  · intro a b ha hb x hx hx'
    rw [hHeld] at ha hb
    by_cases hae : a = msq
    · by_cases hbe : b = msq
      · rw [hae, hbe]
      · rw [hae, update_self] at hx
        rw [update_of_ne hbe] at hx'
        exact absurd hx (hnotnew b hbe hb x hx')
    · rw [update_of_ne hae] at hx
      by_cases hbe : b = msq
      · rw [hbe, update_self] at hx'
        exact absurd hx' (hnotnew a hae ha x hx)
      · rw [update_of_ne hbe] at hx'
        exact h.apart a b ha hb x hx hx'
  · have := h.nextMsg_pos
    omega
  · intro a ha
    rw [hHeld] at ha
    rw [hnextQ]
    exact h.fresh a ha
  · rw [hque]
    exact h.slot_lt
  · rw [hque]
    exact h.slot_inj
  · rw [hsleep]
    exact h.dying_inj
  · rw [hsleep, hque]
    exact h.dying_slot
  · intro a
    rw [hseq]
    exact h.seq_lt a
  · rw [hmsgSeq]
    exact h.msgSeq_lt
  · intro t w a b hw huses
    rw [hsleep] at hw
    rw [hKnows]
    exact h.knows t w a b hw huses
  · rw [hsleep, hque]
    exact h.reserved
  · rw [hsleep]
    exact h.reserved_inj

theorem Chains.append {snd : Send} (hslot : s.msgque id = .queue snd.msq) :
    Chains (s.append snd) (update cells snd.msq (cells snd.msq ++ [s.nextMsg])) := by
  obtain ⟨hque, hsleep, hnextQ, hnextM, hmsgSeq, _, _⟩ := append_fields s snd
  have hheld : s.Held snd.msq := .inl ⟨id, hslot⟩
  have hlist := h.list snd.msq hheld
  apply h.of_list hque hsleep hnextQ _ hmsgSeq _ (hlist.append h.nextMsg_pos) _ _ hheld
  · omega
  · intro a
    by_cases ha : a = snd.msq
    · rw [ha, append_queue]
    · rw [append_queues_of_ne s snd ha]
  · intro a ha hheld'
    apply hlist.append_other (h.list a hheld') ha
    intro x hx hx'
    exact ha (h.apart a snd.msq hheld' hheld x hx hx')
  · intro a ha
    rcases mem_append.mp ha with hmem | hmem
    · exact .inl hmem
    · rw [mem_singleton] at hmem
      omega

theorem Chains.take {msq nmsg : ℕ} (hslot : s.msgque id = .queue msq) (hmem : nmsg ∈ cells msq) :
    Chains (s.take msq nmsg) (update cells msq (takeCells (cells msq) nmsg)) := by
  obtain ⟨hque, hsleep, hnextQ, hnextM, hmsgSeq, _⟩ := take_fields s msq nmsg
  have hheld : s.Held msq := .inl ⟨id, hslot⟩
  have hlist := h.list msq hheld
  apply h.of_list hque hsleep hnextQ _ hmsgSeq _ (hlist.take hmem) _ _ hheld
  · rw [hnextM]
  · intro a
    by_cases ha : a = msq
    · rw [ha]
      exact (take_queue s msq nmsg).1
    · rw [take_queues_of_ne s msq nmsg ha]
  · intro a ha hheld'
    apply hlist.take_other hmem (h.list a hheld') ha
    intro x hx hx'
    exact ha (h.apart a msq hheld' hheld x hx hx')
  · intro a ha
    exact .inl (takeCells_subset ha)

end

variable {t : Task}

theorem Msgs.Knows.slot {s : Msgs Task} {msq msqid : ℕ} (h : s.Knows msq msqid)
    (hseq : (s.queues msq).seq = msqid / msgmni) : s.msgque (msqid % msgmni) = .queue msq := by
  rcases h.2 with ⟨_, hslot⟩ | ⟨hne, _⟩
  · exact hslot
  · exact absurd hseq hne

section Steps

variable [DecidableEq Task]

theorem setSleep_sleep (s : Msgs Task) (t : Task) (w : Option Sleep) (t' : Task) :
    (s.setSleep t w).sleep t' = if t' = t then w else s.sleep t' := by
  unfold Msgs.setSleep
  dsimp only
  by_cases h : t' = t
  · rw [h, update_self, if_pos rfl]
  · rw [update_of_ne h, if_neg h]

section
variable {s : Msgs Task} {cells : ℕ → List ℕ} (h : Chains s cells)
include h

theorem Chains.setSleep {w : Option Sleep}
    (hnew : ∀ w', w = some w' → ∃ msq msqid, w'.uses = some (msq, msqid) ∧ s.Knows msq msqid) :
    Chains (s.setSleep t w) cells := by
  have hold : ∀ t' w', (s.setSleep t w).sleep t' = some w' → w'.uses = none →
      s.sleep t' = some w' := by
    intro t' w' hw' huses
    rw [setSleep_sleep] at hw'
    split at hw'
    · obtain ⟨msq, msqid, heq, _⟩ := hnew w' hw'
      rw [huses] at heq
      simp at heq
    · exact hw'
  have hHeld : ∀ msq, (s.setSleep t w).Held msq → s.Held msq := by
    rintro msq (hslot | ⟨t', ht'⟩)
    · exact .inl hslot
    · exact .inr ⟨t', hold t' _ ht' rfl⟩
  constructor
  · intro msq hheld
    exact (h.list msq (hHeld msq hheld)).congr rfl (fun a _ => rfl) le_rfl
  · intro msq msq' hheld hheld'
    exact h.apart msq msq' (hHeld msq hheld) (hHeld msq' hheld')
  · exact h.nextMsg_pos
  · intro msq hheld
    exact h.fresh msq (hHeld msq hheld)
  · exact h.slot_lt
  · exact h.slot_inj
  · intro t1 t2 msq h1 h2
    exact h.dying_inj t1 t2 msq (hold t1 _ h1 rfl) (hold t2 _ h2 rfl)
  · intro t' id msq ht'
    exact h.dying_slot t' id msq (hold t' _ ht' rfl)
  · exact h.seq_lt
  · exact h.msgSeq_lt
  · intro t' w' msq msqid hw' huses
    rw [setSleep_sleep] at hw'
    split at hw'
    · obtain ⟨msq', msqid', heq, hknows⟩ := hnew w' hw'
      rw [huses, Option.some.injEq, Prod.mk.injEq] at heq
      rw [heq.1, heq.2]
      exact hknows
    · exact h.knows t' w' msq msqid hw' huses
  · intro t' id ht'
    exact h.reserved t' id (hold t' _ ht' rfl)
  · intro t1 t2 id h1 h2
    exact h.reserved_inj t1 t2 id (hold t1 _ h1 rfl) (hold t2 _ h2 rfl)

theorem Chains.stopSleep (t : Task) :
    Chains (s.setSleep t none) cells := h.setSleep (by simp)

theorem Chains.reserve (hunused : s.msgque id = .unused) (hid : id < msgmni) :
    Chains ({ s with msgque := update s.msgque id .noid }.setSleep t (some (.newque id)))
      cells := by
  have hslot : ∀ id' msq, update s.msgque id .noid id' = .queue msq →
      s.msgque id' = .queue msq := by
    intro id' msq hs
    by_cases he : id' = id
    · rw [he, update_self] at hs
      simp at hs
    · rw [update_of_ne he] at hs
      exact hs
  have hkeep : ∀ id' msq, s.msgque id' = .queue msq →
      update s.msgque id .noid id' = .queue msq := by
    intro id' msq hs
    rw [update_of_ne]
    · exact hs
    · intro he
      rw [he, hunused] at hs
      simp at hs
  have hold : ∀ t' w', ({ s with msgque := update s.msgque id .noid }.setSleep t
      (some (.newque id))).sleep t' = some w' → (t' = t ∧ w' =
        .newque id) ∨ s.sleep t' = some w' := by
    intro t' w' hw'
    rw [setSleep_sleep] at hw'
    split at hw'
    · rename_i ht
      rw [Option.some.injEq] at hw'
      exact .inl ⟨ht, hw'.symm⟩
    · exact .inr hw'
  have hdying : ∀ t' msq, ({ s with msgque := update s.msgque id .noid }.setSleep t
      (some (.newque id))).sleep t' = some (.freeque msq) → s.sleep t' = some (.freeque msq) := by
    intro t' msq hw'
    rcases hold t' _ hw' with ⟨_, heq⟩ | h'
    · simp at heq
    · exact h'
  have hHeld : ∀ msq, ({ s with msgque := update s.msgque id .noid }.setSleep t
      (some (.newque id))).Held msq → s.Held msq := by
    rintro msq (⟨id', hs⟩ | ⟨t', ht'⟩)
    · exact .inl ⟨id', hslot id' msq hs⟩
    · exact .inr ⟨t', hdying t' msq ht'⟩
  -- the slot was not reserved before
  have hother : ∀ t', s.sleep t' ≠ some (.newque id) := by
    intro t' ht'
    have hres := (h.reserved t' id ht').1
    rw [hunused] at hres
    simp at hres
  constructor
  · intro msq hheld
    exact (h.list msq (hHeld msq hheld)).congr rfl (fun a _ => rfl) le_rfl
  · intro msq msq' hheld hheld'
    exact h.apart msq msq' (hHeld msq hheld) (hHeld msq' hheld')
  · exact h.nextMsg_pos
  · intro msq hheld
    exact h.fresh msq (hHeld msq hheld)
  · intro id' msq hs
    exact h.slot_lt id' msq (hslot id' msq hs)
  · intro id1 id2 msq h1 h2
    exact h.slot_inj id1 id2 msq (hslot id1 msq h1) (hslot id2 msq h2)
  · intro t1 t2 msq h1 h2
    exact h.dying_inj t1 t2 msq (hdying t1 msq h1) (hdying t2 msq h2)
  · intro t' id' msq ht' hs
    exact h.dying_slot t' id' msq (hdying t' msq ht') (hslot id' msq hs)
  · exact h.seq_lt
  · exact h.msgSeq_lt
  · intro t' w' msq msqid hw' huses
    rcases hold t' w' hw' with ⟨_, heq⟩ | h'
    · rw [heq] at huses
      simp [Sleep.uses] at huses
    · obtain ⟨hlt, hcases⟩ := h.knows t' w' msq msqid h' huses
      refine ⟨hlt, ?_⟩
      rcases hcases with ⟨hseq, hs⟩ | ⟨hseq, hs⟩
      · exact .inl ⟨hseq, hkeep _ msq hs⟩
      · exact .inr ⟨hseq, fun id' hid' => hs id' (hslot id' msq hid')⟩
  · intro t' id' ht'
    rcases hold t' _ ht' with ⟨_, heq⟩ | h'
    · rw [Sleep.newque.injEq] at heq
      rw [heq]
      exact ⟨update_self .., hid⟩
    · obtain ⟨hnoid, hlt⟩ := h.reserved t' id' h'
      refine ⟨?_, hlt⟩
      change update s.msgque id .noid id' = .noid
      by_cases he : id' = id
      · rw [he, update_self]
      · rw [update_of_ne he]
        exact hnoid
  · intro t1 t2 id' h1 h2
    rcases hold t1 _ h1 with ⟨ht1, heq1⟩ | h1'
    · rcases hold t2 _ h2 with ⟨ht2, _⟩ | h2'
      · rw [ht1, ht2]
      · rw [heq1] at h2'
        exact absurd h2' (hother t2)
    · rcases hold t2 _ h2 with ⟨_, heq2⟩ | h2'
      · rw [heq2] at h1'
        exact absurd h1' (hother t1)
      · exact h.reserved_inj t1 t2 id' h1' h2'

omit [DecidableEq Task] in
theorem Chains.reserved_slot (hcall : s.sleep t = some (.newque id)) {id' msq : ℕ}
    (hslot : s.msgque id' = .queue msq) : id' ≠ id := by
  intro heq
  rw [heq, (h.reserved t id hcall).1] at hslot
  simp at hslot

theorem Chains.endNewque {cells' : ℕ → List ℕ} (hcall : s.sleep t = some (.newque id)) {slot : Slot}
    (hque : s'.msgque = update s.msgque id slot) (hsleep : s'.sleep = update s.sleep t none)
    (hslot : ∀ msq, slot = .queue msq → msq = s.nextQueue ∧ msq < s'.nextQueue ∧
      ListOk s' msq (cells' msq) ∧ cells' msq = [])
    (hcells : ∀ msq < s.nextQueue, cells' msq = cells msq)
    (hqueues : ∀ msq < s.nextQueue, s'.queues msq = s.queues msq) (hmsgs : s'.msgs = s.msgs)
    (hnextM : s'.nextMsg = s.nextMsg) (hnextQ : s.nextQueue ≤ s'.nextQueue)
    (hseq : ∀ msq, (s'.queues msq).seq < 65536) (hmsgSeq : s'.msgSeq = s.msgSeq) :
    Chains s' cells' := by
  obtain ⟨hnoid, hid⟩ := h.reserved t id hcall
  have hback : ∀ id' msq, s'.msgque id' = .queue msq →
      (id' = id ∧ slot = .queue msq) ∨ (id' ≠ id ∧ s.msgque id' = .queue msq) := by
    intro id' msq hs
    rw [hque] at hs
    by_cases he : id' = id
    · rw [he, update_self] at hs
      exact .inl ⟨he, hs⟩
    · rw [update_of_ne he] at hs
      exact .inr ⟨he, hs⟩
  have hwake : ∀ t' w, s'.sleep t' = some w → t' ≠ t ∧ s.sleep t' = some w := by
    intro t' w hw
    rw [hsleep] at hw
    by_cases ht : t' = t
    · rw [ht, update_self] at hw
      simp at hw
    · rw [update_of_ne ht] at hw
      exact ⟨ht, hw⟩
  have hHeld : ∀ msq, s'.Held msq → slot = .queue msq ∨ s.Held msq := by
    rintro msq (⟨id', hs⟩ | ⟨t', ht'⟩)
    · rcases hback id' msq hs with ⟨_, hnew⟩ | ⟨_, hold⟩
      · exact .inl hnew
      · exact .inr (.inl ⟨id', hold⟩)
    · exact .inr (.inr ⟨t', (hwake t' _ ht').2⟩)
  have hnewnot : ∀ msq, slot = .queue msq → ¬s.Held msq := by
    intro msq hnew hheld
    have heq := (hslot msq hnew).1
    have hlt := h.fresh msq hheld
    omega
  have hlist : ∀ msq, s.Held msq → ListOk s' msq (cells' msq) := by
    intro msq hheld
    have hlt := h.fresh msq hheld
    rw [hcells msq hlt]
    apply (h.list msq hheld).congr (hqueues msq hlt)
    · intro a _
      unfold Msgs.next
      rw [hmsgs]
    · rw [hnextM]
  constructor
  · intro msq hheld
    rcases hHeld msq hheld with hnew | hold
    · exact (hslot msq hnew).2.2.1
    · exact hlist msq hold
  · intro msq msq' hheld hheld' a ha ha'
    rcases hHeld msq hheld with hnew | hold
    · rw [(hslot msq hnew).2.2.2] at ha
      simp at ha
    · rcases hHeld msq' hheld' with hnew' | hold'
      · rw [(hslot msq' hnew').2.2.2] at ha'
        simp at ha'
      · rw [hcells msq (h.fresh msq hold)] at ha
        rw [hcells msq' (h.fresh msq' hold')] at ha'
        exact h.apart msq msq' hold hold' a ha ha'
  · rw [hnextM]
    exact h.nextMsg_pos
  · intro msq hheld
    rcases hHeld msq hheld with hnew | hold
    · exact (hslot msq hnew).2.1
    · exact lt_of_lt_of_le (h.fresh msq hold) hnextQ
  · intro id' msq hs
    rcases hback id' msq hs with ⟨heq, _⟩ | ⟨_, hold⟩
    · rw [heq]
      exact hid
    · exact h.slot_lt id' msq hold
  · intro id1 id2 msq h1 h2
    rcases hback id1 msq h1 with ⟨he1, hnew⟩ | ⟨_, hold1⟩
    · rcases hback id2 msq h2 with ⟨he2, _⟩ | ⟨_, hold2⟩
      · rw [he1, he2]
      · exact absurd (.inl ⟨id2, hold2⟩) (hnewnot msq hnew)
    · rcases hback id2 msq h2 with ⟨_, hnew⟩ | ⟨_, hold2⟩
      · exact absurd (.inl ⟨id1, hold1⟩) (hnewnot msq hnew)
      · exact h.slot_inj id1 id2 msq hold1 hold2
  · intro t1 t2 msq h1 h2
    exact h.dying_inj t1 t2 msq (hwake t1 _ h1).2 (hwake t2 _ h2).2
  · intro t' id' msq ht' hs
    rcases hback id' msq hs with ⟨_, hnew⟩ | ⟨_, hold⟩
    · exact hnewnot msq hnew (.inr ⟨t', (hwake t' _ ht').2⟩)
    · exact h.dying_slot t' id' msq (hwake t' _ ht').2 hold
  · exact hseq
  · rw [hmsgSeq]
    exact h.msgSeq_lt
  · intro t' w msq msqid hw huses
    obtain ⟨hlt, hcases⟩ := h.knows t' w msq msqid (hwake t' w hw).2 huses
    refine ⟨lt_of_lt_of_le hlt hnextQ, ?_⟩
    rw [hqueues msq hlt]
    rcases hcases with ⟨hs, hold⟩ | ⟨hs, hold⟩
    · refine .inl ⟨hs, ?_⟩
      rw [hque, update_of_ne (h.reserved_slot hcall hold)]
      exact hold
    · refine .inr ⟨hs, ?_⟩
      intro id' hid'
      rcases hback id' msq hid' with ⟨_, hnew⟩ | ⟨_, hold'⟩
      · have heq := (hslot msq hnew).1
        omega
      · exact hold id' hold'
  · intro t' id' ht'
    obtain ⟨hne, hold⟩ := hwake t' _ ht'
    obtain ⟨hnoid', hlt⟩ := h.reserved t' id' hold
    refine ⟨?_, hlt⟩
    rw [hque, update_of_ne]
    · exact hnoid'
    · intro heq
      rw [heq] at hold
      exact hne (h.reserved_inj t' t id hold hcall)
  · intro t1 t2 id' h1 h2
    exact h.reserved_inj t1 t2 id' (hwake t1 _ h1).2 (hwake t2 _ h2).2

theorem Chains.detach {msq : ℕ} (hslot : s.msgque id = .queue msq) {w : Option Sleep}
    (hw : w = none ∨ w = some (.freeque msq)) : Chains ((s.detach id msq).setSleep t w) cells := by
  have hback : ∀ id' msq', (s.detach id msq).msgque id' = .queue msq' →
      s.msgque id' = .queue msq' ∧ msq' ≠ msq := by
    intro id' msq' hs
    unfold Msgs.detach at hs
    dsimp only at hs
    by_cases he : id' = id
    · rw [he, update_self] at hs
      simp at hs
    · rw [update_of_ne he] at hs
      refine ⟨hs, ?_⟩
      intro heq
      rw [heq] at hs
      exact he (h.slot_inj id' id msq hs hslot)
  have hqueue : ∀ msq', msq' ≠ msq → (s.detach id msq).queues msq' = s.queues msq' :=
    fun msq' hne => update_of_ne hne ..
  have hself : (s.detach id msq).queues msq =
      { s.queues msq with seq := ((s.queues msq).seq + 1) % 65536 } := update_self ..
  have hwake : ∀ t' w', ((s.detach id msq).setSleep t w).sleep t' = some w' →
      (t' = t ∧ w' = .freeque msq) ∨ (t' ≠ t ∧ s.sleep t' = some w') := by
    intro t' w' hw'
    rw [setSleep_sleep] at hw'
    split at hw'
    · rename_i ht
      rcases hw with hnone | hsome
      · rw [hnone] at hw'
        simp at hw'
      · rw [hsome, Option.some.injEq] at hw'
        exact .inl ⟨ht, hw'.symm⟩
    · rename_i ht
      exact .inr ⟨ht, hw'⟩
  have hHeld : ∀ msq', ((s.detach id msq).setSleep t w).Held msq' → s.Held msq' := by
    rintro msq' (⟨id', hs⟩ | ⟨t', ht'⟩)
    · exact .inl ⟨id', (hback id' msq' hs).1⟩
    · rcases hwake t' _ ht' with ⟨_, heq⟩ | ⟨_, hold⟩
      · rw [Sleep.freeque.injEq] at heq
        rw [heq]
        exact .inl ⟨id, hslot⟩
      · exact .inr ⟨t', hold⟩
  have hnotdying : ∀ t', s.sleep t' ≠ some (.freeque msq) := fun t' ht' =>
    h.dying_slot t' id msq ht' hslot
  constructor
  · intro msq' hheld
    have hold := h.list msq' (hHeld msq' hheld)
    by_cases heq : msq' = msq
    · rw [heq] at hold ⊢
      constructor
      · change Linked 0 s.next ((s.detach id msq).queues msq).msgFirst _
        rw [hself]
        exact hold.linked
      · exact hold.nodup
      · change ((s.detach id msq).queues msq).msgLast = _
        rw [hself]
        exact hold.last
      · exact hold.fresh
      · change ((s.detach id msq).queues msq).msgQnum = _
        rw [hself]
        exact hold.qnum
    · exact hold.congr (hqueue msq' heq) (fun a _ => rfl) le_rfl
  · intro m1 m2 h1 h2
    exact h.apart m1 m2 (hHeld m1 h1) (hHeld m2 h2)
  · exact h.nextMsg_pos
  · intro msq' hheld
    exact h.fresh msq' (hHeld msq' hheld)
  · intro id' msq' hs
    exact h.slot_lt id' msq' (hback id' msq' hs).1
  · intro id1 id2 msq' h1 h2
    exact h.slot_inj id1 id2 msq' (hback id1 msq' h1).1 (hback id2 msq' h2).1
  · intro t1 t2 msq' h1 h2
    rcases hwake t1 _ h1 with ⟨ht1, heq1⟩ | ⟨_, hold1⟩
    · rcases hwake t2 _ h2 with ⟨ht2, _⟩ | ⟨_, hold2⟩
      · rw [ht1, ht2]
      · rw [heq1] at hold2
        exact absurd hold2 (hnotdying t2)
    · rcases hwake t2 _ h2 with ⟨_, heq2⟩ | ⟨_, hold2⟩
      · rw [heq2] at hold1
        exact absurd hold1 (hnotdying t1)
      · exact h.dying_inj t1 t2 msq' hold1 hold2
  · intro t' id' msq' ht' hs
    obtain ⟨hold, hne⟩ := hback id' msq' hs
    rcases hwake t' _ ht' with ⟨_, heq⟩ | ⟨_, hdying⟩
    · rw [Sleep.freeque.injEq] at heq
      exact hne heq
    · exact h.dying_slot t' id' msq' hdying hold
  · intro msq'
    change ((s.detach id msq).queues msq').seq < 65536
    by_cases heq : msq' = msq
    · rw [heq, hself]
      exact Nat.mod_lt _ (by omega)
    · rw [hqueue msq' heq]
      exact h.seq_lt msq'
  · exact Nat.mod_lt _ (by omega)
  · intro t' w' msq' msqid hw' huses
    rcases hwake t' w' hw' with ⟨_, heq⟩ | ⟨_, hold⟩
    · rw [heq] at huses
      simp [Sleep.uses] at huses
    · obtain ⟨hlt, hcases⟩ := h.knows t' w' msq' msqid hold huses
      refine ⟨hlt, ?_⟩
      change (((s.detach id msq).queues msq').seq = _ ∧
        (s.detach id msq).msgque (msqid % msgmni) = _) ∨
        (((s.detach id msq).queues msq').seq ≠ _ ∧ ∀ id', (s.detach id msq).msgque id' ≠ _)
      by_cases heq : msq' = msq
      · -- the sequence number moves on
        right
        rw [heq] at hcases ⊢
        rcases hcases with ⟨hseq, _⟩ | ⟨_, hnone⟩
        · rw [hself]
          refine ⟨?_, ?_⟩
          · dsimp only
            omega
          · intro id' hid'
            exact (hback id' msq hid').2 rfl
        · exact absurd hslot (hnone id)
      · rw [hqueue msq' heq]
        rcases hcases with ⟨hseq, hs⟩ | ⟨hseq, hnone⟩
        · refine .inl ⟨hseq, ?_⟩
          unfold Msgs.detach
          dsimp only
          rw [update_of_ne]
          · exact hs
          · intro hid
            rw [hid, hslot, Slot.queue.injEq] at hs
            exact heq hs.symm
        · exact .inr ⟨hseq, fun id' hid' => hnone id' (hback id' msq' hid').1⟩
  · intro t' id' ht'
    rcases hwake t' _ ht' with ⟨_, heq⟩ | ⟨_, hold⟩
    · simp at heq
    · obtain ⟨hnoid, hlt⟩ := h.reserved t' id' hold
      refine ⟨?_, hlt⟩
      change update s.msgque id .unused id' = .noid
      rw [update_of_ne]
      · exact hnoid
      · intro hid
        rw [hid, hslot] at hnoid
        simp at hnoid
  · intro t1 t2 id' h1 h2
    rcases hwake t1 _ h1 with ⟨_, heq1⟩ | ⟨_, hold1⟩
    · simp at heq1
    · rcases hwake t2 _ h2 with ⟨_, heq2⟩ | ⟨_, hold2⟩
      · simp at heq2
      · exact h.reserved_inj t1 t2 id' hold1 hold2

end

/-! ## One step -/

def appendOf (s : Msgs Task) : Event Task → Option Send
  | .wake t true _ _ =>
    match s.sleep t with
    | some (.kmalloc snd) =>
      if (s.queues snd.msq).seq = snd.msqid / msgmni then some snd else none
    | _ => none
  | _ => none

def setOf (s : Msgs Task) : Event Task → Option (ℕ × ℕ)
  | .ipcSet msqid qbytes permitted suser =>
    match s.msgque (msqid % msgmni) with
    | .queue msq =>
      if (s.queues msq).seq = msqid / msgmni ∧ permitted ∧ ¬(msgmnb < qbytes.toNat ∧ ¬suser) then
        some (msq, qbytes.toNat)
      else none
    | _ => none
  | _ => none

inductive Moves (s : Msgs Task) (e : Event Task) : Msgs Task → Prop where
  | stay : Moves s e s
  | sleeps (t : Task) (w : Option Sleep) (hidle : ∀ msq, s.sleep t ≠ some (.freeque msq))
      (hknows : ∀ w', w = some w' → ∃ msq msqid, w'.uses = some (msq, msqid) ∧ s.Knows msq msqid) :
      Moves s e (s.setSleep t w)
  | appends (t : Task) (snd : Send) (happend : appendOf s e = some snd)
      (hcall : s.sleep t = some (.kmalloc snd))
      (hslot : s.msgque (snd.msqid % msgmni) = .queue snd.msq) :
      Moves s e ((s.append snd).setSleep t none)
  | takes (t : Task) (rcv : Receive) (hidle : ∀ msq, s.sleep t ≠ some (.freeque msq))
      (hslot : s.msgque (rcv.msqid % msgmni) = .queue rcv.msq) (hne : s.choose rcv ≠ 0) :
      Moves s e ((s.take rcv.msq (s.choose rcv)).setSleep t none)
  | reserves (t : Task) (id : ℕ) (hidle : s.sleep t = none) (hunused : s.msgque id = .unused)
      (hid : id < msgmni) :
      Moves s e ({ s with msgque := update s.msgque id .noid }.setSleep t (some (.newque id)))
  | creates (t : Task) (id : ℕ) (memory : Bool) (hcall : s.sleep t = some (.newque id)) :
      Moves s e (s.newqueAlloc t id memory).1
  | detaches (t : Task) (id msq : ℕ) (hidle : s.sleep t = none) (hslot : s.msgque id = .queue msq) :
      Moves s e ((s.detach id msq).setSleep t (some (.freeque msq)))
  | removes (t : Task) (id msq : ℕ) (hidle : s.sleep t = none) (hslot : s.msgque id = .queue msq) :
      Moves s e (((s.detach id msq).release msq).setSleep t none)
  | releases (t : Task) (msq : ℕ) (hcall : s.sleep t = some (.freeque msq)) :
      Moves s e ((s.release msq).setSleep t none)
  | sets (id msq qbytes : ℕ) (hset : setOf s e = some (msq, qbytes))
      (hslot : s.msgque id = .queue msq) (hlt : qbytes < 65536) :
      Moves s e (s.setQueue msq { s.queues msq with msgQbytes := qbytes })

section
variable {s : Msgs Task} (e : Event Task) (permitted signal : Bool)
  (hidle : ∀ msq, s.sleep t ≠ some (.freeque msq))
include hidle

theorem sndSlept_moves {snd : Send} (hknows : s.Knows snd.msq snd.msqid) :
    Moves s e (s.sndSlept t snd permitted signal).1 := by
  have hstop : Moves s e (s.setSleep t none) := Moves.sleeps t none hidle (by simp)
  unfold Msgs.sndSlept
  dsimp only
  split
  · exact hstop
  · split
    · exact hstop
    · split
      · split
        · exact hstop
        · split
          · exact hstop
          · apply Moves.sleeps t _ hidle
            intro w' hw'
            rw [Option.some.injEq] at hw'
            exact ⟨snd.msq, snd.msqid, by rw [← hw']; rfl, hknows⟩
      · apply Moves.sleeps t _ hidle
        intro w' hw'
        rw [Option.some.injEq] at hw'
        exact ⟨snd.msq, snd.msqid, by rw [← hw']; rfl, hknows⟩

omit hidle in
theorem sndAlloc_moves {s : Msgs Task} {snd : Send} (memory permitted signal : Bool)
    (hcall : s.sleep t = some (.kmalloc snd)) (hknows : s.Knows snd.msq snd.msqid) :
    Moves s (.wake t memory permitted signal) (s.sndAlloc t snd memory).1 := by
  have hstop : Moves s (.wake t memory permitted signal) (s.setSleep t none) := by
    apply Moves.sleeps t none _ (by simp)
    intro msq hmsq
    rw [hcall] at hmsq
    simp at hmsq
  unfold Msgs.sndAlloc
  split
  · exact hstop
  · rename_i hmemory
    have hmem : memory = true := by simpa using hmemory
    split
    · exact hstop
    · exact hstop
    · split
      · exact hstop
      · rename_i hseq
        apply Moves.appends t snd _ hcall (hknows.slot (not_not.mp hseq))
        simp only [appendOf, hmem, hcall, if_pos (not_not.mp hseq)]

theorem rcvLoop_moves (hknows : s.Knows rcv.msq rcv.msqid) :
    Moves s e (s.rcvLoop t rcv permitted signal).1 := by
  have hstop : Moves s e (s.setSleep t none) := Moves.sleeps t none hidle (by simp)
  unfold Msgs.rcvLoop
  split
  · exact hstop
  · rename_i hseq
    split
    · exact hstop
    · dsimp only
      split
      · rename_i hne
        split
        · exact hstop
        · exact Moves.takes t rcv hidle (hknows.slot (not_not.mp hseq)) hne
      · split
        · exact hstop
        · split
          · exact hstop
          · apply Moves.sleeps t _ hidle
            intro w' hw'
            rw [Option.some.injEq] at hw'
            exact ⟨rcv.msq, rcv.msqid, by rw [← hw']; rfl, hknows⟩

end

section
variable {s : Msgs Task} {cells : ℕ → List ℕ} (h : Chains s cells) (hidle : s.sleep t = none)
include h hidle

theorem Chains.sndSlept_fresh {snd : Send} (hslot : s.msgque (snd.msqid % msgmni) = .queue snd.msq)
    (e : Event Task) (permitted signal : Bool) :
    Moves s e (s.sndSlept t snd permitted signal).1 := by
  have hnot : ∀ msq, s.sleep t ≠ some (.freeque msq) := by
    intro msq
    rw [hidle]
    simp
  by_cases hseq : (s.queues snd.msq).seq = snd.msqid / msgmni
  · exact sndSlept_moves e permitted signal hnot
      ⟨h.fresh snd.msq (.inl ⟨_, hslot⟩), .inl ⟨hseq, hslot⟩⟩
  · unfold Msgs.sndSlept
    rw [if_pos hseq]
    exact Moves.sleeps t none hnot (by simp)

theorem Chains.rcvLoop_fresh (hslot : s.msgque (rcv.msqid % msgmni) = .queue rcv.msq)
    (e : Event Task) (permitted signal : Bool) :
    Moves s e (s.rcvLoop t rcv permitted signal).1 := by
  have hnot : ∀ msq, s.sleep t ≠ some (.freeque msq) := by
    intro msq
    rw [hidle]
    simp
  by_cases hseq : (s.queues rcv.msq).seq = rcv.msqid / msgmni
  · exact rcvLoop_moves e permitted signal hnot
      ⟨h.fresh rcv.msq (.inl ⟨_, hslot⟩), .inl ⟨hseq, hslot⟩⟩
  · unfold Msgs.rcvLoop
    rw [if_pos hseq]
    exact Moves.sleeps t none hnot (by simp)

end

variable [Fintype Task]

theorem Chains.step_moves {s : Msgs Task} {cells : ℕ → List ℕ} (h : Chains s cells)
    (e : Event Task) : Moves s e (s.step e).1 := by
  cases e with
  | msgsnd t msqid msgsz mtype nowait permitted signal =>
    unfold Msgs.step
    dsimp only
    split
    · exact Moves.stay
    · rename_i hidle
      unfold Msgs.msgsnd
      split
      · exact Moves.stay
      · split
        · exact Moves.stay
        · split
          · exact Moves.stay
          · exact Moves.stay
          · rename_i msq hslot
            exact h.sndSlept_fresh (by simpa using hidle) hslot _ permitted signal
  | msgrcv t msqid msgsz msgtyp nowait noerror except permitted signal =>
    unfold Msgs.step
    dsimp only
    split
    · exact Moves.stay
    · rename_i hidle
      unfold Msgs.msgrcv
      split
      · exact Moves.stay
      · split
        · exact Moves.stay
        · exact Moves.stay
        · rename_i msq hslot
          exact h.rcvLoop_fresh (by simpa using hidle) hslot _ permitted signal
  | newque t =>
    unfold Msgs.step
    dsimp only
    split
    · exact Moves.stay
    · rename_i hidle
      unfold Msgs.newque
      split
      · exact Moves.stay
      · rename_i id hfind
        have hunused := List.find?_some hfind
        have hmem := mem_of_find?_eq_some hfind
        simp only [decide_eq_true_eq] at hunused
        exact Moves.reserves t id (by simpa using hidle) hunused (mem_range.mp hmem)
  | rmid t msqid permitted =>
    unfold Msgs.step
    dsimp only
    split
    · exact Moves.stay
    · rename_i hidle
      unfold Msgs.rmid
      split
      · exact Moves.stay
      · exact Moves.stay
      · rename_i msq hslot
        split
        · exact Moves.stay
        · split
          · exact Moves.stay
          · unfold Msgs.reap
            split
            · exact Moves.detaches t _ msq (by simpa using hidle) hslot
            · exact Moves.removes t _ msq (by simpa using hidle) hslot
  | ipcSet msqid qbytes permitted suser =>
    change Moves s _ (s.ipcSet msqid qbytes permitted suser).1
    unfold Msgs.ipcSet
    split
    · exact Moves.stay
    · exact Moves.stay
    · rename_i msq hslot
      split
      · exact Moves.stay
      · rename_i hseq
        split
        · exact Moves.stay
        · rename_i hpermitted
          split
          · exact Moves.stay
          · rename_i hsuser
            apply Moves.sets _ msq _ _ hslot qbytes.toNat_lt
            unfold setOf
            simp only [hslot]
            rw [if_pos]
            exact ⟨not_not.mp hseq, not_not.mp hpermitted, hsuser⟩
  | wake t memory permitted signal =>
    change Moves s _ (s.wake t memory permitted signal).1
    unfold Msgs.wake
    split
    · exact Moves.stay
    · rename_i snd hcall
      apply sndSlept_moves _ permitted signal _ (h.knows t _ _ _ hcall rfl)
      intro msq hmsq
      rw [hcall] at hmsq
      simp at hmsq
    · rename_i snd hcall
      exact sndAlloc_moves memory permitted signal hcall (h.knows t _ _ _ hcall rfl)
    · rename_i rcv hcall
      apply rcvLoop_moves _ permitted signal _ (h.knows t _ _ _ hcall rfl)
      intro msq hmsq
      rw [hcall] at hmsq
      simp at hmsq
    · rename_i id hcall
      exact Moves.creates t id memory hcall
    · rename_i msq hcall
      unfold Msgs.reap
      split
      · have hsame : s.setSleep t (some (.freeque msq)) = s := by
          unfold Msgs.setSleep
          rw [← hcall, update_eq_self]
        rw [hsame]
        exact Moves.stay
      · exact Moves.releases t msq hcall

end Steps

end LinuxKernel.Message
