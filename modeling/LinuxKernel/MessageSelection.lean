import LinuxKernel.MessageAccounting

/-!
# Which message `sys_msgrcv` takes

`selected` says which message of a queue a call asks for.  `sys_msgrcv` takes
that one, and leaves the others in their order, with two exceptions: the negation
of the least `long` is that number again, and a `msg_qnum` that counts to zero
empties the list, whatever is left in it.
-/

namespace LinuxKernel.Message
open Function List

variable {Task : Type}

def Msgs.list (s : Msgs Task) (msq : ℕ) : List ℕ :=
  foldLinks 0 s.next (fun cells a => cells ++ [a]) s.nextMsg [] (s.queues msq).msgFirst

/-- The first message for type 0, the first of a positive type, or of another type,
and for a negative type the first of the lowest type that is not above its absolute
value. -/
def selected (type : ℕ → Int32) (cells : List ℕ) (msgtyp : Int32) (except : Bool) : Option ℕ :=
  if msgtyp = 0 then cells.head?
  else if 0 < msgtyp then
    if except then cells.find? fun a => type a ≠ msgtyp
    else cells.find? fun a => type a = msgtyp
  else
    cells.find? fun a =>
      (type a).toInt ≤ |msgtyp.toInt| ∧
        ∀ b ∈ cells, (type b).toInt ≤ |msgtyp.toInt| → type a ≤ type b

def Msgs.type (s : Msgs Task) (a : ℕ) : Int32 := (s.msgs a).msgType

def Msgs.selected (s : Msgs Task) (rcv : Receive) : Option ℕ :=
  Message.selected s.type (s.list rcv.msq) rcv.msgtyp rcv.except

def Receive.accepts (rcv : Receive) (ts : ℕ) : Prop := rcv.noerror = true ∨ ts ≤ rcv.msgsz

structure ReceiveSpec (s : Msgs Task) (rcv : Receive) (signal : Bool)
    (r : Msgs Task × Outcome) : Prop where
  taken : ∀ a, s.selected rcv = some a → rcv.accepts (s.msgs a).msgTs →
    r.2 = .returned (min rcv.msgsz (s.msgs a).msgTs : ℕ) ∧
      r.1.list rcv.msq = (s.list rcv.msq).erase a ∧ r.1.type = s.type ∧
      ∀ msq, msq ≠ rcv.msq → s.Held msq → r.1.list msq = s.list msq
  tooLong : ∀ a, s.selected rcv = some a → ¬rcv.accepts (s.msgs a).msgTs →
    r.2 = .returned (-e2big) ∧ r.1.queues = s.queues ∧ r.1.msgs = s.msgs
  waits : s.selected rcv = none →
    r.2 = (if rcv.nowait then .returned (-enomsg) else if signal then .returned (-eintr)
      else .asleep) ∧ r.1.queues = s.queues ∧ r.1.msgs = s.msgs
  noMessage : r.2 = .asleep ∨ r.2 = .returned (-enomsg) ∨ r.2 = .returned (-eintr) →
    s.selected rcv = none

/-- The type is not the one that has no absolute value, and `msg_qnum` does not come
to zero before the list does. -/
structure ReceiveOk (s : Msgs Task) (rcv : Receive) : Prop where
  negated : rcv.msgtyp = Int32.minValue → s.list rcv.msq = []
  counted : (∃ a, s.selected rcv = some a ∧ rcv.accepts (s.msgs a).msgTs) →
    (s.list rcv.msq).length % 65536 = 1 → (s.list rcv.msq).length = 1

/-! ## The search -/

theorem foldl_snoc (cells front : List ℕ) :
    cells.foldl (fun cells a => cells ++ [a]) front = front ++ cells := by
  induction cells generalizing front with
  | nil => simp
  | cons a cells ih =>
    rw [foldl_cons, ih]
    simp

variable {s : Msgs Task} {msq : ℕ} {cells : List ℕ}

theorem ListOk.list_eq (h : ListOk s msq cells) : s.list msq = cells := by
  unfold Msgs.list
  rw [h.linked.foldLinks_eq _ _ h.length_le, foldl_snoc, nil_append]

variable {a : ℕ}

theorem foldl_least_split (f : ℕ → Int32) (xs ys : List ℕ) (rest : List ℕ)
    (hbefore : ∀ b ∈ xs, f a < f b) (hafter : ∀ b ∈ ys, f a ≤ f b) :
    ∃ xs' ys', xs ++ a :: ys ++ rest =
        xs' ++ rest.foldl (fun least tmsg => if f tmsg < f least then tmsg else least) a :: ys' ∧
      (∀ b ∈ xs', f (rest.foldl (fun least tmsg => if f tmsg < f least then tmsg else least) a) <
        f b) ∧
      ∀ b ∈ ys', f (rest.foldl (fun least tmsg => if f tmsg < f least then tmsg else least) a) ≤
        f b := by
  induction rest generalizing xs ys a with
  | nil => exact ⟨xs, ys, by simp, hbefore, hafter⟩
  | cons x rest ih =>
    rw [foldl_cons]
    by_cases hlt : f x < f a
    · rw [if_pos hlt]
      have hfront : ∀ b ∈ xs ++ a :: ys, f x < f b := by
        intro b hb
        rcases mem_append.mp hb with hb | hb
        · exact Int32.lt_trans hlt (hbefore b hb)
        · rcases mem_cons.mp hb with heq | hb
          · rw [heq]
            exact hlt
          · exact Int32.lt_of_lt_of_le hlt (hafter b hb)
      obtain ⟨xs', ys', hsplit, h1, h2⟩ := ih _ [] hfront (by simp)
      refine ⟨xs', ys', ?_, h1, h2⟩
      rw [← hsplit]
      simp
    · rw [if_neg hlt]
      have hback : ∀ b ∈ ys ++ [x], f a ≤ f b := by
        intro b hb
        rcases mem_append.mp hb with hb | hb
        · exact hafter b hb
        · rw [mem_singleton.mp hb]
          exact Int32.not_lt.mp hlt
      obtain ⟨xs', ys', hsplit, h1, h2⟩ := ih _ _ hbefore hback
      refine ⟨xs', ys', ?_, h1, h2⟩
      rw [← hsplit]
      simp

theorem ListOk.least_split (h : ListOk s msq cells)
    (hne : cells ≠ []) :
    ∃ xs ys, cells = xs ++ s.least (s.queues msq).msgFirst :: ys ∧
      (∀ b ∈ xs, s.type (s.least (s.queues msq).msgFirst) < s.type b) ∧
      ∀ b ∈ ys, s.type (s.least (s.queues msq).msgFirst) ≤ s.type b := by
  have heq : s.least (s.queues msq).msgFirst =
      cells.foldl (fun leastp tmsg => if s.type tmsg < s.type leastp then tmsg else leastp)
        (s.queues msq).msgFirst := h.linked.foldLinks_eq _ _ h.length_le
  have hlinked := h.linked
  cases hcells : cells with
  | nil => exact absurd hcells hne
  | cons x rest =>
    rw [hcells] at hlinked heq
    rw [hlinked.1, foldl_cons, ite_self] at heq
    obtain ⟨xs, ys, hsplit, hbefore, hafter⟩ :=
      foldl_least_split s.type [] [] (a := x) rest (by simp) (by simp)
    rw [hlinked.1, heq]
    exact ⟨xs, ys, hsplit, hbefore, hafter⟩

theorem toInt_neg_eq {x : Int32} (hneg : ¬0 < x) (hmin : x ≠ Int32.minValue) :
    (-x).toInt = |x.toInt| := by
  have hle : x.toInt ≤ 0 := by
    rw [Int32.lt_iff_toInt_lt] at hneg
    simpa using hneg
  have hlow := Int32.le_toInt x
  have hne : x.toInt ≠ -2147483648 := by
    intro heq
    apply hmin
    apply Int32.toInt_inj.mp
    rw [heq]
    rfl
  rw [Int32.toInt_neg, abs_of_nonpos hle]
  apply Int.bmod_eq_of_le
  · omega
  · omega

variable {rcv : Receive}

theorem ListOk.selected_of_neg
    (h : ListOk s rcv.msq cells) (hneg : ¬0 < rcv.msgtyp) (hzero : rcv.msgtyp ≠ 0)
    {bound : Int32} (hbound : bound.toInt = |rcv.msgtyp.toInt|) :
    selected s.type cells rcv.msgtyp rcv.except =
      if s.least (s.queues rcv.msq).msgFirst ≠ 0 ∧
          s.type (s.least (s.queues rcv.msq).msgFirst) ≤ bound then
        some (s.least (s.queues rcv.msq).msgFirst)
      else none := by
  unfold selected
  rw [if_neg hzero, if_neg hneg, ← hbound]
  by_cases hempty : cells = []
  · have hfirst := h.first_eq_zero.mpr hempty
    have hleast : s.least (s.queues rcv.msq).msgFirst = 0 := by
      rw [hfirst]
      unfold Msgs.least
      cases s.nextMsg with
      | zero => rfl
      | succ n => simp [foldLinks]
    rw [hempty, hleast, if_neg (by simp)]
    rfl
  · obtain ⟨xs, ys, hsplit, hbefore, hafter⟩ := h.least_split hempty
    generalize hleast : s.least (s.queues rcv.msq).msgFirst = leastp at hsplit hbefore hafter
    have hmem : leastp ∈ cells := by
      rw [hsplit]
      simp
    have hne : leastp ≠ 0 := h.linked.ne_null hmem
    have hmin : ∀ b ∈ cells, s.type leastp ≤ s.type b := by
      intro b hb
      rw [hsplit] at hb
      rcases mem_append.mp hb with hb | hb
      · exact Int32.le_of_lt (hbefore b hb)
      · rcases mem_cons.mp hb with heq | hb
        · rw [heq]
          exact Int32.le_refl _
        · exact hafter b hb
    by_cases hle : s.type leastp ≤ bound
    · rw [if_pos ⟨hne, hle⟩, List.find?_eq_some_iff_append]
      refine ⟨?_, xs, ys, hsplit, ?_⟩
      · simp only [decide_eq_true_eq]
        exact ⟨Int32.le_iff_toInt_le.mp hle, fun b hb _ => hmin b hb⟩
      · intro b hb
        simp only [Bool.not_eq_eq_eq_not, Bool.not_true, decide_eq_false_iff_not]
        intro hfound
        have hback := hfound.2 leastp hmem (Int32.le_iff_toInt_le.mp hle)
        exact Int32.not_le.mpr (hbefore b hb) hback
    · rw [if_neg (fun hboth => hle hboth.2), List.find?_eq_none]
      intro b hb
      simp only [decide_eq_true_eq]
      intro hfound
      exact hle (Int32.le_trans (hmin b hb) (Int32.le_iff_toInt_le.mpr hfound.1))

theorem getD_head (h : ListOk s msq cells) : (s.queues msq).msgFirst = cells.head?.getD 0 := by
  have hlinked := h.linked
  cases cells with
  | nil => exact hlinked
  | cons a cells => exact hlinked.1

theorem ListOk.choose_eq
    (h : ListOk s rcv.msq cells) (hmin : rcv.msgtyp = Int32.minValue → cells = []) :
    s.choose rcv = (selected s.type cells rcv.msgtyp rcv.except).getD 0 := by
  by_cases hzero : rcv.msgtyp = 0
  · unfold Msgs.choose selected
    rw [if_pos hzero, if_pos hzero]
    exact getD_head h
  · by_cases hpos : 0 < rcv.msgtyp
    · unfold Msgs.choose selected
      rw [if_neg hzero, if_pos hpos, if_neg hzero, if_pos hpos]
      split
      · exact h.find_eq _
      · exact h.find_eq _
    · by_cases hleast : rcv.msgtyp = Int32.minValue
      · have hempty := hmin hleast
        have hnot : ¬s.choose rcv ≠ 0 := by
          intro hne
          have hmem := h.choose_mem hne
          rw [hempty] at hmem
          simp at hmem
        rw [not_not.mp hnot, hempty]
        unfold selected
        rw [if_neg hzero, if_neg hpos]
        rfl
      · rw [h.selected_of_neg hpos hzero (toInt_neg_eq hpos hleast)]
        unfold Msgs.choose
        dsimp only
        rw [if_neg hzero, if_neg hpos]
        unfold Msgs.type
        split <;> rfl

theorem selected_mem {type : ℕ → Int32} {msgtyp : Int32} {except : Bool}
    (h : selected type cells msgtyp except = some a) : a ∈ cells := by
  unfold selected at h
  split at h
  · exact mem_of_mem_head? h
  · split at h
    · split at h
      · exact mem_of_find?_eq_some h
      · exact mem_of_find?_eq_some h
    · exact mem_of_find?_eq_some h

/-! ## Types are positive -/

/-- The types of the messages, and those that sleeping calls of `sys_msgsnd` are
going to use. -/
structure TypesOk (s : Msgs Task) : Prop where
  message : ∀ a, 0 < a → a < s.nextMsg → 0 < s.type a
  wwait : ∀ t snd, s.sleep t = some (.wwait snd) → 0 < snd.mtype
  kmalloc : ∀ t snd, s.sleep t = some (.kmalloc snd) → 0 < snd.mtype

theorem TypesOk.congr {s' : Msgs Task} (h : TypesOk s) (hnext : s'.nextMsg = s.nextMsg)
    (htype : s'.type = s.type) (hsleep : s'.sleep = s.sleep) : TypesOk s' := by
  constructor
  · rw [hnext, htype]
    exact h.message
  · rw [hsleep]
    exact h.wwait
  · rw [hsleep]
    exact h.kmalloc

theorem setNext_type (s : Msgs Task) (a v : ℕ) : (s.setNext a v).type = s.type := by
  funext b
  unfold Msgs.type Msgs.setNext
  by_cases hb : b = a
  · rw [hb]
    simp
  · simp [hb]

theorem take_type (s : Msgs Task) (msq nmsg : ℕ) : (s.take msq nmsg).type = s.type := by
  change (s.unlink msq nmsg).type = s.type
  unfold Msgs.unlink
  dsimp only
  split
  · rfl
  · exact setNext_type s _ _

theorem append_type (s : Msgs Task) (snd : Send) :
    (s.append snd).type = update s.type s.nextMsg snd.mtype := by
  have hnew : (fun a => ((update s.msgs s.nextMsg
      { msgNext := 0, msgType := snd.mtype, msgTs := snd.msgsz }) a).msgType) =
      update s.type s.nextMsg snd.mtype := by
    funext a
    by_cases ha : a = s.nextMsg
    · rw [ha, update_self, update_self]
    · rw [update_of_ne ha, update_of_ne ha]
      rfl
  unfold Msgs.append
  dsimp only
  split
  · exact hnew
  · change (Msgs.setNext _ _ _).type = _
    rw [setNext_type]
    exact hnew

variable {t : Task} {signal : Bool}

variable {snd : Send}

theorem TypesOk.append (h : TypesOk s) (hpos : 0 < snd.mtype) : TypesOk (s.append snd) := by
  obtain ⟨_, hsleep, _, hnext, _⟩ := append_fields s snd
  constructor
  · rw [hnext, append_type]
    intro a ha hlt
    by_cases heq : a = s.nextMsg
    · rw [heq, update_self]
      exact hpos
    · rw [update_of_ne heq]
      exact h.message a ha (by omega)
  · rw [hsleep]
    exact h.wwait
  · rw [hsleep]
    exact h.kmalloc

section Steps

variable [DecidableEq Task]

section
variable (h : TypesOk s) (t : Task)
include h

theorem TypesOk.setSleep {w : Option Sleep} (hwwait : ∀ snd, w = some (.wwait snd) → 0 < snd.mtype)
    (hkmalloc : ∀ snd, w = some (.kmalloc snd) → 0 < snd.mtype) : TypesOk (s.setSleep t w) := by
  constructor
  · exact h.message
  · intro t' snd hcall
    rw [setSleep_sleep] at hcall
    split at hcall
    · exact hwwait snd hcall
    · exact h.wwait t' snd hcall
  · intro t' snd hcall
    rw [setSleep_sleep] at hcall
    split at hcall
    · exact hkmalloc snd hcall
    · exact h.kmalloc t' snd hcall

theorem TypesOk.wakeUp : TypesOk (s.setSleep t none) :=
  h.setSleep t (by simp) (by simp)

theorem TypesOk.sndSlept (hpos : 0 < snd.mtype) (permitted signal : Bool) :
    TypesOk (s.sndSlept t snd permitted signal).1 := by
  have hsleep : ∀ w : Option Sleep, w = some (.wwait snd) ∨ w = some (.kmalloc snd) →
      TypesOk (s.setSleep t w) := by
    intro w hw
    apply h.setSleep t
    · intro snd' hw'
      rcases hw with heq | heq
      · rw [heq, Option.some.injEq, Sleep.wwait.injEq] at hw'
        rw [← hw']
        exact hpos
      · rw [heq] at hw'
        simp at hw'
    · intro snd' hw'
      rcases hw with heq | heq
      · rw [heq] at hw'
        simp at hw'
      · rw [heq, Option.some.injEq, Sleep.kmalloc.injEq] at hw'
        rw [← hw']
        exact hpos
  unfold Msgs.sndSlept
  dsimp only
  split
  · exact h.wakeUp t
  · split
    · exact h.wakeUp t
    · split
      · split
        · exact h.wakeUp t
        · split
          · exact h.wakeUp t
          · exact hsleep _ (.inl rfl)
      · exact hsleep _ (.inr rfl)

theorem TypesOk.sndAlloc (hpos : 0 < snd.mtype) (memory : Bool) :
    TypesOk (s.sndAlloc t snd memory).1 := by
  unfold Msgs.sndAlloc
  split
  · exact h.wakeUp t
  · split
    · exact h.wakeUp t
    · exact h.wakeUp t
    · split
      · exact h.wakeUp t
      · exact (h.append hpos).wakeUp t

theorem TypesOk.rcvLoop (rcv : Receive) (permitted signal : Bool) :
    TypesOk (s.rcvLoop t rcv permitted signal).1 := by
  have htake : TypesOk (s.take rcv.msq (s.choose rcv)) := by
    obtain ⟨_, hsleep, _, hnext, _⟩ := take_fields s rcv.msq (s.choose rcv)
    exact h.congr hnext (take_type s rcv.msq (s.choose rcv)) hsleep
  unfold Msgs.rcvLoop
  split
  · exact h.wakeUp t
  · split
    · exact h.wakeUp t
    · dsimp only
      split
      · split
        · exact h.wakeUp t
        · exact htake.wakeUp t
      · split
        · exact h.wakeUp t
        · split
          · exact h.wakeUp t
          · exact h.setSleep t (by simp) (by simp)

theorem TypesOk.newqueAlloc (id : ℕ) (memory : Bool) : TypesOk (s.newqueAlloc t id memory).1 := by
  unfold Msgs.newqueAlloc
  split
  · apply TypesOk.wakeUp
    exact h.congr rfl rfl rfl
  · apply TypesOk.wakeUp
    exact h.congr rfl rfl rfl

end

variable [Fintype Task]

theorem TypesOk.reap (h : TypesOk s) (t : Task) (msq : ℕ) : TypesOk (s.reap t msq).1 := by
  unfold Msgs.reap
  split
  · exact h.setSleep t (by simp) (by simp)
  · apply TypesOk.wakeUp
    exact h.congr rfl rfl rfl

theorem TypesOk.step (h : TypesOk s) (e : Event Task) : TypesOk (s.step e).1 := by
  cases e with
  | msgsnd t msqid msgsz mtype nowait permitted signal =>
    unfold Msgs.step
    dsimp only
    split
    · exact h
    · unfold Msgs.msgsnd
      split
      · exact h
      · split
        · exact h
        · rename_i hmtype
          have hpos : 0 < mtype := by
            rw [Int32.lt_iff_toInt_lt] at hmtype ⊢
            simp only [Int32.reduceToInt] at hmtype ⊢
            omega
          split
          · exact h
          · exact h
          · exact h.sndSlept t hpos permitted signal
  | msgrcv t msqid msgsz msgtyp nowait noerror except permitted signal =>
    unfold Msgs.step
    dsimp only
    split
    · exact h
    · unfold Msgs.msgrcv
      split
      · exact h
      · split
        · exact h
        · exact h
        · exact h.rcvLoop t _ permitted signal
  | newque t =>
    unfold Msgs.step
    dsimp only
    split
    · exact h
    · unfold Msgs.newque
      split
      · exact h
      · apply TypesOk.setSleep
        · exact h.congr rfl rfl rfl
        · simp
        · simp
  | rmid t msqid permitted =>
    unfold Msgs.step
    dsimp only
    split
    · exact h
    · unfold Msgs.rmid
      split
      · exact h
      · exact h
      · split
        · exact h
        · split
          · exact h
          · apply TypesOk.reap
            exact h.congr rfl rfl rfl
  | ipcSet msqid qbytes permitted suser =>
    change TypesOk (s.ipcSet msqid qbytes permitted suser).1
    unfold Msgs.ipcSet
    split
    · exact h
    · exact h
    · split
      · exact h
      · split
        · exact h
        · split
          · exact h
          · exact h.congr rfl rfl rfl
  | wake t memory permitted signal =>
    change TypesOk (s.wake t memory permitted signal).1
    unfold Msgs.wake
    split
    · exact h
    · rename_i snd hcall
      exact h.sndSlept t (h.wwait t snd hcall) permitted signal
    · rename_i snd hcall
      exact h.sndAlloc t (h.kmalloc t snd hcall) memory
    · rename_i rcv hcall
      exact h.rcvLoop t rcv permitted signal
    · rename_i id hcall
      exact h.newqueAlloc t id memory
    · rename_i msq hcall
      exact h.reap t msq

theorem Chains.step {cells : ℕ → List ℕ} (h : Chains s cells) (e : Event Task) :
    ∃ cells', Chains (s.step e).1 cells' := by
  have hmoves := h.step_moves e
  generalize (s.step e).1 = s' at hmoves
  cases hmoves with
  | stay => exact ⟨cells, h⟩
  | sleeps t w hidle hknows => exact ⟨cells, h.setSleep hknows⟩
  | appends t snd happend hcall hslot => exact ⟨_, (h.append hslot).stopSleep t⟩
  | takes t rcv hidle hslot hne =>
    have hmem := (h.list_of_slot hslot).choose_mem hne
    exact ⟨_, (h.take hslot hmem).stopSleep t⟩
  | reserves t id hidle hunused hid => exact ⟨cells, h.reserve hunused hid⟩
  | creates t id memory hcall => exact ⟨_, h.newqueAlloc hcall memory⟩
  | detaches t id msq hidle hslot => exact ⟨cells, h.detach hslot (.inr rfl)⟩
  | removes t id msq hidle hslot =>
    exact ⟨cells, (h.detach (t := t) hslot (.inl rfl)).release msq⟩
  | releases t msq hcall => exact ⟨cells, (h.release msq).stopSleep t⟩
  | sets id msq qbytes _ hslot _ => exact ⟨cells, h.setQbytes hslot qbytes⟩

theorem run_lists {cells : ℕ → List ℕ} (hchains : Chains s cells)
    (htypes : TypesOk s) (es : List (Event Task)) :
    (∃ cells', Chains (s.run es) cells') ∧ TypesOk (s.run es) := by
  induction es generalizing s cells with
  | nil => exact ⟨⟨cells, hchains⟩, htypes⟩
  | cons e es ih =>
    obtain ⟨cells', hchains'⟩ := hchains.step e
    exact ih hchains' (htypes.step e)

omit [DecidableEq Task] [Fintype Task] in
theorem init_types : TypesOk (Msgs.init : Msgs Task) := by
  constructor
  · intro a hpos hlt
    simp only [Msgs.init] at hlt
    omega
  · simp [Msgs.init]
  · simp [Msgs.init]

/-! ## A call -/

/-- The call of `sys_msgrcv` that goes through its loop in a step, with whether it is
permitted and whether a signal is pending. -/
def receives (s : Msgs Task) : Event Task → Option (Task × Receive × Bool × Bool)
  | .msgrcv t msqid msgsz msgtyp nowait noerror except permitted signal =>
    if (s.sleep t).isSome ∨ msgsz < 0 then none
    else
      match s.msgque (msqid % msgmni) with
      | .queue msq =>
        some (t, ⟨msq, msqid, msgsz.toNat, msgtyp, nowait, noerror, except⟩, permitted, signal)
      | _ => none
  | .wake t _ permitted signal =>
    match s.sleep t with
    | some (.rwait rcv) => some (t, rcv, permitted, signal)
    | _ => none
  | _ => none

theorem receives_step {cells : ℕ → List ℕ} (h : Chains s cells)
    {e : Event Task} {permitted : Bool}
    (hreceives : receives s e = some (t, rcv, permitted, signal))
    (hseq : (s.queues rcv.msq).seq = rcv.msqid / msgmni) :
    s.step e = s.rcvLoop t rcv permitted signal ∧
      s.msgque (rcv.msqid % msgmni) = .queue rcv.msq := by
  unfold receives at hreceives
  split at hreceives
  · rename_i t' msqid msgsz msgtyp nowait noerror except permitted' signal'
    split at hreceives
    · simp at hreceives
    · rename_i hnot
      push Not at hnot
      split at hreceives
      · rename_i msq hslot
        rw [Option.some.injEq, Prod.mk.injEq, Prod.mk.injEq, Prod.mk.injEq] at hreceives
        obtain ⟨ht, hrcv, hpermitted, hsignal⟩ := hreceives
        rw [← ht, ← hrcv, ← hpermitted, ← hsignal]
        refine ⟨?_, hslot⟩
        unfold Msgs.step Msgs.msgrcv
        dsimp only
        rw [if_neg hnot.1, if_neg (not_lt.mpr hnot.2), hslot]
      · simp at hreceives
  · rename_i t' memory permitted' signal'
    split at hreceives
    · rename_i rcv' hcall
      rw [Option.some.injEq, Prod.mk.injEq, Prod.mk.injEq, Prod.mk.injEq] at hreceives
      obtain ⟨ht, hrcv, hpermitted, hsignal⟩ := hreceives
      rw [← ht, ← hpermitted, ← hsignal]
      rw [hrcv] at hcall
      refine ⟨?_, (h.knows t' _ rcv.msq rcv.msqid hcall rfl).slot hseq⟩
      unfold Msgs.step Msgs.wake
      dsimp only
      rw [hcall]
    · simp at hreceives
  · simp at hreceives

section
variable (signal : Bool) (hseq : (s.queues rcv.msq).seq = rcv.msqid / msgmni)
include hseq

omit [Fintype Task] in
theorem rcvLoop_none (hchoose : s.choose rcv = 0) :
    (s.rcvLoop t rcv true signal).2 = (if rcv.nowait then .returned (-enomsg)
        else if signal then .returned (-eintr) else .asleep) ∧
      (s.rcvLoop t rcv true signal).1.queues = s.queues ∧
      (s.rcvLoop t rcv true signal).1.msgs = s.msgs := by
  unfold Msgs.rcvLoop
  dsimp only
  rw [if_neg (not_not.mpr hseq), if_neg (by simp), hchoose, if_neg (by simp)]
  cases rcv.nowait with
  | true => exact ⟨rfl, rfl, rfl⟩
  | false =>
    cases signal with
    | true => exact ⟨rfl, rfl, rfl⟩
    | false => exact ⟨rfl, rfl, rfl⟩

omit [Fintype Task] in
theorem rcvLoop_tooLong (hchoose : s.choose rcv ≠ 0)
    (hlong : ¬rcv.accepts (s.msgs (s.choose rcv)).msgTs) :
    s.rcvLoop t rcv true signal = (s.setSleep t none, .returned (-e2big)) := by
  unfold Receive.accepts at hlong
  push Not at hlong
  unfold Msgs.rcvLoop
  dsimp only
  rw [if_neg (not_not.mpr hseq), if_neg (by simp), if_pos hchoose, if_pos ⟨hlong.2, hlong.1⟩]

omit [Fintype Task] in
theorem rcvLoop_taken (hchoose : s.choose rcv ≠ 0)
    (hfits : rcv.accepts (s.msgs (s.choose rcv)).msgTs) :
    s.rcvLoop t rcv true signal = ((s.take rcv.msq (s.choose rcv)).setSleep t none,
      .returned (min rcv.msgsz (s.msgs (s.choose rcv)).msgTs : ℕ)) := by
  have hnot : ¬(rcv.msgsz < (s.msgs (s.choose rcv)).msgTs ∧ ¬rcv.noerror = true) := by
    rintro ⟨hlt, hnoerror⟩
    rcases hfits with hyes | hle
    · exact hnoerror hyes
    · omega
  unfold Msgs.rcvLoop
  dsimp only
  rw [if_neg (not_not.mpr hseq), if_neg (by simp), if_pos hchoose, if_neg hnot]

end

omit [DecidableEq Task] [Fintype Task] in
theorem Chains.takeCells_eq (hmem : a ∈ cells)
    (hcount : cells.length % 65536 = 1 → cells.length = 1) :
    takeCells cells a = cells.erase a := by
  unfold takeCells
  split
  · have hlength := length_erase_of_mem hmem
    have hpos := length_pos_of_mem hmem
    symm
    apply eq_nil_of_length_eq_zero
    omega
  · rfl

omit [Fintype Task] in
theorem Chains.take_list {cells : ℕ → List ℕ} (h : Chains s cells) {nmsg id : ℕ}
    (hslot : s.msgque id = .queue msq) (hmem : nmsg ∈ cells msq) (t : Task) :
    ((s.take msq nmsg).setSleep t none).list msq = takeCells (cells msq) nmsg ∧
      ∀ msq', msq' ≠ msq → s.Held msq' →
        ((s.take msq nmsg).setSleep t none).list msq' = s.list msq' := by
  have htaken := h.take hslot hmem
  obtain ⟨hque, hsleep, _⟩ := take_fields s msq nmsg
  constructor
  · have hlist := htaken.list msq (.inl ⟨id, by rw [hque]; exact hslot⟩)
    rw [update_self] at hlist
    exact hlist.list_eq
  · intro msq' hne hheld
    have hheld' : (s.take msq nmsg).Held msq' := by
      unfold Msgs.Held
      rw [hque, hsleep]
      exact hheld
    have hlist := htaken.list msq' hheld'
    rw [update_of_ne hne] at hlist
    exact hlist.list_eq.trans (h.list msq' hheld).list_eq.symm

omit [Fintype Task] in
theorem Chains.receiveSpec {cells : ℕ → List ℕ} (h : Chains s cells) (signal : Bool)
    (hseq : (s.queues rcv.msq).seq = rcv.msqid / msgmni)
    (hslot : s.msgque (rcv.msqid % msgmni) = .queue rcv.msq) (hok : ReceiveOk s rcv) :
    ReceiveSpec s rcv signal (s.rcvLoop t rcv true signal) := by
  have hlist := h.list_of_slot hslot
  have hcells := hlist.list_eq
  have hchoose : s.choose rcv = (s.selected rcv).getD 0 := by
    unfold Msgs.selected
    rw [hcells]
    apply hlist.choose_eq
    rw [← hcells]
    exact hok.negated
  cases hselected : s.selected rcv with
  | none =>
    rw [hselected] at hchoose
    obtain ⟨hresult, hqueues, hmsgs⟩ := rcvLoop_none (t := t) signal hseq hchoose
    constructor
    · simp [hselected]
    · simp [hselected]
    · exact fun _ => ⟨hresult, hqueues, hmsgs⟩
    · exact fun _ => hselected
  | some a =>
    rw [hselected, Option.getD_some] at hchoose
    have hmem : a ∈ cells rcv.msq := by
      unfold Msgs.selected at hselected
      rw [hcells] at hselected
      exact selected_mem hselected
    have hne : s.choose rcv ≠ 0 := by
      rw [hchoose]
      exact hlist.linked.ne_null hmem
    by_cases hfits : rcv.accepts (s.msgs a).msgTs
    · have hresult := rcvLoop_taken (t := t) signal hseq hne (by rw [hchoose]; exact hfits)
      rw [hchoose] at hresult
      have hcount : (cells rcv.msq).length % 65536 = 1 → (cells rcv.msq).length = 1 := by
        rw [← hcells]
        exact hok.counted ⟨a, hselected, hfits⟩
      obtain ⟨hself, hothers⟩ := h.take_list hslot hmem t
      rw [Chains.takeCells_eq hmem hcount, ← hcells] at hself
      rw [hresult]
      constructor
      · intro b hb _
        rw [hselected, Option.some.injEq] at hb
        rw [← hb]
        exact ⟨rfl, hself, take_type s rcv.msq a, hothers⟩
      · intro b hb hlong
        rw [hselected, Option.some.injEq] at hb
        rw [← hb] at hlong
        exact absurd hfits hlong
      · simp [hselected]
      · rintro (hasleep | henomsg | heintr)
        · simp at hasleep
        · rw [Outcome.returned.injEq] at henomsg
          unfold enomsg at henomsg
          omega
        · rw [Outcome.returned.injEq] at heintr
          unfold eintr at heintr
          omega
    · have hresult := rcvLoop_tooLong (t := t) signal hseq hne (by rw [hchoose]; exact hfits)
      rw [hresult]
      constructor
      · intro b hb hshort
        rw [hselected, Option.some.injEq] at hb
        rw [← hb] at hshort
        exact absurd hshort hfits
      · exact fun _ _ _ => ⟨rfl, rfl, rfl⟩
      · simp [hselected]
      · simp [e2big, enomsg, eintr]

section
variable {cells : ℕ → List ℕ} (h : Chains s cells) (htypes : TypesOk s)
  (hseq : (s.queues rcv.msq).seq = rcv.msqid / msgmni)
  (hslot : s.msgque (rcv.msqid % msgmni) = .queue rcv.msq)
include h htypes hseq hslot

omit [Fintype Task] in
theorem Chains.negated_of_spec (hspec : ReceiveSpec s rcv signal (s.rcvLoop t rcv true signal))
    (hmin : rcv.msgtyp = Int32.minValue) : s.list rcv.msq = [] := by
  by_contra hne
  have hlist := h.list_of_slot hslot
  have hcells := hlist.list_eq
  rw [hcells] at hne
  obtain ⟨xs, ys, hsplit, _⟩ := hlist.least_split hne
  have hmem : s.least (s.queues rcv.msq).msgFirst ∈ cells rcv.msq := by
    rw [hsplit]
    simp
  have hleast : s.least (s.queues rcv.msq).msgFirst ≠ 0 := hlist.linked.ne_null hmem
  have hpos : 0 < s.type (s.least (s.queues rcv.msq).msgFirst) :=
    htypes.message _ (Nat.pos_of_ne_zero hleast) (hlist.fresh _ hmem)
  have hneg : ¬0 < rcv.msgtyp := by
    rw [hmin]
    decide
  have hzero : rcv.msgtyp ≠ 0 := by
    rw [hmin]
    decide
  have hchoose : s.choose rcv = 0 := by
    unfold Msgs.choose
    dsimp only
    rw [if_neg hzero, if_neg hneg, if_neg]
    rintro ⟨_, hle⟩
    rw [hmin] at hle
    exact Int32.not_le.mpr (Int32.lt_trans (by decide) hpos) hle
  obtain ⟨hresult, _⟩ := rcvLoop_none (t := t) signal hseq hchoose
  have hnone := hspec.noMessage (by
    rw [hresult]
    cases rcv.nowait with
    | true => exact .inr (.inl rfl)
    | false =>
      cases signal with
      | true => exact .inr (.inr rfl)
      | false => exact .inl rfl)
  -- every type is at most the absolute value, which is no `long`
  have hall : ∀ b ∈ cells rcv.msq, (s.type b).toInt ≤ |rcv.msgtyp.toInt| := by
    intro b _
    have hlt := Int32.toInt_lt (s.type b)
    rw [hmin]
    simp only [Int32.toInt_minValue]
    norm_num
    omega
  unfold Msgs.selected Message.selected at hnone
  rw [if_neg hzero, if_neg hneg, hcells, List.find?_eq_none] at hnone
  have hnot := hnone _ hmem
  simp only [decide_eq_true_eq] at hnot
  apply hnot
  refine ⟨hall _ hmem, ?_⟩
  intro b hb _
  obtain ⟨xs', ys', hsplit', hbefore, hafter⟩ := hlist.least_split hne
  rw [hsplit'] at hb
  rcases mem_append.mp hb with hb | hb
  · exact Int32.le_of_lt (hbefore b hb)
  · rcases mem_cons.mp hb with heq | hb
    · rw [heq]
      exact Int32.le_refl _
    · exact hafter b hb

omit [Fintype Task] in
theorem Chains.receiveOk (hspec : ReceiveSpec s rcv signal (s.rcvLoop t rcv true signal)) :
    ReceiveOk s rcv := by
  have hlist := h.list_of_slot hslot
  have hcells := hlist.list_eq
  have hnegated := h.negated_of_spec htypes hseq hslot hspec
  refine ⟨hnegated, ?_⟩
  rintro ⟨a, hselected, hfits⟩ hcount
  obtain ⟨_, hafter, _⟩ := hspec.taken a hselected hfits
  have hmem : a ∈ cells rcv.msq := by
    unfold Msgs.selected at hselected
    rw [hcells] at hselected
    exact selected_mem hselected
  have hchoose : s.choose rcv = a := by
    unfold Msgs.selected at hselected
    rw [hcells] at hselected hnegated
    rw [hlist.choose_eq hnegated, hselected, Option.getD_some]
  have hne : s.choose rcv ≠ 0 := by
    rw [hchoose]
    exact hlist.linked.ne_null hmem
  rw [rcvLoop_taken (t := t) signal hseq hne (by rw [hchoose]; exact hfits), hchoose] at hafter
  dsimp only at hafter
  rw [(h.take_list hslot hmem t).1, hcells] at hafter
  rw [hcells] at hcount ⊢
  have hempty : takeCells (cells rcv.msq) a = [] := if_pos (by omega)
  have hlength := length_erase_of_mem hmem
  rw [← hafter, hempty, length_nil] at hlength
  have hpos := length_pos_of_mem hmem
  omega

end

/-- In every state that can be reached, a permitted call of `sys_msgrcv` on an existing
queue does what it is to do if and only if its type has an absolute value and
`msg_qnum` does not come to zero too early. -/
theorem run_receive_iff (es : List (Event Task)) (e : Event Task) (t : Task) (rcv : Receive)
    (signal : Bool)
    (hreceives : receives ((Msgs.init : Msgs Task).run es) e = some (t, rcv, true, signal))
    (hseq : (((Msgs.init : Msgs Task).run es).queues rcv.msq).seq = rcv.msqid / msgmni) :
    ReceiveSpec ((Msgs.init : Msgs Task).run es) rcv signal
        (((Msgs.init : Msgs Task).run es).step e) ↔
      ReceiveOk ((Msgs.init : Msgs Task).run es) rcv := by
  obtain ⟨⟨cells, hchains⟩, htypes⟩ := run_lists init_chains init_types es
  obtain ⟨hstep, hslot⟩ := receives_step hchains hreceives hseq
  rw [hstep]
  constructor
  · exact hchains.receiveOk htypes hseq hslot
  · exact hchains.receiveSpec signal hseq hslot

end Steps

theorem run_receive_iff_oneMessage :
    ReceiveSpec ((Msgs.init : Msgs (Fin 3)).run oneMessage) ⟨1, 0, 1, -5, false, false, false⟩ false
        (((Msgs.init : Msgs (Fin 3)).run oneMessage).step
          (.msgrcv 1 0 1 (-5) false false false true false)) ↔
      ReceiveOk ((Msgs.init : Msgs (Fin 3)).run oneMessage) ⟨1, 0, 1, -5, false, false, false⟩ :=
  run_receive_iff oneMessage (.msgrcv 1 0 1 (-5) false false false true false) 1 _ false rfl
    (by decide +kernel)

/-- The least `long` lets the same message lie. -/
theorem minValue_finds_nothing :
    ¬ReceiveSpec ((Msgs.init : Msgs (Fin 3)).run oneMessage)
      ⟨1, 0, 1, Int32.minValue, true, false, false⟩ false
      (((Msgs.init : Msgs (Fin 3)).run oneMessage).step
        (.msgrcv 1 0 1 Int32.minValue true false false true false)) := by
  intro h
  have hnone := h.noMessage (.inr (.inl (by decide +kernel)))
  revert hnone
  decide +kernel

end LinuxKernel.Message
