import LinuxKernel.DoublyLinked

/-!
# Lists of socket buffers

A list is a variable that points to its first buffer, and a ring of buffers, each of which points
to the variable.  `skb_insert` and `skb_append` do not touch the variable.
-/

namespace LinuxKernel.SkbList
open Function List

open DoublyLinked

abbrev Ptr := ℕ

def null : Ptr := 0

abbrev ListVar := ℕ

structure State where
  head : ListVar → Ptr
  next : Ptr → Ptr
  prev : Ptr → Ptr
  list : Ptr → Option ListVar

namespace State

variable {s s' : State} {skb newsk old : Ptr} {list : ListVar}

def setHead (s : State) (list : ListVar) (skb : Ptr) : State :=
  { s with head := update s.head list skb }

def setNext (s : State) (skb p : Ptr) : State := { s with next := update s.next skb p }

def setPrev (s : State) (skb p : Ptr) : State := { s with prev := update s.prev skb p }

def setList (s : State) (skb : Ptr) (list : Option ListVar) : State :=
  { s with list := update s.list skb list }

def queueHead (s : State) (list : ListVar) (newsk : Ptr) : State :=
  let s := s.setList newsk (some list)
  let s := s.setNext newsk (s.head list)
  let s :=
    if s.head list ≠ null then s.setPrev newsk (s.prev (s.head list)) else s.setPrev newsk newsk
  let s := s.setNext (s.prev newsk) newsk
  let s := s.setPrev (s.next newsk) newsk
  s.setHead list newsk

def queueTail (s : State) (list : ListVar) (newsk : Ptr) : State :=
  let s := s.setList newsk (some list)
  if s.head list ≠ null then
    let s := s.setNext (s.prev (s.head list)) newsk
    let s := s.setPrev newsk (s.prev (s.head list))
    let s := s.setNext newsk (s.head list)
    s.setPrev (s.head list) newsk
  else
    let s := s.setNext newsk newsk
    let s := s.setPrev newsk newsk
    s.setHead list newsk

def clear (s : State) (skb : Ptr) : State :=
  let s := s.setList skb none
  let s := s.setNext skb null
  s.setPrev skb null

def dequeue (s : State) (list : ListVar) : State × Ptr :=
  if s.head list = null then (s, null)
  else
    let result := s.head list
    let s :=
      if s.next result = result then s.setHead list null
      else
        let s := s.setPrev (s.next result) (s.prev result)
        let s := s.setNext (s.prev result) (s.next result)
        s.setHead list (s.next result)
    (s.clear result, result)

def insert (s : State) (old newsk : Ptr) : State :=
  let s := s.setList newsk (s.list old)
  let s := s.setNext newsk old
  let s := s.setPrev newsk (s.prev old)
  let s := s.setPrev (s.next newsk) newsk
  s.setNext (s.prev newsk) newsk

def append (s : State) (old newsk : Ptr) : State :=
  let s := s.setList newsk (s.list old)
  let s := s.setPrev newsk old
  let s := s.setNext newsk (s.next old)
  let s := s.setPrev (s.next newsk) newsk
  s.setNext (s.prev newsk) newsk

def unlink (s : State) (skb : Ptr) : State :=
  match s.list skb with
  | none => s
  | some list =>
    let s := s.setPrev (s.next skb) (s.prev skb)
    let s := s.setNext (s.prev skb) (s.next skb)
    let s :=
      if s.head list = skb then
        if s.next skb = skb then s.setHead list null else s.setHead list (s.next skb)
      else s
    s.clear skb

end State

inductive Op where
  | queueHead (list : ListVar) (newsk : Ptr)
  | queueTail (list : ListVar) (newsk : Ptr)
  | dequeue (list : ListVar)
  | insert (old newsk : Ptr)
  | append (old newsk : Ptr)
  | unlink (skb : Ptr)

def State.step (s : State) : Op → State
  | .queueHead list newsk => s.queueHead list newsk
  | .queueTail list newsk => s.queueTail list newsk
  | .dequeue list => (s.dequeue list).1
  | .insert old newsk => s.insert old newsk
  | .append old newsk => s.append old newsk
  | .unlink skb => s.unlink skb

def State.run (s : State) : List Op → State
  | [] => s
  | op :: ops => (s.step op).run ops

/-! ### What the functions do to the fields -/

namespace State

variable {s : State} {list : ListVar} {a newsk old skb : Ptr}

def linkBefore (s : State) (list : Option ListVar) (newsk a : Ptr) : State where
  head := s.head
  next := update (update s.next newsk a) (s.prev a) newsk
  prev := update (update s.prev newsk (s.prev a)) a newsk
  list := update s.list newsk list

def linkAlone (s : State) (list : ListVar) (newsk : Ptr) : State where
  head := update s.head list newsk
  next := update s.next newsk newsk
  prev := update s.prev newsk newsk
  list := update s.list newsk (some list)

theorem queueHead_nil (hhead : s.head list = null) :
    s.queueHead list newsk = s.linkAlone list newsk := by
  simp [queueHead, linkAlone, setList, setNext, setPrev, setHead, hhead]

theorem queueHead_cons (hhead : s.head list = a) (hnull : a ≠ null) (hne : newsk ≠ s.prev a) :
    s.queueHead list newsk = (s.linkBefore (some list) newsk a).setHead list newsk := by
  simp [queueHead, linkBefore, setList, setNext, setPrev, setHead, hhead, hnull, hne]

theorem queueTail_nil (hhead : s.head list = null) :
    s.queueTail list newsk = s.linkAlone list newsk := by
  simp [queueTail, linkAlone, setList, setNext, setPrev, setHead, hhead]

theorem queueTail_cons (hhead : s.head list = a) (hnull : a ≠ null) (hne : newsk ≠ s.prev a) :
    s.queueTail list newsk = s.linkBefore (some list) newsk a := by
  simp [queueTail, linkBefore, setList, setNext, setPrev, hhead, hnull, update_comm hne]

theorem insert_eq (hne : newsk ≠ old) :
    s.insert old newsk = s.linkBefore (s.list old) newsk old := by
  simp [insert, linkBefore, setList, setNext, setPrev, hne]

theorem append_eq (hprev : s.prev (s.next old) = old) (hne : newsk ≠ s.next old) :
    s.append old newsk = s.linkBefore (s.list old) newsk (s.next old) := by
  simp [append, linkBefore, setList, setNext, setPrev, hne, hprev]

def takeOut (s : State) (skb : Ptr) : State where
  head := s.head
  next := update (update s.next (s.prev skb) (s.next skb)) skb null
  prev := update (update s.prev (s.next skb) (s.prev skb)) skb null
  list := update s.list skb none

def nextHead (s : State) (skb : Ptr) : Ptr := if s.next skb = skb then null else s.next skb

theorem update_next_self (s : State) (skb : Ptr) :
    update s.next (s.prev skb) (s.next skb) skb = s.next skb := by
  rw [update_apply]
  split_ifs <;> rfl

theorem update_prev_self (s : State) (skb : Ptr) :
    update s.prev (s.next skb) (s.prev skb) skb = s.prev skb := by
  rw [update_apply]
  split_ifs <;> rfl

theorem dequeue_nil (hhead : s.head list = null) : s.dequeue list = (s, null) := by
  rw [dequeue, if_pos hhead]

theorem dequeue_cons (hhead : s.head list = a) (hnull : a ≠ null)
    (hprev : s.next a = a → s.prev a = a) :
    s.dequeue list = ((s.takeOut a).setHead list (s.nextHead a), a) := by
  rw [dequeue, hhead, if_neg hnull]
  by_cases hsingle : s.next a = a
  · have hself := hprev hsingle
    simp [takeOut, clear, setList, setNext, setPrev, setHead, nextHead, hsingle, hself]
  · simp [takeOut, clear, setList, setNext, setPrev, setHead, nextHead, hsingle,
      update_next_self, update_prev_self]

theorem unlink_none (hlist : s.list skb = none) : s.unlink skb = s := by
  rw [unlink, hlist]

theorem unlink_some (hlist : s.list skb = some list) :
    s.unlink skb =
      if s.head list = skb then (s.takeOut skb).setHead list (s.nextHead skb)
      else s.takeOut skb := by
  have hprev := s.update_prev_self skb
  have hnext := s.update_next_self skb
  rw [unlink, hlist]
  by_cases hhead : s.head list = skb
  · by_cases hsingle : s.next skb = skb
    · rw [hsingle] at hnext
      simp [takeOut, clear, setList, setNext, setPrev, setHead, nextHead, hhead, hnext, hsingle]
    · simp [takeOut, clear, setList, setNext, setPrev, setHead, nextHead, hhead, hprev, hnext,
        hsingle]
  · simp [takeOut, clear, setList, setNext, setPrev, hhead, hprev]

end State

/-! ### What the operations mean -/

def insertBefore (old newsk : Ptr) : List Ptr → List Ptr
  | [] => []
  | x :: l => if x = old then newsk :: x :: l else x :: insertBefore old newsk l

def insertAfter (old newsk : Ptr) : List Ptr → List Ptr
  | [] => []
  | x :: l => if x = old then x :: newsk :: l else x :: insertAfter old newsk l

def Op.meaning (lists : ListVar → List Ptr) : Op → ListVar → List Ptr
  | .queueHead list newsk => update lists list (newsk :: lists list)
  | .queueTail list newsk => update lists list (lists list ++ [newsk])
  | .dequeue list => update lists list (lists list).tail
  | .insert old newsk => fun list => insertBefore old newsk (lists list)
  | .append old newsk => fun list => insertAfter old newsk (lists list)
  | .unlink skb => fun list => (lists list).erase skb

def meanings (lists : ListVar → List Ptr) : List Op → ListVar → List Ptr
  | [] => lists
  | op :: ops => meanings (op.meaning lists) ops

structure Rep (s : State) (lists : ListVar → List Ptr) : Prop where
  head : ∀ list, s.head list = (lists list).headD null
  ring : ∀ list, Ringed s.next s.prev (lists list)
  list : ∀ skb list, s.list skb = some list ↔ skb ∈ lists list
  not_null : ∀ list, null ∉ lists list

/-- What the functions complain about otherwise: a buffer that comes in is on no list, and one
that it is put beside is on a list. -/
def State.Legal (s : State) : Op → Prop
  | .queueHead _ newsk => newsk ≠ null ∧ s.list newsk = none
  | .queueTail _ newsk => newsk ≠ null ∧ s.list newsk = none
  | .dequeue _ => True
  | .insert old newsk => newsk ≠ null ∧ s.list newsk = none ∧ s.list old ≠ none
  | .append old newsk => newsk ≠ null ∧ s.list newsk = none ∧ s.list old ≠ none
  | .unlink _ => True

section Rep

variable {s s' : State} {lists : ListVar → List Ptr} {list list' : ListVar} {l l' l1 l2 : List Ptr}
  {a x skb newsk old : Ptr}

section
variable (h : Rep s lists)
include h

theorem Rep.unique (hx : x ∈ lists list) (hx' : x ∈ lists list') : list' = list := by
  have hlist := (h.list x list).mpr hx
  rw [(h.list x list').mpr hx'] at hlist
  exact Option.some.inj hlist

theorem Rep.free (hnone : s.list x = none) (list : ListVar) : x ∉ lists list := by
  intro hx
  have hlist := (h.list x list).mpr hx
  rw [hnone] at hlist
  exact absurd hlist (by simp)

theorem Rep.added (hnull : newsk ≠ null) (hfree : s.list newsk = none)
    (hvar : s'.list = update s.list newsk (some list))
    (hhead : s'.head = update s.head list (l'.headD null))
    (hmem : ∀ y, y ∈ l' ↔ y = newsk ∨ y ∈ lists list)
    (hring : ∀ var, Ringed s'.next s'.prev (update lists list l' var)) : Rep s'
    (update lists list l') := by
  refine ⟨fun var => ?_, hring, fun y var => ?_, fun var => ?_⟩
  · rw [hhead]
    by_cases hvarEq : var = list
    · rw [hvarEq, update_self, update_self]
    · rw [update_of_ne hvarEq, update_of_ne hvarEq]
      exact h.head var
  · rw [hvar]
    by_cases hy : y = newsk
    · rw [hy, update_self]
      by_cases hvarEq : var = list
      · rw [hvarEq, update_self, hmem]
        simp
      · rw [update_of_ne hvarEq]
        refine iff_of_false (fun heq => hvarEq (Option.some.inj heq).symm) (h.free hfree var)
    · rw [update_of_ne hy]
      by_cases hvarEq : var = list
      · rw [hvarEq, update_self, hmem, h.list]
        simp [hy]
      · rw [update_of_ne hvarEq]
        exact h.list y var
  · by_cases hvarEq : var = list
    · rw [hvarEq, update_self, hmem]
      rintro (heq | hold)
      · exact hnull heq.symm
      · exact h.not_null list hold
    · rw [update_of_ne hvarEq]
      exact h.not_null var

theorem Rep.link (l1 m1 m2 : List Ptr) (hlist : lists list = l1 ++ a :: l2) (hnull : newsk ≠ null)
    (hfree : s.list newsk = none)
    (hnext : s'.next = update (update s.next newsk a) (s.prev a) newsk)
    (hprev : s'.prev = update (update s.prev newsk (s.prev a)) a newsk)
    (hvar : s'.list = update s.list newsk (some list))
    (hhead : s'.head = update s.head list (l'.headD null))
    (hsplit : l1 ++ newsk :: a :: l2 = m1 ++ m2) (hl' : l' = m2 ++ m1) :
    Rep s' (update lists list l') := by
  have hring := h.ring list
  rw [hlist] at hring
  have hnew := h.free hfree list
  rw [hlist] at hnew
  obtain ⟨hbefore, -⟩ := hring.neighbours (mem_append_right l1 mem_cons_self)
  have hne : ∀ {y}, y ∈ l1 ++ a :: l2 → y ≠ newsk := fun hy heq => hnew (heq ▸ hy)
  have hmem : ∀ y, y ∈ l' ↔ y = newsk ∨ y ∈ lists list := by
    intro y
    have hperm : l'.Perm (newsk :: (l1 ++ a :: l2)) := by
      rw [hl']
      refine perm_append_comm.trans ?_
      rw [← hsplit]
      exact perm_middle
    rw [hperm.mem_iff, hlist, mem_cons]
  refine h.added hnull hfree hvar hhead hmem fun var => ?_
  by_cases hvarEq : var = list
  · rw [hvarEq, update_self, hl']
    apply Ringed.rotate
    rw [← hsplit]
    have hpa : s.prev a ≠ newsk := hne hbefore
    apply hring.insert hnew
    · rw [hnext, update_of_ne hpa.symm, update_self]
    · have hna : newsk ≠ a := (hne (mem_append_right l1 mem_cons_self)).symm
      rw [hprev, update_of_ne hna, update_self]
    · intro y hy
      rw [hnext, update_apply, update_of_ne (hne hy)]
    · intro y hy
      rw [hprev, update_apply, update_of_ne (hne hy)]
  · rw [update_of_ne hvarEq]
    have hother : ∀ {y z}, y ∈ lists var → z ∈ l1 ++ a :: l2 → y ≠ z := by
      rintro y z hy hz rfl
      exact hvarEq (h.unique (hlist ▸ hz) hy)
    have hotherNew : ∀ {y}, y ∈ lists var → y ≠ newsk := fun hy heq => h.free hfree var (heq ▸ hy)
    apply (h.ring var).congr
    · intro y hy
      rw [hnext, update_of_ne (hother hy hbefore), update_of_ne (hotherNew hy)]
    · intro y hy
      rw [hprev, update_of_ne (hother hy (mem_append_right l1 mem_cons_self)),
        update_of_ne (hotherNew hy)]

theorem Rep.take (hlist : lists list = l1 ++ skb :: l2)
    (hnext : ∀ x, x ≠ skb → s'.next x = if x = s.prev skb then s.next skb else s.next x)
    (hprev : ∀ x, x ≠ skb → s'.prev x = if x = s.next skb then s.prev skb else s.prev x)
    (hvar : s'.list = update s.list skb none)
    (hhead : s'.head = update s.head list ((l1 ++ l2).headD null)) :
    Rep s' (update lists list (l1 ++ l2)) := by
  have hring := h.ring list
  rw [hlist] at hring
  have hself : skb ∈ l1 ++ skb :: l2 := mem_append_right l1 mem_cons_self
  obtain ⟨hbefore, -, hafter, -⟩ := hring.neighbours hself
  have hnodup := nodup_middle.mp hring.nodup
  obtain ⟨hout, -⟩ := nodup_cons.mp hnodup
  have hmem : ∀ y, y ∈ l1 ++ l2 ↔ y ≠ skb ∧ y ∈ lists list := by
    intro y
    rw [hlist, perm_middle.mem_iff, mem_cons]
    constructor
    · intro hy
      exact ⟨fun heq => hout (heq ▸ hy), .inr hy⟩
    · rintro ⟨hne, heq | hy⟩
      · exact absurd heq hne
      · exact hy
  refine ⟨fun var => ?_, fun var => ?_, fun y var => ?_, fun var => ?_⟩
  · rw [hhead]
    by_cases hvarEq : var = list
    · rw [hvarEq, update_self, update_self]
    · rw [update_of_ne hvarEq, update_of_ne hvarEq]
      exact h.head var
  · by_cases hvarEq : var = list
    · rw [hvarEq, update_self]
      exact hring.remove (fun x hx => hnext x ((hmem x).mp hx).1)
        fun x hx => hprev x ((hmem x).mp hx).1
    · rw [update_of_ne hvarEq]
      have hother : ∀ {y z}, y ∈ lists var → z ∈ l1 ++ skb :: l2 → y ≠ z := by
        rintro y z hy hz rfl
        exact hvarEq (h.unique (hlist ▸ hz) hy)
      apply (h.ring var).congr
      · intro y hy
        rw [hnext y (hother hy hself), if_neg (hother hy hbefore)]
      · intro y hy
        rw [hprev y (hother hy hself), if_neg (hother hy hafter)]
  · rw [hvar]
    by_cases hy : y = skb
    · rw [hy, update_self]
      refine iff_of_false (by simp) ?_
      by_cases hvarEq : var = list
      · rw [hvarEq, update_self]
        exact hout
      · rw [update_of_ne hvarEq]
        exact fun hmem' => hvarEq (h.unique (hlist ▸ hself) hmem')
    · rw [update_of_ne hy]
      by_cases hvarEq : var = list
      · rw [hvarEq, update_self, hmem, h.list]
        simp [hy]
      · rw [update_of_ne hvarEq]
        exact h.list y var
  · by_cases hvarEq : var = list
    · rw [hvarEq, update_self, hmem]
      exact fun hnull => h.not_null list hnull.2
    · rw [update_of_ne hvarEq]
      exact h.not_null var

theorem Rep.first (hlist : lists list = []) (hnull : newsk ≠ null) (hfree : s.list newsk = none)
    (hnext : s'.next = update s.next newsk newsk) (hprev : s'.prev = update s.prev newsk newsk)
    (hvar : s'.list = update s.list newsk (some list)) (hhead : s'.head = update s.head list newsk)
    : Rep s' (update lists list [newsk]) := by
  have hother : ∀ {y var}, y ∈ lists var → y ≠ newsk := by
    rintro y var hy rfl
    exact h.free hfree var hy
  refine h.added hnull hfree hvar hhead (fun y => by rw [hlist, mem_singleton]; simp) fun var => ?_
  by_cases hvarEq : var = list
  · rw [hvarEq, update_self]
    refine ⟨isChain_pair.mpr ⟨?_, ?_⟩, nodup_singleton newsk⟩
    · rw [hnext, update_self]
    · rw [hprev, update_self]
  · rw [update_of_ne hvarEq]
    apply (h.ring var).congr
    · intro y hy
      rw [hnext, update_of_ne (hother hy)]
    · intro y hy
      rw [hprev, update_of_ne (hother hy)]

/-! ### The functions -/

theorem Rep.head_cons (hlist : lists list = a :: l) : s.head list = a := by
  rw [h.head, hlist]
  rfl

theorem Rep.head_nil (hlist : lists list = []) : s.head list = null := by
  rw [h.head, hlist]
  rfl

theorem Rep.ne_null (hx : x ∈ lists list) : x ≠ null :=
  fun heq => h.not_null list (heq ▸ hx)

theorem Rep.queueHead (hnull : newsk ≠ null) (hfree : s.list newsk = none) :
    Rep (s.queueHead list newsk) (update lists list (newsk :: lists list)) := by
  cases hlist : lists list with
  | nil =>
    rw [State.queueHead_nil (h.head_nil hlist)]
    exact h.first hlist hnull hfree rfl rfl rfl rfl
  | cons a l =>
    have ha : a ∈ lists list := hlist ▸ mem_cons_self
    obtain ⟨hprev, -⟩ := (h.ring list).neighbours ha
    have hne : newsk ≠ s.prev a := fun heq => h.free hfree list (heq ▸ hprev)
    rw [State.queueHead_cons (h.head_cons hlist) (h.ne_null ha) hne]
    exact h.link [] [] (newsk :: a :: l) hlist hnull hfree rfl rfl rfl rfl rfl
      (append_nil _).symm

theorem Rep.queueTail (hnull : newsk ≠ null) (hfree : s.list newsk = none) :
    Rep (s.queueTail list newsk) (update lists list (lists list ++ [newsk])) := by
  cases hlist : lists list with
  | nil =>
    rw [State.queueTail_nil (h.head_nil hlist)]
    exact h.first hlist hnull hfree rfl rfl rfl rfl
  | cons a l =>
    have ha : a ∈ lists list := hlist ▸ mem_cons_self
    have hhead := h.head_cons hlist
    obtain ⟨hprev, -⟩ := (h.ring list).neighbours ha
    have hne : newsk ≠ s.prev a := fun heq => h.free hfree list (heq ▸ hprev)
    rw [State.queueTail_cons hhead (h.ne_null ha) hne]
    refine h.link [] [newsk] (a :: l) hlist hnull hfree rfl rfl rfl ?_ rfl rfl
    exact (Function.update_eq_self_iff.mpr hhead.symm).symm

end

theorem insertBefore_of_not_mem {old newsk : Ptr} {l : List Ptr} (h : old ∉ l) :
    insertBefore old newsk l = l := by
  induction l with
  | nil => rfl
  | cons x l ih =>
    obtain ⟨hne, hrest⟩ := not_or.mp (mt mem_cons.mpr h)
    rw [insertBefore, if_neg (Ne.symm hne), ih hrest]

theorem insertBefore_split {old newsk : Ptr} {l1 l2 : List Ptr} (h : old ∉ l1) :
    insertBefore old newsk (l1 ++ old :: l2) = l1 ++ newsk :: old :: l2 := by
  induction l1 with
  | nil => rw [nil_append, insertBefore, if_pos rfl]; rfl
  | cons x l1 ih =>
    obtain ⟨hne, hrest⟩ := not_or.mp (mt mem_cons.mpr h)
    rw [cons_append, insertBefore, if_neg (Ne.symm hne), ih hrest]
    rfl

theorem insertAfter_of_not_mem {old newsk : Ptr} {l : List Ptr} (h : old ∉ l) :
    insertAfter old newsk l = l := by
  induction l with
  | nil => rfl
  | cons x l ih =>
    obtain ⟨hne, hrest⟩ := not_or.mp (mt mem_cons.mpr h)
    rw [insertAfter, if_neg (Ne.symm hne), ih hrest]

theorem insertAfter_split {old newsk : Ptr} {l1 l2 : List Ptr} (h : old ∉ l1) :
    insertAfter old newsk (l1 ++ old :: l2) = l1 ++ old :: newsk :: l2 := by
  induction l1 with
  | nil => rw [nil_append, insertAfter, if_pos rfl]; rfl
  | cons x l1 ih =>
    obtain ⟨hne, hrest⟩ := not_or.mp (mt mem_cons.mpr h)
    rw [cons_append, insertAfter, if_neg (Ne.symm hne), ih hrest]
    rfl

theorem Rep.split (h : Rep s lists) (hold : s.list old = some list) :
    ∃ l1 l2, lists list = l1 ++ old :: l2 ∧ old ∉ l1 := by
  obtain ⟨l1, l2, hlist⟩ := append_of_mem ((h.list old list).mp hold)
  refine ⟨l1, l2, hlist, ?_⟩
  have hnodup := (h.ring list).nodup
  rw [hlist, nodup_middle, nodup_cons] at hnodup
  exact fun hmem => hnodup.1 (mem_append_left _ hmem)

theorem Rep.meaning_eq (h : Rep s lists) (hold : s.list old = some list)
    {f : List Ptr → List Ptr} (hf : ∀ l, old ∉ l → f l = l) :
    (fun var => f (lists var)) = update lists list (f (lists list)) := by
  funext var
  by_cases hvarEq : var = list
  · rw [hvarEq, update_self]
  · rw [update_of_ne hvarEq]
    apply hf
    exact fun hmem => hvarEq (h.unique ((h.list old list).mp hold) hmem)

section
variable (h : Rep s lists) (hnull : newsk ≠ null) (hfree : s.list newsk = none)
  (hold : s.list old = some list)
include h hnull hfree hold

theorem Rep.insert (hfirst : s.head list ≠ old) :
    Rep (s.insert old newsk) ((Op.insert old newsk).meaning lists) := by
  obtain ⟨l1, l2, hlist, hout⟩ := h.split hold
  have hne : newsk ≠ old := by
    rintro rfl
    rw [hfree] at hold
    exact absurd hold (by simp)
  have hmeaning := h.meaning_eq hold (f := insertBefore old newsk) fun l => insertBefore_of_not_mem
  change Rep _ fun var => insertBefore old newsk (lists var)
  rw [hmeaning, State.insert_eq hne, hold, hlist, insertBefore_split hout]
  refine h.link l1 [] (l1 ++ newsk :: old :: l2) hlist hnull hfree rfl rfl rfl ?_ rfl
    (append_nil _).symm
  cases l1 with
  | nil => exact absurd (h.head_cons hlist) hfirst
  | cons a l1 => exact (Function.update_eq_self_iff.mpr (h.head_cons hlist).symm).symm

theorem Rep.insert_first (hfirst : s.head list = old) :
    Rep (s.insert old newsk) (update lists list (lists list ++ [newsk])) := by
  obtain ⟨l1, l2, hlist, hout⟩ := h.split hold
  have hne : newsk ≠ old := by
    rintro rfl
    rw [hfree] at hold
    exact absurd hold (by simp)
  obtain rfl : l1 = [] := by
    cases l1 with
    | nil => rfl
    | cons a l1 =>
      have ha : a = old := (h.head_cons hlist).symm.trans hfirst
      exact absurd (ha ▸ mem_cons_self) hout
  rw [State.insert_eq hne, hold, hlist]
  refine h.link [] [newsk] (old :: l2) hlist hnull hfree rfl rfl rfl ?_ rfl rfl
  exact (Function.update_eq_self_iff.mpr hfirst.symm).symm

theorem Rep.append : Rep (s.append old newsk) ((Op.append old newsk).meaning lists) := by
  obtain ⟨l1, l2, hlist, hout⟩ := h.split hold
  have hmem := (h.list old list).mp hold
  obtain ⟨-, -, hafter, hprev⟩ := (h.ring list).neighbours hmem
  have hne : newsk ≠ s.next old := fun heq => h.free hfree list (heq ▸ hafter)
  have hmeaning := h.meaning_eq hold (f := insertAfter old newsk) fun l => insertAfter_of_not_mem
  change Rep _ fun var => insertAfter old newsk (lists var)
  rw [hmeaning, State.append_eq hprev hne, hold, hlist, insertAfter_split hout]
  have hring := h.ring list
  rw [hlist] at hring
  cases l2 with
  | cons b l2 =>
    have hnext : s.next old = b := (Ringed.next_first hring.rotate).1
    have hsplit : lists list = (l1 ++ [old]) ++ b :: l2 := by
      rw [hlist, append_assoc]
      rfl
    have hhead : s.head list = (l1 ++ old :: newsk :: b :: l2).headD null := by
      rw [h.head, hlist]
      cases l1 <;> rfl
    rw [hnext]
    exact h.link (l1 ++ [old]) [] (l1 ++ old :: newsk :: b :: l2) hsplit hnull hfree rfl rfl rfl
      (Function.update_eq_self_iff.mpr hhead.symm).symm (by simp) (append_nil _).symm
  | nil =>
    -- behind the last buffer comes the first
    obtain ⟨c, rest, hwhole, hnext⟩ : ∃ c rest, l1 ++ [old] = c :: rest ∧ s.next old = c := by
      cases l1 with
      | nil => exact ⟨old, [], rfl, (Ringed.next_single hring).1⟩
      | cons c l1 => exact ⟨c, l1 ++ [old], rfl, (Ringed.next_first hring.rotate).1⟩
    have hlist' : l1 ++ [old, newsk] = (c :: rest) ++ [newsk] := by
      rw [← hwhole, append_assoc]
      rfl
    have hsplit : lists list = c :: rest := hlist.trans hwhole
    rw [hnext, hlist']
    exact h.link [] [newsk] (c :: rest) hsplit hnull hfree rfl rfl rfl
      (Function.update_eq_self_iff.mpr (h.head_cons hsplit).symm).symm rfl rfl

end

theorem Rep.nextHead_eq (h : Rep s lists) (hlist : lists list = a :: l) :
    s.nextHead a = l.headD null := by
  have hring := h.ring list
  rw [hlist] at hring
  unfold State.nextHead
  cases l with
  | nil =>
    rw [if_pos (Ringed.next_single hring).1]
    rfl
  | cons b l =>
    have hne : b ≠ a := by
      rintro rfl
      exact (nodup_cons.mp hring.nodup).1 mem_cons_self
    rw [(Ringed.next_first hring).1, if_neg hne]
    rfl

theorem takeOut_next (hx : x ≠ skb) :
    (s.takeOut skb).next x = if x = s.prev skb then s.next skb else s.next x := by
  unfold State.takeOut
  dsimp only
  rw [update_of_ne hx, update_apply]

theorem takeOut_prev (hx : x ≠ skb) :
    (s.takeOut skb).prev x = if x = s.next skb then s.prev skb else s.prev x := by
  unfold State.takeOut
  dsimp only
  rw [update_of_ne hx, update_apply]

theorem Rep.dequeue (h : Rep s lists) (list : ListVar) :
    Rep (s.dequeue list).1 (update lists list (lists list).tail) ∧
      (s.dequeue list).2 = (lists list).headD null := by
  cases hlist : lists list with
  | nil =>
    rw [State.dequeue_nil (h.head_nil hlist)]
    refine ⟨?_, rfl⟩
    rw [tail_nil, ← hlist, update_eq_self]
    exact h
  | cons a l =>
    have ha : a ∈ lists list := hlist ▸ mem_cons_self
    have hsingle : s.next a = a → s.prev a = a := by
      intro hself
      have hback := ((h.ring list).neighbours ha).2.2.2
      rw [hself] at hback
      exact hback
    rw [State.dequeue_cons (h.head_cons hlist) (h.ne_null ha) hsingle, h.nextHead_eq hlist]
    refine ⟨?_, rfl⟩
    have hfront : lists list = [] ++ a :: l := hlist
    exact h.take hfront (fun x => takeOut_next) (fun x => takeOut_prev) rfl rfl

theorem Rep.unlink (h : Rep s lists) (skb : Ptr) :
    Rep (s.unlink skb) ((Op.unlink skb).meaning lists) := by
  change Rep _ fun var => (lists var).erase skb
  cases hold : s.list skb with
  | none =>
    have hsame : (fun var => (lists var).erase skb) = lists := by
      funext var
      exact erase_of_not_mem (h.free hold var)
    rw [State.unlink_none hold, hsame]
    exact h
  | some list =>
    obtain ⟨l1, l2, hlist, hout⟩ := h.split hold
    have herase : (lists list).erase skb = l1 ++ l2 := by
      rw [hlist, erase_append_right _ hout, erase_cons_head]
    have hmeaning := h.meaning_eq hold (f := (List.erase · skb)) fun l => erase_of_not_mem
    rw [hmeaning, herase, State.unlink_some hold]
    cases l1 with
    | nil =>
      rw [if_pos (h.head_cons hlist), h.nextHead_eq hlist]
      exact h.take hlist (fun x => takeOut_next) (fun x => takeOut_prev) rfl rfl
    | cons a l1 =>
      have hhead := h.head_cons hlist
      have hne : ¬s.head list = skb := by
        rw [hhead]
        rintro rfl
        exact hout mem_cons_self
      rw [if_neg hne]
      exact h.take hlist (fun x => takeOut_next) (fun x => takeOut_prev) rfl
        (Function.update_eq_self_iff.mpr hhead.symm).symm

def State.NotFirst (s : State) : Op → Prop
  | .insert old _ => ∀ list, s.list old = some list → s.head list ≠ old
  | _ => True

theorem Rep.step (h : Rep s lists) {op : Op} (hlegal : s.Legal op) (hfirst : s.NotFirst op) :
    Rep (s.step op) (op.meaning lists) := by
  cases op with
  | queueHead list newsk => exact h.queueHead hlegal.1 hlegal.2
  | queueTail list newsk => exact h.queueTail hlegal.1 hlegal.2
  | dequeue list => exact (h.dequeue list).1
  | insert old newsk =>
    obtain ⟨hnull, hfree, hsome⟩ := hlegal
    obtain ⟨list, hold⟩ := Option.ne_none_iff_exists'.mp hsome
    exact h.insert hnull hfree hold (hfirst list hold)
  | append old newsk =>
    obtain ⟨hnull, hfree, hsome⟩ := hlegal
    obtain ⟨list, hold⟩ := Option.ne_none_iff_exists'.mp hsome
    exact h.append hnull hfree hold
  | unlink skb => exact h.unlink skb

theorem Rep.step_ring (h : Rep s lists) {op : Op} (hlegal : s.Legal op) :
    ∃ lists', Rep (s.step op) lists' := by
  by_cases hfirst : s.NotFirst op
  · exact ⟨_, h.step hlegal hfirst⟩
  · cases op with
    | insert old newsk =>
      obtain ⟨list, hlist⟩ := not_forall.mp hfirst
      obtain ⟨hold, hhead⟩ := Classical.not_imp.mp hlist
      exact ⟨_, h.insert_first hlegal.1 hlegal.2.1 hold (not_not.mp hhead)⟩
    | _ => exact absurd trivial hfirst

end Rep

def State.RunLegal : State → List Op → Prop
  | _, [] => True
  | s, op :: ops => s.Legal op ∧ (s.step op).RunLegal ops

def State.RunNotFirst : State → List Op → Prop
  | _, [] => True
  | s, op :: ops => s.NotFirst op ∧ (s.step op).RunNotFirst ops

structure State.Empty (s : State) : Prop where
  head : ∀ list, s.head list = null
  list : ∀ skb, s.list skb = none

theorem rep_empty {s : State} (h : s.Empty) : Rep s fun _ => [] :=
  ⟨h.head, fun _ => trivial, fun skb list => by simp [h.list skb], fun _ => not_mem_nil⟩

section
variable {s : State} {lists : ListVar → List Ptr} {ops : List Op} (h : Rep s lists)
  (hlegal : s.RunLegal ops)
include h hlegal

theorem Rep.run (hfirst : s.RunNotFirst ops) : Rep (s.run ops) (meanings lists ops) := by
  induction ops generalizing s lists with
  | nil => exact h
  | cons op ops ih => exact ih (h.step hlegal.1 hfirst.1) hlegal.2 hfirst.2

theorem Rep.run_ring : ∃ lists', Rep (s.run ops) lists' := by
  induction ops generalizing s lists with
  | nil => exact ⟨lists, h⟩
  | cons op ops ih =>
    obtain ⟨lists', h'⟩ := h.step_ring hlegal.1
    exact ih h' hlegal.2

end

/-- The lists are rings whose buffers point to their variable; and they go through the sequences
that the operations mean, as long as nothing is inserted before the first buffer of a list. -/
theorem lists_are_sequences (s : State) (hempty : s.Empty) (ops : List Op)
    (hlegal : s.RunLegal ops) :
    (∃ lists, Rep (s.run ops) lists) ∧
      (s.RunNotFirst ops → Rep (s.run ops) (meanings (fun _ => []) ops) ∧
        ∀ list, ((s.run ops).dequeue list).2 = (meanings (fun _ => []) ops list).headD null) := by
  refine ⟨(rep_empty hempty).run_ring hlegal, fun hfirst => ?_⟩
  have hrun := (rep_empty hempty).run hlegal hfirst
  exact ⟨hrun, fun list => (hrun.dequeue list).2⟩

def empty : State where
  head := fun _ => null
  next := fun _ => null
  prev := fun _ => null
  list := fun _ => none

theorem empty_empty : empty.Empty := ⟨fun _ => rfl, fun _ => rfl⟩

theorem lists_are_sequences_three :
    (∃ lists, Rep (empty.run [.queueTail 0 1, .queueHead 0 2, .insert 1 3]) lists) ∧
      (empty.RunNotFirst [.queueTail 0 1, .queueHead 0 2, .insert 1 3] →
        Rep (empty.run [.queueTail 0 1, .queueHead 0 2, .insert 1 3])
            (meanings (fun _ => []) [.queueTail 0 1, .queueHead 0 2, .insert 1 3]) ∧
          ∀ list, ((empty.run [.queueTail 0 1, .queueHead 0 2, .insert 1 3]).dequeue list).2 =
            (meanings (fun _ => []) [.queueTail 0 1, .queueHead 0 2, .insert 1 3] list).headD
              null) := by
  apply lists_are_sequences empty empty_empty
  exact ⟨⟨by decide, rfl⟩, ⟨by decide, rfl⟩, ⟨by decide, rfl, by decide⟩, trivial⟩

/-- Before the first buffer: the list goes on starting with the old one. -/
theorem insert_not_first :
    ¬∀ s : State, s.Empty → ∀ ops : List Op, s.RunLegal ops →
      Rep (s.run ops) (meanings (fun _ => []) ops) := by
  intro h
  have hrun := h empty empty_empty [.queueTail 0 1, .insert 1 2]
    ⟨⟨by decide, rfl⟩, ⟨by decide, rfl, by decide⟩, trivial⟩
  exact absurd (hrun.head 0) (by decide)

end LinuxKernel.SkbList
