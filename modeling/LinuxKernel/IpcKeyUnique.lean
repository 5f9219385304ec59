import LinuxKernel.IpcKeyModel
import Mathlib.Tactic

/-!
# One object for a key

`findkey` sleeps on reserved slots, but it has passed the slots before the one it
sleeps on and does not look beyond the maximum, which a creation raises only at
its end.  Where nothing for the key turns up in these slots, a creation never
makes a second object for a key.
-/

namespace LinuxKernel.IpcKey
open Function

variable {Task : Type}

def Ipc.claims (s : Ipc Task) (k : Kind) (id : ℕ) (key : ℤ) : Prop :=
  (∃ o, (s.table k).slots id = .object o ∧ o.key = key) ∨
    ∃ t size left, s.calls t = some (k, .creating key size id left)

structure Inv (s : Ipc Task) : Prop where
  live : ∀ k id o, (s.table k).slots id = .object o → id ≤ (s.table k).maxId ∧ id < (family k).mni
  reserved : ∀ t k key size id left, s.calls t = some (k, .creating key size id left) →
    (s.table k).slots id = .noid ∧ id < (family k).mni
  apart : ∀ t t' k key size id left key' size' left',
    s.calls t = some (k, .creating key size id left) →
      s.calls t' = some (k, .creating key' size' id left') → t = t'
  unique : ∀ k key, key ≠ ipcPrivate → ∀ id id', s.claims k id key → s.claims k id' key → id = id'

variable {slots : ℕ → Slot} {key : ℤ} {id left : ℕ}

theorem findkey_absent
    (h : findkey slots key id left = .absent) :
    ∀ id', id ≤ id' → id' < id + left →
      slots id' ≠ .noid ∧ ∀ o, slots id' = .object o → o.key ≠ key := by
  induction left generalizing id with
  | zero =>
    intro id' h1 h2
    omega
  | succ left ih =>
    intro id' h1 h2
    unfold findkey at h
    split at h
    · simp at h
    · rename_i hslot
      by_cases heq : id' = id
      · rw [heq, hslot]
        simp
      · exact ih h id' (by omega) (by omega)
    · rename_i o hslot
      split at h
      · simp at h
      · rename_i hkey
        by_cases heq : id' = id
        · rw [heq, hslot]
          refine ⟨by simp, ?_⟩
          intro o' ho'
          rw [Slot.object.injEq] at ho'
          rw [← ho']
          exact Ne.symm hkey
        · exact ih h id' (by omega) (by omega)

theorem findkey_found {id' : ℕ}
    (h : findkey slots key id left = .found id') : ∃ o, slots id' = .object o ∧ o.key = key := by
  induction left generalizing id with
  | zero => simp [findkey] at h
  | succ left ih =>
    unfold findkey at h
    split at h
    · simp at h
    · exact ih h
    · rename_i o hslot
      split at h
      · rename_i hkey
        rw [Find.found.injEq] at h
        rw [← h]
        exact ⟨o, hslot, hkey.symm⟩
      · exact ih h

variable {tb : Table}

theorem firstUnused_some {mni : ℕ} (h : tb.firstUnused mni = some id) :
    tb.slots id = .unused ∧ id < mni := by
  have hprop := List.find?_some h
  have hmem := List.mem_of_find?_eq_some h
  simp only [decide_eq_true_eq] at hprop
  exact ⟨hprop, List.mem_range.mp hmem⟩

variable {s : Ipc Task} {k : Kind} {start : ℕ}

theorem Inv.not_claims_of_absent (h : Inv s)
    (habsent : (s.table k).findkey key start = .absent) (h1 : start ≤ id)
    (h2 : id ≤ (s.table k).maxId) : ¬s.claims k id key := by
  obtain ⟨hnoid, hkey⟩ := findkey_absent habsent id h1 (by omega)
  rintro (⟨o, ho, heq⟩ | ⟨t, size, left, hcall⟩)
  · exact hkey o ho heq
  · exact hnoid (h.reserved t k key size id left hcall).1

/-! ## Stores -/

@[simp] theorem setTable_table_self (s : Ipc Task) (k : Kind) (tb : Table) :
    (s.setTable k tb).table k = tb := update_self ..

variable {k' : Kind}

theorem setTable_table_of_ne (s : Ipc Task) (h : k' ≠ k) (tb : Table) :
    (s.setTable k tb).table k' = s.table k' := update_of_ne h ..

theorem Inv.of_claims {s' : Ipc Task} (h : Inv s)
    (hlive : ∀ k id o, (s'.table k).slots id = .object o →
      id ≤ (s'.table k).maxId ∧ id < (family k).mni)
    (hreserved : ∀ t k key size id left, s'.calls t = some (k, .creating key size id left) →
      (s'.table k).slots id = .noid ∧ ∃ left', s.calls t = some (k, .creating key size id left'))
    (hclaims : ∀ k id key, s'.claims k id key → s.claims k id key) : Inv s' := by
  refine ⟨hlive, ?_, ?_, ?_⟩
  · intro t k key size id left hcall
    obtain ⟨hnoid, left', hold⟩ := hreserved t k key size id left hcall
    exact ⟨hnoid, (h.reserved t k key size id left' hold).2⟩
  · intro t t' k key size id left key' size' left' hcall hcall'
    obtain ⟨_, _, hold⟩ := hreserved t k key size id left hcall
    obtain ⟨_, _, hold'⟩ := hreserved t' k key' size' id left' hcall'
    exact h.apart t t' k key size id _ key' size' _ hold hold'
  · intro k key hkey id id' hc hc'
    exact h.unique k key hkey id id' (hclaims k id key hc) (hclaims k id' key hc')

variable [DecidableEq Task]

@[simp] theorem setCall_table (s : Ipc Task) (t : Task) (call : Option (Kind × Call)) :
    (s.setCall t call).table = s.table := rfl

theorem setCall_calls (s : Ipc Task) (t : Task) (call : Option (Kind × Call)) (t' : Task) :
    (s.setCall t call).calls t' = if t' = t then call else s.calls t' := by
  unfold Ipc.setCall
  dsimp only
  by_cases h : t' = t
  · rw [h, update_self, if_pos rfl]
  · rw [update_of_ne h, if_neg h]

variable {t : Task}

theorem Inv.setCall (h : Inv s) {call : Option (Kind × Call)}
    (hnew : ∀ k key size id left, call ≠ some (k, .creating key size id left)) :
    Inv (s.setCall t call) := by
  have hcalls : ∀ t' k key size id left,
      (s.setCall t call).calls t' = some (k, .creating key size id left) →
        s.calls t' = some (k, .creating key size id left) := by
    intro t' k key size id left hcall
    rw [setCall_calls] at hcall
    split at hcall
    · exact absurd hcall (hnew k key size id left)
    · exact hcall
  apply h.of_claims
  · exact h.live
  · intro t' k key size id left hcall
    have hold := hcalls t' k key size id left hcall
    exact ⟨(h.reserved t' k key size id left hold).1, left, hold⟩
  · intro k id key hc
    rcases hc with hlive | ⟨t', size, left, hcall⟩
    · exact Or.inl hlive
    · exact Or.inr ⟨t', size, left, hcalls t' k key size id left hcall⟩

theorem Inv.reserve (h : Inv s)
    (hunused : (s.table k).slots id = .unused) (hid : id < (family k).mni)
    (hfree : key ≠ ipcPrivate → ∀ id', ¬s.claims k id' key) (size left : ℕ) :
    Inv ((s.setSlot k id .noid).setCall t (some (k, .creating key size id left))) := by
  have hslot : ∀ k' id' slot, slot ≠ .noid →
      (((s.setSlot k id .noid).setCall t (some (k, .creating key size id left))).table k').slots
        id' = slot → (s.table k').slots id' = slot := by
    intro k' id' slot hne hs
    rw [setCall_table] at hs
    by_cases hk : k' = k
    · rw [hk] at hs ⊢
      rw [Ipc.setSlot, setTable_table_self] at hs
      dsimp only at hs
      by_cases hid' : id' = id
      · rw [hid', update_self] at hs
        exact absurd hs.symm hne
      · rw [update_of_ne hid'] at hs
        exact hs
    · rw [Ipc.setSlot, setTable_table_of_ne s hk] at hs
      exact hs
  have hnoid : ∀ k' id', (s.table k').slots id' = .noid →
      (((s.setSlot k id .noid).setCall t (some (k, .creating key size id left))).table k').slots
        id' = .noid := by
    intro k' id' hs
    rw [setCall_table]
    by_cases hk : k' = k
    · rw [hk] at hs ⊢
      rw [Ipc.setSlot, setTable_table_self]
      dsimp only
      by_cases hid' : id' = id
      · rw [hid', update_self]
      · rw [update_of_ne hid']
        exact hs
    · rw [Ipc.setSlot, setTable_table_of_ne s hk]
      exact hs
  have hself : (((s.setSlot k id .noid).setCall t (some (k, .creating key size id left))).table
      k).slots id = .noid := by
    rw [setCall_table, Ipc.setSlot, setTable_table_self]
    exact update_self ..
  have hmax : ∀ k', (((s.setSlot k id .noid).setCall t
      (some (k, .creating key size id left))).table k').maxId = (s.table k').maxId := by
    intro k'
    rw [setCall_table]
    by_cases hk : k' = k
    · rw [hk, Ipc.setSlot, setTable_table_self]
    · rw [Ipc.setSlot, setTable_table_of_ne s hk]
  -- no other call has reserved this slot
  have hother : ∀ t' k' key' size' id' left', s.calls t' = some
    (k', .creating key' size' id' left') →
      ¬(k' = k ∧ id' = id) := by
    rintro t' k' key' size' id' left' hcall ⟨hk, hid'⟩
    have hres := (h.reserved t' k' key' size' id' left' hcall).1
    rw [hk, hid', hunused] at hres
    simp at hres
  have hcases : ∀ k' id' key', ((s.setSlot k id .noid).setCall t
      (some (k, .creating key size id left))).claims k' id' key' →
      (k' = k ∧ id' = id ∧ key' = key) ∨ s.claims k' id' key' := by
    rintro k' id' key' (⟨o, ho, hkey⟩ | ⟨t', size', left', hcall⟩)
    · exact Or.inr (Or.inl ⟨o, hslot k' id' _ (by simp) ho, hkey⟩)
    · rw [setCall_calls] at hcall
      split at hcall
      · simp only [Option.some.injEq, Prod.mk.injEq, Call.creating.injEq] at hcall
        exact Or.inl ⟨hcall.1.symm, hcall.2.2.2.1.symm, hcall.2.1.symm⟩
      · exact Or.inr (Or.inr ⟨t', size', left', hcall⟩)
  constructor
  · intro k' id' o ho
    rw [hmax]
    exact h.live k' id' o (hslot k' id' _ (by simp) ho)
  · intro t' k' key' size' id' left' hcall
    rw [setCall_calls] at hcall
    split at hcall
    · simp only [Option.some.injEq, Prod.mk.injEq, Call.creating.injEq] at hcall
      rw [← hcall.1, ← hcall.2.2.2.1]
      exact ⟨hself, hid⟩
    · obtain ⟨hres, hlt⟩ := h.reserved t' k' key' size' id' left' hcall
      exact ⟨hnoid k' id' hres, hlt⟩
  · intro t1 t2 k' key1 size1 id' left1 key2 size2 left2 h1 h2
    rw [setCall_calls] at h1 h2
    split at h1
    · rename_i ht1
      split at h2
      · rename_i ht2
        rw [ht1, ht2]
      · simp only [Option.some.injEq, Prod.mk.injEq, Call.creating.injEq] at h1
        exact absurd ⟨h1.1.symm, h1.2.2.2.1.symm⟩ (hother t2 k' key2 size2 id' left2 h2)
    · split at h2
      · simp only [Option.some.injEq, Prod.mk.injEq, Call.creating.injEq] at h2
        exact absurd ⟨h2.1.symm, h2.2.2.2.1.symm⟩ (hother t1 k' key1 size1 id' left1 h1)
      · exact h.apart t1 t2 k' key1 size1 id' left1 key2 size2 left2 h1 h2
  · intro k' key' hkey' id1 id2 hc1 hc2
    rcases hcases k' id1 key' hc1 with ⟨hk1, hid1, hkey1⟩ | hold1
    · rcases hcases k' id2 key' hc2 with ⟨_, hid2, _⟩ | hold2
      · rw [hid1, hid2]
      · rw [hkey1] at hkey' hold2
        rw [hk1] at hold2
        exact absurd hold2 (hfree hkey' id2)
    · rcases hcases k' id2 key' hc2 with ⟨hk2, _, hkey2⟩ | hold2
      · rw [hkey2] at hkey' hold1
        rw [hk2] at hold1
        exact absurd hold1 (hfree hkey' id1)
      · exact h.unique k' key' hkey' id1 id2 hold1 hold2

variable {size : ℕ}

theorem Inv.continueCreating (h : Inv s) (hcall : s.calls t = some (k, .creating key size id left))
    (left' : ℕ) :
    Inv (s.setCall t (some (k, .creating key size id left'))) := by
  have hcalls : ∀ t' k' key' size' id' l,
      (s.setCall t (some (k, .creating key size id left'))).calls t' =
        some (k', .creating key' size' id' l) →
      ∃ l', s.calls t' = some (k', .creating key' size' id' l') := by
    intro t' k' key' size' id' l hc
    rw [setCall_calls] at hc
    split at hc
    · rename_i ht
      simp only [Option.some.injEq, Prod.mk.injEq, Call.creating.injEq] at hc
      refine ⟨left, ?_⟩
      rw [ht, hcall, hc.1, hc.2.1, hc.2.2.1, hc.2.2.2.1]
    · exact ⟨l, hc⟩
  apply h.of_claims
  · exact h.live
  · intro t' k' key' size' id' l hc
    obtain ⟨l', hold⟩ := hcalls t' k' key' size' id' l hc
    exact ⟨(h.reserved t' k' key' size' id' l' hold).1, l', hold⟩
  · rintro k' id' key' (hlive | ⟨t', size', l, hc⟩)
    · exact Or.inl hlive
    · obtain ⟨l', hold⟩ := hcalls t' k' key' size' id' l hc
      exact Or.inr ⟨t', size', l', hold⟩

variable {slot : Slot}

theorem Inv.endCreating (h : Inv s) (hcall : s.calls t = some (k, .creating key size id left))
    (hslots : tb.slots = update (s.table k).slots id slot)
    (hmax : (s.table k).maxId ≤ tb.maxId)
    (hslot : ∀ o, slot = .object o → o.key = key ∧ id ≤ tb.maxId) :
    Inv ((s.setTable k tb).setCall t none) := by
  obtain ⟨_, hid⟩ := h.reserved t k key size id left hcall
  have hcalls : ∀ t' k' key' size' id' l, ((s.setTable k tb).setCall t none).calls t' =
      some (k', .creating key' size' id' l) →
        t' ≠ t ∧ s.calls t' = some (k', .creating key' size' id' l) := by
    intro t' k' key' size' id' l hc
    rw [setCall_calls] at hc
    split at hc
    · simp at hc
    · rename_i ht
      exact ⟨ht, hc⟩
  apply h.of_claims
  · intro k' id' o ho
    rw [setCall_table] at ho ⊢
    by_cases hk : k' = k
    · rw [hk] at ho ⊢
      rw [setTable_table_self, hslots] at ho
      rw [setTable_table_self]
      by_cases hid' : id' = id
      · rw [hid', update_self] at ho
        rw [hid']
        exact ⟨(hslot o ho).2, hid⟩
      · rw [update_of_ne hid'] at ho
        obtain ⟨h1, h2⟩ := h.live k id' o ho
        exact ⟨le_trans h1 hmax, h2⟩
    · rw [setTable_table_of_ne s hk] at ho ⊢
      exact h.live k' id' o ho
  · intro t' k' key' size' id' l hc
    obtain ⟨ht, hold⟩ := hcalls t' k' key' size' id' l hc
    refine ⟨?_, l, hold⟩
    have hres := (h.reserved t' k' key' size' id' l hold).1
    rw [setCall_table]
    by_cases hk : k' = k
    · rw [hk] at hres hold ⊢
      rw [setTable_table_self, hslots]
      by_cases hid' : id' = id
      · rw [hid'] at hold
        exact absurd (h.apart t' t k key' size' id l key size left hold hcall) ht
      · rw [update_of_ne hid']
        exact hres
    · rw [setTable_table_of_ne s hk]
      exact hres
  · rintro k' id' key' (⟨o, ho, hkey⟩ | ⟨t', size', l, hc⟩)
    · rw [setCall_table] at ho
      by_cases hk : k' = k
      · rw [hk] at ho ⊢
        rw [setTable_table_self, hslots] at ho
        by_cases hid' : id' = id
        · rw [hid', update_self] at ho
          rw [hid', ← hkey, (hslot o ho).1]
          exact Or.inr ⟨t, size, left, hcall⟩
        · rw [update_of_ne hid'] at ho
          exact Or.inl ⟨o, ho, hkey⟩
      · rw [setTable_table_of_ne s hk] at ho
        exact Or.inl ⟨o, ho, hkey⟩
    · exact Or.inr ⟨t', size', l, (hcalls t' k' key' size' id' l hc).2⟩

omit [DecidableEq Task] in
theorem Inv.changeObject (h : Inv s) {o : Object}
    (ho : (s.table k).slots id = .object o)
    (hslots : tb.slots = update (s.table k).slots id slot)
    (hlive : ∀ id' o', tb.slots id' = .object o' → id' ≤ tb.maxId)
    (hslot : ∀ o', slot = .object o' → o'.key = o.key) : Inv (s.setTable k tb) := by
  obtain ⟨_, hid⟩ := h.live k id o ho
  have hold : ∀ id' o', tb.slots id' = .object o' →
      ∃ o0, (s.table k).slots id' = .object o0 ∧ o'.key = o0.key := by
    intro id' o' ho'
    rw [hslots] at ho'
    by_cases hid' : id' = id
    · rw [hid', update_self] at ho'
      rw [hid']
      exact ⟨o, ho, hslot o' ho'⟩
    · rw [update_of_ne hid'] at ho'
      exact ⟨o', ho', rfl⟩
  apply h.of_claims
  · intro k' id' o' ho'
    by_cases hk : k' = k
    · rw [hk] at ho' ⊢
      rw [setTable_table_self] at ho' ⊢
      obtain ⟨o0, ho0, _⟩ := hold id' o' ho'
      exact ⟨hlive id' o' ho', (h.live k id' o0 ho0).2⟩
    · rw [setTable_table_of_ne s hk] at ho' ⊢
      exact h.live k' id' o' ho'
  · intro t k' key size id' left hcall
    refine ⟨?_, left, hcall⟩
    have hres := (h.reserved t k' key size id' left hcall).1
    by_cases hk : k' = k
    · rw [hk] at hres ⊢
      rw [setTable_table_self, hslots, update_of_ne]
      · exact hres
      · intro heq
        rw [heq, ho] at hres
        simp at hres
    · rw [setTable_table_of_ne s hk]
      exact hres
  · rintro k' id' key (⟨o', ho', hkey⟩ | hcall)
    · by_cases hk : k' = k
      · rw [hk] at ho' ⊢
        rw [setTable_table_self] at ho'
        obtain ⟨o0, ho0, heq⟩ := hold id' o' ho'
        exact Or.inl ⟨o0, ho0, heq.symm.trans hkey⟩
      · rw [setTable_table_of_ne s hk] at ho'
        exact Or.inl ⟨o', ho', hkey⟩
    · exact Or.inr hcall

theorem lowerMax_live {m : ℕ} (hid : id < m) (hslot : slots id ≠ .unused) :
    id ≤ lowerMax slots m := by
  induction m with
  | zero => omega
  | succ m ih =>
    unfold lowerMax
    split
    · rename_i hunused
      apply ih
      by_contra hnot
      have heq : id = m := by omega
      rw [heq] at hslot
      exact hslot hunused
    · omega

omit [DecidableEq Task] in
theorem Inv.free (h : Inv s) {o : Object}
    (ho : (s.table k).slots id = .object o) : Inv (s.setTable k ((s.table k).free id)) := by
  have hslots : ((s.table k).free id).slots = update (s.table k).slots id .unused := rfl
  refine h.changeObject ho hslots ?_ (by simp)
  intro id' o' ho'
  simp only [Table.free] at ho' ⊢
  by_cases hid' : id' = id
  · rw [hid', update_self] at ho'
    simp at ho'
  · rw [update_of_ne hid'] at ho'
    obtain ⟨hle, _⟩ := h.live k id' o' ho'
    split
    · rename_i hmax
      apply lowerMax_live
      · omega
      · rw [ho']
        simp
    · exact hle

/-! ## One step -/

/-- The key a call with `IPC_CREAT` looks for in this step, and the slot it
starts with. -/
def lookupOf (s : Ipc Task) : Event Task → Option (Kind × ℤ × ℕ)
  | .get k t key size creat _ _ _ =>
    if (s.calls t).isNone ∧ size ≤ (family k).maxSize ∧ key ≠ ipcPrivate ∧ creat then
      some (k, key, 0)
    else none
  | .look t _ _ =>
    match s.calls t with
    | some (k, .finding key _ creat _ id) => if creat then some (k, key, id) else none
    | _ => none
  | _ => none

/-- A call that finds nothing has missed nothing: neither in the slots it passed
before it last slept nor beyond the maximum is there anything for its key. -/
def StepFinds (s : Ipc Task) (e : Event Task) : Prop :=
  ∀ k key start, lookupOf s e = some (k, key, start) →
    (s.table k).findkey key start = .absent →
      ∀ id, id < start ∨ (s.table k).maxId < id → ¬s.claims k id key

theorem Inv.newObject (h : Inv s)
    (hfree : key ≠ ipcPrivate → ∀ id, ¬s.claims k id key) (t : Task) (size : ℕ) (noSpace : Bool) :
    Inv (s.newObject k t key size noSpace).1 := by
  unfold Ipc.newObject
  split
  · exact h.setCall (by simp)
  · split
    · exact h.setCall (by simp)
    · split
      · exact h.setCall (by simp)
      · rename_i id hid
        obtain ⟨hunused, hlt⟩ := firstUnused_some hid
        exact h.reserve hunused hlt hfree size _

theorem Inv.lookup (h : Inv s) {creat : Bool}
    (hfinds : creat = true → (s.table k).findkey key start = .absent →
      ∀ id, id < start ∨ (s.table k).maxId < id → ¬s.claims k id key)
    (t : Task) (size : ℕ) (excl permitted noSpace : Bool) :
    Inv (s.lookup k t key size creat excl start permitted noSpace).1 := by
  unfold Ipc.lookup
  split
  · exact h.setCall (by simp)
  · rename_i habsent
    split
    · rename_i hcreat
      apply h.newObject
      intro _ id
      by_cases hscanned : start ≤ id ∧ id ≤ (s.table k).maxId
      · exact h.not_claims_of_absent habsent hscanned.1 hscanned.2
      · exact hfinds hcreat habsent id (by omega)
    · exact h.setCall (by simp)
  · split
    · repeat' split
      all_goals exact h.setCall (by simp)
    · exact h.setCall (by simp)

theorem Inv.alloc (h : Inv s) (t : Task) (memory : Bool) : Inv (s.alloc t memory).1 := by
  unfold Ipc.alloc
  split
  · rename_i k key size id left hcall
    split
    · split
      · exact h.continueCreating hcall _
      · apply h.endCreating hcall
        · rfl
        · exact le_max_left ..
        · intro o ho
          rw [Slot.object.injEq] at ho
          rw [← ho]
          exact ⟨rfl, le_max_right ..⟩
    · apply h.endCreating hcall
      · rfl
      · exact le_refl _
      · simp
  · exact h

omit [DecidableEq Task] in
theorem Inv.rmid (h : Inv s) (k : Kind) (ident : ℕ) (permitted attached : Bool) :
    Inv (s.rmid k ident permitted attached).1 := by
  unfold Ipc.rmid
  dsimp only
  split
  · rename_i o ho
    split
    · exact h
    · split
      · exact h
      · split
        · apply h.changeObject ho
          · rfl
          · intro id' o' ho'
            by_cases hid' : id' = ident % (family k).mni
            · rw [hid']
              exact (h.live k _ o ho).1
            · dsimp only at ho'
              rw [update_of_ne hid'] at ho'
              exact (h.live k id' o' ho').1
          · intro o' ho'
            rw [Slot.object.injEq] at ho'
            rw [← ho']
        · exact h.free ho
  · exact h

variable {e : Event Task}

theorem Inv.step (h : Inv s) (hfinds : StepFinds s e) : Inv (s.step e).1 := by
  cases e with
  | get k t key size creat excl permitted noSpace =>
    unfold Ipc.step
    dsimp only
    split
    · exact h
    · rename_i hidle
      unfold Ipc.get
      split
      · exact h
      · rename_i hsize
        split
        · rename_i hkey
          exact h.newObject (fun hne => absurd hkey hne) t size noSpace
        · rename_i hkey
          apply h.lookup
          intro hcreat
          apply hfinds k key 0
          unfold lookupOf
          dsimp only
          rw [if_pos]
          refine ⟨?_, not_lt.mp hsize, hkey, hcreat⟩
          rwa [Bool.not_eq_true, Option.isSome_eq_false_iff] at hidle
  | look t permitted noSpace =>
    unfold Ipc.step
    dsimp only
    split
    · rename_i k key size creat excl id hcall
      apply h.lookup
      intro hcreat
      apply hfinds k key id
      simp only [lookupOf, hcall, hcreat, if_true]
    · exact h
  | alloc t memory => exact h.alloc t memory
  | rmid k ident permitted attached => exact h.rmid k ident permitted attached
  | lastDetach id =>
    change Inv (s.lastDetach id).1
    unfold Ipc.lastDetach
    split
    · rename_i o ho
      split
      · exact h.free ho
      · exact h
    · exact h

omit [DecidableEq Task] in
theorem init_inv : Inv (Ipc.init : Ipc Task) := by
  constructor <;> simp [Ipc.init, Ipc.claims]

/-! ## Objects stay and calls return them -/

def Ipc.holds (s : Ipc Task) (k : Kind) (key v : ℤ) : Prop :=
  ∃ id o, (s.table k).slots id = .object o ∧ o.key = key ∧ v = (o.seq * (family k).mni + id : ℕ)

def removes (k : Kind) (v : ℤ) : Event Task → Prop
  | .rmid k' ident _ _ => k' = k ∧ (ident : ℤ) = v
  | .lastDetach id => k = .shm ∧ (id : ℤ) = v % (family .shm).mni
  | _ => False

def keyOf (s : Ipc Task) : Event Task → Option (Kind × ℤ)
  | .get k _ key _ _ _ _ _ => some (k, key)
  | .look t _ _ =>
    match s.calls t with
    | some (k, .finding key _ _ _ _) => some (k, key)
    | _ => none
  | .alloc t _ =>
    match s.calls t with
    | some (k, .creating key _ _ _) => some (k, key)
    | _ => none
  | _ => none

def Returns (s : Ipc Task) (e : Event Task) (k : Kind) (key v : ℤ) : Prop :=
  keyOf s e = some (k, key) ∧ (s.step e).2 = .returned v ∧ 0 ≤ v

variable {v : ℤ}

theorem newObject_outcome (s : Ipc Task) (k : Kind) (t : Task) (key : ℤ) (size : ℕ)
    (noSpace : Bool) (h : (s.newObject k t key size noSpace).2 = .returned v) : v < 0 := by
  unfold Ipc.newObject at h
  split at h
  · rw [Outcome.returned.injEq] at h
    rw [← h]
    decide
  · split at h
    · rw [Outcome.returned.injEq] at h
      rw [← h]
      decide
    · split at h
      · rw [Outcome.returned.injEq] at h
        rw [← h]
        decide
      · simp at h

theorem lookup_returns
    {creat excl : Bool} {permitted noSpace : Bool}
    (hv : (s.lookup k t key size creat excl start permitted noSpace).2 = .returned v)
    (hpos : 0 ≤ v) : (s.lookup k t key size creat excl start permitted noSpace).1.holds k key v :=
    by
  have hneg : ∀ e, 0 < e → Outcome.returned (-e) = Outcome.returned v → False := by
    intro e he heq
    rw [Outcome.returned.injEq] at heq
    omega
  unfold Ipc.lookup at hv ⊢
  split at hv
  · simp at hv
  · split at hv
    · exact absurd (newObject_outcome s k t key size noSpace hv) (not_lt.mpr hpos)
    · exact absurd hv (hneg enoent (by decide))
  · rename_i id' hfound
    obtain ⟨o, ho, hkey⟩ := findkey_found hfound
    rw [ho] at hv ⊢
    dsimp only at hv ⊢
    split at hv
    · exact (hneg eexist (by decide) hv).elim
    · split at hv
      · exact (hneg eidrm (by decide) hv).elim
      · split at hv
        · exact (hneg einval (by decide) hv).elim
        · split at hv
          · exact (hneg eacces (by decide) hv).elim
          · rename_i h1 h2 h3 h4
            rw [if_neg h1, if_neg h2, if_neg h3, if_neg h4]
            rw [Outcome.returned.injEq] at hv
            exact ⟨id', o, ho, hkey, hv.symm⟩

theorem Returns.holds
    (hkey : key ≠ ipcPrivate) (h : Returns s e k key v) : (s.step e).1.holds k key v := by
  obtain ⟨hkeyOf, hv, hpos⟩ := h
  cases e with
  | get k' t key' size creat excl permitted noSpace =>
    simp only [keyOf, Option.some.injEq, Prod.mk.injEq] at hkeyOf
    rw [hkeyOf.1, hkeyOf.2] at hv ⊢
    unfold Ipc.step at hv ⊢
    dsimp only at hv ⊢
    split at hv
    · simp at hv
    · rename_i hidle
      rw [if_neg hidle]
      unfold Ipc.get at hv ⊢
      split at hv
      · rw [Outcome.returned.injEq] at hv
        rw [← hv] at hpos
        exact absurd hpos (by decide)
      · rename_i hsize
        rw [if_neg hsize, if_neg hkey]
        exact lookup_returns hv hpos
  | look t permitted noSpace =>
    unfold keyOf at hkeyOf
    dsimp only at hkeyOf
    split at hkeyOf
    · rename_i k' key' size creat excl id hcall
      simp only [Option.some.injEq, Prod.mk.injEq] at hkeyOf
      rw [hkeyOf.1, hkeyOf.2] at hcall
      simp only [Ipc.step, hcall] at hv ⊢
      exact lookup_returns hv hpos
    · simp at hkeyOf
  | alloc t memory =>
    unfold keyOf at hkeyOf
    dsimp only at hkeyOf
    split at hkeyOf
    · rename_i k' key' size id left hcall
      simp only [Option.some.injEq, Prod.mk.injEq] at hkeyOf
      rw [hkeyOf.1, hkeyOf.2] at hcall
      simp only [Ipc.step, Ipc.alloc, hcall] at hv ⊢
      split at hv
      · rename_i hmemory
        rw [if_pos hmemory]
        split at hv
        · simp at hv
        · rename_i hleft
          rw [if_neg hleft]
          simp only [Ipc.fill, Outcome.returned.injEq] at hv
          refine ⟨id, { key := key, seq := (s.table k).seq, size := size, dest := false }, ?_,
            rfl, hv.symm⟩
          unfold Ipc.fill
          rw [setCall_table, setTable_table_self]
          exact update_self ..
      · rw [Outcome.returned.injEq] at hv
        rw [← hv] at hpos
        exact absurd hpos (by decide)
    · simp at hkeyOf
  | rmid k' ident permitted attached => simp [keyOf] at hkeyOf
  | lastDetach id => simp [keyOf] at hkeyOf

omit [DecidableEq Task] in
theorem holds_of_other_slot {s' : Ipc Task}
    (hfree : ∀ o, (s.table k').slots id ≠ .object o)
    (hslots : ∀ k0 id', ¬(k0 = k' ∧ id' = id) → (s'.table k0).slots id' = (s.table k0).slots id')
    (h : s.holds k key v) : s'.holds k key v := by
  obtain ⟨id', o, ho, hkey, hv⟩ := h
  refine ⟨id', o, ?_, hkey, hv⟩
  rw [hslots k id']
  · exact ho
  · rintro ⟨hk, hid⟩
    rw [hk, hid] at ho
    exact hfree o ho

omit [DecidableEq Task] in
theorem setTable_slots_other (s : Ipc Task)
    (hslots : tb.slots = update (s.table k).slots id slot) (k' : Kind) (id' : ℕ)
    (hne : ¬(k' = k ∧ id' = id)) :
    ((s.setTable k tb).table k').slots id' = (s.table k').slots id' := by
  by_cases hk : k' = k
  · rw [hk, setTable_table_self, hslots, update_of_ne]
    intro hid
    exact hne ⟨hk, hid⟩
  · rw [setTable_table_of_ne s hk]

theorem newObject_holds (h : s.holds k key v) (k' : Kind)
    (t : Task) (key' : ℤ) (size : ℕ) (noSpace : Bool) :
    (s.newObject k' t key' size noSpace).1.holds k key v := by
  unfold Ipc.newObject
  split
  · exact h
  · split
    · exact h
    · split
      · exact h
      · rename_i id hid
        obtain ⟨hunused, _⟩ := firstUnused_some hid
        have hfree : ∀ o, (s.table k').slots id ≠ .object o := by
          intro o
          rw [hunused]
          simp
        apply holds_of_other_slot hfree _ h
        intro k0 id' hne
        exact setTable_slots_other s rfl k0 id' hne

theorem lookup_holds (h : s.holds k key v) (k' : Kind)
    (t : Task) (key' : ℤ) (size : ℕ) (creat excl : Bool) (start : ℕ) (permitted noSpace : Bool) :
    (s.lookup k' t key' size creat excl start permitted noSpace).1.holds k key v := by
  unfold Ipc.lookup
  split
  · exact h
  · split
    · exact newObject_holds h k' t key' size noSpace
    · exact h
  · split
    · repeat' split
      all_goals exact h
    · exact h

omit [DecidableEq Task] in
theorem free_holds (h : s.holds k key v)
    (hother : ∀ o, k' = k → (s.table k).slots id = .object o →
      v ≠ (o.seq * (family k).mni + id : ℕ)) :
    (s.setTable k' ((s.table k').free id)).holds k key v := by
  obtain ⟨id', o, ho, hkey, hv⟩ := h
  refine ⟨id', o, ?_, hkey, hv⟩
  rw [setTable_slots_other s rfl]
  · exact ho
  · rintro ⟨hk, hid⟩
    rw [hid] at ho hv
    exact hother o hk.symm ho hv

theorem step_holds (hinv : Inv s) (h : s.holds k key v) (he : ¬removes k v e) :
    (s.step e).1.holds k key v := by
  cases e with
  | get k' t key' size creat excl permitted noSpace =>
    unfold Ipc.step
    dsimp only
    split
    · exact h
    · unfold Ipc.get
      split
      · exact h
      · split
        · exact newObject_holds h k' t key' size noSpace
        · exact lookup_holds h k' t key' size creat excl 0 permitted noSpace
  | look t permitted noSpace =>
    unfold Ipc.step
    dsimp only
    split
    · exact lookup_holds h _ t _ _ _ _ _ permitted noSpace
    · exact h
  | alloc t memory =>
    change (s.alloc t memory).1.holds k key v
    unfold Ipc.alloc
    split
    · rename_i k' key' size id left hcall
      have hfree : ∀ o, (s.table k').slots id ≠ .object o := by
        intro o
        rw [(hinv.reserved t k' key' size id left hcall).1]
        simp
      split
      · split
        · exact h
        · apply holds_of_other_slot hfree _ h
          intro k0 id' hne
          exact setTable_slots_other s rfl k0 id' hne
      · apply holds_of_other_slot hfree _ h
        intro k0 id' hne
        exact setTable_slots_other s rfl k0 id' hne
    · exact h
  | rmid k' ident permitted attached =>
    change (s.rmid k' ident permitted attached).1.holds k key v
    unfold Ipc.rmid
    dsimp only
    split
    · rename_i o ho
      split
      · exact h
      · rename_i hseq
        split
        · exact h
        · split
          · -- marked, but still there
            obtain ⟨id', o', ho', hkey, hv⟩ := h
            by_cases hsame : k = k' ∧ id' = ident % (family k').mni
            · rw [hsame.1] at ho' hv ⊢
              rw [hsame.2, ho, Slot.object.injEq] at ho'
              refine ⟨ident % (family k').mni, { o with dest := true }, ?_, ?_, ?_⟩
              · rw [Ipc.setSlot, setTable_table_self]
                exact update_self ..
              · rw [← hkey, ← ho']
              · rw [hv, ← ho', hsame.2]
            · refine ⟨id', o', ?_, hkey, hv⟩
              rw [Ipc.setSlot, setTable_slots_other s rfl k id' hsame]
              exact ho'
          · apply free_holds h
            intro o' hk ho' hv
            rw [← hk, ho, Slot.object.injEq] at ho'
            apply he
            refine ⟨hk, ?_⟩
            rw [hv, ← hk, ← ho', not_not.mp hseq, Nat.div_add_mod']
    · exact h
  | lastDetach id =>
    change (s.lastDetach id).1.holds k key v
    unfold Ipc.lastDetach
    split
    · rename_i o ho
      split
      · apply free_holds h
        intro o' hk ho' hv
        apply he
        refine ⟨hk.symm, ?_⟩
        have hlt := (hinv.live .shm id o ho).2
        rw [hv, ← hk]
        norm_cast
        rw [Nat.add_comm, Nat.add_mul_mod_self_right, Nat.mod_eq_of_lt hlt]
      · exact h
    · exact h

/-! ## Runs -/

def RunFinds : Ipc Task → List (Event Task) → Prop
  | _, [] => True
  | s, e :: es => StepFinds s e ∧ RunFinds (s.step e).1 es

theorem run_append (s : Ipc Task) (es es' : List (Event Task)) :
    s.run (es ++ es') = (s.run es).run es' := by
  induction es generalizing s with
  | nil => rfl
  | cons e es ih => exact ih _

variable {es : List (Event Task)}

theorem RunFinds.append {es' : List (Event Task)} (h : RunFinds s (es ++ es')) :
    RunFinds s es ∧ RunFinds (s.run es) es' := by
  induction es generalizing s with
  | nil => exact ⟨trivial, h⟩
  | cons e es ih =>
    obtain ⟨h1, h2⟩ := ih h.2
    exact ⟨⟨h.1, h1⟩, h2⟩

theorem Inv.run (h : Inv s) (hrun : RunFinds s es) : Inv (s.run es) := by
  induction es generalizing s with
  | nil => exact h
  | cons e es ih => exact ih (h.step hrun.1) hrun.2

theorem run_holds (h : Inv s) (hrun : RunFinds s es) (hholds : s.holds k key v)
    (hes : ∀ e ∈ es, ¬removes k v e) :
    (s.run es).holds k key v := by
  induction es generalizing s with
  | nil => exact hholds
  | cons e es ih =>
    exact ih (h.step hrun.1) hrun.2 (step_holds h hholds (hes e (by simp)))
      fun e' he' => hes e' (List.mem_cons_of_mem e he')

omit [DecidableEq Task] in
theorem keyOf_not_removes
    (h : keyOf s e = some (k, key)) : ¬removes k' v e := by
  cases e with
  | rmid => simp [keyOf] at h
  | lastDetach => simp [keyOf] at h
  | _ => exact id

omit [DecidableEq Task] in
theorem Inv.holds_unique (h : Inv s) {v' : ℤ}
    (hkey : key ≠ ipcPrivate) (hv : s.holds k key v) (hv' : s.holds k key v') : v = v' := by
  obtain ⟨id, o, ho, hk, heq⟩ := hv
  obtain ⟨id', o', ho', hk', heq'⟩ := hv'
  have hid := h.unique k key hkey id id' (Or.inl ⟨o, ho, hk⟩) (Or.inl ⟨o', ho', hk'⟩)
  rw [hid, ho', Slot.object.injEq] at ho
  rw [heq, heq', hid, ho]

def createAndFind : List (Event (Fin 2)) :=
  [.get .sem 0 7 1 true false true false, .alloc 0 true, .get .sem 1 7 1 true false true false]

theorem init_no_claims (k : Kind) (id : ℕ) (key : ℤ) :
    ¬(Ipc.init : Ipc (Fin 2)).claims k id key := by
  rintro (⟨o, ho, _⟩ | ⟨t, size, left, hcall⟩)
  · simp [Ipc.init] at ho
  · simp [Ipc.init] at hcall

theorem createAndFind_finds : RunFinds Ipc.init createAndFind := by
  refine ⟨?_, ?_, ?_, trivial⟩
  · intro k key start _ _ id _
    exact init_no_claims k id key
  · intro k key start hlook
    simp [lookupOf] at hlook
  · intro k key start hlook habsent
    have hone : lookupOf ((Ipc.init.step (.get .sem 0 7 1 true false true false)).1.step
        (.alloc 0 true)).1 (.get .sem (1 : Fin 2) 7 1 true false true false) =
        some (.sem, 7, 0) := by decide
    rw [hone] at hlook
    simp only [Option.some.injEq, Prod.mk.injEq] at hlook
    rw [← hlook.1, ← hlook.2.1, ← hlook.2.2] at habsent
    exact absurd habsent (by decide)

end LinuxKernel.IpcKey
