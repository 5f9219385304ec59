import LinuxKernel.BitMask
import LinuxKernel.ForkCopyModel

/-!
# What page tables hold

An entry of a page table holds a page or a slot of a swap device, and a page
directory holds its page tables too.  `lend` raises the counts of `mem_map` and
`swap_map` by what is held.  Taking a page or a slot adds to it, `free_page` and
`swap_free` take from it, in any order.
-/

namespace LinuxKernel.Paging

attribute [ext] Mm

inductive Loan where
  | frame (frame : ℕ)
  | slot (device offset : ℕ)
  deriving DecidableEq

def loans (pg : UInt32) : Multiset Loan :=
  if pg = 0 then 0
  else if present pg then {.frame (mapNr pg)}
  else if (slotOf pg).1 = Swap.shmSwpType then 0
  else {.slot (slotOf pg).1 (slotOf pg).2}

def Mm.inUse (mm : Mm) (pg : UInt32) : Bool :=
  match mm.swapMap (slotOf pg).1 (slotOf pg).2 with
  | none => false
  | some count => count ≠ 0

def Mm.childOf (mm : Mm) (pg : UInt32) : UInt32 :=
  if present pg then protect pg
  else if (slotOf pg).1 = Swap.shmSwpType then pg
  else if mm.inUse pg then pg else 0

def Mm.parentOf (mm : Mm) (pg : UInt32) : UInt32 :=
  if present pg ∧ reserved (mm.memMap (mapNr pg)) = false then protect pg else pg

def Mm.lend (mm : Mm) (s : Multiset Loan) : Mm :=
  { mm with
    memMap := fun f =>
      if reserved (mm.memMap f) then mm.memMap f
      else mm.memMap f + UInt16.ofNat (s.count (.frame f))
    swapMap := fun d o => (mm.swapMap d o).map (· + UInt8.ofNat (s.count (.slot d o))) }

/-- No count runs over with `s` on top, and all of it can be given back. -/
structure Mm.Room (mm : Mm) (s : Multiset Loan) : Prop where
  below : ∀ f, .frame f ∈ s → f * pageSize < mm.highMemory
  frame : ∀ f, reserved (mm.memMap f) = false → (mm.memMap f).toNat + s.count (.frame f) < 0x8000
  used : ∀ d o, .slot d o ∈ s → ∃ c ≠ 0, mm.swapMap d o = some c
  slot : ∀ d o c, mm.swapMap d o = some c → c ≠ 0 → c.toNat + s.count (.slot d o) < 256

variable {mm : Mm} {s t : Multiset Loan} {pg : UInt32} {frame : ℕ}

theorem Mm.Room.mono (h : mm.Room t) (hle : s ≤ t) : mm.Room s where
  below f hf := h.below f (Multiset.mem_of_le hle hf)
  frame f hf :=
    lt_of_le_of_lt (Nat.add_le_add_left (Multiset.count_le_of_le _ hle) _) (h.frame f hf)
  used d o ho := h.used d o (Multiset.mem_of_le hle ho)
  slot d o c hc h0 :=
    lt_of_le_of_lt (Nat.add_le_add_left (Multiset.count_le_of_le _ hle) _) (h.slot d o c hc h0)

@[simp] theorem lend_dir : (mm.lend s).dir = mm.dir := rfl

@[simp] theorem lend_highMemory : (mm.lend s).highMemory = mm.highMemory := rfl

@[simp] theorem lend_memory : (mm.lend s).memory = mm.memory := rfl

theorem lend_zero : mm.lend 0 = mm := by
  apply Mm.ext
  · rfl
  · funext f
    simp [Mm.lend]
  · rfl
  · funext d o
    simp [Mm.lend]
  · rfl
  · rfl

theorem reserved_eq_false_iff (count : UInt16) : reserved count = false ↔ count.toNat < 0x8000 := by
  rw [← BitMask.and_top_eq_zero_iff]
  unfold reserved mapPageReserved
  rw [decide_eq_false_iff_not, not_not]

theorem toNat_add_ofNat {c : UInt16} {n : ℕ} (h : c.toNat + n < 0x8000) :
    (c + UInt16.ofNat n).toNat = c.toNat + n := by
  rw [UInt16.toNat_add, UInt16.toNat_ofNat', Nat.mod_eq_of_lt (a := n) (by omega),
    Nat.mod_eq_of_lt (by omega)]

theorem reserved_lend (h : mm.Room s) (f : ℕ) :
    reserved ((mm.lend s).memMap f) = reserved (mm.memMap f) := by
  cases hreserved : reserved (mm.memMap f) with
  | true => simp [Mm.lend, hreserved]
  | false =>
    have hroom := h.frame f hreserved
    simp only [Mm.lend, hreserved]
    rw [reserved_eq_false_iff]
    simpa [toNat_add_ofNat hroom] using hroom

theorem lend_memMap (h : reserved (mm.memMap frame) = false) :
    (mm.lend s).memMap frame = mm.memMap frame + UInt16.ofNat (s.count (.frame frame)) := by
  simp [Mm.lend, h]

/-! ## Taking -/

theorem lend_add_frame (hreserved : reserved (mm.memMap frame) = false) :
    { mm.lend s with
      memMap := Function.update (mm.lend s).memMap frame ((mm.lend s).memMap frame + 1) } =
      mm.lend (s + {.frame frame}) := by
  apply Mm.ext
  · rfl
  · funext f
    by_cases hf : f = frame
    · subst hf
      simp [Mm.lend, hreserved, UInt16.add_assoc, UInt16.ofNat_add]
    · simp [Mm.lend, hf]
  · rfl
  · funext d o
    simp [Mm.lend]
  · rfl
  · rfl

theorem lend_add_reserved (hreserved : reserved (mm.memMap frame) = true) :
    mm.lend (s + {.frame frame}) = mm.lend s := by
  apply Mm.ext
  · rfl
  · funext f
    by_cases hf : f = frame
    · subst hf
      simp [Mm.lend, hreserved]
    · simp [Mm.lend, hf]
  · rfl
  · funext d o
    simp [Mm.lend]
  · rfl
  · rfl

theorem getFreePage_lend {rest : List ℕ} (hmem : mm.memory = frame :: rest)
    (hfree : mm.memMap frame = 0) (hs : Loan.frame frame ∉ s) :
    (mm.lend s).getFreePage =
      some (({ mm with memory := rest } : Mm).lend (s + {.frame frame}), frame) := by
  have hreserved : reserved (mm.memMap frame) = false := by
    rw [hfree]
    decide
  have hcount : s.count (Loan.frame frame) = 0 := Multiset.count_eq_zero.mpr hs
  have hone : (mm.lend s).memMap frame + 1 = 1 := by
    rw [lend_memMap hreserved, hfree, hcount]
    decide
  have hadd := lend_add_frame (s := s) hreserved
  rw [hone] at hadd
  unfold Mm.getFreePage
  rw [lend_memory, hmem]
  have hsame : ({ mm with memory := rest } : Mm).lend (s + {.frame frame}) =
      { mm.lend (s + {.frame frame}) with memory := rest } := rfl
  rw [hsame, ← hadd]

theorem lend_swapMap {d o : ℕ} {c : UInt8} (h : mm.swapMap d o = some c) :
    (mm.lend s).swapMap d o = some (c + UInt8.ofNat (s.count (.slot d o))) := by
  simp [Mm.lend, h]

theorem setSlot_setSlot (slot : ℕ × ℕ) (c c' : UInt8) :
    (mm.setSlot slot c).setSlot slot c' = mm.setSlot slot c' := by
  simp [Mm.setSlot]

section
variable {slot : ℕ × ℕ} {c : UInt8} (h : mm.swapMap slot.1 slot.2 = some c)
include h

theorem setSlot_self : mm.setSlot slot c = mm := by
  unfold Mm.setSlot
  rw [← h, Function.update_eq_self, Function.update_eq_self]

theorem lend_add_slot :
    (mm.lend s).setSlot slot (c + UInt8.ofNat (s.count (.slot slot.1 slot.2)) + 1) =
      mm.lend (s + {.slot slot.1 slot.2}) := by
  apply Mm.ext
  · rfl
  · funext f
    simp [Mm.lend, Mm.setSlot]
  · rfl
  · funext d o
    by_cases hd : d = slot.1
    · subst hd
      by_cases ho : o = slot.2
      · subst ho
        simp [Mm.lend, Mm.setSlot, h, UInt8.add_assoc, UInt8.ofNat_add]
      · simp [Mm.lend, Mm.setSlot, ho]
    · simp [Mm.lend, Mm.setSlot, hd]
  · rfl
  · rfl

end

theorem add_ofNat_ne_zero {c : UInt8} {n : ℕ} (h0 : c ≠ 0) (h : c.toNat + n < 256) :
    c + UInt8.ofNat n ≠ 0 := by
  have hc : c.toNat ≠ 0 := fun hc => h0 (UInt8.toNat_inj.mp hc)
  rw [ne_eq, ← UInt8.toNat_inj, UInt8.toNat_add, UInt8.toNat_ofNat',
    Nat.mod_eq_of_lt (a := n) (by omega), Nat.mod_eq_of_lt (by omega), UInt8.toNat_zero]
  omega

theorem inUse_eq {c : UInt8} (h : mm.swapMap (slotOf pg).1 (slotOf pg).2 = some c) :
    mm.inUse pg = decide (c ≠ 0) := by
  simp [Mm.inUse, h]

theorem swapDuplicate_lend (h0 : pg ≠ 0) (hpresent : present pg = false)
    (h : mm.Room (s + loans (mm.childOf pg))) :
    (mm.lend s).swapDuplicate pg = (mm.lend (s + loans (mm.childOf pg)), mm.childOf pg) := by
  unfold Mm.swapDuplicate
  rw [if_neg h0]
  by_cases hshm : (slotOf pg).1 = Swap.shmSwpType
  · have hchild : mm.childOf pg = pg := by simp [Mm.childOf, hpresent, hshm]
    have hloan : loans pg = 0 := by simp [loans, hpresent, hshm]
    rw [if_pos hshm, hchild, hloan, add_zero]
  rw [if_neg hshm]
  cases hused : mm.inUse pg with
  | false =>
    have hchild : mm.childOf pg = 0 := by simp [Mm.childOf, hpresent, hshm, hused]
    have hloan : loans 0 = 0 := rfl
    rw [hchild, hloan, add_zero] at h ⊢
    cases hc : mm.swapMap (slotOf pg).1 (slotOf pg).2 with
    | none => simp [Mm.lend, hc]
    | some c =>
      -- nothing is held of a slot that is not in use
      have hzero : c = 0 := by simpa [inUse_eq hc] using hused
      have hcount : s.count (Loan.slot (slotOf pg).1 (slotOf pg).2) = 0 := by
        refine Multiset.count_eq_zero.mpr fun hmem => ?_
        obtain ⟨c', hc', hsame⟩ := h.used _ _ hmem
        exact hc' (by simpa [hc, hzero] using hsame.symm)
      rw [lend_swapMap hc, hcount, hzero]
      rfl
  | true =>
    have hchild : mm.childOf pg = pg := by simp [Mm.childOf, hpresent, hused]
    have hloan : loans pg = {.slot (slotOf pg).1 (slotOf pg).2} := by
      simp [loans, h0, hpresent, hshm]
    rw [hchild, hloan] at h ⊢
    obtain ⟨c, hc0, hc⟩ := h.used (slotOf pg).1 (slotOf pg).2 (by simp)
    have hroom := h.slot _ _ c hc hc0
    rw [Multiset.count_add, Multiset.count_singleton_self] at hroom
    have hnonzero : c + UInt8.ofNat (s.count (.slot (slotOf pg).1 (slotOf pg).2)) ≠ 0 :=
      add_ofNat_ne_zero hc0 (by omega)
    rw [lend_swapMap hc]
    simp only [hnonzero, if_false]
    rw [lend_add_slot hc]

theorem freePage_lend (h : mm.Room (s + {.frame frame})) :
    (mm.lend (s + {.frame frame})).freePage frame = mm.lend s := by
  have hbelow : frame * pageSize < mm.highMemory := h.below frame (by simp)
  cases hreserved : reserved (mm.memMap frame) with
  | true =>
    rw [lend_add_reserved hreserved]
    have hkept : (mm.lend s).memMap frame = mm.memMap frame := by simp [Mm.lend, hreserved]
    unfold Mm.freePage
    rw [hkept, hreserved]
    simp
  | false =>
    have hroom := h.frame frame hreserved
    have hcount : (mm.lend (s + {.frame frame})).memMap frame = (mm.lend s).memMap frame + 1 := by
      rw [← lend_add_frame hreserved]
      simp
    have hnonzero : (mm.lend (s + {.frame frame})).memMap frame ≠ 0 := by
      rw [lend_memMap hreserved, ne_eq, ← UInt16.toNat_inj, toNat_add_ofNat (by simpa using hroom)]
      simp
    have hnot : reserved ((mm.lend (s + {.frame frame})).memMap frame) = false := by
      rw [reserved_lend h, hreserved]
    unfold Mm.freePage
    rw [lend_highMemory, if_pos hbelow, if_pos hnonzero, hnot, hcount]
    rw [← lend_add_frame hreserved]
    simp
    rfl

theorem swapFree_lend (h0 : pg ≠ 0) (hshm : (slotOf pg).1 ≠ Swap.shmSwpType)
    (h : mm.Room (s + {.slot (slotOf pg).1 (slotOf pg).2})) :
    (mm.lend (s + {.slot (slotOf pg).1 (slotOf pg).2})).swapFree pg = mm.lend s := by
  obtain ⟨c, hc0, hc⟩ := h.used (slotOf pg).1 (slotOf pg).2 (by simp)
  have hroom := h.slot _ _ c hc hc0
  rw [Multiset.count_add, Multiset.count_singleton_self, ← add_assoc] at hroom
  have hnow := lend_swapMap (s := s + {.slot (slotOf pg).1 (slotOf pg).2}) hc
  rw [Multiset.count_add, Multiset.count_singleton_self] at hnow
  have hnonzero : c + UInt8.ofNat (s.count (.slot (slotOf pg).1 (slotOf pg).2) + 1) ≠ 0 := by
    exact add_ofNat_ne_zero hc0 (by omega)
  unfold Mm.swapFree
  rw [if_neg h0, if_neg hshm, hnow]
  simp only [hnonzero, if_false]
  rw [← lend_add_slot hc, UInt8.ofNat_add, ← UInt8.add_assoc]
  change Mm.setSlot _ _ (c + _ + 1 - 1) = _
  rw [UInt8.add_sub_cancel, setSlot_setSlot, setSlot_self (lend_swapMap hc)]

theorem dropPage_lend (h0 : pg ≠ 0) (h : mm.Room (s + loans pg)) :
    (mm.lend (s + loans pg)).dropPage pg = mm.lend s := by
  unfold Mm.dropPage
  cases hpresent : present pg with
  | true =>
    have hloan : loans pg = {.frame (mapNr pg)} := by simp [loans, h0, hpresent]
    rw [hloan] at h ⊢
    exact freePage_lend h
  | false =>
    by_cases hshm : (slotOf pg).1 = Swap.shmSwpType
    · have hloan : loans pg = 0 := by simp [loans, hpresent, hshm]
      rw [hloan]
      simp [Mm.swapFree, hshm]
    · have hloan : loans pg = {.slot (slotOf pg).1 (slotOf pg).2} := by
        simp [loans, h0, hpresent, hshm]
      rw [hloan] at h ⊢
      exact swapFree_lend h0 hshm h

end LinuxKernel.Paging
