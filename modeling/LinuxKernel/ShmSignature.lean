import LinuxKernel.BitMask
import LinuxKernel.ShmAttachRanges
import LinuxKernel.ShmSwapModel

/-!
# Signatures of shared pages

`sys_shmat` and `shm_map` put a word into the entry of each page of an attachment, `shm_swap`
puts it back when it takes the page away, and `swap_in` and `shm_no_page` take it apart.
-/

namespace LinuxKernel.ShmSignature

open Paging ShmAttach
open ShmSwap (Segments shmIdShift shmIdMask shmIdxShift)

def shmIdxMask : UInt32 := 0x7fff

/-- What `shm_no_page` finds in an entry: something to complain about, or the page to get. -/
inductive NoPage where
  | idTooBig
  | invalid
  | idxTooLarge
  | page (id idx : ℕ) (readOnly : Bool)

def shmNoPage (s : Segments) (code : UInt32) : NoPage :=
  let id := (code >>> shmIdShift &&& shmIdMask).toNat
  if s.maxShmid < id then .idTooBig
  else
    match s.slot id with
    | .unused => .invalid
    | .noid => .invalid
    | .seg shp =>
      let idx := (code >>> shmIdxShift &&& shmIdxMask).toNat
      if shp.shmNpages ≤ idx then .idxTooLarge else .page id idx (code &&& shmReadOnly ≠ 0)

inductive SwapIn where
  | present
  | empty
  | shmNoPage (found : NoPage)
  | readSwapPage (type offset : ℕ)

def swapIn (s : Segments) (entry : UInt32) : SwapIn :=
  if Paging.present entry then .present
  else if entry = 0 then .empty
  else if (slotOf entry).1 = Swap.shmSwpType then .shmNoPage (shmNoPage s entry)
  else .readSwapPage (slotOf entry).1 (slotOf entry).2

/-- The entry stands for the page `idx` of the segment `id`, wherever it is looked at. -/
structure Decodes (entry : UInt32) (id idx : ℕ) (readOnly : Bool) : Prop where
  absent : present entry = false
  notSwap : ∀ type < Swap.maxSwapfiles, (slotOf entry).1 ≠ type
  swapIn : ∀ (s : Segments) (shp : ShmSwap.ShmidDs), s.slot id = .seg shp → idx < shp.shmNpages →
    swapIn s entry = .shmNoPage (.page id idx readOnly)

/-! ## The fields of the word -/

variable {id idx : ℕ} {readOnly : Bool}

def signature (id idx : ℕ) (readOnly : Bool) : UInt32 :=
  shmSgn id readOnly + UInt32.ofNat idx * shmIdxStep

theorem shmSgn_toNat : ∀ (id : Fin 128) (readOnly : Bool),
    (shmSgn id readOnly).toNat = 130 + 256 * id + if readOnly then 2 ^ 31 else 0 := by
  decide +kernel

section
variable (hid : id < 128) (hidx : idx < 32768)
include hid hidx

theorem signature_toNat (readOnly : Bool) :
    (signature id idx readOnly).toNat =
      130 + 256 * id + 32768 * idx + if readOnly then 2 ^ 31 else 0 := by
  have hsgn := shmSgn_toNat ⟨id, hid⟩ readOnly
  have hstep : shmIdxStep.toNat = 32768 := rfl
  unfold signature
  rw [UInt32.toNat_add, UInt32.toNat_mul, hsgn, hstep, UInt32.toNat_ofNat']
  dsimp only
  split <;> omega

omit hid hidx in
theorem shifted_mask (code shift mask : UInt32) (bits : ℕ) (hmask : mask.toNat = 2 ^ bits - 1) :
    (code >>> shift &&& mask).toNat = code.toNat / 2 ^ (shift.toNat % 32) % 2 ^ bits := by
  rw [UInt32.toNat_and, UInt32.toNat_shiftRight, hmask, Nat.and_two_pow_sub_one_eq_mod,
    Nat.shiftRight_eq_div_pow]

theorem slotOf_signature (readOnly : Bool) :
    (slotOf (signature id idx readOnly)).1 = Swap.shmSwpType := by
  have hlow : (signature id idx readOnly).toNat % 2 ^ 8 = 130 := by
    rw [signature_toNat hid hidx readOnly]
    split <;> omega
  have hmask : 0xfe = (2 ^ 8 - 1) &&& 0xfe := by decide
  unfold slotOf Swap.swpType
  rw [hmask, ← Nat.and_assoc, Nat.and_two_pow_sub_one_eq_mod, hlow]
  rfl

theorem signature_decodes : Decodes (signature id idx readOnly) id idx readOnly := by
  have hword := signature_toNat hid hidx readOnly
  have htype := slotOf_signature hid hidx readOnly
  generalize signature id idx readOnly = code at hword htype
  have hfields : code.toNat % 2 = 0 ∧ code.toNat / 256 % 128 = id ∧
      code.toNat / 32768 % 32768 = idx ∧ (code.toNat / 2 ^ 31 % 2 = 1 ↔ readOnly = true) := by
    cases readOnly with
    | false =>
      rw [if_neg Bool.false_ne_true] at hword
      exact ⟨by omega, by omega, by omega, iff_of_false (by omega) Bool.false_ne_true⟩
    | true =>
      rw [if_pos rfl] at hword
      exact ⟨by omega, by omega, by omega, iff_of_true (by omega) rfl⟩
  obtain ⟨heven, hidField, hidxField, hflag⟩ := hfields
  have habsent : present code = false := by
    have hbit := shifted_mask code 0 1 1 rfl
    rw [UInt32.shiftRight_zero] at hbit
    rw [Paging.present, decide_eq_false_iff_not, not_not, ← UInt32.toNat_inj]
    exact hbit.trans ((congrArg (· % 2) (Nat.div_one _)).trans heven)
  refine ⟨habsent, ?_, fun s shp hslot hlt => ?_⟩
  · intro type hlt heq
    rw [htype] at heq
    exact absurd hlt (heq ▸ by decide)
  · have hid' := (shifted_mask code shmIdShift shmIdMask 7 rfl).trans hidField
    have hidx' := (shifted_mask code shmIdxShift shmIdxMask 15 rfl).trans hidxField
    have hflag' : decide (code &&& shmReadOnly ≠ 0) = readOnly := by
      have hbit := BitMask.and_two_pow_ne_zero_iff code.toNat 31
      have hne : code &&& shmReadOnly ≠ 0 ↔ code.toNat &&& 2 ^ 31 ≠ 0 := by
        rw [Ne, ← UInt32.toNat_inj, UInt32.toNat_and]
        rfl
      rw [Bool.eq_iff_iff, decide_eq_true_iff]
      exact hne.trans (hbit.trans hflag)
    have hne : code ≠ 0 := by
      rintro rfl
      exact absurd htype (by decide)
    unfold ShmSignature.swapIn shmNoPage
    rw [habsent, htype, if_neg (by decide), if_neg hne, if_pos rfl]
    dsimp only
    rw [hid', hidx', hflag', if_neg (s.used id shp hslot).not_gt, hslot]
    dsimp only
    rw [if_neg hlt.not_ge]

/-- `shm_swap` puts the index into the word, `shm_map` counts it up. -/
theorem or_index :
    shmSgn id readOnly ||| (UInt32.ofNat idx <<< shmIdxShift) = signature id idx readOnly := by
  have hshift : (UInt32.ofNat idx <<< shmIdxShift).toNat = 2 ^ 15 * idx := by
    rw [UInt32.toNat_shiftLeft, UInt32.toNat_ofNat', Nat.mod_eq_of_lt (show idx < 2 ^ 32 by omega)]
    change idx <<< 15 % 2 ^ 32 = _
    rw [Nat.shiftLeft_eq]
    omega
  have hsgn := shmSgn_toNat ⟨id, hid⟩ false
  have hplain : (shmSgn id false ||| (UInt32.ofNat idx <<< shmIdxShift)).toNat =
      130 + 256 * id + 32768 * idx := by
    simp only [Bool.false_eq_true, if_false] at hsgn
    rw [UInt32.toNat_or, hshift, Nat.or_comm, ← Nat.two_pow_add_eq_or_of_lt (by omega), hsgn]
    omega
  rw [← UInt32.toNat_inj, signature_toNat hid hidx]
  cases readOnly with
  | false => exact hplain
  | true =>
    have hsplit : shmSgn id true = shmReadOnly ||| shmSgn id false := by
      unfold shmSgn
      simp [UInt32.or_comm]
    have hflag : shmReadOnly.toNat = 2 ^ 31 * 1 := rfl
    rw [hsplit, UInt32.or_assoc, UInt32.toNat_or, hplain, hflag,
      ← Nat.two_pow_add_eq_or_of_lt (by omega), if_pos rfl]
    omega

end

/-- Every word that `shm_map` or `shm_swap` writes for a page is read back as that page, and an
attach writes such a word for each of its pages. -/
theorem signatures_round_trip (hid : id < 128) (hidx : idx < 0x3fa000 / pageSize) :
    Decodes (shmSgn id readOnly + UInt32.ofNat idx * shmIdxStep) id idx readOnly ∧
      Decodes (shmSgn id readOnly ||| (UInt32.ofNat idx <<< shmIdxShift)) id idx readOnly ∧
        ∀ (p : Process) (seg : ShmAttach.Segment) (shmaddr : UInt32) (rdonly rnd remap permitted
          current memory : Bool), ∃ r,
          p.shmat seg shmaddr rdonly rnd remap permitted current memory = some r ∧
            (r.2 = 0 → ∃ shmd, r.1.shm = shmd :: p.shm ∧ ∀ k < seg.shmNpages,
              Decodes (r.1.mm.entry (shmd.lo + k)) seg.id k rdonly) := by
  have hlt : idx < 32768 := by
    unfold pageSize at hidx
    omega
  refine ⟨signature_decodes hid hlt, or_index hid hlt ▸ signature_decodes hid hlt, ?_⟩
  intro p seg shmaddr rdonly rnd remap permitted current memory
  obtain ⟨r, hr, hshmat⟩ := shmat_spec p seg shmaddr rdonly rnd remap permitted current memory
  refine ⟨r, hr, fun hok => ?_⟩
  cases hshmat with
  | refused error shm entry => exact absurd hok error
  | attached shmd ok shm wf seg_eq shmatAddr accepts signs =>
    refine ⟨shmd, shm, fun k hk => ?_⟩
    rw [signs.sign k hk]
    exact signature_decodes seg.id_lt (by have := seg.npages_le; omega)

theorem signatures_round_trip_lastPage :
    Decodes (shmSgn 127 true + UInt32.ofNat 1017 * shmIdxStep) 127 1017 true :=
  (signatures_round_trip (by decide) (by decide)).1

end LinuxKernel.ShmSignature
