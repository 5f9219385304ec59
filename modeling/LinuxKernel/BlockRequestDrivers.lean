import LinuxKernel.BlockRequestInvariant

/-!
# The steps of drivers

A driver is done with the first buffer of a request, or takes a request off its queue.
-/

namespace LinuxKernel.BlockRequest
open Function

open LinkChain

variable {k : Setup} {s : Queues} {g : Ghost} {p b i m : ℕ}

def AdvanceOk (k : Setup) (req : Request) (uptodate : Bool) (done : ℕ) : Prop :=
  (req.advance k uptodate done).sector = req.sector + BitVec.ofNat 32 req.currentNrSectors ∧
    (req.advance k uptodate done).nrSectors = req.nrSectors - req.currentNrSectors

theorem advanceOk_true (req : Request) (done : ℕ) : AdvanceOk k req true done := ⟨rfl, rfl⟩

/-! ## Errors -/

variable {j : ℕ}

theorem toNat_and_not_mask (hj : j < 32) (x : BitVec 32) :
    (x &&& ~~~(BitVec.ofNat 32 (2 ^ j) - 1)).toNat = x.toNat / 2 ^ j * 2 ^ j := by
  have hpow : 2 ^ j < 2 ^ 32 := Nat.pow_lt_pow_right (by decide) hj
  have hpos : 0 < 2 ^ j := Nat.two_pow_pos j
  have hmask : (BitVec.ofNat 32 (2 ^ j) - 1).toNat = 2 ^ j - 1 := by
    have hone : (1 : BitVec 32).toNat = 1 := rfl
    rw [BitVec.toNat_sub, BitVec.toNat_ofNat, Nat.mod_eq_of_lt hpow, hone]
    omega
  generalize BitVec.ofNat 32 (2 ^ j) - 1 = mask at hmask
  have hdisjoint : (x &&& ~~~mask) &&& (x &&& mask) = 0#32 := by
    ext i
    simp only [BitVec.getElem_and, BitVec.getElem_not, BitVec.getElem_zero]
    cases x[i] <;> cases mask[i] <;> rfl
  have hjoin : (x &&& ~~~mask) ||| (x &&& mask) = x := by
    ext i
    simp only [BitVec.getElem_or, BitVec.getElem_and, BitVec.getElem_not]
    cases x[i] <;> cases mask[i] <;> rfl
  have hsum := BitVec.toNat_add_of_and_eq_zero hdisjoint
  rw [BitVec.add_eq_or_of_and_eq_zero _ _ hdisjoint, hjoin] at hsum
  have hlow : (x &&& mask).toNat = x.toNat % 2 ^ j := by
    rw [BitVec.toNat_and, hmask, Nat.and_two_pow_sub_one_eq_mod]
  have hdiv := Nat.div_add_mod' x.toNat (2 ^ j)
  omega

theorem add_and_not_mask {r : ℕ} (hj : j < 32) {x : BitVec 32} (hx : 2 ^ j ∣ x.toNat)
    (hr : r < 2 ^ j) :
    (x + BitVec.ofNat 32 r) &&& ~~~(BitVec.ofNat 32 (2 ^ j) - 1) = x := by
  obtain ⟨a, ha⟩ := hx
  have hword : 2 ^ j * 2 ^ (32 - j) = 2 ^ 32 := by
    rw [← Nat.pow_add]
    congr 1
    omega
  -- there is room for a whole block after a multiple of its size
  have hroom : 2 ^ j * (a + 1) ≤ 2 ^ 32 := by
    have hlt := x.isLt
    rw [ha, ← hword] at hlt
    rw [← hword]
    exact Nat.mul_le_mul_left _ (Nat.lt_of_mul_lt_mul_left hlt)
  have hsum : (x + BitVec.ofNat 32 r).toNat = 2 ^ j * a + r := by
    rw [Nat.mul_succ] at hroom
    rw [BitVec.toNat_add, BitVec.toNat_ofNat, ha]
    rw [Nat.mod_eq_of_lt (a := r) (by omega), Nat.mod_eq_of_lt (by omega)]
  apply BitVec.eq_of_toNat_eq
  rw [toNat_and_not_mask hj, hsum, ha, Nat.mul_add_div (Nat.two_pow_pos j),
    Nat.div_eq_of_lt hr, Nat.add_zero, Nat.mul_comm]

/-- An error that `end_request` steps over: it comes in the last two sectors of a block of
`2 ^ j` sectors, and the request is made of such blocks. -/
structure ErrorOk (k : Setup) (req : Request) (done : ℕ) : Prop where
  size : k.correctSize (req.dev.getD 0) / 512 = req.currentNrSectors
  power : ∃ j < 32, 0 < j ∧ req.currentNrSectors = 2 ^ j
  inBlock : done < req.currentNrSectors
  lastTwo : req.currentNrSectors ≤ done + BLOCK_SIZE / 512
  whole : req.currentNrSectors ∣ req.nrSectors
  inWord : req.nrSectors < 2 ^ 32

instance (k : Setup) (req : Request) (done : ℕ) : Decidable (ErrorOk k req done) :=
  decidable_of_iff
    (k.correctSize (req.dev.getD 0) / 512 = req.currentNrSectors ∧
      (∃ j < 32, 0 < j ∧ req.currentNrSectors = 2 ^ j) ∧ done < req.currentNrSectors ∧
        req.currentNrSectors ≤ done + BLOCK_SIZE / 512 ∧
          req.currentNrSectors ∣ req.nrSectors ∧ req.nrSectors < 2 ^ 32)
    ⟨fun ⟨h1, h2, h3, h4, h5, h6⟩ => ⟨h1, h2, h3, h4, h5, h6⟩,
      fun h => ⟨h.size, h.power, h.inBlock, h.lastTwo, h.whole, h.inWord⟩⟩

section ErrorOk

variable {req : Request} {done : ℕ}

theorem ErrorOk.sector (h : ErrorOk k req done)
    (hstart : req.currentNrSectors ∣ req.sector.toNat) :
    (req.advance k false done).sector = req.sector + BitVec.ofNat 32 req.currentNrSectors := by
  obtain ⟨j, hj, hpos, hn⟩ := h.power
  have hlast := h.lastTwo
  have hin := h.inBlock
  have htwo : BLOCK_SIZE / 512 = 2 := rfl
  have hmask : k.sectorMask (req.dev.getD 0) = BitVec.ofNat 32 (2 ^ j) - 1 := by
    rw [Setup.sectorMask, h.size, hn]
  change (req.sector + BitVec.ofNat 32 done + BitVec.ofNat 32 (BLOCK_SIZE / 512)) &&&
    ~~~k.sectorMask (req.dev.getD 0) = _
  rw [hn] at hstart hlast hin ⊢
  rw [htwo] at hlast ⊢
  have hsmall : 2 ≤ 2 ^ j := Nat.le_self_pow (by omega) 2
  have hnext : 2 ^ j ∣ (req.sector + BitVec.ofNat 32 (2 ^ j)).toNat := by
    have hword : 2 ^ j ∣ 2 ^ 32 := Nat.pow_dvd_pow 2 hj.le
    rw [BitVec.toNat_add, Nat.dvd_mod_iff hword, BitVec.toNat_ofNat]
    exact Nat.dvd_add hstart ((Nat.dvd_mod_iff hword).2 dvd_rfl)
  have hsum : req.sector + BitVec.ofNat 32 done + BitVec.ofNat 32 2 =
      req.sector + BitVec.ofNat 32 (2 ^ j) + BitVec.ofNat 32 (done + 2 - 2 ^ j) := by
    rw [BitVec.add_assoc, BitVec.add_assoc, BitVec.ofNat_add_ofNat, BitVec.ofNat_add_ofNat,
      Nat.add_sub_cancel' hlast]
  rw [hsum, hmask]
  exact add_and_not_mask hj hnext (by omega)

theorem ErrorOk.nrSectors (h : ErrorOk k req done) (hpos : 0 < req.nrSectors) :
    (req.advance k false done).nrSectors = req.nrSectors - req.currentNrSectors := by
  obtain ⟨j, hj, -, hn⟩ := h.power
  have hword := h.inWord
  have hin := h.inBlock
  have hwhole := h.whole
  have hmask : k.sectorMask (req.dev.getD 0) = BitVec.ofNat 32 (2 ^ j) - 1 := by
    rw [Setup.sectorMask, h.size, hn]
  change (BitVec.ofNat 32 (req.nrSectors - done - 1) &&&
    ~~~k.sectorMask (req.dev.getD 0)).toNat = _
  rw [hn] at hwhole hin ⊢
  have hle := Nat.le_of_dvd hpos hwhole
  have hsplit : req.nrSectors - done - 1 = (req.nrSectors - 2 ^ j) + (2 ^ j - 1 - done) := by
    omega
  have hrest : (BitVec.ofNat 32 (req.nrSectors - 2 ^ j)).toNat = req.nrSectors - 2 ^ j := by
    rw [BitVec.toNat_ofNat, Nat.mod_eq_of_lt (by omega)]
  rw [hsplit, ← BitVec.ofNat_add_ofNat, hmask, add_and_not_mask hj _ (by omega), hrest]
  rw [hrest]
  exact Nat.dvd_sub hwhole dvd_rfl

theorem BufferHead.count_dvd_sector {bh : BufferHead} (hj : j < 32)
    (hcount : bh.count = 2 ^ j) : bh.count ∣ bh.sector.toNat := by
  have hword : 2 ^ j ∣ 2 ^ 32 := Nat.pow_dvd_pow 2 hj.le
  rw [BufferHead.sector, hcount, BitVec.toNat_mul, Nat.dvd_mod_iff hword, BitVec.toNat_ofNat]
  exact ((Nat.dvd_mod_iff hword).2 dvd_rfl).mul_left _

theorem RequestOk.advanceOk {bufs : ℕ → Buf} {l : List ℕ} (h : RequestOk k bufs req l)
    {uptodate : Bool} (herror : uptodate = false → ErrorOk k req done) :
    AdvanceOk k req uptodate done := by
  cases uptodate with
  | true => exact advanceOk_true req done
  | false =>
    have hok := herror rfl
    obtain ⟨j, hj, -, hn⟩ := hok.power
    obtain ⟨rest, rfl, -, -⟩ := h.bh
    have hcurrent := h.current
    refine ⟨hok.sector ?_, hok.nrSectors ?_⟩
    · rw [← h.covers.1, hcurrent]
      exact BufferHead.count_dvd_sector hj (hcurrent.symm.trans hn)
    · have hpos := Nat.two_pow_pos j
      rw [h.total, Setup.total, List.map_cons, List.sum_cons]
      omega

end ErrorOk

/-! ## The first buffer of a request -/

theorem advance_eq (req : Request) (uptodate : Bool) (done : ℕ) :
    req.advance k uptodate done =
      { req with
        sector := (req.advance k uptodate done).sector
        nrSectors := (req.advance k uptodate done).nrSectors } := by
  cases uptodate <;> rfl

theorem advance_bh (req : Request) (uptodate : Bool) (done : ℕ) :
    (req.advance k uptodate done).bh = req.bh := by
  rw [advance_eq]

variable {c : ℕ}

def Queues.endFirst (s : Queues) (k : Setup) (i : ℕ) (uptodate advanced : Bool) (done : ℕ) :
    Queues :=
  (s.setReq i fun req => req.advance k advanced done).endBuffer k i uptodate

section EndFirst

variable {uptodate advanced : Bool} {done : ℕ} {req : Request} {l : List ℕ}

theorem endFirst_bufs (k : Setup) (uptodate advanced : Bool) (done : ℕ)
    (hbh : (s.reqs i).bh = some b) :
    (s.endFirst k i uptodate advanced done).bufs = update s.bufs b
      { s.bufs b with reqnext := none, uptodate := uptodate, lock := false } := by
  unfold Queues.endFirst Queues.endBuffer
  rw [setReq_self, advance_bh, hbh]
  dsimp only
  split
  · rfl
  · rfl

theorem endFirst_queue : (s.endFirst k i uptodate advanced done).queue = s.queue := by
  unfold Queues.endFirst Queues.endBuffer
  split
  · rfl
  · dsimp only
    split
    · rfl
    · rfl

theorem endFirst_procs : (s.endFirst k i uptodate advanced done).procs = s.procs := by
  unfold Queues.endFirst Queues.endBuffer
  split
  · rfl
  · dsimp only
    split
    · rfl
    · rfl

theorem endFirst_of_ne (hj : j ≠ i) :
    (s.endFirst k i uptodate advanced done).reqs j = s.reqs j := by
  unfold Queues.endFirst Queues.endBuffer
  split
  · exact setReq_of_ne hj
  · dsimp only
    split
    · simp [setReq_of_ne hj]
    · simp [setReq_of_ne hj]

theorem endFirst_last (hbh : (s.reqs i).bh = some b) (hnext : (s.bufs b).reqnext = none) :
    ((s.endFirst k i uptodate advanced done).reqs i).bh = none := by
  unfold Queues.endFirst Queues.endBuffer
  rw [setReq_self, advance_bh, hbh]
  dsimp only
  rw [setReq_bufs, hnext]
  simp

theorem endFirst_more (hbh : (s.reqs i).bh = some b)
    (hnext : (s.bufs b).reqnext = some c) :
    (s.endFirst k i uptodate advanced done).reqs i =
      { (s.reqs i).advance k advanced done with
        bh := some c, currentNrSectors := (k.head c).count,
        nrSectors := max ((s.reqs i).advance k advanced done).nrSectors (k.head c).count,
        buffer := c } := by
  unfold Queues.endFirst Queues.endBuffer
  rw [setReq_self, advance_bh, hbh]
  dsimp only
  rw [setReq_bufs, hnext]
  simp

theorem RequestOk.endFirst (h : RequestOk k s.bufs (s.reqs i) (b :: c :: l))
    (hadvance : AdvanceOk k (s.reqs i) advanced done) :
    RequestOk k (s.endFirst k i uptodate advanced done).bufs
      ((s.endFirst k i uptodate advanced done).reqs i) (c :: l) := by
  obtain ⟨rest, hl, hbh, hlinks⟩ := h.bh
  obtain ⟨hb, rfl⟩ := List.cons.inj hl
  rw [← hb] at hbh hlinks
  have hnext : (s.bufs b).reqnext = some c := by
    have hlink := hlinks.eq_link
    unfold reqnext at hlink
    cases hn : (s.bufs b).reqnext with
    | none =>
      rw [hn] at hlink
      cases hlink
    | some d =>
      rw [hn] at hlink
      exact congrArg some (Link.link.inj hlink)
  have hcurrent : (s.reqs i).currentNrSectors = (k.head b).count := by
    rw [h.current, hb]
  obtain ⟨hsector, hnr⟩ := hadvance
  rw [hcurrent] at hsector hnr
  rw [endFirst_more hbh hnext, advance_eq, hsector, hnr]
  apply h.finish
  intro d hd
  have hdb : d ≠ b := by
    rintro rfl
    exact (List.nodup_cons.1 h.nodup).1 hd
  rw [endFirst_bufs k uptodate advanced done hbh, update_of_ne hdb]

end EndFirst

variable {rest : List Node}

section
variable (h : Inv k s g) (hq : s.queue m = .req i :: rest)
include h hq

theorem Inv.head_req : g.place i = .queue m ∧ (∀ p, (s.procs p).plug ≠ some m) ∧ .req i ∉ rest := by
  refine ⟨?_, ?_, ?_⟩
  · rw [← h.queue, hq]
    exact List.mem_cons_self
  · intro p hp
    obtain ⟨cmd, sector, rest', hq'⟩ := h.plug p m hp
    rw [hq] at hq'
    cases hq'
  · have hnodup := h.nodup m
    rw [hq] at hnodup
    exact (List.nodup_cons.1 hnodup).1

theorem Inv.mem_behead (m' j : ℕ) :
    .req j ∈ update s.queue m rest m' ↔ update g.place i .free j = .queue m' := by
  obtain ⟨hplace, -, hnot⟩ := h.head_req hq
  by_cases hm : m' = m
  · subst hm
    by_cases hj : j = i
    · subst hj
      simp [hnot]
    · rw [update_of_ne hj, ← h.queue, hq]
      simp [hj]
  · rw [update_of_ne hm, h.queue]
    by_cases hj : j = i
    · subst hj
      simp [hplace, Ne.symm hm]
    · rw [update_of_ne hj]

theorem Inv.nodup_behead (m' : ℕ) : (update s.queue m rest m').Nodup := by
  by_cases hm : m' = m
  · subst hm
    rw [update_self]
    have hnodup := h.nodup m'
    rw [hq] at hnodup
    exact (List.nodup_cons.1 hnodup).2
  · rw [update_of_ne hm]
    exact h.nodup m'

theorem Inv.plug_behead (p m' : ℕ) (hp : (s.procs p).plug = some m') : ∃ cmd sector rest',
      update s.queue m rest m' = .plug p cmd sector :: rest' := by
  have hm : m' ≠ m := by
    rintro rfl
    exact (h.head_req hq).2.1 p hp
  rw [update_of_ne hm]
  exact h.plug p m' hp

end

theorem Inv.first (h : Inv k s g) (hi : g.place i ≠ .free) :
    ∃ b l, g.chain i = b :: l ∧ b = (s.reqs i).buffer ∧ (s.reqs i).bh = some b ∧
      (l = [] ∧ (s.bufs b).reqnext = none ∨ ∃ c l', l = c :: l' ∧ (s.bufs b).reqnext = some c) := by
  obtain ⟨l, hl, hbh, hlinks⟩ := (h.request i hi).bh
  refine ⟨_, l, hl, rfl, hbh, ?_⟩
  unfold reqnext at hlinks
  cases hn : (s.bufs (s.reqs i).buffer).reqnext with
  | none =>
    rw [hn] at hlinks
    cases hlinks
    exact .inl ⟨rfl, rfl⟩
  | some c =>
    rw [hn] at hlinks
    cases hlinks with
    | @cons a l' hrest => exact .inr ⟨c, l', rfl, rfl⟩

theorem Inv.endMore (h : Inv k s g) {uptodate advanced : Bool} {done : ℕ} {l : List ℕ}
    (hi : g.place i ≠ .free) (hadding : ∀ p, g.place i ≠ .adding p)
    (hchain : g.chain i = b :: c :: l) (hbh : (s.reqs i).bh = some b)
    (hadvance : AdvanceOk k (s.reqs i) advanced done) :
    ∃ g', Inv k (s.endFirst k i uptodate advanced done) g' := by
  have hbufs : (s.endFirst k i uptodate advanced done).bufs = _ :=
    endFirst_bufs k uptodate advanced done hbh
  have hreq := h.request i hi
  rw [hchain] at hreq
  refine ⟨_, h.finish (g.place i) hi hadding hchain
    (.inl ⟨rfl, hreq.endFirst hadvance⟩) ?_ ?_ ?_ endFirst_procs ?_ ?_ ?_⟩
  · simp [hbufs]
  · intro d hd
    simp [hbufs, hd]
  · intro j hj
    exact endFirst_of_ne hj
  · intro m' j
    rw [endFirst_queue, update_eq_self]
    exact h.queue m' j
  · rw [endFirst_queue]
    exact h.nodup
  · rw [endFirst_queue]
    exact h.plug

section Ends

variable {uptodate : Bool} {done : ℕ}

theorem endRequest_last (hq : s.queue m = .req i :: rest)
    (hnone : ((s.endFirst k i uptodate uptodate done).reqs i).bh = none) :
    s.endRequest k m uptodate done =
      ((s.endFirst k i uptodate uptodate done).setQueue m rest).setReq
      i fun req => { req with dev := none } := by
  unfold Queues.endFirst at hnone ⊢
  unfold Queues.endRequest
  rw [hq]
  dsimp only
  rw [hnone]

theorem endRequest_more (hq : s.queue m = .req i :: rest)
    (hsome : ((s.endFirst k i uptodate uptodate done).reqs i).bh = some c) :
    s.endRequest k m uptodate done = s.endFirst k i uptodate uptodate done := by
  unfold Queues.endFirst at hsome ⊢
  unfold Queues.endRequest
  rw [hq]
  dsimp only
  rw [hsome]

theorem scsiEnd_last (hnone : ((s.endFirst k i uptodate true 0).reqs i).bh = none) :
    s.scsiEnd k i uptodate =
      (s.endFirst k i uptodate true 0).setReq i fun req => { req with dev := none } := by
  unfold Queues.endFirst at hnone ⊢
  unfold Queues.scsiEnd
  dsimp only
  rw [hnone]

theorem scsiEnd_more (hsome : ((s.endFirst k i uptodate true 0).reqs i).bh = some c) :
    s.scsiEnd k i uptodate = s.endFirst k i uptodate true 0 := by
  unfold Queues.endFirst at hsome ⊢
  unfold Queues.scsiEnd
  dsimp only
  rw [hsome]

end Ends

theorem Inv.endRequest (h : Inv k s g) {uptodate : Bool} {done : ℕ}
    (hq : s.queue m = .req i :: rest)
    (hadvance : (s.bufs (s.reqs i).buffer).reqnext ≠ none → AdvanceOk k (s.reqs i) uptodate done) :
    ∃ g', Inv k (s.endRequest k m uptodate done) g' := by
  obtain ⟨hplace, -, -⟩ := h.head_req hq
  have hi : g.place i ≠ .free := by simp [hplace]
  obtain ⟨b, l, hchain, hb, hbh, hcase⟩ := h.first hi
  have hbufs := endFirst_bufs k uptodate uptodate done hbh
  rcases hcase with ⟨rfl, hnext⟩ | ⟨c, l', rfl, hnext⟩
  · rw [endRequest_last hq (endFirst_last hbh hnext)]
    refine ⟨_, h.finish .free hi (by simp [hplace]) hchain
      (.inr ⟨rfl, rfl, by simp⟩) ?_ ?_ ?_ endFirst_procs ?_ ?_ ?_⟩
    · simp [hbufs]
    · intro d hd
      simp [hbufs, hd]
    · intro j hj
      simp [setReq_of_ne hj, endFirst_of_ne hj]
    · intro m' j
      simp only [setReq_queue, Queues.setQueue, endFirst_queue]
      exact h.mem_behead hq m' j
    · intro m'
      simp only [setReq_queue, Queues.setQueue, endFirst_queue]
      exact h.nodup_behead hq m'
    · intro p m' hp
      simp only [setReq_queue, Queues.setQueue, endFirst_queue]
      exact h.plug_behead hq p m' hp
  · have hsome : ((s.endFirst k i uptodate uptodate done).reqs i).bh = some c := by
      rw [endFirst_more hbh hnext]
    rw [endRequest_more hq hsome]
    exact h.endMore hi (by simp [hplace]) hchain hbh (hadvance (by rw [← hb, hnext]; simp))

theorem Inv.scsiEnd (h : Inv k s g) (hcommand : NR_REQUEST ≤ i) (hdev : (s.reqs i).dev ≠ none)
    (uptodate : Bool) : ∃ g', Inv k (s.scsiEnd k i uptodate) g' := by
  have hi : g.place i ≠ .free := (h.active i).1 hdev
  have hplace : g.place i = .command := (h.command i hcommand).resolve_left hi
  obtain ⟨b, l, hchain, hb, hbh, hcase⟩ := h.first hi
  have hbufs := endFirst_bufs k uptodate true 0 hbh
  rcases hcase with ⟨rfl, hnext⟩ | ⟨c, l', rfl, hnext⟩
  · rw [scsiEnd_last (endFirst_last hbh hnext)]
    refine ⟨_, h.finish .free hi (by simp [hplace]) hchain
      (.inr ⟨rfl, rfl, by simp⟩) ?_ ?_ ?_ endFirst_procs ?_ ?_ ?_⟩
    · simp [hbufs]
    · intro d hd
      simp [hbufs, hd]
    · intro j hj
      simp [setReq_of_ne hj, endFirst_of_ne hj]
    · intro m' j
      rw [setReq_queue, endFirst_queue, h.queue]
      by_cases hj : j = i
      · subst hj
        simp [hplace]
      · rw [update_of_ne hj]
    · rw [setReq_queue, endFirst_queue]
      exact h.nodup
    · rw [setReq_queue, endFirst_queue]
      exact h.plug
  · have hsome : ((s.endFirst k i uptodate true 0).reqs i).bh = some c := by
      rw [endFirst_more hbh hnext]
    rw [scsiEnd_more hsome]
    exact h.endMore hi (by simp [hplace]) hchain hbh (advanceOk_true (s.reqs i) 0)

theorem Inv.scsiTake (h : Inv k s g) {command : ℕ}
    (hq : s.queue m = .req i :: rest) (hcommand : NR_REQUEST ≤ command)
    (hdev : (s.reqs command).dev = none) : ∃ g', Inv k (s.scsiTake m command) g' := by
  obtain ⟨hplace, -, -⟩ := h.head_req hq
  have hi : g.place i ≠ .free := by simp [hplace]
  have hfree : g.place command = .free := by
    by_contra hne
    exact (h.active command).2 hne hdev
  have hne : i ≠ command := by
    rintro rfl
    exact hi hfree
  have htake : s.scsiTake m command =
      ((s.setQueue m rest).setReq i fun req => { req with dev := none }).setReq command
        fun _ => s.reqs i := by
    unfold Queues.scsiTake
    rw [hq]
  have hentry : ∀ d j, (if g.owner d = .entry i then Owner.entry command else g.owner d) =
      .entry j ↔ (j = command ∧ g.owner d = .entry i) ∨ (j ≠ i ∧ g.owner d = .entry j) := by
    intro d j
    split
    · rename_i hown
      rw [hown]
      constructor
      · intro heq
        exact .inl ⟨(Owner.entry.inj heq).symm, rfl⟩
      · rintro (⟨rfl, -⟩ | ⟨hji, heq⟩)
        · rfl
        · exact absurd (Owner.entry.inj heq).symm hji
    · rename_i hown
      constructor
      · intro heq
        refine .inr ⟨?_, heq⟩
        rintro rfl
        exact hown heq
      · rintro (⟨-, heq⟩ | ⟨-, heq⟩)
        · exact absurd heq hown
        · exact heq
  rw [htake]
  refine ⟨{ chain := update g.chain command (g.chain i)
            owner := fun d => if g.owner d = .entry i then .entry command else g.owner d
            place := update (update g.place i .free) command .command },
    ?_, ?_, ?_, ?_, ?_, ?_, ?_, ?_, ?_, ?_, ?_, h.procs, ?_⟩
  · intro j hj
    by_cases hjc : j = command
    · subst hjc
      simpa using h.request i hi
    · by_cases hji : j = i
      · subst hji
        simp [hjc] at hj
      · simp only [update_of_ne hjc, update_of_ne hji] at hj ⊢
        simp only [setReq_of_ne hjc, setReq_of_ne hji]
        exact h.request j hj
  · intro j
    by_cases hjc : j = command
    · subst hjc
      simpa using (h.active i).2 hi
    · by_cases hji : j = i
      · subst hji
        simp [hjc, setReq_of_ne hjc]
      · simp only [update_of_ne hjc, update_of_ne hji, setReq_of_ne hjc, setReq_of_ne hji]
        exact h.active j
  · intro j d hj
    rw [hentry]
    by_cases hjc : j = command
    · subst hjc
      have hnone : g.owner d ≠ .entry j := fun hown => h.inUse d j hown hfree
      simp [h.member i d hi, hnone]
    · by_cases hji : j = i
      · subst hji
        simp [hjc] at hj
      · simp only [update_of_ne hjc, update_of_ne hji] at hj ⊢
        simp [hjc, hji, h.member j d hj]
  · intro d j hd
    rcases (hentry d j).1 hd with ⟨rfl, -⟩ | ⟨hji, hown⟩
    · simp
    · have huse := h.inUse d j hown
      by_cases hjc : j = command
      · subst hjc
        simp
      · simpa [hjc, hji] using huse
  · intro d
    change (s.bufs d).lock = true ↔ _
    rw [h.lock]
    dsimp only
    split
    · rename_i hown
      simp [hown]
    · rfl
  · intro d hd
    apply h.loose
    intro j hj
    by_cases hji : j = i
    · subst hji
      exact hd command ((hentry d command).2 (.inl ⟨rfl, hj⟩))
    · exact hd j ((hentry d j).2 (.inr ⟨hji, hj⟩))
  · intro p d
    change (s.procs p).holds = some d ↔ _
    rw [h.holds]
    dsimp only
    split
    · rename_i hown
      simp [hown]
    · rfl
  · intro p j
    change (s.procs p).adds = some j ↔ _
    rw [h.adding]
    by_cases hjc : j = command
    · subst hjc
      simp [hfree]
    · by_cases hji : j = i
      · subst hji
        simp [hjc, hplace]
      · simp only [update_of_ne hjc, update_of_ne hji]
  · intro m' j
    change .req j ∈ update s.queue m rest m' ↔ _
    rw [h.mem_behead hq]
    by_cases hjc : j = command
    · subst hjc
      simp [hne.symm, hfree]
    · simp only [update_of_ne hjc]
  · intro j hj
    by_cases hjc : j = command
    · subst hjc
      simp
    · by_cases hji : j = i
      · subst hji
        simp [hjc]
      · simp only [update_of_ne hjc, update_of_ne hji]
        exact h.command j hj
  · exact h.nodup_behead hq
  · exact h.plug_behead hq

end LinuxKernel.BlockRequest
