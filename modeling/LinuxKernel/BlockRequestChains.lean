import LinuxKernel.BlockRequestModel

/-!
# The buffers of one request

What a request has to say about the chain of its buffers, and what the chain does when a
buffer joins it at one end or the other, and when its first buffer is done.
-/

namespace LinuxKernel.BlockRequest
open List

open LinkChain

variable {k : Setup} {bufs bufs' : ℕ → Buf} {req : Request} {l : List ℕ} {b i : ℕ}

def linkOf : Option ℕ → Link ℕ
  | none => .eof
  | some b => .link b

def reqnext (bufs : ℕ → Buf) (b : ℕ) : Link ℕ := linkOf (bufs b).reqnext

def Covers (k : Setup) : BitVec 32 → List ℕ → Prop
  | _, [] => True
  | sector, b :: l =>
    (k.head b).sector = sector ∧ Covers k (sector + BitVec.ofNat 32 (k.head b).count) l

def Setup.total (k : Setup) (l : List ℕ) : ℕ := (l.map fun b => (k.head b).count).sum

structure RequestOk (k : Setup) (bufs : ℕ → Buf) (req : Request) (l : List ℕ) : Prop where
  links : Leads (reqnext bufs) (linkOf req.bh) l
  tail : l.getLast? = some req.bhtail
  covers : Covers k req.sector l
  total : req.nrSectors = k.total l
  same : ∀ b ∈ l, req.dev = some (k.head b).bDev ∧ (bufs b).cmd = req.cmd
  first : l.head? = some req.buffer
  current : req.currentNrSectors = (k.head req.buffer).count

theorem Covers.append {sector : BitVec 32} (h : Covers k sector l)
    (hb : (k.head b).sector = sector + BitVec.ofNat 32 (k.total l)) :
    Covers k sector (l ++ [b]) := by
  induction l generalizing sector with
  | nil =>
    refine ⟨?_, trivial⟩
    simpa [Setup.total] using hb
  | cons a l ih =>
    refine ⟨h.1, ih h.2 ?_⟩
    rw [hb, BitVec.add_assoc, BitVec.ofNat_add_ofNat]
    rfl

section
variable (h : RequestOk k bufs req l)
include h

theorem RequestOk.nodup : l.Nodup := h.links.nodup

theorem RequestOk.congr
    (hsame : ∀ b ∈ l, (bufs' b).reqnext = (bufs b).reqnext ∧ (bufs' b).cmd = (bufs b).cmd) :
    RequestOk k bufs' req l := by
  refine ⟨?_, h.tail, h.covers, h.total, ?_, h.first, h.current⟩
  · apply h.links.congr
    intro b hb
    simp only [reqnext, (hsame b hb).1]
  · intro b hb
    rw [(hsame b hb).2]
    exact h.same b hb

theorem RequestOk.bh :
    ∃ rest, l = req.buffer :: rest ∧ req.bh = some req.buffer ∧
      Leads (reqnext bufs) (reqnext bufs req.buffer) rest := by
  cases l with
  | nil => cases h.first
  | cons a rest =>
    obtain rfl : a = req.buffer := Option.some_inj.1 h.first
    have hlinks := h.links
    cases hbh : req.bh with
    | none =>
      rw [hbh] at hlinks
      cases hlinks
    | some c =>
      rw [hbh] at hlinks
      cases hlinks with
      | cons hrest => exact ⟨rest, rfl, rfl, hrest⟩

omit h in
theorem fresh_requestOk {rw : Rw} (hnext : (bufs b).reqnext = none) (hcmd : (bufs b).cmd = rw) :
    RequestOk k bufs (k.fresh rw b) [b] := by
  refine ⟨?_, rfl, ⟨rfl, trivial⟩, ?_, ?_, rfl, rfl⟩
  · refine Leads.cons ?_
    simp only [reqnext, hnext]
    exact Leads.nil
  · simp [Setup.fresh, Setup.total]
  · intro c hc
    obtain rfl := mem_singleton.1 hc
    exact ⟨rfl, hcmd⟩

theorem RequestOk.append (hb : b ∉ l) (hdev : req.dev = some (k.head b).bDev)
    (hsector : req.sector + BitVec.ofNat 32 req.nrSectors = (k.head b).sector)
    (htail : (bufs' req.bhtail).reqnext = some b ∧ (bufs' req.bhtail).cmd = (bufs req.bhtail).cmd)
    (hjoin : (bufs' b).reqnext = none ∧ (bufs' b).cmd = req.cmd)
    (hsame : ∀ c ∈ l, c ≠ req.bhtail → bufs' c = bufs c) :
    RequestOk k bufs' { req with bhtail := b, nrSectors := req.nrSectors + (k.head b).count }
      (l ++ [b]) := by
  obtain ⟨front, hl⟩ : ∃ front, l = front ++ [req.bhtail] := List.getLast?_eq_some_iff.1 h.tail
  have hnodup := h.nodup
  rw [hl, nodup_append] at hnodup
  have hfront : ∀ c ∈ front, c ≠ req.bhtail := by
    intro c hc
    exact hnodup.2.2 c hc _ (mem_singleton_self _)
  refine ⟨?_, ?_, ?_, ?_, ?_, ?_, h.current⟩
  · have hlinks := h.links
    rw [hl] at hlinks
    have hend : Leads (reqnext bufs') (reqnext bufs' req.bhtail) [b] := by
      have hlast : reqnext bufs' b = .eof := by simp only [reqnext, hjoin.1, linkOf]
      have hnext : reqnext bufs' req.bhtail = .link b := by
        simp only [reqnext, htail.1, linkOf]
      rw [hnext]
      refine Leads.cons ?_
      rw [hlast]
      exact Leads.nil
    have hkept : ∀ c ∈ front, reqnext bufs' c = reqnext bufs c := by
      intro c hc
      have hmem : c ∈ l := hl ▸ mem_append_left _ hc
      simp only [reqnext, hsame c hmem (hfront c hc)]
    rw [hl, append_assoc]
    exact hlinks.replace hkept hend
  · simp
  · exact h.covers.append (by rw [← h.total]; exact hsector.symm)
  · simp [Setup.total, h.total]
  · intro c hc
    rcases mem_append.1 hc with hc | hc
    · refine ⟨(h.same c hc).1, ?_⟩
      by_cases hct : c = req.bhtail
      · rw [hct, htail.2]
        exact (h.same _ (hct ▸ hc)).2
      · rw [hsame c hc hct]
        exact (h.same c hc).2
    · obtain rfl := mem_singleton.1 hc
      exact ⟨hdev, hjoin.2⟩
  · have hfirst := h.first
    rw [List.head?_append, hfirst]
    rfl

theorem RequestOk.prepend (hdev : req.dev = some (k.head b).bDev)
    (hsector : req.sector - BitVec.ofNat 32 (k.head b).count = (k.head b).sector)
    (hjoin : (bufs' b).reqnext = req.bh ∧ (bufs' b).cmd = req.cmd)
    (hsame : ∀ c ∈ l, bufs' c = bufs c) :
    RequestOk k bufs'
      { req with
        nrSectors := req.nrSectors + (k.head b).count, buffer := b,
        currentNrSectors := (k.head b).count, sector := (k.head b).sector, bh := some b }
      (b :: l) := by
  refine ⟨?_, ?_, ⟨rfl, ?_⟩, ?_, ?_, rfl, rfl⟩
  · refine Leads.cons ?_
    simp only [reqnext, hjoin.1]
    apply h.links.congr
    intro c hc
    simp only [reqnext, hsame c hc]
  · rw [List.getLast?_cons, h.tail]
    rfl
  · rw [← hsector, BitVec.sub_add_cancel]
    exact h.covers
  · simp only [Setup.total, map_cons, sum_cons, h.total]
    omega
  · intro c hc
    rcases mem_cons.1 hc with rfl | hc
    · exact ⟨hdev, hjoin.2⟩
    · rw [hsame c hc]
      exact h.same c hc

end

theorem RequestOk.finish {c : ℕ} {rest : List ℕ} (h : RequestOk k bufs req (b :: c :: rest))
    (hsame : ∀ d ∈ c :: rest, bufs' d = bufs d) :
    RequestOk k bufs'
      { req with
        sector := req.sector + BitVec.ofNat 32 (k.head b).count, bh := some c,
        currentNrSectors := (k.head c).count,
        nrSectors := max (req.nrSectors - (k.head b).count) (k.head c).count, buffer := c }
      (c :: rest) := by
  obtain ⟨rest', hl, -, hlinks⟩ := h.bh
  obtain ⟨rfl, rfl⟩ := List.cons.inj hl
  have hnext : reqnext bufs req.buffer = .link c := hlinks.eq_link
  refine ⟨?_, ?_, h.covers.2, ?_, ?_, rfl, rfl⟩
  · rw [hnext] at hlinks
    apply hlinks.congr
    intro d hd
    simp only [reqnext, hsame d hd]
  · have htail := h.tail
    rwa [List.getLast?_cons_cons] at htail
  · have htotal := h.total
    simp only [Setup.total, map_cons, sum_cons] at htotal ⊢
    omega
  · intro d hd
    rw [hsame d hd]
    exact h.same d (mem_cons_of_mem _ hd)

end LinuxKernel.BlockRequest
