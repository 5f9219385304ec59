import LinuxKernel.IpFragmentChain

/-!
# Reassembly queues under arbitrary fragments

Runs of `ip_defrag` and `ip_expire` over fragments with any offset, length and
`IP_MF` bit.  `ip_defrag` compares a fragment with its neighbours only, so the
chains stay in order as long as every fragment fits its queue in the sense of
`FragmentFits`.
-/

namespace LinuxKernel.IpFragment
open List

structure Ip where
  ipqueue : List Ipq
  glues : List Glue
  deriving DecidableEq

inductive Event where
  | receive (skb : Skb) (grants : Grants)
  | expire (iph : Iphdr)

def Ip.step (s : Ip) : Event → Option Ip
  | .receive skb grants =>
    match ipDefrag s.ipqueue skb grants with
    | none => none
    | some d => some { ipqueue := d.ipqueue, glues := s.glues ++ d.glue.toList }
  | .expire iph => some { s with ipqueue := ipFree s.ipqueue iph }

def Ip.run : Ip → List Event → Option Ip
  | s, [] => some s
  | s, e :: es =>
    match s.step e with
    | none => none
    | some s' => s'.run es

def Ip.start : Ip := { ipqueue := [], glues := [] }

/-- The copies of one `ip_glue` stay in the payload of the buffer and fill it. -/
structure Glue.Ok (g : Glue) : Prop where
  room : g.room = g.len
  inside : ∀ c ∈ g.copied, 0 ≤ c.1 ∧ 0 ≤ c.2 ∧ c.1 + c.2 ≤ g.len
  covers : ∀ x, 0 ≤ x → x < g.len → ∃ c ∈ g.copied, c.1 ≤ x ∧ x < c.1 + c.2

structure Ip.Robust (s : Ip) : Prop where
  chains : ∀ qp ∈ s.ipqueue, ChainOk qp.fragments
  glues : ∀ g ∈ s.glues, g.Ok

/-! ## The condition on a fragment -/

def fragmentOffset (iph : Iphdr) : ℤ := (iph.offsetUnits * 8 : ℕ)

def fragmentEnd (iph : Iphdr) : ℤ := fragmentOffset iph + iph.totLen - iph.hlen

def knownLen (qp : Ipq) (iph : Iphdr) : ℤ := if iph.moreFragments then qp.len else fragmentEnd iph

def NoGap (chain : List Ipfrag) (offset fend : ℤ) : Prop :=
  (∀ f ∈ chain, f.offset ≤ offset ∨ fend ≤ f.offset →
    ∀ x, 0 ≤ x → x < f.offset → Kept chain offset fend x) ∧
  ∀ x, 0 ≤ x → x < offset → Kept chain offset fend x

structure FragmentFits (qp : Ipq) (iph : Iphdr) (grants : Grants) : Prop where
  placeable : Placeable qp.fragments (fragmentOffset iph) (fragmentEnd iph)
  memory : grants.frag = true
  ends : grants.buffer = true → knownLen qp iph ≠ 0 →
    NoGap qp.fragments (fragmentOffset iph) (fragmentEnd iph) →
    ∀ x, 0 ≤ x → (Kept qp.fragments (fragmentOffset iph) (fragmentEnd iph) x ↔ x < knownLen qp iph)

def queueFor (s : Ip) (skb : Skb) (grants : Grants) : Option Ipq :=
  (ipFind s.ipqueue skb.iph).or (ipCreate skb grants)

def EventFits (s : Ip) : Event → Prop
  | .receive skb grants =>
    skb.iph.moreFragments ∨ skb.iph.offsetUnits ≠ 0 →
      ∀ qp, queueFor s skb grants = some qp → FragmentFits qp skb.iph grants
  | .expire _ => True

def RunFits : Ip → List Event → Prop
  | _, [] => True
  | s, e :: es => EventFits s e ∧ ∀ s', s.step e = some s' → RunFits s' es

/-! ## One fragment -/

structure Ipq.Ok (qp : Ipq) : Prop where
  chain : ChainOk qp.fragments
  len_nonneg : 0 ≤ qp.len

variable {ipqueue : List Ipq} {iph : Iphdr} {qp : Ipq}

theorem mem_storeQueue {q : Ipq}
    (h : q ∈ storeQueue ipqueue iph qp) : q = qp ∨ q ∈ ipqueue := by
  induction ipqueue with
  | nil => simp [storeQueue] at h
  | cons p rest ih =>
    unfold storeQueue at h
    split at h
    · rcases mem_cons.mp h with heq | hmem
      · exact .inl heq
      · exact .inr (mem_cons_of_mem p hmem)
    · rcases mem_cons.mp h with heq | hmem
      · exact .inr (heq ▸ mem_cons_self ..)
      · rcases ih hmem with heq | hmem
        · exact .inl heq
        · exact .inr (mem_cons_of_mem p hmem)

theorem fragmentOffset_nonneg (iph : Iphdr) : 0 ≤ fragmentOffset iph := Int.natCast_nonneg _

variable {grants : Grants}

theorem Ipq.Ok.knownLen_nonneg (hqp : qp.Ok)
    (hfits : FragmentFits qp iph grants) : 0 ≤ knownLen qp iph := by
  unfold knownLen
  split
  · exact hqp.len_nonneg
  · have h1 := fragmentOffset_nonneg iph
    have h2 := hfits.placeable.size
    omega

section
variable (hchain : ChainOk qp.fragments) (hlen : 0 ≤ qp.len) (hdone : ipDone qp = true)
  (hcovered : ∀ x, 0 ≤ x → (Covered qp.fragments x ↔ x < qp.len))
include hchain hlen hdone hcovered

theorem glue_ok :
    (glueBuffer qp).copied = qp.fragments.map (fun f => (f.offset, f.len)) ∧
      (glueBuffer qp).overSize = false ∧ (∀ f ∈ qp.fragments, f.fend ≤ qp.len) := by
  have hconnected : connected 0 qp.fragments = true := by
    unfold ipDone at hdone
    split at hdone
    · simp at hdone
    · exact hdone
  have hfend : ∀ f ∈ qp.fragments, f.fend ≤ qp.len := by
    intro f hf
    have hok := hchain.frag f hf
    have hle := hok.offset_le
    by_contra hlt
    by_cases hempty : f.offset = f.fend
    · have hin := connected_covered hconnected hf hlen (by omega)
      have := (hcovered qp.len hlen).mp hin
      omega
    · have hin := (hcovered (f.fend - 1) (by omega)).mp ⟨f, hf, by omega, by omega⟩
      omega
  have hsum := hchain.lenSum_le 0 (fun f hf => (hchain.frag f hf).offset_nonneg) hlen hfend
  have hcopied := copyFragments_copied hchain (glueLen qp - qp.maclen)
    (c := { count := 0, memory := fun _ => 0, copied := [], overSize := false })
    (by simp only [glueLen]; omega)
  refine ⟨?_, hcopied.2.1, hfend⟩
  have h := hcopied.1
  exact h

theorem glue_ok_record :
    Glue.Ok
      { len := qp.len
        room := glueLen qp - sizeofSkBuff - qp.maclen - qp.ihlen
        copied := (glueBuffer qp).copied } := by
  obtain ⟨hcopied, _, hfend⟩ := glue_ok hchain hlen hdone hcovered
  rw [hcopied]
  constructor
  · simp only [glueLen]
    ring
  · intro c hc
    obtain ⟨f, hf, rfl⟩ := mem_map.mp hc
    have hok := hchain.frag f hf
    have h1 := hok.len_eq
    have h2 := hfend f hf
    exact ⟨hok.offset_nonneg, hok.len_nonneg, by dsimp only; omega⟩
  · intro x hx0 hx
    obtain ⟨f, hf, hfx⟩ := (hcovered x hx0).mpr hx
    have h1 := (hchain.frag f hf).len_eq
    exact ⟨_, mem_map_of_mem hf, hfx.1, by dsimp only; omega⟩

end

theorem noGap_of_connected {chain rest : List Ipfrag} (hchain : ChainOk chain) {offset fend : ℤ}
    (skb : Skb) (hrest : trimOverlap fend (behind offset chain) = some rest)
    (hconnected : connected 0 (inFront offset chain ++
      ipFragCreate (offset + lowOverlap (inFront offset chain).getLast? offset) fend skb
        (lowOverlap (inFront offset chain).getLast? offset) :: rest) = true) :
    NoGap chain offset fend := by
  have hi0 := lowOverlap_nonneg (inFront offset chain).getLast? offset
  constructor
  · intro f hf hstays x hx0 hx
    rw [← covered_insert_iff hchain skb hrest x]
    refine connected_covered hconnected (f := f) ?_ hx0 hx
    by_cases hle : f.offset ≤ offset
    · exact mem_append_left _ (mem_inFront_of_le hchain hf hle)
    · have hbehind := mem_behind_of_lt hf (not_le.mp hle)
      have hmem := mem_trimOverlap hrest hbehind (by omega)
      exact mem_append_right _ (mem_cons_of_mem _ hmem)
  · intro x hx0 hx
    rw [← covered_insert_iff hchain skb hrest x]
    refine connected_covered hconnected (mem_append_right _ (mem_cons_self ..)) hx0 ?_
    simp only [ipFragCreate]
    omega

variable {skb : Skb}

theorem queueFragment_ok
    (hqueue : ∀ q ∈ ipqueue, q.Ok) (hqp : qp.Ok) (hfits : FragmentFits qp skb.iph grants) :
    ∃ d, queueFragment ipqueue qp skb grants = some d ∧ (∀ q ∈ d.ipqueue, q.Ok) ∧
      ∀ g ∈ d.glue, g.Ok := by
  obtain ⟨rest, hrest, hinsert⟩ := hfits.placeable.insertFragment_eq hqp.chain skb hfits.memory
  have hoffset := fragmentOffset_nonneg skb.iph
  have hchain := hfits.placeable.chainOk hqp.chain hoffset skb hrest
  have hcovered := covered_insert_iff hqp.chain skb hrest
  set chain := inFront (fragmentOffset skb.iph) qp.fragments ++ _ with hchain_def
  set qp' : Ipq := { qp with len := knownLen qp skb.iph, fragments := chain } with hqp'
  have hqp'_ok : qp'.Ok := ⟨hchain, hqp.knownLen_nonneg hfits⟩
  have hstore : ∀ q ∈ storeQueue ipqueue skb.iph qp', q.Ok := by
    intro q hq
    rcases mem_storeQueue hq with heq | hmem
    · rw [heq]
      exact hqp'_ok
    · exact hqueue q hmem
  have heq : queueFragment ipqueue qp skb grants =
      if ipDone qp' then some (ipGlue (storeQueue ipqueue skb.iph qp') qp' grants)
      else some { ipqueue := storeQueue ipqueue skb.iph qp', skb := none, glue := none } := by
    unfold queueFragment
    dsimp only
    rw [show insertFragment qp.fragments (skb.iph.offsetUnits * 8 : ℕ)
      ((skb.iph.offsetUnits * 8 : ℕ) + skb.iph.totLen - skb.iph.hlen) skb grants = _ from hinsert]
    rfl
  rw [heq]
  split
  · rename_i hdone
    refine ⟨_, rfl, ?_, ?_⟩
    · intro q hq
      have hmem : q ∈ ipFree (storeQueue ipqueue skb.iph qp') qp'.iph := by
        unfold ipGlue at hq
        split at hq
        · exact hq
        · exact hq
      exact hstore q (mem_of_mem_eraseP hmem)
    · intro g hg
      unfold ipGlue at hg
      split at hg
      · rename_i hbuffer
        have hlen0 : knownLen qp skb.iph ≠ 0 := by
          intro h0
          simp only [ipDone, hqp', h0, if_true] at hdone
          simp at hdone
        have hconnected : connected 0 chain = true := by
          simp only [ipDone, hqp', if_neg hlen0] at hdone
          exact hdone
        have hends := hfits.ends hbuffer hlen0 (noGap_of_connected hqp.chain skb hrest hconnected)
        have hcov : ∀ x, 0 ≤ x → (Covered qp'.fragments x ↔ x < qp'.len) := by
          intro x hx
          exact (hcovered x).trans (hends x hx)
        rw [Option.mem_some_iff] at hg
        rw [← hg]
        exact glue_ok_record hqp'_ok.chain hqp'_ok.len_nonneg hdone hcov
      · simp at hg
  · refine ⟨_, rfl, hstore, ?_⟩
    simp

theorem ipFind_mem
    (h : ipFind ipqueue iph = some qp) : qp ∈ ipqueue :=
  mem_of_find?_eq_some h

theorem ipCreate_ok (h : ipCreate skb grants = some qp) : qp.Ok := by
  unfold ipCreate at h
  split at h
  · rw [Option.some.injEq] at h
    rw [← h]
    exact ⟨ChainOk.nil, le_refl 0⟩
  · simp at h

variable {s : Ip}

theorem ipDefrag_ok (hqueue : ∀ q ∈ s.ipqueue, q.Ok)
    (hfits : EventFits s (.receive skb grants)) :
    ∃ d, ipDefrag s.ipqueue skb grants = some d ∧ (∀ q ∈ d.ipqueue, q.Ok) ∧ ∀ g ∈ d.glue, g.Ok := by
  unfold ipDefrag
  split
  · refine ⟨_, rfl, ?_, by simp⟩
    intro q hq
    exact hqueue q (mem_of_mem_eraseP hq)
  · rename_i hfragment
    have hfits' := hfits (by
      rw [not_and_or, not_not] at hfragment
      exact hfragment)
    cases hfind : ipFind s.ipqueue skb.iph with
    | some qp =>
      apply queueFragment_ok hqueue (hqueue qp (ipFind_mem hfind))
      apply hfits' qp
      simp [queueFor, hfind]
    | none =>
      cases hcreate : ipCreate skb grants with
      | none => exact ⟨_, rfl, hqueue, by simp⟩
      | some qp =>
        have hqp := ipCreate_ok hcreate
        apply queueFragment_ok _ hqp
        · apply hfits' qp
          simp [queueFor, hfind, hcreate]
        · intro q hq
          rcases mem_cons.mp hq with heq | hmem
          · rw [heq]
            exact hqp
          · exact hqueue q hmem

structure Ip.Inv (s : Ip) : Prop where
  queues : ∀ qp ∈ s.ipqueue, qp.Ok
  glues : ∀ g ∈ s.glues, g.Ok

theorem Ip.Inv.step (h : s.Inv) {e : Event} (hfits : EventFits s e) :
    ∃ s', s.step e = some s' ∧ s'.Inv := by
  cases e with
  | receive skb grants =>
    obtain ⟨d, hd, hqueues, hglue⟩ := ipDefrag_ok h.queues hfits
    refine ⟨{ ipqueue := d.ipqueue, glues := s.glues ++ d.glue.toList }, ?_, hqueues, ?_⟩
    · simp only [Ip.step, hd]
    · intro g hg
      rcases mem_append.mp hg with hmem | hmem
      · exact h.glues g hmem
      · exact hglue g (Option.mem_toList.mp hmem)
  | expire iph =>
    refine ⟨{ s with ipqueue := ipFree s.ipqueue iph }, rfl, ?_, h.glues⟩
    intro q hq
    exact h.queues q (mem_of_mem_eraseP hq)

theorem Ip.Inv.run (h : s.Inv) {es : List Event} (hfits : RunFits s es) :
    ∃ s', s.run es = some s' ∧ s'.Inv := by
  induction es generalizing s with
  | nil => exact ⟨s, rfl, h⟩
  | cons e es ih =>
    obtain ⟨s', hstep, hinv⟩ := h.step hfits.1
    obtain ⟨s'', hrun, hinv'⟩ := ih hinv (hfits.2 s' hstep)
    refine ⟨s'', ?_, hinv'⟩
    simp only [Ip.run, hstep]
    exact hrun

def frameOf (fragOff len : ℕ) : Skb :=
  { mac := []
    iph :=
      { ihl := 5
        totLen := 20 + len
        id := 242
        fragOff := fragOff
        protocol := 17
        saddr := 2
        daddr := 1
        options := [] }
    payload := List.replicate len 0 }

def twoPieces : List Event :=
  [.receive (frameOf 0x2000 8) allGranted, .receive (frameOf 1 8) allGranted]

def firstQueue (chain : List Ipfrag) : Ipq :=
  { mac := [], iph := (frameOf 0x2000 8).iph, len := 0, ihlen := 20, maclen := 0,
      fragments := chain }

def firstFragment : Ipfrag := ipFragCreate 0 8 (frameOf 0x2000 8) 0

theorem twoPieces_fit : RunFits Ip.start twoPieces := by
  have hstep : Ip.start.step (.receive (frameOf 0x2000 8) allGranted) =
      some { ipqueue := [firstQueue [firstFragment]], glues := [] } := by
    decide
  refine ⟨?_, ?_⟩
  · intro _ qp hqp
    have hqueue : queueFor Ip.start (frameOf 0x2000 8) allGranted = some (firstQueue []) := by
      decide
    rw [hqueue, Option.some.injEq] at hqp
    rw [← hqp]
    refine ⟨⟨by decide, by decide, by decide⟩, rfl, ?_⟩
    intro _ hlen
    exact absurd (by decide) hlen
  · intro s' hs'
    rw [hstep, Option.some.injEq] at hs'
    rw [← hs']
    refine ⟨?_, fun _ _ => trivial⟩
    intro _ qp hqp
    have hqueue : queueFor { ipqueue := [firstQueue [firstFragment]], glues := [] }
        (frameOf 1 8) allGranted = some (firstQueue [firstFragment]) := by
      decide
    rw [hqueue, Option.some.injEq] at hqp
    rw [← hqp]
    refine ⟨⟨by decide, ?_, ?_⟩, rfl, ?_⟩
    · intro prev hprev
      have hlast : (inFront (fragmentOffset (frameOf 1 8).iph)
          (firstQueue [firstFragment]).fragments).getLast? = some firstFragment := by
        decide
      rw [hlast, Option.mem_some_iff] at hprev
      rw [← hprev]
      decide
    · intro last hlast
      have hfirst : (firstQueue [firstFragment]).fragments.getLast? = some firstFragment := by
        decide
      rw [hfirst, Option.mem_some_iff] at hlast
      rw [← hlast]
      decide
    · intro _ _ _ x hx
      have hoffset : fragmentOffset (frameOf 1 8).iph = 8 := by decide
      have hend : fragmentEnd (frameOf 1 8).iph = 16 := by decide
      have hlen : knownLen (firstQueue [firstFragment]) (frameOf 1 8).iph = 16 := by decide
      rw [hoffset, hend, hlen]
      simp only [Kept, firstQueue, firstFragment, ipFragCreate, mem_singleton, exists_eq_left]
      omega

def piecesInside : List Event :=
  [.receive (frameOf 0x2000 36) allGranted, .receive (frameOf 3 4) allGranted]

end LinuxKernel.IpFragment
