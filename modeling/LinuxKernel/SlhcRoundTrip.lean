import LinuxKernel.SlhcPackets
import LinuxKernel.SlhcRing

/-!
# Packets over a line

Every packet that goes over the line comes out as it went in, and the two ends have the same state
for every connection, as long as the changes can say what is new in each packet.
-/

namespace LinuxKernel.Slhc
open Function List

variable {icp : List Byte} {ts rs : CState} {comp : Sender} {ip : IpHdr} {th : TcpHdr}
variable {l : Line} {r : List ℕ} {slot : ℕ} {compressCid : Bool}

/-! ## The condition -/

/-- What a compressed packet leaves out is as it was, and the changes say the rest. -/
structure CState.Covers (cs : CState) (icp : List Byte) : Prop where
  carries : cs.Carries (IpHdr.read icp) (TcpHdr.read (tcpPart icp))
  tcpopt : cs.tcpopt.take (optLen (TcpHdr.read (tcpPart icp)).doff) =
    ((tcpPart icp).drop 20).take (optLen (TcpHdr.read (tcpPart icp)).doff)
  fragOff : (IpHdr.read icp).fragOff = cs.ip.fragOff
  res1 : (TcpHdr.read (tcpPart icp)).res1 = cs.tcp.res1
  res2 : (TcpHdr.read (tcpPart icp)).res2 = cs.tcp.res2

instance (cs : CState) (icp : List Byte) : Decidable (cs.Covers icp) :=
  decidable_of_iff (cs.Carries (IpHdr.read icp) (TcpHdr.read (tcpPart icp)) ∧
      cs.tcpopt.take (optLen (TcpHdr.read (tcpPart icp)).doff) =
          ((tcpPart icp).drop 20).take (optLen (TcpHdr.read (tcpPart icp)).doff) ∧
        (IpHdr.read icp).fragOff = cs.ip.fragOff ∧
          (TcpHdr.read (tcpPart icp)).res1 = cs.tcp.res1 ∧
            (TcpHdr.read (tcpPart icp)).res2 = cs.tcp.res2)
    ⟨fun ⟨hcarries, htcpopt, hfrag, hres1, hres2⟩ => ⟨hcarries, htcpopt, hfrag, hres1, hres2⟩,
      fun ⟨hcarries, htcpopt, hfrag, hres1, hres2⟩ => ⟨hcarries, htcpopt, hfrag, hres1, hres2⟩⟩

def CState.compresses (cs : CState) (icp : List Byte) : Bool :=
  let ip := IpHdr.read icp
  let th := TcpHdr.read (tcpPart icp)
  !cs.incompat ip th (icp.drop 20) ((tcpPart icp).drop 20) && (cs.deltas ip th).isSome

def Sender.PacketOk (comp : Sender) (icp : List Byte) : Prop :=
  (IpHdr.read icp).plain = false → (TcpHdr.read (tcpPart icp)).control = false →
    ∀ cs ≤ comp.tslotLimit, comp.matches (IpHdr.read icp) (TcpHdr.read (tcpPart icp)) cs = true →
      (comp.tstate cs).compresses icp = true → (comp.tstate cs).Covers icp

instance (comp : Sender) (icp : List Byte) : Decidable (comp.PacketOk icp) :=
  inferInstanceAs (Decidable ((IpHdr.read icp).plain = false →
    (TcpHdr.read (tcpPart icp)).control = false → ∀ cs ≤ comp.tslotLimit,
      comp.matches (IpHdr.read icp) (TcpHdr.read (tcpPart icp)) cs = true →
        (comp.tstate cs).compresses icp = true → (comp.tstate cs).Covers icp))

def Sender.RunOk (comp : Sender) (compressCid : Bool) : List (List Byte) → Prop
  | [] => True
  | icp :: packets =>
    comp.PacketOk icp ∧ ∀ x ∈ comp.compress icp compressCid, x.1.RunOk compressCid packets

instance decidableRunOk (comp : Sender) (compressCid : Bool) :
    (packets : List (List Byte)) → Decidable (comp.RunOk compressCid packets)
  | [] => isTrue trivial
  | icp :: packets =>
    have : DecidablePred fun x : Sender × List Byte => x.1.RunOk compressCid packets :=
      fun x => decidableRunOk x.1 compressCid packets
    inferInstanceAs (Decidable (comp.PacketOk icp ∧
      ∀ x ∈ comp.compress icp compressCid, x.1.RunOk compressCid packets))

theorem Sender.RunOk.take {packets rest : List (List Byte)}
    (h : comp.RunOk compressCid (packets ++ rest)) : comp.RunOk compressCid packets := by
  induction packets generalizing comp with
  | nil => trivial
  | cons icp packets ih => exact ⟨h.1, fun x hx => ih (h.2 x hx)⟩

/-- The sender after the search for a connection, and the place of its state. -/
structure Arranged (comp comp' : Sender) (slot : ℕ) : Prop where
  tstate : comp'.tstate = comp.tstate
  limit : comp'.tslotLimit = comp.tslotLimit
  current : comp'.xmitCurrent = comp.xmitCurrent
  ring : ∃ r, comp'.Ring r
  slot : slot ≤ comp.tslotLimit

inductive Sent (comp : Sender) (icp : List Byte) (compressCid : Bool) : Sender × List Byte → Prop
  | plain : Sent comp icp compressCid (comp, icp)
  | compressed (comp' : Sender) (slot : ℕ) (changes : Byte) (newSeq : List Byte) :
      (IpHdr.read icp).plain = false → (TcpHdr.read (tcpPart icp)).control = false →
        Arranged comp comp' slot →
          comp.matches (IpHdr.read icp) (TcpHdr.read (tcpPart icp)) slot = true →
            (comp.tstate slot).incompat (IpHdr.read icp) (TcpHdr.read (tcpPart icp))
                (icp.drop 20) ((tcpPart icp).drop 20) = false →
              (comp.tstate slot).deltas (IpHdr.read icp) (TcpHdr.read (tcpPart icp)) =
                  some (changes, newSeq) →
                Sent comp icp compressCid (comp'.sendCompressed icp compressCid slot
                  (IpHdr.read icp) (TcpHdr.read (tcpPart icp)) changes newSeq)
  | uncompressed (comp' : Sender) (slot : ℕ) :
      (IpHdr.read icp).plain = false → (TcpHdr.read (tcpPart icp)).control = false →
        Arranged comp comp' slot → Sent comp icp compressCid (comp'.sendUncompressed icp slot)

theorem compress_sent (icp : List Byte) (compressCid : Bool) (h : comp.Ring r) :
    ∃ x, comp.compress icp compressCid = some x ∧ Sent comp icp compressCid x := by
  unfold Sender.compress
  dsimp only
  split
  · exact ⟨_, rfl, .plain⟩
  · rename_i hplain
    split
    · exact ⟨_, rfl, .plain⟩
    · rename_i hcontrol
      rw [Bool.not_eq_true] at hplain hcontrol
      obtain ⟨found, lcs, cs, hsearch, hplace⟩ :=
        h.search (IpHdr.read icp) (TcpHdr.read (tcpPart icp))
      rw [hsearch]
      dsimp only
      obtain ⟨htstate, hlimit, hcurrent⟩ := reorder_slots comp found lcs cs
      have hslot : cs ≤ comp.tslotLimit := by
        obtain ⟨pre, post, hr, -, -⟩ := hplace.place
        apply h.slots
        simp [hr]
      have harranged : Arranged comp (comp.reorder found lcs cs) cs :=
        ⟨htstate, hlimit, hcurrent, h.reorder hplace, hslot⟩
      split
      · rename_i changes newSeq hchanged
        unfold Sender.changed at hchanged
        rw [htstate] at hchanged
        dsimp only at hchanged
        split at hchanged
        · rename_i hfound
          rw [Bool.and_eq_true, Bool.not_eq_true'] at hfound
          exact ⟨_, rfl, .compressed _ _ _ _ hplain hcontrol harranged (hplace.same hfound.1)
            hfound.2 hchanged⟩
        · cases hchanged
      · exact ⟨_, rfl, .uncompressed _ _ hplain hcontrol harranged⟩

/-! ## Both ends -/

def CState.Used (cs : CState) : Prop :=
  cs.ip.version = 4 → cs.ip.protocol = IPPROTO_TCP ∧ cs.tcp.control = false

/-- Both ends agree on the states, and on the connection of the last packet. -/
structure Line.Agree (l : Line) : Prop where
  limit : l.receiver.rslotLimit = l.sender.tslotLimit
  small : l.sender.tslotLimit < 255
  same : ∀ slot, Same (l.sender.tstate slot) (l.receiver.rstate slot)
  current : l.sender.xmitCurrent ≠ 255 →
    l.receiver.recvCurrent = l.sender.xmitCurrent ∧ l.receiver.toss = false
  ring : ∃ r, l.sender.Ring r
  used : ∀ slot, (l.sender.tstate slot).Used

theorem Line.Agree.store (h : l.Agree) {comp : Sender} (harranged : Arranged l.sender comp slot)
    (hsame : Same ts rs) (hused : ts.Used) :
    Line.Agree ⟨{ comp with tstate := update comp.tstate slot ts, xmitCurrent := slot },
      ({ l.receiver with toss := false, recvCurrent := slot } : Receiver).setState rs⟩ := by
  obtain ⟨ring, hring⟩ := harranged.ring
  refine ⟨?_, ?_, ?_, fun _ => ⟨rfl, rfl⟩, ⟨ring, hring.circle, hring.slots⟩, ?_⟩
  · exact h.limit.trans harranged.limit.symm
  · exact harranged.limit ▸ h.small
  · intro i
    change Same (update comp.tstate slot ts i)
      (update l.receiver.rstate slot rs i)
    by_cases hi : i = slot
    · subst hi
      rw [update_self, update_self]
      exact hsame
    · rw [update_of_ne hi, update_of_ne hi, harranged.tstate]
      exact h.same i
  · intro i
    change (update comp.tstate slot ts i).Used
    by_cases hi : i = slot
    · subst hi
      rw [update_self]
      exact hused
    · rw [update_of_ne hi, harranged.tstate]
      exact h.used i

theorem protocol_of_plain (h : ip.plain = false) : ip.protocol = IPPROTO_TCP := by
  unfold IpHdr.plain at h
  rw [Bool.or_eq_false_iff, Bool.or_eq_false_iff] at h
  simpa using h.1.1

theorem control_eq_false (h : th.control = false) :
    th.syn = false ∧ th.fin = false ∧ th.rst = false ∧ th.ack = true := by
  unfold TcpHdr.control at h
  simpa [and_assoc] using h

theorem Same.save (h : Same ts rs) (icp : List Byte) : Same (ts.save icp) (rs.save icp) := by
  unfold CState.save
  rw [h.ipopt, h.tcpopt]
  exact ⟨.inl rfl, rfl, rfl, rfl⟩

theorem incompat_eq_false {cs : CState} {ipopt tcpopt : List Byte}
    (h : cs.incompat ip th ipopt tcpopt = false) :
    ip.version = cs.ip.version ∧ ip.ihl = cs.ip.ihl ∧ ip.tos = cs.ip.tos ∧ ip.ttl = cs.ip.ttl ∧
      th.doff = cs.tcp.doff ∧ cs.ipopt.take (optLen ip.ihl) = ipopt.take (optLen ip.ihl) := by
  unfold CState.incompat at h
  simp only [Bool.or_eq_false_iff, decide_eq_false_iff_not, not_not, Bool.and_eq_false_iff] at h
  obtain ⟨⟨⟨⟨⟨⟨⟨hversion, hihl⟩, htos⟩, -⟩, httl⟩, hdoff⟩, hipopt⟩, -⟩ := h
  refine ⟨hversion, hihl, htos, httl, hdoff, ?_⟩
  rcases hipopt with hnone | hipopt
  · have hzero : optLen ip.ihl = 0 := by
      unfold optLen
      omega
    rw [hzero, take_zero, take_zero]
  · exact hipopt.symm

theorem mask_bits (u w a s i p : Bool) :
    bits u w a s ||| when i NEW_I ||| when p TCP_PUSH_BIT ||| SL_TYPE_COMPRESSED_TCP =
        mask u w a s i p false ∧
      bits u w a s ||| when i NEW_I ||| when p TCP_PUSH_BIT ||| NEW_C ||| SL_TYPE_COMPRESSED_TCP =
        mask u w a s i p true := by
  revert u w a s i p
  decide

theorem deltas_cases {cs : CState} {changes : Byte} {newSeq : List Byte}
    (h : cs.deltas ip th = some (changes, newSeq)) :
    ∃ u w a s seq, Changed cs ip th u w a s seq ∧
      newSeq = seq ++ segment (cs.deltaI ip ≠ 1) (cs.deltaI ip) ∧
        changes ||| SL_TYPE_COMPRESSED_TCP = mask u w a s (cs.deltaI ip ≠ 1) th.psh false ∧
          changes ||| NEW_C ||| SL_TYPE_COMPRESSED_TCP =
            mask u w a s (cs.deltaI ip ≠ 1) th.psh true := by
  obtain ⟨⟨m, seq⟩, hchanges, heq⟩ := Option.map_eq_some_iff.1 h
  obtain ⟨u, w, a, s, rfl, hchanged⟩ := changes_cases hchanges
  cases heq
  exact ⟨u, w, a, s, seq, hchanged, rfl, mask_bits ..⟩

theorem Line.Agree.uncompressed (h : l.Agree) {comp : Sender}
    (harranged : Arranged l.sender comp slot) (hwf : WellFormed icp)
    (hplain : (IpHdr.read icp).plain = false)
    (hcontrol : (TcpHdr.read (tcpPart icp)).control = false) :
    (l.receiver.bump (comp.sendUncompressed icp slot).2).2 = some icp ∧
      Line.Agree ⟨(comp.sendUncompressed icp slot).1,
        (l.receiver.bump (comp.sendUncompressed icp slot).2).1⟩ := by
  have hsmall := h.small
  have hslot := harranged.slot
  have hprotocol := protocol_of_plain hplain
  have hbump := bump_uncompressed l.receiver slot hwf hprotocol
    (by rw [h.limit]; exact hslot) (by omega)
  unfold Sender.sendUncompressed
  rw [hbump]
  refine ⟨rfl, h.store harranged ?_ fun _ => ⟨hprotocol, hcontrol⟩⟩
  rw [harranged.tstate]
  exact (h.same slot).save icp

theorem Line.Agree.compressed (h : l.Agree) (compressCid : Bool) {comp : Sender} {changes : Byte}
    {newSeq : List Byte}
    (harranged : Arranged l.sender comp slot) (hwf : WellFormed icp)
    (hplain : (IpHdr.read icp).plain = false)
    (hcontrol : (TcpHdr.read (tcpPart icp)).control = false)
    (hmatches : l.sender.matches (IpHdr.read icp) (TcpHdr.read (tcpPart icp)) slot = true)
    (hincompat : (l.sender.tstate slot).incompat (IpHdr.read icp) (TcpHdr.read (tcpPart icp))
      (icp.drop 20) ((tcpPart icp).drop 20) = false)
    (hdeltas : (l.sender.tstate slot).deltas (IpHdr.read icp) (TcpHdr.read (tcpPart icp)) =
      some (changes, newSeq))
    (hcovers : (l.sender.tstate slot).Covers icp) :
    ∃ receiver, l.receiver.bump (comp.sendCompressed icp compressCid slot (IpHdr.read icp)
          (TcpHdr.read (tcpPart icp)) changes newSeq).2 = (receiver, some icp) ∧
      Line.Agree ⟨(comp.sendCompressed icp compressCid slot (IpHdr.read icp)
        (TcpHdr.read (tcpPart icp)) changes newSeq).1, receiver⟩ := by
  have hsmall := h.small
  have hslot := harranged.slot
  have hprotocol := protocol_of_plain hplain
  obtain ⟨hversion, hihl, htos, httl, hdoff, hipopt⟩ := incompat_eq_false hincompat
  obtain ⟨hprotocolOld, hcontrolOld⟩ := h.used slot (hversion ▸ hwf.version)
  obtain ⟨hsyn, hfin, hrst, hack⟩ := control_eq_false hcontrol
  obtain ⟨hsynOld, hfinOld, hrstOld, hackOld⟩ := control_eq_false hcontrolOld
  unfold Sender.matches at hmatches
  simp only [Bool.and_eq_true, decide_eq_true_iff] at hmatches
  obtain ⟨⟨⟨hsaddr, hdaddr⟩, hsource⟩, hdest⟩ := hmatches
  have hkept : Kept (l.sender.tstate slot).tcp (TcpHdr.read (tcpPart icp)) :=
    ⟨hsource, hdest, hcovers.res1, hdoff, hfin.trans hfinOld.symm, hsyn.trans hsynOld.symm,
      hrst.trans hrstOld.symm, hack.trans hackOld.symm, hcovers.res2⟩
  have hkeptIp : KeptIp (l.sender.tstate slot).ip (IpHdr.read icp) :=
    ⟨hihl, hversion, htos, hcovers.fragOff, httl, hprotocol.trans hprotocolOld.symm, hsaddr, hdaddr⟩
  obtain ⟨u, w, a, s, seq, hchanged, rfl, hmask, hmaskC⟩ := deltas_cases hdeltas
  have hexpand := fun c pre => expand_eq { l.receiver with toss := false, recvCurrent := slot } pre
    (c := c) hwf hplain (h.same slot)
    hchanged hcovers.carries hkept hkeptIp hipopt hcovers.tcpopt
  unfold Sender.sendCompressed
  rw [harranged.tstate, hmask, hmaskC, append_assoc, append_assoc]
  split
  · -- with the number of the connection
    have htype := mask_type u w a s ((l.sender.tstate slot).deltaI (IpHdr.read icp) ≠ 1)
      (TcpHdr.read (tcpPart icp)).psh true
    have hc := (mask_c u w a s ((l.sender.tstate slot).deltaI (IpHdr.read icp) ≠ 1)
      (TcpHdr.read (tcpPart icp)).psh true).2 rfl
    rw [bump_explicit htype hc (by simp [put16]) (by rw [h.limit]; exact hslot) (by omega)]
    obtain ⟨rs, hout, hsame⟩ := hexpand true [_, BitVec.ofNat 8 slot]
    refine ⟨_, hout, ?_⟩
    have hstore := h.store harranged hsame fun _ => ⟨hprotocol, hcontrol⟩
    rw [harranged.tstate] at hstore
    exact hstore
  · rename_i himplicit
    rw [not_or, not_not] at himplicit
    have hcurrent : l.sender.xmitCurrent = slot := harranged.current ▸ himplicit.2
    obtain ⟨hrecv, htoss⟩ := h.current (by omega)
    have hreceiver : ({ l.receiver with toss := false, recvCurrent := slot } : Receiver) =
        l.receiver := by
      rw [← hcurrent, ← hrecv, ← htoss]
    have hnot : ¬mask u w a s (decide ((l.sender.tstate slot).deltaI (IpHdr.read icp) ≠ 1))
        (TcpHdr.read (tcpPart icp)).psh false &&& NEW_C ≠ 0 := by
      rw [mask_c]
      exact Bool.false_ne_true
    have htype := mask_type u w a s ((l.sender.tstate slot).deltaI (IpHdr.read icp) ≠ 1)
      (TcpHdr.read (tcpPart icp)).psh false
    rw [bump_implicit htype hnot (by simp [put16]) htoss]
    obtain ⟨rs, hout, hsame⟩ := hexpand false [_]
    rw [hreceiver] at hout
    refine ⟨_, hout, ?_⟩
    have hstore := h.store harranged hsame fun _ => ⟨hprotocol, hcontrol⟩
    rw [harranged.tstate, hreceiver, ← himplicit.2] at hstore
    rw [← himplicit.2]
    exact hstore

theorem Line.Agree.pass (h : l.Agree) (compressCid : Bool) (hwf : WellFormed icp)
    (hok : l.sender.PacketOk icp) :
    ∃ l', l.pass compressCid icp = some (l', some icp) ∧ l'.Agree := by
  obtain ⟨ring, hring⟩ := h.ring
  obtain ⟨x, hx, hsent⟩ := compress_sent icp compressCid hring
  unfold Line.pass
  rw [hx, Option.map_some]
  cases hsent with
  | plain =>
    dsimp only
    rw [bump_plain hwf.version]
    exact ⟨l, rfl, h⟩
  | compressed comp slot changes newSeq hplain hcontrol harranged hmatches hincompat hdeltas =>
    have hcovers := hok hplain hcontrol slot harranged.slot hmatches (by
      unfold CState.compresses
      dsimp only
      rw [hincompat, hdeltas]
      rfl)
    obtain ⟨receiver, hbump, hagree⟩ := h.compressed compressCid harranged hwf
      hplain hcontrol hmatches hincompat hdeltas hcovers
    dsimp only
    rw [hbump]
    exact ⟨_, rfl, hagree⟩
  | uncompressed comp slot hplain hcontrol harranged =>
    obtain ⟨hout, hagree⟩ := h.uncompressed harranged hwf hplain hcontrol
    exact ⟨_, congrArg (fun out => some (_, out)) hout, hagree⟩

theorem Line.Agree.run (h : l.Agree) {packets : List (List Byte)}
    (hwf : ∀ icp ∈ packets, WellFormed icp) (hok : l.sender.RunOk compressCid packets) :
    ∃ l', l.run compressCid packets = some (l', packets.map some) ∧ l'.Agree := by
  induction packets generalizing l with
  | nil => exact ⟨l, rfl, h⟩
  | cons icp packets ih =>
    obtain ⟨hpacket, hrest⟩ := hok
    obtain ⟨l', hpass, hagree⟩ := h.pass compressCid
      (hwf icp mem_cons_self) hpacket
    have hsender : l'.sender.RunOk compressCid packets := by
      obtain ⟨x, hx, heq⟩ := Option.map_eq_some_iff.1 hpass
      have hsame : x.1 = l'.sender := congrArg (fun y => y.1.sender) heq
      exact hsame ▸ hrest x hx
    obtain ⟨l'', hrun, hagree'⟩ := ih hagree (fun icp hicp => hwf icp (mem_cons_of_mem _ hicp))
      hsender
    refine ⟨l'', ?_, hagree'⟩
    unfold Line.run
    rw [hpass, Option.bind_some]
    dsimp only
    rw [hrun]
    rfl

theorem init_chain (slots n : ℕ) : (List.range (n + 1)).reverse.IsChain fun a b =>
    (init slots).sender.next a = b := by
  induction n with
  | zero => exact .singleton 0
  | succ n ih =>
    rw [range_succ, reverse_append]
    rw [range_succ, reverse_append] at ih ⊢
    exact isChain_cons_cons.2 ⟨rfl, ih⟩

theorem init_agree {slots : ℕ} (h0 : 0 < slots) (h : slots < 256) : (init slots).Agree := by
  obtain ⟨n, rfl⟩ : ∃ n, slots = n + 1 := ⟨slots - 1, by omega⟩
  refine ⟨rfl, ?_, fun _ => ⟨.inl rfl, rfl, rfl, rfl⟩, fun hne => absurd rfl hne,
    ⟨(List.range (n + 1)).reverse, ⟨?_, ?_, ?_⟩, ?_⟩, ?_⟩
  · change n + 1 - 1 < 255
    omega
  · have hchain := init_chain (n + 1) n
    rw [range_succ, reverse_append] at hchain ⊢
    exact isChain_cons_cons.2 ⟨rfl, hchain⟩
  · rw [range_succ_eq_map, reverse_cons]
    exact List.getLast?_concat
  · exact nodup_reverse.2 nodup_range
  · intro i hi
    rw [mem_reverse, mem_range] at hi
    change i ≤ n + 1 - 1
    omega
  · intro _ hversion
    cases hversion

/-- In every run whose packets meet the condition each packet comes out as it went in, and
after each of them the two ends have the same states. -/
theorem run_roundTrip {slots : ℕ} (h0 : 0 < slots) (h : slots < 256) (compressCid : Bool)
    {packets : List (List Byte)} (hwf : ∀ icp ∈ packets, WellFormed icp)
    (hok : (init slots).sender.RunOk compressCid packets) {sent : List (List Byte)}
    (hsent : sent <+: packets) :
    ∃ l, (init slots).run compressCid sent = some (l, sent.map some) ∧
      ∀ slot < slots, Same (l.sender.tstate slot) (l.receiver.rstate slot) := by
  obtain ⟨rest, rfl⟩ := hsent
  obtain ⟨l, hrun, hagree⟩ := (init_agree h0 h).run
    (fun icp hicp => hwf icp (mem_append_left rest hicp)) hok.take
  exact ⟨l, hrun, fun slot _ => hagree.same slot⟩

def tcpPacket (id : ℕ) (seq ackSeq : BitVec 32) (urg : Bool) (window : BitVec 16)
    (tcpopt data : List Byte) : List Byte :=
  let ip : IpHdr :=
    { ihl := 5, version := 4, tos := 0
      totLen := ntohs (BitVec.ofNat 16 (40 + tcpopt.length + data.length))
      id := ntohs (BitVec.ofNat 16 id), fragOff := 0, ttl := 64, protocol := IPPROTO_TCP, check := 0
      saddr := 0x0100000a, daddr := 0x0200000a }
  let th : TcpHdr :=
    { source := ntohs 1024, dest := ntohs 23, seq := ntohl seq, ackSeq := ntohl ackSeq, res1 := 0
      doff := BitVec.ofNat 4 (5 + tcpopt.length / 4), fin := false, syn := false, rst := false
      psh := false, ack := true, urg := urg, res2 := 0, window := ntohs window, check := 0x1234
      urgPtr := 0 }
  { ip with check := ipCsum ip.bytes }.bytes ++ th.bytes ++ tcpopt ++ data

def dataRun : List (List Byte) :=
  [tcpPacket 1 100 500 false 1000 [] [1, 2, 3], tcpPacket 2 103 500 false 1000 [] [4, 5],
    tcpPacket 3 105 600 false 1400 [] []]

def shrinkRun : List (List Byte) :=
  [tcpPacket 1 100 500 false 1000 [] [], tcpPacket 2 100 501 false 999 [] []]

def stampRun : List (List Byte) :=
  [tcpPacket 1 100 500 false 1000 [1, 1, 8, 10, 0, 0, 0, 1, 0, 0, 0, 0] [],
    tcpPacket 2 100 501 false 1000 [1, 1, 8, 10, 0, 0, 0, 2, 0, 0, 0, 0] []]

def urgentRun : List (List Byte) :=
  [tcpPacket 1 100 500 true 1000 [] [1, 2, 3], tcpPacket 2 103 500 false 1000 [] [4]]

theorem run_roundTrip_dataRun : ∃ l, (init 16).run true dataRun = some (l, dataRun.map some) ∧
    ∀ slot < 16, Same (l.sender.tstate slot) (l.receiver.rstate slot) :=
  run_roundTrip (by decide) (by decide) true (by decide +kernel) (by decide +kernel)
    (prefix_refl dataRun)

/-- Packets of these runs come out with a wrong window, a wrong option, and an urgent flag. -/
theorem shrinkRun_stampRun_urgentRun_changed :
    (∀ icp ∈ shrinkRun ++ stampRun ++ urgentRun, WellFormed icp) ∧
      ((init 16).run true shrinkRun).map Prod.snd ≠ some (shrinkRun.map some) ∧
        ((init 16).run true stampRun).map Prod.snd ≠ some (stampRun.map some) ∧
          ((init 16).run true urgentRun).map Prod.snd ≠ some (urgentRun.map some) := by
  decide +kernel

end LinuxKernel.Slhc
