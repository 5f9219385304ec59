import LinuxKernel.TcpReceiveInvariant

/-!
# The window that is offered is not taken back

`tcp_select_window` never goes below the window of the socket, and everything that
sends keeps what it offers in `sk->window`, but for the probes of `tcp_write_wakeup`.
So the right edge of successive segments moves to the right in every run whose probes
offer the window that the socket has.
-/

namespace LinuxKernel.Tcp

def RunRemembers (sk : Sock) : List Event → Prop
  | [] => True
  | e :: es => StepRemembers sk e ∧ RunRemembers (sk.step e) es

theorem Kept.run {sk : Sock} (h : Kept True sk 0) {es : List Event}
    (hrun : RunRemembers sk es) : Kept True (sk.run es) 0 := by
  induction es generalizing sk with
  | nil => exact h
  | cons e es ih => exact ih (h.step e fun _ => hrun.1) hrun.2

/-- The right edge that a connection offers never moves to the left. -/
theorem run_never_shrinks (sk : Sock) (hfresh : sk.Fresh) (es : List Event)
    (hrun : RunRemembers sk es) : NeverShrinks (sk.run es).sent :=
  ((hfresh.kept True).run hrun).never_shrinks trivial

def smallBuffer : Sock where
  state := .established
  rcvShutdown := false
  sendShutdown := false
  err := 0
  zapped := false
  done := false
  ackedSeq := 1001
  copiedSeq := 1000
  finSeq := 1000
  sentSeq := 501
  writeSeq := 501
  rcvAckSeq := 501
  urgSeq := 0
  urgData := .none
  urginline := false
  window := 2048
  bytesRcv := 0
  ackBacklog := 0
  maxAckBacklog := 0
  maxUnacked := 2048
  delayAcks := false
  mtu := 1460
  mss := 1460
  maxWindow := 4096
  rcvbuf := 8192
  rmemAlloc := 0
  request := 0
  shutdowns := 0
  closes := 0
  rqueue := []
  sent := []

theorem smallBuffer_fresh : smallBuffer.Fresh where
  state := rfl
  open_rcv := rfl
  open_send := rfl
  err := rfl
  zapped := rfl
  copied := rfl
  urgData := rfl
  window := by decide
  rcvbuf := by decide
  rmem := rfl
  request := by decide
  shutdowns := rfl
  closes := rfl
  rqueue := rfl
  sent := rfl

theorem run_never_shrinks_writeAndProbe :
    NeverShrinks (smallBuffer.run [.write 10, .writeWakeup .ok, .write 10]).sent :=
  run_never_shrinks smallBuffer smallBuffer_fresh _ ⟨trivial, rfl, trivial, trivial⟩

/-- The buffer is made larger for the time of a probe: the probe offers 4096 bytes,
and the next segment 2048. -/
theorem probe_shrinks :
    ¬∀ sk : Sock, sk.Fresh → ∀ es : List Event, NeverShrinks (sk.run es).sent := by
  intro h
  have hrun := h smallBuffer smallBuffer_fresh
    [.setRcvbuf 32767, .writeWakeup .ok, .setRcvbuf 8192, .write 10]
  have hsent : (smallBuffer.run
      [.setRcvbuf 32767, .writeWakeup .ok, .setRcvbuf 8192, .write 10]).sent =
      [⟨1001, 2048⟩, ⟨1001, 4096⟩] := by
    rfl
  rw [hsent] at hrun
  unfold NeverShrinks at hrun
  rw [List.isChain_cons_cons] at hrun
  exact hrun.1 (by decide)

end LinuxKernel.Tcp
