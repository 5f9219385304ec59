import LinuxKernel.LinkedCells
import LinuxKernel.SequenceNumber

/-!
# Sorting the send list

`sort_send` inserts the buffers of the send list one by one into a new list, through the same
`link3` fields.  The test for a new first element looks at the buffer after the one that is
inserted.
-/

namespace LinuxKernel.TcpSortSend
open Function List

abbrev Ptr := ℕ

def null : Ptr := 0

structure Sock where
  sendHead : Ptr
  sendTail : Ptr
  link3 : Ptr → Ptr
  seq : Ptr → Seq

inductive Stop
  /-- A read through `NULL`: the first page of the kernel is not mapped. -/
  | nullRead
  | fuel
deriving DecidableEq

namespace Sock

variable {sk sk' : Sock} {skb skb3 list y : Ptr} {skbs done : List Ptr}

def readSeq (sk : Sock) (skb : Ptr) : Except Stop Seq :=
  if skb = null then .error .nullRead else .ok (sk.seq skb)

def setLink3 (sk : Sock) (skb next : Ptr) : Sock := { sk with link3 := update sk.link3 skb next }

def linkAfter (sk : Sock) (skb skb3 : Ptr) : Sock :=
  let sk := sk.setLink3 skb (sk.link3 skb3)
  let sk := sk.setLink3 skb3 skb
  if sk.link3 skb = null then { sk with sendTail := skb } else sk

def insertAfter (sk : Sock) (skb : Ptr) : ℕ → Ptr → Except Stop Sock
  | 0, _ => .error .fuel
  | n + 1, skb3 =>
    if sk.link3 skb3 = null ∨ Seq.before (sk.seq skb) (sk.seq (sk.link3 skb3)) then
      .ok (sk.linkAfter skb skb3)
    else
      insertAfter sk skb n (sk.link3 skb3)

def prepend (sk : Sock) (skb list : Ptr) : Sock := { sk.setLink3 skb list with sendTail := skb }

def sortLoop : ℕ → Ptr → Ptr → Sock → Except Stop Sock
  | 0, _, _, _ => .error .fuel
  | n + 1, list, skb, sk =>
    if skb = null then
      .ok { sk with sendHead := list }
    else
      let skb2 := sk.link3 skb
      if list = null then
        sortLoop n skb skb2 (sk.prepend skb list)
      else do
        -- `before (skb2->h.seq, list->h.seq)`, not `skb->h.seq`
        let seq2 ← sk.readSeq skb2
        if Seq.before seq2 (sk.seq list) then
          sortLoop n skb skb2 (sk.prepend skb list)
        else
          let sk ← sk.insertAfter skb n list
          sortLoop n list skb2 sk

def sortSend (sk : Sock) (n : ℕ) : Except Stop Sock := sortLoop n null sk.sendHead sk

def Sorted (sk : Sock) (skbs : List Ptr) (sk' : Sock) : Prop :=
  sk'.seq = sk.seq ∧ ∃ sorted : List Ptr,
    Linked null sk'.link3 sk'.sendHead sorted ∧ sorted.Perm skbs ∧
      sorted.Pairwise (fun a b => Seq.before (sk.seq a) (sk.seq b)) ∧
      ∀ last ∈ sorted.getLast?, sk'.sendTail = last

theorem setLink3_of_ne {next z : Ptr} (h : z ≠ skb) : (sk.setLink3 skb next).link3 z = sk.link3 z :=
  update_of_ne h ..

theorem linked_prepend (hlist : Linked null sk.link3 list done) (hskb : skb ≠ null)
    (hmem : skb ∉ done) : Linked null (sk.prepend skb list).link3 skb (skb :: done) :=
  hlist.push hskb hmem

theorem linkAfter_link3 (skb skb3 : Ptr) :
    (sk.linkAfter skb skb3).link3 = update (update sk.link3 skb (sk.link3 skb3)) skb3 skb := by
  unfold linkAfter
  dsimp only
  split_ifs <;> rfl

section
variable (hlist : Linked null sk.link3 skb3 (y :: done)) (hnodup : (y :: done).Nodup)
  (hskb : skb ≠ null) (hmem : skb ∉ y :: done)
include hlist hnodup hskb hmem

theorem linked_linkAfter : Linked null (sk.linkAfter skb skb3).link3 skb3 (y :: skb :: done) := by
  obtain ⟨rfl, hy, hrest⟩ := hlist
  have hne : skb ≠ skb3 := fun h => hmem (by simp [h])
  rw [linkAfter_link3]
  refine ⟨rfl, hy, update_self .., hskb, ?_⟩
  rw [update_of_ne hne, update_self]
  apply hrest.congr
  intro z hz
  have hz3 : z ≠ skb3 := fun h => (nodup_cons.mp hnodup).1 (h ▸ hz)
  have hzskb : z ≠ skb := fun h => hmem (h ▸ mem_cons_of_mem _ hz)
  rw [update_of_ne hz3, update_of_ne hzskb]

theorem insertAfter_spec {n : ℕ} (hn : done.length < n) :
    ∃ sk' pre post, sk.insertAfter skb n skb3 = .ok sk' ∧ done = pre ++ post ∧
      Linked null sk'.link3 skb3 (y :: pre ++ skb :: post) ∧
      ∀ z, z ∉ skb :: y :: done → sk'.link3 z = sk.link3 z := by
  induction n generalizing skb3 y done with
  | zero => simp at hn
  | succ n ih =>
    unfold insertAfter
    split_ifs with hstop
    · refine ⟨_, [], done, rfl, rfl, linked_linkAfter hlist hnodup hskb hmem, ?_⟩
      intro z hz
      have hy : skb3 = y := hlist.1
      simp only [mem_cons, not_or] at hz
      rw [linkAfter_link3, hy, update_of_ne hz.2.1, update_of_ne hz.1]
    · obtain ⟨hy, hynull, hrest⟩ := hlist
      obtain ⟨x, rest, rfl⟩ : ∃ x rest, done = x :: rest := by
        cases done with
        | nil =>
          rw [← hy] at hrest
          exact absurd (.inl hrest) hstop
        | cons x rest => exact ⟨x, rest, rfl⟩
      rw [← hy] at hrest
      have hmem' : skb ∉ x :: rest := fun h => hmem (mem_cons_of_mem _ h)
      obtain ⟨sk', pre, post, hrun, hsplit, hlinked, hother⟩ :=
        ih hrest (nodup_cons.mp hnodup).2 hmem' (by simp at hn; omega)
      have hyrest : y ∉ skb :: x :: rest := by
        have hnot := (nodup_cons.mp hnodup).1
        have hne : y ≠ skb := fun h => hmem (by simp [h])
        simpa [hne] using hnot
      refine ⟨sk', x :: pre, post, hrun, by rw [hsplit]; rfl, ⟨hy, hynull, ?_⟩, ?_⟩
      · rw [hother y hyrest, ← hy]
        exact hlinked
      · intro z hz
        apply hother
        simp only [mem_cons, not_or] at hz ⊢
        exact ⟨hz.1, hz.2.2⟩

end

theorem sortLoop_nullRead {n : ℕ} (hlist : Linked null sk.link3 list done)
    (hdone : done ≠ []) (hskbs : Linked null sk.link3 skb skbs) (hrest : skbs ≠ [])
    (hnodup : (done ++ skbs).Nodup) (hn : done.length + 2 * skbs.length ≤ n) :
    sortLoop n list skb sk = .error .nullRead := by
  induction n generalizing sk list skb done skbs with
  | zero =>
    have hpos := length_pos_iff.mpr hdone
    omega
  | succ n ih =>
    obtain ⟨y, done, rfl⟩ := exists_cons_of_ne_nil hdone
    obtain ⟨x, skbs, rfl⟩ := exists_cons_of_ne_nil hrest
    obtain ⟨rfl, hskb, hskbs⟩ := hskbs
    have hlistnull : list ≠ null := hlist.1.trans_ne hlist.2.1
    rw [sortLoop, if_neg hskb]
    rw [if_neg hlistnull]
    by_cases hlast : skbs = []
    · have hnext : sk.link3 skb = null := by
        rw [hlast] at hskbs
        exact hskbs
      rw [readSeq, if_pos hnext]
      rfl
    · have hnext : sk.link3 skb ≠ null := by
        obtain ⟨z, rest, rfl⟩ := exists_cons_of_ne_nil hlast
        exact hskbs.1.trans_ne hskbs.2.1
      obtain ⟨hnodupDone, hnodupRest, hdisjoint⟩ := nodup_append.mp hnodup
      have hskbDone : skb ∉ y :: done := fun hmem => hdisjoint skb hmem skb (by simp) rfl
      have hskbRest : skb ∉ skbs := (nodup_cons.mp hnodupRest).1
      rw [readSeq, if_neg hnext]
      change (if Seq.before (sk.seq (sk.link3 skb)) (sk.seq list) = true then _ else _) = _
      split_ifs with hfirst
      · have hperm : (skb :: y :: done ++ skbs).Perm (y :: done ++ skb :: skbs) := perm_middle.symm
        have hpush : Linked null (sk.prepend skb list).link3 skb (skb :: y :: done) :=
          linked_prepend hlist hskb hskbDone
        have hskbs' : Linked null (sk.prepend skb list).link3 (sk.link3 skb) skbs :=
          hskbs.congr fun z hz => setLink3_of_ne fun h => hskbRest (h ▸ hz)
        exact ih hpush (by simp) hskbs' hlast (hperm.nodup_iff.mpr hnodup)
          (by simp at hn ⊢; omega)
      · obtain ⟨sk', pre, post, hrun, rfl, hlist', hother⟩ :=
          insertAfter_spec hlist hnodupDone hskb hskbDone (n := n) (by simp at hn; omega)
        have hperm : (y :: pre ++ skb :: post ++ skbs).Perm
            (y :: (pre ++ post) ++ skb :: skbs) := by
          have hinsert : (y :: pre ++ skb :: post).Perm (skb :: y :: (pre ++ post)) := perm_middle
          exact (hinsert.append_right skbs).trans perm_middle.symm
        have hskbs' : Linked null sk'.link3 (sk.link3 skb) skbs := by
          apply hskbs.congr
          intro z hz
          apply hother
          intro hmem
          rcases mem_cons.mp hmem with rfl | hmem
          · exact hskbRest hz
          · exact hdisjoint z hmem z (mem_cons_of_mem _ hz) rfl
        rw [hrun]
        exact ih hlist' (by simp) hskbs' hlast (hperm.nodup_iff.mpr hnodup)
          (by simp at hn ⊢; omega)

theorem sortSend_nullRead (hlist : Linked null sk.link3 sk.sendHead skbs)
    (hnodup : skbs.Nodup) (hlen : 1 < skbs.length) {n : ℕ} (hn : 2 * skbs.length ≤ n) :
    sk.sortSend n = .error .nullRead := by
  obtain ⟨x, y, rest, rfl⟩ : ∃ x y rest, skbs = x :: y :: rest := by
    match skbs, hlen with
    | x :: y :: rest, _ => exact ⟨x, y, rest, rfl⟩
  obtain ⟨n, rfl⟩ : ∃ k, n = k + 1 := ⟨n - 1, by simp at hn; omega⟩
  obtain ⟨hhead, hx, hrest⟩ := hlist
  have hnot : x ∉ y :: rest := (nodup_cons.mp hnodup).1
  rw [sortSend, sortLoop, hhead, if_neg hx]
  have hnil : Linked null sk.link3 null [] := rfl
  have hfirst : Linked null (sk.prepend x null).link3 x [x] := linked_prepend hnil hx not_mem_nil
  have hrest' : Linked null (sk.prepend x null).link3 (sk.link3 x) (y :: rest) :=
    hrest.congr fun z hz => setLink3_of_ne fun h => hnot (h ▸ hz)
  exact sortLoop_nullRead hfirst (by simp) hrest' (by simp) hnodup (by simp at hn ⊢; omega)

theorem sortSend_short (hlist : Linked null sk.link3 sk.sendHead skbs)
    (hlen : skbs.length ≤ 1) (n : ℕ) :
    ∃ sk', sk.sortSend (n + 2) = .ok sk' ∧ sk.Sorted skbs sk' := by
  match skbs, hlen, hlist with
  | [], _, hlist =>
    have hhead : sk.sendHead = null := hlist
    refine ⟨{ sk with sendHead := null }, ?_, rfl, [], ?_⟩
    · rw [sortSend, sortLoop, if_pos hhead]
    · simp [Linked]
  | [x], _, hlist =>
    obtain ⟨hhead, hx, hend⟩ := hlist
    have hnext : sk.link3 x = null := hend
    have hnil : Linked null sk.link3 null [] := rfl
    refine ⟨{ sk.prepend x null with sendHead := x }, ?_, rfl, [x], ?_, ?_⟩
    · rw [sortSend, sortLoop, hhead, if_neg hx]
      rw [if_pos rfl, hnext, sortLoop, if_pos rfl]
    · exact linked_prepend hnil hx not_mem_nil
    · simp [prepend]

/-- The send list gets sorted only where it has at most one buffer. -/
theorem sortSend_sorts_iff (sk : Sock) (skbs : List Ptr)
    (hlist : Linked null sk.link3 sk.sendHead skbs) (hdistinct : (skbs.map sk.seq).Nodup) :
    (∃ fuel, ∀ n ≥ fuel, ∃ sk', sk.sortSend n = .ok sk' ∧ sk.Sorted skbs sk') ↔
      skbs.length ≤ 1 := by
  constructor
  · rintro ⟨fuel, hsorts⟩
    by_contra hlen
    obtain ⟨sk', hrun, _⟩ := hsorts (max fuel (2 * skbs.length)) (Nat.le_max_left ..)
    have hnull := sortSend_nullRead hlist (List.Nodup.of_map _ hdistinct) (by omega)
      (Nat.le_max_right fuel (2 * skbs.length))
    rw [hrun] at hnull
    exact absurd hnull (by simp)
  · intro hlen
    refine ⟨2, fun n hn => ?_⟩
    obtain ⟨k, rfl⟩ := Nat.exists_eq_add_of_le' hn
    exact sortSend_short hlist hlen k

def oneBuffer : Sock where
  sendHead := 1
  sendTail := 1
  link3 := fun _ => null
  seq := fun _ => 7

theorem sortSend_sorts_oneBuffer :
    (∃ fuel, ∀ n ≥ fuel, ∃ sk', oneBuffer.sortSend n = .ok sk' ∧ oneBuffer.Sorted [1] sk') ↔
      [1].length ≤ 1 :=
  sortSend_sorts_iff oneBuffer [1] ⟨rfl, by decide, rfl⟩ (by decide)

def threeBuffers : Sock where
  sendHead := 1
  sendTail := 3
  link3 := fun skb => if skb = 1 then 2 else if skb = 2 then 3 else null
  seq := fun skb => if skb = 1 then 20 else if skb = 2 then 30 else 10

theorem sortSend_not_sorts : ¬ ∀ (sk : Sock) (skbs : List Ptr),
    Linked null sk.link3 sk.sendHead skbs → (skbs.map sk.seq).Nodup →
    (∃ start : Seq, ∀ skb ∈ skbs, (sk.seq skb - start).toNat < 2147483648) →
    ∃ fuel, ∀ n ≥ fuel, ∃ sk', sk.sortSend n = .ok sk' ∧ sk.Sorted skbs sk' := by
  intro h
  have hlist : Linked null threeBuffers.link3 threeBuffers.sendHead [1, 2, 3] :=
    ⟨rfl, by decide, rfl, by decide, rfl, by decide, rfl⟩
  obtain ⟨fuel, hsorts⟩ := h threeBuffers [1, 2, 3] hlist (by decide) ⟨10, by decide⟩
  obtain ⟨sk', hrun, _⟩ := hsorts (fuel + 6) (by omega)
  rw [sortSend_nullRead hlist (by decide) (by decide) (by simp)] at hrun
  exact absurd hrun (by simp)

end Sock
end LinuxKernel.TcpSortSend
