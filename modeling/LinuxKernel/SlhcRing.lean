import LinuxKernel.CircularList
import LinuxKernel.SlhcModel

/-!
# The ring of connections

The search for a connection always ends: the states are in a circle, with `xmit_oldest` at its
end, and the search goes once around.
-/

namespace LinuxKernel.Slhc
open Function List

open CircularList

variable {comp : Sender} {ip : IpHdr} {th : TcpHdr} {l pre post : List ℕ} {lcs cs n : ℕ}
variable {found : Bool}

structure Sender.Ring (comp : Sender) (l : List ℕ) : Prop where
  circle : Circle comp.next comp.xmitOldest l
  slots : ∀ i ∈ l, i ≤ comp.tslotLimit

structure Sender.Located (comp : Sender) (ip : IpHdr) (th : TcpHdr) (l : List ℕ) (found : Bool)
    (lcs cs : ℕ) : Prop where
  place : ∃ pre post, l = pre ++ cs :: post ∧ (comp.xmitOldest :: pre).getLast? = some lcs ∧
    (found = false → post = [])
  same : found = true → comp.matches ip th cs = true

theorem search_located (h : Circle comp.next comp.xmitOldest l) (hl : l = pre ++ cs :: post)
    (hlcs : (comp.xmitOldest :: pre).getLast? = some lcs) (hn : post.length < n) :
    ∃ found lcs' cs', comp.search ip th comp.xmitOldest n lcs cs = some (found, lcs', cs') ∧
      comp.Located ip th l found lcs' cs' := by
  induction n generalizing pre cs post lcs with
  | zero => omega
  | succ n ih =>
    unfold Sender.search
    split
    · rename_i hmatches
      exact ⟨true, lcs, cs, rfl, ⟨pre, post, hl, hlcs, by simp⟩, fun _ => hmatches⟩
    · split
      · rename_i hend
        refine ⟨false, lcs, cs, rfl, ⟨pre, post, hl, hlcs, fun _ => ?_⟩, by simp⟩
        -- the last element stands at the end only
        have hlast := h.last
        have hnodup := h.nodup
        rw [hl] at hlast hnodup
        cases post with
        | nil => rfl
        | cons d post =>
          exfalso
          have hmem : comp.xmitOldest ∈ d :: post := by
            apply mem_of_getLast?
            simpa [List.getLast?_append] using hlast
          rw [nodup_append, nodup_cons] at hnodup
          exact hnodup.2.1.1 (hend ▸ hmem)
      · rename_i hend
        cases post with
        | nil =>
          have hlast := h.last
          rw [hl, List.getLast?_concat] at hlast
          exact absurd (Option.some_inj.1 hlast) hend
        | cons d post =>
          have hchain := h.chain
          rw [hl] at hchain
          obtain ⟨-, hnext, -⟩ := isChain_cons_append_cons_cons.1 hchain
          have hnext' : comp.next cs = d := hnext
          rw [hnext']
          refine ih (?_ : l = (pre ++ [cs]) ++ d :: post) ?_ ?_
          · simp [hl]
          · rw [← cons_append]
            exact List.getLast?_concat
          · simp only [length_cons] at hn
            omega

theorem Sender.Ring.search (h : comp.Ring l) (ip : IpHdr) (th : TcpHdr) :
    ∃ found lcs cs, comp.search ip th comp.xmitOldest (comp.tslotLimit + 1) comp.xmitOldest
        (comp.next comp.xmitOldest) = some (found, lcs, cs) ∧
      comp.Located ip th l found lcs cs := by
  cases l with
  | nil => cases h.circle.last
  | cons first rest =>
    have hfirst : comp.next comp.xmitOldest = first := (isChain_cons_cons.1 h.circle.chain).1
    rw [hfirst]
    refine search_located h.circle (nil_append _).symm rfl ?_
    -- there are no more elements than numbers
    have hsub : (first :: rest) ⊆ List.range (comp.tslotLimit + 1) := by
      intro i hi
      have := h.slots i hi
      rw [mem_range]
      omega
    have hlen := (h.circle.nodup.subperm hsub).length_le
    simp only [length_cons, length_range] at hlen
    omega

theorem reorder_slots (comp : Sender) (found : Bool) (lcs cs : ℕ) :
    (comp.reorder found lcs cs).tstate = comp.tstate ∧
      (comp.reorder found lcs cs).tslotLimit = comp.tslotLimit ∧
        (comp.reorder found lcs cs).xmitCurrent = comp.xmitCurrent := by
  unfold Sender.reorder
  dsimp only
  split_ifs <;> exact ⟨rfl, rfl, rfl⟩

theorem Sender.Ring.rotate (h : comp.Ring (pre ++ [comp.xmitOldest]))
    (hlcs : (comp.xmitOldest :: pre).getLast? = some lcs) :
    ∃ l, ({ comp with xmitOldest := lcs } : Sender).Ring l := by
  rcases eq_nil_or_concat' pre with rfl | ⟨pre, a, rfl⟩
  · obtain rfl : comp.xmitOldest = lcs := Option.some_inj.1 hlcs
    exact ⟨_, h⟩
  · rw [← cons_append, List.getLast?_concat] at hlcs
    obtain rfl : a = lcs := Option.some_inj.1 hlcs
    rw [append_assoc] at h
    refine ⟨_, h.circle.rotate, ?_⟩
    intro i hi
    apply h.slots i
    simp only [mem_cons, mem_append] at hi ⊢
    tauto

theorem Sender.Ring.reorder (h : comp.Ring l) (hplace : comp.Located ip th l found lcs cs) :
    ∃ l', (comp.reorder found lcs cs).Ring l' := by
  obtain ⟨⟨pre, post, hl, hlcs, hfound⟩, -⟩ := hplace
  have hlast := h.circle.last
  have hnodup := h.circle.nodup
  unfold Sender.reorder
  dsimp only
  split
  · split
    · exact ⟨l, h⟩
    · rename_i hfirst
      cases post with
      | nil =>
        rw [hl, List.getLast?_concat] at hlast
        obtain rfl : cs = comp.xmitOldest := Option.some_inj.1 hlast
        rw [if_pos rfl]
        rw [hl] at h
        exact h.rotate hlcs
      | cons d post =>
        have hcs : cs ≠ comp.xmitOldest := by
          intro heq
          have hmem : comp.xmitOldest ∈ d :: post := by
            apply mem_of_getLast?
            rw [hl] at hlast
            simpa [List.getLast?_append] using hlast
          rw [hl, nodup_append, nodup_cons] at hnodup
          exact hnodup.2.1.1 (heq ▸ hmem)
        rw [if_neg hcs]
        rcases eq_nil_or_concat' pre with rfl | ⟨pre, a, rfl⟩
        · exact absurd (Option.some_inj.1 hlcs).symm hfirst
        · rw [← cons_append, List.getLast?_concat] at hlcs
          obtain rfl : a = lcs := Option.some_inj.1 hlcs
          have hcircle := h.circle
          rw [hl, append_assoc] at hcircle
          have hsame : update comp.next a (comp.next cs) comp.xmitOldest =
              comp.next comp.xmitOldest := update_of_ne (Ne.symm hfirst) ..
          have hnext : update (update comp.next a (comp.next cs)) cs
              (update comp.next a (comp.next cs) comp.xmitOldest) =
                update (update comp.next a (comp.next cs)) cs
                  (comp.next comp.xmitOldest) := by
            rw [hsame]
          rw [hnext]
          refine ⟨_, hcircle.moveFront, ?_⟩
          intro i hi
          apply h.slots i
          rw [hl]
          simp only [mem_cons, mem_append] at hi ⊢
          tauto
  · rename_i hnot
    obtain rfl := hfound (by simpa using hnot)
    rw [hl, List.getLast?_concat] at hlast
    obtain rfl : cs = comp.xmitOldest := Option.some_inj.1 hlast
    rw [hl] at h
    exact h.rotate hlcs

end LinuxKernel.Slhc
