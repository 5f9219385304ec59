import LinuxKernel.ListUpdate
import LinuxKernel.SkbModel

/-!
# What sockets are charged for

The counters of a socket follow its buffers as long as every buffer keeps the owner it was
charged to until it is freed.  `arp_send_q` breaks this: it takes the owner away from a
buffer that it gives up.
-/

namespace LinuxKernel.Skb
open List

open ListUpdate

variable {n : Net} {skb sk : ℕ} {b : SkBuff} {rw : Rw}

def Sock.counter (s : Sock) : Rw → ℤ
  | .read => s.rmemAlloc
  | .write => s.wmemAlloc

def SkBuff.share (sk : ℕ) (rw : Rw) (b : SkBuff) : ℤ :=
  if b.good ∧ b.charged = some (sk, rw) then b.memLen else 0

def SkBuff.size (b : SkBuff) : ℤ := if b.good then b.memLen else 0

def Net.total (n : Net) (f : SkBuff → ℤ) : ℤ := (n.bufs.map f).sum

/-- The counters are the sums over the buffers that are not yet freed, and no buffer was
freed twice. -/
structure AccountsOk (n : Net) : Prop where
  counter : ∀ sk rw, (n.socks sk).counter rw = n.total (SkBuff.share sk rw)
  netMemory : n.netMemory = n.total SkBuff.size
  once : ∀ b ∈ n.bufs, b.frees = if b.good then 0 else 1

def Net.Live (n : Net) (skb : ℕ) : Prop := ∃ b, n.bufs[skb]? = some b ∧ b.good

/-- The buffers have the owner they were charged to, and those on the queue of `arp.c` are
there once and not freed. -/
structure Inv (n : Net) : Prop extends AccountsOk n where
  owner : ∀ b ∈ n.bufs, b.good → b.sk = b.charged.map Prod.fst
  queued : ∀ skb ∈ n.queued, n.Live skb
  nodup : n.queued.Nodup

/-! ## Sums -/

theorem total_setBuf (f : SkBuff → ℤ) (g : SkBuff → SkBuff) (hb : n.bufs[skb]? = some b) :
    (n.setBuf skb g).total f = n.total f - f b + f (g b) := by
  unfold Net.total Net.setBuf
  rw [modify_eq_set_of_getElem? g hb, sum_map_set f _ hb]

variable {g : SkBuff → SkBuff}

theorem mem_setBuf {c : SkBuff} (hc : c ∈ (n.setBuf skb g).bufs)
    (hb : n.bufs[skb]? = some b) : c ∈ n.bufs ∨ c = g b := by
  unfold Net.setBuf at hc
  rw [modify_eq_set_of_getElem? g hb] at hc
  exact mem_or_eq_of_mem_set hc

theorem setBuf_of_none (hb : n.bufs[skb]? = none) : n.setBuf skb g = n := by
  unfold Net.setBuf
  rw [modify_eq_self (List.getElem?_eq_none_iff.1 hb)]

theorem getElem?_setBuf (i : ℕ) :
    (n.setBuf skb g).bufs[i]? = if i = skb then n.bufs[i]?.map g else n.bufs[i]? := by
  unfold Net.setBuf
  by_cases hi : i = skb
  · simp [hi]
  · simp [hi, Ne.symm hi]

theorem live_setBuf
    (hgood : ∀ b, n.bufs[skb]? = some b → (g b).good = b.good) {i : ℕ}
    (hlive : n.Live i) : (n.setBuf skb g).Live i := by
  obtain ⟨b, hb, hbgood⟩ := hlive
  unfold Net.Live
  rw [getElem?_setBuf, hb]
  split
  · rename_i hi
    rw [hi] at hb
    exact ⟨g b, rfl, (hgood b hb).trans hbgood⟩
  · exact ⟨b, rfl, hbgood⟩

theorem mem_of_getElem? (hb : n.bufs[skb]? = some b) : b ∈ n.bufs := List.mem_of_getElem? hb

@[simp] theorem counter_charge (s : Sock) (rw rw' : Rw) (x : ℤ) :
    (s.charge rw x).counter rw' = s.counter rw' + if rw' = rw then x else 0 := by
  cases rw <;> cases rw' <;> simp [Sock.charge, Sock.counter]

theorem counter_setSock (n : Net) (sk sk' : ℕ) (rw rw' : Rw) (x : ℤ) :
    ((n.setSock sk (·.charge rw x)).socks sk').counter rw' =
      (n.socks sk').counter rw' + if (sk', rw') = (sk, rw) then x else 0 := by
  unfold Net.setSock
  by_cases hsk : sk' = sk
  · subst hsk
    simp
  · simp [hsk]

/-! ## Changes that the counters do not see -/

structure SkBuff.Same (b c : SkBuff) : Prop where
  good : c.good = b.good
  memLen : c.memLen = b.memLen
  charged : c.charged = b.charged
  frees : c.frees = b.frees
  sk : c.sk = b.sk

section
variable (hn : Inv n)
include hn

theorem Inv.setBuf (g : SkBuff → SkBuff) (hsame : ∀ b, n.bufs[skb]? = some b → b.Same (g b)) :
    Inv (n.setBuf skb g) := by
  cases hb : n.bufs[skb]? with
  | none =>
    rw [setBuf_of_none hb]
    exact hn
  | some b =>
    have hmem := mem_of_getElem? hb
    have hb' := hsame b hb
    refine ⟨⟨?_, ?_, ?_⟩, ?_, ?_, hn.nodup⟩
    · intro k rw
      rw [total_setBuf _ g hb]
      have hshare : SkBuff.share k rw (g b) = SkBuff.share k rw b := by
        simp only [SkBuff.share, hb'.good, hb'.charged, hb'.memLen]
      have := hn.counter k rw
      change (n.socks k).counter rw = _
      omega
    · rw [total_setBuf _ g hb]
      have hsize : (g b).size = b.size := by
        simp only [SkBuff.size, hb'.good, hb'.memLen]
      have := hn.netMemory
      change n.netMemory = _
      omega
    · intro c hc
      rcases mem_setBuf hc hb with hc | rfl
      · exact hn.once c hc
      · rw [hb'.frees, hb'.good]
        exact hn.once b hmem
    · intro c hc hcgood
      rcases mem_setBuf hc hb with hc | rfl
      · exact hn.owner c hc hcgood
      · rw [hb'.good] at hcgood
        rw [hb'.sk, hb'.charged]
        exact hn.owner b hmem hcgood
    · intro i hi
      exact live_setBuf (fun b hb => (hsame b hb).good) (hn.queued i hi)

theorem Inv.setFree (free : ℕ) : Inv (n.setBuf skb fun b => { b with free := free }) :=
  hn.setBuf _ fun _ _ => ⟨rfl, rfl, rfl, rfl, rfl⟩

theorem Inv.setTries (t : BitVec 8 → BitVec 8) :
    Inv (n.setBuf skb fun b => { b with tries := t b.tries }) :=
  hn.setBuf _ fun _ _ => ⟨rfl, rfl, rfl, rfl, rfl⟩

theorem Inv.setLock (l : BitVec 8 → BitVec 8) :
    Inv (n.setBuf skb fun b => { b with lock := l b.lock }) :=
  hn.setBuf _ fun _ _ => ⟨rfl, rfl, rfl, rfl, rfl⟩

theorem Inv.setArp : Inv (n.setBuf skb fun b => { b with arp := true }) :=
  hn.setBuf _ fun _ _ => ⟨rfl, rfl, rfl, rfl, rfl⟩

theorem Inv.setQueue {arpQ : List ℕ} {working : List (List ℕ)}
    (hsub : ∀ skb ∈ arpQ ++ working.flatten, skb ∈ n.queued)
    (hnodup : (arpQ ++ working.flatten).Nodup) : Inv { n with arpQ := arpQ, working := working } :=
  ⟨⟨hn.counter, hn.netMemory, hn.once⟩, hn.owner, fun skb hskb => hn.queued skb (hsub skb hskb),
    hnodup⟩

end

def fresh (size : ℕ) (charged : Option (ℕ × Rw)) : SkBuff :=
  { good := true, sk := charged.map Prod.fst, memLen := size, free := 2, lock := 0,
    tries := 0, arp := false, charged := charged, frees := 0 }

theorem total_allocSkb (f : SkBuff → ℤ) (size : ℕ) (charged : Option (ℕ × Rw)) :
    (n.allocSkb size charged).total f = n.total f + f (fresh size charged) := by
  simp [Net.total, Net.allocSkb, fresh]

theorem Inv.alloc (hn : Inv n) {size : ℕ} {charged : Option (ℕ × Rw)} {socks : ℕ → Sock}
    (hsocks : ∀ sk rw, (socks sk).counter rw =
      (n.socks sk).counter rw + if charged = some (sk, rw) then (size : ℤ) else 0) :
    Inv { n.allocSkb size charged with socks := socks } := by
  refine ⟨⟨?_, ?_, ?_⟩, ?_, ?_, hn.nodup⟩
  · intro k rw
    change (socks k).counter rw = (n.allocSkb size charged).total _
    rw [total_allocSkb, hsocks, hn.counter]
    simp [SkBuff.share, fresh]
  · change n.netMemory + size = (n.allocSkb size charged).total _
    rw [total_allocSkb, hn.netMemory]
    simp [SkBuff.size, fresh]
  · intro b hb
    rcases mem_append.1 hb with hb | hb
    · exact hn.once b hb
    · obtain rfl := mem_singleton.1 hb
      rfl
  · intro b hb hgood
    rcases mem_append.1 hb with hb | hb
    · exact hn.owner b hb hgood
    · obtain rfl := mem_singleton.1 hb
      rfl
  · intro i hi
    obtain ⟨b, hb, hgood⟩ := hn.queued i hi
    have hlt := (List.getElem?_eq_some_iff.1 hb).1
    exact ⟨b, (List.getElem?_append_left hlt).trans hb, hgood⟩

theorem Inv.sockMalloc (hn : Inv n) (rw : Rw) (sk : Option ℕ) (size : ℕ)
    (force memory : Bool) : Inv (n.sockMalloc rw sk size force memory) := by
  unfold Net.sockMalloc
  cases sk with
  | none =>
    dsimp only
    split
    · exact hn.alloc (by simp)
    · exact hn
  | some sk =>
    dsimp only
    split
    · split
      · apply hn.alloc
        intro k rw'
        have hcharge := counter_setSock (n.allocSkb size (some (sk, rw))) sk k rw rw' size
        have hiff : (k, rw') = (sk, rw) ↔ some (sk, rw) = some (k, rw') := by
          rw [Option.some_inj]
          exact eq_comm
        rw [if_congr hiff rfl rfl] at hcharge
        exact hcharge
      · exact hn
    · exact hn

theorem Inv.take (hn : Inv n) (sk : ℕ) (hb : n.bufs[skb]? = some b) (hgood : b.good)
    (hnew : b.charged = none) : Inv (n.take skb sk) := by
  have hmem := mem_of_getElem? hb
  have htake : n.take skb sk =
      (n.setBuf skb fun b => { b with sk := some sk, charged := some (sk, .read) }).setSock sk
        (·.charge .read b.memLen) := by
    simp only [Net.take, hb]
  rw [htake]
  refine ⟨⟨?_, ?_, ?_⟩, ?_, ?_, hn.nodup⟩
  · intro k rw
    rw [counter_setSock]
    change (n.socks k).counter rw + _ = (n.setBuf skb _).total _
    rw [total_setBuf _ _ hb, hn.counter]
    have hold : SkBuff.share k rw b = 0 := by simp [SkBuff.share, hnew]
    have hshare : SkBuff.share k rw { b with sk := some sk, charged := some (sk, .read) } =
        if (k, rw) = (sk, Rw.read) then (b.memLen : ℤ) else 0 := by
      simp only [SkBuff.share, hgood, true_and, Option.some_inj]
      exact if_congr eq_comm rfl rfl
    omega
  · change n.netMemory = (n.setBuf skb _).total _
    rw [total_setBuf _ _ hb, hn.netMemory]
    simp only [SkBuff.size]
    omega
  · intro c hc
    rcases mem_setBuf hc hb with hc | rfl
    · exact hn.once c hc
    · exact hn.once b hmem
  · intro c hc hcgood
    rcases mem_setBuf hc hb with hc | rfl
    · exact hn.owner c hc hcgood
    · rfl
  · intro i hi
    exact live_setBuf (g := fun b => { b with sk := some sk, charged := some (sk, .read) })
      (fun _ _ => rfl) (hn.queued i hi)

def SkBuff.dead (b : SkBuff) : SkBuff := { b with good := false, frees := b.frees + 1 }

theorem kfreeSkbmem_eq (hb : n.bufs[skb]? = some b) (hgood : b.good) (size : ℕ) :
    n.kfreeSkbmem skb size = { n.setBuf skb SkBuff.dead with
      netSkbcount := n.netSkbcount - 1, netMemory := n.netMemory - size } := by
  simp only [Net.kfreeSkbmem, hb, hgood, if_true]
  rfl

theorem kfreeSkb_eq (rw : Rw) (hb : n.bufs[skb]? = some b) (hgood : b.good) (hlock : b.lock = 0) :
    ∃ socks : ℕ → Sock, n.kfreeSkb skb rw = { n.setBuf skb SkBuff.dead with
        socks := socks, netSkbcount := n.netSkbcount - 1, netMemory := n.netMemory - b.memLen } ∧
      ∀ k rw', (socks k).counter rw' =
        (n.socks k).counter rw' - if b.sk = some k ∧ rw' = rw then (b.memLen : ℤ) else 0 := by
  have hsock : ∀ sk, b.sk = some sk → ∀ k rw',
      ((n.setSock sk (·.charge rw (-b.memLen))).socks k).counter rw' =
        (n.socks k).counter rw' - if b.sk = some k ∧ rw' = rw then (b.memLen : ℤ) else 0 := by
    intro sk hsk k rw'
    rw [counter_setSock, hsk]
    by_cases hk : k = sk
    · subst hk
      by_cases hrw : rw' = rw
      · simp [hrw, sub_eq_add_neg]
      · simp [hrw]
    · simp [hk, Ne.symm hk]
  unfold Net.kfreeSkb
  rw [hb]
  dsimp only
  rw [if_neg (not_not_intro hlock)]
  generalize hsk : b.sk = owner at *
  cases owner with
  | none =>
    exact ⟨n.socks, kfreeSkbmem_eq hb hgood _, by simp⟩
  | some sk =>
    refine ⟨(n.setSock sk (·.charge rw (-b.memLen))).socks, ?_, hsock sk rfl⟩
    dsimp only
    split
    · cases rw with
      | read =>
        simp only [Net.sockRfree, Net.sockFree, kfreeSkbmem_eq hb hgood]
        rfl
      | write =>
        simp only [Net.sockWfree, Net.sockFree, kfreeSkbmem_eq hb hgood]
        rfl
    · have hb' : (n.setSock sk (·.charge rw (-b.memLen))).bufs[skb]? = some b := hb
      rw [kfreeSkbmem_eq hb' hgood]
      rfl

section
variable (hn : Inv n) (hb : n.bufs[skb]? = some b) (hgood : b.good)
  (hrw : ∀ c ∈ b.charged, c.2 = rw)
include hn hb hgood hrw

theorem Inv.share_eq (k : ℕ) (rw' : Rw) :
    SkBuff.share k rw' b = if b.sk = some k ∧ rw' = rw then (b.memLen : ℤ) else 0 := by
  have howner := hn.owner b (mem_of_getElem? hb) hgood
  unfold SkBuff.share
  simp only [hgood, true_and]
  cases hcharged : b.charged with
  | none =>
    rw [hcharged] at howner
    simp [howner]
  | some c =>
    have hdir := hrw c hcharged
    rw [hcharged] at howner
    rw [howner]
    obtain ⟨sk, d⟩ := c
    subst hdir
    simp [Prod.ext_iff, eq_comm]

theorem Inv.kfreeSkb (hqueued : skb ∉ n.queued) : Inv (n.kfreeSkb skb rw) := by
  by_cases hlock : b.lock = 0
  · obtain ⟨socks, hfree, hcounter⟩ := kfreeSkb_eq rw hb hgood hlock
    rw [hfree]
    have hmem := mem_of_getElem? hb
    refine ⟨⟨?_, ?_, ?_⟩, ?_, ?_, hn.nodup⟩
    · intro k rw'
      change (socks k).counter rw' = (n.setBuf skb SkBuff.dead).total _
      rw [total_setBuf _ _ hb, hcounter, hn.counter, ← hn.share_eq hb hgood hrw]
      simp [SkBuff.share, SkBuff.dead]
    · change n.netMemory - b.memLen = (n.setBuf skb SkBuff.dead).total _
      rw [total_setBuf _ _ hb, hn.netMemory]
      simp [SkBuff.size, SkBuff.dead, hgood]
    · intro c hc
      rcases mem_setBuf hc hb with hc | rfl
      · exact hn.once c hc
      · have honce := hn.once b hmem
        rw [if_pos hgood] at honce
        simp [SkBuff.dead, honce]
    · intro c hc hcgood
      rcases mem_setBuf hc hb with hc | rfl
      · exact hn.owner c hc hcgood
      · cases hcgood
    · intro i hi
      have hne : i ≠ skb := fun heq => hqueued (heq ▸ hi)
      obtain ⟨c, hc, hcgood⟩ := hn.queued i hi
      refine ⟨c, ?_, hcgood⟩
      rw [getElem?_setBuf, if_neg hne]
      exact hc
  · have hkeep : n.kfreeSkb skb rw = n.setBuf skb fun b => { b with free := 1 } := by
      unfold Net.kfreeSkb
      rw [hb]
      dsimp only
      rw [if_pos hlock]
    rw [hkeep]
    exact hn.setFree 1

end

theorem Inv.arpQueue (hn : Inv n) (hlive : n.Live skb) (linked : Bool) :
    Inv (n.arpQueue skb linked) := by
  have htries : Inv (n.setBuf skb fun b => { b with tries := ARP_MAX_TRIES }) :=
    hn.setTries fun _ => ARP_MAX_TRIES
  unfold Net.arpQueue
  dsimp only
  split
  · exact htries
  · rename_i hfree
    simp only [Bool.or_eq_true, decide_eq_true_eq, not_or] at hfree
    have hperm : (n.arpQ ++ [skb] ++ n.working.flatten).Perm (skb :: n.queued) := by
      rw [append_assoc, singleton_append]
      exact perm_middle
    refine ⟨⟨htries.counter, htries.netMemory, htries.once⟩, htries.owner, ?_, ?_⟩
    · intro i hi
      rcases mem_cons.1 (hperm.mem_iff.1 hi) with rfl | hi
      · exact live_setBuf (g := fun b => { b with tries := ARP_MAX_TRIES }) (fun _ _ => rfl) hlive
      · exact htries.queued i hi
    · exact hperm.nodup_iff.2 (nodup_cons.2 ⟨hfree.2, hn.nodup⟩)

theorem Inv.arpSendStart (hn : Inv n) : Inv n.arpSendStart := by
  have hsame : [] ++ (n.arpQ :: n.working).flatten = n.queued := by
    simp [Net.queued]
  apply hn.setQueue
  · intro i hi
    rwa [hsame] at hi
  · exact hn.nodup

theorem Inv.giveUp (hn : Inv n) (hb : n.bufs[skb]? = some b) (hgood : b.good)
    (hsk : b.sk = none) (hqueued : skb ∉ n.queued) :
    Inv (if b.free ≠ 0 then (n.setBuf skb fun b => { b with sk := none }).kfreeSkb skb .write
      else n.setBuf skb fun b => { b with sk := none }) := by
  have hnone : Inv (n.setBuf skb fun b => { b with sk := none }) := by
    apply hn.setBuf
    intro c hc
    rw [hb] at hc
    cases hc
    exact ⟨rfl, rfl, rfl, rfl, hsk.symm⟩
  split
  · have hb' : (n.setBuf skb fun b => { b with sk := none }).bufs[skb]? =
        some { b with sk := none } := by
      rw [getElem?_setBuf, if_pos rfl, hb]
      rfl
    have hcharged : b.charged = none := by
      have howner := hn.owner b (mem_of_getElem? hb) hgood
      rw [hsk] at howner
      exact Option.map_eq_none_iff.1 howner.symm
    apply hnone.kfreeSkb hb' hgood
    · intro c hc
      rw [hcharged] at hc
      cases hc
    · exact hqueued
  · exact hnone

theorem Inv.requeue (hn : Inv n) (hlive : n.Live skb) (hqueued : skb ∉ n.queued) :
    Inv { n with arpQ := skb :: n.arpQ } := by
  refine ⟨⟨hn.counter, hn.netMemory, hn.once⟩, hn.owner, ?_, ?_⟩
  · intro i hi
    rcases mem_cons.1 hi with rfl | hi
    · exact hlive
    · exact hn.queued i hi
  · exact nodup_cons.2 ⟨hqueued, hn.nodup⟩

def DropOk (n : Net) : Prop :=
  ∀ skb ∈ n.working.head?.bind List.head?, ∀ b ∈ n.bufs[skb]?, b.tries - 1 = 0 → b.sk = none

theorem Inv.arpSendTurn (hn : Inv n) (hdrop : DropOk n) (built : Bool) :
    Inv (n.arpSendTurn built) := by
  unfold Net.arpSendTurn
  split
  · exact hn
  · rename_i outer hworking
    have hsame : n.arpQ ++ outer.flatten = n.queued := by simp [Net.queued, hworking]
    apply hn.setQueue
    · intro i hi
      rwa [hsame] at hi
    · rw [hsame]
      exact hn.nodup
  · rename_i skb workQ outer hworking
    -- the buffer is off the queue from here on
    have hperm : n.queued.Perm (skb :: (n.arpQ ++ (workQ :: outer).flatten)) := by
      unfold Net.queued
      rw [hworking]
      exact perm_middle
    have hnodup := hperm.nodup_iff.1 hn.nodup
    rw [nodup_cons] at hnodup
    have hoff : Inv { n with working := workQ :: outer } :=
      hn.setQueue (fun i hi => hperm.mem_iff.2 (mem_cons_of_mem _ hi)) hnodup.2
    have htries : Inv (({ n with working := workQ :: outer } : Net).setBuf skb
        fun b => { b with tries := b.tries - 1 }) := hoff.setTries (· - 1)
    obtain ⟨b, hb, hgood⟩ := hn.queued skb (hperm.mem_iff.2 mem_cons_self)
    have hdropped := hdrop skb (by simp [hworking]) b hb
    have hb1 : (({ n with working := workQ :: outer } : Net).setBuf skb
        fun b => { b with tries := b.tries - 1 }).bufs[skb]? =
          some { b with tries := b.tries - 1 } := by
      rw [getElem?_setBuf, if_pos rfl]
      rw [hb]
      rfl
    dsimp only
    rw [hb1]
    dsimp only
    split
    · rename_i hzero
      have hgiven := htries.giveUp hb1 hgood (hdropped hzero) hnodup.1
      exact hgiven
    · split
      · exact htries.setArp
      · exact htries.requeue ⟨_, hb1, hgood⟩ hnodup.1

/-! ## Steps and runs -/

/-- The freed buffer is there, no queue holds it, and it goes back to the counter it was
charged to. -/
def FreeOk (n : Net) (skb : ℕ) (rw : Rw) : Prop :=
  n.Live skb ∧ skb ∉ n.queued ∧ ∀ b ∈ n.bufs[skb]?, ∀ c ∈ b.charged, c.2 = rw

/-- What the callers see to: they name buffers that are there, they free a buffer once, on
the side it was charged to and off the queue, and a buffer is charged once. -/
def Promised (n : Net) : Event → Prop
  | .wmalloc _ _ _ _ | .rmalloc _ _ _ _ | .arpSendStart | .arpSendTurn _ => True
  | .take skb _ => n.Live skb ∧ ∀ b ∈ n.bufs[skb]?, b.charged = none
  | .setFree skb _ | .keep skb | .arpQueue skb _ => n.Live skb
  | .kfreeSkb skb rw => FreeOk n skb rw
  | .release skb mode =>
    n.Live skb ∧ ∀ b ∈ n.bufs[skb]?, b.lock = 1 → b.free = 1 → FreeOk n skb mode

def StepOk (n : Net) : Event → Prop
  | .arpSendTurn _ => DropOk n
  | _ => True

theorem Inv.release (hn : Inv n) {mode : Rw}
    (hpromise : n.Live skb ∧ ∀ b ∈ n.bufs[skb]?, b.lock = 1 → b.free = 1 → FreeOk n skb mode) :
    Inv (n.skbDeviceRelease skb mode) := by
  obtain ⟨⟨b, hb, hgood⟩, hfree⟩ := hpromise
  have hlock : Inv (n.setBuf skb fun b => { b with lock := b.lock - 1 }) := hn.setLock (· - 1)
  have hb' : (n.setBuf skb fun b => { b with lock := b.lock - 1 }).bufs[skb]? =
      some { b with lock := b.lock - 1 } := by
    rw [getElem?_setBuf, if_pos rfl, hb]
    rfl
  unfold Net.skbDeviceRelease
  dsimp only
  rw [hb']
  dsimp only
  split
  · rename_i hlast
    have hone : b.lock = 1 := by
      bv_omega
    obtain ⟨-, hqueued, hrw⟩ := hfree b hb hone hlast.2
    exact hlock.kfreeSkb hb' hgood (hrw b hb) hqueued
  · exact hlock

theorem Inv.step (hn : Inv n) {e : Event} (hpromise : Promised n e) (hok : StepOk n e) :
    Inv (step n e) := by
  cases e with
  | wmalloc sk size force memory => exact hn.sockMalloc .write sk size force memory
  | rmalloc sk size force memory => exact hn.sockMalloc .read sk size force memory
  | take skb sk =>
    obtain ⟨⟨b, hb, hgood⟩, hnew⟩ := hpromise
    exact hn.take sk hb hgood (hnew b hb)
  | setFree skb free => exact hn.setFree free
  | kfreeSkb skb rw =>
    obtain ⟨⟨b, hb, hgood⟩, hqueued, hrw⟩ := hpromise
    exact hn.kfreeSkb hb hgood (hrw b hb) hqueued
  | keep skb => exact hn.setLock (· + 1)
  | release skb mode => exact hn.release hpromise
  | arpQueue skb linked => exact hn.arpQueue hpromise linked
  | arpSendStart => exact hn.arpSendStart
  | arpSendTurn built => exact hn.arpSendTurn hok built

def RunOk (n : Net) : List Event → Prop
  | [] => True
  | e :: es => (Promised n e ∧ StepOk n e) ∧ RunOk (step n e) es

theorem boot_inv (socks : ℕ → Sock) : Inv (boot socks) := by
  refine ⟨⟨?_, rfl, ?_⟩, ?_, ?_, nodup_nil⟩
  · intro sk rw
    cases rw <;> rfl
  · intro b hb
    cases hb
  · intro b hb
    cases hb
  · intro skb hskb
    cases hskb

theorem Inv.run (hn : Inv n) {es : List Event} (hes : RunOk n es) : Inv (run n es) := by
  induction es generalizing n with
  | nil => exact hn
  | cons e es ih => exact ih (hn.step hes.1.1 hes.1.2) hes.2

def Net.Gone (n : Net) (sk : ℕ) : Prop := ∀ b ∈ n.bufs, b.good → ∀ c ∈ b.charged, c.1 ≠ sk

theorem AccountsOk.nonneg (hn : AccountsOk n) (sk : ℕ) (rw : Rw) : 0 ≤ (n.socks sk).counter rw := by
  rw [hn.counter]
  apply sum_nonneg
  intro x hx
  obtain ⟨b, -, rfl⟩ := mem_map.1 hx
  unfold SkBuff.share
  split
  · exact Int.natCast_nonneg _
  · exact le_rfl

theorem AccountsOk.counter_of_gone (hn : AccountsOk n) (hgone : n.Gone sk) (rw : Rw) :
    (n.socks sk).counter rw = 0 := by
  rw [hn.counter]
  apply sum_eq_zero
  intro x hx
  obtain ⟨b, hb, rfl⟩ := mem_map.1 hx
  unfold SkBuff.share
  split
  · rename_i hshare
    exact absurd rfl (hgone b hb hshare.1 _ hshare.2)
  · rfl

theorem AccountsOk.wspace_of_gone (hn : AccountsOk n) (hgone : n.Gone sk) :
    n.sockWspace sk = if (n.socks sk).sendShutdown then 0 else ((n.socks sk).sndbuf : ℤ) := by
  have hzero : (n.socks sk).wmemAlloc = 0 := hn.counter_of_gone hgone .write
  unfold Net.sockWspace
  dsimp only
  split
  · rfl
  · split
    · omega
    · omega

/-- In a run in which `arp_send_q` gives up no buffer of a socket the counters are right
after every step and never negative, and once the buffers of a socket are gone both its
counters are zero and its space is whole. -/
theorem run_accountsOk (socks : ℕ → Sock) (es : List Event) (hes : RunOk (boot socks) es) :
    AccountsOk (run (boot socks) es) ∧
      ∀ sk, (∀ rw, 0 ≤ ((run (boot socks) es).socks sk).counter rw) ∧
        ((run (boot socks) es).Gone sk →
          (∀ rw, ((run (boot socks) es).socks sk).counter rw = 0) ∧
            (run (boot socks) es).sockWspace sk =
              if ((run (boot socks) es).socks sk).sendShutdown then 0
              else (((run (boot socks) es).socks sk).sndbuf : ℤ)) := by
  have hok : AccountsOk (run (boot socks) es) := ((boot_inv socks).run hes).toAccountsOk
  refine ⟨hok, fun sk => ⟨hok.nonneg sk, ?_⟩⟩
  intro hgone
  exact ⟨hok.counter_of_gone hgone, hok.wspace_of_gone hgone⟩

/-! ## One socket -/

instance : Decidable (n.Live skb) := decidable_of_iff (∃ b ∈ n.bufs[skb]?, b.good = true) Iff.rfl

instance : Decidable (FreeOk n skb rw) := inferInstanceAs (Decidable (_ ∧ _ ∧ _))

instance : Decidable (DropOk n) := by
  unfold DropOk
  infer_instance

instance (e : Event) : Decidable (Promised n e) :=
  match e with
  | .wmalloc _ _ _ _ | .rmalloc _ _ _ _ | .arpSendStart | .arpSendTurn _ =>
    inferInstanceAs (Decidable True)
  | .take skb _ => inferInstanceAs
      (Decidable (n.Live skb ∧ ∀ b ∈ n.bufs[skb]?, b.charged = none))
  | .setFree skb _ | .keep skb | .arpQueue skb _ => inferInstanceAs (Decidable (n.Live skb))
  | .kfreeSkb skb rw => inferInstanceAs (Decidable (FreeOk n skb rw))
  | .release skb mode => inferInstanceAs (Decidable
      (n.Live skb ∧ ∀ b ∈ n.bufs[skb]?, b.lock = 1 → b.free = 1 → FreeOk n skb mode))

instance (e : Event) : Decidable (StepOk n e) :=
  match e with
  | .arpSendTurn _ => inferInstanceAs (Decidable (DropOk n))
  | .wmalloc _ _ _ _ | .rmalloc _ _ _ _ | .take _ _ | .setFree _ _ | .kfreeSkb _ _ | .keep _
  | .release _ _ | .arpQueue _ _ | .arpSendStart => inferInstanceAs (Decidable True)

instance decidableRunOk : (n : Net) → (es : List Event) → Decidable (RunOk n es)
  | _, [] => inferInstanceAs (Decidable True)
  | n, e :: es =>
    have := decidableRunOk (step n e) es
    inferInstanceAs (Decidable ((Promised n e ∧ StepOk n e) ∧ RunOk (step n e) es))

def oneSock (_ : ℕ) : Sock :=
  { wmemAlloc := 0, rmemAlloc := 0, sndbuf := 8192, rcvbuf := 32767, sendShutdown := false,
    inet := true }

def sendQ (built : Bool) : List Event := [.arpSendStart, .arpSendTurn built, .arpSendTurn built]

/-- A buffer finds its address at the second try, is sent while the device holds it, and a
buffer without an owner is given up. -/
def sentRun : List Event :=
  [.wmalloc (some 0) 1000 false true, .setFree 0 1, .arpQueue 0 false] ++ sendQ false ++
    sendQ true ++ [.keep 0, .kfreeSkb 0 .write, .release 0 .write] ++
      [.wmalloc none 200 false true, .setFree 1 1, .arpQueue 1 false] ++ sendQ false ++
        sendQ false ++ sendQ false

theorem run_accountsOk_sentRun :
    AccountsOk (run (boot oneSock) sentRun) ∧ (run (boot oneSock) sentRun).sockWspace 0 = 8192 := by
  obtain ⟨hok, hgone⟩ := run_accountsOk oneSock sentRun (by decide +kernel)
  exact ⟨hok, ((hgone 0).2 (by unfold Net.Gone; decide +kernel)).2⟩

def unansweredRun : List Event :=
  [.wmalloc (some 0) 1000 false true, .setFree 0 1, .arpQueue 0 false] ++ sendQ false ++
    sendQ false ++ sendQ false

/-- After three tries the buffer is freed, and the socket stays charged for it. -/
theorem unansweredRun_stays_charged :
    (run (boot oneSock) unansweredRun).Gone 0 ∧
      ((run (boot oneSock) unansweredRun).socks 0).wmemAlloc = 1000 ∧
      (run (boot oneSock) unansweredRun).sockWspace 0 = 7192 ∧
      ¬AccountsOk (run (boot oneSock) unansweredRun) := by
  have hgone : (run (boot oneSock) unansweredRun).Gone 0 := by
    unfold Net.Gone
    decide +kernel
  have hcharged : ((run (boot oneSock) unansweredRun).socks 0).wmemAlloc = 1000 := by
    decide +kernel
  refine ⟨hgone, hcharged, by decide +kernel, ?_⟩
  intro hok
  have hzero : ((run (boot oneSock) unansweredRun).socks 0).wmemAlloc = 0 :=
    hok.counter_of_gone hgone .write
  omega

end LinuxKernel.Skb
