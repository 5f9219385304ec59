import LinuxKernel.ArpCache

/-!
# Runs of the ARP cache

One lemma for each function that is called from outside, then the step and the run.
-/

namespace LinuxKernel.Arp

variable {s s' : Cache} {paddr : BitVec 32} {dev : Device} {apt : ArpTable}
variable {kmalloc : Option (List Byte)}

/-! ## Received packets -/

variable {arp : ArpPacket} {alloc : Bool}

theorem CacheOk.arpResponse (hs : CacheOk s) {addrtype : AddrKind} (hfind : FindOk s arp.spa) :
    CacheOk (s.arpResponse arp dev addrtype alloc) ∧
      Used s (s.arpResponse arp dev addrtype alloc) := by
  have hreply : CacheOk (if alloc then s.hardHeader dev arp.spa else s) ∧
      Used s (if alloc then s.hardHeader dev arp.spa else s) := by
    split
    · exact hs.hardHeader hfind
    · exact ⟨hs, Used.refl s⟩
  unfold Cache.arpResponse
  split
  · exact hreply
  · have hsame := arpLookupProxy_fst arp.tpa hs.interrupts
    split
    all_goals
      rename_i hlookup
      rw [hlookup] at hsame
      subst hsame
    · exact ⟨hs, Used.refl _⟩
    · exact hreply

theorem CacheOk.arpAnswer (hs : CacheOk s) (arp : ArpPacket) (dev : Device)
    (dst : BitVec 32) (alloc : Bool)
    (hqueue : ∀ skb ∈ s.arpQ, skb.Resolves → FindOk s skb.dst) (hfind : FindOk s arp.spa) :
    CacheOk (s.arpAnswer arp dev dst alloc) ∧ Used s (s.arpAnswer arp dev dst alloc) := by
  have hsent := hs.arpSendQ hqueue
  unfold Cache.arpAnswer
  dsimp only
  split
  · exact hsent
  · split
    · exact hsent
    · split
      · exact hsent
      · obtain ⟨hok, hused⟩ := hsent.1.arpResponse (hfind.used hsent.2)
        exact ⟨hok, hsent.2.trans hused⟩

theorem permKept_learn (hentry : s.find arp.spa = some apt)
    (hsame : apt.perm → arp.sha = apt.hardware) :
    PermKept s (s.update arp.spa (arp.learn s.jiffies)) := by
  have hip : ∀ a, (arp.learn s.jiffies a).ip = a.ip := fun _ => rfl
  intro p a b ha hperm hb
  by_cases hp : p = arp.spa
  · subst hp
    rw [find_update_self hip hentry] at hb
    rw [hentry] at ha
    cases ha
    cases hb
    rw [← hsame hperm]
    simp [ArpTable.hardware, ArpPacket.learn, memcpy, arp.sha_length]
  · rw [find_update_of_ne hip hp, ha] at hb
    cases hb
    rfl

theorem publ_or_com (flags : BitVec 32) :
    (flags ||| ATF_COM) &&& ATF_PUBL = flags &&& ATF_PUBL := by
  rw [BitVec.and_or_distrib_right]
  simp [ATF_COM, ATF_PUBL]

theorem CacheOk.learn (hs : CacheOk s) : CacheOk (s.update paddr (arp.learn s.jiffies)) := by
  apply hs.update
  · intro a
    rfl
  · intro a
    show decide ((a.flags ||| ATF_COM) &&& ATF_PUBL ≠ 0) = _
    rw [publ_or_com]
    rfl

theorem FindOk.congr (h : FindOk s paddr) (hentry : s'.find paddr = s.find paddr)
    (hdevBase : s'.devBase = s.devBase) (hjiffies : s'.jiffies = s.jiffies) :
    FindOk s' paddr := by
  unfold FindOk
  rw [hentry, hdevBase, hjiffies]
  exact h

theorem QueueOk.confirmed {sender : BitVec 32} (h : QueueOk s sender) (s' : Cache)
    (hdevBase : s'.devBase = s.devBase) (hjiffies : s'.jiffies = s.jiffies)
    (hother : ∀ p, p ≠ sender → s'.find p = s.find p)
    (hsender : ∀ apt, s'.find sender = some apt → apt.lastUsed = s'.jiffies) :
    ∀ skb ∈ s.arpQ, skb.Resolves → FindOk s' skb.dst := by
  intro skb hskb hres
  by_cases hdst : skb.dst = sender
  · rw [hdst]
    exact FindOk.of_lastUsed hsender
  · rcases h skb hskb hres with heq | hfind
    · exact absurd heq hdst
    · exact hfind.congr (hother _ hdst) hdevBase hjiffies

/-- The packet is for another host, or it says nothing new of a permanent entry and meets no
old entry on the queue, or the new entry is the only one of its address. -/
def RcvOk (s : Cache) (arp : ArpPacket) (dev : Device) (kmalloc : Option (List Byte)) : Prop :=
  arp.Accepted dev →
    (∀ apt ∈ s.lookup arp.spa, (apt.perm → arp.sha = apt.hardware) ∧ QueueOk s arp.spa) ∧
      (s.lookup arp.spa = none → s.Creates arp kmalloc → s.find arp.spa = none ∧ QueueOk s arp.spa)

theorem CacheOk.arpRcv_found (hs : CacheOk s) {stack : BitVec 32}
    (hentry : s.find arp.spa = some apt)
    (hsame : apt.perm → arp.sha = apt.hardware) (hqueue : QueueOk s arp.spa) :
    CacheOk ((s.update arp.spa (arp.learn s.jiffies)).arpAnswer arp dev stack alloc) ∧
      PermKept s ((s.update arp.spa (arp.learn s.jiffies)).arpAnswer arp dev stack alloc) := by
  have hip : ∀ a, (arp.learn s.jiffies a).ip = a.ip := fun _ => rfl
  have hsender : ∀ a, (s.update arp.spa (arp.learn s.jiffies)).find arp.spa = some a →
      a.lastUsed = s.jiffies := by
    intro a ha
    rw [find_update_self hip hentry] at ha
    cases ha
    rfl
  have hready := hqueue.confirmed (s.update arp.spa (arp.learn s.jiffies)) rfl rfl
    (fun p hp => find_update_of_ne hip hp) hsender
  obtain ⟨hok, hused⟩ := hs.learn.arpAnswer arp dev stack alloc hready
    (FindOk.of_lastUsed hsender)
  exact ⟨hok, (permKept_learn hentry hsame).used hused⟩

theorem find_pushed_self : ({ s with
    tables := HashChain.push ArpTable.ip hash s.tables apt } : Cache).find apt.ip = some apt :=
  HashChain.find_push_self

theorem find_pushed_of_ne {p : BitVec 32} (hp : p ≠ apt.ip) : ({ s with
    tables := HashChain.push ArpTable.ip hash s.tables apt } : Cache).find p = s.find p :=
  HashChain.find_push_of_ne (Ne.symm hp)

theorem permKept_push (hnew : s.find apt.ip = none) : PermKept s { s with
    tables := HashChain.push ArpTable.ip hash s.tables apt } := by
  intro p a b ha _ hb
  by_cases hp : p = apt.ip
  · rw [hp, hnew] at ha
    cases ha
  · rw [find_pushed_of_ne hp, ha] at hb
    cases hb
    rfl

theorem CacheOk.arpRcv_created (hs : CacheOk s)
    {htype : BitVec 8} (hnew : s.find arp.spa = none) (hqueue : QueueOk s arp.spa)
    (hcreate : s.arpCreate arp.spa arp.sha arp.arHln htype kmalloc = some s') :
    CacheOk (s'.arpAnswer arp dev arp.tpa alloc) ∧
      PermKept s (s'.arpAnswer arp dev arp.tpa alloc) := by
  obtain ⟨-, apt, hip, hpubl, hlast, rfl⟩ := arpCreate_cases hs.interrupts hcreate
  rw [← hip] at hnew hqueue
  have hsender : ∀ a, ({ s with
      tables := HashChain.push ArpTable.ip hash s.tables apt } : Cache).find apt.ip = some a →
        a.lastUsed = s.jiffies := by
    intro a ha
    rw [find_pushed_self] at ha
    cases ha
    exact hlast
  have hready := hqueue.confirmed { s with
    tables := HashChain.push ArpTable.ip hash s.tables apt } rfl rfl
    (fun p hp => find_pushed_of_ne hp) hsender
  obtain ⟨hok, hused⟩ := (hs.push hnew hpubl).arpAnswer arp dev arp.tpa alloc hready
    (hip ▸ FindOk.of_lastUsed hsender)
  exact ⟨hok, (permKept_push hnew).used hused⟩

theorem CacheOk.arpRcv (hs : CacheOk s) (stack : BitVec 32) (alloc : Bool)
    (hrcv : RcvOk s arp dev kmalloc) :
    CacheOk (s.arpRcv arp dev kmalloc stack alloc) ∧
      PermKept s (s.arpRcv arp dev kmalloc stack alloc) := by
  unfold Cache.arpRcv
  split
  · rename_i haccepted
    have hrcv := hrcv haccepted
    rw [arpLookup_eq hs.interrupts]
    cases hlookup : s.lookup arp.spa with
    | some apt =>
      obtain ⟨hsame, hqueue⟩ := hrcv.1 apt hlookup
      exact hs.arpRcv_found (lookup_eq_some hlookup).2 hsame hqueue
    | none =>
      dsimp only
      split
      · exact ⟨hs, PermKept.refl s⟩
      · rename_i hforUs
        split
        · exact ⟨hs, PermKept.refl s⟩
        · rename_i s1 hcreate
          have hmem := (arpCreate_cases hs.interrupts hcreate).1
          have hcreates : s.Creates arp kmalloc := by
            refine ⟨?_, hmem⟩
            by_contra hnot
            push Not at hnot
            exact hforUs hnot
          obtain ⟨hnew, hqueue⟩ := hrcv.2 hlookup hcreates
          exact hs.arpRcv_created hnew hqueue hcreate
  · exact ⟨hs, PermKept.refl s⟩

/-! ## Entries that are added and removed -/

/-- `arp_add` and `arp_req_set` look for an entry, and make one if they find none. -/
def EnterOk (s : Cache) (paddr : BitVec 32) (kmalloc : Option (List Byte)) : Prop :=
  s.lookup paddr = none → kmalloc.isSome → s.find paddr = none

theorem CacheOk.arpCreate (hs : CacheOk s) {addr : List Byte} {hlen : ℕ} {htype : BitVec 8}
    (hnew : kmalloc.isSome → s.find paddr = none)
    (hcreate : s.arpCreate paddr addr hlen htype kmalloc = some s') :
    CacheOk s' ∧ ∃ apt, s'.find paddr = some apt ∧ apt.publ = false := by
  obtain ⟨hmem, apt, rfl, hpubl, -, rfl⟩ := arpCreate_cases hs.interrupts hcreate
  exact ⟨hs.push (hnew hmem) hpubl, apt, find_pushed_self, hpubl⟩

theorem CacheOk.arpAdd (hs : CacheOk s) {haddr : List Byte}
    (henter : paddr ≠ 0 → EnterOk s paddr kmalloc) :
    CacheOk (s.arpAdd paddr haddr dev kmalloc) := by
  unfold Cache.arpAdd
  split
  · exact hs
  · rename_i haddr
    rw [arpLookup_eq hs.interrupts]
    cases hlookup : s.lookup paddr with
    | some apt => exact hs.update (fun _ => rfl) (fun _ => rfl)
    | none =>
      dsimp only
      cases hcreate : s.arpCreate paddr _ dev.addrLen (dev.type.setWidth 8) kmalloc with
      | none => exact hs
      | some s1 => exact (hs.arpCreate (henter haddr hlookup) hcreate).1

theorem publ_or_perm (flags : BitVec 32) :
    (flags ||| ATF_PERM) &&& ATF_PUBL = flags &&& ATF_PUBL := by
  rw [BitVec.and_or_distrib_right]
  simp [ATF_PERM, ATF_PUBL]

theorem CacheOk.arpAddBroad (hs : CacheOk s)
    (henter : paddr ≠ 0 → EnterOk s paddr kmalloc) :
    CacheOk (s.arpAddBroad paddr dev kmalloc) := by
  have hadd : CacheOk (s.arpAdd paddr dev.broadcast dev kmalloc) := hs.arpAdd henter
  unfold Cache.arpAddBroad
  dsimp only
  rw [arpLookup_eq hadd.interrupts]
  cases (s.arpAdd paddr dev.broadcast dev kmalloc).lookup paddr with
  | some apt =>
    apply hadd.update
    · intro a
      rfl
    · intro a
      show decide ((a.flags ||| ATF_PERM) &&& ATF_PUBL ≠ 0) = _
      rw [publ_or_perm]
      rfl
  | none => exact hadd

theorem CacheOk.erase (hs : CacheOk s) (hentry : s.find paddr = some apt) :
    CacheOk { s with
      tables := HashChain.erase ArpTable.ip hash s.tables paddr
      arpProxies := if apt.publ then s.arpProxies - 1 else s.arpProxies } := by
  refine ⟨hs.wf.erase, ?_, hs.handed, hs.interrupts⟩
  have hcount := HashChain.count_erase (q := ArpTable.publ) hentry
  have hproxies := hs.proxies
  dsimp only
  split
  · rename_i hpubl
    rw [if_pos hpubl] at hcount
    omega
  · rename_i hpubl
    rw [if_neg hpubl] at hcount
    omega

theorem arpDestructor_eq (hon : s.interrupts = true) {force : Bool}
    (hforce : force = false → ∀ apt ∈ s.lookup paddr, apt.perm = false) :
    s.arpDestructor paddr force =
      match s.lookup paddr with
      | none => s
      | some apt => { s with
          tables := HashChain.erase ArpTable.ip hash s.tables paddr
          arpProxies := if apt.publ then s.arpProxies - 1 else s.arpProxies } := by
  unfold Cache.arpDestructor Cache.lookup
  unfold Cache.lookup at hforce
  split
  · rfl
  · rename_i hkind
    rw [if_neg hkind] at hforce
    have hsame : s.cli.find paddr = s.find paddr := rfl
    dsimp only
    rw [hsame]
    cases hentry : s.find paddr with
    | none => exact Cache.cli_sti hon
    | some apt =>
      dsimp only
      have hgo : (apt.perm && !force) = false := by
        cases force with
        | true => simp
        | false => simp [hforce rfl apt hentry]
      rw [hgo]
      simp only [Bool.false_eq_true, if_false]
      split
      · simp only [Cache.cli, Cache.sti, hon]
      · simp only [Cache.cli, Cache.sti, hon]

theorem CacheOk.arpDestructor (hs : CacheOk s) (paddr : BitVec 32) (force : Bool)
    (hforce : force = false → ∀ apt ∈ s.lookup paddr, apt.perm = false) :
    CacheOk (s.arpDestructor paddr force) ∧ PermKept s (s.arpDestructor paddr force) := by
  rw [arpDestructor_eq hs.interrupts hforce]
  cases hlookup : s.lookup paddr with
  | none => exact ⟨hs, PermKept.refl s⟩
  | some apt =>
    have hentry := (lookup_eq_some hlookup).2
    refine ⟨hs.erase hentry, ?_⟩
    intro p a b ha _ hb
    by_cases hp : p = paddr
    · subst hp
      have hgone := hs.wf.find_erase_self (k := p)
      have hb : HashChain.find ArpTable.ip hash
        (HashChain.erase ArpTable.ip hash s.tables p) p = some b := hb
      rw [hgone] at hb
      cases hb
    · have hsame : HashChain.find ArpTable.ip hash
          (HashChain.erase ArpTable.ip hash s.tables paddr) p = s.find p :=
        HashChain.find_erase_of_ne s.tables hp
      have hb : HashChain.find ArpTable.ip hash
        (HashChain.erase ArpTable.ip hash s.tables paddr) p = some b := hb
      rw [hsame, ha] at hb
      cases hb
      rfl

def ReqSetOk (s : Cache) (r : ArpReq) (kmalloc : Option (List Byte)) : Prop :=
  r.paInet → (hardwareType r.haFamily).isSome → r.pa ≠ 0 →
    (∀ apt ∈ s.lookup r.pa, apt.publ = false) ∧ EnterOk s r.pa kmalloc

theorem CacheOk.set (hs : CacheOk s) (r : ArpReq) (hlen jiffies : ℕ)
    (hentry : s.find paddr = some apt) (hpubl : apt.publ = false) :
    CacheOk { s.update paddr (r.set hlen jiffies) with
      arpProxies := if r.flags &&& ATF_PUBL ≠ 0 then s.arpProxies + 1 else s.arpProxies } := by
  refine ⟨hs.wf.modify (fun _ => rfl), ?_, hs.handed, hs.interrupts⟩
  have hcount := HashChain.count_modify (q := ArpTable.publ) (f := r.set hlen jiffies) hentry
  have hproxies := hs.proxies
  rw [hpubl] at hcount
  have hset : (r.set hlen jiffies apt).publ = decide (r.flags &&& ATF_PUBL ≠ 0) := rfl
  rw [hset] at hcount
  simp only [Bool.false_eq_true, if_false, Nat.add_zero, decide_eq_true_eq] at hcount
  dsimp only [Cache.update]
  split
  · rename_i hnew
    rw [if_pos hnew] at hcount
    omega
  · rename_i hnew
    rw [if_neg hnew] at hcount
    omega

variable {r : ArpReq}

theorem CacheOk.arpReqSet_update (hs : CacheOk s) {hlen : ℕ}
    (hentry : s.find paddr = some apt) (hpubl : apt.publ = false) :
    CacheOk (
      let s := s.update paddr (r.set hlen s.jiffies)
      if r.flags &&& ATF_PUBL ≠ 0 then
        (({ s with arpProxies := s.arpProxies + 1 }, .ok ()) : Cache × Except Errno Unit)
      else (s, .ok ())).1 := by
  have hset := hs.set r hlen s.jiffies hentry hpubl
  split
  · rename_i hnew
    rw [if_pos hnew] at hset
    exact hset
  · rename_i hnew
    rw [if_neg hnew] at hset
    exact hset

theorem CacheOk.arpReqSet (hs : CacheOk s) (hset : ReqSetOk s r kmalloc) :
    CacheOk (s.arpReqSet r kmalloc).1 := by
  unfold Cache.arpReqSet
  split
  · exact hs
  · rename_i hinet
    split
    · exact hs
    · rename_i htype hlen hhard
      split
      · exact hs
      · rename_i hpa
        obtain ⟨hpubl, henter⟩ := hset (by simpa using hinet) (by simp [hhard]) hpa
        rw [arpLookup_eq hs.interrupts]
        cases hlookup : s.lookup r.pa with
        | some apt =>
          exact hs.arpReqSet_update (lookup_eq_some hlookup).2 (hpubl apt hlookup)
        | none =>
          dsimp only
          cases hcreate : s.arpCreate r.pa r.haData hlen htype kmalloc with
          | none => exact hs
          | some s1 =>
            obtain ⟨hs1, apt, hentry, hpubl1⟩ := hs.arpCreate (henter hlookup) hcreate
            exact hs1.arpReqSet_update hentry hpubl1

theorem CacheOk.arpIoctl (hs : CacheOk s) {cmd : Cmd} {suser : Bool}
    {area : Option Errno}
    (hset : cmd = .siocsarp → suser → area = none → ReqSetOk s r kmalloc) :
    CacheOk (s.arpIoctl cmd r suser area kmalloc).1 := by
  unfold Cache.arpIoctl
  cases cmd with
  | siocdarp =>
    dsimp only
    split
    · exact hs
    · cases area with
      | some err => exact hs
      | none =>
        dsimp only [Cache.arpReqDel]
        split
        · exact hs
        · split
          · exact hs
          · exact (hs.arpDestructor r.pa true (by simp)).1
  | siocgarp =>
    cases area with
    | some err => exact hs
    | none =>
      dsimp only [Cache.arpReqGet]
      split
      · exact hs
      · rw [arpLookup_eq hs.interrupts]
        cases s.lookup r.pa with
        | none => exact hs
        | some apt => exact hs
  | siocsarp =>
    dsimp only
    split
    · exact hs
    · rename_i hsuser
      cases area with
      | some err => exact hs
      | none => exact hs.arpReqSet (hset rfl (by simpa using hsuser) rfl)
  | other => exact hs

/-! ## Steps and runs -/

/-- The condition on one step: what it says of each function depends on the arguments and on
the cache before. -/
def StepOk (s : Cache) : Event → Prop
  | .rcv arp dev kmalloc _ _ => RcvOk s arp dev kmalloc
  | .add addr _ _ kmalloc => addr ≠ 0 → EnterOk s addr kmalloc
  | .addBroad addr _ kmalloc => addr ≠ 0 → EnterOk s addr kmalloc
  | .find paddr _ => FindOk s paddr
  | .ioctl cmd r suser area kmalloc =>
    cmd = .siocsarp → suser → area = none → ReqSetOk s r kmalloc
  | .destroyMaybe paddr => ∀ apt ∈ s.lookup paddr, apt.perm = false
  | .ticker => ∀ skb ∈ s.arpQ, skb.Resolves → FindOk s skb.dst
  | .destroy _ | .queue _ _ | .tick | .ifconfig _ => True

/-- The requests of processes and `arp_add`, which may give a permanent entry another
hardware address. -/
def Event.Sets : Event → Prop
  | .add _ _ _ _ | .addBroad _ _ _ | .ioctl _ _ _ _ _ => True
  | _ => False

theorem arpQueue_eq (hon : s.interrupts = true) (skb : Queued) (linked : Bool) :
    s.arpQueue skb linked = { s with arpQ := (s.arpQueue skb linked).arpQ } := by
  unfold Cache.arpQueue
  cases linked with
  | true => simp only [if_true, Cache.cli, Cache.sti, hon]
  | false => simp only [Bool.false_eq_true, if_false, Cache.cli, Cache.sti, hon]

theorem CacheOk.step (hs : CacheOk s) {e : Event} (he : StepOk s e) :
    CacheOk (step s e) ∧ (¬e.Sets → PermKept s (step s e)) := by
  cases e with
  | rcv arp dev kmalloc stack alloc =>
    obtain ⟨hok, hkept⟩ := hs.arpRcv stack alloc he
    exact ⟨hok, fun _ => hkept⟩
  | add addr haddr dev kmalloc => exact ⟨hs.arpAdd he, fun hsets => absurd trivial hsets⟩
  | addBroad addr dev kmalloc => exact ⟨hs.arpAddBroad he, fun hsets => absurd trivial hsets⟩
  | find paddr dev =>
    obtain ⟨hok, hused⟩ := hs.arpFind dev he
    exact ⟨hok, fun _ => hused.permKept⟩
  | ioctl cmd r suser area kmalloc =>
    exact ⟨hs.arpIoctl he, fun hsets => absurd trivial hsets⟩
  | destroy paddr =>
    obtain ⟨hok, hkept⟩ := hs.arpDestructor paddr true (by simp)
    exact ⟨hok, fun _ => hkept⟩
  | destroyMaybe paddr =>
    obtain ⟨hok, hkept⟩ := hs.arpDestructor paddr false fun _ => he
    exact ⟨hok, fun _ => hkept⟩
  | queue skb linked =>
    dsimp only [Arp.step]
    rw [arpQueue_eq hs.interrupts]
    exact ⟨hs.setQ _, fun _ => PermKept.refl s⟩
  | ticker =>
    obtain ⟨hok, hused⟩ := hs.arpSendQ he
    exact ⟨hok, fun _ => hused.permKept⟩
  | tick => exact ⟨⟨hs.wf, hs.proxies, hs.handed, hs.interrupts⟩, fun _ => PermKept.refl s⟩
  | ifconfig devBase =>
    exact ⟨⟨hs.wf, hs.proxies, hs.handed, hs.interrupts⟩, fun _ => PermKept.refl s⟩

def RunOk (s : Cache) : List Event → Prop
  | [] => True
  | e :: es => StepOk s e ∧ RunOk (step s e) es

theorem boot_cacheOk (devBase : List Device) : CacheOk (boot devBase) := by
  refine ⟨⟨?_, ?_⟩, ?_, ?_, rfl⟩
  · simp [boot]
  · simp [boot]
  · simp [boot, HashChain.count]
  · simp [boot]

theorem CacheOk.run (hs : CacheOk s) {es : List Event} (hes : RunOk s es) : CacheOk (run s es) := by
  induction es generalizing s with
  | nil => exact hs
  | cons e es ih => exact ih (hs.step hes.1).1 hes.2

/-- In a run whose steps meet the condition the cache is in order after every step: one
entry for an address, on its chain, `arp_proxies` counts the published ones, no old address
was handed out, interrupts are on; and no step but a request or `arp_add` gives a permanent
entry another hardware address. -/
theorem run_cacheOk (devBase : List Device) (es : List Event)
    (hes : RunOk (boot devBase) es) :
    CacheOk (run (boot devBase) es) ∧
      ∀ e, ¬e.Sets → StepOk (run (boot devBase) es) e →
        PermKept (run (boot devBase) es) (step (run (boot devBase) es) e) := by
  have hok := (boot_cacheOk devBase).run hes
  exact ⟨hok, fun e hsets he => (hok.step he).2 hsets⟩

/-! ## A host on one Ethernet -/

def host (n : BitVec 32) : BitVec 32 := Route.ntohl (0xc0a80000 + n)

def eth0 : Device where
  up := true
  bcast := true
  loopback := false
  paAddr := host 1
  paMask := Route.ntohl 0xffffff00
  paBrdaddr := host 255
  type := 1
  addrLen := 6
  devAddr := List.replicate 7 1
  broadcast := List.replicate 7 255
  header := .eth
  devAddr_length := rfl
  broadcast_length := rfl
  addrLen_le := by decide

/-- A request for the address of `dst` that host `src` sends from its hardware address. -/
def request (src dst : BitVec 32) (ha : Byte) : Event :=
  .rcv
    { arHrd := net16 1, arPro := net16 ETH_P_IP, arHln := 6, arPln := 4,
      arOp := net16 ARPOP_REQUEST, sha := List.replicate 6 ha, spa := src, tpa := dst,
      sha_length := rfl }
    eth0 (some (List.replicate 7 0)) 0 true

def sarp (pa flags : BitVec 32) (ha : Byte) : Event :=
  .ioctl .siocsarp
    { paInet := true, pa := pa, haFamily := ARPHRD_ETHER, haData := List.replicate 14 ha,
      flags := flags, haData_length := rfl }
    true none (some (List.replicate 7 0))

instance (h : Handed) : Decidable h.Ok := inferInstanceAs (Decidable (_ ∨ _))

instance (arp : ArpPacket) (kmalloc : Option (List Byte)) : Decidable (s.Creates arp kmalloc) :=
  inferInstanceAs (Decidable (_ ∧ _))

instance (sender : BitVec 32) : Decidable (QueueOk s sender) := by
  unfold QueueOk
  infer_instance

instance (arp : ArpPacket) : Decidable (RcvOk s arp dev kmalloc) :=
  inferInstanceAs (Decidable (_ → _ ∧ _))

instance : Decidable (EnterOk s paddr kmalloc) := inferInstanceAs (Decidable (_ → _ → _))

instance (r : ArpReq) : Decidable (ReqSetOk s r kmalloc) :=
  inferInstanceAs (Decidable (_ → _ → _ → _ ∧ _))

instance (e : Event) : Decidable (StepOk s e) :=
  match e with
  | .rcv arp dev kmalloc _ _ => inferInstanceAs (Decidable (RcvOk s arp dev kmalloc))
  | .add addr _ _ kmalloc => inferInstanceAs (Decidable (addr ≠ 0 → EnterOk s addr kmalloc))
  | .addBroad addr _ kmalloc => inferInstanceAs (Decidable (addr ≠ 0 → EnterOk s addr kmalloc))
  | .find paddr _ => inferInstanceAs (Decidable (FindOk s paddr))
  | .ioctl cmd r suser area kmalloc => inferInstanceAs
      (Decidable (cmd = .siocsarp → suser → area = none → ReqSetOk s r kmalloc))
  | .destroyMaybe paddr => inferInstanceAs
      (Decidable (∀ apt ∈ s.lookup paddr, apt.perm = false))
  | .ticker => inferInstanceAs
      (Decidable (∀ skb ∈ s.arpQ, skb.Resolves → FindOk s skb.dst))
  | .destroy _ | .queue _ _ | .tick | .ifconfig _ => inferInstanceAs (Decidable True)

instance decidableRunOk : (s : Cache) → (es : List Event) → Decidable (RunOk s es)
  | _, [] => inferInstanceAs (Decidable True)
  | s, e :: es =>
    have := decidableRunOk (step s e) es
    inferInstanceAs (Decidable (StepOk s e ∧ RunOk (step s e) es))

/-- A permanent entry is set, another host asks for us and is looked up, and both are
destroyed. -/
def quietRun : List Event :=
  [sarp (host 2) (ATF_PERM ||| ATF_PUBL) 2, request (host 3) (host 1) 3, .tick,
    .find (host 3) eth0, request (host 2) (host 1) 2, .destroyMaybe (host 3),
    .destroy (host 2)]

theorem run_cacheOk_quietRun :
    CacheOk (run (boot [eth0]) quietRun) ∧
      PermKept (run (boot [eth0]) [sarp (host 2) ATF_PERM 2])
        (step (run (boot [eth0]) [sarp (host 2) ATF_PERM 2]) (request (host 2) (host 1) 2)) := by
  refine ⟨(run_cacheOk [eth0] quietRun (by decide +kernel)).1, ?_⟩
  exact (run_cacheOk [eth0] [sarp (host 2) ATF_PERM 2] (by decide +kernel)).2 _ id
    (by decide +kernel)

theorem run_ticks (s : Cache) (n : ℕ) :
    run s (List.replicate n .tick) = { s with jiffies := s.jiffies + n } := by
  induction n generalizing s with
  | zero => rfl
  | succ n ih =>
    show run (step s .tick) (List.replicate n .tick) = _
    rw [ih]
    simp only [step]
    congr 1
    omega

/-- A packet overwrites a permanent entry; a published entry that is set again is counted
twice; an address of our own gets two entries; an entry is handed out after 30001 ticks
without use; and `arp_destroy_maybe` leaves interrupts off at a permanent entry. -/
theorem eth0_breaks_cache :
    ¬PermKept (run (boot [eth0]) [sarp (host 2) ATF_PERM 2])
        (run (boot [eth0]) [sarp (host 2) ATF_PERM 2, request (host 2) (host 1) 9]) ∧
      (run (boot [eth0]) [sarp (host 2) ATF_PUBL 2, sarp (host 2) ATF_PUBL 2]).arpProxies ≠
        HashChain.count ArpTable.publ
          (run (boot [eth0]) [sarp (host 2) ATF_PUBL 2, sarp (host 2) ATF_PUBL 2]).tables ∧
      ¬HashChain.Wf ArpTable.ip hash
        (run (boot [eth0]) [sarp (host 1) ATF_COM 2, sarp (host 1) ATF_COM 2]).tables ∧
      ¬(∀ h ∈ (step (run (run (boot [eth0]) [request (host 3) (host 1) 3])
        (List.replicate 30001 .tick)) (.find (host 3) eth0)).handed, h.Ok) ∧
      (run (boot [eth0]) [sarp (host 2) ATF_PERM 2, .destroyMaybe (host 2)]).interrupts =
        false := by
  refine ⟨?_, by decide +kernel, ?_, ?_, by decide +kernel⟩
  · intro hkept
    have hsame := hkept (host 2)
      ⟨0, ATF_PERM, host 2, [2, 2, 2, 2, 2, 2, 0], 6, 1⟩
      ⟨0, ATF_PERM ||| ATF_COM, host 2, [9, 9, 9, 9, 9, 9, 0], 6, 1⟩
    revert hsame
    decide +kernel
  · intro hwf
    have hunique := hwf.unique (hash (host 1))
    revert hunique
    decide +kernel
  · rw [run_ticks]
    decide +kernel

end LinuxKernel.Arp
