import LinuxKernel.ArpModel

/-!
# What the ARP cache keeps

Each function takes a cache in order to one in order, under a condition on its arguments and
on the entry it meets.  Between two functions interrupts are on, so that `cli` and `sti`
around a search change nothing.
-/

namespace LinuxKernel.Arp

open HashChain (Wf)

variable {s s' s'' : Cache} {paddr : BitVec 32} {dev : Device} {apt : ArpTable}

/-- Every hardware address that was handed out came from a permanent entry, or from one
confirmed or used within the last `ARP_TIMEOUT` ticks. -/
def Handed.Ok (h : Handed) : Prop := h.entry.perm ∨ h.time ≤ h.entry.lastUsed + ARP_TIMEOUT

structure CacheOk (s : Cache) : Prop where
  wf : Wf ArpTable.ip hash s.tables
  proxies : s.arpProxies = HashChain.count ArpTable.publ s.tables
  handed : ∀ h ∈ s.handed, h.Ok
  interrupts : s.interrupts = true

def PermKept (s s' : Cache) : Prop :=
  ∀ p a b, s.find p = some a → a.perm → s'.find p = some b → b.hardware = a.hardware

def Cache.lookup (s : Cache) (paddr : BitVec 32) : Option ArpTable :=
  if chkAddr s.devBase paddr = .myAddr then none else s.find paddr

/-- `arp_find` does not meet an old entry that passes for a young one. -/
def FindOk (s : Cache) (paddr : BitVec 32) : Prop :=
  chkAddr s.devBase paddr = .other → ∀ apt ∈ s.find paddr,
    apt.perm = false → apt.young s.jiffies → apt.hlen ≠ 0 → s.jiffies ≤ apt.lastUsed + ARP_TIMEOUT

instance : Decidable (FindOk s paddr) := by
  unfold FindOk
  infer_instance

def Queued.Resolves (skb : Queued) : Prop :=
  skb.tries - 1 ≠ 0 ∧ skb.arp = false ∧ skb.dev.header = .eth ∧ skb.arpProto = false

instance (skb : Queued) : Decidable skb.Resolves := inferInstanceAs (Decidable (_ ∧ _))

/-- `arp_rcv` makes a new entry for a sender that it does not find. -/
def Cache.Creates (s : Cache) (arp : ArpPacket) (kmalloc : Option (List Byte)) : Prop :=
  (chkAddr s.devBase arp.tpa = .myAddr ∨ s.arpProxies ≠ 0) ∧ kmalloc.isSome

def QueueOk (s : Cache) (sender : BitVec 32) : Prop :=
  ∀ skb ∈ s.arpQ, skb.Resolves → skb.dst = sender ∨ FindOk s skb.dst

/-! ## Searches -/

@[simp] theorem Cache.cli_devBase : s.cli.devBase = s.devBase := rfl

theorem Cache.cli_sti (hon : s.interrupts = true) : s.cli.sti = s := by
  cases s
  cases hon
  rfl

theorem arpLookup_eq (hon : s.interrupts = true) : s.arpLookup paddr = (s, s.lookup paddr) := by
  unfold Cache.arpLookup Cache.lookup
  split
  · rfl
  · show (s.cli.sti, s.find paddr) = _
    rw [Cache.cli_sti hon]

theorem arpLookupProxy_fst (paddr : BitVec 32) (hon : s.interrupts = true) :
    (s.arpLookupProxy paddr).1 = s :=
  Cache.cli_sti hon

theorem lookup_eq_some (h : s.lookup paddr = some apt) :
    chkAddr s.devBase paddr ≠ .myAddr ∧ s.find paddr = some apt := by
  unfold Cache.lookup at h
  split at h
  · cases h
  · exact ⟨‹_›, h⟩

theorem lookup_of_other (h : chkAddr s.devBase paddr = .other) : s.lookup paddr = s.find paddr := by
  simp [Cache.lookup, h]

theorem find_update_self {f : ArpTable → ArpTable} (hf : ∀ a, (f a).ip = a.ip)
    (h : s.find paddr = some apt) : (s.update paddr f).find paddr = some (f apt) :=
  HashChain.find_modify_self h (hf apt)

theorem find_update_of_ne {f : ArpTable → ArpTable} (hf : ∀ a, (f a).ip = a.ip)
    {p : BitVec 32} (hp : p ≠ paddr) : (s.update paddr f).find p = s.find p :=
  HashChain.find_modify_of_ne hf hp

theorem CacheOk.update (hs : CacheOk s) {f : ArpTable → ArpTable}
    (hip : ∀ a, (f a).ip = a.ip) (hpubl : ∀ a, (f a).publ = a.publ) :
    CacheOk (s.update paddr f) := by
  refine ⟨hs.wf.modify hip, ?_, hs.handed, hs.interrupts⟩
  show s.arpProxies = _
  rw [hs.proxies]
  cases hfind : s.find paddr with
  | none =>
    have hsame := HashChain.modify_of_find_eq_none (f := f) hfind
    simp only [Cache.update, hsame]
  | some a =>
    have hcount := HashChain.count_modify (q := ArpTable.publ) (f := f) hfind
    rw [hpubl a] at hcount
    simp only [Cache.update]
    omega

theorem arpCreate_cases (hon : s.interrupts = true) {addr : List Byte} {hlen : ℕ}
    {htype : BitVec 8} {kmalloc : Option (List Byte)}
    (hcreate : s.arpCreate paddr addr hlen htype kmalloc = some s') :
    kmalloc.isSome ∧ ∃ apt : ArpTable, apt.ip = paddr ∧ apt.publ = false ∧
      apt.lastUsed = s.jiffies ∧
        s' = { s with tables := HashChain.push ArpTable.ip hash s.tables apt } := by
  cases kmalloc with
  | none => cases hcreate
  | some ha =>
    refine ⟨rfl, ⟨s.jiffies, ATF_INUSE ||| ATF_COM, paddr, memcpy ha addr hlen, hlen, htype⟩,
      rfl, by simp [ArpTable.publ, ATF_INUSE, ATF_COM, ATF_PUBL], rfl, ?_⟩
    cases hcreate
    simp only [Cache.sti, Cache.cli, hon]

theorem CacheOk.push (hs : CacheOk s) (hnew : s.find apt.ip = none)
    (hpubl : apt.publ = false) :
    CacheOk { s with tables := HashChain.push ArpTable.ip hash s.tables apt } := by
  refine ⟨hs.wf.push hnew, ?_, hs.handed, hs.interrupts⟩
  have hcount := HashChain.count_push (t := s.tables) (q := ArpTable.publ) ArpTable.ip hash apt
  simp only [hpubl, Bool.false_eq_true, if_false, Nat.add_zero] at hcount
  rw [hcount]
  exact hs.proxies

/-! ## The use of an entry -/

structure Used (s s' : Cache) : Prop where
  devBase : s'.devBase = s.devBase
  jiffies : s'.jiffies = s.jiffies
  arpProxies : s'.arpProxies = s.arpProxies
  entries : ∀ p, s'.find p = s.find p ∨
    ∃ a, s.find p = some a ∧ s'.find p = some { a with lastUsed := s.jiffies }

theorem Used.refl (s : Cache) : Used s s := ⟨rfl, rfl, rfl, fun _ => .inl rfl⟩

theorem Used.trans (h : Used s s') (h' : Used s' s'') : Used s s'' := by
  refine ⟨h'.devBase.trans h.devBase, h'.jiffies.trans h.jiffies,
    h'.arpProxies.trans h.arpProxies, ?_⟩
  intro p
  rcases h.entries p with hsame | ⟨a, ha, ha'⟩
  · rcases h'.entries p with hsame' | ⟨b, hb, hb'⟩
    · exact .inl (hsame'.trans hsame)
    · exact .inr ⟨b, hsame ▸ hb, by rw [hb', h.jiffies]⟩
  · refine .inr ⟨a, ha, ?_⟩
    rcases h'.entries p with hsame' | ⟨b, hb, hb'⟩
    · exact hsame'.trans ha'
    · rw [ha'] at hb
      cases hb
      rw [hb', h.jiffies]

theorem FindOk.used (hfind : FindOk s paddr) (h : Used s s') : FindOk s' paddr := by
  intro hkind apt hapt hperm hyoung hlen
  rw [h.devBase] at hkind
  rw [h.jiffies] at hyoung ⊢
  rcases h.entries paddr with hsame | ⟨a, ha, ha'⟩
  · rw [hsame] at hapt
    exact hfind hkind apt hapt hperm hyoung hlen
  · rw [ha', Option.mem_some_iff] at hapt
    subst hapt
    exact Nat.le_add_right _ _

theorem FindOk.of_lastUsed (h : ∀ apt, s.find paddr = some apt → apt.lastUsed = s.jiffies) :
    FindOk s paddr := by
  intro _ apt hapt _ _ _
  rw [h apt hapt]
  exact Nat.le_add_right _ _

theorem PermKept.used (h : PermKept s s') (h' : Used s' s'') : PermKept s s'' := by
  intro p a b ha hperm hb
  rcases h'.entries p with hsame | ⟨c, hc, hc'⟩
  · exact h p a b ha hperm (hsame ▸ hb)
  · rw [hc'] at hb
    cases hb
    exact h p a c ha hperm hc

theorem PermKept.refl (s : Cache) : PermKept s s := by
  intro p a b ha _ hb
  rw [ha] at hb
  cases hb
  rfl

theorem Used.permKept (h : Used s s') : PermKept s s' := (PermKept.refl s).used h

def Cache.use (s : Cache) (paddr : BitVec 32) : Cache :=
  s.update paddr fun apt => { apt with lastUsed := s.jiffies }

theorem Used.use (hentry : s.find paddr = some apt) : Used s (s.use paddr) := by
  refine ⟨rfl, rfl, rfl, ?_⟩
  intro p
  have hip : ∀ a : ArpTable, ({ a with lastUsed := s.jiffies } : ArpTable).ip = a.ip := fun _ => rfl
  by_cases hp : p = paddr
  · subst hp
    right
    exact ⟨apt, hentry, find_update_self hip hentry⟩
  · left
    exact find_update_of_ne hip hp

theorem Used.hand (h : Used s s') (handed : List Handed) : Used s { s' with handed := handed } :=
  ⟨h.devBase, h.jiffies, h.arpProxies, h.entries⟩

theorem CacheOk.hand (hs : CacheOk s) {h : Handed} (hok : h.Ok) :
    CacheOk { s with handed := h :: s.handed } := by
  refine ⟨hs.wf, hs.proxies, ?_, hs.interrupts⟩
  intro h' hh'
  rcases List.mem_cons.1 hh' with rfl | hh'
  · exact hok
  · exact hs.handed h' hh'

theorem arpFind_of_other (hon : s.interrupts = true)
    (hkind : chkAddr s.devBase paddr = .other) :
    (s.arpFind paddr dev).1 =
      match s.find paddr with
      | none => s
      | some apt =>
        if apt.perm || (apt.young s.jiffies && apt.hlen ≠ 0) then
          { s.use paddr with handed := ⟨apt, s.jiffies⟩ :: s.handed }
        else s := by
  unfold Cache.arpFind
  rw [hkind]
  rw [arpLookup_eq hon, lookup_of_other hkind]
  cases s.find paddr with
  | none => rfl
  | some apt =>
    dsimp only
    split
    · rfl
    · rfl

theorem CacheOk.arpFind (dev : Device) (hs : CacheOk s) (hfind : FindOk s paddr) :
    CacheOk (s.arpFind paddr dev).1 ∧ Used s (s.arpFind paddr dev).1 := by
  cases hkind : chkAddr s.devBase paddr with
  | myAddr =>
    simp only [Cache.arpFind, hkind]
    exact ⟨hs, Used.refl s⟩
  | broadcast =>
    simp only [Cache.arpFind, hkind]
    exact ⟨hs, Used.refl s⟩
  | other =>
    rw [arpFind_of_other hs.interrupts hkind]
    cases hentry : s.find paddr with
    | none => exact ⟨hs, Used.refl s⟩
    | some apt =>
      dsimp only
      split
      · rename_i hhand
        have hok : Handed.Ok ⟨apt, s.jiffies⟩ := by
          cases hperm : apt.perm with
          | true => exact .inl hperm
          | false =>
            simp only [hperm, Bool.false_or, Bool.and_eq_true, decide_eq_true_eq] at hhand
            exact .inr (hfind hkind apt hentry hperm hhand.1 hhand.2)
        have hs' : CacheOk (s.use paddr) := hs.update (fun _ => rfl) (fun _ => rfl)
        exact ⟨hs'.hand hok, (Used.use hentry).hand _⟩
      · exact ⟨hs, Used.refl s⟩

section
variable (hs : CacheOk s)
include hs

theorem arpFind_cli (hfind : FindOk s paddr) :
    (s.cli.arpFind paddr dev).1.sti = (s.arpFind paddr dev).1 := by
  have hon := hs.interrupts
  cases hkind : chkAddr s.devBase paddr with
  | myAddr =>
    simp only [Cache.arpFind, Cache.cli_devBase, hkind]
    exact Cache.cli_sti hon
  | broadcast =>
    simp only [Cache.arpFind, Cache.cli_devBase, hkind]
    exact Cache.cli_sti hon
  | other =>
    have hlookup : s.cli.arpLookup paddr = s.arpLookup paddr := by
      unfold Cache.arpLookup
      rw [if_neg (by simp [hkind]), if_neg (by simp [hkind])]
      rfl
    have hsame : s.cli.arpFind paddr dev = s.arpFind paddr dev := by
      simp only [Cache.arpFind, Cache.cli_devBase, hkind, hlookup]
    rw [hsame]
    have hafter := (hs.arpFind dev hfind).1.interrupts
    cases hcache : (s.arpFind paddr dev).1
    rw [hcache] at hafter
    cases hafter
    rfl

theorem CacheOk.hardHeader (hfind : FindOk s paddr) :
    CacheOk (s.hardHeader dev paddr) ∧ Used s (s.hardHeader dev paddr) := by
  unfold Cache.hardHeader
  cases dev.header with
  | slip => exact ⟨hs, Used.refl s⟩
  | eth =>
    dsimp only
    split
    · exact ⟨hs, Used.refl s⟩
    · split
      · exact ⟨hs, Used.refl s⟩
      · rw [arpFind_cli hs hfind]
        exact hs.arpFind dev hfind

theorem CacheOk.rebuildHeader (skb : Queued)
    (hfind : skb.dev.header = .eth → skb.arpProto = false → FindOk s skb.dst) :
    CacheOk (s.rebuildHeader skb).1 ∧ Used s (s.rebuildHeader skb).1 := by
  unfold Cache.rebuildHeader
  cases hheader : skb.dev.header with
  | slip => exact ⟨hs, Used.refl s⟩
  | eth =>
    dsimp only
    split
    · exact ⟨hs, Used.refl s⟩
    · rename_i hproto
      exact hs.arpFind _ (hfind hheader (by simpa using hproto))

theorem CacheOk.setQ (q : List Queued) : CacheOk { s with arpQ := q } :=
  ⟨hs.wf, hs.proxies, hs.handed, hs.interrupts⟩

omit hs in
theorem Used.setQ (h : Used s s') (q : List Queued) : Used s { s' with arpQ := q } :=
  ⟨h.devBase, h.jiffies, h.arpProxies, h.entries⟩

theorem CacheOk.arpSendLoop {workQ : List Queued}
    (hfind : ∀ skb ∈ workQ, skb.Resolves → FindOk s skb.dst) :
    CacheOk (arpSendLoop workQ s) ∧ Used s (arpSendLoop workQ s) := by
  induction workQ generalizing s with
  | nil => exact ⟨hs, Used.refl s⟩
  | cons skb workQ ih =>
    have hrest : ∀ q ∈ workQ, q.Resolves → FindOk s q.dst :=
      fun q hq => hfind q (List.mem_cons_of_mem _ hq)
    unfold Arp.arpSendLoop
    rw [Cache.cli_sti hs.interrupts]
    dsimp only
    split
    · exact ih hs hrest
    · rename_i htries
      split
      · exact ih hs hrest
      · rename_i harp
        obtain ⟨hok, hused⟩ := hs.rebuildHeader { skb with tries := skb.tries - 1 }
          fun heth hproto => hfind skb List.mem_cons_self
            ⟨htries, by simpa using harp, heth, hproto⟩
        split
        all_goals
          rename_i s1 hbuilt
          rw [hbuilt] at hok hused
        · obtain ⟨hok', hused'⟩ := ih hok fun q hq hres => (hrest q hq hres).used hused
          exact ⟨hok', hused.trans hused'⟩
        · obtain ⟨hok', hused'⟩ := ih (hok.setQ _)
            fun q hq hres => (hrest q hq hres).used (hused.setQ _)
          exact ⟨hok', (hused.setQ _).trans hused'⟩

theorem CacheOk.arpSendQ (hfind : ∀ skb ∈ s.arpQ, skb.Resolves → FindOk s skb.dst) :
    CacheOk s.arpSendQ ∧ Used s s.arpSendQ := by
  have hstart : ({ s.cli with arpQ := [] } : Cache).sti = { s with arpQ := [] } := by
    simp only [Cache.cli, Cache.sti, hs.interrupts]
  have hused : Used s { s with arpQ := [] } := (Used.refl s).setQ []
  unfold Cache.arpSendQ
  dsimp only
  rw [hstart]
  obtain ⟨hok', hused'⟩ := (hs.setQ []).arpSendLoop
    fun skb hskb hres => (hfind skb hskb hres).used hused
  exact ⟨hok', hused.trans hused'⟩

end

end LinuxKernel.Arp
