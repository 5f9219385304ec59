import LinuxKernel.BlockRequestChains

/-!
# Who has a buffer, and where a request is

Every locked buffer belongs to one process, which still looks for a request, or to one
request.  Every entry in use is on one queue, in the hands of the process that has just filled
it, or a SCSI command.  The invariant names both; each step moves one buffer or one entry.
-/

namespace LinuxKernel.BlockRequest
open Function

open LinkChain

inductive Owner where
  | free
  | proc (p : ℕ)
  | entry (i : ℕ)
  deriving DecidableEq

inductive Place where
  | free
  | queue (m : ℕ)
  | adding (p : ℕ)
  | command
  deriving DecidableEq

structure Ghost where
  chain : ℕ → List ℕ
  owner : ℕ → Owner
  place : ℕ → Place

def Proc.holds : Proc → Option ℕ
  | .call c .waitRequest => c.bhs.head?.join
  | _ => none

def Proc.adds : Proc → Option ℕ
  | .call _ (.adding i) => some i
  | _ => none

def Proc.plug : Proc → Option ℕ
  | .call c _ => if c.plugged then some c.major else none
  | .idle => none

def Proc.Ok : Proc → Prop
  | .call c pc => pc = .ready ∨ ∃ b rest, c.bhs = some b :: rest
  | .idle => True

structure Inv (k : Setup) (s : Queues) (g : Ghost) : Prop where
  request : ∀ i, g.place i ≠ .free → RequestOk k s.bufs (s.reqs i) (g.chain i)
  active : ∀ i, (s.reqs i).dev ≠ none ↔ g.place i ≠ .free
  member : ∀ i b, g.place i ≠ .free → (b ∈ g.chain i ↔ g.owner b = .entry i)
  inUse : ∀ b i, g.owner b = .entry i → g.place i ≠ .free
  lock : ∀ b, (s.bufs b).lock = true ↔ g.owner b ≠ .free
  loose : ∀ b, (∀ i, g.owner b ≠ .entry i) → (s.bufs b).reqnext = none
  holds : ∀ p b, (s.procs p).holds = some b ↔ g.owner b = .proc p
  adding : ∀ p i, (s.procs p).adds = some i ↔ g.place i = .adding p
  queue : ∀ m i, .req i ∈ s.queue m ↔ g.place i = .queue m
  command : ∀ i, NR_REQUEST ≤ i → g.place i = .free ∨ g.place i = .command
  nodup : ∀ m, (s.queue m).Nodup
  procs : ∀ p, (s.procs p).Ok
  plug : ∀ p m, (s.procs p).plug = some m → ∃ cmd sector rest,
    s.queue m = .plug p cmd sector :: rest

variable {k : Setup} {s : Queues} {g : Ghost} {p b i m : ℕ} {c : Call}

/-! ## Parts of the state -/

@[simp] theorem setBuf_reqs {f : Buf → Buf} : (s.setBuf b f).reqs = s.reqs := rfl

@[simp] theorem setBuf_queue {f : Buf → Buf} : (s.setBuf b f).queue = s.queue := rfl

@[simp] theorem setBuf_procs {f : Buf → Buf} : (s.setBuf b f).procs = s.procs := rfl

@[simp] theorem setReq_bufs {f : Request → Request} : (s.setReq i f).bufs = s.bufs := rfl

@[simp] theorem setReq_queue {f : Request → Request} : (s.setReq i f).queue = s.queue := rfl

@[simp] theorem setReq_procs {f : Request → Request} : (s.setReq i f).procs = s.procs := rfl

variable {q : List Node}

@[simp] theorem setQueue_bufs : (s.setQueue m q).bufs = s.bufs := rfl

@[simp] theorem setQueue_reqs : (s.setQueue m q).reqs = s.reqs := rfl

@[simp] theorem setQueue_procs : (s.setQueue m q).procs = s.procs := rfl

@[simp] theorem setProc_bufs {proc : Proc} : (s.setProc p proc).bufs = s.bufs := rfl

@[simp] theorem setProc_reqs {proc : Proc} : (s.setProc p proc).reqs = s.reqs := rfl

@[simp] theorem setProc_queue {proc : Proc} : (s.setProc p proc).queue = s.queue := rfl

@[simp] theorem setBuf_self {f : Buf → Buf} : (s.setBuf b f).bufs b = f (s.bufs b) := update_self ..

theorem setBuf_of_ne {f : Buf → Buf} {c : ℕ} (hc : c ≠ b) : (s.setBuf b f).bufs c = s.bufs c :=
  update_of_ne hc ..

@[simp] theorem setReq_self {f : Request → Request} : (s.setReq i f).reqs i = f (s.reqs i) :=
  update_self ..

theorem setReq_of_ne {f : Request → Request} {j : ℕ} (hj : j ≠ i) :
    (s.setReq i f).reqs j = s.reqs j :=
  update_of_ne hj ..

@[simp] theorem setProc_self {proc : Proc} : (s.setProc p proc).procs p = proc := update_self ..

theorem setProc_of_ne {proc : Proc} {p' : ℕ} (hp : p' ≠ p) :
    (s.setProc p proc).procs p' = s.procs p' :=
  update_of_ne hp ..

@[simp] theorem setQueue_self : (s.setQueue m q).queue m = q := update_self ..

theorem setQueue_of_ne {m' : ℕ} (hm : m' ≠ m) : (s.setQueue m q).queue m' = s.queue m' :=
  update_of_ne hm ..

section Move

variable {proc : Proc}

section
variable (h : Inv k s g)
include h

theorem Inv.holds_move {owner : ℕ → Owner} (hmoved : ∀ d, proc.holds = some d ↔ owner d = .proc p)
    (hother : ∀ p', p' ≠ p → ∀ d, owner d = .proc p' ↔ g.owner d = .proc p') :
    ∀ p' d, ((s.setProc p proc).procs p').holds = some d ↔ owner d = .proc p' := by
  intro p' d
  by_cases hp : p' = p
  · subst hp
    rw [setProc_self]
    exact hmoved d
  · rw [setProc_of_ne hp, hother p' hp]
    exact h.holds p' d

theorem Inv.adding_move {place : ℕ → Place} (hmoved : ∀ i, proc.adds = some i ↔ place i = .adding p)
    (hother : ∀ p', p' ≠ p → ∀ i, place i = .adding p' ↔ g.place i = .adding p') :
    ∀ p' i, ((s.setProc p proc).procs p').adds = some i ↔ place i = .adding p' := by
  intro p' i
  by_cases hp : p' = p
  · subst hp
    rw [setProc_self]
    exact hmoved i
  · rw [setProc_of_ne hp, hother p' hp]
    exact h.adding p' i

theorem Inv.procs_move (hok : proc.Ok) : ∀ p', ((s.setProc p proc).procs p').Ok := by
  intro p'
  by_cases hp : p' = p
  · subst hp
    rwa [setProc_self]
  · rw [setProc_of_ne hp]
    exact h.procs p'

theorem Inv.plug_move (hplug : ∀ m, proc.plug = some m → (s.procs p).plug = some m) :
    ∀ p' m, ((s.setProc p proc).procs p').plug = some m → ∃ cmd sector rest,
      s.queue m = .plug p' cmd sector :: rest := by
  intro p' m hm
  by_cases hp : p' = p
  · subst hp
    rw [setProc_self] at hm
    exact h.plug p' m (hplug m hm)
  · rw [setProc_of_ne hp] at hm
    exact h.plug p' m hm

theorem Inv.setProc (hholds : proc.holds = (s.procs p).holds) (hadds : proc.adds = (s.procs p).adds)
    (hok : proc.Ok) (hplug : ∀ m, proc.plug = some m → (s.procs p).plug = some m) :
    Inv k (s.setProc p proc) g :=
  { h with
    holds := h.holds_move (fun d => hholds ▸ h.holds p d) fun _ _ _ => Iff.rfl
    adding := h.adding_move (fun i => hadds ▸ h.adding p i) fun _ _ _ => Iff.rfl
    procs := h.procs_move hok
    plug := h.plug_move hplug }

end

end Move

section
variable (h : Inv k s g)
include h

theorem Inv.setFlags {f : Buf → Buf}
    (hf : ∀ buf, (f buf).lock = buf.lock ∧ (f buf).reqnext = buf.reqnext ∧ (f buf).cmd = buf.cmd) :
    Inv k (s.setBuf b f) g := by
  have hsame : ∀ c, ((s.setBuf b f).bufs c).lock = (s.bufs c).lock ∧
      ((s.setBuf b f).bufs c).reqnext = (s.bufs c).reqnext ∧
        ((s.setBuf b f).bufs c).cmd = (s.bufs c).cmd := by
    intro c
    by_cases hc : c = b
    · subst hc
      rw [setBuf_self]
      exact hf _
    · rw [setBuf_of_ne hc]
      exact ⟨rfl, rfl, rfl⟩
  refine { h with request := ?_, lock := ?_, loose := ?_ }
  · intro i hi
    exact (h.request i hi).congr fun c _ => (hsame c).2
  · intro c
    rw [(hsame c).1]
    exact h.lock c
  · intro c hc
    rw [(hsame c).2.1]
    exact h.loose c hc

theorem Inv.setFound (prevFound prevLimit : ℕ) :
    Inv k { s with prevFound := prevFound, prevLimit := prevLimit } g :=
  { h with }

theorem Inv.owner_of_unlocked (hb : (s.bufs b).lock = false) : g.owner b = .free := by
  by_contra hne
  have := (h.lock b).2 hne
  rw [hb] at this
  cases this

theorem Inv.setLock {owner : Owner} {lock : Bool} (hlock : lock = true ↔ owner ≠ .free)
    (hb : ∀ i, g.owner b ≠ .entry i) (howner : ∀ i, owner ≠ .entry i) {proc : Proc}
    (hholds : ∀ d, proc.holds = some d ↔ update g.owner b owner d = .proc p)
    (hother : ∀ p', p' ≠ p → ∀ d, update g.owner b owner d = .proc p' ↔ g.owner d = .proc p')
    (hadds : proc.adds = (s.procs p).adds) (hok : proc.Ok)
    (hplug : ∀ m, proc.plug = some m → (s.procs p).plug = some m) :
    Inv k ((s.setBuf b fun buf => { buf with lock := lock }).setProc p proc)
      { g with owner := update g.owner b owner } := by
  have hentry : ∀ d i, update g.owner b owner d = .entry i ↔ g.owner d = .entry i := by
    intro d i
    by_cases hd : d = b
    · subst hd
      simp [hb i, howner i]
    · rw [update_of_ne hd]
  have hsame : ∀ d, ((s.setBuf b fun buf => { buf with lock := lock }).bufs d).reqnext =
      (s.bufs d).reqnext ∧ ((s.setBuf b fun buf => { buf with lock := lock }).bufs d).cmd =
        (s.bufs d).cmd := by
    intro d
    by_cases hd : d = b
    · subst hd
      rw [setBuf_self]
      exact ⟨rfl, rfl⟩
    · rw [setBuf_of_ne hd]
      exact ⟨rfl, rfl⟩
  refine
    { h with
      request := fun i hi => (h.request i hi).congr fun d _ => hsame d
      member := fun i d hi => (h.member i d hi).trans (hentry d i).symm
      inUse := fun d i hd => h.inUse d i ((hentry d i).1 hd)
      lock := ?_
      loose := ?_
      holds := h.holds_move hholds hother
      adding := h.adding_move (fun i => hadds ▸ h.adding p i) fun _ _ _ => Iff.rfl
      procs := h.procs_move hok
      plug := h.plug_move hplug }
  · intro d
    by_cases hd : d = b
    · subst hd
      simpa using hlock
    · simp only [setProc_bufs, setBuf_of_ne hd, update_of_ne hd]
      exact h.lock d
  · intro d hd
    rw [setProc_bufs, (hsame d).1]
    exact h.loose d fun i hi => hd i ((hentry d i).2 hi)

theorem Inv.hold (hb : (s.bufs b).lock = false) (hholds : (s.procs p).holds = none)
    (hadds : (s.procs p).adds = none) {rest : List (Option ℕ)} (hbhs : c.bhs = some b :: rest)
    (hplug : (Proc.call c .waitRequest).plug = (s.procs p).plug) :
    Inv k ((s.setBuf b fun buf => { buf with lock := true }).setProc p (.call c .waitRequest))
      { g with owner := update g.owner b (.proc p) } := by
  have hfree := h.owner_of_unlocked hb
  apply h.setLock
  · simp
  · simp [hfree]
  · simp
  · intro d
    have hnew : (Proc.call c .waitRequest).holds = some b := by simp [Proc.holds, hbhs]
    rw [hnew]
    by_cases hd : d = b
    · subst hd
      simp
    · have hnot : g.owner d ≠ .proc p := by
        intro hown
        rw [← h.holds, hholds] at hown
        cases hown
      simp [hd, Ne.symm hd, hnot]
  · intro p' hp d
    by_cases hd : d = b
    · subst hd
      simp [hfree, Ne.symm hp]
    · rw [update_of_ne hd]
  · rw [hadds]
    rfl
  · exact .inr ⟨b, rest, hbhs⟩
  · intro m hm
    rwa [← hplug]

theorem Inv.unhold (hb : g.owner b = .proc p) {proc : Proc} (hholds : proc.holds = none)
    (hadds : proc.adds = (s.procs p).adds) (hok : proc.Ok)
    (hplug : ∀ m, proc.plug = some m → (s.procs p).plug = some m) :
    Inv k ((unlockBuffer s b).setProc p proc)
      { g with owner := update g.owner b .free } := by
  apply h.setLock
  · simp
  · simp [hb]
  · simp
  · intro d
    rw [hholds]
    by_cases hd : d = b
    · subst hd
      simp
    · have hnot : g.owner d ≠ .proc p := by
        intro hown
        rw [← h.holds, (h.holds p b).2 hb] at hown
        exact hd (Option.some_inj.1 hown).symm
      simp [hd, hnot]
  · intro p' hp d
    by_cases hd : d = b
    · subst hd
      simp [hb, Ne.symm hp]
    · rw [update_of_ne hd]
  · exact hadds
  · exact hok
  · exact hplug

end

theorem adds_of_holds {proc : Proc} (h : proc.holds = some b) : proc.adds = none := by
  cases proc with
  | idle => rfl
  | call c pc =>
    cases pc with
    | adding i => cases h
    | ready => rfl
    | waitLock => rfl
    | waitRequest => rfl

/-- How the place of the entry that a buffer goes to may change: not at all, or from free to the
process that has filled it. -/
inductive Filled (p i : ℕ) (proc : Proc) : Place → Place → Prop
  | kept {place : Place} : place ≠ .free → proc.adds = none → Filled p i proc place place
  | taken : i < NR_REQUEST → proc.adds = some i → Filled p i proc .free (.adding p)

theorem Filled.ne_free {proc : Proc} {pl pl' : Place} (h : Filled p i proc pl pl') :
    pl' ≠ .free := by
  cases h with
  | kept hne _ => exact hne
  | taken _ _ => simp

theorem Inv.give (h : Inv k s g) (hb : g.owner b = .proc p) {s' : Queues} {l : List ℕ}
    {pl : Place} {proc : Proc} (hplace : Filled p i proc (g.place i) pl)
    (hbufs : ∀ d, d ∉ l → s'.bufs d = s.bufs d)
    (hlock : ∀ d, (s'.bufs d).lock = (s.bufs d).lock)
    (hreqs : ∀ j, j ≠ i → s'.reqs j = s.reqs j)
    (hreq : RequestOk k s'.bufs (s'.reqs i) l)
    (hl : ∀ d, d ∈ l ↔ g.owner d = .entry i ∨ d = b)
    (hqueue : s'.queue = s.queue) (hprocs : s'.procs = (s.setProc p proc).procs)
    (hholds : proc.holds = none) (hok : proc.Ok)
    (hplug : ∀ m, proc.plug = some m → (s.procs p).plug = some m) :
    Inv k s'
      { chain := update g.chain i l
        owner := update g.owner b (.entry i)
        place := update g.place i pl } := by
  have hfree := hplace.ne_free
  have hold : (s.procs p).holds = some b := (h.holds p b).2 hb
  have hb' : ∀ j, g.owner b ≠ .entry j := by simp [hb]
  have hother : ∀ d j, j ≠ i → (update g.owner b (.entry i) d = .entry j ↔
      g.owner d = .entry j) := by
    intro d j hj
    by_cases hd : d = b
    · subst hd
      simp [hb, Ne.symm hj]
    · rw [update_of_ne hd]
  have howner : ∀ d, update g.owner b (.entry i) d = .entry i ↔ d ∈ l := by
    intro d
    rw [hl]
    by_cases hd : d = b
    · subst hd
      simp
    · simp [hd]
  have hsameAdds : ∀ p', p' ≠ p → ∀ j,
      update g.place i pl j = .adding p' ↔ g.place j = .adding p' := by
    intro p' hp j
    by_cases hj : j = i
    · subst hj
      rw [update_self]
      generalize g.place j = old at hplace
      cases hplace with
      | kept _ _ => exact Iff.rfl
      | taken _ _ => simp [Ne.symm hp]
    · rw [update_of_ne hj]
  have hmovedAdds : ∀ j, proc.adds = some j ↔ update g.place i pl j = .adding p := by
    intro j
    have hnone : g.place j ≠ .adding p := by
      rw [Ne, ← h.adding, adds_of_holds hold]
      simp
    by_cases hj : j = i
    · subst hj
      generalize g.place j = old at hplace hnone
      cases hplace with
      | kept _ hadds => simp [hadds, hnone]
      | taken _ hadds => simp [hadds]
    · rw [update_of_ne hj]
      generalize g.place i = old at hplace
      cases hplace with
      | kept _ hadds => simp [hadds, hnone]
      | taken _ hadds => simp [hadds, hnone, Ne.symm hj]
  refine ⟨?_, ?_, ?_, ?_, ?_, ?_, ?_, ?_, ?_, ?_, ?_, ?_, ?_⟩
  · intro j hj
    by_cases hji : j = i
    · subst hji
      simpa using hreq
    · simp only [update_of_ne hji] at hj ⊢
      rw [hreqs j hji]
      apply (h.request j hj).congr
      intro d hd
      have hown := (h.member j d hj).1 hd
      have hnot : d ∉ l := by
        rw [hl, hown]
        rintro (heq | rfl)
        · exact hji (Owner.entry.inj heq)
        · exact hb' j hown
      rw [hbufs d hnot]
      exact ⟨rfl, rfl⟩
  · intro j
    by_cases hji : j = i
    · subst hji
      have hdev : (s'.reqs j).dev ≠ none := by
        obtain ⟨rest, hl', -, -⟩ := hreq.bh
        have := (hreq.same (s'.reqs j).buffer (by rw [hl']; exact List.mem_cons_self)).1
        rw [this]
        simp
      simp [hdev, hfree]
    · simp only [update_of_ne hji, hreqs j hji]
      exact h.active j
  · intro j d hj
    by_cases hji : j = i
    · subst hji
      rw [howner d]
      simp
    · simp only [update_of_ne hji] at hj ⊢
      rw [hother d j hji]
      exact h.member j d hj
  · intro d j hd
    by_cases hji : j = i
    · subst hji
      simpa using hfree
    · simp only [update_of_ne hji]
      exact h.inUse d j ((hother d j hji).1 hd)
  · intro d
    rw [hlock]
    by_cases hd : d = b
    · subst hd
      simp [h.lock, hb]
    · simp only [update_of_ne hd]
      exact h.lock d
  · intro d hd
    have hnot : d ∉ l := by
      rw [← howner]
      exact hd i
    rw [hbufs d hnot]
    apply h.loose
    intro j hj
    by_cases hji : j = i
    · subst hji
      exact hnot ((hl d).2 (.inl hj))
    · exact hd j ((hother d j hji).2 hj)
  · rw [hprocs]
    apply h.holds_move
    · intro d
      rw [hholds]
      by_cases hd : d = b
      · subst hd
        simp
      · have hnot : g.owner d ≠ .proc p := by
          intro hown
          rw [← h.holds, hold] at hown
          exact hd (Option.some_inj.1 hown).symm
        simp [hd, hnot]
    · intro p' hp d
      by_cases hd : d = b
      · subst hd
        simp [hb, Ne.symm hp]
      · simp only [update_of_ne hd]
  · rw [hprocs]
    exact h.adding_move hmovedAdds hsameAdds
  · intro m j
    rw [hqueue, h.queue]
    by_cases hji : j = i
    · subst hji
      simp only [update_self]
      generalize g.place j = old at hplace
      cases hplace with
      | kept _ _ => exact Iff.rfl
      | taken _ _ => simp
    · simp only [update_of_ne hji]
  · intro j hj
    by_cases hji : j = i
    · subst hji
      simp only [update_self]
      have hcommand := h.command j hj
      generalize g.place j = old at hplace hcommand
      cases hplace with
      | kept _ _ => exact hcommand
      | taken hlt _ => omega
    · simp only [update_of_ne hji]
      exact h.command j hj
  · rw [hqueue]
    exact h.nodup
  · rw [hprocs]
    exact h.procs_move hok
  · rw [hprocs, hqueue]
    exact h.plug_move hplug

theorem Inv.finish (h : Inv k s g) {rest : List ℕ} (pl : Place) {s' : Queues}
    (hi : g.place i ≠ .free) (hadding : ∀ p, g.place i ≠ .adding p)
    (hchain : g.chain i = b :: rest)
    (hpl : pl = g.place i ∧ RequestOk k s'.bufs (s'.reqs i) rest ∨
      pl = .free ∧ rest = [] ∧ (s'.reqs i).dev = none)
    (hbuf : (s'.bufs b).lock = false ∧ (s'.bufs b).reqnext = none)
    (hbufs : ∀ d, d ≠ b → s'.bufs d = s.bufs d)
    (hreqs : ∀ j, j ≠ i → s'.reqs j = s.reqs j) (hprocs : s'.procs = s.procs)
    (hqueue : ∀ m j, .req j ∈ s'.queue m ↔ update g.place i pl j = .queue m)
    (hnodup : ∀ m, (s'.queue m).Nodup)
    (hplug : ∀ p m, (s.procs p).plug = some m → ∃ cmd sector rest,
      s'.queue m = .plug p cmd sector :: rest) :
    Inv k s'
      { chain := update g.chain i rest
        owner := update g.owner b .free
        place := update g.place i pl } := by
  have hb : g.owner b = .entry i := by
    rw [← h.member i b hi, hchain]
    exact List.mem_cons_self
  have hrest : b ∉ rest := by
    have := (h.request i hi).nodup
    rw [hchain] at this
    exact (List.nodup_cons.1 this).1
  have hother : ∀ d j, j ≠ i → (update g.owner b .free d = .entry j ↔ g.owner d = .entry j) := by
    intro d j hj
    by_cases hd : d = b
    · subst hd
      simp [hb, Ne.symm hj]
    · rw [update_of_ne hd]
  have howner : ∀ d, update g.owner b .free d = .entry i ↔ d ∈ rest := by
    intro d
    by_cases hd : d = b
    · subst hd
      simp [hrest]
    · rw [update_of_ne hd, ← h.member i d hi, hchain]
      simp [hd]
  refine ⟨?_, ?_, ?_, ?_, ?_, ?_, ?_, ?_, hqueue, ?_, hnodup, ?_, ?_⟩
  · intro j hj
    by_cases hji : j = i
    · subst hji
      simp only [update_self] at hj ⊢
      rcases hpl with ⟨-, hreq⟩ | ⟨hfree, -, -⟩
      · exact hreq
      · exact absurd hfree hj
    · simp only [update_of_ne hji] at hj ⊢
      rw [hreqs j hji]
      apply (h.request j hj).congr
      intro d hd
      have hdb : d ≠ b := by
        rintro rfl
        rw [h.member j d hj, hb] at hd
        exact hji (Owner.entry.inj hd).symm
      rw [hbufs d hdb]
      exact ⟨rfl, rfl⟩
  · intro j
    by_cases hji : j = i
    · subst hji
      rcases hpl with ⟨hsame, hreq⟩ | ⟨hfree, -, hdev⟩
      · have hdev : (s'.reqs j).dev ≠ none := by
          obtain ⟨more, hl, -, -⟩ := hreq.bh
          have := (hreq.same (s'.reqs j).buffer (by rw [hl]; exact List.mem_cons_self)).1
          rw [this]
          simp
        rw [hsame]
        simp [hdev, hi]
      · simp [hfree, hdev]
    · simp only [update_of_ne hji, hreqs j hji]
      exact h.active j
  · intro j d hj
    by_cases hji : j = i
    · subst hji
      rw [howner d]
      simp
    · simp only [update_of_ne hji] at hj ⊢
      rw [hother d j hji]
      exact h.member j d hj
  · intro d j hd
    by_cases hji : j = i
    · subst hji
      have hmem := (howner d).1 hd
      simp only [update_self]
      rcases hpl with ⟨hsame, -⟩ | ⟨-, hnil, -⟩
      · rwa [hsame]
      · rw [hnil] at hmem
        cases hmem
    · simp only [update_of_ne hji]
      exact h.inUse d j ((hother d j hji).1 hd)
  · intro d
    by_cases hd : d = b
    · subst hd
      simp [hbuf.1]
    · simp only [update_of_ne hd, hbufs d hd]
      exact h.lock d
  · intro d hd
    by_cases hdb : d = b
    · subst hdb
      exact hbuf.2
    · rw [hbufs d hdb]
      apply h.loose
      intro j hj
      apply hd j
      simpa only [update_of_ne hdb] using hj
  · intro p d
    rw [hprocs, h.holds]
    by_cases hd : d = b
    · subst hd
      simp [hb]
    · simp only [update_of_ne hd]
  · intro p j
    rw [hprocs, h.adding]
    by_cases hji : j = i
    · subst hji
      simp only [update_self]
      rcases hpl with ⟨hsame, -⟩ | ⟨hfree, -, -⟩
      · rw [hsame]
      · simp [hfree, hadding p]
    · simp only [update_of_ne hji]
  · intro j hj
    by_cases hji : j = i
    · subst hji
      simp only [update_self]
      rcases hpl with ⟨hsame, -⟩ | ⟨hfree, -, -⟩
      · rw [hsame]
        exact h.command j hj
      · exact .inl hfree
    · simp only [update_of_ne hji]
      exact h.command j hj
  · rw [hprocs]
    exact h.procs
  · rw [hprocs]
    exact hplug

theorem Inv.replace (h : Inv k s g) (q : ℕ → List Node) (pl : Place) (proc : Proc)
    (hi : g.place i ≠ .free) (hpl : pl ≠ .free) (hlt : i < NR_REQUEST)
    (hholds : proc.holds = (s.procs p).holds) (hok : proc.Ok)
    (hadds : ∀ p' j, ((s.setProc p proc).procs p').adds = some j ↔
      update g.place i pl j = .adding p')
    (hqueue : ∀ m j, .req j ∈ q m ↔ update g.place i pl j = .queue m)
    (hnodup : ∀ m, (q m).Nodup)
    (hplug : ∀ p' m, ((s.setProc p proc).procs p').plug = some m → ∃ cmd sector rest,
      q m = .plug p' cmd sector :: rest) :
    Inv k { s.setProc p proc with queue := q }
      { g with place := update g.place i pl } := by
  have hfree : ∀ j, update g.place i pl j ≠ .free ↔ g.place j ≠ .free := by
    intro j
    by_cases hj : j = i
    · subst hj
      simp [hi, hpl]
    · rw [update_of_ne hj]
  refine ⟨?_, ?_, ?_, ?_, h.lock, h.loose, ?_, hadds, hqueue, ?_, hnodup, h.procs_move hok, hplug⟩
  · intro j hj
    exact h.request j ((hfree j).1 hj)
  · intro j
    exact (h.active j).trans (hfree j).symm
  · intro j d hj
    exact h.member j d ((hfree j).1 hj)
  · intro d j hd
    exact (hfree j).2 (h.inUse d j hd)
  · exact h.holds_move (fun d => hholds ▸ h.holds p d) fun _ _ _ => Iff.rfl
  · intro j hj
    have hne : j ≠ i := by omega
    simp only [update_of_ne hne]
    exact h.command j hj

end LinuxKernel.BlockRequest
