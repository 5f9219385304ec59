import Mathlib.Tactic

/-!
# The identities and limits of a process

`sys_setuid`, `sys_setreuid`, `sys_setgid`, `sys_setregid`, `sys_setrlimit` and `sys_brk` of
`kernel/sys.c`.
-/

namespace LinuxKernel.Credentials
open Function List

/-! ## Identities -/

abbrev Id := BitVec 16

structure Ids where
  id : Id
  eid : Id
  sid : Id

def Ids.values (ids : Ids) : List Id := [ids.id, ids.eid, ids.sid]

structure Process where
  user : Ids
  group : Ids

def Process.suser (p : Process) : Prop := p.user.eid = 0

instance (p : Process) : Decidable p.suser := inferInstanceAs (Decidable (p.user.eid = 0))

/-- `sys_setreuid` and `sys_setregid`; the answer is `false` for `-EPERM`. -/
def Ids.setre (suser : Prop) [Decidable suser] (ids : Ids) (rid eid : Id) : Ids × Bool :=
  if rid ≠ -1 ∧ ¬(ids.eid = rid ∨ ids.id = rid ∨ suser) then (ids, false)
  else
    let new := if rid ≠ -1 then { ids with id := rid } else ids
    if eid = -1 then (new, true)
    else if ids.id = eid ∨ new.eid = eid ∨ suser then ({ new with eid, sid := eid }, true)
    else ({ new with id := ids.id }, false)

def Ids.set (suser : Prop) [Decidable suser] (ids : Ids) (id : Id) : Ids × Bool :=
  if suser then (⟨id, id, id⟩, true)
  else if id = ids.id ∨ id = ids.sid then ({ ids with eid := id }, true)
  else (ids, false)

inductive Call where
  | setuid (uid : Id)
  | setreuid (ruid euid : Id)
  | setgid (gid : Id)
  | setregid (rgid egid : Id)

def Process.call (p : Process) : Call → Process × Bool
  | .setuid uid => (p.user.set p.suser uid).map (fun user => { p with user }) id
  | .setreuid ruid euid => (p.user.setre p.suser ruid euid).map (fun user => { p with user }) id
  | .setgid gid => (p.group.set p.suser gid).map (fun group => { p with group }) id
  | .setregid rgid egid => (p.group.setre p.suser rgid egid).map (fun group => { p with group }) id

def Process.run (p : Process) (calls : List Call) : Process :=
  calls.foldl (fun p c => (p.call c).1) p

variable {suser : Prop} [Decidable suser] {ids : Ids} {p : Process}

theorem not_suser (h : 0 ∉ p.user.values) : ¬p.suser := fun hzero =>
  h (by simp [Ids.values, show p.user.eid = 0 from hzero])

theorem setre_eperm (rid eid : Id) (h : (ids.setre suser rid eid).2 = false) :
    (ids.setre suser rid eid).1 = ids := by
  unfold Ids.setre at *
  dsimp only at *
  split_ifs at h ⊢ <;> rfl

theorem set_eperm (id : Id) (h : (ids.set suser id).2 = false) : (ids.set suser id).1 = ids := by
  unfold Ids.set at *
  grind

theorem setre_subset (hsuser : ¬suser) (rid eid : Id) :
    (ids.setre suser rid eid).1.values ⊆ ids.values := by
  unfold Ids.setre Ids.values
  grind

theorem set_subset (hsuser : ¬suser) (id : Id) :
    (ids.set suser id).1.values ⊆ ids.values := by
  unfold Ids.set Ids.values
  grind

theorem call_subset (h : 0 ∉ p.user.values) (c : Call) :
    (p.call c).1.user.values ⊆ p.user.values ∧ (p.call c).1.group.values ⊆ p.group.values := by
  have hsuser := not_suser h
  cases c with
  | setuid uid => exact ⟨set_subset hsuser uid, fun _ h => h⟩
  | setreuid ruid euid => exact ⟨setre_subset hsuser ruid euid, fun _ h => h⟩
  | setgid gid => exact ⟨fun _ h => h, set_subset hsuser gid⟩
  | setregid rgid egid => exact ⟨fun _ h => h, setre_subset hsuser rgid egid⟩

theorem call_eperm (c : Call) (h : (p.call c).2 = false) : (p.call c).1 = p := by
  cases c with
  | setuid uid => exact congrArg (fun user => { p with user }) (set_eperm uid h)
  | setreuid ruid euid => exact congrArg (fun user => { p with user }) (setre_eperm ruid euid h)
  | setgid gid => exact congrArg (fun group => { p with group }) (set_eperm gid h)
  | setregid rgid egid => exact congrArg (fun group => { p with group }) (setre_eperm rgid egid h)

theorem run_subset (h : 0 ∉ p.user.values) (calls : List Call) :
    (p.run calls).user.values ⊆ p.user.values ∧ (p.run calls).group.values ⊆ p.group.values := by
  induction calls generalizing p with
  | nil => exact ⟨fun _ h => h, fun _ h => h⟩
  | cons c calls ih =>
    obtain ⟨huser, hgroup⟩ := call_subset h c
    obtain ⟨hrest, hrest'⟩ := ih fun hzero => h (huser hzero)
    exact ⟨List.Subset.trans hrest huser, List.Subset.trans hrest' hgroup⟩

theorem setre_same (hsuser : ¬suser) (x : Id) (hx : x ≠ -1) (h : (ids.setre suser x x).2 = true) :
    (ids.setre suser x x).1 = ⟨x, x, x⟩ := by
  unfold Ids.setre at *
  grind

/-- Without super-user rights no call brings in an identity, one that fails changes nothing, and
after `setreuid(x, x)`, where `x` is not the value that stands for no change, only `x` is left. -/
theorem identities_ok (p : Process) (h : 0 ∉ p.user.values) (calls : List Call) :
    (p.run calls).user.values ⊆ p.user.values ∧ (p.run calls).group.values ⊆ p.group.values ∧
    (∀ c, ((p.run calls).call c).2 = false → ((p.run calls).call c).1 = p.run calls) ∧
    ∀ x, x ≠ -1 → (p.call (.setreuid x x)).2 = true →
      ∀ v ∈ ((p.call (.setreuid x x)).1.run calls).user.values, v = x := by
  refine ⟨(run_subset h calls).1, (run_subset h calls).2, fun c => call_eperm c,
    fun x hx hok v hv => ?_⟩
  have hsuser := not_suser h
  have hsame : (p.call (.setreuid x x)).1.user = ⟨x, x, x⟩ := setre_same hsuser x hx hok
  have hmem := (run_subset (fun hzero => h ((call_subset h _).1 hzero)) calls).1 hv
  rw [hsame] at hmem
  simpa [Ids.values] using hmem

theorem identities_ok_user :
    let p : Process := ⟨⟨1, 2, 3⟩, ⟨1, 1, 1⟩⟩
    (p.run [.setuid 3]).user.values ⊆ p.user.values ∧
    (p.run [.setuid 3]).group.values ⊆ p.group.values ∧
    (∀ c, ((p.run [.setuid 3]).call c).2 = false →
      ((p.run [.setuid 3]).call c).1 = p.run [.setuid 3]) ∧
    ∀ x, x ≠ -1 → (p.call (.setreuid x x)).2 = true →
      ∀ v ∈ ((p.call (.setreuid x x)).1.run [.setuid 3]).user.values, v = x :=
  identities_ok _ (by decide) _

/-- `setreuid(-1, -1)` succeeds and leaves everything as it is. -/
theorem setreuid_no_change :
    let p : Process := ⟨⟨1, 2, 3⟩, ⟨1, 1, 1⟩⟩
    0 ∉ p.user.values ∧ (p.call (.setreuid (-1) (-1))).2 = true ∧
      (p.call (.setreuid (-1) (-1))).1.user.id ≠ -1 := by
  decide

/-- `setuid` of the super-user gives the rights up for good, whatever is called later; after
`setreuid(-1, euid)` the real uid brings them back. -/
theorem setuid_permanent (p : Process) (hsuser : p.suser) (uid : Id) (huid : uid ≠ 0)
    (calls : List Call) :
    (((p.call (.setuid uid)).1.run calls).user.values ⊆ [uid] ∧
      ¬((p.call (.setuid uid)).1.run calls).suser) ∧
    ∀ euid, p.user.id = 0 →
      (((p.call (.setreuid (-1) euid)).1.call (.setuid 0)).1).suser := by
  have hset : (p.call (.setuid uid)).1.user = ⟨uid, uid, uid⟩ :=
    congrArg Prod.fst (if_pos hsuser : p.user.set p.suser uid = _)
  have hvalues : (p.call (.setuid uid)).1.user.values = [uid, uid, uid] := by rw [hset]; rfl
  have hnone : 0 ∉ (p.call (.setuid uid)).1.user.values := by
    rw [hvalues]
    simpa using huid.symm
  have hsub := (run_subset hnone calls).1
  refine ⟨⟨fun v hv => ?_, not_suser fun hzero => hnone (hsub hzero)⟩, fun euid hid => ?_⟩
  · simpa [hvalues] using hsub hv
  · simp only [Process.call, Ids.setre, Ids.set, Process.suser] at hsuser ⊢
    grind

theorem setuid_permanent_root :
    ¬(((⟨⟨0, 0, 0⟩, ⟨0, 0, 0⟩⟩ : Process).call (.setuid 5)).1.run [.setuid 0]).suser :=
  (setuid_permanent _ (by decide) 5 (by decide) _).1.2

/-! ## Resource limits -/

structure Rlimit where
  rlimCur : BitVec 32
  rlimMax : BitVec 32

def rlimitData : ℕ := 2

def sysSetrlimit (suser : Bool) (rlim : ℕ → Rlimit) (resource : ℕ) (new : Rlimit) :
    Option (ℕ → Rlimit) :=
  let old := rlim resource
  if 6 ≤ resource then none
  else if (old.rlimMax.slt new.rlimCur ∨ old.rlimMax.slt new.rlimMax) ∧ suser = false then none
  else some (update rlim resource new)

/-- A limit as `sys_brk` takes it: an unsigned number, and none from `RLIM_INFINITY` on. -/
def brkLimit (rlim : BitVec 32) : ℕ :=
  if 0x7FFFFFFF ≤ rlim.toNat then 2 ^ 32 - 1 else rlim.toNat

structure Mm where
  endCode : BitVec 32
  brk : BitVec 32
  startStack : BitVec 32

def pageAlign (x : BitVec 32) : BitVec 32 := (x + 4095) &&& ~~~4095

/-- `sys_brk`: the end of the data that it leaves; `enough` says whether there is memory. -/
def sysBrk (m : Mm) (rlim : ℕ → Rlimit) (enough : Bool) (brk : BitVec 32) : BitVec 32 :=
  if brk < m.endCode then m.brk
  else if pageAlign m.brk = pageAlign brk then brk
  else if brk ≤ m.brk then brk
  else if brkLimit (rlim rlimitData).rlimCur < (brk - m.endCode).toNat ∨
      m.startStack - 16384 ≤ brk then m.brk
  else if enough then brk
  else m.brk

def setrlimits (rlim : ℕ → Rlimit) (calls : List (ℕ × Rlimit)) : ℕ → Rlimit :=
  calls.foldl (fun rlim c => (sysSetrlimit false rlim c.1 c.2).getD rlim) rlim

/-- `sys_brk` takes a larger piece of memory only within the limit. -/
theorem sysBrk_limit (m : Mm) (rlim : ℕ → Rlimit) (enough : Bool) (brk : BitVec 32)
    (hgrows : m.brk < sysBrk m rlim enough brk)
    (hpages : pageAlign m.brk ≠ pageAlign (sysBrk m rlim enough brk)) :
    (sysBrk m rlim enough brk - m.endCode).toNat ≤ brkLimit (rlim rlimitData).rlimCur := by
  unfold sysBrk at *
  grind

theorem brkLimit_le {a b : BitVec 32} (ha : a.msb = false) (h : ¬b.slt a) :
    brkLimit a ≤ brkLimit b := by
  rw [BitVec.msb_eq_false_iff_two_mul_lt] at ha
  rw [BitVec.slt_eq_decide, decide_eq_true_iff, BitVec.toInt_eq_toNat_cond,
    BitVec.toInt_eq_toNat_cond] at h
  unfold brkLimit
  grind

/-- The values of a call, where it is one for the data, are not negative. -/
def CallOk (c : ℕ × Rlimit) : Prop :=
  c.1 = rlimitData → c.2.rlimCur.msb = false ∧ c.2.rlimMax.msb = false

theorem setrlimits_le {rlim : ℕ → Rlimit} {limit : ℕ} (calls : List (ℕ × Rlimit))
    (hcalls : ∀ c ∈ calls, CallOk c) (hcur : brkLimit (rlim rlimitData).rlimCur ≤ limit)
    (hmax : brkLimit (rlim rlimitData).rlimMax ≤ limit) :
    brkLimit (setrlimits rlim calls rlimitData).rlimCur ≤ limit ∧
      brkLimit (setrlimits rlim calls rlimitData).rlimMax ≤
        brkLimit (rlim rlimitData).rlimMax := by
  induction calls generalizing rlim with
  | nil => exact ⟨hcur, le_rfl⟩
  | cons c calls ih =>
    have hc := hcalls c mem_cons_self
    have hstep :
        brkLimit ((sysSetrlimit false rlim c.1 c.2).getD rlim rlimitData).rlimCur ≤ limit ∧
          brkLimit ((sysSetrlimit false rlim c.1 c.2).getD rlim rlimitData).rlimMax ≤
            brkLimit (rlim rlimitData).rlimMax := by
      unfold sysSetrlimit
      dsimp only
      split_ifs with hresource hrefused
      · exact ⟨hcur, le_rfl⟩
      · exact ⟨hcur, le_rfl⟩
      · have hle := fun h : c.1 = rlimitData =>
          brkLimit_le (hc h).1 fun hslt => hrefused ⟨.inl hslt, rfl⟩
        have hle' := fun h : c.1 = rlimitData =>
          brkLimit_le (hc h).2 fun hslt => hrefused ⟨.inr hslt, rfl⟩
        rw [Option.getD_some, update_apply]
        grind
    obtain ⟨hcur', hmax'⟩ := hstep
    obtain ⟨hlast, hrest⟩ := ih (fun d hd => hcalls d (mem_cons_of_mem _ hd)) hcur'
      (hmax'.trans hmax)
    exact ⟨hlast, hrest.trans hmax'⟩

/-- While no call names a negative number, `sys_brk` observes a limit within the hard limit of the
start, and the hard limit does not grow. -/
theorem limits_ok (rlim : ℕ → Rlimit) (calls : List (ℕ × Rlimit))
    (hstart : brkLimit (rlim rlimitData).rlimCur ≤ brkLimit (rlim rlimitData).rlimMax)
    (hcalls : ∀ c ∈ calls, CallOk c) :
    brkLimit (setrlimits rlim calls rlimitData).rlimCur ≤ brkLimit (rlim rlimitData).rlimMax ∧
    (∀ m enough brk, m.brk < sysBrk m (setrlimits rlim calls) enough brk →
      pageAlign m.brk ≠ pageAlign (sysBrk m (setrlimits rlim calls) enough brk) →
      (sysBrk m (setrlimits rlim calls) enough brk - m.endCode).toNat ≤
        brkLimit (rlim rlimitData).rlimMax) ∧
    ∀ n, brkLimit (setrlimits rlim calls rlimitData).rlimMax ≤
      brkLimit (setrlimits rlim (calls.take n) rlimitData).rlimMax := by
  have hle := setrlimits_le calls hcalls hstart le_rfl
  refine ⟨hle.1, fun m enough brk hgrows hpages =>
    (sysBrk_limit m _ enough brk hgrows hpages).trans hle.1, fun n => ?_⟩
  have hsplit : setrlimits rlim calls =
      setrlimits (setrlimits rlim (calls.take n)) (calls.drop n) := by
    unfold setrlimits
    rw [← foldl_append, take_append_drop]
  rw [hsplit]
  have htake := setrlimits_le (calls.take n) (fun c hc => hcalls c (mem_of_mem_take hc)) hstart
    le_rfl
  exact (setrlimits_le _ (fun c hc => hcalls c (mem_of_mem_drop hc)) htake.1 htake.2).2

theorem limits_ok_lowered :
    let rlim : ℕ → Rlimit := fun _ => ⟨0x7FFFFFFF, 0x7FFFFFFF⟩
    let calls : List (ℕ × Rlimit) := [(2, ⟨4096, 8192⟩)]
    brkLimit (setrlimits rlim calls rlimitData).rlimCur ≤ brkLimit (rlim rlimitData).rlimMax ∧
    (∀ m enough brk, m.brk < sysBrk m (setrlimits rlim calls) enough brk →
      pageAlign m.brk ≠ pageAlign (sysBrk m (setrlimits rlim calls) enough brk) →
      (sysBrk m (setrlimits rlim calls) enough brk - m.endCode).toNat ≤
        brkLimit (rlim rlimitData).rlimMax) ∧
    ∀ n, brkLimit (setrlimits rlim calls rlimitData).rlimMax ≤
      brkLimit (setrlimits rlim (calls.take n) rlimitData).rlimMax :=
  limits_ok _ _ le_rfl (by simp [CallOk, BitVec.msb_eq_decide])

/-- With a hard limit of 4096 bytes the limit is set to -1, which is no limit. -/
theorem negative_limit :
    let rlim : ℕ → Rlimit := fun _ => ⟨4096, 4096⟩
    ¬brkLimit (setrlimits rlim [(2, ⟨-1, 4096⟩)] rlimitData).rlimCur ≤
      brkLimit (rlim rlimitData).rlimMax := by
  decide

end LinuxKernel.Credentials
