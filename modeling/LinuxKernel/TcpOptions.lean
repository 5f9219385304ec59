import LinuxKernel.TcpWindow

/-!
# The options of a TCP header

The loop of `tcp_options` takes two bytes in every turn, also for the options of one byte, and
leaves the function at the end of the list and at an option without a value.
-/

namespace LinuxKernel.Tcp
open List

def tcpoptEol : UInt8 := 0
def tcpoptNop : UInt8 := 1
def tcpoptMss : UInt8 := 2

/-- What `tcp_options` keeps while it goes over the options; `reads` are the places, from the
end of the fixed header on, that it has read. -/
structure Parse where
  mtu : ℕ
  mssSeen : Bool
  reads : List ℕ

def readShort (mem : ℕ → UInt8) (ptr : ℕ) : ℕ := 256 * (mem ptr).toNat + (mem (ptr + 1)).toNat

def Parse.readOption (p : Parse) (ptr : ℕ) : Parse := { p with reads := p.reads ++ [ptr, ptr + 1] }

def Parse.option (p : Parse) (syn : Bool) (mem : ℕ → UInt8) (ptr : ℕ) : Parse :=
  if mem ptr = tcpoptMss ∧ mem (ptr + 1) = 4 ∧ syn then
    { mtu := min p.mtu (readShort mem (ptr + 2))
      mssSeen := true
      reads := p.reads ++ [ptr + 2, ptr + 3] }
  else p

/-- The loop of `tcp_options`, with whether it leaves the function. -/
def optionsLoop (syn : Bool) (mem : ℕ → UInt8) : ℕ → ℕ → ℤ → Parse → Option (Parse × Bool)
  | 0, _, _, _ => none
  | n + 1, ptr, length, p =>
    if length ≤ 0 then some (p, false)
    else
      let p := p.readOption ptr
      let opsize := (mem (ptr + 1)).toNat
      if mem ptr = tcpoptEol then some (p, true)
      -- An option of one byte, of which two are passed over.
      else if mem ptr = tcpoptNop then optionsLoop syn mem n (ptr + 2) (length - 2) p
      else if opsize ≤ 2 then some (p, true)
      else optionsLoop syn mem n (ptr + opsize) (length - opsize) (p.option syn mem ptr)

/-- `tcp_options` for a header with `length` bytes of options, with the places it reads. -/
def Sock.tcpOptions (sk : Sock) (syn : Bool) (mem : ℕ → UInt8) (length : ℕ) (fuel : ℕ) :
    Option (Sock × List ℕ) :=
  match optionsLoop syn mem fuel 0 length ⟨sk.mtu, false, []⟩ with
  | none => none
  | some (p, true) => some ({ sk with mtu := p.mtu }, p.reads)
  | some (p, false) =>
    let mtu := if syn ∧ p.mssSeen = false then min p.mtu 536 else p.mtu
    some ({ sk with mtu := mtu, mss := min sk.maxWindow mtu }, p.reads)

/-! ### Options that are well formed -/

inductive TcpOption where
  | nop
  | opt (kind : UInt8) (body : List UInt8)

def TcpOption.WellFormed : TcpOption → Prop
  | .nop => True
  | .opt kind body => kind ≠ tcpoptEol ∧ kind ≠ tcpoptNop ∧ body.length + 2 < 256

def TcpOption.bytes : TcpOption → List UInt8
  | .nop => [tcpoptNop]
  | .opt kind body => kind :: UInt8.ofNat (body.length + 2) :: body

/-- The option bytes: the options, and where there is an end of the list, it with `pad` bytes
of padding. -/
def optionBytes (opts : List TcpOption) (eol : Option ℕ) : List UInt8 :=
  opts.flatMap TcpOption.bytes ++
    match eol with
    | none => []
    | some pad => List.replicate (pad + 1) tcpoptEol

def TcpOption.mss : TcpOption → Option ℕ
  | .opt kind [a, b] => if kind = tcpoptMss then some (256 * a.toNat + b.toNat) else none
  | _ => none

def mssValues (opts : List TcpOption) : List ℕ := opts.filterMap TcpOption.mss

def AsksFor (values : List ℕ) (mtu mtu' : ℕ) : Prop :=
  (values = [] ∧ mtu' = min mtu 536) ∨
    (∃ v ∈ values.head?, mtu' = min mtu v) ∨ (∃ v ∈ values.getLast?, mtu' = min mtu v)

/-- `tcp_options` does with these options of a SYN what it should, whatever the socket and the
memory behind them. -/
def OptionsRight (opts : List TcpOption) (eol : Option ℕ) : Prop :=
  ∀ (sk : Sock) (mem : ℕ → UInt8),
    (∀ i b, (optionBytes opts eol)[i]? = some b → mem i = b) →
    ∃ fuel sk' reads,
      sk.tcpOptions true mem (optionBytes opts eol).length fuel = some (sk', reads) ∧
      (∀ i ∈ reads, i < (optionBytes opts eol).length) ∧
      AsksFor (mssValues opts) sk.mtu sk'.mtu ∧
      sk' = { sk with mtu := sk'.mtu, mss := min sk.maxWindow sk'.mtu }

/-- The options are read in their places to the end: NOPs come in pairs, every other option has
a value, and only a last NOP hides an end of the list. -/
inductive InPlace : List TcpOption → Option ℕ → Prop
  | done : InPlace [] none
  | nopEol : InPlace [.nop] (some 0)
  | nops {opts : List TcpOption} {eol : Option ℕ} : InPlace opts eol →
      InPlace (.nop :: .nop :: opts) eol
  | opt {kind : UInt8} {body : List UInt8} {opts : List TcpOption} {eol : Option ℕ} :
      body ≠ [] → InPlace opts eol → InPlace (.opt kind body :: opts) eol

/-- The options are read in their places up to one that leaves the function, or a last NOP. -/
inductive Leaves : List TcpOption → Option ℕ → Prop
  | eol {pad : ℕ} : Leaves [] (some pad)
  | nop : Leaves [.nop] none
  | nopEol {pad : ℕ} : Leaves [.nop] (some (pad + 1))
  | empty {kind : UInt8} {opts : List TcpOption} {eol : Option ℕ} :
      Leaves (.opt kind [] :: opts) eol
  | nops {opts : List TcpOption} {eol : Option ℕ} : Leaves opts eol →
      Leaves (.nop :: .nop :: opts) eol
  | opt {kind : UInt8} {body : List UInt8} {opts : List TcpOption} {eol : Option ℕ} :
      body ≠ [] → Leaves opts eol → Leaves (.opt kind body :: opts) eol

inductive Swallows : List TcpOption → Prop
  | here {kind : UInt8} {body : List UInt8} {opts : List TcpOption} :
      Swallows (.nop :: .opt kind body :: opts)
  | nops {opts : List TcpOption} : Swallows opts → Swallows (.nop :: .nop :: opts)
  | opt {kind : UInt8} {body : List UInt8} {opts : List TcpOption} :
      Swallows opts → Swallows (.opt kind body :: opts)

theorem inPlace_or (opts : List TcpOption) (eol : Option ℕ) :
    InPlace opts eol ∨ Leaves opts eol ∨ Swallows opts := by
  match opts, eol with
  | [], none => exact .inl .done
  | [], some pad => exact .inr (.inl .eol)
  | [.nop], none => exact .inr (.inl .nop)
  | [.nop], some 0 => exact .inl .nopEol
  | [.nop], some (pad + 1) => exact .inr (.inl .nopEol)
  | .nop :: .nop :: opts, eol =>
    rcases inPlace_or opts eol with h | h | h
    · exact .inl (.nops h)
    · exact .inr (.inl (.nops h))
    · exact .inr (.inr (.nops h))
  | .nop :: .opt kind body :: opts, eol => exact .inr (.inr .here)
  | .opt kind body :: opts, eol =>
    by_cases hbody : body = []
    · rw [hbody]
      exact .inr (.inl .empty)
    · rcases inPlace_or opts eol with h | h | h
      · exact .inl (.opt hbody h)
      · exact .inr (.inl (.opt hbody h))
      · exact .inr (.inr (.opt h))

section Turns

variable {syn : Bool} {mem : ℕ → UInt8} {n ptr : ℕ} {length : ℤ} {p : Parse}

theorem optionsLoop_end (hlen : length ≤ 0) :
    optionsLoop syn mem (n + 1) ptr length p = some (p, false) := by
  rw [optionsLoop, if_pos hlen]

theorem optionsLoop_eol (hlen : 0 < length) (hkind : mem ptr = tcpoptEol) :
    optionsLoop syn mem (n + 1) ptr length p = some (p.readOption ptr, true) := by
  rw [optionsLoop, if_neg (by omega)]
  rw [if_pos hkind]

theorem optionsLoop_nop (hlen : 0 < length) (hkind : mem ptr = tcpoptNop) :
    optionsLoop syn mem (n + 1) ptr length p =
      optionsLoop syn mem n (ptr + 2) (length - 2) (p.readOption ptr) := by
  rw [optionsLoop, if_neg (by omega)]
  rw [if_neg (by rw [hkind]; decide), if_pos hkind]

section
variable (hlen : 0 < length) (heol : mem ptr ≠ tcpoptEol) (hnop : mem ptr ≠ tcpoptNop)
include hlen heol hnop

theorem optionsLoop_empty (hsize : (mem (ptr + 1)).toNat ≤ 2) :
    optionsLoop syn mem (n + 1) ptr length p = some (p.readOption ptr, true) := by
  rw [optionsLoop, if_neg (by omega)]
  rw [if_neg heol, if_neg hnop, if_pos hsize]

theorem optionsLoop_opt (hsize : 2 < (mem (ptr + 1)).toNat) :
    optionsLoop syn mem (n + 1) ptr length p =
      optionsLoop syn mem n (ptr + (mem (ptr + 1)).toNat) (length - (mem (ptr + 1)).toNat)
        ((p.readOption ptr).option syn mem ptr) := by
  rw [optionsLoop, if_neg (by omega)]
  rw [if_neg heol, if_neg hnop, if_neg (by omega)]

end

theorem optionsLoop_ends (syn : Bool) (mem : ℕ → UInt8) (ptr : ℕ) (p : Parse)
    (hlen : length ≤ n) :
    ∃ result, optionsLoop syn mem (n + 1) ptr length p = some result := by
  induction n generalizing ptr length p with
  | zero => exact ⟨_, optionsLoop_end hlen⟩
  | succ n ih =>
    by_cases hend : length ≤ 0
    · exact ⟨_, optionsLoop_end hend⟩
    have hpos : 0 < length := by omega
    by_cases heol : mem ptr = tcpoptEol
    · exact ⟨_, optionsLoop_eol hpos heol⟩
    by_cases hnop : mem ptr = tcpoptNop
    · rw [optionsLoop_nop hpos hnop]
      exact ih _ _ (by push_cast at hlen; omega)
    by_cases hsize : (mem (ptr + 1)).toNat ≤ 2
    · exact ⟨_, optionsLoop_empty hpos heol hnop hsize⟩
    · rw [optionsLoop_opt hpos heol hnop (by omega)]
      exact ih _ _ (by push_cast at hlen; omega)

end Turns

/-! ### Options in their places -/

def HasBytes (mem : ℕ → UInt8) (ptr : ℕ) (l : List UInt8) : Prop :=
  ∀ i b, l[i]? = some b → mem (ptr + i) = b

section Places

variable {mem : ℕ → UInt8} {n ptr : ℕ} {p p' : Parse} {leaves : Bool} {opts : List TcpOption}
  {eol : Option ℕ} {kind : UInt8} {body : List UInt8} {l l' : List UInt8} {a : UInt8}

theorem HasBytes.head (h : HasBytes mem ptr (a :: l)) : mem ptr = a := h 0 a rfl

theorem HasBytes.behind (h : HasBytes mem ptr (l ++ l')) : HasBytes mem (ptr + l.length) l' := by
  intro i b hb
  rw [Nat.add_assoc]
  apply h
  rw [List.getElem?_append_right (Nat.le_add_right ..), Nat.add_sub_cancel_left]
  exact hb

theorem optionBytes_cons (o : TcpOption) (opts : List TcpOption) (eol : Option ℕ) :
    optionBytes (o :: opts) eol = o.bytes ++ optionBytes opts eol := by
  unfold optionBytes
  rw [flatMap_cons, append_assoc]

section
variable (hwf : (TcpOption.opt kind body).WellFormed)
  (h : HasBytes mem ptr (optionBytes (.opt kind body :: opts) eol))
include hwf h

theorem size_of_opt :
    mem ptr = kind ∧ (mem (ptr + 1)).toNat = body.length + 2 ∧
      HasBytes mem (ptr + (body.length + 2)) (optionBytes opts eol) := by
  have hlen : (body.length + 2) % 256 = body.length + 2 := Nat.mod_eq_of_lt hwf.2.2
  rw [optionBytes_cons] at h
  refine ⟨h.head, ?_, ?_⟩
  · have hsize : mem (ptr + 1) = UInt8.ofNat (body.length + 2) := h 1 _ rfl
    rw [hsize, UInt8.toNat_ofNat']
    exact hlen
  · exact h.behind

omit hwf h in
theorem mss_of_not (h : ¬(kind = tcpoptMss ∧ body.length = 2)) :
    (TcpOption.opt kind body).mss = none := by
  unfold TcpOption.mss
  split
  · next kind' a b heq =>
    obtain ⟨rfl, rfl⟩ := TcpOption.opt.inj heq
    rw [if_neg fun hkind => h ⟨hkind, rfl⟩]
  · rfl

theorem option_spec (q : Parse) :
    (q.option true mem ptr).mtu = (TcpOption.opt kind body).mss.toList.foldl min q.mtu ∧
      (q.option true mem ptr).mssSeen = (q.mssSeen || (TcpOption.opt kind body).mss.isSome) ∧
      ∀ i ∈ (q.option true mem ptr).reads, i ∈ q.reads ∨ ptr ≤ i ∧ i < ptr + (body.length + 2) := by
  obtain ⟨hkind, hsize, _⟩ := size_of_opt hwf h
  by_cases hmss : kind = tcpoptMss ∧ body.length = 2
  · obtain ⟨a, b, rfl⟩ := length_eq_two.mp hmss.2
    have hfour : mem (ptr + 1) = 4 := UInt8.toNat_inj.mp hsize
    have hvalue : (TcpOption.opt kind [a, b]).mss = some (readShort mem (ptr + 2)) := by
      have ha : mem (ptr + 2) = a := h 2 a rfl
      have hb : mem (ptr + 2 + 1) = b := h 3 b rfl
      unfold TcpOption.mss readShort
      dsimp only
      rw [if_pos hmss.1, ha, hb]
    unfold Parse.option
    rw [if_pos ⟨hkind.trans hmss.1, hfour, rfl⟩, hvalue]
    refine ⟨rfl, (Bool.or_true _).symm, fun i hi => ?_⟩
    rcases mem_append.mp hi with hold | hnew
    · exact .inl hold
    · right
      simp only [mem_cons, not_mem_nil, or_false, length_cons, length_nil] at hnew ⊢
      omega
  · have hnot : ¬(mem ptr = tcpoptMss ∧ mem (ptr + 1) = 4 ∧ true = true) := by
      rintro ⟨hk, hfour, _⟩
      rw [hfour] at hsize
      have htwo : body.length + 2 = 4 := hsize.symm
      exact hmss ⟨hkind.symm.trans hk, by omega⟩
    unfold Parse.option
    rw [if_neg hnot, mss_of_not hmss]
    exact ⟨rfl, (Bool.or_false _).symm, fun i hi => .inl hi⟩

end

theorem mssValues_cons (o : TcpOption) (opts : List TcpOption) :
    mssValues (o :: opts) = o.mss.toList ++ mssValues opts := by
  unfold mssValues
  rw [filterMap_cons]
  cases o.mss <;> rfl

theorem mem_readOption {i : ℕ} (hi : i ∈ (p.readOption ptr).reads) :
    i ∈ p.reads ∨ ptr ≤ i ∧ i < ptr + 2 := by
  rcases mem_append.mp hi with hold | hnew
  · exact .inl hold
  · right
    simp only [mem_cons, not_mem_nil, or_false] at hnew
    omega

theorem optionsLoop_fuel (hrun : optionsLoop true mem n ptr l.length p = some (p', leaves)) :
    ∃ k, n = k + 1 := by
  cases n with
  | zero => exact absurd hrun (by simp [optionsLoop])
  | succ n => exact ⟨n, rfl⟩

theorem length_nops (opts : List TcpOption) (eol : Option ℕ) :
    (optionBytes (.nop :: .nop :: opts) eol).length = 2 + (optionBytes opts eol).length := by
  rw [optionBytes_cons, optionBytes_cons, ← append_assoc, length_append]
  rfl

theorem length_opt (kind : UInt8) (body : List UInt8) (opts : List TcpOption) (eol : Option ℕ) :
    (optionBytes (.opt kind body :: opts) eol).length =
      body.length + 2 + (optionBytes opts eol).length := by
  rw [optionBytes_cons, length_append]
  rfl

theorem optionsLoop_nops (hmem : HasBytes mem ptr (optionBytes (.nop :: .nop :: opts) eol)) :
    HasBytes mem (ptr + 2) (optionBytes opts eol) ∧
      optionsLoop true mem (n + 1) ptr (optionBytes (.nop :: .nop :: opts) eol).length p =
        optionsLoop true mem n (ptr + 2) (optionBytes opts eol).length (p.readOption ptr) := by
  have hlen : ((optionBytes (.nop :: .nop :: opts) eol).length : ℤ) - 2 =
      ((optionBytes opts eol).length : ℤ) := by
    rw [length_nops]
    push_cast
    ring
  have hpos : 0 < ((optionBytes (.nop :: .nop :: opts) eol).length : ℤ) := by
    omega
  rw [optionBytes_cons, optionBytes_cons, ← append_assoc] at hmem
  refine ⟨hmem.behind, ?_⟩
  rw [optionsLoop_nop hpos hmem.head, hlen]

theorem optionsLoop_body (hbody : body ≠ []) (hwf : (TcpOption.opt kind body).WellFormed)
    (hmem : HasBytes mem ptr (optionBytes (.opt kind body :: opts) eol)) :
    HasBytes mem (ptr + (body.length + 2)) (optionBytes opts eol) ∧
      optionsLoop true mem (n + 1) ptr (optionBytes (.opt kind body :: opts) eol).length p =
        optionsLoop true mem n (ptr + (body.length + 2)) (optionBytes opts eol).length
          ((p.readOption ptr).option true mem ptr) := by
  obtain ⟨hptr, hsize, hbehind⟩ := size_of_opt hwf hmem
  have hpos : 0 < body.length := length_pos_iff.mpr hbody
  have hrest : ((body.length + 2 + (optionBytes opts eol).length : ℕ) : ℤ) -
      ((body.length + 2 : ℕ) : ℤ) = ((optionBytes opts eol).length : ℤ) := by
    push_cast
    ring
  refine ⟨hbehind, ?_⟩
  rw [length_opt, optionsLoop_opt (by omega) (by rw [hptr]; exact hwf.1)
    (by rw [hptr]; exact hwf.2.1) (by omega), hsize, hrest]

theorem optionsLoop_inPlace (h : InPlace opts eol) (hwf : ∀ o ∈ opts, o.WellFormed)
    (hmem : HasBytes mem ptr (optionBytes opts eol))
    (hrun : optionsLoop true mem n ptr (optionBytes opts eol).length p = some (p', leaves)) :
    leaves = false ∧ p'.mtu = (mssValues opts).foldl min p.mtu ∧
      p'.mssSeen = (p.mssSeen || !(mssValues opts).isEmpty) ∧
      ∀ i ∈ p'.reads, i ∈ p.reads ∨ ptr ≤ i ∧ i < ptr + (optionBytes opts eol).length := by
  induction h generalizing n ptr p with
  | done =>
    obtain ⟨n, rfl⟩ := optionsLoop_fuel hrun
    obtain ⟨rfl, rfl⟩ := Prod.mk.inj (Option.some.inj hrun)
    exact ⟨rfl, rfl, (Bool.or_false _).symm, fun i hi => .inl hi⟩
  | nopEol =>
    obtain ⟨n, rfl⟩ := optionsLoop_fuel hrun
    have hbytes : HasBytes mem ptr [tcpoptNop, tcpoptEol] := hmem
    rw [optionsLoop_nop (by decide) hbytes.head] at hrun
    obtain ⟨n, rfl⟩ := optionsLoop_fuel (l := []) hrun
    obtain ⟨rfl, rfl⟩ := Prod.mk.inj (Option.some.inj hrun)
    exact ⟨rfl, rfl, (Bool.or_false _).symm, fun i hi => mem_readOption hi⟩
  | nops h ih =>
    obtain ⟨n, rfl⟩ := optionsLoop_fuel hrun
    obtain ⟨hbehind, hturn⟩ := optionsLoop_nops hmem
    rw [hturn] at hrun
    obtain ⟨hleaves, hmtu, hseen, hreads⟩ :=
      ih (fun o ho => hwf o (mem_cons_of_mem _ (mem_cons_of_mem _ ho))) hbehind hrun
    refine ⟨hleaves, hmtu, hseen, fun i hi => ?_⟩
    rw [length_nops]
    rcases hreads i hi with hold | hnew
    · rcases mem_readOption hold with hold | hnew
      · exact .inl hold
      · right
        omega
    · right
      omega
  | opt hbody h ih =>
    obtain ⟨n, rfl⟩ := optionsLoop_fuel hrun
    have hkind := hwf _ mem_cons_self
    obtain ⟨hbehind, hturn⟩ := optionsLoop_body hbody hkind hmem
    rw [hturn] at hrun
    obtain ⟨hmtu1, hseen1, hreads1⟩ := option_spec hkind hmem (p.readOption ptr)
    obtain ⟨hleaves, hmtu, hseen, hreads⟩ :=
      ih (fun o ho => hwf o (mem_cons_of_mem _ ho)) hbehind hrun
    refine ⟨hleaves, ?_, ?_, fun i hi => ?_⟩
    · rw [hmtu, hmtu1, mssValues_cons, foldl_append]
      rfl
    · rw [hseen, hseen1, mssValues_cons, Bool.or_assoc]
      cases (TcpOption.opt _ _).mss <;> rfl
    · rw [length_opt]
      rcases hreads i hi with hold | hnew
      · rcases hreads1 i hold with hold | hnew
        · rcases mem_readOption hold with hold | hnew
          · exact .inl hold
          · right
            omega
        · right
          omega
      · right
        omega

theorem optionsLoop_leaves (h : Leaves opts eol) (hwf : ∀ o ∈ opts, o.WellFormed)
    (hmem : HasBytes mem ptr (optionBytes opts eol))
    (hrun : optionsLoop true mem n ptr (optionBytes opts eol).length p = some (p', leaves)) :
    leaves = true ∨ ∃ i ∈ p'.reads, ptr + (optionBytes opts eol).length ≤ i := by
  induction h generalizing n ptr p with
  | @eol pad =>
    obtain ⟨n, rfl⟩ := optionsLoop_fuel hrun
    have hbytes : HasBytes mem ptr (tcpoptEol :: List.replicate pad tcpoptEol) := hmem
    have hpos : 0 < ((optionBytes [] (some pad)).length : ℤ) := by
      simp [optionBytes]
    rw [optionsLoop_eol hpos hbytes.head] at hrun
    exact .inl (Prod.mk.inj (Option.some.inj hrun)).2.symm
  | nop =>
    obtain ⟨n, rfl⟩ := optionsLoop_fuel hrun
    have hbytes : HasBytes mem ptr [tcpoptNop] := hmem
    rw [optionsLoop_nop (by decide) hbytes.head] at hrun
    cases n with
    | zero => exact absurd hrun (by simp [optionsLoop])
    | succ n =>
      obtain ⟨rfl, _⟩ := Prod.mk.inj (Option.some.inj hrun)
      refine .inr ⟨ptr + 1, ?_, Nat.le_refl _⟩
      simp [Parse.readOption]
  | @nopEol pad =>
    obtain ⟨n, rfl⟩ := optionsLoop_fuel hrun
    have hbytes : HasBytes mem ptr ([tcpoptNop, tcpoptEol] ++
        tcpoptEol :: List.replicate pad tcpoptEol) := hmem
    have hlen : ((optionBytes [.nop] (some (pad + 1))).length : ℤ) = pad + 3 := by
      simp [optionBytes, TcpOption.bytes]
      ring
    rw [hlen, optionsLoop_nop (by omega) hbytes.head] at hrun
    cases n with
    | zero => exact absurd hrun (by simp [optionsLoop])
    | succ n =>
      have heol : mem (ptr + 2) = tcpoptEol := hbytes.behind.head
      have hpos : (0 : ℤ) < pad + 3 - 2 := by omega
      rw [optionsLoop_eol hpos heol] at hrun
      exact .inl (Prod.mk.inj (Option.some.inj hrun)).2.symm
  | @empty kind opts eol =>
    obtain ⟨n, rfl⟩ := optionsLoop_fuel hrun
    have hkind := hwf _ mem_cons_self
    obtain ⟨hptr, hsize, _⟩ := size_of_opt hkind hmem
    have hpos : 0 < ((optionBytes (.opt kind [] :: opts) eol).length : ℤ) := by
      rw [length_opt]
      omega
    rw [optionsLoop_empty hpos (by rw [hptr]; exact hkind.1) (by rw [hptr]; exact hkind.2.1)
      (Nat.le_of_eq hsize)] at hrun
    exact .inl (Prod.mk.inj (Option.some.inj hrun)).2.symm
  | nops h ih =>
    obtain ⟨n, rfl⟩ := optionsLoop_fuel hrun
    obtain ⟨hbehind, hturn⟩ := optionsLoop_nops hmem
    rw [hturn] at hrun
    rw [length_nops, ← Nat.add_assoc]
    exact ih (fun o ho => hwf o (mem_cons_of_mem _ (mem_cons_of_mem _ ho))) hbehind hrun
  | opt hbody h ih =>
    obtain ⟨n, rfl⟩ := optionsLoop_fuel hrun
    obtain ⟨hbehind, hturn⟩ := optionsLoop_body hbody (hwf _ mem_cons_self) hmem
    rw [hturn] at hrun
    rw [length_opt, ← Nat.add_assoc]
    exact ih (fun o ho => hwf o (mem_cons_of_mem _ ho)) hbehind hrun

end Places

/-! ### Where the options are taken as they should be -/

def SmallestOutside (values : List ℕ) : Prop :=
  values = [] ∨ (∃ v ∈ values.head?, ∀ w ∈ values, v ≤ w) ∨
    (∃ v ∈ values.getLast?, ∀ w ∈ values, v ≤ w)

theorem foldl_min_le_start (values : List ℕ) (mtu : ℕ) : values.foldl min mtu ≤ mtu := by
  induction values generalizing mtu with
  | nil => exact Nat.le_refl mtu
  | cons v values ih => exact (ih _).trans (Nat.min_le_left ..)

theorem foldl_min_le (values : List ℕ) (mtu : ℕ) {v : ℕ} (hv : v ∈ values) :
    values.foldl min mtu ≤ v := by
  induction values generalizing mtu with
  | nil => exact absurd hv not_mem_nil
  | cons w values ih =>
    rcases mem_cons.mp hv with rfl | hv
    · exact (foldl_min_le_start values (min mtu v)).trans (Nat.min_le_right ..)
    · exact ih _ hv

theorem le_foldl_min (values : List ℕ) (mtu : ℕ) {v : ℕ} (hmtu : v ≤ mtu)
    (hv : ∀ w ∈ values, v ≤ w) : v ≤ values.foldl min mtu := by
  induction values generalizing mtu with
  | nil => exact hmtu
  | cons w values ih =>
    exact ih _ (Nat.le_min.mpr ⟨hmtu, hv w mem_cons_self⟩)
      fun u hu => hv u (mem_cons_of_mem _ hu)

theorem foldl_min_eq {values : List ℕ} {v : ℕ} (hv : v ∈ values) (hle : ∀ w ∈ values, v ≤ w)
    (mtu : ℕ) : values.foldl min mtu = min mtu v := by
  apply Nat.le_antisymm
  · exact Nat.le_min.mpr ⟨foldl_min_le_start .., foldl_min_le _ _ hv⟩
  · exact le_foldl_min _ _ (Nat.min_le_left ..) fun w hw => (Nat.min_le_right ..).trans (hle w hw)

theorem asksFor_foldl_iff {values : List ℕ} (hne : values ≠ []) :
    (∀ mtu, AsksFor values mtu (values.foldl min mtu)) ↔ SmallestOutside values := by
  constructor
  · intro h
    right
    -- a socket whose own size is beyond all of them
    obtain ⟨bound, hbound⟩ : ∃ bound, ∀ w ∈ values, w ≤ bound :=
      ⟨values.sum, fun w hw => single_le_sum (fun _ _ => Nat.zero_le _) w hw⟩
    have hsmallest : ∀ {v : ℕ}, v ∈ values → values.foldl min bound = min bound v →
        ∀ w ∈ values, v ≤ w := by
      intro v hv heq w hw
      rw [Nat.min_eq_right (hbound v hv)] at heq
      rw [← heq]
      exact foldl_min_le _ _ hw
    rcases h bound with ⟨hnil, _⟩ | ⟨v, hv, heq⟩ | ⟨v, hv, heq⟩
    · exact absurd hnil hne
    · exact .inl ⟨v, hv, hsmallest (mem_of_mem_head? hv) heq⟩
    · exact .inr ⟨v, hv, hsmallest (mem_of_getLast? hv) heq⟩
  · intro h mtu
    rcases h with hnil | ⟨v, hv, hle⟩ | ⟨v, hv, hle⟩
    · exact absurd hnil hne
    · exact .inr (.inl ⟨v, hv, foldl_min_eq (mem_of_mem_head? hv) hle mtu⟩)
    · exact .inr (.inr ⟨v, hv, foldl_min_eq (mem_of_getLast? hv) hle mtu⟩)

def optionMemory (opts : List TcpOption) (eol : Option ℕ) (i : ℕ) : UInt8 :=
  ((optionBytes opts eol)[i]?).getD 0

theorem optionMemory_eq {opts : List TcpOption} {eol : Option ℕ} {i : ℕ} {b : UInt8}
    (h : (optionBytes opts eol)[i]? = some b) : optionMemory opts eol i = b := by
  unfold optionMemory
  rw [h]
  rfl

theorem holds_zero {mem : ℕ → UInt8} {l : List UInt8} (h : ∀ i b, l[i]? = some b → mem i = b) :
    HasBytes mem 0 l := by
  intro i b hb
  rw [Nat.zero_add]
  exact h i b hb

section Right

variable {opts : List TcpOption} {eol : Option ℕ} {sk sk' : Sock} {mem : ℕ → UInt8}
  {fuel : ℕ} {reads : List ℕ}

theorem tcpOptions_inPlace (h : InPlace opts eol) (hwf : ∀ o ∈ opts, o.WellFormed)
    (hmem : ∀ i b, (optionBytes opts eol)[i]? = some b → mem i = b)
    (hrun : sk.tcpOptions true mem (optionBytes opts eol).length fuel = some (sk', reads)) :
    (∀ i ∈ reads, i < (optionBytes opts eol).length) ∧
      sk'.mtu = (if mssValues opts = [] then min sk.mtu 536
        else (mssValues opts).foldl min sk.mtu) ∧
      sk' = { sk with mtu := sk'.mtu, mss := min sk.maxWindow sk'.mtu } := by
  unfold Sock.tcpOptions at hrun
  cases hloop : optionsLoop true mem fuel 0 (optionBytes opts eol).length ⟨sk.mtu, false, []⟩ with
  | none =>
    rw [hloop] at hrun
    exact absurd hrun (by simp)
  | some result =>
    obtain ⟨p', leaves⟩ := result
    obtain ⟨rfl, hmtu, hseen, hreads⟩ := optionsLoop_inPlace h hwf (holds_zero hmem) hloop
    rw [hloop] at hrun
    obtain ⟨rfl, rfl⟩ := Prod.mk.inj (Option.some.inj hrun)
    refine ⟨fun i hi => ?_, ?_, rfl⟩
    · rcases hreads i hi with hold | hnew
      · exact absurd hold not_mem_nil
      · omega
    · rw [hseen, hmtu]
      by_cases hnil : mssValues opts = []
      · rw [hnil]
        rfl
      · have hmany : (mssValues opts).isEmpty = false := by simp [hnil]
        rw [hmany, if_neg (by simp), if_neg hnil]

theorem tcpOptions_leaves (h : Leaves opts eol) (hwf : ∀ o ∈ opts, o.WellFormed)
    (hmem : ∀ i b, (optionBytes opts eol)[i]? = some b → mem i = b)
    (hrun : sk.tcpOptions true mem (optionBytes opts eol).length fuel = some (sk', reads)) :
    sk'.mss = sk.mss ∨ ∃ i ∈ reads, (optionBytes opts eol).length ≤ i := by
  unfold Sock.tcpOptions at hrun
  cases hloop : optionsLoop true mem fuel 0 (optionBytes opts eol).length ⟨sk.mtu, false, []⟩ with
  | none =>
    rw [hloop] at hrun
    exact absurd hrun (by simp)
  | some result =>
    obtain ⟨p', leaves⟩ := result
    have hleaves := optionsLoop_leaves h hwf (holds_zero hmem) hloop
    rw [hloop] at hrun
    rw [Nat.zero_add] at hleaves
    cases leaves with
    | true =>
      obtain ⟨rfl, rfl⟩ := Prod.mk.inj (Option.some.inj hrun)
      exact .inl rfl
    | false =>
      obtain ⟨rfl, rfl⟩ := Prod.mk.inj (Option.some.inj hrun)
      exact .inr (hleaves.resolve_left Bool.noConfusion)

theorem tcpOptions_ends (sk : Sock) (mem : ℕ → UInt8) (length : ℕ) :
    ∃ sk' reads, sk.tcpOptions true mem length (length + 1) = some (sk', reads) := by
  obtain ⟨⟨p', leaves⟩, hloop⟩ :=
    optionsLoop_ends true mem 0 ⟨sk.mtu, false, []⟩ (Int.le_refl (length : ℤ))
  unfold Sock.tcpOptions
  rw [hloop]
  cases leaves <;> exact ⟨_, _, rfl⟩

end Right

/-- The options of a SYN are taken as they should be where they are read in their places; the
other way round, that is so unless a NOP takes the kind of the option behind it. -/
theorem tcpOptions_right_iff (opts : List TcpOption) (hwf : ∀ o ∈ opts, o.WellFormed)
    (eol : Option ℕ) :
    (InPlace opts eol ∧ SmallestOutside (mssValues opts) → OptionsRight opts eol) ∧
      (OptionsRight opts eol →
        InPlace opts eol ∧ SmallestOutside (mssValues opts) ∨ Swallows opts) := by
  constructor
  · rintro ⟨hplace, hvalues⟩ sk mem hmem
    obtain ⟨sk', reads, hrun⟩ := tcpOptions_ends sk mem (optionBytes opts eol).length
    obtain ⟨hreads, hmtu, hrest⟩ := tcpOptions_inPlace hplace hwf hmem hrun
    refine ⟨_, sk', reads, hrun, hreads, ?_, hrest⟩
    rw [hmtu]
    split_ifs with hnil
    · exact .inl ⟨hnil, rfl⟩
    · exact (asksFor_foldl_iff hnil).mpr hvalues sk.mtu
  · intro hright
    rcases inPlace_or opts eol with hplace | hleaves | hswallows
    · refine .inl ⟨hplace, ?_⟩
      by_cases hnil : mssValues opts = []
      · exact .inl hnil
      · rw [← asksFor_foldl_iff hnil]
        intro mtu
        obtain ⟨fuel, sk', reads, hrun, _, hasks, _⟩ :=
          hright { smallBuffer with mtu := mtu } (optionMemory opts eol) fun i b => optionMemory_eq
        obtain ⟨_, hmtu, _⟩ := tcpOptions_inPlace hplace hwf (fun i b => optionMemory_eq) hrun
        rw [hmtu, if_neg hnil] at hasks
        exact hasks
    · exfalso
      -- a socket whose `mss` is not what it should be at the end
      obtain ⟨fuel, sk', reads, hrun, hreads, _, hrest⟩ :=
        hright { smallBuffer with maxWindow := 0, mss := 1 } (optionMemory opts eol)
          fun i b => optionMemory_eq
      rcases tcpOptions_leaves hleaves hwf (fun i b => optionMemory_eq) hrun with hmss | hread
      · have hzero : sk'.mss = min 0 sk'.mtu := congrArg Sock.mss hrest
        rw [hmss, Nat.zero_min] at hzero
        exact absurd hzero Nat.one_ne_zero
      · obtain ⟨i, hi, hle⟩ := hread
        exact absurd (hreads i hi) (by omega)
    · exact .inr hswallows

theorem tcpOptions_right_mss :
    (InPlace [.opt 2 [2, 0], .nop, .nop] none ∧
        SmallestOutside (mssValues [.opt 2 [2, 0], .nop, .nop]) →
      OptionsRight [.opt 2 [2, 0], .nop, .nop] none) ∧
      (OptionsRight [.opt 2 [2, 0], .nop, .nop] none →
        InPlace [.opt 2 [2, 0], .nop, .nop] none ∧
          SmallestOutside (mssValues [.opt 2 [2, 0], .nop, .nop]) ∨
        Swallows [.opt 2 [2, 0], .nop, .nop]) := by
  apply tcpOptions_right_iff
  intro o ho
  simp only [mem_cons, not_mem_nil, or_false] at ho
  rcases ho with rfl | rfl | rfl
  · exact ⟨by decide, by decide, by decide⟩
  · trivial
  · trivial

/-- A maximum segment size of 512 and an end of the list, with three bytes of padding: the
function is left before `mss` is set. -/
theorem tcpOptions_eol_wrong :
    ¬∀ (opts : List TcpOption) (eol : Option ℕ), (∀ o ∈ opts, o.WellFormed) →
      (optionBytes opts eol).length ≤ 40 → 4 ∣ (optionBytes opts eol).length →
        OptionsRight opts eol := by
  intro h
  have hwf : ∀ o ∈ [TcpOption.opt 2 [2, 0]], o.WellFormed := by
    intro o ho
    obtain rfl := mem_singleton.mp ho
    exact ⟨by decide, by decide, by decide⟩
  obtain ⟨fuel, sk', reads, hrun, hreads, _, hrest⟩ :=
    h [.opt 2 [2, 0]] (some 3) hwf (by decide) (by decide)
      { smallBuffer with maxWindow := 0, mss := 1 } (optionMemory [.opt 2 [2, 0]] (some 3))
      fun i b => optionMemory_eq
  have hleaves : Leaves [.opt 2 [2, 0]] (some 3) := .opt (by simp) .eol
  rcases tcpOptions_leaves hleaves hwf (fun i b => optionMemory_eq) hrun with hmss | hread
  · have hzero : sk'.mss = min 0 sk'.mtu := congrArg Sock.mss hrest
    rw [hmss, Nat.zero_min] at hzero
    exact absurd hzero Nat.one_ne_zero
  · obtain ⟨i, hi, hle⟩ := hread
    exact absurd (hreads i hi) (by omega)

end LinuxKernel.Tcp
