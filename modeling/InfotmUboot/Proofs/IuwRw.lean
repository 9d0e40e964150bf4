import InfotmUboot.Proofs.Server
import InfotmUboot.Lib.Trace

/-!
# The transfers of a command

`iuw_process_rw` goes by pieces of `exstep` bytes: it hands what the host and the device exchange
through the packet buffer. With a page of the system area that is longer than the buffer, and with a
length that is read as a negative number, it does not do what the command says
(`iuw_process_rw_right_iff`).
-/

namespace InfotmUboot

open Lib

/-- A transfer to the host or from it. -/
inductive Host where
  | out (n : ℕ)
  | inn (n : ℕ)
  deriving DecidableEq, Repr

def Host.bytes : Host → ℕ
  | .out n => n
  | .inn n => n

def hostOf : Op × Reply → Option Host
  | (.recv n, _) => some (.inn n.toNat)
  | (.send data, _) => some (.out data.length)
  | _ => none

def hostLog (log : List (Op × Reply)) : List Host := log.filterMap hostOf

/-- The bytes an operation moves into the packet buffer or out of it. -/
def packBytes : Op × Reply → ℕ
  | (.recv n, _) => n.toNat
  | (.send data, _) => data.length
  | (.read _ _ n, _) => n.toNat
  | (.write _ _ data, _) => data.length
  | (.memRead _ n, _) => n
  | (.memWrite _ data, _) => data.length
  | (.hashData data, _) => data.length
  | (.hashValue, r) => r.data.length
  | (.aesData data, _) => data.length
  | _ => 0

theorem packBytes_host {x : Op × Reply} {g : Host} (hx : hostOf x = some g) :
    packBytes x = g.bytes := by
  obtain ⟨o, r⟩ := x
  cases o <;> cases hx <;> rfl

/-- A hand shake, whose packet may fail to go out. -/
inductive Shake : List Host → Prop
  | full : Shake [.out IUW_CMD_LEN, .inn IUW_CMD_LEN]
  | unsent : Shake [.out IUW_CMD_LEN]

section Command

variable (B : Board) (pack : Mem)

def rwIsMem : Prop := iuwCmdCmd pack = IUW_CMD_MMRD ∨ iuwCmdCmd pack = IUW_CMD_MMWR

def rwIsCrypt : Prop := iuwCmdCmd pack = IUW_CMD_ENC ∨ iuwCmdCmd pack = IUW_CMD_DEC

def rwIsHash : Prop := iuwCmdCmd pack = IUW_CMD_HASH

instance : Decidable (rwIsMem pack) := inferInstanceAs (Decidable (_ ∨ _))

instance : Decidable (rwIsCrypt pack) := inferInstanceAs (Decidable (_ ∨ _))

instance : Decidable (rwIsHash pack) := inferInstanceAs (Decidable (_ = _))

/-- The length of a command, which has 32 bits. -/
def rwLength : ℕ :=
  if rwIsMem pack ∨ rwIsCrypt pack ∨ rwIsHash pack then iuwCmdPara pack 1 else pack.get32 0xc

theorem rwLength_lt : rwLength pack < 2 ^ 32 := by
  unfold rwLength iuwCmdPara
  split_ifs
  · exact Mem.get32_lt _ _
  · exact Mem.get32_lt _ _

/-- What of the buffer is for a transfer. -/
def rwRoom : ℕ := if rwIsCrypt pack then IR_MAX_BUFFER >>> 1 else IR_MAX_BUFFER

/-- The transfers of a round: data from the host, data to it, or both. -/
inductive DataRound (n : ℕ) : List Host → Prop
  | read (h : optIsRead (iuwCmdCmd pack) = true) : DataRound n [.out n]
  | write (h : optIsWrite (iuwCmdCmd pack) = true) (hc : ¬rwIsCrypt pack) : DataRound n [.inn n]
  | crypt (h : rwIsCrypt pack) {s t : List Host} (hs : Shake s) (ht : Shake t) :
      DataRound n (.inn n :: (s ++ .out n :: t))

inductive DataRounds : List ℕ → List Host → Prop
  | nil : DataRounds [] []
  | cons {n : ℕ} {ns : List ℕ} {l ls : List Host} (h : DataRound pack n l) (hs : DataRounds ns ls) :
      DataRounds (n :: ns) (l ++ ls)

/-- What comes after the data: the value of the hash, and a hand shake but after a crypto
command. -/
inductive DataEnd : List Host → Prop
  | crypt (h : rwIsCrypt pack) : DataEnd []
  | plain (h : ¬rwIsCrypt pack) (hh : rwIsHash pack → iuwCmdHashType pack < 0) {s : List Host}
      (hs : Shake s) : DataEnd s
  | hash (h : rwIsHash pack) (hh : 0 ≤ iuwCmdHashType pack) {s t : List Host} (hs : Shake s) (n : ℕ)
      (ht : Shake t) : DataEnd (s ++ .out n :: t)

/-- The transfers of a command that succeeds, with pieces of these lengths: a key, a hand shake, the
data and the end. -/
def Exchange (ns : List ℕ) (l : List Host) : Prop :=
  ∃ key data stop, l = key ++ [.out IUW_CMD_LEN, .inn IUW_CMD_LEN] ++ data ++ stop ∧
    (key = [] ∨ rwIsCrypt pack ∧ key = [.inn IUW_AES_KEYLEN]) ∧
    DataRounds pack ns data ∧ DataEnd pack stop

/-- The command is turned down before any data: a device that cannot be assigned, no configuration
of the NAND flash, or a length that is not one of whole pages. -/
def RwRefused : Prop :=
  rwDevice pack ≠ DEV_NONE ∧ (Dev.ofId (rwDevice pack)).elim true (fun d => !d.entry.reset) = true ∨
    (Dev.ofId (rwDevice pack)).elim false Dev.isNand = true ∧
      B.nand.getConfig (if rwDevice pack = DEV_BND then .boot else .normal) = none ∨
    rwDevice pack = DEV_FND ∧ ¬fndSizeMatch B.nand (rwLength pack)

/-- The length is one of a signed number, and a page with its system bytes has room in the
buffer. -/
def RwFits : Prop :=
  RwRefused B pack ∨ rwLength pack < 2 ^ 31 ∧
    (rwDevice pack = DEV_FND → rwLength pack = 0 ∨ fndAlign B.nand ≤ IR_MAX_BUFFER)

end Command

/-- The hash engine knows no values of more than 32 bytes. -/
structure HashEngine {σ : Type} (h : σ → Op → Reply × σ) : Prop where
  len : ∀ s, (h s .hashLen).1.ret ≤ 32
  value : ∀ s, (h s .hashValue).1.data.length ≤ 32

section Did

/-- What a part of a run did: transfers with the host, and none that is longer than `lim`. -/
structure Did (lim : ℕ) (hs : List Host) (l : List (Op × Reply)) : Prop where
  within : ∀ x ∈ l, packBytes x ≤ lim
  host : hostLog l = hs

variable {lim : ℕ} {hs gs : List Host} {l l' : List (Op × Reply)}

theorem did_nil : Did lim [] [] := ⟨fun _ hx => absurd hx List.not_mem_nil, rfl⟩

theorem Did.append (h : Did lim hs l) (h' : Did lim gs l') : Did lim (hs ++ gs) (l ++ l') where
  within _ hx := (List.mem_append.1 hx).elim (h.within _) (h'.within _)
  host := by rw [hostLog, List.filterMap_append, ← h.host, ← h'.host, hostLog, hostLog]

theorem Did.silent (h : Did lim hs l) (h' : Did lim [] l') : Did lim hs (l ++ l') := by
  have happ := h.append h'
  rwa [List.append_nil] at happ

theorem did_op {o : Op} {r : Reply} (hb : packBytes (o, r) ≤ lim) :
    Did lim (hostOf (o, r)).toList [(o, r)] where
  within _ hx := List.mem_singleton.1 hx ▸ hb
  host := by
    rw [hostLog, List.filterMap_cons, List.filterMap_nil]
    rcases hostOf (o, r) with _ | _ <;> rfl

end Did

section Parts

variable {σ : Type} {h : σ → Op → Reply × σ} {lim : ℕ}

theorem ptdevRead_did {len : ℕ} (hlen : len ≤ lim) (pack : Mem) :
    Prog.Traces h (ptdevRead pack len) fun _ l => Did lim [.inn len] l := fun s =>
  did_op (o := .recv len) (r := (h s (.recv len)).1) hlen

theorem ptdevWrite_did {len : ℕ} (hlen : len ≤ lim) (pack : Mem) (a : ℕ) :
    Prog.Traces h (ptdevWrite pack a len) fun _ l => Did lim [.out len] l := fun s => by
  have hop : Did lim (hostOf (.send (pack.load a len), (h s (.send (pack.load a len))).1)).toList
      [(.send (pack.load a len), (h s (.send (pack.load a len))).1)] :=
    did_op (by rw [packBytes, Mem.length_load]; exact hlen)
  rw [hostOf, Mem.length_load] at hop
  exact hop

theorem sendCmd_did (hlim : IUW_CMD_LEN ≤ lim) (cmd para0 para1 : ℕ) (pack : Mem) :
    Prog.Traces h (iuwSendCmd cmd para0 para1 pack) fun _ l => Did lim [.out IUW_CMD_LEN] l :=
  (ptdevWrite_did hlim _ 0).bind fun _ _ hl => Prog.traces_pure (hl.silent did_nil)

theorem shakeHand_did (hlim : IUW_CMD_LEN ≤ lim) (subcmd para : ℕ) (pack : Mem) :
    Prog.Traces h (iuwShakeHand subcmd para pack) fun r l => ∃ hs, Shake hs ∧ Did lim hs l ∧
      (r.1 = 0 → hs = [.out IUW_CMD_LEN, .inn IUW_CMD_LEN]) := by
  refine (sendCmd_did hlim _ _ _ pack).bind fun r l hl => ?_
  obtain ⟨ret, pack⟩ := r
  refine Prog.Traces.ite (fun _ => Prog.traces_pure ?_) fun _ => ?_
  · exact ⟨_, .unsent, hl.silent did_nil, fun h0 => absurd h0 (by simp)⟩
  refine (ptdevRead_did hlim pack).bind fun r l' hl' => ?_
  have hboth := hl.append hl'
  obtain ⟨ret, pack⟩ := r
  refine Prog.Traces.ite (fun _ => Prog.traces_pure ?_) fun _ => Prog.traces_pure ?_
  · exact ⟨_, .full, by rw [List.append_nil]; exact hboth, fun _ => rfl⟩
  · exact ⟨_, .full, by rw [List.append_nil]; exact hboth, fun _ => rfl⟩

/-- A program that asks the device, the memory or an engine, and not the host. -/
def Quiet (h : σ → Op → Reply × σ) (lim : ℕ) {α : Type} (p : Strat α) : Prop :=
  Prog.Traces h p fun _ l => Did lim [] l

theorem quiet_pure {α : Type} (a : α) : Quiet h lim (pure a : Strat α) := Prog.traces_pure did_nil

theorem quiet_op {o : Op} (ho : ∀ r, hostOf (o, r) = none)
    (hb : ∀ s, packBytes (o, (h s o).1) ≤ lim) : Quiet h lim (Prog.op o) := fun s => by
  have hop := did_op (hb s)
  rw [ho] at hop
  exact hop

theorem Quiet.bind {α β : Type} {p : Strat α} {f : α → Strat β} (hp : Quiet h lim p)
    (hf : ∀ a, Quiet h lim (f a)) : Quiet h lim (p >>= f) :=
  Prog.Traces.bind hp fun a _ hl => (hf a).mono fun _ _ hl' => hl.append hl'

theorem Quiet.ite {α : Type} {c : Prop} [Decidable c] {p q : Strat α} (hp : c → Quiet h lim p)
    (hq : ¬c → Quiet h lim q) : Quiet h lim (if c then p else q) :=
  Prog.Traces.ite hp hq

theorem vsIsbad_quiet (cur : Option Dev) (offs : ℕ) : Quiet h lim (vsIsbad cur offs) := by
  unfold vsIsbad
  rcases cur with _ | d
  · exact quiet_pure _
  · exact Quiet.ite (fun _ => (quiet_op (fun _ => rfl) fun _ => Nat.zero_le _).bind fun _ =>
      quiet_pure _)
      fun _ => quiet_pure _

theorem skipBad_quiet (cur : Option Dev) (skip : ℕ) : ∀ (n offs : ℕ) (leeway : ℤ),
    Quiet h lim (skipBad cur skip n offs leeway)
  | 0, offs, _ => (vsIsbad_quiet cur offs).bind fun _ => quiet_pure _
  | n + 1, offs, _ => (vsIsbad_quiet cur offs).bind fun _ =>
      Quiet.ite (fun _ => quiet_pure _) fun _ => Quiet.ite
        (fun _ => skipBad_quiet cur skip n _ _) fun _ => quiet_pure _

theorem vsRead_quiet (cur : Option Dev) (offs : ℕ) {len : ℕ} (hlen : len ≤ lim) :
    Quiet h lim (vsRead cur offs len) := by
  unfold vsRead
  rcases cur with _ | d
  · exact quiet_pure _
  · exact Quiet.ite (fun _ => quiet_pure _) fun _ => Quiet.ite (fun _ => quiet_pure _) fun _ =>
      (quiet_op (fun _ => rfl) fun _ => hlen).bind fun _ => quiet_pure _

theorem vsWrite_quiet (cur : Option Dev) (offs : ℕ) {data : List UInt8} (hlen : data.length ≤ lim) :
    Quiet h lim (vsWrite cur offs data) := by
  unfold vsWrite
  refine Quiet.ite (fun _ => quiet_pure _) fun _ => ?_
  rcases cur with _ | d
  · exact quiet_pure _
  · exact Quiet.ite (fun _ => (quiet_op (fun _ => rfl) fun _ => hlen).bind fun _ => quiet_pure _)
      fun _ => quiet_pure _

theorem iuwLocalRw_quiet (cur : Option Dev) (pack : Mem) (offs opt : ℕ) {len : ℕ} (hlen :
    len ≤ lim) :
    Quiet h lim (iuwLocalRw cur pack offs len opt) := by
  have hload (a : ℕ) : (pack.load a len).length ≤ lim := by
    rw [Mem.length_load]
    exact hlen
  unfold iuwLocalRw
  refine Quiet.ite (fun _ => ?_) fun _ => ?_
  · exact (vsRead_quiet cur offs hlen).bind fun _ => quiet_pure _
  refine Quiet.ite (fun _ => ?_) fun _ => ?_
  · exact (vsWrite_quiet cur offs (hload 0)).bind fun _ => quiet_pure _
  refine Quiet.ite (fun _ => ?_) fun _ => ?_
  · exact (quiet_op (fun _ => rfl) fun _ => hlen).bind fun _ => quiet_pure _
  refine Quiet.ite (fun _ => ?_) fun _ => ?_
  · exact (quiet_op (fun _ => rfl) fun _ => hload 0).bind fun _ => quiet_pure _
  refine Quiet.ite (fun _ => ?_) fun _ => ?_
  · exact (quiet_op (fun _ => rfl) fun _ => hload 0).bind fun _ => quiet_pure _
  refine Quiet.ite (fun _ => ?_) fun _ => quiet_pure _
  exact (quiet_op (fun _ => rfl) fun _ => hload 0).bind fun _ => quiet_pure _

theorem ssAesData_quiet (m : Mem) (a : ℕ) {len : ℕ} (hlen : len ≤ lim) :
    Quiet h lim (ssAesData m a len) :=
  (quiet_op (fun _ => rfl) fun _ => by rw [packBytes, Mem.length_load]; exact hlen).bind fun _ =>
    quiet_pure _

/-- What a round sends to the host of `n` bytes. -/
def Returned (c : RwConf) (n : ℕ) (hs : List Host) : Prop :=
  ∃ s t, Shake s ∧ Shake t ∧ hs = (if optIsRead c.opt then [.out n] else []) ++
    if 0 < c.crypt then s ++ .out n :: t else []

/-- The data of a round, which is encrypted in place, or not. -/
theorem rwEncrypt_did {len : ℕ} (hlen : len ≤ lim) (p : RwPos) :
    Prog.Traces h (if p.encrypt then do
        let pack ← ssAesData p.pack 0 len
        return { p with pack }
      else return p) fun (p' : RwPos) l => p'.remain = p.remain ∧ Did lim [] l := by
  refine Prog.Traces.ite (fun _ => ?_) fun _ => Prog.traces_pure ⟨rfl, did_nil⟩
  exact Prog.Traces.bind (ssAesData_quiet p.pack 0 hlen) fun _ _ hl =>
    Prog.traces_pure ⟨rfl, hl.silent did_nil⟩

theorem rwFetch_did {len : ℕ} (hlen : len ≤ lim) (c : RwConf) (p : RwPos) :
    Prog.Traces h (rwFetch c p len) fun (p' : RwPos) l => p'.remain = p.remain ∧
      Did lim (if optIsWrite c.opt then [.inn len] else []) l := by
  unfold rwFetch
  refine Prog.Traces.ite (fun hw => ?_) fun hw => ?_
  · rw [if_pos hw]
    refine (ptdevRead_did hlen p.pack).bind fun r l hl => ?_
    refine Prog.Traces.ite (fun _ => ?_) fun _ => ?_
    · have hinit : Quiet h lim (Prog.op (.aesInit ENCRYPTION none)) :=
        quiet_op (fun _ => rfl) fun _ => Nat.zero_le _
      refine Prog.Traces.bind hinit fun _ l' hl' => ?_
      exact (rwEncrypt_did hlen { p with pack := r.2, encrypt := true }).mono fun _ _ hq =>
        ⟨hq.1, hl.silent (hl'.append hq.2)⟩
    · exact (rwEncrypt_did hlen { p with pack := r.2 }).mono fun _ _ hq =>
        ⟨hq.1, hl.silent hq.2⟩
  · rw [if_neg hw]
    exact (rwEncrypt_did hlen p).mono fun _ _ hq => hq

theorem rwReturn_did (hlim : IUW_CMD_LEN ≤ lim) {len : ℕ} (hlen : len ≤ lim) (c : RwConf)
    (pack : Mem) : Prog.Traces h (rwReturn c pack len) fun _ l => ∃ hs, Returned c len hs ∧
      Did lim hs l := by
  have hcrypt (m : Mem) : Prog.Traces h (if c.crypt > 0 then
        iuwShakeHand 0 0 m >>= fun r => ptdevWrite r.2 (IR_MAX_BUFFER >>> 1) len >>= fun _ =>
          iuwShakeHand 0 0 r.2 >>= fun r => pure r.2
      else pure m) fun _ l => ∃ s t, Shake s ∧ Shake t ∧
        Did lim (if 0 < c.crypt then s ++ .out len :: t else []) l := by
    refine Prog.Traces.ite (fun hc => ?_) fun hc => ?_
    · refine (shakeHand_did hlim 0 0 m).bind fun r l ⟨s, hs, hl, _⟩ => ?_
      refine (ptdevWrite_did hlen r.2 _).bind fun _ l' hl' => ?_
      refine (shakeHand_did hlim 0 0 r.2).bind fun r l'' ⟨t, ht, hl'', _⟩ => Prog.traces_pure ?_
      refine ⟨s, t, hs, ht, ?_⟩
      rw [if_pos hc, List.append_nil]
      exact hl.append (hl'.append hl'')
    · refine Prog.traces_pure ⟨_, _, .full, .full, ?_⟩
      rw [if_neg hc]
      exact did_nil
  unfold rwReturn
  refine Prog.Traces.ite (fun hr => ?_) fun hr => ?_
  · refine (ptdevWrite_did hlen pack 0).bind fun _ l hl => (hcrypt pack).mono ?_
    rintro _ l' ⟨s, t, hs, ht, hl'⟩
    refine ⟨_, ⟨s, t, hs, ht, rfl⟩, ?_⟩
    rw [if_pos hr]
    exact hl.append hl'
  · refine (hcrypt pack).mono ?_
    rintro _ l' ⟨s, t, hs, ht, hl'⟩
    refine ⟨_, ⟨s, t, hs, ht, rfl⟩, ?_⟩
    rw [if_neg hr]
    exact hl'

end Parts

section Loop

variable {σ : Type} {h : σ → Op → Reply × σ} {lim : ℕ} {pack : Mem} {c : RwConf}

/-- The fixed part of a transfer is the one of this command. -/
structure RwFor (pack : Mem) (c : RwConf) : Prop where
  opt : c.opt = iuwCmdCmd pack
  crypt : 0 < c.crypt ↔ rwIsCrypt pack
  plain : c.crypt < 0 ↔ ¬rwIsCrypt pack
  hash : 0 ≤ c.hash ↔ rwIsHash pack ∧ 0 ≤ iuwCmdHashType pack
  pos : 0 < c.exstep

theorem rwIsCrypt.write (h : rwIsCrypt pack) : optIsWrite (iuwCmdCmd pack) = true := by
  rcases h with h | h <;> rw [h] <;> rfl

theorem optIsRead_iff (opt : ℕ) : optIsRead opt = true ↔ ¬optIsWrite opt = true := by
  simp only [optIsRead, optIsWrite, decide_eq_true_eq]
  omega

theorem RwFor.round (hc : RwFor pack c) {n : ℕ} {hs : List Host} (hr : Returned c n hs) :
    DataRound pack n ((if optIsWrite c.opt then [.inn n] else []) ++ hs) := by
  obtain ⟨s, t, hs', ht, rfl⟩ := hr
  rw [hc.opt]
  by_cases hcr : rwIsCrypt pack
  · have hno : ¬optIsRead (iuwCmdCmd pack) = true := by
      rw [optIsRead_iff, not_not]
      exact hcr.write
    rw [if_pos hcr.write, if_neg hno, if_pos (hc.crypt.2 hcr)]
    exact .crypt hcr hs' ht
  rw [if_neg fun h0 => hcr (hc.crypt.1 h0), List.append_nil]
  by_cases hw : optIsWrite (iuwCmdCmd pack) = true
  · rw [if_pos hw, if_neg fun h0 => (optIsRead_iff _).1 h0 hw]
    exact .write hw hcr
  · rw [if_neg hw, if_pos ((optIsRead_iff _).2 hw)]
    exact .read ((optIsRead_iff _).2 hw)

/-- What remained, in pieces of `step` bytes. -/
structure RwPieces (step : ℕ) (remain : ℤ) (ns : List ℕ) : Prop where
  sum : ns.sum = remain.toNat
  pos : ∀ n ∈ ns, 0 < n
  first : 0 < remain → (min remain step).toNat ∈ ns

theorem rwPieces_nil {step : ℕ} {remain : ℤ} (hr : remain ≤ 0) : RwPieces step remain [] where
  sum := by rw [Int.toNat_of_nonpos hr, List.sum_nil]
  pos _ hn := absurd hn List.not_mem_nil
  first h0 := absurd hr (not_le.2 h0)

theorem RwPieces.cons {step : ℕ} {remain : ℤ} {ns : List ℕ} (hstep : 0 < step) (hr : 0 < remain)
    (h : RwPieces step (remain - (min remain step).toNat) ns) :
    RwPieces step remain ((min remain step).toNat :: ns) where
  sum := by
    rw [List.sum_cons, h.sum]
    omega
  pos n hn := by
    rcases List.mem_cons.1 hn with rfl | hn
    · omega
    · exact h.pos n hn
  first _ := List.mem_cons_self

theorem RwPieces.eq_nil {step : ℕ} {remain : ℤ} {ns : List ℕ} (h : RwPieces step remain ns)
    (hr : remain ≤ 0) : ns = [] := by
  have hsum := h.sum
  rw [Int.toNat_of_nonpos hr] at hsum
  rcases ns with _ | ⟨n, ns⟩
  · rfl
  · have := h.pos n List.mem_cons_self
    rw [List.sum_cons] at hsum
    omega

/-- A loop that comes to its end has moved what remained. -/
def RwMoved (pack : Mem) (lim : ℕ) (c : RwConf) (remain : ℤ) (done : Bool)
    (l : List (Op × Reply)) : Prop :=
  ∃ hs, Did lim hs l ∧
    (done = true → ∃ ns, DataRounds pack ns hs ∧ RwPieces c.exstep remain ns)

/-- A round of the loop from the bad blocks on. -/
def rwAfterSkip (c : RwConf) (cur : Option Dev) (n len : ℕ) (p : RwPos) (g : Bool × ℕ × ℤ) :
    Strat (Bool × Mem) := do
  if ¬ g.1 then return (false, p.pack)
  let pack ← iuwLocalRw cur p.pack g.2.1 (if c.hash ≥ 0 then len else c.exstep) c.opt
  let pack ← rwReturn c pack len
  rwLoop c cur n
    { p with pack, offs := g.2.1 + c.step, remain := p.remain - len, leeway := g.2.2 }

theorem rwLoop_succ (c : RwConf) (cur : Option Dev) (n : ℕ) (p : RwPos) :
    rwLoop c cur (n + 1) p =
      if p.remain ≤ 0 then pure (true, p.pack)
      else rwFetch c p (min p.remain c.exstep).toNat >>= fun p' =>
        if c.skip ≠ 0 ∧ p'.offs &&& (c.skip - 1) = 0 then
          skipBad cur c.skip p'.leeway.toNat p'.offs p'.leeway >>=
            rwAfterSkip c cur n (min p.remain c.exstep).toNat p'
        else rwAfterSkip c cur n (min p.remain c.exstep).toNat p' (true, p'.offs, p'.leeway) := rfl

theorem rwLoop_moved (hlim : IUW_CMD_LEN ≤ lim) (hc : RwFor pack c) (cur : Option Dev) :
    ∀ (n : ℕ) (p : RwPos), p.remain ≤ n → (0 < p.remain → c.exstep ≤ lim) →
      Prog.Traces h (rwLoop c cur n p) fun r l => RwMoved pack lim c p.remain r.1 l
  | 0, p, hn, _ =>
    Prog.traces_pure ⟨[], did_nil, fun _ => ⟨[], .nil, rwPieces_nil (by simpa using hn)⟩⟩
  | n + 1, p, hn, hroom => by
    rw [rwLoop_succ]
    refine Prog.Traces.ite (fun h0 => Prog.traces_pure ?_) fun h0 => ?_
    · exact ⟨[], did_nil, fun _ => ⟨[], .nil, rwPieces_nil h0⟩⟩
    have hpos := hc.pos
    have hroom := hroom (not_le.1 h0)
    have hlen : (min p.remain c.exstep).toNat ≤ lim := by omega
    have hcons (ns : List ℕ) (hns : RwPieces c.exstep (p.remain - (min p.remain c.exstep).toNat)
      ns) :
        RwPieces c.exstep p.remain ((min p.remain c.exstep).toNat :: ns) :=
      hns.cons hpos (not_le.1 h0)
    have hless : p.remain - (min p.remain c.exstep).toNat ≤ n := by omega
    generalize (min p.remain c.exstep).toNat = len at hlen hcons hless ⊢
    refine (rwFetch_did hlen c p).bind fun p' l ⟨hp', hl⟩ => ?_
    have hafter (g : Bool × ℕ × ℤ) {l' : List (Op × Reply)} (hl' : Did lim [] l') :
        Prog.Traces h (rwAfterSkip c cur n len p' g) fun r l'' =>
          RwMoved pack lim c p.remain r.1 (l ++ (l' ++ l'')) := by
      refine Prog.Traces.ite (fun _ => Prog.traces_pure ?_) fun _ => ?_
      · exact ⟨_, hl.silent (hl'.append did_nil), fun h0 => absurd h0 (by simp)⟩
      have hlocal : (if c.hash ≥ 0 then len else c.exstep) ≤ lim := by
        split_ifs
        · exact hlen
        · exact hroom
      refine Prog.Traces.bind (iuwLocalRw_quiet cur p'.pack g.2.1 c.opt hlocal) fun m k hk => ?_
      refine (rwReturn_did hlim hlen c m).bind fun m k' ⟨ret, hret, hk'⟩ => ?_
      refine (rwLoop_moved hlim hc cur n _ (hp' ▸ hless) fun _ => hroom).mono ?_
      rintro r k'' ⟨hs, hk'', hdone⟩
      refine ⟨_, (hl.append (hl'.append (hk.append (hk'.append hk'')))), fun h0 => ?_⟩
      obtain ⟨ns, hns, hpieces⟩ := hdone h0
      refine ⟨len :: ns, ?_, hcons ns (hp' ▸ hpieces)⟩
      rw [List.nil_append, List.nil_append, ← List.append_assoc]
      exact .cons (hc.round hret) hns
    refine Prog.Traces.ite (fun _ => ?_) fun _ => hafter (true, p'.offs, p'.leeway) did_nil
    exact Prog.Traces.bind (skipBad_quiet cur c.skip _ p'.offs p'.leeway) fun g _ hl' =>
      hafter g hl'

theorem rwExitError_did (hlim : IUW_CMD_LEN ≤ lim) (m : Mem) (cur : Option Dev) :
    Prog.Traces h (rwExitError m cur) fun r l => Did lim [.out IUW_CMD_LEN] l ∧ r.1 = -1 :=
  (sendCmd_did hlim _ 0 0 m).bind fun _ _ hl => Prog.traces_pure ⟨hl.silent did_nil, rfl⟩

/-- A transfer that succeeds has moved what the command asks for. -/
def RwSent (pack : Mem) (lim : ℕ) (c : RwConf) (remain ret : ℤ) (l : List (Op × Reply)) : Prop :=
  ∃ hs, Did lim hs l ∧ (ret = 0 → ∃ ns data stop, hs = data ++ stop ∧
    DataRounds pack ns data ∧ DataEnd pack stop ∧ RwPieces c.exstep remain ns)

theorem rwIsHash.not_crypt (hh : rwIsHash pack) : ¬rwIsCrypt pack := by
  unfold rwIsHash at hh
  rw [rwIsCrypt, hh]
  decide

/-- The last hand shake, which a crypto command does without. -/
theorem rwFinal_did (hlim : IUW_CMD_LEN ≤ lim) (hc : RwFor pack c) (cur : Option Dev)
    (m : Mem) : Prog.Traces h (if c.crypt < 0 then do
        let (_, pack) ← iuwShakeHand 0 0 m
        return ((0 : ℤ), pack, cur)
      else return (0, m, cur)) fun _ l => ∃ t, Did lim t l ∧
        (rwIsCrypt pack ∧ t = [] ∨ ¬rwIsCrypt pack ∧ Shake t) := by
  refine Prog.Traces.ite (fun h0 => ?_) fun h0 => Prog.traces_pure ?_
  · refine (shakeHand_did hlim 0 0 m).bind fun _ l ⟨t, ht, hl, _⟩ => Prog.traces_pure ?_
    exact ⟨t, hl.silent did_nil, .inr ⟨hc.plain.1 h0, ht⟩⟩
  · exact ⟨[], did_nil, .inl ⟨not_not.1 fun h1 => h0 (hc.plain.2 h1), rfl⟩⟩

theorem rwTransfer_sent (hlim : IUW_CMD_LEN ≤ lim) (he : HashEngine h) (hc : RwFor pack c)
    (p : RwPos) (hroom : 0 < p.remain → c.exstep ≤ lim) (cur : Option Dev) :
    Prog.Traces h (rwTransfer c p cur) fun r l =>
      RwSent pack lim c p.remain r.1 l := by
  have hn : p.remain ≤ p.remain.toNat := Int.self_le_toNat p.remain
  refine (rwLoop_moved hlim hc cur p.remain.toNat p hn hroom).bind ?_
  rintro ⟨done, m⟩ l ⟨data, hl, hdone⟩
  have herr (m : Mem) {gs : List Host} {k : List (Op × Reply)} (hk : Did lim gs k) :
      Prog.Traces h (rwExitError m cur) fun r l' => RwSent pack lim c p.remain r.1 (k ++ l') :=
    (rwExitError_did hlim m cur).mono fun r l' ⟨hl', hr⟩ =>
      ⟨_, hk.append hl', fun h0 => absurd h0 (by rw [hr]; simp)⟩
  refine Prog.Traces.ite (fun _ => ?_) fun hd => ?_
  · exact herr m hl
  obtain ⟨ns, hns, hpieces⟩ := hdone (by simpa using hd)
  have hfinal := rwFinal_did (h := h) hlim hc cur
  refine Prog.Traces.ite (fun hh => ?_) fun hh => ?_
  · obtain ⟨hash, htype⟩ := hc.hash.1 hh
    have hquiet : Quiet h lim (Prog.op .hashLen) :=
      quiet_op (fun _ => rfl) fun _ => Nat.zero_le _
    refine Prog.Traces.bind hquiet fun r k hk => ?_
    refine (shakeHand_did hlim _ _ m).bind fun q k' ⟨s, hs, hk', _⟩ => ?_
    have hvalue : Quiet h lim (Prog.op .hashValue) :=
      quiet_op (fun _ => rfl) fun e => (he.value e).trans hlim
    refine Prog.Traces.bind hvalue fun v k'' hk'' => ?_
    have hfirst := hl.append (hk.append (hk'.append hk''))
    refine Prog.Traces.ite (fun _ => ?_) fun _ => ?_
    · refine (herr _ hfirst).mono fun _ _ h0 => ?_
      simpa only [List.append_assoc] using h0
    have hout : Prog.Traces h (Prog.op .hashLen : Strat Reply) fun r l => r.ret ≤ 32 ∧
        Did lim [] l := Prog.traces_op fun e => ⟨he.len e, hquiet e⟩
    refine hout.bind fun r' j ⟨hr', hj⟩ => ?_
    have hn : r'.ret.toNat ≤ lim := by
      have : IUW_CMD_LEN = 32 := rfl
      omega
    refine (ptdevWrite_did hn _ 0).bind fun _ j' hj' => (hfinal _).mono ?_
    rintro r'' j'' ⟨t, hj'', ht⟩
    refine ⟨_, hl.append (hk.append (hk'.append (hk''.append (hj.append (hj'.append hj''))))),
      fun _ => ⟨ns, data, s ++ .out r'.ret.toNat :: t, by simp, hns, ?_, hpieces⟩⟩
    rcases ht with ⟨hcr, -⟩ | ⟨-, ht⟩
    · exact absurd hcr hash.not_crypt
    · exact .hash hash htype hs _ ht
  · refine (hfinal m).mono ?_
    rintro r k ⟨t, hk, ht⟩
    refine ⟨_, hl.append hk, fun _ => ⟨ns, data, t, rfl, hns, ?_, hpieces⟩⟩
    rcases ht with ⟨hcr, rfl⟩ | ⟨hcr, ht⟩
    · exact .crypt hcr
    · exact .plain hcr (fun h0 => not_le.1 fun h1 => hh (hc.hash.2 ⟨h0, h1⟩)) ht

end Loop

section Process

variable {σ : Type} {h : σ → Op → Reply × σ} (B : Board) (pack : Mem)

def rwOffs : ℕ := if rwIsMem pack then iuwCmdAddr pack else iuwCmdOffs pack

def rwRemain : ℤ :=
  if rwIsMem pack ∨ rwIsCrypt pack ∨ rwIsHash pack then s32 (iuwCmdPara pack 1) else iuwCmdLen pack

/-- What `iuw_process_rw` moves at a time. -/
def rwPiece : ℕ := if rwDevice pack = DEV_FND then fndAlign B.nand else rwRoom pack

def rwSkip : Option ℕ :=
  if (Dev.ofId (rwDevice pack)).elim false Dev.isNand then
    (B.nand.getConfig (if rwDevice pack = DEV_BND then .boot else .normal)).map (·.blocksize)
  else some 0

def rwConf (cur : Option Dev) (skip : ℕ) : RwConf where
  opt := iuwCmdCmd pack
  size := rwRemain pack
  step := if rwDevice pack = DEV_FND then vsAlign B cur (rwDevice pack) else IR_MAX_BUFFER
  exstep := rwPiece B pack
  skip := skip
  hash := if rwIsHash pack then iuwCmdHashType pack else -1
  crypt := if rwIsCrypt pack then 1 else -1

def rwStart (m : Mem) : RwPos where
  pack := m
  offs := rwOffs pack
  remain := rwRemain pack
  leeway := s32 (iuwCmdMax pack - rwRemain pack)
  encrypt := false

/-- `iuw_process_rw` from the first hand shake on. -/
def rwFromShake (cur : Option Dev) (skip : ℕ) (r : ℤ × Mem) : Strat (ℤ × Mem × Option Dev) := do
  if r.1 < 0 then return ← rwExitError r.2 cur
  let (ret, m) ← iuwShakeHand IUW_SUB_STEP (rwPiece B pack) r.2
  if ret ≠ 0 then return (-2, m, cur)
  rwTransfer (rwConf B pack cur skip) (rwStart pack m) cur

/-- From the keys on. -/
def rwFromKey (cur : Option Dev) (skip : ℕ) : Strat (ℤ × Mem × Option Dev) := do
  if rwIsCrypt pack then
    if iuwCmdCryptIsk pack then do
      let r ← Prog.op (.aesInit (if iuwCmdCmd pack = IUW_CMD_ENC then 0 else 1) none)
      rwFromShake B pack cur skip (r.ret, pack)
    else do
      let (_, m) ← ptdevRead pack IUW_AES_KEYLEN
      let r ← Prog.op (.aesInit (if iuwCmdCmd pack = IUW_CMD_ENC then 0 else 1)
        (some (m.load 0 IUW_AES_KEYLEN)))
      rwFromShake B pack cur skip (r.ret, m)
  else rwFromShake B pack cur skip (0, pack)

/-- From the assigned device on. -/
def rwFromDevice (q : ℤ × Option Dev) : Strat (ℤ × Mem × Option Dev) := do
  if q.1 < 0 then return ← rwExitError pack q.2
  let some skip := rwSkip B pack | return (-ENOCFG, pack, q.2)
  if rwDevice pack = DEV_FND ∧ ¬ fndSizeMatch B.nand (toU32 (rwRemain pack)) then
    return ← rwExitError pack q.2
  if optIsWrite (iuwCmdCmd pack) ∧ vsDeviceErasable (rwDevice pack) then do
    let _ ← vsErase q.2 (rwOffs pack) (iuwCmdMax pack)
    rwFromKey B pack q.2 skip
  else rwFromKey B pack q.2 skip

/-- From the device on. -/
def rwFromAssign (cur : Option Dev) : Strat (ℤ × Mem × Option Dev) := do
  let q ← if rwDevice pack ≠ DEV_NONE then vsAssignById (rwDevice pack) true else pure (0, cur)
  rwFromDevice B pack q

theorem iuwProcessRw_eq (cur : Option Dev) : iuwProcessRw B pack cur = if rwIsHash pack then do
    let _ ← Prog.op (.hashInit (if rwIsHash pack then iuwCmdHashType pack else -1)
      (iuwCmdHashLen pack))
    rwFromAssign B pack cur
  else rwFromAssign B pack cur := rfl

variable {B pack}

theorem rwIsCrypt.device (hcr : rwIsCrypt pack) : rwDevice pack = DEV_NONE := by
  unfold rwDevice
  rcases hcr with hcr | hcr <;> rw [hcr] <;> rfl

theorem rwRoom_fnd (hf : rwDevice pack = DEV_FND) : rwRoom pack = IR_MAX_BUFFER := by
  refine if_neg fun hcr => ?_
  rw [hcr.device] at hf
  exact absurd hf (by decide)

theorem fndAlign_pos (hr : ¬RwRefused B pack) (hf : rwDevice pack = DEV_FND) :
    0 < fndAlign B.nand := by
  have hnone : B.nand.getConfig .normal ≠ none := fun h0 => hr (.inr (.inl ⟨by rw [hf]; rfl, by
    rw [hf]
    exact h0⟩))
  obtain ⟨nc, hnc⟩ := Option.ne_none_iff_exists'.1 hnone
  rw [fndAlign, hnc, Option.elim_some, B.nand.normal_page nc hnc]
  exact Nat.add_pos_left (Nat.two_pow_pos _) _

theorem rwConf_for (hr : ¬RwRefused B pack) (cur : Option Dev) (skip : ℕ) :
    RwFor pack (rwConf B pack cur skip) where
  opt := rfl
  crypt := by
    simp only [rwConf]
    split_ifs with hcr
    · simp [hcr]
    · simp [hcr]
  plain := by
    simp only [rwConf]
    split_ifs with hcr
    · simp [hcr]
    · simp [hcr]
  hash := by
    simp only [rwConf]
    split_ifs with hh
    · simp [hh]
    · simp [hh]
  pos := by
    simp only [rwConf, rwPiece]
    split_ifs with hf
    · exact fndAlign_pos hr hf
    · unfold rwRoom
      split_ifs <;> decide

theorem vsAssignById_did (lim : ℕ) (id : ℤ) :
    Prog.Traces h (vsAssignById id true) fun q l => Did lim [] l ∧
      (0 ≤ q.1 → (Dev.ofId id).elim true (fun d => !d.entry.reset) = false) := by
  unfold vsAssignById
  rcases Dev.ofId id with _ | d
  · exact Prog.traces_pure ⟨did_nil, fun h0 => absurd h0 (by decide)⟩
  by_cases hd : d.entry.reset = true
  · have hop : Quiet h lim (Prog.op (.reset d)) := quiet_op (fun _ => rfl) fun _ => Nat.zero_le _
    simp only [vsReset, hd, if_true]
    exact Prog.Traces.bind (Quiet.bind hop fun _ => quiet_pure _) fun _ _ hl =>
      Prog.traces_pure ⟨hl.silent did_nil, fun _ => by simp [hd]⟩
  · simp only [vsReset, if_true, hd, Bool.false_eq_true, if_false]
    exact Prog.traces_pure ⟨did_nil, fun h0 => absurd (show (0 : ℤ) ≤ -3 from h0) (by decide)⟩

theorem rwRemain_eq : rwRemain pack = s32 (rwLength pack) := by
  unfold rwRemain rwLength
  split_ifs <;> rfl

theorem rwFromShake_done {lim : ℕ} (hlim : IUW_CMD_LEN ≤ lim) (he : HashEngine h)
    (hr : ¬RwRefused B pack) (hroom : 0 < rwRemain pack → rwPiece B pack ≤ lim)
    (cur : Option Dev) (skip : ℕ) (q : ℤ × Mem) :
    Prog.Traces h (rwFromShake B pack cur skip q) fun r l => ∃ hs, Did lim hs l ∧
      (r.1 = 0 → ∃ ns data stop, hs = [.out IUW_CMD_LEN, .inn IUW_CMD_LEN] ++ data ++ stop ∧
        DataRounds pack ns data ∧ DataEnd pack stop ∧
        RwPieces (rwPiece B pack) (rwRemain pack) ns) := by
  refine Prog.Traces.ite (fun _ => ?_) fun _ => ?_
  · refine (rwExitError_did hlim q.2 cur).mono fun r l ⟨hl, hr⟩ => ⟨_, hl, fun h0 => ?_⟩
    rw [hr] at h0
    exact absurd h0 (by decide)
  refine (shakeHand_did hlim _ _ q.2).bind ?_
  rintro ⟨ret, m⟩ l ⟨s, -, hl, hs⟩
  refine Prog.Traces.ite (fun _ => Prog.traces_pure ?_) fun h0 => ?_
  · exact ⟨s, hl.silent did_nil, fun h0 => absurd h0 (by simp)⟩
  obtain rfl := hs (not_not.1 h0)
  refine (rwTransfer_sent hlim he (rwConf_for hr cur skip) (rwStart pack m) hroom cur).mono ?_
  rintro r l' ⟨hs, hl', hdone⟩
  refine ⟨_, hl.append hl', fun h0 => ?_⟩
  obtain ⟨ns, data, stop, rfl, hdata, hstop, hns⟩ := hdone h0
  exact ⟨ns, data, stop, by rw [List.append_assoc], hdata, hstop, hns⟩

/-- A command that succeeds has made its exchange. -/
def RwDone (B : Board) (pack : Mem) (lim : ℕ) (ret : ℤ) (l : List (Op × Reply)) : Prop :=
  ∃ hs, Did lim hs l ∧ (ret = 0 → ¬RwRefused B pack ∧
    ∃ ns, Exchange pack ns hs ∧ RwPieces (rwPiece B pack) (rwRemain pack) ns)

theorem RwDone.quiet {lim : ℕ} {ret : ℤ} {l l' : List (Op × Reply)} (hl : Did lim [] l)
    (hd : RwDone B pack lim ret l') : RwDone B pack lim ret (l ++ l') := by
  obtain ⟨hs, hl', hdone⟩ := hd
  exact ⟨hs, hl.append hl', hdone⟩

theorem rwExitError_done {lim : ℕ} (hlim : IUW_CMD_LEN ≤ lim) (m : Mem) (cur : Option Dev) :
    Prog.Traces h (rwExitError m cur) fun r l => RwDone B pack lim r.1 l :=
  (rwExitError_did hlim m cur).mono fun r l ⟨hl, hr⟩ => ⟨_, hl, fun h0 => by
    rw [hr] at h0
    exact absurd h0 (by decide)⟩

theorem rwFromKey_done {lim : ℕ} (hlim : IUW_CMD_LEN ≤ lim) (he : HashEngine h)
    (hr : ¬RwRefused B pack) (hroom : 0 < rwRemain pack → rwPiece B pack ≤ lim)
    (cur : Option Dev) (skip : ℕ) :
    Prog.Traces h (rwFromKey B pack cur skip) fun r l => RwDone B pack lim r.1 l := by
  have hshake := rwFromShake_done hlim he hr hroom cur skip
  have hinit (key : Option (List UInt8)) :
      Quiet h lim (Prog.op (.aesInit (if iuwCmdCmd pack = IUW_CMD_ENC then 0 else 1) key)) :=
    quiet_op (fun _ => rfl) fun _ => Nat.zero_le _
  refine Prog.Traces.ite (fun hcr => Prog.Traces.ite (fun _ => ?_) fun _ => ?_) fun hcr => ?_
  · refine Prog.Traces.bind (hinit none) fun r l hl => (hshake (r.ret, pack)).mono ?_
    rintro q l' ⟨hs, hl', hdone⟩
    refine ⟨hs, hl.append hl', fun h0 => ⟨hr, ?_⟩⟩
    obtain ⟨ns, data, stop, rfl, hdata, hstop, hns⟩ := hdone h0
    exact ⟨ns, ⟨[], data, stop, rfl, .inl rfl, hdata, hstop⟩, hns⟩
  · refine (ptdevRead_did hlim pack).bind fun r k hk => ?_
    refine Prog.Traces.bind (hinit _) fun a l hl => (hshake (a.ret, r.2)).mono ?_
    rintro q l' ⟨hs, hl', hdone⟩
    refine ⟨_, hk.append (hl.append hl'), fun h0 => ⟨hr, ?_⟩⟩
    obtain ⟨ns, data, stop, rfl, hdata, hstop, hns⟩ := hdone h0
    exact ⟨ns, ⟨[.inn IUW_AES_KEYLEN], data, stop, rfl, .inr ⟨hcr, rfl⟩, hdata, hstop⟩, hns⟩
  · refine (hshake (0, pack)).mono ?_
    rintro q l' ⟨hs, hl', hdone⟩
    refine ⟨hs, hl', fun h0 => ⟨hr, ?_⟩⟩
    obtain ⟨ns, data, stop, rfl, hdata, hstop, hns⟩ := hdone h0
    exact ⟨ns, ⟨[], data, stop, rfl, .inl rfl, hdata, hstop⟩, hns⟩

theorem rwFromDevice_done {lim : ℕ} (hlim : IUW_CMD_LEN ≤ lim) (he : HashEngine h)
    (hroom : ¬RwRefused B pack → 0 < rwRemain pack → rwPiece B pack ≤ lim) {q : ℤ × Option Dev}
    (hq : 0 ≤ q.1 → rwDevice pack ≠ DEV_NONE →
      (Dev.ofId (rwDevice pack)).elim true (fun d => !d.entry.reset) = false) :
    Prog.Traces h (rwFromDevice B pack q) fun r l => RwDone B pack lim r.1 l := by
  refine Prog.Traces.ite (fun _ => rwExitError_done hlim pack q.2) fun hneg => ?_
  rcases hskip : rwSkip B pack with _ | skip
  · exact Prog.traces_pure ⟨_, did_nil, fun h0 => absurd (show -ENOCFG = 0 from h0) (by decide)⟩
  refine Prog.Traces.ite (fun _ => rwExitError_done hlim pack q.2) fun hmatch => ?_
  have hr : ¬RwRefused B pack := by
    rintro (⟨hd, h0⟩ | ⟨hd, h0⟩ | ⟨hd, h0⟩)
    · rw [hq (not_lt.1 hneg) hd] at h0
      exact absurd h0 (by simp)
    · rw [rwSkip, if_pos hd, h0] at hskip
      exact absurd hskip (by simp)
    · rw [rwRemain_eq, toU32_s32 (rwLength_lt pack)] at hmatch
      exact hmatch ⟨hd, h0⟩
  have hkey := rwFromKey_done hlim he hr (hroom hr) q.2 skip
  refine Prog.Traces.ite (fun _ => ?_) fun _ => hkey
  have herase : Quiet h lim (vsErase q.2 (rwOffs pack) (iuwCmdMax pack)) := by
    unfold vsErase
    rcases q.2 with _ | d
    · exact quiet_pure _
    · exact Quiet.ite (fun _ => (quiet_op (fun _ => rfl) fun _ => Nat.zero_le _).bind fun _ =>
        quiet_pure _) fun _ => quiet_pure _
  exact Prog.Traces.bind herase fun _ l hl => hkey.mono fun _ _ hd => hd.quiet hl

theorem iuwProcessRw_done {lim : ℕ} (hlim : IUW_CMD_LEN ≤ lim) (he : HashEngine h)
    (hroom : ¬RwRefused B pack → 0 < rwRemain pack → rwPiece B pack ≤ lim) (cur : Option Dev) :
    Prog.Traces h (iuwProcessRw B pack cur) fun r l => RwDone B pack lim r.1 l := by
  have hassign : Prog.Traces h (rwFromAssign B pack cur) fun r l => RwDone B pack lim r.1 l := by
    refine Prog.Traces.ite (fun hid => ?_) fun hid => ?_
    · refine (vsAssignById_did lim _).bind fun q l ⟨hl, hq⟩ => ?_
      exact (rwFromDevice_done hlim he hroom fun h0 _ => hq h0).mono fun _ _ hd => hd.quiet hl
    · exact rwFromDevice_done hlim he hroom (q := (0, cur)) fun _ h0 => absurd h0 hid
  rw [iuwProcessRw_eq]
  refine Prog.Traces.ite (fun _ => ?_) fun _ => hassign
  have hinit : Quiet h lim (Prog.op (.hashInit (if rwIsHash pack then iuwCmdHashType pack else -1)
      (iuwCmdHashLen pack))) := quiet_op (fun _ => rfl) fun _ => Nat.zero_le _
  exact Prog.Traces.bind hinit fun _ l hl => hassign.mono fun _ _ hd => hd.quiet hl

end Process

section Ends

variable {σ : Type} {h : σ → Op → Reply × σ} {c : RwConf} (cur : Option Dev)

theorem skipBad_last {skip : ℕ} {leeway : ℤ} (hl : ¬leeway > skip) (n offs : ℕ) :
    skipBad cur skip (n + 1) offs leeway = skipBad cur skip 0 offs leeway := by
  simp only [skipBad]
  refine congrArg _ (funext fun b => ?_)
  by_cases hb : b = 0
  · simp [hb]
  · simp [hb, hl]

/-- The loop over bad blocks ends before its fuel does. -/
theorem skipBad_fuel {skip : ℕ} (hs : skip ≠ 0) : ∀ (n m offs : ℕ) (leeway : ℤ),
    leeway ≤ n → leeway ≤ m → skipBad cur skip n offs leeway = skipBad cur skip m offs leeway
  | 0, 0, _, _, _, _ => rfl
  | 0, m + 1, offs, leeway, hn, _ => (skipBad_last cur (by omega) m offs).symm
  | n + 1, 0, offs, leeway, _, hm => skipBad_last cur (by omega) n offs
  | n + 1, m + 1, offs, leeway, hn, hm => by
    simp only [skipBad]
    refine congrArg _ (funext fun b => ?_)
    rw [skipBad_fuel hs n m (offs + skip) (leeway - skip) (by omega) (by omega)]

/-- The loop of `iuw_process_rw` ends before its fuel does. -/
theorem rwLoop_same (hpos : 0 < c.exstep) : ∀ (n m : ℕ) (p : RwPos), p.remain ≤ n → p.remain ≤ m →
    Prog.Same h (rwLoop c cur n p) (rwLoop c cur m p)
  | 0, 0, _, _, _ => fun _ => rfl
  | 0, m + 1, p, hn, _ => by
    rw [rwLoop, rwLoop, if_pos (by simpa using hn)]
    exact fun _ => rfl
  | n + 1, 0, p, _, hm => by
    rw [rwLoop, rwLoop, if_pos (by simpa using hm)]
    exact fun _ => rfl
  | n + 1, m + 1, p, hn, hm => by
    rw [rwLoop_succ, rwLoop_succ]
    refine Prog.Same.ite (fun _ _ => rfl) fun h0 => ?_
    have hn' : p.remain - (min p.remain c.exstep).toNat ≤ n := by omega
    have hm' : p.remain - (min p.remain c.exstep).toNat ≤ m := by omega
    have hlen : (min p.remain c.exstep).toNat ≤ c.exstep := by omega
    generalize (min p.remain c.exstep).toNat = len at hn' hm' hlen ⊢
    refine Prog.Same.bind ((rwFetch_did hlen c p).mono fun p' _ ⟨hp', _⟩ => ?_)
    have hafter (g : Bool × ℕ × ℤ) :
        Prog.Same h (rwAfterSkip c cur n len p' g) (rwAfterSkip c cur m len p' g) :=
      Prog.Same.ite (fun _ _ => rfl) fun _ => Prog.Same.bind fun _ => Prog.Same.bind fun _ =>
        rwLoop_same hpos n m _ (hp' ▸ hn') (hp' ▸ hm')
    exact Prog.Same.ite (fun _ => Prog.Same.bind fun _ => hafter _) fun _ => hafter _

end Ends

section Mute

/-- An environment that answers 0 to everything. -/
def mute (_ : Unit) (_ : Op) : Reply × Unit := (⟨0, []⟩, ())

theorem mute_engine : HashEngine mute where
  len _ := show (0 : ℤ) ≤ 32 by decide
  value _ := Nat.zero_le _

variable {B : Board} {pack : Mem} {c : RwConf} {cur : Option Dev}

theorem shakeHand_mute (subcmd para : ℕ) (m : Mem) :
    Prog.Traces mute (iuwShakeHand subcmd para m) fun r _ => r.1 = 0 := fun _ => rfl

theorem rwAfterSkip_mute {n : ℕ} (len : ℕ)
    (hloop : ∀ p : RwPos, Prog.Traces mute (rwLoop c cur n p) fun r _ => r.1 = true) (p : RwPos)
    {g : Bool × ℕ × ℤ} (hg : g.1 = true) :
    Prog.Traces mute (rwAfterSkip c cur n len p g) fun r _ => r.1 = true := by
  have htrue {α : Type} (q : Strat α) : Prog.Traces mute q fun _ _ => True := fun _ => trivial
  refine Prog.Traces.ite (fun h0 => absurd hg h0) fun _ => ?_
  exact (htrue _).bind fun _ _ _ => (htrue _).bind fun _ _ _ => hloop _

theorem skipBad_mute {d : Dev} (hd : d.entry.isbad = true) (skip n offs : ℕ) (leeway : ℤ) :
    Prog.Traces mute (skipBad (some d) skip n offs leeway) fun g _ => g.1 = true := by
  intro s
  rcases n with _ | n
  · simp [skipBad, vsIsbad, hd, mute]
  · simp [skipBad, vsIsbad, hd, mute]

/-- With no bad block the loop comes to its end. -/
theorem rwLoop_mute (hcur : c.skip ≠ 0 → ∃ d, cur = some d ∧ d.entry.isbad = true) :
    ∀ (n : ℕ) (p : RwPos), Prog.Traces mute (rwLoop c cur n p) fun r _ => r.1 = true
  | 0, _ => fun _ => rfl
  | n + 1, p => by
    have hafter (p' : RwPos) {g : Bool × ℕ × ℤ} (hg : g.1 = true) :=
      rwAfterSkip_mute (min p.remain c.exstep).toNat (rwLoop_mute hcur n) p' hg
    rw [rwLoop_succ]
    refine Prog.Traces.ite (fun _ _ => rfl) fun _ => ?_
    refine Prog.Traces.bind (S := fun _ _ => True) (fun _ => trivial) fun p' _ _ => ?_
    refine Prog.Traces.ite (fun hskip => ?_) fun _ => hafter p' rfl
    obtain ⟨d, rfl, hd⟩ := hcur hskip.1
    exact (skipBad_mute hd _ _ _ _).bind fun _ _ hg => hafter p' hg

theorem rwTransfer_mute (hcur : c.skip ≠ 0 → ∃ d, cur = some d ∧ d.entry.isbad = true)
    (p : RwPos) : Prog.Traces mute (rwTransfer c p cur) fun r _ => r.1 = 0 := by
  have hfinal (m : Mem) : Prog.Traces mute (if c.crypt < 0 then do
        let (_, pack) ← iuwShakeHand 0 0 m
        return ((0 : ℤ), pack, cur)
      else return (0, m, cur)) fun r _ => r.1 = 0 :=
    Prog.Traces.ite (fun _ _ => rfl) fun _ _ => rfl
  have htrue {α : Type} (q : Strat α) : Prog.Traces mute q fun _ _ => True := fun _ => trivial
  refine (rwLoop_mute hcur _ p).bind ?_
  rintro ⟨done, m⟩ _ (rfl : done = true)
  refine Prog.Traces.ite (fun h0 => absurd rfl h0) fun _ => ?_
  refine Prog.Traces.ite (fun _ => ?_) fun _ => hfinal m
  refine (htrue _).bind fun _ _ _ => (htrue _).bind fun q _ _ => ?_
  refine Prog.Traces.bind (S := fun r _ => r.ret = 0) (fun _ => rfl) fun r _ hr => ?_
  refine Prog.Traces.ite (fun h0 => absurd h0 (by simp [hr])) fun _ => ?_
  exact (htrue _).bind fun _ _ _ => (htrue _).bind fun _ _ _ => hfinal _

theorem rwFromShake_mute {skip : ℕ} (hcur : skip ≠ 0 → ∃ d, cur = some d ∧ d.entry.isbad = true)
    {q : ℤ × Mem} (hq : 0 ≤ q.1) :
    Prog.Traces mute (rwFromShake B pack cur skip q) fun r _ => r.1 = 0 := by
  refine Prog.Traces.ite (fun h0 => absurd h0 (not_lt.2 hq)) fun _ => ?_
  refine (shakeHand_mute _ _ q.2).bind fun r _ hr => ?_
  refine Prog.Traces.ite (fun h0 => absurd hr h0) fun _ => ?_
  exact rwTransfer_mute (c := rwConf B pack cur skip) hcur (rwStart pack r.2)

theorem rwFromKey_mute {skip : ℕ} (hcur : skip ≠ 0 → ∃ d, cur = some d ∧ d.entry.isbad = true) :
    Prog.Traces mute (rwFromKey B pack cur skip) fun r _ => r.1 = 0 := by
  have hinit (option : ℕ) (key : Option (List UInt8)) (m : Mem) :
      Prog.Traces mute (do
        let r ← Prog.op (.aesInit option key)
        rwFromShake B pack cur skip (r.ret, m)) fun r _ => r.1 = 0 :=
    Prog.Traces.bind (S := fun r _ => r.ret = 0) (fun _ => rfl) fun r _ hr =>
      rwFromShake_mute hcur (by simp [hr])
  refine Prog.Traces.ite (fun _ => Prog.Traces.ite (fun _ => hinit _ _ _) fun _ => ?_) fun _ =>
    rwFromShake_mute hcur le_rfl
  exact Prog.Traces.bind (S := fun _ _ => True) (fun _ => trivial) fun _ _ _ => hinit _ _ _

theorem rwSkip_isbad {skip : ℕ} (hskip : rwSkip B pack = some skip) (h0 : skip ≠ 0) :
    ∃ d, Dev.ofId (rwDevice pack) = some d ∧ d.entry.isbad = true := by
  unfold rwSkip at hskip
  by_cases hn : (Dev.ofId (rwDevice pack)).elim false Dev.isNand = true
  · rcases hd : Dev.ofId (rwDevice pack) with _ | d
    · rw [hd] at hn
      exact absurd hn (by simp)
    · rw [hd, Option.elim_some] at hn
      refine ⟨d, rfl, ?_⟩
      cases d <;> first | rfl | exact absurd hn (by decide)
  · rw [if_neg hn] at hskip
    exact absurd (Option.some.inj hskip).symm h0

theorem rwFromDevice_mute (hr : ¬RwRefused B pack) {q : ℤ × Option Dev} (hq : 0 ≤ q.1)
    (hdev : rwDevice pack ≠ DEV_NONE → q.2 = Dev.ofId (rwDevice pack)) :
    Prog.Traces mute (rwFromDevice B pack q) fun r _ => r.1 = 0 := by
  refine Prog.Traces.ite (fun h0 => absurd h0 (not_lt.2 hq)) fun _ => ?_
  rcases hskip : rwSkip B pack with _ | skip
  · by_cases hn : (Dev.ofId (rwDevice pack)).elim false Dev.isNand = true
    · rw [rwSkip, if_pos hn] at hskip
      exact absurd (.inr (.inl ⟨hn, Option.map_eq_none_iff.1 hskip⟩)) hr
    · rw [rwSkip, if_neg hn] at hskip
      exact absurd hskip (by simp)
  have hcur (h0 : skip ≠ 0) : ∃ d, q.2 = some d ∧ d.entry.isbad = true := by
    obtain ⟨d, hd, hbad⟩ := rwSkip_isbad hskip h0
    refine ⟨d, ?_, hbad⟩
    refine (hdev fun hnone => ?_).trans hd
    rw [hnone] at hd
    exact absurd (show none = some d from hd) (by simp)
  refine Prog.Traces.ite (fun hmatch => ?_) fun _ => ?_
  · rw [rwRemain_eq, toU32_s32 (rwLength_lt pack)] at hmatch
    exact absurd (.inr (.inr hmatch)) hr
  · refine Prog.Traces.ite (fun _ => ?_) fun _ => rwFromKey_mute hcur
    exact Prog.Traces.bind (S := fun _ _ => True) (fun _ => trivial) fun _ _ _ =>
      rwFromKey_mute hcur

theorem iuwProcessRw_mute (hr : ¬RwRefused B pack) (cur : Option Dev) :
    Prog.Traces mute (iuwProcessRw B pack cur) fun r _ => r.1 = 0 := by
  have hassign : Prog.Traces mute (rwFromAssign B pack cur) fun r _ => r.1 = 0 := by
    refine Prog.Traces.ite (fun hid => ?_) fun hid => ?_
    · refine Prog.Traces.bind (S := fun q _ => q.1 = 0 ∧ q.2 = Dev.ofId (rwDevice pack)) ?_
        fun q _ ⟨hq, hcur⟩ => rwFromDevice_mute hr hq.ge fun _ => hcur
      rcases hd : Dev.ofId (rwDevice pack) with _ | d
      · exact absurd (.inl ⟨hid, by rw [hd]; rfl⟩) hr
      by_cases hreset : d.entry.reset = true
      · simp only [vsAssignById, hd, vsReset, hreset, if_true]
        exact fun _ => ⟨rfl, rfl⟩
      · exact absurd (.inl ⟨hid, by simp [hd, hreset]⟩) hr
    · exact rwFromDevice_mute hr (q := (0, cur)) le_rfl fun h0 => absurd h0 hid
  rw [iuwProcessRw_eq]
  refine Prog.Traces.ite (fun _ => ?_) fun _ => hassign
  exact Prog.Traces.bind (S := fun _ _ => True) (fun _ => trivial) fun _ _ _ => hassign

end Mute

section Exchange

variable {pack : Mem} {ns : List ℕ} {hs : List Host}

def hostBytes (hs : List Host) : ℕ := (hs.map Host.bytes).sum

theorem hostBytes_append (hs gs : List Host) :
    hostBytes (hs ++ gs) = hostBytes hs + hostBytes gs := by
  rw [hostBytes, List.map_append, List.sum_append, hostBytes, hostBytes]

theorem DataRound.host {n : ℕ} (h : DataRound pack n hs) :
    n ≤ hostBytes hs ∧ ∃ g ∈ hs, g.bytes = n := by
  cases h with
  | read => exact ⟨le_rfl, _, List.mem_cons_self, rfl⟩
  | write => exact ⟨le_rfl, _, List.mem_cons_self, rfl⟩
  | crypt => exact ⟨Nat.le_add_right _ _, _, List.mem_cons_self, rfl⟩

theorem DataRounds.sum_le (h : DataRounds pack ns hs) : ns.sum ≤ hostBytes hs := by
  induction h with
  | nil => exact Nat.zero_le _
  | cons h _ ih =>
    rw [List.sum_cons, hostBytes_append]
    exact Nat.add_le_add h.host.1 ih

theorem DataRounds.mem (h : DataRounds pack ns hs) : ∀ n ∈ ns, ∃ g ∈ hs, g.bytes = n := by
  induction h with
  | nil => exact fun _ hn => absurd hn List.not_mem_nil
  | cons h _ ih =>
    intro n hn
    rcases List.mem_cons.1 hn with rfl | hn
    · obtain ⟨g, hg, hgn⟩ := h.host.2
      exact ⟨g, List.mem_append_left _ hg, hgn⟩
    · obtain ⟨g, hg, hgn⟩ := ih n hn
      exact ⟨g, List.mem_append_right _ hg, hgn⟩

theorem Exchange.mem (h : Exchange pack ns hs) {n : ℕ} (hn : n ∈ ns) : ∃ g ∈ hs, g.bytes = n := by
  obtain ⟨key, data, stop, rfl, -, hdata, -⟩ := h
  obtain ⟨g, hg, hgn⟩ := hdata.mem n hn
  exact ⟨g, List.mem_append_left _ (List.mem_append_right _ hg), hgn⟩

theorem Exchange.sum_le (h : Exchange pack ns hs) : ns.sum ≤ hostBytes hs := by
  obtain ⟨key, data, stop, rfl, -, hdata, -⟩ := h
  have := hdata.sum_le
  rw [hostBytes_append, hostBytes_append]
  omega

theorem Shake.length_le (h : Shake hs) : hs.length ≤ 2 := by
  cases h <;> simp

theorem DataEnd.length_le (h : DataEnd pack hs) : hs.length ≤ 5 := by
  cases h with
  | crypt => exact Nat.zero_le _
  | plain _ _ hs => exact hs.length_le.trans (by decide)
  | hash _ _ hs _ ht =>
    have := hs.length_le
    have := ht.length_le
    rw [List.length_append, List.length_cons]
    omega

theorem Exchange.length_le (h : Exchange pack [] hs) : hs.length ≤ 8 := by
  obtain ⟨key, data, stop, rfl, hkey, hdata, hstop⟩ := h
  cases hdata
  have hk : key.length ≤ 1 := by
    rcases hkey with rfl | ⟨-, rfl⟩ <;> simp
  have := hstop.length_le
  simp only [List.length_append, List.append_nil, List.length_cons, List.length_nil]
  omega

theorem hostBytes_le {lim : ℕ} : ∀ {hs : List Host}, (∀ g ∈ hs, g.bytes ≤ lim) →
    hostBytes hs ≤ hs.length * lim
  | [], _ => Nat.zero_le _
  | g :: hs, h => by
    have hg := h g List.mem_cons_self
    have ih := hostBytes_le fun g hg => h g (List.mem_cons_of_mem _ hg)
    rw [List.length_cons, Nat.succ_mul]
    rw [hostBytes] at ih
    rw [hostBytes, List.map_cons, List.sum_cons]
    omega

theorem hostLog_bytes {lim : ℕ} {log : List (Op × Reply)} (h : ∀ x ∈ log, packBytes x ≤ lim) :
    ∀ g ∈ hostLog log, g.bytes ≤ lim := by
  intro g hg
  obtain ⟨x, hx, hxg⟩ := List.mem_filterMap.1 hg
  rw [← packBytes_host hxg]
  exact h x hx

end Exchange

section Right

variable (B : Board) (pack : Mem) (cur : Option Dev)

/-- The loops of a transfer end before their fuel does. -/
structure RwEnds {σ : Type} (h : σ → Op → Reply × σ) (c : RwConf) : Prop where
  loop : ∀ (cur : Option Dev) (p : RwPos) (n : ℕ), p.remain.toNat ≤ n →
    Prog.Same h (rwLoop c cur n p) (rwLoop c cur p.remain.toNat p)
  skip : c.skip ≠ 0 → ∀ (cur : Option Dev) (n offs : ℕ) (leeway : ℤ), leeway.toNat ≤ n →
    skipBad cur c.skip n offs leeway = skipBad cur c.skip leeway.toNat offs leeway

/-- What is promised of a command against any host, device and hash engine: the packet buffer has
room for every transfer, the loops end, and a command that succeeds exchanges as many bytes as its
length says. -/
structure RwRight : Prop where
  small : ∀ {σ : Type} (h : σ → Op → Reply × σ), HashEngine h → ∀ s,
    ∀ x ∈ (Prog.run h (iuwProcessRw B pack cur) s).log, packBytes x ≤ rwRoom pack
  ends : ¬RwRefused B pack → ∀ {σ : Type} (h : σ → Op → Reply × σ) (cur : Option Dev) (skip : ℕ),
    RwEnds h (rwConf B pack cur skip)
  exchanged : ∀ {σ : Type} (h : σ → Op → Reply × σ), HashEngine h → ∀ s,
    (Prog.run h (iuwProcessRw B pack cur) s).val.1 = 0 →
      ∃ ns, Exchange pack ns (hostLog (Prog.run h (iuwProcessRw B pack cur) s).log) ∧
        ns.sum = rwLength pack

variable {B pack cur}

theorem rwRoom_ge : IUW_CMD_LEN ≤ rwRoom pack := by
  unfold rwRoom
  split_ifs <;> decide

theorem rwPiece_le (hfnd : rwDevice pack = DEV_FND → fndAlign B.nand ≤ IR_MAX_BUFFER) :
    rwPiece B pack ≤ rwRoom pack := by
  unfold rwPiece
  split_ifs with hf
  · rw [rwRoom_fnd hf]
    exact hfnd hf
  · exact le_rfl

theorem rwRight_of_fits (hfits : RwFits B pack) : RwRight B pack cur := by
  have hroom (hr : ¬RwRefused B pack) (hpos : 0 < rwRemain pack) :
      rwPiece B pack ≤ rwRoom pack := by
    obtain ⟨hlen, hfnd⟩ := hfits.resolve_left hr
    refine rwPiece_le fun hf => (hfnd hf).resolve_left fun h0 => ?_
    rw [rwRemain_eq, h0] at hpos
    exact absurd hpos (by decide)
  constructor
  · intro σ h he s
    obtain ⟨hs, hdid, -⟩ := iuwProcessRw_done rwRoom_ge he hroom cur s
    exact hdid.within
  · intro hr σ h cur skip
    exact {
      loop := fun cur p n hn => rwLoop_same cur (rwConf_for hr _ skip).pos _ _ p
        (by omega) (by omega)
      skip := fun hs cur n offs leeway hn => skipBad_fuel cur hs _ _ _ _ (by omega) (by omega) }
  · intro σ h he s h0
    obtain ⟨hs, hdid, hdone⟩ := iuwProcessRw_done rwRoom_ge he hroom cur s
    obtain ⟨hr, ns, hex, hns⟩ := hdone h0
    have hlen := (hfits.resolve_left hr).1
    refine ⟨ns, hdid.host.symm ▸ hex, hns.sum.trans ?_⟩
    rw [rwRemain_eq, s32_of_range (by omega) (by omega), Int.toNat_natCast]

theorem rwRoom_le : rwRoom pack ≤ IR_MAX_BUFFER := by
  unfold rwRoom
  split_ifs <;> decide

theorem fndSizeMatch_dvd {N : NandCfg} {size : ℕ} (h : fndSizeMatch N size = true) :
    fndAlign N ∣ size := by
  unfold fndSizeMatch at h
  rcases hnc : N.getConfig .normal with _ | nc
  · rw [hnc] at h
    exact absurd h (by simp)
  · rw [hnc, Option.elim_some, beq_iff_eq] at h
    rw [fndAlign, hnc, Option.elim_some]
    exact Nat.dvd_of_mod_eq_zero h

/-- With nothing to move, a length that the host exchanged is a small one. -/
theorem rwLength_small {log : List (Op × Reply)} (hsmall : ∀ x ∈ log, packBytes x ≤ IR_MAX_BUFFER)
    {ns : List ℕ} (h0 : Exchange pack [] (hostLog log)) (h : Exchange pack ns (hostLog log)) :
    ns.sum < 2 ^ 31 := by
  have hbytes := hostBytes_le (hostLog_bytes hsmall)
  have hlen := Nat.mul_le_mul_right IR_MAX_BUFFER h0.length_le
  have hbig : 8 * IR_MAX_BUFFER < 2 ^ 31 := by decide
  have := h.sum_le
  omega

theorem rwFits_of_right (hright : RwRight B pack cur) : RwFits B pack := by
  by_contra hnot
  have hr : ¬RwRefused B pack := fun h0 => hnot (.inl h0)
  have hzero : (Prog.run mute (iuwProcessRw B pack cur) ()).val.1 = 0 := iuwProcessRw_mute hr cur ()
  have hsmall := hright.small mute mute_engine ()
  obtain ⟨ns, hex, hsum⟩ := hright.exchanged mute mute_engine () hzero
  have hall : Prog.Traces mute (iuwProcessRw B pack cur) fun r l =>
      RwDone B pack (max (rwRoom pack) (rwPiece B pack)) r.1 l :=
    iuwProcessRw_done (rwRoom_ge.trans (le_max_left _ _)) mute_engine
      (fun _ _ => le_max_right _ _) cur
  obtain ⟨hs, hdid, hdone⟩ := hall ()
  obtain ⟨-, ns', hex', hns⟩ := hdone hzero
  obtain rfl := hdid.host
  have hlt := rwLength_lt pack
  by_cases hlen : rwLength pack < 2 ^ 31
  · have hrem : rwRemain pack = rwLength pack := by
      rw [rwRemain_eq, s32_of_range (by omega) (by omega)]
    refine hnot (.inr ⟨hlen, fun hf => ?_⟩)
    by_contra hbig
    obtain ⟨hne, hbig⟩ := not_or.1 hbig
    have hdvd : fndAlign B.nand ∣ rwLength pack :=
      fndSizeMatch_dvd (by_contra fun h0 => hr (.inr (.inr ⟨hf, h0⟩)))
    have hle := Nat.le_of_dvd (Nat.pos_of_ne_zero hne) hdvd
    have hfirst := hns.first (by omega)
    rw [rwPiece, if_pos hf, hrem, min_eq_right (by exact_mod_cast hle), Int.toNat_natCast] at hfirst
    obtain ⟨g, hg, hgb⟩ := hex'.mem hfirst
    have := hostLog_bytes hsmall g hg
    rw [hgb, rwRoom_fnd hf] at this
    exact hbig this
  · have hneg : rwRemain pack ≤ 0 := by
      rw [rwRemain_eq, s32, Int.bmod_def]
      split <;> omega
    obtain rfl := hns.eq_nil hneg
    have := rwLength_small (fun x hx => (hsmall x hx).trans rwRoom_le) hex' hex
    omega

/-- `iuw_process_rw` does what the command says exactly if the command is turned down, or its length
is below 2 GiB and a page of the system area has room in the packet buffer. -/
theorem iuw_process_rw_right_iff (B : Board) (pack : Mem) (cur : Option Dev) :
    RwRight B pack cur ↔ RwFits B pack :=
  ⟨rwFits_of_right, rwRight_of_fits⟩

/-- A request to write 2 GiB to the memory. -/
def twoGib : Mem := iuwPackCmd (fun _ => 0) IUW_CMD_MMWR 0x80008000 0x80000000

theorem iuw_process_rw_two_gib : ¬RwRight bareBoard twoGib none := by
  intro h
  have hdev : rwDevice twoGib = DEV_NONE := by decide
  have hlen : rwLength twoGib = 2 ^ 31 := by decide
  rcases rwFits_of_right h with (⟨hd, -⟩ | ⟨hd, -⟩ | ⟨hd, -⟩) | ⟨hlt, -⟩
  · exact hd hdev
  · rw [hdev] at hd
    exact absurd hd (by decide)
  · rw [hdev] at hd
    exact absurd hd (by decide)
  · omega

end Right

end InfotmUboot
