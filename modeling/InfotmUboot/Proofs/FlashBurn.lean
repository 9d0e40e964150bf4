import InfotmUboot.Proofs.SpiFlash
import InfotmUboot.Proofs.BurnRun
import InfotmUboot.Proofs.Geometry
import InfotmUboot.Proofs.Server

/-!
# Burning an image to the SPI flash

The chip over a run of `burn_image_loop`. The driver erases all of it whatever the region, so what
lies around the region stays only where it was erased before.
-/

namespace InfotmUboot

open Lib

namespace SpiChip

/-- The chip after an operation of the strategy code. -/
def op (c : SpiChip) : Op → SpiChip
  | .erase .flash offs len => c.frames (X800a.flashVsErase offs len)
  | .write .flash offs data => c.frames (X800a.flashVsWrite data offs)
  | _ => c

def after (c : SpiChip) (log : List (Op × Reply)) : SpiChip := log.foldl (fun c x => c.op x.1) c

end SpiChip

/-- The sectors of a chip, which are of whole pages. -/
structure FlashSectors where
  size : ℕ
  pos : 0 < size
  pages : 256 ∣ size

/-- The sector of `a` has a byte of the region. -/
def FlashSectors.Touched (S : FlashSectors) (offs max a : ℕ) : Prop :=
  ∃ b, offs ≤ b ∧ b < offs + max ∧ a / S.size = b / S.size

/-- A burn from the device `idI` leaves what is outside of the sectors of its region as it was in
`m`, whatever the source has. -/
def FlashBurnKeeps (S : FlashSectors) (B : Board) (desc : IusDesc) (idI : ℤ) (max : ℕ) (m : Mem) :
    Prop :=
  ∀ (σ : Type) (h : σ → Op → Reply × σ) (e : σ) (wel : Bool) (buf : Mem) (bufAt : ℕ),
    ∀ a < 2 ^ 24, ¬S.Touched desc.offo max a →
      (SpiChip.after ⟨m, wel⟩
        (Prog.run h (burnImageLoop B desc idI Dev.flash.id max buf bufAt) e).log).mem a = m a

theorem FlashSectors.touched_page (S : FlashSectors) {offs max a b : ℕ} (h : a / 256 = b / 256) :
    S.Touched offs max a ↔ S.Touched offs max b := by
  obtain ⟨q, hq⟩ := S.pages
  unfold FlashSectors.Touched
  rw [hq, ← Nat.div_div_eq_div_mul, ← Nat.div_div_eq_div_mul, h]

section Chip

variable {m : Mem} {a : ℕ}

theorem store_one (m : Mem) (a x : ℕ) (b : UInt8) :
    m.store a [b] x = if x = a then b else m x := by
  unfold Mem.store
  rw [List.length_singleton]
  split_ifs with h1 h2 h2
  · simp [h2]
  · omega
  · omega
  · rfl

/-- Programming does not set a bit. -/
theorem program_zero : ∀ {bs : List UInt8} {m : Mem} {a x : ℕ}, m x = 0 →
    SpiChip.program m a bs x = 0
  | [], _, _, _, h => h
  | b :: bs, m, a, x, h => by
    rw [SpiChip.program]
    refine program_zero ?_
    rw [store_one]
    split_ifs with hx
    · rw [← hx, h, UInt8.zero_and]
    · exact h

theorem program_first {b : UInt8} {bs : List UInt8} (hb : b = 0) :
    SpiChip.program m a (b :: bs) a = 0 := by
  rw [SpiChip.program]
  refine program_zero ?_
  rw [store_one, if_pos rfl, hb, UInt8.and_zero]

theorem program_ones : ∀ {bs : List UInt8} {m : Mem} {a : ℕ}, (∀ b ∈ bs, b = 0xff) →
    SpiChip.program m a bs = m
  | [], _, _, _ => rfl
  | b :: bs, m, a, h => by
    have hand : m a &&& 0xff = m a := UInt8.and_neg_one
    rw [SpiChip.program, program_ones fun b' hb' => h b' (List.mem_cons_of_mem _ hb'),
      h b List.mem_cons_self, hand]
    funext x
    rw [store_one]
    split_ifs with hx
    · rw [hx]
    · rfl

theorem frames_pieces (dummy : UInt8) : ∀ (ps : List (ℕ × List UInt8)) (c : SpiChip),
    (c.frames (ps.flatMap (issue dummy))).mem =
      ps.foldl (fun m p => SpiChip.program m (p.1 % 2 ^ 24) p.2) c.mem
  | [], _ => rfl
  | p :: ps, c => by
    rw [List.flatMap_cons, frames_append, frames_pieces dummy ps, frames_issue, List.foldl_cons]

theorem mem_blind : ∀ {n offs : ℕ} {data : List UInt8} {p : ℕ × List UInt8},
    p ∈ blindPieces n offs data → ∃ i, p.1 = offs + 256 * i ∧ 256 * i < data.length
  | 0, _, _, _, hp => absurd hp List.not_mem_nil
  | n + 1, offs, data, p, hp => by
    rw [blindPieces] at hp
    split_ifs at hp with hd hs
    · exact absurd hp List.not_mem_nil
    · rcases List.mem_cons.1 hp with rfl | hp
      · exact ⟨0, rfl, by omega⟩
      · obtain ⟨i, -, hi⟩ := mem_blind hp
        rw [List.length_drop] at hi
        omega
    · rcases List.mem_cons.1 hp with rfl | hp
      · exact ⟨0, rfl, by omega⟩
      · obtain ⟨i, hp1, hi⟩ := mem_blind hp
        unfold spibytes at hp1 hi
        rw [List.length_drop] at hi
        exact ⟨i + 1, by omega, by omega⟩

theorem data_blind : ∀ {n offs : ℕ} {data : List UInt8} {p : ℕ × List UInt8},
    p ∈ blindPieces n offs data → p.2 ≠ [] ∧ ∀ b ∈ p.2, b ∈ data
  | 0, _, _, _, hp => absurd hp List.not_mem_nil
  | n + 1, offs, data, p, hp => by
    have hcut (len : ℕ) (hlen : 0 < len) (hd : data.length ≠ 0) :
        data.take len ≠ [] ∧ ∀ b ∈ data.take len, b ∈ data := by
      refine ⟨fun h0 => ?_, fun b hb => List.mem_of_mem_take hb⟩
      have := congrArg List.length h0
      rw [List.length_take, List.length_nil] at this
      omega
    rw [blindPieces] at hp
    unfold spibytes at hp
    split_ifs at hp with hd hs
    · exact absurd hp List.not_mem_nil
    · rcases List.mem_cons.1 hp with rfl | hp
      · exact hcut _ (by omega) hd
      · obtain ⟨hne, hin⟩ := data_blind hp
        exact ⟨hne, fun b hb => List.mem_of_mem_drop (hin b hb)⟩
    · rcases List.mem_cons.1 hp with rfl | hp
      · exact hcut _ (by omega) hd
      · obtain ⟨hne, hin⟩ := data_blind hp
        exact ⟨hne, fun b hb => List.mem_of_mem_drop (hin b hb)⟩

theorem blind_mem : ∀ {n offs i : ℕ} {data : List UInt8}, data.length < n → 256 * i < data.length →
    ∃ p ∈ blindPieces n offs data, p.1 = offs + 256 * i
  | n + 1, offs, i, data, hn, hi => by
    rw [blindPieces, if_neg (by omega)]
    unfold spibytes
    rcases i with _ | i
    · exact ⟨_, List.mem_cons_self, rfl⟩
    · rw [if_neg (by omega)]
      have hlen : (data.drop 256).length = data.length - 256 := List.length_drop
      obtain ⟨p, hp, hp1⟩ := @blind_mem n (offs + 256) i (data.drop 256) (by omega) (by omega)
      exact ⟨p, List.mem_cons_of_mem _ hp, by omega⟩

variable {o : ℕ} {data : List UInt8} (c : SpiChip)

theorem write_mem : (c.op (.write .flash o data)).mem =
    (blindPieces (data.length + 1) o data).foldl
      (fun m p => SpiChip.program m (p.1 % 2 ^ 24) p.2) c.mem := by
  have hop : c.op (.write .flash o data) = c.frames (X800a.flashVsWrite data o) := rfl
  rw [hop, flashVsWrite_x800a, frames_pieces]

theorem foldl_other : ∀ {ps : List (ℕ × List UInt8)} {m : Mem},
    (∀ p ∈ ps, a / 256 ≠ p.1 % 2 ^ 24 / 256) →
      ps.foldl (fun m p => SpiChip.program m (p.1 % 2 ^ 24) p.2) m a = m a
  | [], _, _ => rfl
  | p :: ps, m, h => by
    rw [List.foldl_cons, foldl_other fun q hq => h q (List.mem_cons_of_mem _ hq),
      SpiChip.program_other (h p List.mem_cons_self)]

theorem foldl_zero : ∀ {ps : List (ℕ × List UInt8)} {m : Mem}, m a = 0 →
    ps.foldl (fun m p => SpiChip.program m (p.1 % 2 ^ 24) p.2) m a = 0
  | [], _, h => h
  | p :: ps, m, h => by
    rw [List.foldl_cons]
    exact foldl_zero (program_zero h)

/-- A piece of zeros leaves one where it starts. -/
theorem foldl_clears : ∀ {ps : List (ℕ × List UInt8)} {m : Mem},
    (∀ p ∈ ps, p.2 ≠ [] ∧ ∀ b ∈ p.2, b = 0) → (∃ p ∈ ps, p.1 % 2 ^ 24 = a) →
      ps.foldl (fun m p => SpiChip.program m (p.1 % 2 ^ 24) p.2) m a = 0
  | [], _, _, ⟨_, hp, _⟩ => absurd hp List.not_mem_nil
  | q :: ps, m, h, ⟨p, hp, hpa⟩ => by
    rw [List.foldl_cons]
    rcases List.mem_cons.1 hp with rfl | hp
    · obtain ⟨hne, hall⟩ := h p List.mem_cons_self
      obtain ⟨b, bs, hbs⟩ := List.exists_cons_of_ne_nil hne
      rw [hpa, hbs]
      exact foldl_zero (program_first (hall b (hbs ▸ List.mem_cons_self)))
    · exact foldl_clears (fun r hr => h r (List.mem_cons_of_mem _ hr)) ⟨p, hp, hpa⟩

theorem foldl_ones : ∀ {ps : List (ℕ × List UInt8)} {m : Mem}, (∀ p ∈ ps, ∀ b ∈ p.2, b = 0xff) →
    ps.foldl (fun m p => SpiChip.program m (p.1 % 2 ^ 24) p.2) m = m
  | [], _, _ => rfl
  | p :: ps, m, h => by
    rw [List.foldl_cons, program_ones (h p List.mem_cons_self)]
    exact foldl_ones fun q hq => h q (List.mem_cons_of_mem _ hq)

end Chip

section After

variable (c : SpiChip)

theorem after_append (l l' : List (Op × Reply)) : c.after (l ++ l') = (c.after l).after l' :=
  List.foldl_append

theorem after_cons (x : Op × Reply) (l : List (Op × Reply)) :
    c.after (x :: l) = (c.op x.1).after l := rfl

/-- An operation that leaves the chip alone. -/
def Op.Quiet (o : Op) : Prop :=
  (∀ offs len, o ≠ .erase .flash offs len) ∧ ∀ offs data, o ≠ .write .flash offs data

theorem op_quiet {o : Op} (h : o.Quiet) : c.op o = c := by
  unfold SpiChip.op
  split
  · exact absurd rfl (h.1 _ _)
  · exact absurd rfl (h.2 _ _)
  · rfl

theorem after_quiet : ∀ {log : List (Op × Reply)} {c : SpiChip}, (∀ x ∈ log, x.1.Quiet) →
    c.after log = c
  | [], _, _ => rfl
  | x :: log, c, h => by
    rw [after_cons, op_quiet c (h x List.mem_cons_self),
      after_quiet fun y hy => h y (List.mem_cons_of_mem _ hy)]

theorem quiet_read (d : Dev) (s : ℕ) (n : ℤ) : (Op.read d s n).Quiet := ⟨nofun, nofun⟩

theorem quiet_aesData (bs : List UInt8) : (Op.aesData bs).Quiet := ⟨nofun, nofun⟩

theorem quiet_aesInit (o : ℕ) (k : Option (List UInt8)) : (Op.aesInit o k).Quiet := ⟨nofun, nofun⟩

end After

theorem burnEncrypt_quiet (type : ℕ) (idI : ℤ) (offsI : ℕ) (buf : Mem) (bufAt : ℕ) :
    (burnEncrypt type idI offsI buf bufAt).Asks Op.Quiet := by
  unfold burnEncrypt
  rw [vsAssignById_false, pure_bind]
  dsimp only
  split_ifs
  · exact Prog.asks_pure _
  · refine Prog.Asks.bind ((vsRead_asks _ _ _).mono fun o ho => ?_) fun r => ?_
    · obtain ⟨d, -, rfl⟩ := ho
      exact quiet_read _ _ _
    · split_ifs
      · exact Prog.Asks.bind ((Prog.asks_op _).2 (quiet_aesInit _ _)) fun _ => Prog.asks_pure _
      · exact Prog.asks_pure _

section Source

variable {σ : Type} (h : σ → Op → Reply × σ) {v : UInt8}

/-- All that comes from the environment is `v`. -/
def Says (v : UInt8) : Prop := ∀ e o, ∀ b ∈ (h e o).1.data, b = v

theorem store_const {bs : List UInt8} {a : ℕ} (hb : ∀ b ∈ bs, b = v) :
    Mem.store (fun _ => v) a bs = fun _ => v := by
  funext x
  unfold Mem.store
  split_ifs with hx
  · rw [List.getD_eq_getElem _ _ (by omega)]
    exact hb _ (List.getElem_mem _)
  · rfl

theorem mem_load_const {a n : ℕ} {b : UInt8} (hb : b ∈ Mem.load (fun _ => v) a n) : b = v := by
  obtain ⟨i, -, rfl⟩ := List.mem_map.1 hb
  rfl

variable {h} (hs : Says h v)

include hs

theorem vsRead_const (cur : Option Dev) (s : ℕ) (n : ℤ) (e : σ) :
    ∀ b ∈ (Prog.run h (vsRead cur s n) e).val.2, b = v := by
  unfold vsRead
  rcases cur with _ | d
  · exact fun b hb => absurd hb List.not_mem_nil
  · dsimp only
    by_cases hr : ¬d.entry.read = true
    · rw [if_pos hr]
      exact fun b hb => absurd hb List.not_mem_nil
    by_cases hn : n = 0
    · rw [if_neg hr, if_pos hn]
      exact fun b hb => absurd hb List.not_mem_nil
    · rw [if_neg hr, if_neg hn]
      exact hs e _

/-- A buffer of `v` stays one. -/
theorem burnFetch_const {c : BurnConf} {p : BurnPos} (hbuf : p.buf = fun _ => v) (e : σ) :
    (Prog.run h (burnFetch c p) e).val = fun _ => v := by
  unfold burnFetch
  rw [vsAssignById_false, pure_bind, Prog.run_bind_val, hbuf,
    store_const fun b hb => vsRead_const hs _ _ _ _ b (List.mem_of_mem_take hb)]
  split_ifs
  · unfold ssAesData
    rw [Prog.run_bind_val]
    exact store_const fun b hb => hs _ _ b (List.mem_of_mem_take hb)
  · rfl

theorem burnEncrypt_const (type : ℕ) (idI : ℤ) (offsI bufAt : ℕ) (e : σ) :
    (Prog.run h (burnEncrypt type idI offsI (fun _ => v) bufAt) e).val.2 = fun _ => v := by
  unfold burnEncrypt
  rw [vsAssignById_false, pure_bind]
  dsimp only
  split_ifs
  · rfl
  · rw [Prog.run_bind_val,
      store_const fun b hb => vsRead_const hs _ _ _ _ b (List.mem_of_mem_take hb)]
    split_ifs <;> rfl

end Source

section Rounds

variable {σ : Type} (h : σ → Op → Reply × σ) (c : BurnConf)

/-- A loop that writes to the flash, in chunks of `IR_MAX_BUFFER` bytes. -/
structure BurnConf.ToFlash : Prop where
  dev : Dev.ofId c.idO = some .flash
  noSkip : c.skip = 0
  unit : c.unit = IR_MAX_BUFFER
  step : c.step = IR_MAX_BUFFER

variable {c} (hc : c.ToFlash)

include hc

theorem burnPlace_flash (p : BurnPos) : burnPlace c p =
    Prog.op (.write .flash p.offsO (p.data c)) >>= fun _ => pure (true, p.offsO, p.leeway) := by
  have hdata : p.data c ≠ [] := (p.data_ne_nil c).2 (by rw [hc.unit]; decide)
  have hwrite : vsWrite (some .flash) p.offsO (p.data c) =
      Prog.op (.write .flash p.offsO (p.data c)) >>= fun r => pure r.ret := by
    unfold vsWrite
    rw [if_neg hdata]
    rfl
  have hskip : burnSkip c .flash p = pure (true, p.offsO, p.leeway) := by
    unfold burnSkip
    exact if_neg fun h0 => h0.1 hc.noSkip
  rw [burnPlace_eq c hc.dev, hskip, pure_bind, if_pos rfl, hwrite]
  simp only [bind_assoc, pure_bind]

/-- What a round does to the chip: one write, at the offset that the loop has come to. -/
theorem burnLoop_round (n : ℕ) {p : BurnPos} (hp : p.remain ≠ 0) (e : σ) (chip : SpiChip) :
    ∃ e' : σ, chip.after (Prog.run h (burnLoop c (n + 1) p) e).log =
      (chip.op (.write .flash p.offsO
        ((Prog.run h (burnFetch c p) e).val.load p.bufAt IR_MAX_BUFFER))).after
        (Prog.run h (burnLoop c n
          (p.next c (Prog.run h (burnFetch c p) e).val p.offsO p.leeway)) e').log := by
  have hfetch : chip.after (Prog.run h (burnFetch c p) e).log = chip := after_quiet fun x hx => by
    rcases (burnFetch_asks c p).log h e x hx with ⟨d, -, ho⟩ | ⟨bs, ho⟩
    · exact ho ▸ quiet_read _ _ _
    · exact ho ▸ quiet_aesData _
  set f := Prog.run h (burnFetch c p) e
  have hdata : ({ p with buf := f.val } : BurnPos).data c = f.val.load p.bufAt IR_MAX_BUFFER := by
    rw [BurnPos.data, hc.unit]
  refine ⟨(h f.env (.write .flash p.offsO (f.val.load p.bufAt IR_MAX_BUFFER))).2, ?_⟩
  rw [burnLoop_succ h c n hp e, burnPlace_flash hc, Prog.run_bind, hdata]
  simp only [Prog.run_op, Prog.run_pure, if_true, List.append_nil]
  rw [after_append, hfetch, List.singleton_append, after_cons]

/-- Bytes of pages where no piece starts stay as they are. -/
theorem burnLoop_other {a : ℕ} : ∀ {n : ℕ} {p : BurnPos} {e : σ} {chip : SpiChip},
    (∀ j < 64 * chunks p.remain IR_MAX_BUFFER, a / 256 ≠ (p.offsO + 256 * j) % 2 ^ 24 / 256) →
      (chip.after (Prog.run h (burnLoop c n p) e).log).mem a = chip.mem a
  | 0, _, _, _, _ => rfl
  | n + 1, p, e, chip, ha => by
    by_cases hp : p.remain = 0
    · rw [burnLoop_zero c _ hp]
      rfl
    · obtain ⟨e', hround⟩ := burnLoop_round h hc n hp e chip
      rw [chunks_sub (by decide) hp] at ha
      rw [hround, burnLoop_other, write_mem, foldl_other fun q hq => ?_]
      · obtain ⟨i, hq1, hi⟩ := mem_blind hq
        rw [Mem.length_load] at hi
        rw [hq1]
        refine ha i ?_
        unfold IR_MAX_BUFFER at hi
        omega
      · intro j hj
        rw [next_remain, hc.step] at hj
        rw [next_offsO, hc.step]
        have := ha (j + 64) (by omega)
        rwa [show p.offsO + 256 * (j + 64) = p.offsO + IR_MAX_BUFFER + 256 * j by
          unfold IR_MAX_BUFFER
          omega] at this

/-- A byte of zero stays, -/
theorem burnLoop_zeros {a : ℕ} : ∀ {n : ℕ} {p : BurnPos} {e : σ} {chip : SpiChip},
    chip.mem a = 0 → (chip.after (Prog.run h (burnLoop c n p) e).log).mem a = 0
  | 0, _, _, _, ha => ha
  | n + 1, p, e, chip, ha => by
    by_cases hp : p.remain = 0
    · rw [burnLoop_zero c _ hp]
      exact ha
    · obtain ⟨e', hround⟩ := burnLoop_round h hc n hp e chip
      rw [hround]
      refine burnLoop_zeros ?_
      rw [write_mem]
      exact foldl_zero ha

/-- and so does a chip that has nothing but ones, while nothing but ones comes from the source. -/
theorem burnLoop_ones (hs : Says h 0xff) : ∀ {n : ℕ} {p : BurnPos} {e : σ} {chip : SpiChip},
    p.buf = (fun _ => 0xff) →
      (chip.after (Prog.run h (burnLoop c n p) e).log).mem = chip.mem
  | 0, _, _, _, _ => rfl
  | n + 1, p, e, chip, hbuf => by
    by_cases hp : p.remain = 0
    · rw [burnLoop_zero c _ hp]
      rfl
    · obtain ⟨e', hround⟩ := burnLoop_round h hc n hp e chip
      rw [burnFetch_const hs hbuf] at hround
      rw [hround, burnLoop_ones hs rfl, write_mem]
      exact foldl_ones fun q hq b hb => mem_load_const ((data_blind hq).2 b hb)

/-- Zeros from the source leave one where a piece starts. -/
theorem burnLoop_clears (hs : Says h 0) {a : ℕ} :
    ∀ {n : ℕ} {p : BurnPos} {e : σ} {chip : SpiChip}, p.remain ≤ n → p.buf = (fun _ => 0) →
      (∃ j < 64 * chunks p.remain IR_MAX_BUFFER, (p.offsO + 256 * j) % 2 ^ 24 = a) →
        (chip.after (Prog.run h (burnLoop c n p) e).log).mem a = 0
  | 0, p, _, _, hn, _, hj => by
    obtain ⟨j, hj, -⟩ := hj
    rw [show p.remain = 0 by omega, chunks_zero (by decide)] at hj
    omega
  | n + 1, p, e, chip, hn, hbuf, hj => by
    obtain ⟨j, hj, ha⟩ := hj
    by_cases hp : p.remain = 0
    · rw [hp, chunks_zero (by decide)] at hj
      omega
    · obtain ⟨e', hround⟩ := burnLoop_round h hc n hp e chip
      rw [burnFetch_const hs hbuf] at hround
      rw [hround]
      rw [chunks_sub (by decide) hp] at hj
      by_cases hfirst : j < 64
      · refine burnLoop_zeros h hc ?_
        rw [write_mem]
        refine foldl_clears (fun q hq => ?_) ?_
        · obtain ⟨hne, hin⟩ := data_blind hq
          exact ⟨hne, fun b hb => mem_load_const (hin b hb)⟩
        · have hin : 256 * j < (Mem.load (fun _ => 0) p.bufAt IR_MAX_BUFFER).length := by
            rw [Mem.length_load]
            unfold IR_MAX_BUFFER
            omega
          obtain ⟨q, hq, hq1⟩ := blind_mem (Nat.lt_succ_self _) hin
          exact ⟨q, hq, hq1 ▸ ha⟩
      · refine burnLoop_clears hs ?_ rfl ⟨j - 64, ?_, ?_⟩
        · rw [next_remain, hc.step]
          unfold IR_MAX_BUFFER
          omega
        · rw [next_remain, hc.step]
          omega
        · rw [next_offsO, hc.step, ← ha]
          unfold IR_MAX_BUFFER
          congr 1
          omega

end Rounds

section Image

variable {S : FlashSectors} {B : Board} {desc : IusDesc} {idI : ℤ} {max : ℕ} {m : Mem}

theorem type_of_flash (ht : burnTarget desc = Dev.flash.id) : desc.type ≠ IUS_DESC_STNF := by
  intro hf
  unfold burnTarget at ht
  rw [if_neg (by rw [hf]; decide), if_neg (by rw [hf]; decide), if_pos hf] at ht
  exact absurd ht (by decide)

theorem burnConf_toFlash (ht : desc.type ≠ IUS_DESC_STNF) (enc : Bool) :
    (burnConf B desc idI Dev.flash.id enc).ToFlash where
  dev := rfl
  noSkip := by
    unfold burnConf
    dsimp only
    rw [burnIsNand_of_ofId Dev.flash.id (Dev.ofId_id .flash)]
    rfl
  unit := by
    unfold burnConf
    dsimp only
    rw [if_neg ht, if_neg ht]
  step := by
    unfold burnConf
    dsimp only
    rw [if_neg ht]

theorem burnRefusal_flash (ht : desc.type ≠ IUS_DESC_STNF) :
    burnRefusal B desc idI Dev.flash.id = none := by
  unfold burnRefusal
  rw [if_neg fun h => ht h.1, burnIsNand_of_ofId Dev.flash.id (Dev.ofId_id .flash)]
  exact if_neg fun h => absurd h.1 (by decide)

theorem burnRemain_flash (ht : desc.type ≠ IUS_DESC_STNF) :
    burnRemain B desc (Dev.ofId idI) Dev.flash.id = desc.len := by
  unfold burnRemain
  rw [vsIsDevice_of_ofId Dev.flash.id (Dev.ofId_id .flash), if_neg fun h => absurd h.1 (by decide),
    if_neg ht]

variable {σ : Type} (h : σ → Op → Reply × σ)

/-- All of the chip is erased in front of the loop. -/
theorem burnPrelude_erases (buf : Mem) (bufAt : ℕ) (e : σ) (chip : SpiChip) :
    (chip.after (Prog.run h (burnPrelude desc idI Dev.flash.id max buf bufAt) e).log).mem =
      fun _ => 0xff := by
  have hp : burnPrelude desc idI Dev.flash.id max buf bufAt =
      Prog.op (.erase .flash desc.offo max) >>= fun _ =>
        burnEncrypt desc.type idI desc.offi buf bufAt := rfl
  have henc (e : σ) (chip : SpiChip) :
      chip.after (Prog.run h (burnEncrypt desc.type idI desc.offi buf bufAt) e).log = chip :=
    after_quiet fun x hx => (burnEncrypt_quiet _ _ _ _ _).log h e x hx
  rw [hp, Prog.run_bind_log, Prog.run_op, List.singleton_append, after_cons, henc]
  rfl

/-- The chip after a burn is the erased one after the loop. -/
theorem burnImageLoop_chip (ht : desc.type ≠ IUS_DESC_STNF) (hne : idI ≠ Dev.flash.id) (buf : Mem)
    (bufAt : ℕ) (e : σ) (chip : SpiChip) : ∃ (e' : σ) (enc : Bool) (buf' : Mem) (chip' : SpiChip),
      chip'.mem = (fun _ => 0xff) ∧
      buf' = (Prog.run h (burnPrelude desc idI Dev.flash.id max buf bufAt) e).val.2 ∧
      chip.after (Prog.run h (burnImageLoop B desc idI Dev.flash.id max buf bufAt) e).log =
        chip'.after (Prog.run h (burnLoop (burnConf B desc idI Dev.flash.id enc) desc.len
          (burnStart B desc idI Dev.flash.id max buf' bufAt)) e').log := by
  have hmem := @burnPrelude_erases desc idI max σ h buf bufAt e chip
  refine ⟨(Prog.run h (burnPrelude desc idI Dev.flash.id max buf bufAt) e).env,
    (Prog.run h (burnPrelude desc idI Dev.flash.id max buf bufAt) e).val.1, _, _, hmem, rfl, ?_⟩
  rw [burnImageLoop_run h B desc idI Dev.flash.id max buf bufAt hne (burnRefusal_flash ht) e,
    after_append, burnRemain_flash ht]

theorem burnStart_remain (ht : desc.type ≠ IUS_DESC_STNF) (buf : Mem) (bufAt : ℕ) :
    (burnStart B desc idI Dev.flash.id max buf bufAt).remain = desc.len :=
  @burnRemain_flash B desc idI ht

theorem burnPrelude_const {v : UInt8} (hs : Says h v) (bufAt : ℕ) (e : σ) :
    (Prog.run h (burnPrelude desc idI Dev.flash.id max (fun _ => v) bufAt) e).val.2 =
      fun _ => v := by
  have hp : burnPrelude desc idI Dev.flash.id max (fun _ => v) bufAt =
      Prog.op (.erase .flash desc.offo max) >>= fun _ =>
        burnEncrypt desc.type idI desc.offi (fun _ => v) bufAt := rfl
  rw [hp, Prog.run_bind_val]
  exact burnEncrypt_const hs _ _ _ _ _

/-- The source is the chip itself, which is refused, or what is outside of the region was erased and
no piece starts there. -/
def FlashBurnHarmless (S : FlashSectors) (desc : IusDesc) (idI : ℤ) (max : ℕ) (m : Mem) : Prop :=
  idI = Dev.flash.id ∨ (∀ a < 2 ^ 24, ¬S.Touched desc.offo max a → m a = 0xff) ∧
    ∀ j < 64 * chunks desc.len IR_MAX_BUFFER, S.Touched desc.offo max
      ((desc.offo + 256 * j) % 2 ^ 24)

/-- An environment that has one value only. -/
def sameValue (v : UInt8) : Unit → Op → Reply × Unit
  | _, .read _ _ n => (⟨n, List.replicate n.toNat v⟩, ())
  | _, .aesData data => (⟨0, List.replicate data.length v⟩, ())
  | _, _ => (⟨0, []⟩, ())

theorem says_sameValue (v : UInt8) : Says (sameValue v) v := fun e o b hb => by
  unfold sameValue at hb
  split at hb
  · exact List.eq_of_mem_replicate hb
  · exact List.eq_of_mem_replicate hb
  · exact absurd hb List.not_mem_nil

theorem FlashBurnKeeps.harmless (ht : desc.type ≠ IUS_DESC_STNF)
    (hk : FlashBurnKeeps S B desc idI max m) : FlashBurnHarmless S desc idI max m := by
  by_cases hne : idI = Dev.flash.id
  · exact Or.inl hne
  have hones : ∀ a < 2 ^ 24, ¬S.Touched desc.offo max a → m a = 0xff := fun a ha hout => by
    rw [← hk Unit (sameValue 0xff) () false (fun _ => 0xff) 0 a ha hout]
    obtain ⟨e', enc, buf', chip', hmem, hbuf, hlog⟩ :=
      @burnImageLoop_chip B desc idI max Unit (sameValue 0xff) ht hne (fun _ => 0xff) 0
        () ⟨m, false⟩
    rw [burnPrelude_const _ (says_sameValue _)] at hbuf
    rw [hlog, burnLoop_ones _ (burnConf_toFlash ht enc) (says_sameValue _) hbuf, hmem]
  refine Or.inr ⟨hones, fun j hj => ?_⟩
  by_contra hout
  have ha : (desc.offo + 256 * j) % 2 ^ 24 < 2 ^ 24 := Nat.mod_lt _ (by norm_num)
  have hff := hones _ ha hout
  rw [← hk Unit (sameValue 0) () false (fun _ => 0) 0 _ ha hout] at hff
  obtain ⟨e', enc, buf', chip', hmem, hbuf, hlog⟩ :=
    @burnImageLoop_chip B desc idI max Unit (sameValue 0) ht hne (fun _ => 0) 0 () ⟨m, false⟩
  rw [burnPrelude_const _ (says_sameValue _)] at hbuf
  have hlen := @burnStart_remain B desc idI max ht buf' 0
  have hzero := @burnLoop_clears Unit (sameValue 0) _
    (@burnConf_toFlash B desc idI ht enc) (says_sameValue 0) _ _ _ e' chip' hlen.le
    hbuf ⟨j, hlen.symm ▸ hj, rfl⟩
  rw [hlog] at hff
  exact absurd (hff.symm.trans hzero) (by decide)

/-- A burn to the flash keeps what is around its region just where there was nothing to keep, and
where its writes stay inside. -/
theorem flash_burn_keeps_iff (S : FlashSectors) (B : Board) (desc : IusDesc) (idI : ℤ) (max : ℕ)
    (m : Mem) (ht : burnTarget desc = Dev.flash.id) :
    FlashBurnKeeps S B desc idI max m ↔ FlashBurnHarmless S desc idI max m := by
  have ht := type_of_flash ht
  constructor
  · exact fun hk => hk.harmless ht
  · intro hh σ h e wel buf bufAt a ha hout
    by_cases hne : idI = Dev.flash.id
    · unfold burnImageLoop
      rw [if_pos hne]
      rfl
    obtain ⟨hones, hin⟩ := hh.resolve_left hne
    obtain ⟨e', enc, buf', chip', hmem, -, hlog⟩ :=
      @burnImageLoop_chip B desc idI max σ h ht hne buf bufAt e ⟨m, wel⟩
    rw [hlog, burnLoop_other h (burnConf_toFlash ht enc) fun j hj hpage => ?_, hmem,
      hones a ha hout]
    rw [burnStart_remain ht] at hj
    exact hout ((S.touched_page hpage).2 (hin j hj))

/-- An image of 16 KiB for the first 256 KiB of the flash. -/
def flashImage : IusDesc := ⟨0x02000000, 0, 0x00040000, 0x4000⟩

/-- Sectors of 64 KiB. -/
def flashSectors : FlashSectors := ⟨2 ^ 16, by norm_num, by decide⟩

theorem flash_burn_keeps_iff_image :
    burnTarget flashImage = Dev.flash.id ∧
      (FlashBurnKeeps flashSectors bareBoard flashImage Dev.mmc0.id flashImage.maxsize
        (fun _ => 0) ↔
        FlashBurnHarmless flashSectors flashImage Dev.mmc0.id flashImage.maxsize fun _ => 0) :=
  ⟨by decide, flash_burn_keeps_iff _ _ _ _ _ _ (by decide)⟩

/-- The next image, behind it, is gone. -/
theorem flash_burn_keeps_fails :
    ¬∀ (S : FlashSectors) (B : Board) (desc : IusDesc) (idI : ℤ) (max : ℕ) (m : Mem),
      burnTarget desc = Dev.flash.id → FlashBurnKeeps S B desc idI max m := by
  intro h
  have hk := h flashSectors bareBoard flashImage Dev.mmc0.id flashImage.maxsize (fun _ => 0)
    (by decide)
  obtain hf | ⟨hones, -⟩ := hk.harmless (by decide)
  · exact absurd hf (by decide)
  · refine absurd (hones (2 ^ 18) (by norm_num) ?_) (by decide)
    rintro ⟨b, -, hb, hab⟩
    have hmax : flashImage.offo + flashImage.maxsize = 2 ^ 18 := by decide
    have hsize : flashSectors.size = 2 ^ 16 := rfl
    rw [hsize] at hab
    omega

end Image

end InfotmUboot
