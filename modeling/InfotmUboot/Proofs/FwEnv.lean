import InfotmUboot.FwEnv
import InfotmUboot.Proofs.EnvNandRun
import InfotmUboot.Proofs.ErasedCrc

/-!
# The environment tool beside U-Boot

The tool and U-Boot find the same copies in the flash (`flashReadBuf_readenv`), and what the tool
has written U-Boot reads (`flashWriteBuf_reads`). So in a history of saves by both the flags of the
copy that was written last are one more than those of the other; U-Boot takes it, and so does the
tool, but where its comparison of two `char`s goes wrong (`envs_agree_iff`).
-/

namespace InfotmUboot

open Lib

/-- The two programs are configured for the same copies, of a part of a block or of whole blocks. -/
structure FwEnv.Same (f : FwEnv) : Prop where
  valid : f.regions.Valid
  aligned : ∀ dev, f.devoff dev % f.blocklen = 0
  range : f.regions.envSize ≤ f.regions.envRange
  sectors : f.envSectors * f.blocklen = f.regions.span
  isbad : ∀ a, 0 ≤ f.regions.isbad a
  whole : f.regions.len ∣ f.regions.envSize

/-- The region of a copy has enough good blocks, so that it can be read. -/
def FwEnv.Readable (f : FwEnv) (dev : ℕ) : Prop :=
  (readenv f.regions (f.devoff dev) (fun _ => 0) fun _ => 0).1 = true

instance (f : FwEnv) (dev : ℕ) : Decidable (f.Readable dev) :=
    inferInstanceAs (Decidable (_ = true))

/-- Both regions have enough good blocks. -/
structure FwEnv.Usable (f : FwEnv) : Prop extends f.Same where
  readable : ∀ dev, f.Readable dev

section Read

variable {c : NandEnv}

/-- Whether a region can be read is a matter of its blocks. -/
theorem readenvLoop_ok (m m' : Mem) (stop : ℕ) : ∀ (n off s : ℕ) (b b' : Mem),
    (readenvLoop c m stop n off s b).1 = (readenvLoop c m' stop n off s b').1
  | 0, _, _, _, _ => rfl
  | n + 1, off, s, b, b' => by
    rw [readenvLoop, readenvLoop]
    split_ifs
    · exact readenvLoop_ok m m' stop n _ s b b'
    · exact readenvLoop_ok m m' stop n _ _ _ _
    · rfl

theorem readenvLoop_loaded {m : Mem} {stop : ℕ} : ∀ {n off s : ℕ} {b : Mem},
    (readenvLoop c m stop n off s b).1 = true → s ≤ c.envSize
  | 0, _, _, _, h => by cases h
  | n + 1, off, s, b, h => by
    rw [readenvLoop] at h
    split_ifs at h with hgo hbad
    · exact hgo.1.le
    · exact hgo.1.le
    · exact (of_decide_eq_true h).le

theorem span_lt (hc : 0 < c.erasesize) (hr : 0 < c.envRange) (k : ℕ) :
    k * c.erasesize < c.span ↔ k * c.erasesize < c.envRange := by
  unfold NandEnv.span
  rw [Nat.mul_lt_mul_right hc, Nat.lt_iff_add_one_le, Nat.le_div_iff_mul_le hc, Nat.add_mul,
    Nat.one_mul]
  rcases Nat.eq_zero_or_pos k with rfl | hk
  · omega
  · have := Nat.le_mul_of_pos_left c.erasesize hk
    omega

/-- A round at or past the end of the region is the last, so that more fuel changes nothing. -/
theorem readenvLoop_fuel (hc : 0 < c.erasesize) (m : Mem) {stop : ℕ} (d : ℕ) :
    ∀ {n off s : ℕ} {b : Mem}, stop ≤ off + n →
      readenvLoop c m stop (n + d + 1) off s b = readenvLoop c m stop (n + 1) off s b
  | 0, off, s, b, h => by
    rw [readenvLoop, readenvLoop, if_neg (by omega), if_neg (by omega)]
  | n + 1, off, s, b, h => by
    rw [Nat.add_right_comm n 1 d, readenvLoop, readenvLoop.eq_def c m stop (n + 1 + 1)]
    dsimp only
    split_ifs
    · exact readenvLoop_fuel hc m d (by omega)
    · exact readenvLoop_fuel hc m d (by omega)
    · rfl

theorem readenvLoop_span (hc : 0 < c.erasesize) (hr : 0 < c.envRange) (m : Mem) {o : ℕ} :
    ∀ {n k s : ℕ} {b : Mem}, readenvLoop c m (o + c.envRange) n (o + k * c.erasesize) s b =
      readenvLoop c m (o + c.span) n (o + k * c.erasesize) s b
  | 0, _, _, _ => rfl
  | n + 1, k, s, b => by
    have hnext : o + k * c.erasesize + c.erasesize = o + (k + 1) * c.erasesize := by ring
    have hlt := span_lt hc hr k
    rw [readenvLoop, readenvLoop, hnext]
    simp only [Nat.add_lt_add_iff_left, hlt]
    split_ifs
    · exact readenvLoop_span hc hr m
    · exact readenvLoop_span hc hr m
    · rfl

/-- A region is read up to the end of its last block. -/
theorem readenv_span (hc : 0 < c.erasesize) (hr : 0 < c.envRange) (o : ℕ) (m b : Mem) :
    readenv c o m b = readenvLoop c m (o + c.span) (c.span + 1) o 0 b := by
  have h0 : o + 0 * c.erasesize = o := by omega
  have hle : c.envRange ≤ c.span := by
    by_contra hlt
    have hspan := span_lt hc hr ((max c.envRange c.erasesize + c.erasesize - 1) / c.erasesize)
    exact absurd (hspan.2 (not_le.1 hlt)) (lt_irrefl _)
  obtain ⟨d, hd⟩ := Nat.exists_eq_add_of_le hle
  have hspan := readenvLoop_span hc hr m (o := o) (n := c.span + 1) (k := 0) (s := 0) (b := b)
  rw [h0] at hspan
  rw [← hspan, hd, readenvLoop_fuel hc m d le_rfl]
  rfl

end Read

section Flash

variable {f : FwEnv}

/-- U-Boot reads a region up to the end of its last block. -/
theorem FwEnv.Same.readenv (h : f.Same) (dev : ℕ) (m b : Mem) :
    readenv f.regions (f.devoff dev) m b =
      readenvLoop f.regions m (f.devoff dev + f.regions.span) (f.regions.span + 1) (f.devoff dev) 0
        b :=
  readenv_span h.valid.erasesize_pos (by
    have := h.valid.header_le
    have := h.range
    unfold ENV_HEADER_SIZE at *
    omega) _ m b

theorem FwEnv.Same.blockOf (h : f.Same) (dev : ℕ) : f.blockOf (f.devoff dev) = f.devoff dev := by
  rw [FwEnv.blockOf, h.aligned dev, Nat.sub_zero]

theorem FwEnv.Same.topOfRange (h : f.Same) (dev : ℕ) :
    f.topOfRange dev = f.devoff dev + f.regions.span := by
  rw [FwEnv.topOfRange, h.blockOf dev, h.sectors]

/-- The tool reads a region only if U-Boot can. -/
theorem flashReadBufLoop_readable (h : f.Same) {m : Mem} {top : ℕ} : ∀ {n off s : ℕ}
    {b b' buf : Mem},
    flashReadBufLoop f m f.regions.envSize top n off 0 (min f.blocklen (f.regions.envSize - s)) s
      b' =
      some buf →
    s ≤ f.regions.envSize → f.regions.len ∣ f.regions.envSize - s →
    (readenvLoop f.regions m top n off s b).1 = true
  | 0, _, _, _, _, _, hread, _, _ => by cases hread
  | n + 1, off, s, b, b', buf, hread, hs, hdvd => by
    rw [flashReadBufLoop] at hread
    rw [readenvLoop]
    split_ifs at hread with hgo herr htop hbad
    · have hpos : 0 < min f.blocklen (f.regions.envSize - s) := by
        have := h.valid.erasesize_pos
        unfold FwEnv.blocklen
        omega
      rw [if_pos ⟨hgo, by omega⟩, if_pos hbad]
      exact flashReadBufLoop_readable h hread hs hdvd
    · have hle := Nat.le_of_dvd (by omega) hdvd
      have hlen : min f.blocklen (f.regions.envSize - s) = f.regions.len := by
        unfold NandEnv.len at hle ⊢
        unfold FwEnv.blocklen
        omega
      have hpos : 0 < f.regions.len := by
        have := h.valid.erasesize_pos
        unfold NandEnv.len
        omega
      rw [hlen] at hread htop
      rw [if_pos ⟨hgo, by omega⟩, if_neg hbad]
      refine flashReadBufLoop_readable h hread (by omega) ?_
      rw [← Nat.sub_sub]
      exact Nat.dvd_sub hdvd dvd_rfl
    · rw [if_neg (by omega)]
      exact decide_eq_true (by omega)

theorem flashReadBuf_readable (h : f.Same) {dev : ℕ} {m heap buf : Mem}
    (hread : flashReadBuf f dev m heap f.regions.envSize (f.devoff dev) = some buf) :
    f.Readable dev := by
  unfold flashReadBuf at hread
  dsimp only at hread
  rw [h.blockOf, h.topOfRange, h.sectors, Nat.sub_self, Nat.sub_zero, min_comm] at hread
  rw [FwEnv.Readable, h.readenv, readenvLoop_ok _ m _ _ _ _ _ fun _ => 0]
  exact flashReadBufLoop_readable h hread (Nat.zero_le _) h.whole

variable (h : f.Usable)
include h

theorem FwEnv.Usable.readable' (dev : ℕ) (m heap : Mem) :
    (readenv f.regions (f.devoff dev) m heap).1 = true :=
  (readenvLoop_ok m (fun _ => 0) _ _ _ _ heap fun _ => 0).trans (h.readable dev)

/-- The tool reads what U-Boot reads. -/
theorem flashReadBufLoop_readenv {m : Mem} {o : ℕ} : ∀ {n k s : ℕ} {b w : Mem},
    (readenvLoop f.regions m (o + f.regions.span) n (o + k * f.blocklen) s b).1 = true →
    (∀ x < s, w x = b x) →
    ∃ buf, flashReadBufLoop f m f.regions.envSize (o + f.regions.span) n (o + k * f.blocklen) 0
        (min f.blocklen (f.regions.envSize - s)) s w = some buf ∧
      ∀ x < f.regions.envSize, buf x =
        (readenvLoop f.regions m (o + f.regions.span) n (o + k * f.blocklen) s b).2 x
  | 0, _, _, _, _, hread, _ => by cases hread
  | n + 1, k, s, b, w, hread, hsame => by
    have hnext : o + k * f.blocklen + f.blocklen = o + (k + 1) * f.blocklen := by ring
    have hnext' : o + k * f.blocklen + f.regions.erasesize = o + (k + 1) * f.blocklen := hnext
    have hbad0 := h.isbad (o + k * f.blocklen)
    rw [readenvLoop] at hread
    rw [readenvLoop, flashReadBufLoop]
    by_cases hgo : s < f.regions.envSize ∧ o + k * f.blocklen < o + f.regions.span
    · rw [if_pos hgo] at hread ⊢
      have hblk : (k + 1) * f.blocklen ≤ f.regions.span := by
        rw [← h.sectors]
        refine Nat.mul_le_mul_right _ ?_
        have hlt : k * f.blocklen < f.envSectors * f.blocklen := by
          rw [h.sectors]
          omega
        exact Nat.lt_of_mul_lt_mul_right hlt
      have hlen : min f.blocklen (f.regions.envSize - s) ≤ f.blocklen := min_le_left _ _
      rw [if_pos hgo.1, if_neg (not_lt.2 hbad0), if_neg (by omega)]
      by_cases hbad : f.regions.isbad (o + k * f.blocklen) ≠ 0
      · rw [if_pos hbad, hnext'] at hread
        rw [if_pos hbad, if_pos hbad, hnext, hnext']
        exact flashReadBufLoop_readenv hread hsame
      · rw [if_neg hbad, hnext'] at hread
        rw [if_neg hbad, if_neg hbad, hnext, hnext']
        have hloaded := readenvLoop_loaded hread
        have hlen' : min f.blocklen (f.regions.envSize - s) = f.regions.len := by
          unfold NandEnv.len at hloaded ⊢
          unfold FwEnv.blocklen
          omega
        rw [hlen']
        exact flashReadBufLoop_readenv hread fun x hx => by
          by_cases hxs : x < s
          · rw [Mem.store_of_lt _ _ hxs, Mem.store_of_lt _ _ hxs, hsame x hxs]
          · exact Mem.store_congr _ _ (by omega) (by rw [Mem.length_load]; omega)
    · rw [if_neg hgo] at hread ⊢
      have hs : s = f.regions.envSize := of_decide_eq_true hread
      rw [if_neg (by omega)]
      exact ⟨w, rfl, fun x hx => hsame x (by omega)⟩

theorem flashReadBuf_readenv (dev : ℕ) (m heap : Mem) :
    ∃ buf, flashReadBuf f dev m heap f.regions.envSize (f.devoff dev) = some buf ∧
      ∀ x < f.regions.envSize, buf x = f.regions.read (dev + 1) m x := by
  have hread : (readenv f.regions (f.devoff dev) m fun _ => 0).1 = true := h.readable' dev m _
  have h0 : f.devoff dev + 0 * f.blocklen = f.devoff dev := by omega
  rw [h.readenv] at hread
  obtain ⟨buf, hbuf, hsame⟩ := flashReadBufLoop_readenv h (o := f.devoff dev) (w := heap) (by
    rw [h0]
    exact hread) fun x hx => absurd hx (Nat.not_lt_zero x)
  rw [h0] at hbuf hsame
  rw [← h.readenv] at hsame
  refine ⟨buf, ?_, hsame⟩
  unfold flashReadBuf
  dsimp only
  rw [h.blockOf, h.topOfRange, h.sectors, Nat.sub_self, Nat.sub_zero, min_comm]
  exact hbuf

omit h in
/-- A write keeps to the blocks from its place up to the end of the range. -/
theorem flashWriteBufLoop_frame {data : Mem} {wt o r x : ℕ} : ∀ {n k p : ℕ} {m m' : Mem},
    flashWriteBufLoop f data wt (o + r) n (o + k * f.blocklen) p m = some m' →
    x < o + k * f.blocklen ∨ o + r ≤ x → m' x = m x
  | 0, _, _, _, _, hw, _ => by cases hw
  | n + 1, k, p, m, m', hw, hx => by
    have hnext : o + k * f.blocklen + f.blocklen = o + (k + 1) * f.blocklen := by ring
    rw [flashWriteBufLoop] at hw
    split_ifs at hw with hgo herr htop hbad
    · rw [hnext] at hw
      exact flashWriteBufLoop_frame hw (by omega)
    · rw [hnext] at hw
      rw [flashWriteBufLoop_frame hw (by omega)]
      rcases hx with hx | hx
      · exact Mem.store_of_lt _ _ hx
      · exact Mem.store_of_ge _ _ (by rw [Mem.length_load]; omega)
    · rw [Option.some.inj hw]

/-- U-Boot reads what the tool wrote. -/
theorem flashWriteBufLoop_reads {data : Mem} {wt o : ℕ}
    (hwt : ∀ j, j * f.blocklen < wt ↔ j * f.blocklen < f.regions.envSize) :
    ∀ {n k j s : ℕ} {m m' b : Mem},
      flashWriteBufLoop f data wt (o + f.regions.span) n (o + k * f.blocklen) (j * f.blocklen) m =
        some m' →
      (readenvLoop f.regions m' (o + f.regions.span) n (o + k * f.blocklen) s b).1 = true →
      s = min (j * f.blocklen) f.regions.envSize → ∀ x < f.regions.envSize,
        (readenvLoop f.regions m' (o + f.regions.span) n (o + k * f.blocklen) s b).2 x =
          if s ≤ x then data x else b x
  | 0, _, _, _, _, _, _, hw, _, _, _, _ => by cases hw
  | n + 1, k, j, s, m, m', b, hw, hread, hs, x, hx => by
    have hnext : o + k * f.blocklen + f.blocklen = o + (k + 1) * f.blocklen := by ring
    have hnext' : o + k * f.blocklen + f.regions.erasesize = o + (k + 1) * f.blocklen := hnext
    have hbad0 := h.isbad (o + k * f.blocklen)
    rw [flashWriteBufLoop] at hw
    rw [readenvLoop] at hread ⊢
    by_cases hgo : s < f.regions.envSize ∧ o + k * f.blocklen < o + f.regions.span
    · have hj : j * f.blocklen < f.regions.envSize := by omega
      rw [if_pos hgo] at hread ⊢
      rw [if_pos ((hwt j).2 hj), if_neg (not_lt.2 hbad0)] at hw
      split_ifs at hw with htop hbad
      · rw [if_pos hbad, hnext'] at hread ⊢
        rw [hnext] at hw
        exact flashWriteBufLoop_reads hwt hw hread hs x hx
      · rw [if_neg hbad, hnext'] at hread ⊢
        rw [hnext] at hw
        have hsj : s = j * f.blocklen := by omega
        have hjs : j * f.blocklen + f.blocklen = (j + 1) * f.blocklen := by ring
        have hloaded := readenvLoop_loaded hread
        have hlen : f.regions.len ≤ f.blocklen := min_le_left _ _
        have hs' : s + f.regions.len = min ((j + 1) * f.blocklen) f.regions.envSize := by
          unfold NandEnv.len at hloaded ⊢
          rw [← hjs, hsj]
          unfold FwEnv.blocklen at hsj ⊢
          omega
        have hblock : m'.load (o + k * f.blocklen) f.regions.len = data.load s f.regions.len := by
          refine Mem.load_congr fun i hi => ?_
          rw [flashWriteBufLoop_frame hw (by omega), hsj,
            Mem.store_add _ _ _ (by rw [Mem.length_load]; omega), Mem.getElem_load]
        rw [hjs] at hw
        rw [flashWriteBufLoop_reads hwt hw hread hs' x hx, hblock]
        by_cases h1 : s + f.regions.len ≤ x
        · rw [if_pos h1, if_pos (by omega)]
        · rw [if_neg h1]
          by_cases h2 : s ≤ x
          · obtain ⟨i, rfl⟩ := Nat.exists_eq_add_of_le h2
            rw [if_pos h2, Mem.store_add _ _ _ (by rw [Mem.length_load]; omega), Mem.getElem_load]
          · rw [if_neg h2, Mem.store_of_lt _ _ (by omega)]
    · rw [if_neg hgo] at hread ⊢
      have hs' : s = f.regions.envSize := of_decide_eq_true hread
      rw [if_neg (by omega)]

/-- What a write of an environment does to the two regions. -/
theorem flashWriteBuf_reads {dev : ℕ} {buf m m' : Mem}
    (hw : flashWriteBuf f dev buf m f.regions.envSize (f.devoff dev) = some m') :
    (∀ x, x < f.devoff dev ∨ f.devoff dev + f.regions.span ≤ x → m' x = m x) ∧
      ∀ x < f.regions.envSize, f.regions.read (dev + 1) m' x = buf x := by
  have hpos : 0 < f.blocklen := h.valid.erasesize_pos
  have h0 : f.devoff dev + 0 * f.blocklen = f.devoff dev := by omega
  have hread : (readenv f.regions (f.devoff dev) m' fun _ => 0).1 = true := h.readable' dev m' _
  rw [h.readenv] at hread
  unfold flashWriteBuf at hw
  dsimp only at hw
  rw [h.blockOf, h.topOfRange, h.sectors, Nat.sub_self, Nat.zero_add] at hw
  obtain ⟨data, hdata, hw⟩ := Option.bind_eq_some_iff.1 hw
  have hsame : ∀ x < f.regions.envSize, data x = buf x := by
    intro x hx
    split_ifs at hdata
    · obtain ⟨d, -, rfl⟩ := Option.map_eq_some_iff.1 hdata
      have := Mem.store_add d 0 (buf.load 0 f.regions.envSize) (i := x)
        (by rw [Mem.length_load]; exact hx)
      rw [Nat.zero_add] at this
      rw [this, Mem.getElem_load, Nat.zero_add]
    · rw [Option.some.inj hdata]
  have hwt : ∀ j, j * f.blocklen < (f.regions.envSize + f.blocklen - 1) / f.blocklen * f.blocklen ↔
      j * f.blocklen < f.regions.envSize := by
    intro j
    rw [Nat.mul_lt_mul_right hpos, Nat.lt_iff_add_one_le, Nat.le_div_iff_mul_le hpos, Nat.add_mul,
      Nat.one_mul]
    omega
  have hloop : flashWriteBufLoop f data
      ((f.regions.envSize + f.blocklen - 1) / f.blocklen * f.blocklen)
      (f.devoff dev + f.regions.span) (f.regions.span + 1) (f.devoff dev + 0 * f.blocklen)
      (0 * f.blocklen) m = some m' := by
    rw [h0, Nat.zero_mul]
    exact hw
  refine ⟨fun x hx => flashWriteBufLoop_frame hloop (by omega), fun x hx => ?_⟩
  have := flashWriteBufLoop_reads h hwt hloop (b := fun _ => 0) (s := 0) (by
    rw [h0]
    exact hread) (by omega) x hx
  rw [h0, ← h.readenv, if_pos (Nat.zero_le x), hsame x hx] at this
  exact this

end Flash

section Update

variable (c : NandEnv)

theorem data_crcUpdate (m : Mem) : c.data (c.crcUpdate m) = c.data m :=
  Mem.load_congr fun i _ => Mem.store_of_ge _ _ (by
    rw [length_bytes32]
    unfold ENV_HEADER_SIZE
    omega)

theorem crcOk_crcUpdate (m : Mem) : c.crcOk (c.crcUpdate m) = true := by
  refine decide_eq_true ?_
  rw [data_crcUpdate, NandEnv.crcUpdate, Mem.get32_store, Nat.mod_eq_of_lt (crc32_lt _)]

/-- An edit of the data keeps the flags. -/
theorem envFlags_update (m : Mem) (data : List UInt8) :
    envFlags (c.crcUpdate (m.store ENV_HEADER_SIZE data)) = envFlags m := by
  have h4 : (c.crcUpdate (m.store ENV_HEADER_SIZE data)) 4 = (m.store ENV_HEADER_SIZE data) 4 :=
    Mem.store_of_ge _ _ (by rw [length_bytes32])
  exact h4.trans (Mem.store_of_lt _ _ (by decide))

end Update

section Tool

/-- The device of the copy that the tool takes. -/
def FwEnv.taken (f : FwEnv) (m : Mem) : ℕ :=
  f.devCurrent (f.regions.good 1 m) (f.regions.good 2 m) (envFlags (f.regions.read 1 m))
    (envFlags (f.regions.read 2 m))

theorem FwEnv.taken_cases (f : FwEnv) (m : Mem) : f.taken m = 0 ∨ f.taken m = 1 := by
  unfold FwEnv.taken FwEnv.devCurrent
  dsimp only
  split_ifs <;> simp

variable {f : FwEnv} (h : f.Usable)
include h

theorem FwEnv.Usable.good (dev : ℕ) (m : Mem) :
    f.regions.good (dev + 1) m = f.regions.crcOk (f.regions.read (dev + 1) m) := by
  have hread : (readenv f.regions (f.regions.offset (dev + 1)) m fun _ => 0).1 = true :=
    h.readable' dev m _
  rw [NandEnv.good, hread, Bool.true_and]

/-- What the tool takes, and its image is that copy if it is good. -/
theorem fwEnvInit_eq (m : Mem) : ∃ image, fwEnvInit f m = some (f.taken m, image) ∧
    (f.regions.good (f.taken m + 1) m = true →
      envFlags image = envFlags (f.regions.read (f.taken m + 1) m)) := by
  obtain ⟨image0, hbuf0, hsame0⟩ := flashReadBuf_readenv h 0 m fun _ => 0
  obtain ⟨image1, hbuf1, hsame1⟩ := flashReadBuf_readenv h 1 m fun _ => 0
  obtain ⟨-, hcrc0, hflags0⟩ := data_congr h.valid.header_le hsame0
  obtain ⟨-, hcrc1, hflags1⟩ := data_congr h.valid.header_le hsame1
  rw [← h.good] at hcrc0 hcrc1
  unfold fwEnvInit
  dsimp only
  rw [hbuf0, hbuf1]
  simp only [Option.bind_eq_bind, Option.bind_some, Option.pure_def, hcrc0, hcrc1, hflags0, hflags1]
  refine ⟨_, rfl, fun hg => ?_⟩
  change envFlags (if f.taken m = 0 then _ else _) = _
  rcases f.taken_cases m with ht | ht <;> rw [ht] at hg ⊢
  · rw [if_pos rfl, if_neg fun hn => Bool.noConfusion (hg.symm.trans hn.1)]
    exact hflags0
  · exact hflags1

/-- A completed run of the tool leaves the copy it took, and makes the other one a copy whose flags
are one more. -/
theorem fwSetenv_spec {data : List UInt8} {m m' : Mem} (hrun : fwSetenv f data m = some m') :
    f.regions.good (f.taken m + 1) m' = f.regions.good (f.taken m + 1) m ∧
      f.regions.read (f.taken m + 1) m' = f.regions.read (f.taken m + 1) m ∧
      f.regions.good (1 - f.taken m + 1) m' = true ∧
      (f.regions.good (f.taken m + 1) m = true → envFlags (f.regions.read (1 - f.taken m + 1) m') =
        envFlags (f.regions.read (f.taken m + 1) m) + 1) := by
  obtain ⟨image, hinit, hflags⟩ := fwEnvInit_eq h m
  unfold fwSetenv at hrun
  rw [hinit] at hrun
  simp only [Option.bind_eq_bind, Option.bind_some] at hrun
  have hdev := f.taken_cases m
  revert hrun hflags hdev
  generalize f.taken m = dev
  intro hrun hflags hdev
  obtain ⟨hframe, hreads⟩ := flashWriteBuf_reads h hrun
  obtain ⟨-, hcrc, hfl⟩ := data_congr h.valid.header_le hreads
  obtain ⟨-, hcrc', hfl'⟩ := flags_store (c := f.regions)
    (f.regions.crcUpdate (image.store ENV_HEADER_SIZE (fit f.regions.dataSize data)))
    (envFlags (f.regions.crcUpdate
      (image.store ENV_HEADER_SIZE (fit f.regions.dataSize data))) + 1)
  have hkeep : ∀ heap, readenv f.regions (f.regions.offset (dev + 1)) m' heap =
      readenv f.regions (f.regions.offset (dev + 1)) m heap := by
    have hapart := h.valid.apart
    intro heap
    refine readenv_congr h.valid.erasesize_pos (fun x h1 h2 => hframe x ?_) heap
    unfold FwEnv.devoff
    rcases hdev with rfl | rfl
    · change f.regions.envOffset ≤ x at h1
      change x < f.regions.envOffset + f.regions.span at h2
      change x < f.regions.envOffsetRedund ∨ f.regions.envOffsetRedund + f.regions.span ≤ x
      omega
    · change f.regions.envOffsetRedund ≤ x at h1
      change x < f.regions.envOffsetRedund + f.regions.span at h2
      change x < f.regions.envOffset ∨ f.regions.envOffset + f.regions.span ≤ x
      omega
  have hread : f.regions.read (dev + 1) m' = f.regions.read (dev + 1) m := by
    rw [NandEnv.read, hkeep]
    rfl
  refine ⟨by rw [h.good, h.good, hread], hread, ?_, fun hg => ?_⟩
  · rw [h.good, hcrc, hcrc', crcOk_crcUpdate]
  · rw [hfl, hfl', envFlags_update, hflags hg]

end Tool

end InfotmUboot
