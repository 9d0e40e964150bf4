import InfotmUboot.Proofs.CrcDamage
import InfotmUboot.Proofs.EnvFlash
import InfotmUboot.Proofs.EnvNand
import InfotmUboot.Bootl
import InfotmUboot.Ius

/-!
# Damaged headers are found

The checks of the legacy image, of the ISI image and of the IUS package, and the selection of an
environment, where one of the things checked has been damaged in storage.
-/

namespace InfotmUboot

open Lib

section Fields

theorem bitsOf_lt {bs : List UInt8} (h : bs.length = 4) : bitsOf bs < 2 ^ 32 := by
  match bs, h with
  | [b0, b1, b2, b3], _ =>
    have := b0.toNat_lt
    have := b1.toNat_lt
    have := b2.toNat_lt
    have := b3.toNat_lt
    simp only [bitsOf_cons, bitsOf_nil]
    omega

theorem reads_little : Reads bitsOf id :=
  ⟨fun _ => bitsOf_lt, fun bs _ l _ => bitsOf_testBit bs l, fun _ h => ⟨h, rfl⟩⟩

theorem reads_big : Reads (fun bs => bitsOf bs.reverse) fun l => 8 * (3 - l / 8) + l % 8 := by
  refine ⟨fun bs h => bitsOf_lt (by simpa using h), fun bs h l hl => ?_, fun l hl => by omega⟩
  have hrev : bs.reverse.getD (l / 8) 0 = bs.getD (3 - l / 8) 0 := by
    rw [List.getD_eq_getElem _ _ (by rw [List.length_reverse]; omega), List.getElem_reverse,
      List.getD_eq_getElem _ _ (by omega)]
    congr 1
    omega
  rw [bitsOf_testBit, bitAt, bitAt, hrev]
  rw [show (8 * (3 - l / 8) + l % 8) / 8 = 3 - l / 8 by omega,
    show (8 * (3 - l / 8) + l % 8) % 8 = l % 8 by omega]

theorem get32_eq (m : Mem) (f : ℕ) : m.get32 f = bitsOf (m.load f 4) := by
  have hload : m.load f 4 = [m f, m (f + 1), m (f + 2), m (f + 2 + 1)] := rfl
  rw [hload]
  simp only [bitsOf_cons, bitsOf_nil, Mem.get32, Mem.get16]
  omega

end Fields

section Image

/-- The checksum of the header is that of the header with its field blanked. -/
theorem imageCheckHcrc_iff (m : Mem) (a : ℕ) :
    imageCheckHcrc (m.load a imageHeaderSize) = true ↔
      crc32 0 (blanked m a imageHeaderSize (a + 4)) = bitsOf (m.load (a + 4) 4).reverse := by
  have hsum : (m.load a imageHeaderSize).take 4 ++ [0, 0, 0, 0] ++
      ((m.load a imageHeaderSize).take imageHeaderSize).drop 8
      = blanked m a imageHeaderSize (a + 4) := by
    have hlow : (m.store (a + 4) (bytes32 0)).load a 4 = m.load a 4 :=
      Mem.load_store_after m (bytes32 0) (le_refl _)
    have hmid : (m.store (a + 4) (bytes32 0)).load (a + 4) 4 = [0, 0, 0, 0] :=
      Mem.load_store_same m (a + 4) (bytes32 0)
    have hhigh : (m.store (a + 4) (bytes32 0)).load (a + 8) 56 = m.load (a + 8) 56 :=
      Mem.load_congr fun i _ => Mem.store_of_ge m _ (by rw [length_bytes32]; omega)
    have hblank : blanked m a imageHeaderSize (a + 4)
        = m.load a 4 ++ [0, 0, 0, 0] ++ m.load (a + 8) 56 :=
      calc blanked m a imageHeaderSize (a + 4)
          = (m.store (a + 4) (bytes32 0)).load a (4 + 4 + 56) := rfl
        _ = m.load a 4 ++ [0, 0, 0, 0] ++ m.load (a + 8) 56 := by
          rw [Mem.load_add, Mem.load_add, hlow, hmid, hhigh]
    rw [hblank, Mem.take_load m a (by decide), Mem.take_load m a (le_refl _),
      Mem.drop_load m a (by decide)]
    rfl
  have hval : imageGetHcrc (m.load a imageHeaderSize) = bitsOf (m.load (a + 4) 4).reverse := by
    have hload : m.load (a + 4) 4 = [m (a + 4), m (a + 5), m (a + 6), m (a + 7)] := rfl
    have hbyte : ∀ i < imageHeaderSize, (m.load a imageHeaderSize).getD i 0 = m (a + i) :=
      fun i hi => by
        rw [List.getD_eq_getElem _ _ (by rwa [Mem.length_load]), Mem.getElem_load]
    rw [hload, imageGetHcrc, uimageToCpu, hbyte 4 (by decide), hbyte 5 (by decide),
      hbyte 6 (by decide), hbyte 7 (by decide)]
    simp only [List.reverse_cons, List.reverse_nil, List.nil_append, List.cons_append,
      bitsOf_cons, bitsOf_nil]
    omega
  unfold imageCheckHcrc
  rw [decide_eq_true_iff, hsum, hval]

theorem header_damage_found {m m' : Mem} {a : ℕ}
    (hh : imageCheckHcrc (m.load a imageHeaderSize) = true)
    (h : RecordDamage m m' a imageHeaderSize (a + 4)) :
    imageCheckHcrc (m'.load a imageHeaderSize) ≠ true := by
  intro hh'
  rw [imageCheckHcrc_iff] at hh hh'
  have hhit := h.hit reads_big (Nat.le_add_right a 4) (by rw [imageHeaderSize]; omega)
  exact hhit.found (by simp [blanked, imageHeaderSize]) hh hh'

/-- A legacy image that is right is not right any more after damage to the header or the data. -/
theorem image_damage_found {m m' : Mem} {a : ℕ}
    (hh : imageCheckHcrc (m.load a imageHeaderSize) = true) (hd : imageCheckDcrc m a = true)
    (hroom : a + imageHeaderSize + imageGetSize (m.load a imageHeaderSize) ≤ 2 ^ 32)
    (hsmall : imageGetSize (m.load a imageHeaderSize) < 2 ^ 29)
    (h : RecordDamage m m' a
      (imageHeaderSize + imageGetSize (m.load a imageHeaderSize)) (a + 4)) :
    ¬ (imageCheckHcrc (m'.load a imageHeaderSize) = true ∧ imageCheckDcrc m' a = true) := by
  rintro ⟨hh', hd'⟩
  by_cases hsame : m.load a imageHeaderSize = m'.load a imageHeaderSize
  · unfold imageCheckDcrc at hd hd'
    simp only [decide_eq_true_iff, ← hsame] at hd hd'
    set size := imageGetSize (m.load a imageHeaderSize)
    rcases Nat.eq_zero_or_pos size with h0 | hpos
    · exact h.damage.ne (by rw [h0, Nat.add_zero, hsame])
    have ha : u32 (a + imageHeaderSize) = a + imageHeaderSize := u32_of_lt (by omega)
    rw [ha] at hd hd'
    have hne : m.load (a + imageHeaderSize) size ≠ m'.load (a + imageHeaderSize) size := fun heq =>
      h.damage.ne (by rw [Mem.load_add, Mem.load_add, hsame, heq])
    have hdata := h.damage.part (Nat.le_add_right a imageHeaderSize)
      (Nat.add_assoc a imageHeaderSize size).le hne
    exact crc32_damage hdata (by simpa using hsmall) 0 (by rw [hd, hd'])
  · exact header_damage_found hh (h.part (le_refl a) (by omega) hsame) hh'

/-- An image of two bytes. -/
def smallImage : Mem := Mem.store (fun _ => 0) 0
  ([0x27, 0x05, 0x19, 0x56, 0x40, 0x14, 0x30, 0x0c, 0, 0, 0, 0, 0, 0, 0, 2, 0, 0, 0, 0, 0, 0, 0, 0,
    0x18, 0x99, 0x96, 0x99] ++ List.replicate 36 0 ++ [0x12, 0x34])

end Image

section Package

theorem isiCheckHeader_iff (m : Mem) (a : ℕ) :
    isiCheckHeader m a = 0 ↔ m.get32 a = ISI_MAGIC ∧
      crc32 0 (blanked m a ISI_SIZE (a + 28)) = bitsOf (m.load (a + 28) 4) := by
  have he1 : -EBADMAGIC ≠ 0 := by decide
  have he2 : -EBADCRC ≠ 0 := by decide
  unfold isiCheckHeader hashCrc blanked
  rw [← get32_eq]
  by_cases hmagic : m.get32 a = ISI_MAGIC
  · simp [hmagic, he2, eq_comm]
  · simp [hmagic, he1]

theorem isi_damage_found {m m' : Mem} {a : ℕ} (hok : isiCheckHeader m a = 0)
    (h : RecordDamage m m' a ISI_SIZE (a + 28)) : isiCheckHeader m' a ≠ 0 := by
  intro hok'
  rw [isiCheckHeader_iff] at hok hok'
  have hhit := h.hit reads_little (Nat.le_add_right a 28) (by rw [ISI_SIZE]; omega)
  exact hhit.found (by simp [blanked, ISI_SIZE]) hok.2 hok'.2

/-- The result of the check without secure burning. -/
def iusCheckPlain (m : Mem) : ℤ :=
  if m.get32 0 ≠ IUS_MAGIC then -1
  else if m.get32 24 ≠ hashCrc (blanked m 0 IUS_HDR_SIZE 24) then -EBADCRC else 0

theorem iusCheckHeader_plain {sec : SecureBurn} (hsec : sec.enabled = false) (m : Mem) :
    iusCheckHeader sec m = pure (iusCheckPlain m, m) := by
  unfold iusCheckHeader iusCheckPlain blanked
  by_cases hmagic : m.get32 0 = IUS_MAGIC
  · simp [hsec, hmagic]
  · simp [hmagic]

theorem iusCheckPlain_iff (m : Mem) : iusCheckPlain m = 0 ↔ m.get32 0 = IUS_MAGIC ∧
    crc32 0 (blanked m 0 IUS_HDR_SIZE 24) = bitsOf (m.load 24 4) := by
  have he : -EBADCRC ≠ 0 := by decide
  unfold iusCheckPlain hashCrc
  rw [← get32_eq]
  by_cases hmagic : m.get32 0 = IUS_MAGIC
  · simp [hmagic, he, eq_comm]
  · simp [hmagic]

theorem ius_damage_found {sec : SecureBurn} (hsec : sec.enabled = false) {m m' : Mem}
    (hok : iusCheckHeader sec m = pure (0, m)) (h : RecordDamage m m' 0 IUS_HDR_SIZE 24) :
    ∃ r, r ≠ 0 ∧ iusCheckHeader sec m' = pure (r, m') := by
  refine ⟨iusCheckPlain m', fun hok' => ?_, iusCheckHeader_plain hsec m'⟩
  rw [iusCheckHeader_plain hsec] at hok
  have hzero : iusCheckPlain m = 0 := congrArg Prod.fst (Prog.done.inj hok)
  rw [iusCheckPlain_iff] at hzero hok'
  have hhit := h.hit reads_little (Nat.zero_le 24) (by rw [IUS_HDR_SIZE]; omega)
  exact hhit.found (by simp [blanked, IUS_HDR_SIZE]) hzero.2 hok'.2

/-- The header of a package without images. -/
def smallPackage : Mem :=
  (Mem.store (fun _ => 0) 0 (bytes32 IUS_MAGIC)).store 24 (bytes32 0x5af2c1b4)

theorem smallPackage_plain : iusCheckPlain smallPackage = 0 := by
  have hdata : blanked smallPackage 0 IUS_HDR_SIZE 24
      = bytes32 IUS_MAGIC ++ List.replicate 508 0 := by decide +kernel
  rw [iusCheckPlain_iff, hdata, crc32, List.foldl_append,
    crc32_zeros (by norm_num) (by decide +kernel)]
  decide +kernel

theorem ius_damage_found_small :
    ∃ r, r ≠ 0 ∧ iusCheckHeader ⟨false, []⟩ (smallPackage.store 100 [1])
      = pure (r, smallPackage.store 100 [1]) :=
  ius_damage_found rfl (m := smallPackage)
    (by rw [iusCheckHeader_plain rfl, smallPackage_plain])
    (RecordDamage.of_byte (by decide) (by decide) (by decide))

end Package

section Environment

/-- A boot does not take the copy in NAND that was damaged. -/
theorem nand_env_damaged {c : NandEnv} (hc : ENV_HEADER_SIZE ≤ c.envSize)
    (hsmall : 8 * c.dataSize + 32 < 2 ^ 32) {m m' : Mem} {i : ℕ} (hi : i = 1 ∨ i = 2)
    (hok : c.good i m = true) (hother : c.good (other i) m' = true)
    (hhit : Hit (c.data (c.read i m)) (c.data (c.read i m'))
      ((c.read i m).get32 0) ((c.read i m').get32 0))
    (heap1 heap2 : Mem) :
    (envRelocateSpec c m' heap1 heap2).valid = other i ∧
      c.data (envRelocateSpec c m' heap1 heap2).env = c.data (c.read (other i) m') := by
  have hbad : c.good i m' = false := by
    unfold NandEnv.good at hok ⊢
    rw [Bool.and_eq_true] at hok
    have hcrc := hok.2
    unfold NandEnv.crcOk at hcrc ⊢
    rw [decide_eq_true_iff] at hcrc
    rw [Bool.and_eq_false_iff, decide_eq_false_iff_not]
    exact Or.inr (hhit.found (by simpa [NandEnv.data] using hsmall) hcrc)
  have hsel : c.selected m' = other i := by
    rcases hi with rfl | rfl
    · exact (selected_eq (Or.inr rfl)).2 ⟨hother, fun h => absurd (h.symm.trans hbad) (by decide)⟩
    · exact (selected_eq (Or.inl rfl)).2 ⟨hother, fun h => absurd (h.symm.trans hbad) (by decide)⟩
  have hne : other i ≠ 0 := by
    rcases hi with rfl | rfl <;> decide
  have hheap : c.Filled m' heap1 heap2 := by
    have hwhole : ∀ b, (readenv c (c.offset i) m' b).1 = true := readenv_whole hok m'
    have hwhole' : ∀ b, (readenv c (c.offset (other i)) m' b).1 = true := readenv_whole hother m'
    rcases hi with rfl | rfl
    · exact ⟨fun hs => Bool.noConfusion ((hwhole heap1).symm.trans hs),
        fun hs => Bool.noConfusion ((hwhole' heap2).symm.trans hs)⟩
    · exact ⟨fun hs => Bool.noConfusion ((hwhole' heap1).symm.trans hs),
        fun hs => Bool.noConfusion ((hwhole heap2).symm.trans hs)⟩
  obtain ⟨hvalid, hdata⟩ := envRelocateSpec_selects hc hheap
  rw [hsel, if_neg hne] at hvalid
  rw [NandEnv.current, hsel, if_neg hne] at hdata
  exact ⟨hvalid, hdata⟩

/-- Two copies of an empty environment. -/
def smallNandEnvs : Mem :=
  (Mem.store (fun _ => 0) 0 (bytes32 0x6b87b1ec)).store 16 (bytes32 0x6b87b1ec)

theorem nand_env_damaged_small :
    (envRelocateSpec ⟨0, 16, 16, 16, 8, fun _ => 0, []⟩ (smallNandEnvs.store 7 [1]) (fun _ => 0)
        fun _ => 0).valid = other 1 ∧
      NandEnv.data ⟨0, 16, 16, 16, 8, fun _ => 0, []⟩
          (envRelocateSpec ⟨0, 16, 16, 16, 8, fun _ => 0, []⟩ (smallNandEnvs.store 7 [1])
            (fun _ => 0) fun _ => 0).env
        = NandEnv.data ⟨0, 16, 16, 16, 8, fun _ => 0, []⟩
          (NandEnv.read ⟨0, 16, 16, 16, 8, fun _ => 0, []⟩ (other 1)
            (smallNandEnvs.store 7 [1])) := by
  refine nand_env_damaged (m := smallNandEnvs) (by decide) (by decide) (Or.inl rfl)
    (by decide +kernel) (by decide +kernel) (Hit.message ?_ (by decide +kernel)) _ _
  have h := Damage.of_byte (m := fun _ => 0) (a := 0) (n := 11) (x := 2) (c := 1) (w := 32)
    (by decide) (by decide) (by decide) (by decide)
  exact h

/-- Nor does a boot take the damaged sector of NOR flash, wherever its repair is cut off. -/
theorem nor_env_damaged {c : NorEnv} (hsmall : 8 * c.size + 32 < 2 ^ 32) {m m' : NorFlash}
    {b : Bool} (hok : c.crcOk (m b) = true) (hother : c.crcOk (m' !b) = true)
    (hhit : Hit (c.dataOf (m b)) (c.dataOf (m' b)) (m b).crc (m' b).crc) (cut : Option ℕ) :
    (norBoot c cut m').1.flashAddr = (!b) ∧
      (norBoot c cut m').1.env.data.load 0 c.size = c.dataOf (m' !b) ∧
      c.selected (norBoot c cut m').2 = some (!b) := by
  have hbad : c.crcOk (m' b) = false := by
    unfold NorEnv.crcOk at hok ⊢
    rw [decide_eq_true_iff] at hok
    rw [decide_eq_false_iff_not]
    exact hhit.found (by simpa [NorEnv.dataOf] using hsmall) hok
  have hbad' : c.crcOk (m' !(!b)) = false := by rwa [Bool.not_not]
  obtain ⟨hselected, hdata⟩ := repair_alone hother hbad' cut
  have hboot : envInit c m' = (some (!b), (envInit c m').2) :=
    Prod.ext (selected_only hother hbad') rfl
  rw [norBoot, hboot]
  exact ⟨rfl, hdata, hselected⟩

theorem nor_env_damaged_small :
    (norBoot ⟨8, 0, []⟩ (some 0)
      (Function.update (fun _ => ⟨0x6522df69, ACTIVE_FLAG, fun _ => 0, fun _ => 0⟩) false
        ⟨0x6522df69, ACTIVE_FLAG, Mem.store (fun _ => 0) 3 [1], fun _ => 0⟩)).1.flashAddr
      = (!false) :=
  (nor_env_damaged (m := fun _ => ⟨0x6522df69, ACTIVE_FLAG, fun _ => 0, fun _ => 0⟩) (by decide)
    (by decide +kernel) (by decide +kernel)
    (Hit.message (Damage.of_byte (by decide) (by decide) (by decide) (by decide)) rfl) (some 0)).1

end Environment

end InfotmUboot
