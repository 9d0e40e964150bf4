import InfotmUboot.Proofs.Damage
import InfotmUboot.Proofs.Mkimage
import InfotmUboot.BootKernel

/-!
# From `mkimage` to `bootm`

An image as `mkimage` writes it passes the checks of `bootm`, which then finds the files of it in
their order. An image that has been damaged since it passed them is refused.
-/

namespace InfotmUboot

open Lib

section Verify

variable {m : Mem} {hdr : ℕ} {o : ImageOpts} {payload : List UInt8}

theorem cpuToUimage_zero : cpuToUimage 0 = [0, 0, 0, 0] := by decide

/-- The number in a field of the header. -/
theorem uimageToCpu_field (as rest : List UInt8) (n : ℕ) :
    uimageToCpu (as ++ (cpuToUimage n ++ rest)) as.length = u32 n := by
  have h := uimageToCpu_append as (cpuToUimage n ++ rest) 0
  rwa [Nat.add_zero, uimageToCpu_eq] at h

theorem imageHeader_magic (o : ImageOpts) (payload : List UInt8) :
    imageCheckMagic (imageHeader o payload) = true := by
  have h : imageGetMagic (imageHeader o payload) = u32 IH_MAGIC := uimageToCpu_eq _ _
  rw [imageCheckMagic, h]
  decide

/-- The header passes its own check. -/
theorem imageHeader_hcrc (o : ImageOpts) (payload : List UInt8) :
    imageCheckHcrc (imageHeader o payload) = true := by
  set crc := crc32 0 (headerFields o payload 0) with hcrc
  have hdef : imageHeader o payload = headerFields o payload crc := rfl
  have hsum : (imageHeader o payload).take 4 ++ [0, 0, 0, 0] ++
      ((imageHeader o payload).take imageHeaderSize).drop 8 = headerFields o payload 0 := by
    rw [hdef, List.take_of_length_le (length_headerFields o payload crc).le, ← cpuToUimage_zero]
    rfl
  have hval : imageGetHcrc (imageHeader o payload) = u32 crc :=
    uimageToCpu_field (cpuToUimage IH_MAGIC) _ crc
  unfold imageCheckHcrc
  rw [decide_eq_true_iff, hsum, hval, ← hcrc, u32_of_lt (crc32_lt _)]

/-- The numbers before the checksum of the data. -/
def headerNumbers (o : ImageOpts) (payload : List UInt8) : List UInt8 :=
  cpuToUimage IH_MAGIC ++ (cpuToUimage (crc32 0 (headerFields o payload 0)) ++
    (cpuToUimage o.time ++ (cpuToUimage payload.length ++ (cpuToUimage o.addr ++
      cpuToUimage o.ep))))

theorem imageHeader_eq (o : ImageOpts) (payload : List UInt8) :
    imageHeader o payload = headerNumbers o payload ++
      (cpuToUimage (crc32 0 (payload.take (u32 payload.length))) ++
        ([o.os, o.arch, o.type, o.comp] ++ fit IH_NMLEN o.name)) := by
  simp only [imageHeader, headerFields, headerNumbers, List.append_assoc]

theorem length_headerNumbers (o : ImageOpts) (payload : List UInt8) :
    (headerNumbers o payload).length = 24 := rfl

theorem imageHeader_dcrc (o : ImageOpts) (payload : List UInt8) :
    imageGetDcrc (imageHeader o payload) = crc32 0 (payload.take (u32 payload.length)) := by
  have h := uimageToCpu_field (headerNumbers o payload)
    ([o.os, o.arch, o.type, o.comp] ++ fit IH_NMLEN o.name)
    (crc32 0 (payload.take (u32 payload.length)))
  rw [← imageHeader_eq, length_headerNumbers, u32_of_lt (crc32_lt _)] at h
  exact h

/-- The four bytes behind the numbers. -/
theorem imageHeader_bytes (o : ImageOpts) (payload : List UInt8) {i : ℕ} (hi : i < 4) :
    (imageHeader o payload).getD (28 + i) 0 = [o.os, o.arch, o.type, o.comp].getD i 0 := by
  rw [imageHeader_eq, ← List.append_assoc, List.getD_append_right _ _ _ _
    (by rw [List.length_append, length_headerNumbers]; exact Nat.le_add_right 28 i)]
  rw [List.length_append, length_headerNumbers]
  rw [List.getD_append _ _ _ _ (by simpa [cpuToUimage] using hi)]
  congr 1
  exact Nat.add_sub_cancel_left 28 i

theorem imageVerify_image {m : Mem} {hdr : ℕ} (verify : Bool)
    (hmem : Holds m hdr (imageHeader o payload ++ payload))
    (hend : hdr + (imageHeader o payload ++ payload).length ≤ 2 ^ 32) :
    m.load hdr imageHeaderSize = imageHeader o payload ∧ imageVerify m hdr verify = true := by
  rw [length_image] at hend
  rw [holds_append] at hmem
  obtain ⟨hheader, hdata⟩ := hmem
  have hlen : (imageHeader o payload).length = imageHeaderSize := length_headerFields o payload _
  have hsize : imageHeaderSize = 64 := rfl
  unfold Holds at hheader hdata
  rw [hlen] at hheader hdata
  have hlt : u32 payload.length = payload.length := u32_of_lt (by omega)
  have hread : m.load (u32 (hdr + imageHeaderSize)) payload.length = payload := by
    rcases Nat.eq_zero_or_pos payload.length with h0 | hpos
    · rw [h0, Mem.load_zero, List.length_eq_zero_iff.1 h0]
    · rw [u32_of_lt (by omega), hdata]
  have hlength : imageGetSize (imageHeader o payload) = payload.length :=
    (imageGetSize_header o payload _).trans hlt
  have hdcrc : imageCheckDcrc m hdr = true := by
    unfold imageCheckDcrc
    dsimp only
    rw [hheader, hlength, hread, imageHeader_dcrc, hlt, List.take_length]
    exact decide_eq_true rfl
  refine ⟨hheader, ?_⟩
  simp [imageVerify, hheader, imageHeader_magic, imageHeader_hcrc, hdcrc]

end Verify

section Multi

theorem bootGetKernel_multi (load : Option ℕ) {m : Mem} {hdr osData osLen : ℕ} {verify : Bool}
    (hmagic : imageCheckMagic (m.load hdr imageHeaderSize) = true)
    (hkernel : imageGetKernel m hdr verify = some hdr)
    (htype : imageGetType (m.load hdr imageHeaderSize) = IH_TYPE_MULTI)
    (himg : imageMultiGetimg m hdr 0 = some (osData, osLen)) :
    bootGetKernel hdr load verify m
      = (.found ⟨osData, osLen, hdr, m.load hdr imageHeaderSize⟩, m) := by
  have hne : IH_TYPE_MULTI ≠ IH_TYPE_KERNEL := by decide
  unfold bootGetKernel
  rw [if_pos hmagic, hkernel]
  dsimp only
  rw [htype, if_neg hne, if_pos rfl, himg]
  rfl

theorem bootGetRamdisk_multi (os : BootKernel) {m : Mem} {start len : ℕ} {arch : UInt8}
    {verify : Bool} (htype : imageGetType os.hdrCopy = IH_TYPE_MULTI)
    (himg : imageMultiGetimg m os.hdr 1 = some (start, len)) :
    bootGetRamdisk .absent os arch verify m
      = .found (if start = 0 then (0, 0) else (start, u32 (start + len))) := by
  unfold bootGetRamdisk
  dsimp only
  rw [if_pos htype, himg]
  rfl

variable {m : Mem} {hdr : ℕ} {fs : List (List UInt8)} {o : ImageOpts}
  {files : List UInt8 → Option (List UInt8)} {names : List (List UInt8)} {image : List UInt8}

end Multi

section Damaged

/-- What `boot_get_kernel` accepts with the checksum of the data verified, it refuses after damage
to the header or the data. -/
theorem boot_kernel_damaged {m m' : Mem} {a : ℕ} {load load' : Option ℕ} {os : BootKernel}
    (hok : (bootGetKernel a load true m).1 = .found os)
    (hroom : a + imageHeaderSize + imageGetSize (m.load a imageHeaderSize) ≤ 2 ^ 32)
    (hsmall : imageGetSize (m.load a imageHeaderSize) < 2 ^ 29)
    (h : RecordDamage m m' a
      (imageHeaderSize + imageGetSize (m.load a imageHeaderSize)) (a + 4)) :
    bootGetKernel a load' true m' = (.refused, m') := by
  have hverify : imageVerify m a true = true := by
    by_contra hbad
    have hnone : imageGetKernel m a true = none := if_neg fun hc => hbad hc.1
    unfold bootGetKernel at hok
    rw [hnone] at hok
    split_ifs at hok
  simp only [imageVerify, Bool.not_true, Bool.false_or, Bool.and_eq_true] at hverify
  have hbad := image_damage_found hverify.1.2 hverify.2 hroom hsmall h
  have hnone : imageGetKernel m' a true = none := by
    refine if_neg fun hc => hbad ?_
    have hc := hc.1
    simp only [imageVerify, Bool.not_true, Bool.false_or, Bool.and_eq_true] at hc
    exact ⟨hc.1.2, hc.2⟩
  unfold bootGetKernel
  rw [hnone]
  split_ifs <;> rfl

/-- A kernel of two bytes. -/
def smallKernel : Mem :=
  Mem.store (fun _ => 0) 0 (imageHeader ⟨0, 0, 0, 5, 2, 2, 0, []⟩ [0x12, 0x34] ++ [0x12, 0x34])

theorem boot_kernel_damaged_small : bootGetKernel 0 none true (smallKernel.store 65 [0x35])
    = (.refused, smallKernel.store 65 [0x35]) :=
  @boot_kernel_damaged smallKernel (smallKernel.store 65 [0x35]) 0 none none
    ⟨64, 2, 0, smallKernel.load 0 imageHeaderSize⟩ (by decide +kernel) (by decide +kernel)
    (by decide +kernel) (RecordDamage.of_byte (by decide) (by decide +kernel) (by decide))

end Damaged

end InfotmUboot
