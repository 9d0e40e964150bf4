import InfotmUboot.FastbootBoot

/-!
# What the boot command copies

The download lies behind the place of the kernel and around that of the ramdisk. Of the sizes in its
header nothing is checked, and the ramdisk is looked for a page too far where the kernel ends with
one.
-/

namespace InfotmUboot

open Lib

section Memcpy

variable {m : Mem}

theorem memcpy_other : ∀ {n dest src : ℕ} {m : Mem} {x : ℕ}, x < dest ∨ dest + n ≤ x →
    memcpyForward n dest src m x = m x
  | 0, _, _, _, _, _ => rfl
  | n + 1, dest, src, m, x, h => by
    rw [memcpyForward, memcpy_other (by omega)]
    rcases h with h | h
    · exact Mem.store_of_lt _ _ h
    · exact Mem.store_of_ge _ _ (by rw [List.length_singleton]; omega)

/-- A byte that is not overwritten before it is its turn is copied. -/
theorem memcpy_byte : ∀ {n dest src : ℕ} {m : Mem} {k : ℕ}, k < n →
    (src + k < dest ∨ dest + k ≤ src + k) → memcpyForward n dest src m (dest + k) = m (src + k)
  | n + 1, dest, src, m, 0, _, _ => by
    rw [memcpyForward, memcpy_other (by omega)]
    exact Mem.store_add m dest [m src] (i := 0) Nat.one_pos
  | n + 1, dest, src, m, k + 1, hk, h => by
    have hstep := @memcpy_byte n (dest + 1) (src + 1) (m.store dest [m src]) k (by omega) (by omega)
    rw [show dest + 1 + k = dest + (k + 1) by omega] at hstep
    rw [memcpyForward, hstep, show src + 1 + k = src + (k + 1) by omega]
    rcases h with h | h
    · exact Mem.store_of_lt _ _ h
    · exact Mem.store_of_ge _ _ (by rw [List.length_singleton]; omega)

theorem memcpy_load {n dest src : ℕ} (h : dest ≤ src ∨ src + n ≤ dest) :
    (memcpyForward n dest src m).load dest n = m.load src n :=
  Mem.load_congr fun k hk => memcpy_byte hk (by omega)

/-- A byte whose place in the source was overwritten by then is one of the target. -/
theorem memcpy_again : ∀ {n dest src : ℕ} {m : Mem} {k : ℕ}, k < n → src < dest → dest ≤ src + k →
    memcpyForward n dest src m (dest + k) = memcpyForward n dest src m (src + k)
  | n + 1, dest, src, m, 0, _, h1, h2 => by omega
  | n + 1, dest, src, m, k + 1, hk, h1, h2 => by
    rw [memcpyForward, show dest + (k + 1) = dest + 1 + k by omega,
      show src + (k + 1) = src + 1 + k by omega]
    by_cases hlast : src + 1 + k = dest
    · rw [memcpy_byte (by omega) (by omega), hlast, memcpy_other (by omega)]
    · exact memcpy_again (by omega) (by omega) (by omega)

end Memcpy

/-- A size padded to whole pages. -/
def padded (n : ℕ) : ℕ :=
  (n + (CFG_FASTBOOT_MKBOOTIMAGE_PAGE_SIZE - 1)) / CFG_FASTBOOT_MKBOOTIMAGE_PAGE_SIZE *
    CFG_FASTBOOT_MKBOOTIMAGE_PAGE_SIZE

/-- A kernel: an image with a header that is right about it. -/
structure KernelImage (bs : List UInt8) : Prop where
  magic : imageGetMagic (bs.take imageHeaderSize) = IH_MAGIC
  hcrc : imageCheckHcrc (bs.take imageHeaderSize) = true
  size : imageHeaderSize + imageGetSize (bs.take imageHeaderSize) ≤ bs.length
  dcrc : crc32 0 ((bs.drop imageHeaderSize).take (imageGetSize (bs.take imageHeaderSize))) =
    imageGetDcrc (bs.take imageHeaderSize)

/-- The header of the download has these sizes. -/
def HasSizes (m : Mem) (ks rs : ℕ) : Prop :=
  m.get32 (transferBuffer + 8) = ks ∧ m.get32 (transferBuffer + 16) = rs

/-- The copies, as where to and how much. -/
def copiesOf (calls : List DoBootCall) : List (ℕ × ℕ) := calls.filterMap fun
  | .memcpy dest _ count => some (dest, count)
  | _ => none

/-- Of a download of `n` bytes with these sizes, the kernel and the ramdisk are copied if they fit,
and nothing if they do not. -/
structure DoBootRight (ks rs n : ℕ) : Prop where
  fits : CFG_FASTBOOT_MKBOOTIMAGE_PAGE_SIZE + padded ks + padded rs ≤ n →
    ∀ (m : Mem) (kernel ramdisk : List UInt8) (w : DoBootWorld) (para : List UInt8),
      HasSizes m ks rs → kernel.length = ks → ramdisk.length = rs →
      Holds m (transferBuffer + CFG_FASTBOOT_MKBOOTIMAGE_PAGE_SIZE) kernel →
      Holds m (transferBuffer + CFG_FASTBOOT_MKBOOTIMAGE_PAGE_SIZE + padded ks) ramdisk →
      KernelImage kernel → w.downloadBytes = n → w.alloc = true →
        copiesOf (fastbootDoBoot w para m).calls =
            [(CONFIG_SYS_PHY_LK_BASE, ks), (CONFIG_SYS_PHY_RD_BASE, rs)] ∧
          Holds (fastbootDoBoot w para m).mem CONFIG_SYS_PHY_LK_BASE kernel ∧
          Holds (fastbootDoBoot w para m).mem CONFIG_SYS_PHY_RD_BASE ramdisk
  misfits : n < CFG_FASTBOOT_MKBOOTIMAGE_PAGE_SIZE + padded ks + padded rs →
    ∀ (m : Mem) (w : DoBootWorld) (para : List UInt8), HasSizes m ks rs → w.downloadBytes = n →
      ∀ c ∈ copiesOf (fastbootDoBoot w para m).calls, c.2 = 0

/-- There is no room for a kernel, or no ramdisk, or the kernel ends inside of a page and in front
of where the ramdisk goes, and the ramdisk is not copied over what is still to be copied. -/
def BootSizesFit (ks rs : ℕ) : Prop :=
  ks < imageHeaderSize ∨ rs = 0 ∨
    ks % CFG_FASTBOOT_MKBOOTIMAGE_PAGE_SIZE ≠ 0 ∧
      CONFIG_SYS_PHY_LK_BASE + ks ≤ CONFIG_SYS_PHY_RD_BASE ∧
      (CONFIG_SYS_PHY_RD_BASE ≤ transferBuffer + CFG_FASTBOOT_MKBOOTIMAGE_PAGE_SIZE + padded ks ∨
        transferBuffer + CFG_FASTBOOT_MKBOOTIMAGE_PAGE_SIZE + padded ks + rs ≤
          CONFIG_SYS_PHY_RD_BASE)

instance (ks rs : ℕ) : Decidable (BootSizesFit ks rs) :=
  inferInstanceAs (Decidable (_ ∨ _ ∨ _ ∧ _ ∧ (_ ∨ _)))

section Copies

variable {ks rs : ℕ} {m : Mem}

/-- Where the ramdisk is looked for. -/
def ramdiskAt (ks : ℕ) : ℕ :=
  transferBuffer + CFG_FASTBOOT_MKBOOTIMAGE_PAGE_SIZE +
    (ks / CFG_FASTBOOT_MKBOOTIMAGE_PAGE_SIZE + 1) * CFG_FASTBOOT_MKBOOTIMAGE_PAGE_SIZE

theorem ramdiskAt_eq (hks : ks ≤ 0x18000000) :
    u32 (transferBuffer + CFG_FASTBOOT_MKBOOTIMAGE_PAGE_SIZE +
      andNot (u32 (ks + CFG_FASTBOOT_MKBOOTIMAGE_PAGE_SIZE))
        (CFG_FASTBOOT_MKBOOTIMAGE_PAGE_SIZE - 1)) = ramdiskAt ks := by
  have hp : CFG_FASTBOOT_MKBOOTIMAGE_PAGE_SIZE = 2 ^ 11 := rfl
  rw [andNot_mask hp]
  unfold ramdiskAt transferBuffer
  have hu : u32 (ks + 2 ^ 11) = ks + 2 ^ 11 := u32_of_lt (by omega)
  rw [hp, hu, u32_of_lt (by omega)]
  omega

theorem ramdiskAt_inside (h : ks % CFG_FASTBOOT_MKBOOTIMAGE_PAGE_SIZE ≠ 0) :
    ramdiskAt ks = transferBuffer + CFG_FASTBOOT_MKBOOTIMAGE_PAGE_SIZE + padded ks := by
  unfold ramdiskAt padded CFG_FASTBOOT_MKBOOTIMAGE_PAGE_SIZE at *
  omega

theorem ramdiskAt_end (h : ks % CFG_FASTBOOT_MKBOOTIMAGE_PAGE_SIZE = 0) :
    ramdiskAt ks = transferBuffer + CFG_FASTBOOT_MKBOOTIMAGE_PAGE_SIZE + padded ks +
      CFG_FASTBOOT_MKBOOTIMAGE_PAGE_SIZE := by
  unfold ramdiskAt padded CFG_FASTBOOT_MKBOOTIMAGE_PAGE_SIZE at *
  omega

/-- The copies behind a kernel with a good header and good data. -/
theorem bootCopies_good (hks : ks ≤ 0x18000000)
    (hh : imageCheckHcrc ((memcpyForward ks CONFIG_SYS_PHY_LK_BASE
      (transferBuffer + CFG_FASTBOOT_MKBOOTIMAGE_PAGE_SIZE) m).load CONFIG_SYS_PHY_LK_BASE
        imageHeaderSize) = true)
    (hd : imageCheckDcrc (memcpyForward ks CONFIG_SYS_PHY_LK_BASE
      (transferBuffer + CFG_FASTBOOT_MKBOOTIMAGE_PAGE_SIZE) m) CONFIG_SYS_PHY_LK_BASE = true) :
    copiesOf (bootCopies (ks, rs) m).1 =
        [(CONFIG_SYS_PHY_LK_BASE, ks), (CONFIG_SYS_PHY_RD_BASE, rs)] ∧
      (bootCopies (ks, rs) m).2 = memcpyForward rs CONFIG_SYS_PHY_RD_BASE (ramdiskAt ks)
        (memcpyForward ks CONFIG_SYS_PHY_LK_BASE
          (transferBuffer + CFG_FASTBOOT_MKBOOTIMAGE_PAGE_SIZE) m) := by
  unfold bootCopies
  dsimp only
  rw [hh, hd, ramdiskAt_eq hks, Bool.and_self, if_pos rfl]
  split_ifs
  · exact ⟨rfl, rfl⟩
  · exact ⟨rfl, rfl⟩

/-- The kernel's copy is always made. -/
theorem bootCopies_kernel (ks rs : ℕ) (m : Mem) :
    (CONFIG_SYS_PHY_LK_BASE, ks) ∈ copiesOf (bootCopies (ks, rs) m).1 := by
  unfold bootCopies
  dsimp only
  split_ifs
  · exact List.mem_cons_self
  · exact List.mem_cons_self
  · exact List.mem_cons_self

/-- The memory once the device has its logo and its uboot0. -/
def DoBootWorld.loaded (w : DoBootWorld) (m : Mem) : Mem :=
  (m.store CONFIG_RESERVED_LOGO_BUFFER w.logo).store CONFIG_RESERVED_UBOOT0_BUFFER w.uboot0

/-- What the boot command does with a kernel of the right magic. -/
theorem doBoot_copies {w : DoBootWorld} (para : List UInt8) (hs : HasSizes m ks rs)
    (hn : CFG_FASTBOOT_MKBOOTIMAGE_PAGE_SIZE ≤ w.downloadBytes) (ha : w.alloc = true)
    (hm : imageGetMagic (m.load (transferBuffer + CFG_FASTBOOT_MKBOOTIMAGE_PAGE_SIZE)
      imageHeaderSize) = IH_MAGIC) :
    ∃ calls, copiesOf calls = [] ∧ (fastbootDoBoot w para m).calls =
        calls ++ (bootCopies (ks, rs) (w.loaded m)).1 ∧
      (fastbootDoBoot w para m).mem = (bootCopies (ks, rs) (w.loaded m)).2 := by
  have hpos : w.downloadBytes ≠ 0 := by
    unfold CFG_FASTBOOT_MKBOOTIMAGE_PAGE_SIZE at hn
    omega
  unfold fastbootDoBoot
  simp only [hpos, Nat.not_lt.2 hn, ha, hm, not_true_eq_false, ne_eq, if_false, hs.1, hs.2]
  refine ⟨_, ?_, rfl, rfl⟩
  split_ifs
  · rfl
  · rfl

theorem loaded_below (w : DoBootWorld) (m : Mem) {x : ℕ} (h : x < CONFIG_RESERVED_LOGO_BUFFER) :
    w.loaded m x = m x := by
  have h1 : CONFIG_RESERVED_LOGO_BUFFER ≤ CONFIG_RESERVED_UBOOT0_BUFFER := by
    unfold CONFIG_RESERVED_LOGO_BUFFER CONFIG_RESERVED_UBOOT0_BUFFER
    norm_num
  unfold DoBootWorld.loaded
  rw [Mem.store_of_lt _ _ (by omega), Mem.store_of_lt _ _ h]

/-- The checks of a kernel that was copied to where it runs. -/
theorem kernel_checks {kernel : List UInt8} (hk : KernelImage kernel) (hlen : kernel.length = ks)
    (hm : m.load CONFIG_SYS_PHY_LK_BASE ks = kernel) :
    imageCheckHcrc (m.load CONFIG_SYS_PHY_LK_BASE imageHeaderSize) = true ∧
      imageCheckDcrc m CONFIG_SYS_PHY_LK_BASE = true := by
  subst hlen
  have hsize := hk.size
  have hhdr : m.load CONFIG_SYS_PHY_LK_BASE imageHeaderSize = kernel.take imageHeaderSize := by
    rw [← Mem.take_load m _ (show imageHeaderSize ≤ kernel.length by omega), hm]
  have hu : u32 (CONFIG_SYS_PHY_LK_BASE + imageHeaderSize) =
    CONFIG_SYS_PHY_LK_BASE + imageHeaderSize :=
    u32_of_lt (by
      unfold CONFIG_SYS_PHY_LK_BASE imageHeaderSize
      norm_num)
  refine ⟨hhdr ▸ hk.hcrc, ?_⟩
  have hdata : m.load (CONFIG_SYS_PHY_LK_BASE + imageHeaderSize)
      (imageGetSize (kernel.take imageHeaderSize)) =
      (kernel.drop imageHeaderSize).take (imageGetSize (kernel.take imageHeaderSize)) := by
    have hdrop := Mem.drop_load m CONFIG_SYS_PHY_LK_BASE
      (show imageHeaderSize ≤ kernel.length by omega)
    rw [hm] at hdrop
    rw [hdrop, Mem.take_load _ _ (by omega)]
  unfold imageCheckDcrc
  dsimp only
  rw [hhdr, hu, hdata]
  exact decide_eq_true hk.dcrc

theorem le_padded (n : ℕ) : n ≤ padded n := by
  unfold padded CFG_FASTBOOT_MKBOOTIMAGE_PAGE_SIZE
  omega

/-- The download, and the places the images go to. -/
theorem boot_layout : CONFIG_SYS_PHY_LK_BASE ≤ transferBuffer ∧
    transferBuffer + 0x18000000 < CONFIG_RESERVED_LOGO_BUFFER ∧
    CONFIG_SYS_PHY_LK_BASE + imageHeaderSize = transferBuffer ∧
    transferBuffer + CFG_FASTBOOT_MKBOOTIMAGE_PAGE_SIZE + imageHeaderSize ≤
      CONFIG_SYS_PHY_RD_BASE := by
  unfold CONFIG_SYS_PHY_LK_BASE transferBuffer CONFIG_RESERVED_LOGO_BUFFER imageHeaderSize
    CFG_FASTBOOT_MKBOOTIMAGE_PAGE_SIZE CONFIG_SYS_PHY_RD_BASE
  norm_num

section Kernel

variable {kernel : List UInt8} {n : ℕ} {w : DoBootWorld} (para : List UInt8)

/-- A kernel that fits is copied as it is, and what is behind it in the download stays. -/
theorem doBoot_kernel (hfit : CFG_FASTBOOT_MKBOOTIMAGE_PAGE_SIZE + padded ks + padded rs ≤ n)
    (hn : n ≤ 0x18000000) (hs : HasSizes m ks rs) (hlen : kernel.length = ks)
    (hm : Holds m (transferBuffer + CFG_FASTBOOT_MKBOOTIMAGE_PAGE_SIZE) kernel)
    (hk : KernelImage kernel) (hw : w.downloadBytes = n) (ha : w.alloc = true) :
    ∃ m1 : Mem, m1.load CONFIG_SYS_PHY_LK_BASE ks = kernel ∧
      (∀ x, transferBuffer + CFG_FASTBOOT_MKBOOTIMAGE_PAGE_SIZE + padded ks ≤ x →
        x < CONFIG_RESERVED_LOGO_BUFFER → m1 x = m x) ∧
      copiesOf (fastbootDoBoot w para m).calls =
        [(CONFIG_SYS_PHY_LK_BASE, ks), (CONFIG_SYS_PHY_RD_BASE, rs)] ∧
      (fastbootDoBoot w para m).mem =
        memcpyForward rs CONFIG_SYS_PHY_RD_BASE (ramdiskAt ks) m1 := by
  obtain ⟨hlk, hlogo, -⟩ := boot_layout
  have hks := le_padded ks
  have hsize := hk.size
  have hload : (w.loaded m).load (transferBuffer + CFG_FASTBOOT_MKBOOTIMAGE_PAGE_SIZE) ks =
    kernel := by
    unfold Holds at hm
    rw [hlen] at hm
    rw [← hm]
    exact Mem.load_congr fun i hi => loaded_below w m (by omega)
  have hcopy : (memcpyForward ks CONFIG_SYS_PHY_LK_BASE
      (transferBuffer + CFG_FASTBOOT_MKBOOTIMAGE_PAGE_SIZE) (w.loaded m)).load
        CONFIG_SYS_PHY_LK_BASE ks = kernel := by
    rw [memcpy_load (Or.inl (by omega)), hload]
  have hmagic : imageGetMagic (m.load (transferBuffer + CFG_FASTBOOT_MKBOOTIMAGE_PAGE_SIZE)
      imageHeaderSize) = IH_MAGIC := by
    unfold Holds at hm
    rw [← Mem.take_load m _ (show imageHeaderSize ≤ kernel.length by omega), hm]
    exact hk.magic
  obtain ⟨hh, hd⟩ := kernel_checks hk hlen hcopy
  obtain ⟨calls, hnone, hcalls, hmem⟩ := doBoot_copies para hs (hw ▸ by omega) ha hmagic
  obtain ⟨hc, hm2⟩ := @bootCopies_good ks rs (w.loaded m) (by omega) hh hd
  refine ⟨_, hcopy, fun x h1 h2 => ?_, ?_, hmem.trans hm2⟩
  · rw [memcpy_other (by omega), loaded_below w m h2]
  · have happ (as bs : List DoBootCall) : copiesOf (as ++ bs) = copiesOf as ++ copiesOf bs :=
      List.filterMap_append
    rw [hcalls, happ, hnone, hc, List.nil_append]

/-- The images are copied as they are if they do not get into each other's way. -/
theorem doBoot_fits (hsafe : BootSizesFit ks rs)
    (hfit : CFG_FASTBOOT_MKBOOTIMAGE_PAGE_SIZE + padded ks + padded rs ≤ n) (hn : n ≤ 0x18000000)
    {ramdisk : List UInt8} (hs : HasSizes m ks rs) (hlen : kernel.length = ks)
    (hrlen : ramdisk.length = rs)
    (hm : Holds m (transferBuffer + CFG_FASTBOOT_MKBOOTIMAGE_PAGE_SIZE) kernel)
    (hr : Holds m (transferBuffer + CFG_FASTBOOT_MKBOOTIMAGE_PAGE_SIZE + padded ks) ramdisk)
    (hk : KernelImage kernel) (hw : w.downloadBytes = n) (ha : w.alloc = true) :
    copiesOf (fastbootDoBoot w para m).calls =
        [(CONFIG_SYS_PHY_LK_BASE, ks), (CONFIG_SYS_PHY_RD_BASE, rs)] ∧
      Holds (fastbootDoBoot w para m).mem CONFIG_SYS_PHY_LK_BASE kernel ∧
      Holds (fastbootDoBoot w para m).mem CONFIG_SYS_PHY_RD_BASE ramdisk := by
  obtain ⟨m1, hkernel, hbehind, hcopies, hmem⟩ := doBoot_kernel para hfit hn hs hlen hm hk hw ha
  obtain ⟨-, hlogo, -⟩ := boot_layout
  have hrs := le_padded rs
  have hsize := hk.size
  refine ⟨hcopies, ?_⟩
  rw [hmem]
  unfold Holds at hr ⊢
  rw [hrlen] at hr
  rw [hlen, hrlen]
  rcases hsafe with hsmall | hnone | ⟨hinside, hbelow, hapart⟩
  · omega
  · subst hnone
    rw [List.length_eq_zero_iff.1 hrlen]
    exact ⟨hkernel, rfl⟩
  · rw [ramdiskAt_inside hinside]
    constructor
    · rw [← hkernel]
      exact Mem.load_congr fun i hi => memcpy_other (by omega)
    · rw [memcpy_load hapart, ← hr]
      exact Mem.load_congr fun i hi => hbehind _ (by omega) (by omega)

/-- A download that ends in its first page is not looked at. -/
theorem doBoot_short (h : w.downloadBytes < CFG_FASTBOOT_MKBOOTIMAGE_PAGE_SIZE) :
    copiesOf (fastbootDoBoot w para m).calls = [] := by
  unfold fastbootDoBoot
  dsimp only
  rw [if_pos h]
  split_ifs
  · rfl
  · rfl
  · rfl

end Kernel

end Copies

section Failing

variable {ks rs n : ℕ}

/-- A kernel without data. -/
def bootKernel : List UInt8 :=
  [0x27, 0x05, 0x19, 0x56, 0x33, 0xa9, 0x13, 0x15] ++ List.replicate 56 0

/-- A download of zeros but for the sizes and the kernel's header, with a one at `x`. There is a
kernel where it runs already. -/
def bootMem (ks rs x : ℕ) : Mem :=
  ((((Mem.store (fun a => if a = x then 1 else 0) CONFIG_SYS_PHY_LK_BASE bootKernel).store
    (transferBuffer + 8) (bytes32 ks)).store (transferBuffer + 16) (bytes32 rs)).store
      (transferBuffer + CFG_FASTBOOT_MKBOOTIMAGE_PAGE_SIZE) bootKernel)

theorem length_bootKernel : bootKernel.length = imageHeaderSize := rfl

theorem get32_store_other (m : Mem) (a b : ℕ) (bs : List UInt8) (h : b + 4 ≤ a ∨ a + bs.length ≤
    b) :
    (m.store a bs).get32 b = m.get32 b := by
  have hbyte (i : ℕ) (hi : i < 4) : m.store a bs (b + i) = m (b + i) := by
    rcases h with h | h
    · exact Mem.store_of_lt _ _ (by omega)
    · exact Mem.store_of_ge _ _ (by omega)
  simp only [Mem.get32, Mem.get16, Nat.add_assoc, Nat.reduceAdd]
  rw [hbyte 1 (by norm_num), hbyte 2 (by norm_num), hbyte 3 (by norm_num)]
  have h0 := hbyte 0 (by norm_num)
  rw [Nat.add_zero] at h0
  rw [h0]

theorem bootMem_sizes (hks : ks < 2 ^ 32) (hrs : rs < 2 ^ 32) (x : ℕ) :
    HasSizes (bootMem ks rs x) ks rs := by
  have hpage : CFG_FASTBOOT_MKBOOTIMAGE_PAGE_SIZE = 2048 := rfl
  unfold bootMem
  constructor
  · rw [get32_store_other _ _ _ _ (by omega), get32_store_other _ _ _ _ (by omega), Mem.get32_store,
      Nat.mod_eq_of_lt hks]
  · rw [get32_store_other _ _ _ _ (by omega), Mem.get32_store, Nat.mod_eq_of_lt hrs]

theorem bootMem_header (x : ℕ) : (bootMem ks rs x).load
    (transferBuffer + CFG_FASTBOOT_MKBOOTIMAGE_PAGE_SIZE) imageHeaderSize = bootKernel := by
  unfold bootMem
  rw [← length_bootKernel, Mem.load_store_same]

theorem bootMem_high {x y : ℕ}
    (h : transferBuffer + CFG_FASTBOOT_MKBOOTIMAGE_PAGE_SIZE + imageHeaderSize ≤ y) :
    bootMem ks rs x y = if y = x then 1 else 0 := by
  obtain ⟨-, -, hlk, -⟩ := boot_layout
  have hpage : CFG_FASTBOOT_MKBOOTIMAGE_PAGE_SIZE = 2048 := rfl
  have hlen := length_bootKernel
  unfold bootMem
  rw [Mem.store_of_ge _ _ (by omega), Mem.store_of_ge _ _ (by rw [length_bytes32]; omega),
    Mem.store_of_ge _ _ (by rw [length_bytes32]; omega), Mem.store_of_ge _ _ (by omega)]

set_option maxRecDepth 4000 in
theorem bootKernel_image {rest : List UInt8} : KernelImage (bootKernel ++ rest) := by
  have htake : (bootKernel ++ rest).take imageHeaderSize = bootKernel := List.take_left' rfl
  refine ⟨?_, ?_, ?_, ?_⟩
  · rw [htake]
    decide
  · rw [htake]
    decide
  · rw [htake, List.length_append, show imageGetSize bootKernel = 0 by decide, length_bootKernel]
    omega
  · rw [htake, show imageGetSize bootKernel = 0 by decide, List.take_zero]
    decide

/-- The kernel of the download. -/
theorem bootMem_image (h : imageHeaderSize ≤ ks) (x : ℕ) : KernelImage ((bootMem ks rs x).load
    (transferBuffer + CFG_FASTBOOT_MKBOOTIMAGE_PAGE_SIZE) ks) := by
  obtain ⟨k, rfl⟩ := Nat.exists_eq_add_of_le h
  rw [Mem.load_add, bootMem_header]
  exact bootKernel_image

/-- What a right boot command leaves of such a download. -/
theorem DoBootRight.copied (h : DoBootRight ks rs n)
    (hfit : CFG_FASTBOOT_MKBOOTIMAGE_PAGE_SIZE + padded ks + padded rs ≤ n) (hn : n ≤ 0x18000000)
    (hks : imageHeaderSize ≤ ks) (x : ℕ) :
    ∃ m1 : Mem, (∀ y, transferBuffer + CFG_FASTBOOT_MKBOOTIMAGE_PAGE_SIZE + padded ks ≤ y →
        y < CONFIG_RESERVED_LOGO_BUFFER → m1 y = if y = x then 1 else 0) ∧
      (∀ i < ks, memcpyForward rs CONFIG_SYS_PHY_RD_BASE (ramdiskAt ks) m1
        (CONFIG_SYS_PHY_LK_BASE + i) =
          bootMem ks rs x (transferBuffer + CFG_FASTBOOT_MKBOOTIMAGE_PAGE_SIZE + i)) ∧
      ∀ i < rs, memcpyForward rs CONFIG_SYS_PHY_RD_BASE (ramdiskAt ks) m1
        (CONFIG_SYS_PHY_RD_BASE + i) = bootMem ks rs x
          (transferBuffer + CFG_FASTBOOT_MKBOOTIMAGE_PAGE_SIZE + padded ks + i) := by
  have hle := le_padded ks
  have hler := le_padded rs
  have hsizes := bootMem_sizes (show ks < 2 ^ 32 by omega) (show rs < 2 ^ 32 by omega) x
  have hhere (a k : ℕ) : Holds (bootMem ks rs x) a ((bootMem ks rs x).load a k) := by
    unfold Holds
    rw [Mem.length_load]
  have hlen := (bootMem ks rs x).length_load (transferBuffer + CFG_FASTBOOT_MKBOOTIMAGE_PAGE_SIZE)
    ks
  have himage := @bootMem_image ks rs hks x
  obtain ⟨m1, -, hbehind, -, hmem⟩ := doBoot_kernel (w := ⟨n, true, [], []⟩) [] hfit hn hsizes hlen
    (hhere _ _) himage rfl rfl
  obtain ⟨-, hk, hr⟩ := h.fits hfit _ _ _ ⟨n, true, [], []⟩ [] hsizes hlen (Mem.length_load _ _ _)
    (hhere _ _) (hhere _ rs) himage rfl rfl
  rw [hmem] at hk hr
  refine ⟨m1, fun y h1 h2 => ?_, ?_, ?_⟩
  · rw [hbehind y h1 h2, bootMem_high (by omega)]
  · exact hk.of_load
  · exact hr.of_load

/-- Where the ramdisk is missed or something is in its way, some byte of it or of the kernel is not
the download's. -/
theorem safe_of_right (h : DoBootRight ks rs n)
    (hfit : CFG_FASTBOOT_MKBOOTIMAGE_PAGE_SIZE + padded ks + padded rs ≤ n) (hn : n ≤ 0x18000000) :
    BootSizesFit ks rs := by
  obtain ⟨hlk, hlogo, hhdr, hrd⟩ := boot_layout
  have hpage : CFG_FASTBOOT_MKBOOTIMAGE_PAGE_SIZE = 2048 := rfl
  have hrdlogo : CONFIG_SYS_PHY_RD_BASE + 0x18000000 < CONFIG_RESERVED_LOGO_BUFFER := by
    unfold CONFIG_SYS_PHY_RD_BASE CONFIG_RESERVED_LOGO_BUFFER
    norm_num
  have hkp := le_padded ks
  have hrp := le_padded rs
  by_cases hks : ks < imageHeaderSize
  · exact Or.inl hks
  by_cases hrs : rs = 0
  · exact Or.inr (Or.inl hrs)
  have hks := Nat.not_lt.1 hks
  have hhdrlen : imageHeaderSize = 64 := rfl
  have hinside : ks % CFG_FASTBOOT_MKBOOTIMAGE_PAGE_SIZE ≠ 0 := fun hpages => by
    -- the page behind the ramdisk's first one is copied instead
    obtain ⟨m1, hm1, -, hr⟩ := h.copied hfit hn hks (ramdiskAt ks)
    have hat := ramdiskAt_end hpages
    have hbyte := hr 0 (by omega)
    rw [memcpy_byte (by omega) (by omega), Nat.add_zero, Nat.add_zero, hm1 _ (by omega) (by omega),
      if_pos rfl, bootMem_high (by omega), if_neg (by omega)] at hbyte
    exact absurd hbyte (by decide)
  have hat := ramdiskAt_inside hinside
  obtain ⟨m1, hm1, hk, hr⟩ := h.copied hfit hn hks (ramdiskAt ks)
  have hfirst :
      memcpyForward rs CONFIG_SYS_PHY_RD_BASE (ramdiskAt ks) m1 CONFIG_SYS_PHY_RD_BASE = 1 := by
    have hbyte := @memcpy_byte rs CONFIG_SYS_PHY_RD_BASE (ramdiskAt ks) m1 0 (by omega) (by omega)
    have hone := hm1 (ramdiskAt ks) (by omega) (by omega)
    rw [if_pos rfl] at hone
    exact hbyte.trans hone
  refine Or.inr (Or.inr ⟨hinside, ?_, ?_⟩)
  · -- the ramdisk's first byte is in the kernel
    by_contra hover
    obtain ⟨i, hi⟩ := Nat.exists_eq_add_of_le
      (show CONFIG_SYS_PHY_LK_BASE ≤ CONFIG_SYS_PHY_RD_BASE by omega)
    have hbyte := hk i (by omega)
    rw [← hi, hfirst, bootMem_high (by omega), if_neg (by omega)] at hbyte
    exact absurd hbyte (by decide)
  · -- the ramdisk's first byte is copied again
    by_contra hover
    obtain ⟨i, hi⟩ := Nat.exists_eq_add_of_le (show ramdiskAt ks ≤ CONFIG_SYS_PHY_RD_BASE by omega)
    have hbyte := hr i (by omega)
    rw [memcpy_again (by omega) (by omega) (by omega), ← hi, hfirst, bootMem_high (by omega),
      if_neg (by omega)] at hbyte
    exact absurd hbyte (by decide)

/-- The kernel that is there before. -/
theorem loaded_kernel {w : DoBootWorld} {x : ℕ} :
    (w.loaded (bootMem ks rs x)).load CONFIG_SYS_PHY_LK_BASE imageHeaderSize = bootKernel := by
  obtain ⟨-, hlogo, hlk, -⟩ := boot_layout
  rw [Mem.load_congr fun i hi => loaded_below w (bootMem ks rs x) (by omega)]
  unfold bootMem
  rw [Mem.load_store_after _ _ (by omega), Mem.load_store_after _ _ (by omega),
    Mem.load_store_after _ _ (by omega), ← length_bootKernel, Mem.load_store_same]

/-- A header page alone is enough for a copy, whatever the sizes say. -/
theorem DoBootRight.short (h : DoBootRight ks rs n) (hks : ks < 2 ^ 32) (hrs : rs < 2 ^ 32)
    (hmis : n < CFG_FASTBOOT_MKBOOTIMAGE_PAGE_SIZE + padded ks + padded rs) :
    n < CFG_FASTBOOT_MKBOOTIMAGE_PAGE_SIZE := by
  by_contra hlong
  have hsizes := bootMem_sizes hks hrs 0
  have hmagic : imageGetMagic ((bootMem ks rs 0).load
      (transferBuffer + CFG_FASTBOOT_MKBOOTIMAGE_PAGE_SIZE) imageHeaderSize) = IH_MAGIC := by
    rw [bootMem_header]
    exact (@bootKernel_image []).magic
  obtain ⟨calls, -, hcalls, -⟩ := doBoot_copies (w := ⟨n, true, [], []⟩) [] hsizes
    (Nat.not_lt.1 hlong)
    rfl hmagic
  have hnone := h.misfits hmis _ ⟨n, true, [], []⟩ [] hsizes rfl
  have hmem (c : ℕ × ℕ) (hc : c ∈ copiesOf (bootCopies (ks, rs)
      (DoBootWorld.loaded ⟨n, true, [], []⟩ (bootMem ks rs 0))).1) : c.2 = 0 := by
    refine hnone c ?_
    rw [hcalls]
    unfold copiesOf at hc ⊢
    rw [List.filterMap_append]
    exact List.mem_append_right _ hc
  have hks0 : ks = 0 := hmem _ (bootCopies_kernel ks rs _)
  subst hks0
  -- nothing was copied over the kernel that was there before
  obtain ⟨hh, hd⟩ := kernel_checks bootKernel_image (List.append_nil bootKernel ▸ length_bootKernel)
    ((@loaded_kernel 0 rs ⟨n, true, [], []⟩ 0).trans (List.append_nil bootKernel).symm)
  obtain ⟨hc, -⟩ := @bootCopies_good 0 rs (DoBootWorld.loaded ⟨n, true, [], []⟩ (bootMem 0 rs 0))
    (Nat.zero_le _) hh hd
  have hrs0 : rs = 0 := hmem (CONFIG_SYS_PHY_RD_BASE, rs) (by rw [hc]; simp)
  subst hrs0
  unfold padded CFG_FASTBOOT_MKBOOTIMAGE_PAGE_SIZE at hmis
  unfold CFG_FASTBOOT_MKBOOTIMAGE_PAGE_SIZE at hlong
  omega

/-- A kernel of one page, and a ramdisk behind it. -/
theorem boot_page_fails : ¬DoBootRight 2048 1 6144 := fun h => by
  rcases safe_of_right h (by decide) (by norm_num) with hsmall | hnone | ⟨hinside, -⟩
  · exact absurd hsmall (by decide)
  · exact absurd hnone one_ne_zero
  · exact hinside rfl

end Failing

/-- The boot command copies the kernel and the ramdisk of every download that holds them if they do
not get into each other's way, and nothing of one that is too short if it is shorter than a page. -/
theorem do_boot_right_iff (ks rs : UInt32) (n : ℕ) (hn : n ≤ fastbootInterface.transferBufferSize) :
    DoBootRight ks.toNat rs.toNat n ↔
      if CFG_FASTBOOT_MKBOOTIMAGE_PAGE_SIZE + padded ks.toNat + padded rs.toNat ≤ n then
        BootSizesFit ks.toNat rs.toNat
      else n < CFG_FASTBOOT_MKBOOTIMAGE_PAGE_SIZE := by
  split_ifs with hfit
  · refine ⟨fun h => safe_of_right h hfit hn, fun hsafe => ⟨fun _ m kernel ramdisk w para => ?_,
      ?_⟩⟩
    · intro hs hlen hrlen hm hr hk hw ha
      exact doBoot_fits para hsafe hfit hn hs hlen hrlen hm hr hk hw ha
    · intro hmis
      exact absurd hfit (Nat.not_le.2 hmis)
  · refine ⟨fun h => h.short ks.toNat_lt rs.toNat_lt (Nat.not_le.1 hfit), fun hshort => ⟨?_, ?_⟩⟩
    · intro hfit'
      exact absurd hfit' hfit
    · intro _ m w para _ hw c hc
      rw [doBoot_short para (hw ▸ hshort)] at hc
      exact absurd hc List.not_mem_nil

/-- A kernel that ends inside of its page, with its ramdisk. -/
theorem do_boot_right_small : DoBootRight 100 1 6144 :=
  (do_boot_right_iff 100 1 6144 (by decide)).2 (by decide)

theorem do_boot_right_fails : ¬∀ (ks rs : UInt32) (n : ℕ), n ≤
    fastbootInterface.transferBufferSize →
    DoBootRight ks.toNat rs.toNat n := fun h =>
  boot_page_fails (h 2048 1 6144 (by decide))

end InfotmUboot
