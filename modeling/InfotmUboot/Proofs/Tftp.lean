import InfotmUboot.Tftp
import Mathlib.Tactic.Linarith

/-!
# Transfers by TFTP

The count of a block has 16 bits and the client counts the wraps, so it is right about the place of
a block as long as the blocks that arrive again are of the same wrap as the newest one and not the
one of count 0, which it takes for another wrap (`tftp_right`).
-/

namespace InfotmUboot

open Lib

section Packet

variable (srv : TftpServer) {t : Tftp} {i : ℕ}

theorem payload_length (i : ℕ) :
    (srv.payload i).length = min srv.blkSize (srv.file.length - (i - 1) * srv.blkSize) := by
  rw [TftpServer.payload, List.length_take, List.length_drop]

theorem blocks_mul : (srv.blocks - 1) * srv.blkSize ≤ srv.file.length ∧
    srv.file.length < (srv.blocks - 1) * srv.blkSize + srv.blkSize := by
  have hdiv := Nat.div_add_mod srv.file.length srv.blkSize
  have hmod := Nat.mod_lt srv.file.length srv.blkSize_pos
  unfold TftpServer.blocks
  rw [Nat.add_sub_cancel, Nat.mul_comm]
  omega

/-- The blocks before the last are whole. -/
theorem mul_le_of_lt (h : i < srv.blocks) : i * srv.blkSize ≤ srv.file.length :=
  (Nat.mul_le_mul_right _ (by omega : i ≤ srv.blocks - 1)).trans (blocks_mul srv).1

theorem payload_length_of_lt (h1 : 1 ≤ i) (h : i < srv.blocks) :
    (srv.payload i).length = srv.blkSize := by
  have hm := mul_le_of_lt srv h
  obtain ⟨k, rfl⟩ : ∃ k, i = k + 1 := ⟨i - 1, by omega⟩
  rw [payload_length, Nat.add_sub_cancel]
  rw [Nat.add_mul, Nat.one_mul] at hm
  omega

theorem payload_length_last :
    (srv.payload srv.blocks).length = srv.file.length - (srv.blocks - 1) * srv.blkSize ∧
      (srv.payload srv.blocks).length < srv.blkSize := by
  have h := blocks_mul srv
  rw [payload_length]
  omega

/-- The client finds the count and the bytes of a block. -/
theorem tftpHandler_data (hp : t.state ≠ .rrq → t.serverPort = srv.port) :
    tftpHandler t (srv.dataPacket i) t.ourPort srv.port =
      tftpData t srv.port (i % 2 ^ 16) (srv.payload i) := by
  have hport : ¬ (t.state ≠ .rrq ∧ srv.port ≠ t.serverPort) := fun h => h.2 (hp h.1).symm
  have hcount : (i % 2 ^ 16 / 256).toUInt8.toNat * 256 + (i % 2 ^ 16 % 256).toUInt8.toNat =
      i % 2 ^ 16 := by
    simp only [Nat.toUInt8_eq, UInt8.toNat_ofNat']
    omega
  unfold tftpHandler TftpServer.dataPacket
  rw [if_neg (not_not.mpr rfl), if_neg hport]
  dsimp only
  rw [if_neg (show ¬ ((0 : UInt8).toNat * 256 + (3 : UInt8).toNat = TFTP_OACK) by decide),
    if_pos (show (0 : UInt8).toNat * 256 + (3 : UInt8).toNat = TFTP_DATA by decide), hcount]

end Packet

section Place

/-- The count of a block that was delivered in the newest wrap; 0 is that of the newest only. -/
def SameWrap (newest count : ℕ) : Prop :=
  ∃ j, 1 ≤ j ∧ j ≤ newest ∧ j / 2 ^ 16 = newest / 2 ^ 16 ∧ count = j % 2 ^ 16 ∧
    (count = 0 → j = newest)

theorem sameWrap_lt {newest count : ℕ} (h : SameWrap newest count) : count < 2 ^ 16 := by
  obtain ⟨j, -, -, -, rfl, -⟩ := h
  exact Nat.mod_lt _ (by norm_num)

/-- The count behind the newest is none of its wrap. -/
theorem sameWrap_next {newest count : ℕ} (h : SameWrap newest count) :
    count ≠ (newest + 1) % 2 ^ 16 := by
  obtain ⟨j, h1, h2, h3, h4, h5⟩ := h
  omega

variable {bs : ℕ}

/-- A block is stored at its place if the wraps up to it are counted. -/
theorem place_eq {i off : ℕ} (hi : 1 ≤ i) (hlt : (i - 1) * bs < 2 ^ 32)
    (hoff : off = u32 (bs * 2 ^ 16 * (i / 2 ^ 16))) :
    u32 (toU32 (((i % 2 ^ 16 : ℕ) : ℤ) - 1) * bs + off) = (i - 1) * bs := by
  have hdiv := Nat.div_add_mod i (2 ^ 16)
  set e := i / 2 ^ 16 with he
  set b := i % 2 ^ 16 with hb
  have hblt : b < 2 ^ 16 := Nat.mod_lt _ (by norm_num)
  have hP : bs * 2 ^ 16 * e = 2 ^ 16 * e * bs := by ring
  rw [hP] at hoff
  rcases Nat.eq_zero_or_pos b with hb0 | hb0
  · have hneg : toU32 (((b : ℕ) : ℤ) - 1) = 2 ^ 32 - 1 := by
      rw [hb0]
      rfl
    have hplace : (i - 1) * bs + bs = 2 ^ 16 * e * bs := by
      rw [← hdiv, hb0, Nat.add_zero, Nat.sub_mul, Nat.one_mul]
      have : bs ≤ 2 ^ 16 * e * bs := Nat.le_mul_of_pos_left _ (by omega)
      omega
    rw [hneg, hoff, ← hplace]
    unfold u32
    omega
  · have hpos : toU32 (((b : ℕ) : ℤ) - 1) = b - 1 := by
      unfold toU32
      omega
    have hplace : (i - 1) * bs = (b - 1) * bs + 2 ^ 16 * e * bs := by
      rw [← Nat.add_mul]
      congr 1
      omega
    rw [hplace] at hlt ⊢
    have hin : u32 (2 ^ 16 * e * bs) = 2 ^ 16 * e * bs :=
      u32_of_lt ((Nat.le_add_left _ _).trans_lt hlt)
    rw [hpos, hoff, hin, u32_of_lt hlt]

end Place

section Store

variable (srv : TftpServer)

/-- How many bytes the first blocks have. -/
def TftpServer.upTo (r : ℕ) : ℕ := min (r * srv.blkSize) srv.file.length

/-- The first blocks are in the memory, and counted. -/
structure Received (addr : ℕ) (t : Tftp) (r : ℕ) : Prop where
  loadAddr : t.loadAddr = addr
  blkSize : t.blkSize = srv.blkSize
  mem : ∀ k < srv.upTo r, t.mem (addr + k) = srv.file.getD k 0
  xferSize : t.xferSize = srv.upTo r

variable {srv} {t : Tftp} {addr r i blk : ℕ}

theorem upTo_payload (hi : 1 ≤ i) :
    (i - 1) * srv.blkSize + (srv.payload i).length = max ((i - 1) * srv.blkSize) (srv.upTo i) := by
  obtain ⟨k, rfl⟩ : ∃ k, i = k + 1 := ⟨i - 1, by omega⟩
  rw [payload_length, TftpServer.upTo, Nat.add_sub_cancel, Nat.add_mul, Nat.one_mul]
  omega

theorem upTo_mono {r r' : ℕ} (h : r ≤ r') : srv.upTo r ≤ srv.upTo r' :=
  min_le_min_right _ (Nat.mul_le_mul_right _ h)

theorem payload_getElem {k : ℕ} (h : k < (srv.payload i).length) :
    (srv.payload i)[k] = srv.file.getD ((i - 1) * srv.blkSize + k) 0 := by
  have hk : (i - 1) * srv.blkSize + k < srv.file.length := by
    rw [payload_length] at h
    omega
  simp only [TftpServer.payload, List.getElem_take, List.getElem_drop]
  rw [List.getD_eq_getElem _ _ hk]

/-- A block that is stored at its place. -/
theorem storeBlock_received (hlen : srv.file.length < 2 ^ 32)
    (hfits : addr + srv.file.length ≤ 2 ^ 32) (h : Received srv addr t r) (hi1 : 1 ≤ i)
    (hi : i ≤ r + 1) (hin : i ≤ srv.blocks)
    (hplace : u32 (blk * t.blkSize + t.blockWrapOffset) = (i - 1) * srv.blkSize) :
    Received srv addr (storeBlock t blk (srv.payload i)).1 (max r i) := by
  have hend : (i - 1) * srv.blkSize + (srv.payload i).length =
      max ((i - 1) * srv.blkSize) (srv.upTo i) := upTo_payload hi1
  have hle : (i - 1) * srv.blkSize ≤ srv.file.length := mul_le_of_lt srv (by omega)
  have hmax : max ((i - 1) * srv.blkSize) (srv.upTo i) = srv.upTo i := by
    refine max_eq_right (le_min ?_ hle)
    exact Nat.mul_le_mul_right _ (Nat.sub_le _ _)
  rw [hmax] at hend
  have hupto : srv.upTo i ≤ srv.file.length := min_le_right _ _
  have haddr := h.loadAddr
  have hmaxr : srv.upTo (max r i) = max (srv.upTo r) (srv.upTo i) := by
    rcases le_total r i with hri | hri
    · rw [max_eq_right hri, max_eq_right (upTo_mono hri)]
    · rw [max_eq_left hri, max_eq_left (upTo_mono hri)]
  have hstore : t.mem.store (u32 (addr + (i - 1) * srv.blkSize)) (srv.payload i) =
      t.mem.store (addr + (i - 1) * srv.blkSize) (srv.payload i) := by
    rcases hp : srv.payload i with _ | ⟨c, cs⟩
    · rw [Mem.store_nil, Mem.store_nil]
    · rw [hp, List.length_cons] at hend
      rw [u32_of_lt (by omega)]
  unfold storeBlock
  dsimp only
  rw [hplace, haddr, hstore, hend, u32_of_lt (by omega)]
  refine ⟨rfl, h.blkSize, fun k hk => ?_, ?_⟩
  · dsimp only
    by_cases hin : (i - 1) * srv.blkSize ≤ k ∧ k < srv.upTo i
    · obtain ⟨d, rfl⟩ : ∃ d, k = (i - 1) * srv.blkSize + d := ⟨_, (Nat.add_sub_cancel' hin.1).symm⟩
      have hd : d < (srv.payload i).length := by omega
      rw [← Nat.add_assoc, Mem.store_add _ _ _ hd, payload_getElem hd]
    · have hkr : k < srv.upTo r := by
        have hmono : (i - 1) * srv.blkSize ≤ r * srv.blkSize := Nat.mul_le_mul_right _ (by omega)
        rw [hmaxr] at hk
        by_cases hlt : k < (i - 1) * srv.blkSize
        · exact lt_min (by omega) (by omega)
        · omega
      rw [← h.mem k hkr]
      by_cases hlt : k < (i - 1) * srv.blkSize
      · exact Mem.store_of_lt _ _ (by omega)
      · exact Mem.store_of_ge _ _ (by omega)
  · dsimp only
    rw [h.xferSize, hmaxr]
    split_ifs <;> omega

end Store

end InfotmUboot
